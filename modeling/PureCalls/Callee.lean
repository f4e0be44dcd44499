import PureCalls.Imports
import PureCalls.Whitelist

/-! Callees that a whitelist can speak of: a binding, or a member reached from a binding by names alone. -/
namespace PureCalls

/-- A binding and the names of the members that lead from it to what is called. -/
structure Callee where
  root : Binding
  path : List String
  deriving DecidableEq, Repr, Inhabited

namespace Callee

/-- The name of a property that is not computed and not private. -/
def propertyName? (property : Tree) : Option String :=
  match property with
  | .node .identifier _ fields => (Tree.lookup .value fields).text?
  | _ => none

mutual

/-- The binding and path that an expression spells, through any parentheses. -/
def ofTree : Tree → Option Callee
  | .node kind span fields =>
    if kind = .identifier then (Tree.node kind span fields).binding?.map (⟨·, []⟩)
    else if kind = .paren then ofField .expression fields
    else if kind = .member then
      match propertyName? (Tree.lookup .property fields), ofField .object fields with
      | some name, some callee => some { callee with path := callee.path ++ [name] }
      | _, _ => none
    else none
  | _ => none

/-- The binding and path that the value of a field spells. -/
def ofField (f : Field) : List (Field × Tree) → Option Callee
  | [] => none
  | (g, t) :: rest => if g = f then ofTree t else ofField f rest

end

/-- Whether the whitelist has the callee. A chain of the whitelist also stands for all chains that begin with it. -/
def isAllowed (w : Whitelist) (imports : Imports) (callee : Callee) : Bool :=
  w.modules.any fun (source, patterns) =>
    if callee.path.isEmpty then imports.refersTo callee.root source patterns.plain
    else
      patterns.chains.any fun chain =>
        chain.path.isPrefixOf callee.path && imports.refersTo callee.root source [chain.root]

end Callee

/-- Whether a call of the expression is known to be pure. -/
def isPure (w : Whitelist) (imports : Imports) (callee : Tree) : Bool :=
  match Callee.ofTree callee with
  | some callee => callee.isAllowed w imports
  | none => false

end PureCalls
