import Mathlib.Data.List.Forall2
import Mathlib.Logic.Relation
import PureCalls.Proofs.Heads

/-! The nodes that a walk reaches, and how one of them may begin with another. -/
namespace PureCalls
open Marking

/-- The nodes at which a walk may mark or wrap something. -/
def Kind.isSite (k : Kind) : Bool :=
  k = .call || k = .newExpression || k = .optionalChain || k = .tagged

theorem Kind.call_cases {kind : Kind} (h : (kind = .call || kind = .newExpression) = true) :
    kind = .call ∨ kind = .newExpression := by
  simpa using h

theorem Kind.isSite_of_call {kind : Kind} (h : (kind = .call || kind = .newExpression) = true) :
    kind.isSite = true := by
  rcases call_cases h with rfl | rfl <;> rfl

theorem Kind.not_type_of_call {kind : Kind} (h : (kind = .call || kind = .newExpression) = true) :
    kind.isType = false := by
  rcases call_cases h with rfl | rfl <;> rfl

namespace Tree

def span? : Tree → Option Span
  | .node _ span _ => span
  | _ => none

def isSite (t : Tree) : Bool :=
  t.kind?.any Kind.isSite

/-- What a call or a `new` expression calls. The words `super` and `import` are no expressions. -/
def callee? : Tree → Option Tree
  | .node kind _ fields =>
    if kind = .newExpression || (kind = .call && hasExpressionCallee fields) then some (lookup .callee fields)
    else none
  | _ => none

/-- Whether a tree is a call of something that counts as pure. -/
def callsPure (pure : Tree → Bool) (t : Tree) : Bool :=
  t.callee?.any pure

mutual

/-- All nodes of a tree. -/
def nodes : Tree → List Tree
  | .list items => nodesOfItems items
  | .node kind span fields => nodesOfFields fields ++ [.node kind span fields]
  | _ => []

def nodesOfItems : List Tree → List Tree
  | [] => []
  | t :: rest => nodes t ++ nodesOfItems rest

def nodesOfFields : List (Field × Tree) → List Tree
  | [] => []
  | (_, t) :: rest => nodes t ++ nodesOfFields rest

end

mutual

/-- The nodes that a walk reaches, in the order in which it leaves them. Types are not entered. -/
def reached : Tree → List Tree
  | .list items => reachedOfItems items
  | .node kind span fields => if kind.isType then [] else reachedOfFields fields ++ [.node kind span fields]
  | _ => []

def reachedOfItems : List Tree → List Tree
  | [] => []
  | t :: rest => reached t ++ reachedOfItems rest

def reachedOfFields : List (Field × Tree) → List Tree
  | [] => []
  | (_, t) :: rest => reached t ++ reachedOfFields rest

end

mutual

theorem reached_subset : ∀ t : Tree, t.reached ⊆ t.nodes
  | .list items => reached_subset_items items
  | .node kind span fields => by
    rw [reached, nodes]
    split
    · exact List.nil_subset _
    · exact List.append_subset.mpr ⟨List.subset_append_of_subset_left _ (reached_subset_fields fields),
        List.subset_append_right _ _⟩
  | .null | .bool _ | .number _ _ | .text _ | .range _ => List.nil_subset _

private theorem reached_subset_items : ∀ items, reachedOfItems items ⊆ nodesOfItems items
  | [] => List.nil_subset _
  | t :: rest => List.append_subset.mpr ⟨List.subset_append_of_subset_left _ (reached_subset t),
      List.subset_append_of_subset_right _ (reached_subset_items rest)⟩

private theorem reached_subset_fields : ∀ fields, reachedOfFields fields ⊆ nodesOfFields fields
  | [] => List.nil_subset _
  | (_, t) :: rest => List.append_subset.mpr ⟨List.subset_append_of_subset_left _ (reached_subset t),
      List.subset_append_of_subset_right _ (reached_subset_fields rest)⟩

end

/-- Whether all nodes start where text may stand, in front of all fresh positions, or are marked by their start. -/
def InText (t : Tree) : Prop :=
  ∀ n ∈ t.nodes, n.start < .firstFresh ∨ n.start = .reserved

instance (t : Tree) : Decidable t.InText :=
  inferInstanceAs (Decidable (∀ n ∈ t.nodes, n.start < .firstFresh ∨ n.start = .reserved))

/-- The sites that a walk reaches, in the order in which it leaves them. -/
def sites (t : Tree) : List Tree :=
  t.reached.filter isSite

def operandOf? : Tree → Option Tree
  | .node kind _ fields => (operand? kind).map (lookup · fields)
  | _ => none

/-- What stands in front of the `?.` of an optional chain with the given base. -/
def chained? (base : Tree) : Option Tree :=
  if base.isKind .member || base.isKind .optionalCall then base.operandOf? else none

/-- The expression that another one begins with, so that both start at the same place in a text. -/
def leading? : Tree → Option Tree
  | .node kind span fields =>
    if kind = .call then if hasExpressionCallee fields then some (lookup .callee fields) else none
    else if kind = .tagged then some (lookup .tag fields)
    else if kind = .optionalChain then (lookup .base fields).chained?
    else if kind = .optionalCall then none
    else operandOf? (.node kind span fields)
  | _ => none

def LeadsTo (outer inner : Tree) : Prop :=
  outer.leading? = some inner

/-- Whether an expression begins with another one, with any number of expressions in between. -/
def BeginsWith : Tree → Tree → Prop :=
  Relation.TransGen LeadsTo

/-- The field in front of a node, if the node is one that may wrap the call that it begins with. -/
def opening? (kind : Kind) (fields : List (Field × Tree)) : Option Field :=
  if kind = .call then if hasExpressionCallee fields then some .callee else none
  else if kind = .optionalChain then some .base
  else if kind = .tagged then some .tag
  else none

/-- The call in front of a node that may wrap it. -/
def front? : Tree → Option Tree
  | .node kind _ fields => (opening? kind fields).bind (headOf? · fields)
  | _ => none

end Tree
end PureCalls
