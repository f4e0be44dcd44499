import PureCalls.Tree.Kind
import PureCalls.Tree.Field

/-! Syntax trees: labelled nodes over leaves and lists, with the part of a text that each node stands for. -/
namespace PureCalls

/-- A place in a text, counted in an unsigned 32-bit number from 1. -/
abbrev Pos := Nat

namespace Pos

/-- The start of a node that no text was written for. -/
def dummy : Pos := 0

/-- The start kept for nodes that count as marked wherever they stand. -/
def reserved : Pos := 4294967294

/-- The first of the positions given to nodes that are moved out of their place in a text. -/
def firstFresh : Pos := 4294901759

/-- The position handed out after `p`. -/
def next (p : Pos) : Pos :=
  (p + 1) % 4294967296

end Pos

/-- The part of a text from `start` up to, but not with, `stop`. -/
structure Span where
  start : Pos
  stop : Pos
  deriving DecidableEq, Repr, Inhabited

/-- A syntax tree. The fields of a node are held in the order in which a walk visits them. -/
inductive Tree where
  | null
  | bool (value : Bool)
  | number (mantissa : Int) (decimals : Nat)
  | text (value : String)
  | range (value : Span)
  | list (items : List Tree)
  | node (kind : Kind) (span : Option Span) (fields : List (Field × Tree))
  deriving Repr, Inhabited, BEq

namespace Tree

/-- The first value given for a field. A field that is not given is null. -/
def lookup (f : Field) : List (Field × Tree) → Tree
  | [] => .null
  | (g, t) :: rest => if g = f then t else lookup f rest

def field (t : Tree) (f : Field) : Tree :=
  match t with
  | .node _ _ fields => lookup f fields
  | _ => .null

def items : Tree → List Tree
  | .list items => items
  | _ => []

def kind? : Tree → Option Kind
  | .node kind _ _ => some kind
  | _ => none

def isKind (t : Tree) (k : Kind) : Bool :=
  t.kind? == some k

def text? : Tree → Option String
  | .text value => some value
  | _ => none

def isNull : Tree → Bool
  | .null => true
  | _ => false

/-- Whether a field is given as true. -/
def flag (t : Tree) (f : Field) : Bool :=
  match t.field f with
  | .bool value => value
  | _ => false

/-- Where a node starts. A node without a place starts where text that was never written starts. -/
def start : Tree → Pos
  | .node _ (some span) _ => span.start
  | _ => .dummy

def stop : Tree → Pos
  | .node _ (some span) _ => span.stop
  | _ => .dummy

mutual

/-- How many trees stand inside one another. -/
def depth : Tree → Nat
  | .node _ _ fields => depthOfFields fields + 1
  | .list items => depthOfItems items + 1
  | _ => 1

def depthOfItems : List Tree → Nat
  | [] => 0
  | t :: rest => max (depth t) (depthOfItems rest)

def depthOfFields : List (Field × Tree) → Nat
  | [] => 0
  | (_, t) :: rest => max (depth t) (depthOfFields rest)

end

/-- Tells the call that ends an optional chain from other calls. -/
private def retagBase (kind : Kind) : Field × Tree → Field × Tree
  | (f, .node k span fields) =>
    if kind = .optionalChain ∧ f = .base ∧ k = .call then (f, .node .optionalCall span fields)
    else (f, .node k span fields)
  | (f, t) => (f, t)

/-- The node with the given fields in any order. -/
def ofFields (kind : Kind) (span : Option Span) (fields : List (Field × Tree)) : Tree :=
  .node kind span ((fields.map (retagBase kind)).mergeSort fun a b => a.1.rank ≤ b.1.rank)

end Tree
end PureCalls
