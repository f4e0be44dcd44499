import PureCalls.Callee
import PureCalls.Comments

/-!
The walk that puts a mark in front of every pure call. A mark belongs to a position, so a marked call at the front
of a longer expression gets a position and parentheses of its own.
-/
namespace PureCalls

/-- What a walk changes besides the tree: the comments, the places it marked, and the next fresh position. -/
structure Marking where
  comments : Comments
  marked : List Pos
  fresh : Pos
  deriving Repr, Inhabited

namespace Marking

/-- Marks what starts at a position, unless it is marked or stands nowhere in a text. -/
def mark (s : Marking) (p : Pos) : Marking :=
  if p = .dummy || p = .reserved || s.comments.isMarked p then s
  else { s with comments := s.comments.append p [Comment.marker], marked := s.marked.insert p }

/-- Moves the mark of a position to a fresh one. -/
def release (s : Marking) (p : Pos) : Marking :=
  { comments := s.comments.moveMarker p s.fresh
    marked := s.marked.filter (· ≠ p)
    fresh := s.fresh.next }

/-- The fields through which an expression begins with another one. -/
def operand? (kind : Kind) : Option Field :=
  if kind = .member then some .object
  else if kind = .optionalChain then some .base
  else if kind = .optionalCall then some .callee
  else if kind = .nonNull || kind = .asType || kind = .satisfiesType || kind = .constAssertion ||
    kind = .instantiation then some .expression
  else none

/-- The node at a fresh position of its own, in parentheses that stand where it stood. -/
def wrap (kind : Kind) (span : Option Span) (fields : List (Field × Tree)) (fresh : Pos) : Tree :=
  .node .paren span [(.expression, .node kind (some ⟨fresh, fresh⟩) fields)]

mutual

/-- Wraps the call that an expression begins with, if this walk marked it and it starts at `outer`. -/
def wrapHead (outer : Pos) : Tree → Marking → Tree × Marking
  | .node kind span fields, s =>
    if kind = .call || kind = .newExpression then
      let start := (Tree.node kind span fields).start
      if start = outer && s.marked.contains start then (wrap kind span fields s.fresh, s.release start)
      else (.node kind span fields, s)
    else
      match operand? kind with
      | some f =>
        let (fields, s) := wrapHeadOf outer f fields s
        (.node kind span fields, s)
      | none => (.node kind span fields, s)
  | t, s => (t, s)

/-- Wraps the call that the value of a field begins with. -/
def wrapHeadOf (outer : Pos) (f : Field) : List (Field × Tree) → Marking → List (Field × Tree) × Marking
  | [], s => ([], s)
  | (g, t) :: rest, s =>
    if g = f then
      let (t, s) := wrapHead outer t s
      ((g, t) :: rest, s)
    else
      let (rest, s) := wrapHeadOf outer f rest s
      ((g, t) :: rest, s)

end

/-- Whether the callee of a call is an expression, and not `super` or `import`. -/
def hasExpressionCallee (fields : List (Field × Tree)) : Bool :=
  let callee := Tree.lookup .callee fields
  !callee.isKind .superCallee && !callee.isKind .importCallee

/-- What is done at a node once its children are done. -/
def visit (pure : Tree → Bool) (kind : Kind) (span : Option Span) (fields : List (Field × Tree)) (s : Marking) :
    Tree × Marking :=
  let start := (Tree.node kind span fields).start
  if kind = .call then
    if hasExpressionCallee fields then
      let (fields, s) := wrapHeadOf start .callee fields s
      (.node kind span fields, if pure (Tree.lookup .callee fields) then s.mark start else s)
    else (.node kind span fields, s)
  else if kind = .newExpression then
    (.node kind span fields, if pure (Tree.lookup .callee fields) then s.mark start else s)
  else if kind = .optionalChain then wrapHead start (.node kind span fields) s
  else if kind = .tagged then
    let (fields, s) := wrapHeadOf start .tag fields s
    (.node kind span fields, s)
  else (.node kind span fields, s)

mutual

/-- Visits a tree, the children of a node before the node. Types are not entered. -/
def walk (pure : Tree → Bool) : Tree → Marking → Tree × Marking
  | .list items, s =>
    let (items, s) := walkItems pure items s
    (.list items, s)
  | .node kind span fields, s =>
    if kind.isType then (.node kind span fields, s)
    else
      let (fields, s) := walkFields pure fields s
      visit pure kind span fields s
  | t, s => (t, s)

def walkItems (pure : Tree → Bool) : List Tree → Marking → List Tree × Marking
  | [], s => ([], s)
  | t :: rest, s =>
    let (t, s) := walk pure t s
    let (rest, s) := walkItems pure rest s
    (t :: rest, s)

def walkFields (pure : Tree → Bool) : List (Field × Tree) → Marking → List (Field × Tree) × Marking
  | [], s => ([], s)
  | (f, t) :: rest, s =>
    let (t, s) := walk pure t s
    let (rest, s) := walkFields pure rest s
    ((f, t) :: rest, s)

end

end Marking

/-- One run over many programs: the imports of the program being walked, and what the walks share. -/
structure Annotator where
  imports : Imports := []
  marking : Marking
  deriving Repr, Inhabited

namespace Annotator

/-- A run over the given comments that takes its fresh positions from `fresh` on. -/
def start (comments : Comments) (fresh : Pos) : Annotator :=
  { marking := ⟨comments, [], fresh⟩ }

/-- Marks the pure calls of a program. Only a module that imports something can have any. -/
def visit (w : Whitelist) (program : Tree) (a : Annotator) : Tree × Annotator :=
  if program.isKind .moduleProgram && !w.isEmpty then
    let imports := Imports.ofModule program
    if imports.isEmpty then (program, { a with imports })
    else
      let (program, marking) := Marking.walk (isPure w imports) program a.marking
      (program, { imports := [], marking := { marking with marked := [] } })
  else (program, a)

/-- Marks the pure calls of programs one after the other, and shows the comments after each. -/
def steps (w : Whitelist) : List Tree → Annotator → List (Tree × Comments)
  | [], _ => []
  | program :: rest, a =>
    let (program, a) := visit w program a
    (program, a.marking.comments) :: steps w rest a

end Annotator
end PureCalls
