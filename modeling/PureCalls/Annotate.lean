import PureCalls.Grammar.Program
import PureCalls.Marking
import PureCalls.Printer.Program
import PureCalls.Scope

/-! Marking the pure calls in source text. -/
namespace PureCalls

/-- How source text is read and written. -/
structure Style where
  dialect : Grammar.Dialect := {}
  /-- Whether all blanks are left out that can be left out. -/
  compact : Bool := false
  deriving DecidableEq, Repr, Inhabited

/-- The text with a mark in front of every pure call, in the layout of the style. -/
def annotate (w : Whitelist) (style : Style) (text : String) : Except Source.Fault String := do
  let program ← Grammar.parse style.dialect text
  let run := Annotator.start program.leading .firstFresh
  let (tree, run) := Annotator.visit w (Scope.resolveProgram program.tree) run
  return Printer.print style.compact run.marking.comments program.trailing tree

/-- The texts after each of `times` runs, every run on the text of the one before. A run that fails is the last. -/
def annotateTimes (w : Whitelist) (style : Style) : (times : Nat) → String → List (Except Source.Fault String)
  | 0, _ => []
  | times + 1, text =>
    match annotate w style text with
    | .ok text => .ok text :: annotateTimes w style times text
    | .error fault => [.error fault]

/-- What is said of source text that cannot be read. -/
def Source.Fault.report (fault : Source.Fault) : String :=
  "failed to parse source: " ++ fault.message

end PureCalls
