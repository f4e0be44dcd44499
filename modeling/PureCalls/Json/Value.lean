/-! JSON values, the ways in which a text fails to be one, and what all readers share. -/
namespace PureCalls.Json

/-- A JSON value. A number is kept as it was written. -/
inductive Value where
  | null
  | bool (value : Bool)
  | number (literal : String)
  | text (value : String)
  | list (items : List Value)
  | record (fields : List (String × Value))
  deriving Repr, Inhabited

/-- Why a text was refused: it breaks the rules of JSON, it ends too early, or it is JSON of the wrong shape. -/
inductive Fault where
  | malformed
  | unfinished
  | mismatched
  deriving DecidableEq, Repr

/-- The name under which a fault is reported. -/
def Fault.category : Fault → String
  | .malformed => "syntax"
  | .unfinished => "eof"
  | .mismatched => "data"

/-- Reads a value off the front of a text and gives back what is left. -/
abbrev Reader (α : Type) := List Char → Except Fault (α × List Char)

def isBlank (c : Char) : Bool :=
  c = ' ' || c = '\n' || c = '\t' || c = '\r'

def skipBlanks (cs : List Char) : List Char :=
  cs.dropWhile isBlank

/-- Reads the given letters and nothing else. -/
def readWord : List Char → Reader Unit
  | [], cs => .ok ((), cs)
  | _ :: _, [] => .error .unfinished
  | w :: ws, c :: cs => if c = w then readWord ws cs else .error .malformed

end PureCalls.Json
