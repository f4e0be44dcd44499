import PureCalls.Json.Reading

/-! The options: which calls of which modules have no side effects, read from a JSON text. -/
namespace PureCalls

/-- One entry in the list of a module. -/
inductive Entry where
  /-- A call of the export itself. -/
  | plain (name : String)
  /-- A call of a member of the export, the export first and each member behind its object. -/
  | chain (segments : List String)
  /-- Any other value. It is kept so that one odd entry does not spoil the whole list, and never matches. -/
  | unrecognized
  deriving DecidableEq, Repr, Inhabited

/-- The entries of each module, in the order in which the modules first appear. -/
structure Options where
  modules : List (String × List Entry)
  deriving Repr, Inhabited

namespace Options
open Json

def texts? : List Value → Option (List String)
  | [] => some []
  | .text s :: rest => (texts? rest).map (s :: ·)
  | _ :: _ => none

end Options

/-- A string names an export, and a list of strings a chain. -/
def Entry.ofValue : Json.Value → Entry
  | .text name => .plain name
  | .list items =>
    match Options.texts? items with
    | some segments => .chain segments
    | none => .unrecognized
  | _ => .unrecognized

namespace Options
open Json

/-- Gives a key a value. A key that is already there keeps its place. -/
def assign {α : Type} (fields : List (String × α)) (key : String) (value : α) : List (String × α) :=
  match fields with
  | [] => [(key, value)]
  | (k, v) :: rest => if k = key then (k, value) :: rest else (k, v) :: assign rest key value

/-- Of the values given to one key the last one counts, at the place of the first. -/
def lastValues {α : Type} (fields : List (String × α)) : List (String × α) :=
  fields.foldl (fun done field => assign done field.1 field.2) []

/-- How many lists and records an options text may hold inside one another. -/
def maxDepth : Nat := 127

/-- Reads an entry in whole before it is told what it is. Three signs are open around it. -/
def readEntry : Reader Entry := fun cs => do
  let (value, rest) ← readValue (maxDepth - 3) cs
  return (Entry.ofValue value, rest)

def readEntries : Reader (List Entry) := fun cs =>
  match skipBlanks cs with
  | '[' :: rest => readItems readEntry rest
  | cs => .error (refusal cs)

def readModules : Reader Options := fun cs =>
  match skipBlanks cs with
  | '{' :: rest => do
    let (fields, rest) ← readFields readEntries rest
    return (⟨lastValues fields⟩, rest)
  | cs => .error (refusal cs)

/-- The one key of an options record. -/
def key : List Char := "pureCalls".toList

/-- Reads the end of an options record behind its key. A further key is refused as soon as it is read, whether it
is unknown or given twice. -/
def readEnd : Reader Unit := fun cs =>
  match skipBlanks cs with
  | [] => .error .unfinished
  | '}' :: rest => .ok ((), rest)
  | ',' :: rest =>
    match skipBlanks rest with
    | [] => .error .unfinished
    | '"' :: rest => do
      let _ ← readText rest
      .error .mismatched
    | _ => .error .malformed
  | _ => .error .malformed

/-- Reads options written as a record, the opening brace being read. -/
def readRecord : Reader Options := fun cs =>
  match skipBlanks cs with
  | [] => .error .unfinished
  | '}' :: rest => .ok (⟨[]⟩, rest)
  | '"' :: rest => do
    let (name, rest) ← readText rest
    if name ≠ key then .error .mismatched
    let ((), rest) ← readColon rest
    let (options, rest) ← readModules rest
    let ((), rest) ← readEnd rest
    return (options, rest)
  | _ => .error .malformed

/-- Reads options written as a list, the opening bracket being read. -/
def readTuple : Reader Options := fun cs =>
  match skipBlanks cs with
  | [] => .error .unfinished
  | ']' :: rest => .ok (⟨[]⟩, rest)
  | cs => do
    let (options, rest) ← readModules cs
    match skipBlanks rest with
    | [] => .error .unfinished
    | ']' :: rest => return (options, rest)
    | _ => .error .malformed

/-- Reads options up to the end of the text. They are a record with the key `pureCalls`, which may be missing, or a
list with the value of that key. -/
def readAll (cs : List Char) : Except Fault Options := do
  let (options, rest) ← match skipBlanks cs with
    | [] => .error .unfinished
    | '{' :: rest => readRecord rest
    | '[' :: rest => readTuple rest
    | cs => .error (refusal cs)
  match skipBlanks rest with
  | [] => return options
  | _ => .error .malformed

/-- The options in a text. -/
def ofText (text : String) : Except Fault Options :=
  readAll text.toList

/-- What is said of options that cannot be read. -/
def refusalMessage : String :=
  "invalid annotate-module-pure options"

end Options
end PureCalls
