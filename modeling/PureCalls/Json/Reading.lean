import PureCalls.Json.Number
import PureCalls.Json.Text

/-! Readers of lists, records and whole values. -/
namespace PureCalls.Json

/-- Reads the items behind the first one, and the closing bracket. -/
def readMoreItems {α : Type} (item : Reader α) : Nat → Reader (List α)
  | 0, _ => .error .unfinished
  | n + 1, cs =>
    match skipBlanks cs with
    | [] => .error .unfinished
    | ']' :: rest => .ok ([], rest)
    | ',' :: rest =>
      match skipBlanks rest with
      | [] => .error .unfinished
      | ']' :: _ => .error .malformed
      | rest => do
        let (x, rest) ← item rest
        let (xs, rest) ← readMoreItems item n rest
        return (x :: xs, rest)
    | _ => .error .malformed

/-- Reads the items of a list and the closing bracket, the opening one being read. -/
def readItems {α : Type} (item : Reader α) : Reader (List α) := fun cs =>
  match skipBlanks cs with
  | [] => .error .unfinished
  | ']' :: rest => .ok ([], rest)
  | cs => do
    let (x, rest) ← item cs
    let (xs, rest) ← readMoreItems item (rest.length + 1) rest
    return (x :: xs, rest)

def readColon : Reader Unit := fun cs =>
  match skipBlanks cs with
  | [] => .error .unfinished
  | ':' :: rest => .ok ((), rest)
  | _ => .error .malformed

/-- Reads a key, the colon and a value, the quote that opens the key being read. -/
def readField {α : Type} (value : Reader α) : Reader (String × α) := fun cs => do
  let (key, rest) ← readText cs
  let ((), rest) ← readColon rest
  let (v, rest) ← value rest
  return ((String.ofList key, v), rest)

/-- Reads the fields behind the first one, and the closing brace. -/
def readMoreFields {α : Type} (value : Reader α) : Nat → Reader (List (String × α))
  | 0, _ => .error .unfinished
  | n + 1, cs =>
    match skipBlanks cs with
    | [] => .error .unfinished
    | '}' :: rest => .ok ([], rest)
    | ',' :: rest =>
      match skipBlanks rest with
      | [] => .error .unfinished
      | '"' :: rest => do
        let (field, rest) ← readField value rest
        let (fields, rest) ← readMoreFields value n rest
        return (field :: fields, rest)
      | _ => .error .malformed
    | _ => .error .malformed

/-- Reads the fields of a record and the closing brace, the opening one being read. -/
def readFields {α : Type} (value : Reader α) : Reader (List (String × α)) := fun cs =>
  match skipBlanks cs with
  | [] => .error .unfinished
  | '}' :: rest => .ok ([], rest)
  | '"' :: rest => do
    let (field, rest) ← readField value rest
    let (fields, rest) ← readMoreFields value (rest.length + 1) rest
    return (field :: fields, rest)
  | _ => .error .malformed

def isNumberStart (c : Char) : Bool :=
  c = '-' || c.isDigit

/-- Reads a value that is neither a list nor a record. -/
def readScalar : Reader Value
  | [] => .error .unfinished
  | 'n' :: rest => do let ((), rest) ← readWord ['u', 'l', 'l'] rest; return (.null, rest)
  | 't' :: rest => do let ((), rest) ← readWord ['r', 'u', 'e'] rest; return (.bool true, rest)
  | 'f' :: rest => do let ((), rest) ← readWord ['a', 'l', 's', 'e'] rest; return (.bool false, rest)
  | '"' :: rest => do let (text, rest) ← readText rest; return (.text (String.ofList text), rest)
  | c :: rest =>
    if isNumberStart c then do
      let (literal, rest) ← readNumber (c :: rest)
      return (.number literal, rest)
    else .error .malformed

/-- Reads a value with at most `depth` lists and records inside one another. -/
def readValue : (depth : Nat) → Reader Value
  | 0, cs =>
    match skipBlanks cs with
    | '[' :: _ | '{' :: _ => .error .malformed
    | cs => readScalar cs
  | depth + 1, cs =>
    match skipBlanks cs with
    | '[' :: rest => do let (items, rest) ← readItems (readValue depth) rest; return (.list items, rest)
    | '{' :: rest => do let (fields, rest) ← readFields (readValue depth) rest; return (.record fields, rest)
    | cs => readScalar cs

/-- What is wrong with a text that starts with a value of an unwanted type. The value is read first, but for a list
or a record only its opening sign. -/
def refusal (cs : List Char) : Fault :=
  match cs with
  | '[' :: _ | '{' :: _ => .mismatched
  | cs =>
    match readScalar cs with
    | .error fault => fault
    | .ok _ => .mismatched

end PureCalls.Json
