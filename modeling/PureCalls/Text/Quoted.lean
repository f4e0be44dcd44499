import PureCalls.Text.Characters

/-! The text that a string literal stands for, and its spelling between the quotes that need fewer escapes. -/
namespace PureCalls.Text

/-- A code point, which may be one half of a surrogate pair. -/
abbrev CodePoint := Nat

namespace CodePoint

def isHigh (n : CodePoint) : Bool := 0xD800 ≤ n && n ≤ 0xDBFF

def isLow (n : CodePoint) : Bool := 0xDC00 ≤ n && n ≤ 0xDFFF

/-- Puts the halves of pairs that stand side by side together. -/
def joinPairs : List CodePoint → List CodePoint
  | a :: b :: rest =>
    if isHigh a && isLow b then (0x10000 + (a - 0xD800) * 0x400 + (b - 0xDC00)) :: joinPairs rest
    else a :: joinPairs (b :: rest)
  | rest => rest

/-- The text of code points, if none is half a pair. -/
def text? (points : List CodePoint) : Option String :=
  if points.any fun n => isHigh n || isLow n then none else some (String.ofList (points.map Char.ofNat))

end CodePoint

/-- Takes up to `count` digits of a base off the front. -/
private def takeDigits (base : Nat) : (count : Nat) → List Char → Nat → Nat × List Char
  | 0, cs, n => (n, cs)
  | _ + 1, [], n => (n, [])
  | count + 1, c :: cs, n =>
    if isDigitOf base c then takeDigits base count cs (base * n + (digitValue? c).getD 0) else (n, c :: cs)

/-- The code points that an escape stands for, and the text behind it. -/
private def unescape : List Char → List CodePoint × List Char
  | [] => ([], [])
  | 'n' :: rest => ([10], rest)
  | 'r' :: rest => ([13], rest)
  | 't' :: rest => ([9], rest)
  | 'b' :: rest => ([8], rest)
  | 'v' :: rest => ([11], rest)
  | 'f' :: rest => ([12], rest)
  | '\r' :: '\n' :: rest => ([], rest)
  | 'x' :: rest =>
    let (n, rest) := takeDigits 16 2 rest 0
    ([n], rest)
  | 'u' :: '{' :: rest =>
    let (n, rest) := takeDigits 16 rest.length rest 0
    ([n], rest.drop 1)
  | 'u' :: rest =>
    let (n, rest) := takeDigits 16 4 rest 0
    ([n], rest)
  | c :: rest =>
    if isLineBreak c then ([], rest)
    else if isDigitOf 8 c then
      let (n, rest) := takeDigits 8 (if c ≤ '3' then 3 else 2) (c :: rest) 0
      ([n], rest)
    else ([c.toNat], rest)

private def pointsOf : (fuel : Nat) → List Char → List CodePoint
  | 0, _ => []
  | _ + 1, [] => []
  | fuel + 1, '\\' :: rest =>
    let (points, rest) := unescape rest
    points ++ pointsOf fuel rest
  | fuel + 1, c :: rest => c.toNat :: pointsOf fuel rest

/-- The code points between the quotes of a literal, without its escapes. -/
def decodeQuoted (raw : String) : List CodePoint :=
  let inner := (raw.toList.drop 1).dropLast
  CodePoint.joinPairs (pointsOf inner.length inner)

private def upperHex (n : Nat) : String :=
  String.ofList ((Nat.toDigits 16 n).map Char.toUpper)

/-- A code point between double quotes or single quotes. -/
private def encodePoint (quote : Char) (n next : CodePoint) : String :=
  if n = quote.toNat then "\\" ++ quote.toString
  else if n = 0 then (if 48 ≤ next && next ≤ 57 then "\\x00" else "\\0")
  else if n = 8 then "\\b"
  else if n = 10 then "\\n"
  else if n = 11 then "\\v"
  else if n = 12 then "\\f"
  else if n = 13 then "\\r"
  else if n = 92 then "\\\\"
  else if n < 32 && n ≠ 9 then (if n < 16 then "\\x0" else "\\x") ++ String.ofList (Nat.toDigits 16 n)
  else if n = 0x2028 || n = 0x2029 || n = 0xFEFF || CodePoint.isHigh n || CodePoint.isLow n then "\\u" ++ upperHex n
  else (Char.ofNat n).toString

private def encodePoints (quote : Char) : List CodePoint → String
  | [] => ""
  | n :: rest => encodePoint quote n (rest.head?.getD 0) ++ encodePoints quote rest

/-- Text as a literal. Double quotes stand around it, unless there are more of them inside than single ones. -/
def encodeQuoted (points : List CodePoint) : String :=
  let quote := if points.count '"'.toNat > points.count '\''.toNat then '\'' else '"'
  quote.toString ++ encodePoints quote points ++ quote.toString

/-- The escapes of a template that stay as they are. -/
private def keptInTemplate (c : Char) : Bool :=
  ['\\', 'n', 'r', 'v', 'b', 'f', 'u', '\r', '\n', '\x60'].contains c || isDigitOf 8 c

/-- A character of a template that is not written as an escape there. -/
private def templateCharacter (c : Char) (next : Option Char) : String :=
  if c.toNat = 0 then
    match next with
    | some d => if '1' ≤ d ∧ d ≤ '9' then "\\x00" else "\\0"
    | none => "\\0"
  else if c.toNat = 8 then "\\b"
  else if c.toNat = 11 then "\\v"
  else if c.toNat = 12 then "\\f"
  else if c.toNat = 0x2028 || c.toNat = 0x2029 || c.toNat = 0xFEFF then "\\u" ++ upperHex c.toNat
  else c.toString

/-- A character of a template that was written by its code. -/
private def templateByte (n : Nat) (next : Option Char) : String :=
  if n = 0 then
    match next with
    | some d => if '1' ≤ d ∧ d ≤ '9' then "\\x00" else "\\0"
    | none => "\\0"
  else if n < 16 then "\\x0" ++ String.ofList (Nat.toDigits 16 n)
  else if 32 ≤ n && n ≤ 126 then (Char.ofNat n).toString
  else "\\x" ++ String.ofList (Nat.toDigits 16 n)

/-- The text of a template with fewer escapes. `afterDollar` tells whether a dollar sign stands in front. -/
private def shortTemplateFrom : (fuel : Nat) → (afterDollar : Bool) → List Char → String
  | 0, _, _ => ""
  | _ + 1, _, [] => ""
  | fuel + 1, afterDollar, '\\' :: c :: rest =>
    if c = 't' then "\t" ++ shortTemplateFrom fuel false rest
    else if c = 'x' then
      let (n, rest) := takeDigits 16 2 rest 0
      templateByte n rest.head? ++ shortTemplateFrom fuel false rest
    else if c.toNat = 0x2028 || c.toNat = 0x2029 then shortTemplateFrom fuel false rest
    else if keptInTemplate c || (c = '$' && rest.head? = some '{') || (c = '{' && afterDollar) then
      "\\" ++ c.toString ++ shortTemplateFrom fuel false rest
    else templateCharacter c rest.head? ++ shortTemplateFrom fuel (c = '$') rest
  | fuel + 1, _, c :: rest => templateCharacter c rest.head? ++ shortTemplateFrom fuel (c = '$') rest

/-- The text of a template with fewer escapes and the same meaning. -/
def shortTemplate (raw : String) : String :=
  shortTemplateFrom (raw.length + 1) false raw.toList

end PureCalls.Text
