import PureCalls.Comments
import PureCalls.Source.Fault
import PureCalls.Source.Token
import PureCalls.Text.Characters

/-! Cutting source text into tokens and comments. -/
namespace PureCalls.Source
open Text

/-- The text that is left, its position, and the comments seen so far. -/
structure Scanner where
  rest : List Char
  pos : Pos := 1
  /-- Comments that wait for the token they stand in front of. -/
  pending : List Comment := []
  leading : Comments := {}
  trailing : Comments := {}
  /-- What the last token holds that strict code forbids. -/
  strictFaults : List Fault := []
  deriving Inhabited

abbrev Scan := StateT Scanner (Except Fault)

namespace Scanner

def width (cs : List Char) : Nat :=
  cs.foldl (fun n c => n + c.utf8Size) 0

/-- Passes over characters at the front. -/
def skip (s : Scanner) (cs : List Char) : Scanner :=
  { s with rest := s.rest.drop cs.length, pos := s.pos + width cs }

/-- Passes over all characters at the front that are in a class, and returns them. -/
def takeWhile (p : Char → Bool) : Scan (List Char) := fun s =>
  let cs := s.rest.takeWhile p
  .ok (cs, s.skip cs)

def peek? : Scan (Option Char) := fun s => .ok (s.rest.head?, s)

def next? : Scan (Option Char) := fun s =>
  match s.rest with
  | [] => .ok (none, s)
  | c :: _ => .ok (some c, s.skip [c])

def startsWith (word : String) : Scan Bool := fun s => .ok (word.toList.isPrefixOf s.rest, s)

/-- Passes over the given text if it stands at the front. -/
def eat (word : String) : Scan Bool := fun s =>
  if word.toList.isPrefixOf s.rest then .ok (true, s.skip word.toList) else .ok (false, s)

def fail {α : Type} (fault : Fault) : Scan α := fun _ => .error fault

def forbidInStrict (fault : Fault) : Scan Unit :=
  modify fun s => { s with strictFaults := s.strictFaults ++ [fault] }

/-- Keeps a comment for the next token, or for the token in front of it. -/
def keep (comment : Comment) (forNext : Bool) (before : Pos) : Scan Unit :=
  modify fun s =>
    if forNext then { s with pending := s.pending ++ [comment] }
    else { s with trailing := s.trailing.append before [comment] }

/-- The text up to the end of a block comment and the text behind it. -/
def splitBlockComment : List Char → Option (List Char × List Char)
  | [] => none
  | '*' :: '/' :: rest => some ([], rest)
  | c :: rest => (splitBlockComment rest).map fun (text, rest) => (c :: text, rest)

/-- The token in front of a blank space, and where it ends. -/
structure Before where
  token? : Option Token
  stop : Pos

private def Before.canEndLine (b : Before) : Bool :=
  match b.token? with
  | some t => t.canEndLine
  | none => true

private def Before.canKeepComment (b : Before) : Bool :=
  match b.token? with
  | some t => t.canKeepComment
  | none => false

/-- Reads a comment that runs to the end of the line, its opening sign being read. -/
def lineComment (before : Before) (broken : Bool) : Scan Unit := do
  let text ← takeWhile (!isLineBreak ·)
  keep ⟨.line, String.ofList text⟩ (broken || !before.canEndLine) before.stop

/-- Reads a comment up to its closing sign, and tells whether a line ended in it. A comment in front of a semicolon
belongs to the token before. A comment without a closing sign is none. -/
def blockComment (before : Before) (broken : Bool) : Scan (Option Bool) := do
  let s ← get
  match splitBlockComment s.rest with
  | none => return none
  | some (text, rest) =>
    set { s with rest := rest, pos := s.pos + width text + 2 }
    let forNext := (broken || !before.canKeepComment) && !(!broken && rest.head? = some ';')
    keep ⟨.block, String.ofList text⟩ forNext before.stop
    return some (text.any isLineBreak)

/-- What stands in front of a token. -/
structure Gap where
  /-- Whether a line ended there. -/
  broken : Bool
  /-- Whether a comment there has no end. -/
  unclosed : Bool := false

/-- Passes over blanks and comments. -/
def skipBlanks (before : Before) : (fuel : Nat) → (broken : Bool) → Scan Gap
  | 0, broken => return ⟨broken, false⟩
  | fuel + 1, broken => do
    match ← peek? with
    | none => return ⟨broken, false⟩
    | some c =>
      if isSpace c then
        let _ ← takeWhile isSpace
        skipBlanks before fuel broken
      else if isLineBreak c then
        let _ ← next?
        skipBlanks before fuel true
      else if ← eat "//" then
        lineComment before broken
        skipBlanks before fuel broken
      else if ← eat "/*" then
        match ← blockComment before broken with
        | some ended => skipBlanks before fuel (broken || ended)
        | none => return ⟨broken, true⟩
      else if ← startsWith "<!--" then
        let _ ← eat "<!--"
        lineComment before broken
        forbidInStrict .legacyComment
        skipBlanks before fuel broken
      else if broken && (← startsWith "-->") then
        let _ ← eat "-->"
        lineComment before broken
        forbidInStrict .legacyComment
        skipBlanks before fuel broken
      else return ⟨broken, false⟩

private def hexDigits : Nat → List Char → Nat → Option (Nat × List Char)
  | 0, cs, n => some (n, cs)
  | k + 1, c :: cs, n =>
    match digitValue? c with
    | some d => hexDigits k cs (16 * n + d)
    | none => none
  | _ + 1, [], _ => none

/-- Reads exactly `count` hexadecimal digits. -/
def fixedHex (count : Nat) : Scan Nat := do
  let s ← get
  match hexDigits count s.rest 0 with
  | some (n, rest) =>
    set { s with rest := rest, pos := s.pos + count }
    return n
  | none => fail (.badEscape (toString count ++ " hex characters"))

/-- Reads the code point behind `\u`. -/
def codePoint : Scan Nat := do
  if ← eat openBrace then
    let digits ← takeWhile (isDigitOf 16)
    let n := digits.foldl (fun n c => 16 * n + (digitValue? c).getD 0) 0
    if digits.isEmpty then fail (.badEscape "1-6 hex characters")
    if n > 0x10FFFF then fail (.badEscape "1-6 hex characters in the range 0 to 10FFFF.")
    if !(← eat closeBrace) then fail .badUnicodeEscape
    return n
  else fixedHex 4

/-- Reads the rest of a name. Escapes are read as the characters they stand for. -/
def nameRest : (fuel : Nat) → (name : List Char) → (escaped : Bool) → Scan (List Char × Bool)
  | 0, name, escaped => return (name, escaped)
  | fuel + 1, name, escaped => do
    let part ← takeWhile isNamePart
    let name := name ++ part
    if ← eat "\\" then
      if !(← eat "u") then fail .escapeExpected
      let n ← codePoint
      let c := Char.ofNat n
      if n ≠ c.toNat || !(if name.isEmpty then isNameStart c else isNamePart c) then fail .badNameCharacter
      nameRest fuel (name ++ [c]) true
    else return (name, escaped)

def name : Scan (String × Bool) := do
  let s ← get
  let (cs, escaped) ← nameRest (s.rest.length + 1) [] false
  return (String.ofList cs, escaped)

/-- Reads digits of a base, with separators between them. -/
def digits (base : Nat) : Scan (List Char) := do
  let cs ← takeWhile fun c => isDigitOf base c || c = '_'
  let badly : List Char → Bool := fun cs =>
    cs.head? = some '_' || cs.getLast? = some '_' ||
      ((cs.zip (cs.drop 1)).any fun (a, b) => a = '_' && b = '_')
  if badly cs then fail .separatorOutsideDigits else return cs

private def notNameNext : Scan Unit := do
  match ← peek? with
  | some c => if isNameStart c then fail .nameAfterNumber
  | none => return

private def numberToken (raw : List Char) : Scan Token := do
  if ← eat "n" then
    notNameNext
    return .bigInt (String.ofList (raw ++ ['n']))
  notNameNext
  return .number (String.ofList raw)

private def radixNumber (base : Nat) (mark : Char) : Scan Token := do
  let cs ← digits base
  if cs.isEmpty then fail (.digitExpected base)
  numberToken (['0', mark] ++ cs)

private def exponent : Scan (List Char) := do
  let s ← get
  match s.rest with
  | e :: rest =>
    if e = 'e' || e = 'E' then
      let sign := match rest with
        | c :: _ => if c = '+' || c = '-' then [c] else []
        | [] => []
      set (s.skip (e :: sign))
      if sign.isEmpty && rest.isEmpty then fail .exponentExpected
      let cs ← digits 10
      if cs.isEmpty then fail (.digitExpected 10)
      return e :: sign ++ cs
    else return []
  | [] => return []

private def fractionAndPower (whole : List Char) : Scan Token := do
  if whole.isEmpty || (← startsWith ".") then
    let dotted ← eat "."
    let fraction ← if (← peek?) = some '_' then fail .separatorOutsideDigits else digits 10
    let power ← exponent
    notNameNext
    return .number (String.ofList (whole ++ (if dotted then ['.'] else []) ++ fraction ++ power))
  else
    let power ← exponent
    if power.isEmpty then numberToken whole
    else
      notNameNext
      return .number (String.ofList (whole ++ power))

/-- Reads a number. One that starts with a superfluous zero is octal, or decimal if it has a larger digit. -/
def number : Scan Token := do
  let s ← get
  match s.rest with
  | '0' :: c :: _ =>
    if c = 'x' || c = 'X' then
      set (s.skip ['0', c])
      radixNumber 16 c
    else if c = 'o' || c = 'O' then
      set (s.skip ['0', c])
      radixNumber 8 c
    else if c = 'b' || c = 'B' then
      set (s.skip ['0', c])
      radixNumber 2 c
    else if c.isDigit then
      let whole ← takeWhile Char.isDigit
      if whole.all (isDigitOf 8) then
        forbidInStrict .legacyOctal
        notNameNext
        return .number (String.ofList whole)
      else
        forbidInStrict .legacyDecimal
        fractionAndPower whole
    else if c = '_' then fail .separatorOutsideDigits
    else
      set (s.skip ['0'])
      fractionAndPower ['0']
  | _ =>
    let whole ← digits 10
    fractionAndPower whole

/-- Checks one escape of a string and passes over it. -/
def escape (inTemplate : Bool) : Scan Unit := do
  match ← next? with
  | none => fail .unterminatedString
  | some 'x' => let _ ← fixedHex 2
  | some 'u' => let _ ← codePoint
  | some '\r' => let _ ← eat "\n"
  | some c =>
    if isDigitOf 8 c then
      let following ← peek?
      let more := match following with
        | some d => isDigitOf 8 d
        | none => false
      if c ≠ '0' || more then
        if inTemplate then fail .legacyOctal else forbidInStrict .legacyOctal

private def stringRest (quote : Char) : (fuel : Nat) → Scan Unit
  | 0 => fail .unterminatedString
  | fuel + 1 => do
    match ← next? with
    | none => fail .unterminatedString
    | some c =>
      if c = quote then return
      else if c = '\n' || c = '\r' then fail .unterminatedString
      else if c = '\\' then
        escape false
        stringRest quote fuel
      else stringRest quote fuel

/-- The characters between the start and the end of a reading. -/
def read (start stop : Scanner) : List Char :=
  start.rest.take (start.rest.length - stop.rest.length)

def string (quote : Char) : Scan Token := do
  let s ← get
  let _ ← next?
  stringRest quote (s.rest.length + 1)
  let t ← get
  return .string (String.ofList (read s t))

private def regExpBody : (fuel : Nat) → (inClass : Bool) → Scan Unit
  | 0, _ => fail .unterminatedRegExp
  | fuel + 1, inClass => do
    match ← next? with
    | none => fail .unterminatedRegExp
    | some c =>
      if isLineBreak c then fail .unterminatedRegExp
      else if c = '\\' then
        match ← next? with
        | none => fail .unterminatedRegExp
        | some d => if isLineBreak d then fail .unterminatedRegExp else regExpBody fuel inClass
      else if c = '[' then regExpBody fuel true
      else if c = ']' then regExpBody fuel false
      else if c = '/' && !inClass then return
      else regExpBody fuel inClass

/-- Reads a regular expression from its opening slash on. -/
def regExp : Scan Token := do
  let _ ← next?
  let s ← get
  regExpBody (s.rest.length + 1) false
  let t ← get
  let (flags, _) ← name
  return .regExp (String.ofList (read s t).dropLast) flags

/-- The signs, every one behind those that begin with it. -/
def signs : List String :=
  [">>>=", "...", "===", "!==", "**=", "<<=", ">>=", ">>>", "&&=", "||=", "??=", "=>", "==", "!=", "<=", ">=", "&&",
   "||", "??", "?.", "++", "--", "+=", "-=", "*=", "/=", "%=", "&=", "|=", "^=", "<<", ">>", "**", openBrace, closeBrace, "(",
   ")", "[", "]", ";", ",", "<", ">", "+", "-", "*", "/", "%", "&", "|", "^", "!", "~", "?", ":", "=", ".", "@", "#",
   "\x60"]

private def sign : Scan Token := do
  let s ← get
  let isChain (text : String) : Bool :=
    match s.rest.drop 2 with
    | c :: _ => text ≠ "?." || !c.isDigit
    | [] => true
  match signs.find? fun text => text.toList.isPrefixOf s.rest && isChain text with
  | some text =>
    set (s.skip text.toList)
    return .sign text
  | none =>
    match s.rest with
    | c :: _ => fail (.unexpectedCharacter c)
    | [] => return .eof

/-- Reads the token at the front. -/
def token : Scan Token := do
  let s ← get
  match s.rest with
  | [] => return .eof
  | c :: rest =>
    if isNameStart c || c = '\\' then
      let (name, escaped) ← name
      return .word name escaped
    else if c.isDigit then number
    else if c = '.' && ((rest.head?.map Char.isDigit).getD false) then fractionAndPower []
    else if c = '"' || c = '\'' then string c
    else sign

/-- Gives the comments that wait to the token that starts here. -/
def settle : Scan Unit :=
  modify fun s => { s with leading := s.leading.append s.pos s.pending, pending := [] }

/-- Gives the comments at the end of the text to the last token, or to the text if it has no token. -/
def settleAtEnd (before : Before) : Scan Unit :=
  modify fun s =>
    if before.token?.isNone then { s with leading := s.leading.append before.stop s.pending, pending := [] }
    else { s with trailing := s.trailing.append before.stop s.pending, pending := [] }

/-- Reads the blanks at the front, and then a token by the given rule. Nothing is read behind text that is no token. -/
def lexemeBy (rule : Scan Token) (before : Before) : Scan Lexeme := do
  modify fun s => { s with strictFaults := [] }
  let gap ← skipBlanks before ((← get).rest.length + 1) before.token?.isNone
  let s ← get
  if s.rest.isEmpty then settleAtEnd before else settle
  let s ← get
  match if gap.unclosed then .error .unterminatedComment else rule.run s with
  | .ok (t, after) =>
    set after
    return ⟨t, ⟨s.pos, after.pos⟩, gap.broken, s.rest⟩
  | .error fault =>
    set { s with rest := [] }
    return ⟨.bad fault, ⟨s.pos, s.pos⟩, gap.broken, []⟩

/-- Reads the next token with the blanks in front of it. -/
def lexeme (before : Before) : Scan Lexeme :=
  lexemeBy token before

end Scanner
end PureCalls.Source
