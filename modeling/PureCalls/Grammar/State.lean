import PureCalls.Source.Scanner

/-! The state of reading a program, and the small steps that all rules are made of. -/
namespace PureCalls.Grammar
open Source

/-- Which language a text is read as. -/
structure Dialect where
  typescript : Bool := false
  elements : Bool := false
  deriving DecidableEq, Repr, Inhabited

/-- What surrounds the place that is read. -/
structure Context where
  strict : Bool := false
  /-- Whether the text is known to be a module by an import or export in front. -/
  inModule : Bool := false
  inFunction : Bool := false
  /-- Whether the code belongs to a function that `new` can call. -/
  hasTarget : Bool := false
  inParameters : Bool := false
  inAsync : Bool := false
  inGenerator : Bool := false
  inClass : Bool := false
  /-- Whether `super` may name a member here. -/
  superAllowed : Bool := false
  inField : Bool := false
  /-- Whether `in` is an operator here, which it is not in the head of a loop. -/
  inAllowed : Bool := true
  inLoopHead : Bool := false
  inAwaitedLoop : Bool := false
  /-- Whether a type may end in `extends` and two branches here. -/
  conditionalTypes : Bool := true
  breakAllowed : Bool := false
  continueAllowed : Bool := false
  inAmbient : Bool := false
  inType : Bool := false
  /-- Whether the code stands outside all functions and blocks. -/
  topLevel : Bool := false
  /-- Whether a colon may follow, as between the branches of a condition. -/
  colonFollows : Bool := false
  hasBase : Bool := false
  staticBlock : Bool := false
  labels : List String := []
  deriving Inhabited

/-- Whether a word cannot be a name in code with the given surroundings. -/
def Context.isReserved (c : Context) (name : String) : Bool :=
  match name with
  | "let" => c.strict
  | "await" => c.inAsync || c.staticBlock || c.inModule
  | "yield" => c.inGenerator || c.strict
  | "enum" => true
  | "implements" | "package" | "protected" | "interface" | "private" | "public" => c.strict
  | _ => Token.isReserved name

structure State where
  scanner : Scanner
  current : Lexeme
  previous : Lexeme
  context : Context := {}
  dialect : Dialect
  /-- Faults that do not end the reading, oldest first. -/
  faults : List Fault := []
  /-- Faults that only count if the text turns out to be a module. -/
  moduleFaults : List Fault := []
  /-- Where an arrow function may start. -/
  arrowStart : Option Pos := none
  hasModuleItem : Bool := false
  deriving Inhabited

/-- A fault that ends the reading, and the token it was found at. -/
structure Failure where
  fault : Fault
  token : Token
  deriving Repr

abbrev Parse := EStateM Failure State

def fail {α : Type} (fault : Fault) : Parse α := fun s => .error ⟨fault, s.current.token⟩ s

def token : Parse Token := fun s => .ok s.current.token s

/-- Where the current token starts. -/
def here : Parse Pos := fun s => .ok s.current.span.start s

/-- Where the token in front of the current one ends. -/
def lastStop : Parse Pos := fun s => .ok s.previous.span.stop s

def afterBreak : Parse Bool := fun s => .ok s.current.afterBreak s

def context : Parse Context := fun s => .ok s.context s

def dialect : Parse Dialect := fun s => .ok s.dialect s

def typescript : Parse Bool := fun s => .ok s.dialect.typescript s

def emit (fault : Fault) : Parse Unit :=
  modify fun s => { s with faults := s.faults ++ [fault] }

/-- Records a fault that only a module can have. -/
def emitInModule (fault : Fault) : Parse Unit :=
  modify fun s => { s with moduleFaults := s.moduleFaults ++ [fault] }

/-- Records a fault that only strict code can have. All code of a module is strict. -/
def emitStrict (fault : Fault) : Parse Unit := do
  if (← context).strict then emit fault else emitInModule fault

/-- Reads with a changed context. -/
def withContext {α : Type} (change : Context → Context) (p : Parse α) : Parse α := fun s =>
  match p { s with context := change s.context } with
  | .ok result s' => .ok result { s' with context := s.context }
  | .error failure s' => .error failure { s' with context := s.context }

/-- Reads what `p` reads, or nothing if `p` fails or does not want it. -/
def attempt {α : Type} (p : Parse (Option α)) : Parse (Option α) := fun s =>
  match p s with
  | .ok (some result) s' => .ok (some result) s'
  | _ => .ok none s

/-- Looks ahead without reading. -/
def ahead {α : Type} (p : Parse α) : Parse α := fun s =>
  match p s with
  | .ok result _ => .ok result s
  | .error failure _ => .error failure s

/-- Reads with `p`. Where it fails the fault is recorded, and reading goes on from there with nothing read. -/
def recovering (p : Parse Tree) : Parse Tree := fun s =>
  match p s with
  | .ok result s' => .ok result s'
  | .error failure s' => .ok .null { s' with faults := s'.faults ++ [failure.fault] }

/-- Reads with `p`, and drops what it reads and how it fails. -/
def dropping (p : Parse Tree) : Parse Unit := fun s =>
  match p s with
  | .ok _ s' | .error _ s' => .ok () s'

/-- Goes on to the next token, which is cut by the given rule. -/
def bumpBy (rule : Scan Token) : Parse Unit := do
  let s ← get
  match (Scanner.lexemeBy rule ⟨some s.current.token, s.current.span.stop⟩).run s.scanner with
  | .error fault => fail fault
  | .ok (next, scanner) =>
    set { s with scanner, current := next, previous := s.current }
    for fault in scanner.strictFaults do emitStrict fault

/-- Goes on to the next token. -/
def bump : Parse Unit :=
  bumpBy Scanner.token

/-- The token behind the current one. -/
def peek : Parse Lexeme := fun s =>
  match (Scanner.lexeme ⟨some s.current.token, s.current.span.stop⟩).run s.scanner with
  | .error fault => .ok { (default : Lexeme) with token := .bad fault } s
  | .ok (next, _) => .ok next s

/-- Cuts the current token anew, by another rule. Nothing is read behind text that is no token. -/
def rescan (rule : Scan Token) : Parse Unit := do
  let s ← get
  let start := { s.scanner with rest := s.current.source, pos := s.current.span.start }
  match rule.run start with
  | .error fault =>
    set { s with scanner := { start with rest := [] }, current := { s.current with token := .bad fault } }
    fail fault
  | .ok (token, scanner) =>
    set { s with scanner, current := { s.current with token, span := ⟨s.current.span.start, scanner.pos⟩ } }

/-- Runs a rule of the scanner behind the current token. -/
def scan {α : Type} (rule : Scan α) : Parse α := do
  let s ← get
  match rule.run s.scanner with
  | .error fault => fail fault
  | .ok (result, scanner) =>
    set { s with scanner }
    return result

def isEnd : Parse Bool := do return (← token) == .eof

def isSign (text : String) : Parse Bool := do return (← token) == .sign text

/-- Whether the current token is a word, not spelled with an escape. -/
def isWord (name : String) : Parse Bool := do return (← token) == .word name false

def isAnyWord : Parse Bool := do
  match ← token with
  | .word _ _ => return true
  | _ => return false

def isString : Parse Bool := do
  match ← token with
  | .string _ => return true
  | _ => return false

/-- Whether the current token is a word that can name something. -/
def isName : Parse Bool := do
  match ← token with
  | .word name _ => return !Token.isReserved name
  | _ => return false

/-- Whether the current token is a word that can name something here. -/
def isReference : Parse Bool := do
  match ← token with
  | .word name _ => return !(← context).isReserved name
  | _ => return false

def eatSign (text : String) : Parse Bool := do
  if ← isSign text then
    bump
    return true
  else return false

def eatWord (name : String) : Parse Bool := do
  if ← isWord name then
    bump
    return true
  else return false

private def quoted (text : String) : String := "'" ++ text ++ "'"

def gotToken : Parse String := do return (← token).shown

/-- Fails because the given token was needed. -/
def failExpected {α : Type} (wanted : String) : Parse α := do
  fail (.expected (quoted wanted) (quoted (← gotToken)))

def failUnexpected {α : Type} (wanted : String) : Parse α := do
  fail (.unexpected (← gotToken) wanted)

def expectSign (text : String) : Parse Unit := do
  if !(← eatSign text) then failExpected text

def expectWord (name : String) : Parse Unit := do
  if !(← eatWord name) then failExpected name

/-- Passes over the sign that closes statements. The end of the text closes them too, but should not. -/
def expectClosing : Parse Unit := do
  if ← isEnd then emit (.expected (quoted closeBrace) (quoted (← gotToken)))
  else expectSign closeBrace

/-- Whether a statement may end here without a semicolon. -/
def canEndStatement : Parse Bool := do
  return (← isSign ";") || (← isSign closeBrace) || (← isEnd) || (← afterBreak)

/-- Passes over a semicolon, which may be missing where a statement can end. -/
def eatSemicolon : Parse Bool := do
  if ← eatSign ";" then return true
  return (← isSign closeBrace) || (← isEnd) || (← afterBreak)

def expectSemicolon : Parse Unit := do
  if !(← eatSemicolon) then failExpected ";"

/-- Reads items as long as there are any. Every item takes at least one token. -/
def many {α : Type} (item : Parse (Option α)) : Parse (List α) := do
  go ((← get).scanner.rest.length + 2) []
where
  go : Nat → List α → Parse (List α)
    | 0, _ => fail .tooDeep
    | fuel + 1, done => do
      match ← item with
      | none => return done.reverse
      | some x => go fuel (x :: done)

/-- Changes a value as long as there is something to add to it. Every change takes at least one token. -/
def extend {α : Type} (more : α → Parse (Option α)) (value : α) : Parse α := do
  go ((← get).scanner.rest.length + 2) value
where
  go : Nat → α → Parse α
    | 0, _ => fail .tooDeep
    | fuel + 1, value => do
      match ← more value with
      | none => return value
      | some value => go fuel value

/-- A node from `start` up to the last token that was read. -/
def node (kind : Kind) (start : Pos) (fields : List (Field × Tree)) : Parse Tree := do
  return .node kind (some ⟨start, ← lastStop⟩) fields

/-- Reads items with a comma behind each but the last, which may have one too, up to the sign that closes the list.
Tells whether the last item has a comma. -/
def commaList (close : String) (item : Parse Tree) : Parse (List Tree × Bool) := do
  let (items, comma) ← extend (fun (items, _) => do
    if ← isSign close then return none
    let x ← item
    let comma := !(← isSign close)
    if comma then expectSign ","
    return some (items ++ [x], comma)) ([], false)
  expectSign close
  return (items, comma)

/-- Reads a list like the other one, which the end of the text cuts off. -/
def openList (close : String) (item : Parse Tree) : Parse (List Tree × Bool) := do
  let (items, comma) ← extend (fun (items, _) => do
    if (← isSign close) || (← isEnd) then return none
    let x ← item
    let comma := !(← isSign close)
    if comma then expectSign ","
    return some (items ++ [x], comma)) ([], false)
  expectSign close
  return (items, comma)

/-- Reads statements or members up to the closing brace. -/
def bracedItems (item : Parse Tree) : Parse (List Tree) := do
  expectSign openBrace
  let items ← many do
    if (← isSign closeBrace) || (← isEnd) then return none
    return some (← item)
  expectClosing
  return items

end PureCalls.Grammar
