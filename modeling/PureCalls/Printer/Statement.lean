import PureCalls.Printer.Function

/-! Statements. -/
namespace PureCalls.Printer

def expressionStatement (rules : Rules) (t : Tree) : Print := do
  leading t
  withTrailing rules (t.field .expression)
  write ";"

def emptyStatement (t : Tree) : Print := do
  leading t
  write ";"

/-- Writes a statement that is one word. -/
def wordStatement (word : String) (t : Tree) : Print := do
  leading t
  write (word ++ ";")

/-- Writes `return` or `throw` with its expression. -/
def exitStatement (rules : Rules) (word : String) (t : Tree) : Print := do
  wordAndOperand rules word t (t.field .argument)
  write ";"

/-- Writes `break` or `continue` with its label. -/
def jump (rules : Rules) (word : String) (t : Tree) : Print := do
  leading t
  write word
  let label := t.field .label
  if label.isNull then nothing
  else
    space
    rules label
  write ";"

def labeled (rules : Rules) (t : Tree) : Print := do
  leading t
  rules (t.field .label)
  write ":"
  gap
  statement rules (t.field .body)

/-- Writes an expression between parentheses. -/
private def condition (rules : Rules) (t : Tree) : Print := do
  write "("
  withTrailing rules t
  write ")"

def ifStatement (rules : Rules) (t : Tree) : Print := do
  leading t
  write "if"
  gap
  condition rules (t.field .test)
  gap
  statement rules (t.field .consequent)
  let alternate := t.field .alternate
  if alternate.isNull then nothing
  else
    if (t.field .consequent).isKind .block then gap
    write "else"
    blank (startsStatementWithWord alternate)
    statement rules alternate

def switchStatement (rules : Rules) (t : Tree) : Print := do
  leading t
  write "switch"
  condition rules (t.field .discriminant)
  write "\x7b"
  list .lines (spanOf t) rules (t.field .cases).items
  write "\x7d"

def switchCase (rules : Rules) (t : Tree) : Print := do
  leading t
  let test := t.field .test
  if test.isNull then write "default"
  else
    write "case"
    blank (startsWithWord test)
    withTrailing rules test
  write ":"
  list .cases (spanOf t) (statement rules) (t.field .consequent).items

def withStatement (rules : Rules) (t : Tree) : Print := do
  leading t
  write "with"
  gap
  condition rules (t.field .object)
  statement rules (t.field .body)

def whileLoop (rules : Rules) (t : Tree) : Print := do
  leading t
  write "while"
  condition rules (t.field .test)
  statement rules (t.field .body)

def doWhile (rules : Rules) (t : Tree) : Print := do
  leading t
  write "do"
  blank (startsStatementWithWord (t.field .body))
  statement rules (t.field .body)
  write "while"
  gap
  condition rules (t.field .test)

/-- Writes a part of the head of a loop. -/
private def loopPart (rules : Rules) (t : Tree) : Print :=
  if t.isKind .variableDeclaration || t.isKind .usingDeclaration then rules t else withTrailing rules t

def forLoop (rules : Rules) (t : Tree) : Print := do
  leading t
  write "for("
  let init := t.field .init
  if init.isNull then nothing else loopPart rules init
  write ";"
  let part (t : Tree) : Print := do
    if t.isNull then nothing
    else
      gap
      withTrailing rules t
  part (t.field .test)
  write ";"
  part (t.field .update)
  write ")"
  statement rules (t.field .body)

def eachLoop (rules : Rules) (word : String) (t : Tree) : Print := do
  leading t
  write "for"
  if word = "of" then
    if t.flag .isAwait then
      space
      write "await"
    gap
  write "("
  let left := t.field .left
  loopPart rules left
  blank (loopHeadEndsWithWord left)
  write word
  blank (startsWithWord (t.field .right))
  withTrailing rules (t.field .right)
  write ")"
  statement rules (t.field .body)

def tryStatement (rules : Rules) (t : Tree) : Print := do
  leading t
  write "try"
  gap
  rules (t.field .block)
  let handler := t.field .handler
  if handler.isNull then nothing
  else
    gap
    rules handler
  let finalizer := t.field .finalizer
  if finalizer.isNull then nothing
  else
    gap
    write "finally"
    rules finalizer

def catchClause (rules : Rules) (t : Tree) : Print := do
  leading t
  write "catch"
  gap
  let param := t.field .param
  if param.isNull then nothing else condition rules param
  gap
  rules (t.field .body)

/-- Whether the first variable is a name and no pattern. -/
private def startsWithName (t : Tree) : Bool :=
  match (t.field .declarations).items with
  | d :: _ => !((d.field .id).isKind .arrayPattern || (d.field .id).isKind .objectPattern)
  | [] => true

/-- Writes variables without the semicolon behind them. -/
def variableDeclaration (rules : Rules) (t : Tree) : Print := do
  leading t
  modifiers [(t.flag .isDeclare, "declare")]
  write (textOf (t.field .kind))
  blank (startsWithName t)
  list .commas (spanOf t) rules (t.field .declarations).items

def usingDeclaration (rules : Rules) (t : Tree) : Print := do
  leading t
  modifiers [(t.flag .isAwait, "await")]
  write "using"
  space
  list .commas (spanOf t) rules (t.field .declarations).items

def declarator (rules : Rules) (t : Tree) : Print := do
  leading t
  withTrailing rules (t.field .id)
  let init := t.field .init
  if init.isNull then nothing
  else
    gap
    write "="
    gap
    withTrailing rules init

end PureCalls.Printer
