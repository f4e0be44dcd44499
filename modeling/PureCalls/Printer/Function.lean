import PureCalls.Printer.Expression

/-! Functions, classes and the members of objects. -/
namespace PureCalls.Printer

/-- Writes a node as a statement, with its semicolon and the comments behind it, and ends the line. Behind a block
the line goes on. -/
def statement (rules : Rules) (t : Tree) : Print := do
  rules t
  if t.isKind .variableDeclaration || t.isKind .usingDeclaration then write ";"
  if t.isKind .block then nothing
  else
    trailing t
    newLine

/-- Writes words, each with a blank behind it, as far as they apply. -/
def modifiers : List (Bool × String) → Print
  | [] => nothing
  | (applies, word) :: rest => do
    if applies then
      write word
      space
    modifiers rest

/-- Writes statements between braces. -/
def block (rules : Rules) (t : Tree) : Print := do
  leading t
  write "\x7b"
  let stmts := (t.field .stmts).items
  if stmts.isEmpty && !(← commentedAtEnd t) then nothing
  else list .lines (spanOf t) (statement rules) stmts
  leadingAt (t.stop - 1)
  write "\x7d"

def parameter (rules : Rules) (t : Tree) : Print := do
  leading t
  withTrailing rules (t.field .pat)

/-- Writes what stands behind the name of a function. -/
def functionRest (rules : Rules) (t : Tree) (span : Span) : Print := do
  optional rules (t.field .typeParameters)
  write "("
  list .commas span rules (t.field .params).items
  write ")"
  colonType rules (t.field .returnType) false
  let body := t.field .body
  if body.isNull then write ";"
  else
    gap
    rules body

def function (rules : Rules) (t : Tree) : Print := do
  leading t
  modifiers [(t.flag .isDeclare, "declare"), (t.flag .isAsync, "async")]
  write "function"
  let isGenerator := t.flag .generator
  if isGenerator then write "*"
  let name := t.field .identifier
  if name.isNull then nothing
  else
    blank (!isGenerator || t.isKind .function)
    rules name
  functionRest rules t (spanOf t)

/-- Whether the only parameter is a name behind which no comment stands. -/
private def hasPlainParameter (t : Tree) : StateM Output Bool := do
  match (t.field .params).items with
  | [p] => return p.isKind .identifier && ((← get).trailing.get p.stop).isEmpty
  | _ => return false

def arrow (rules : Rules) (t : Tree) : Print := do
  leading t
  let params := (t.field .params).items
  if t.flag .isAsync then
    write "async"
    blank (match params with | [p] => p.isKind .identifier | _ => false)
  optional rules (t.field .typeParameters)
  let bare := (← isCompact) && (← hasPlainParameter t)
  if !bare then write "("
  list .commas (spanOf t) (withTrailing rules) params
  if !bare then write ")"
  let result := t.field .returnType
  if result.isNull then nothing
  else
    colonType rules result false
    gap
  write "=>"
  let body := t.field .body
  if body.isKind .block then rules body else indented (withTrailing rules body)

def method (rules : Rules) (t : Tree) : Print := do
  leading t
  modifiers [(t.flag .isAsync, "async")]
  if t.flag .generator then write "*"
  rules (t.field .key)
  gap
  functionRest rules t (spanOf t)

def getter (rules : Rules) (t : Tree) : Print := do
  leading t
  write "get"
  blank (startsWithWord (t.field .key))
  rules (t.field .key)
  gap
  write "()"
  colonType rules (t.field .ofType) false
  gap
  rules (t.field .body)

def setter (rules : Rules) (t : Tree) : Print := do
  leading t
  write "set"
  blank (startsWithWord (t.field .key))
  rules (t.field .key)
  gap
  write "("
  withTrailing rules (t.field .param)
  write ")"
  rules (t.field .body)

private def accessibility (t : Tree) : Bool × String :=
  match t.field .accessibility with
  | .text word => (true, word)
  | _ => (false, "")

def classConstructor (rules : Rules) (t : Tree) : Print := do
  leading t
  modifiers [accessibility t]
  write "constructor("
  list .commas (spanOf t) rules (t.field .params).items
  write ")"
  let body := t.field .body
  if body.isNull then write ";" else rules body

/-- Whether a method needs a blank behind a word in front of it. -/
private def methodStartsWithWord (t : Tree) : Bool :=
  let f := t.field .function
  if t.field .kind != .text "method" || f.flag .isAsync then true
  else if f.flag .generator then false
  else startsWithWord (t.field .key)

def classMethod (rules : Rules) (t : Tree) : Print := do
  leading t
  leading (t.field .key)
  let f := t.field .function
  modifiers [accessibility t]
  if t.flag .isStatic then
    write "static"
    blank (methodStartsWithWord t)
  modifiers [(t.flag .isAbstract, "abstract"), (t.flag .isOverride, "override")]
  if t.field .kind == .text "method" then
    modifiers [(f.flag .isAsync, "async")]
    if f.flag .generator then write "*"
  else
    write (if t.field .kind == .text "getter" then "get" else "set")
    blank (startsWithWord (t.field .key))
  rules (t.field .key)
  if t.flag .optional then write "?"
  functionRest rules f (spanOf f)

/-- Writes the type and the value of a property of a class. -/
private def propertyRest (rules : Rules) (t : Tree) : Print := do
  let type := t.field .ofType
  if t.flag .definite then write "!"
  colonType rules type true
  let value := t.field .value
  if value.isNull then nothing
  else
    gap
    write "="
    gap
    withTrailing rules value
  write ";"

def classProperty (rules : Rules) (t : Tree) : Print := do
  leading t
  modifiers [(t.flag .isDeclare, "declare"), accessibility t, (t.flag .isStatic, "static"),
    (t.flag .isAbstract, "abstract"), (t.flag .isOverride, "override"), (t.flag .readonly, "readonly")]
  rules (t.field .key)
  if t.flag .optional then write "?"
  propertyRest rules t

def autoAccessor (rules : Rules) (t : Tree) : Print := do
  leading t
  modifiers [accessibility t, (t.flag .isStatic, "static"), (t.flag .isAbstract, "abstract"),
    (t.flag .isOverride, "override"), (true, "accessor")]
  rules (t.field .key)
  propertyRest rules t

def staticBlock (rules : Rules) (t : Tree) : Print := do
  leading t
  write "static"
  rules (t.field .body)

def parameterProperty (rules : Rules) (t : Tree) : Print := do
  leading t
  modifiers [accessibility t, (t.flag .isOverride, "override"), (t.flag .readonly, "readonly")]
  withTrailing rules (t.field .param)

/-- Writes what stands behind the name of a class. -/
private def classRest (rules : Rules) (t : Tree) : Print := do
  let base := t.field .superClass
  if base.isNull then nothing
  else
    space
    write "extends"
    blank (startsWithWord base)
    withTrailing rules base
    optional rules (t.field .superTypeParams)
  let interfaces := (t.field .implements).items
  if interfaces.isEmpty then nothing
  else
    space
    write "implements"
    space
    list .commas (spanOf t) rules interfaces
  gap
  write "\x7b"
  list .lines (spanOf t) rules (t.field .body).items
  write "\x7d"

/-- Writes a class. Without a name it shows no type parameters either. -/
def classNode (rules : Rules) (t : Tree) : Print := do
  leading t
  modifiers [(t.flag .isDeclare, "declare"), (t.flag .isAbstract, "abstract")]
  write "class"
  let name := t.field .identifier
  if name.isNull then nothing
  else
    space
    rules name
    optional rules (t.field .typeParams)
  classRest rules t

end PureCalls.Printer
