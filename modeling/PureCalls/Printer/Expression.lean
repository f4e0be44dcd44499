import PureCalls.Number.Literal
import PureCalls.Printer.Edge
import PureCalls.Printer.Output
import PureCalls.Text.Quoted

/-! Expressions and patterns. -/
namespace PureCalls.Printer

/-- A writer for every node. -/
abbrev Rules := Tree → Print

def isCompact : StateM Output Bool := do
  return (← get).compact

def textOf (t : Tree) : String :=
  t.text?.getD ""

/-- Writes what a field holds, if it holds anything. -/
def optional (rules : Rules) (t : Tree) : Print :=
  if t.isNull then nothing else rules t

/-- Writes a node and the comments behind it. -/
def withTrailing (rules : Rules) (t : Tree) : Print := do
  rules t
  trailing t

/-- Writes a type with the colon in front of it. -/
def colonType (rules : Rules) (t : Tree) (needsBlank : Bool) : Print := do
  if t.isNull then nothing
  else
    write ":"
    blank needsBlank
    rules t

def identifier (rules : Rules) (t : Tree) : Print := do
  leading t
  write (textOf (t.field .value))
  if t.flag .optional then write "?"
  colonType rules (t.field .ofType) false

def privateName (t : Tree) : Print := do
  leading t
  write "#"
  write (textOf (t.field .value))

def stringLiteral (t : Tree) : Print := do
  leading t
  let raw := textOf (t.field .raw)
  if ← isCompact then write (Text.encodeQuoted (Text.decodeQuoted raw)) else write raw

/-- Writes a number, and tells whether a point behind it would belong to it. -/
def numberLiteral (t : Tree) : StateM Output Bool := do
  leading t
  let raw := textOf (t.field .raw)
  if ← isCompact then
    let text := Number.shortText raw
    write text
    return Number.takesPoint text false
  else
    write raw
    return Number.takesPoint raw true

def bigLiteral (t : Tree) : Print := do
  leading t
  let raw := textOf (t.field .raw)
  if ← isCompact then write (Number.shortBigText raw) else write raw

/-- Writes `import` in front of arguments, with the phase in which the module is imported. -/
def importCallee (t : Tree) : Print := do
  leading t
  write "import"
  let phase := t.field .phase
  if phase.isNull then nothing else write ("." ++ textOf phase)

def regularExpression (t : Tree) : Print := do
  leading t
  write ("/" ++ textOf (t.field .pattern) ++ "/" ++ textOf (t.field .flags))

/-- Writes the pieces of a template with the expressions between them. -/
def templatePieces (piece : Tree → Print) (expression : Tree → Print) : List Tree → List Tree → Print
  | q :: quasis, e :: expressions => do
    piece q
    write "$\x7b"
    expression e
    write "\x7d"
    templatePieces piece expression quasis expressions
  | [q], [] => piece q
  | _, _ => nothing

/-- Writes a template. Behind a tag its text is kept as it is. -/
def template (rules : Rules) (isTagged : Bool) (t : Tree) : Print := do
  leading t
  let compact ← isCompact
  let piece (q : Tree) : Print :=
    let raw := textOf (q.field .raw)
    write (if compact && !isTagged then Text.shortTemplate raw else raw)
  let expressions := t.field (if t.isKind .templateType then .types else .expressions)
  write "\x60"
  templatePieces piece (withTrailing rules) (t.field .quasis).items expressions.items
  write "\x60"

/-- Writes an argument or an element with its dots. -/
def held (rules : Rules) (t : Tree) : Print := do
  if t.isNull then nothing
  else
    match t.field .spread with
    | .range dots => do
      leadingAt dots.start
      write "..."
    | _ => nothing
    withTrailing rules (t.field .expression)

def arguments (rules : Rules) (t : Tree) : Print := do
  write "("
  list .commas (spanOf t) (held rules) (t.field .arguments).items
  write ")"

/-- Writes a construction. Empty parentheses can be left out where nothing follows that would join them. -/
def construction (rules : Rules) (mayDropParentheses : Bool) (t : Tree) : Print := do
  leading t
  write "new"
  blank (startsWithWord (t.field .callee))
  withTrailing rules (t.field .callee)
  optional rules (t.field .typeArguments)
  let args := t.field .arguments
  if args.isNull || (mayDropParentheses && args.items.isEmpty && (← isCompact)) then nothing else arguments rules t

/-- Writes the operand that a member, a call or a template follows. -/
def operand (rules : Rules) (t : Tree) : Print :=
  if t.isKind .newExpression then do
    construction rules false t
    trailing t
  else withTrailing rules t

/-- Writes a property with the point in front of it. -/
def property (rules : Rules) (second : Bool) (t : Tree) : Print := do
  if t.isKind .computed then rules t
  else
    if second then
      leadingAt (t.start - 2)
      write "."
    leadingAt (t.start - 1)
    write "."
    rules t

def memberAccess (rules : Rules) (t : Tree) : Print := do
  leading t
  let object := t.field .object
  let second ← if object.isKind .number then numberLiteral object else do
    operand rules object
    pure false
  property rules second (t.field .property)

def superMember (rules : Rules) (t : Tree) : Print := do
  leading t
  rules (t.field .object)
  property rules false (t.field .property)

def computedName (rules : Rules) (t : Tree) : Print := do
  write "["
  withTrailing rules (t.field .expression)
  write "]"

def call (rules : Rules) (t : Tree) : Print := do
  leading t
  let callee := t.field .callee
  if callee.isKind .superCallee || callee.isKind .importCallee then rules callee else operand rules callee
  optional rules (t.field .typeArguments)
  arguments rules t

def optionalChain (rules : Rules) (t : Tree) : Print := do
  leading t
  let base := t.field .base
  let isOptional := t.flag .optional
  if base.isKind .member then
    operand rules (base.field .object)
    let name := base.field .property
    if isOptional then write "?." else if name.isKind .computed then nothing else write "."
    rules name
  else
    withTrailing rules (base.field .callee)
    if isOptional then write "?."
    write "("
    list .commas (spanOf t) (held rules) (base.field .arguments).items
    write ")"

def taggedTemplate (rules : Rules) (t : Tree) : Print := do
  leading t
  operand rules (t.field .tag)
  optional rules (t.field .typeParameters)
  template rules true (t.field .template)

def unary (rules : Rules) (t : Tree) : Print := do
  leading t
  let operator := textOf (t.field .operator)
  let argument := t.field .argument
  write operator
  if wordOperators.contains operator then blank (startsWithWord argument)
  else
    let joins := match argument.kind? with
      | some .unary | some .update => joinsOperator operator argument
      | _ => false
    if joins then space
  withTrailing rules argument

def update (rules : Rules) (t : Tree) : Print := do
  leading t
  let operator := textOf (t.field .operator)
  if t.flag .isPrefix then
    write operator
    withTrailing rules (t.field .argument)
  else
    withTrailing rules (t.field .argument)
    write operator

/-- Whether an operator would run together with the decrement in front of it. -/
private def closesComment (left : Tree) (operator : String) : Bool :=
  left.isKind .update && !left.flag .isPrefix && left.field .operator == .text "--" &&
    [">", ">>", ">>>", ">="].contains operator

def binary (rules : Rules) (t : Tree) : Print := do
  let left := t.field .left
  let right := t.field .right
  let operator := textOf (t.field .operator)
  withTrailing rules left
  let isWord := wordOperators.contains operator
  blank (if isWord then endsWithWord left else closesComment left operator)
  write operator
  let commented := !((← get).leading.get right.start).isEmpty
  blank (if isWord then startsWithWord right
    else if operator = "/" then commented
    else joinsOperator operator right)
  withTrailing rules right

def assignment (rules : Rules) (t : Tree) : Print := do
  leading t
  withTrailing rules (t.field .left)
  gap
  write (textOf (t.field .operator))
  gap
  withTrailing rules (t.field .right)

def conditional (rules : Rules) (t : Tree) : Print := do
  leading t
  withTrailing rules (t.field .test)
  gap
  write "?"
  gap
  withTrailing rules (t.field .consequent)
  gap
  write ":"
  gap
  withTrailing rules (t.field .alternate)

/-- Writes items with commas between them. -/
def commaSeparated (item : Tree → Print) : List Tree → Print
  | [] => nothing
  | [t] => item t
  | t :: rest => do
    item t
    write ","
    gap
    commaSeparated item rest

def sequence (rules : Rules) (t : Tree) : Print := do
  leading t
  commaSeparated (withTrailing rules) (t.field .expressions).items

def parenthesis (rules : Rules) (t : Tree) : Print := do
  leading t
  write "("
  withTrailing rules (t.field .expression)
  write ")"

/-- Writes a word and the expression behind it. -/
def wordAndOperand (rules : Rules) (word : String) (t operand : Tree) : Print := do
  leading t
  write word
  if operand.isNull then nothing
  else
    blank (startsWithWord operand)
    withTrailing rules operand

def yieldExpression (rules : Rules) (t : Tree) : Print := do
  if t.flag .delegate then
    leading t
    write "yield*"
    gap
    withTrailing rules (t.field .argument)
  else wordAndOperand rules "yield" t (t.field .argument)

private def endsInHole (t : Tree) (f : Field) : Bool :=
  match (t.field f).items.getLast? with
  | some last => last.isNull
  | none => false

def arrayLiteral (rules : Rules) (t : Tree) : Print := do
  leading t
  write "["
  let elements := (t.field .elements).items
  let layout := { Layout.properties with commaAtEnd := endsInHole t .elements }
  list (if elements.isEmpty then .commas else layout) (spanOf t) (held rules) elements
  write "]"

/-- Whether a comment stands in front of the last sign of a node. -/
def commentedAtEnd (t : Tree) : StateM Output Bool := do
  return !((← get).leading.get (t.stop - 1)).isEmpty

def objectLiteral (rules : Rules) (t : Tree) : Print := do
  leading t
  write "\x7b"
  let properties := (t.field .properties).items
  if properties.isEmpty then
    if ← commentedAtEnd t then newLine
  else list .properties (spanOf t) rules properties
  write "\x7d"

def keyValue (rules : Rules) (t : Tree) : Print := do
  leadingAt (spanOf t).start
  rules (t.field .key)
  write ":"
  gap
  withTrailing rules (t.field .value)

def assignedProperty (rules : Rules) (t : Tree) : Print := do
  leading t
  rules (t.field .key)
  write "="
  withTrailing rules (t.field .value)

def spreadProperty (rules : Rules) (t : Tree) : Print := do
  leading t
  write "..."
  withTrailing rules (t.field .arguments)

def restPattern (rules : Rules) (t : Tree) : Print := do
  leading t
  write "..."
  withTrailing rules (t.field .argument)
  colonType rules (t.field .ofType) false

def arrayPattern (rules : Rules) (t : Tree) : Print := do
  leading t
  write "["
  let layout := { Layout.commas with commaAtEnd := endsInHole t .elements }
  let item (t : Tree) : Print := if t.isNull then nothing else withTrailing rules t
  list layout (spanOf t) item (t.field .elements).items
  write "]"
  if t.flag .optional then write "?"
  colonType rules (t.field .ofType) true

def objectPattern (rules : Rules) (t : Tree) : Print := do
  leading t
  write "\x7b"
  list .flatProperties (spanOf t) rules (t.field .properties).items
  write "\x7d"
  if t.flag .optional then write "?"
  colonType rules (t.field .ofType) true

def defaultPattern (rules : Rules) (t : Tree) : Print := do
  leading t
  withTrailing rules (t.field .left)
  gap
  write "="
  gap
  withTrailing rules (t.field .right)

def keyValuePattern (rules : Rules) (t : Tree) : Print := do
  leadingAt (spanOf t).start
  rules (t.field .key)
  write ":"
  gap
  withTrailing rules (t.field .value)

def defaultPatternProperty (rules : Rules) (t : Tree) : Print := do
  leading t
  rules (t.field .key)
  let value := t.field .value
  if value.isNull then nothing
  else
    gap
    write "="
    gap
    withTrailing rules value

end PureCalls.Printer
