import PureCalls.Printer.Expression

/-! Elements. -/
namespace PureCalls.Printer

def element (rules : Rules) (t : Tree) : Print := do
  leading t
  rules (t.field .opening)
  list .children (spanOf t) rules (t.field .children).items
  optional rules (t.field .closing)

/-- Writes an attribute or a child that is spread. -/
def elementSpread (rules : Rules) (f : Field) (t : Tree) : Print := do
  leading t
  write "\x7b..."
  withTrailing rules (t.field f)
  write "\x7d"

def openingElement (rules : Rules) (t : Tree) : Print := do
  leading t
  write "<"
  rules (t.field .named)
  optional rules (t.field .typeArguments)
  let attributes := (t.field .attributes).items
  if attributes.isEmpty then nothing
  else
    space
    list .attributes (spanOf t) (fun a => if a.isKind .spread then elementSpread rules .arguments a else rules a)
      attributes
  if t.flag .selfClosing then write "/"
  write ">"

def closingElement (rules : Rules) (t : Tree) : Print := do
  leading t
  write "</"
  rules (t.field .named)
  write ">"

/-- Writes a sign that opens or closes a fragment. -/
def fragmentSign (sign : String) (t : Tree) : Print := do
  leading t
  write sign

def elementAttribute (rules : Rules) (t : Tree) : Print := do
  leading t
  rules (t.field .named)
  let value := t.field .value
  if value.isNull then nothing
  else
    write "="
    rules value

def elementExpression (rules : Rules) (t : Tree) : Print := do
  leading t
  write "\x7b"
  trailingAt (t.start + 1) true
  withTrailing rules (t.field .expression)
  write "\x7d"

def elementText (t : Tree) : Print := do
  leading t
  write (textOf (t.field .raw))

def elementMember (rules : Rules) (t : Tree) : Print := do
  leading t
  rules (t.field .object)
  write "."
  rules (t.field .property)

def namespacedName (rules : Rules) (t : Tree) : Print := do
  leading t
  rules (t.field .space)
  write ":"
  rules (t.field .named)

end PureCalls.Printer
