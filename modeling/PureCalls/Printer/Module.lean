import PureCalls.Printer.Type

/-! Imports and exports. -/
namespace PureCalls.Printer

/-- Writes an item of a module: a declaration that imports or exports, or a statement. -/
def moduleItem (rules : Rules) (t : Tree) : Print := do
  statement rules t

/-- Writes the name of the module and the attributes behind it. -/
private def source (rules : Rules) (t : Tree) : Print := do
  rules (t.field .source)
  let attributes := t.field .withClause
  if attributes.isNull then nothing
  else
    gap
    write "with"
    gap
    rules attributes

private def named (rules : Rules) (t : Tree) (specifiers : List Tree) : Print := do
  write "\x7b"
  list .specifiers (spanOf t) rules specifiers
  write "\x7d"

def importDeclaration (rules : Rules) (t : Tree) : Print := do
  leading t
  write "import"
  if t.flag .typeOnly then write " type"
  match t.field .phase with
  | .text phase => write (" " ++ phase)
  | _ => nothing
  let specifiers := (t.field .specifiers).items
  let default? := specifiers.find? (·.isKind .importDefault)
  let space? := specifiers.find? (·.isKind .importNamespace)
  let others := specifiers.filter (·.isKind .importNamed)
  blank default?.isSome
  match default? with
  | some d =>
    rules (d.field .localName)
    if space?.isSome || !others.isEmpty then
      write ","
      gap
  | none => nothing
  match space? with
  | some s =>
    write "*"
    gap
    write "as "
    rules (s.field .localName)
  | none => nothing
  if others.isEmpty then
    if default?.isSome || space?.isSome then write " from"
  else
    named rules t others
    gap
    write "from"
  if specifiers.isEmpty then nothing else gap
  source rules t
  write ";"

def importNamed (rules : Rules) (t : Tree) : Print := do
  leading t
  if t.flag .isTypeOnly then write "type "
  let imported := t.field .imported
  if imported.isNull then nothing
  else
    rules imported
    write " as "
  rules (t.field .localName)

def exportDeclaration (rules : Rules) (t : Tree) : Print := do
  leading t
  write "export "
  let declaration := t.field .declaration
  rules declaration
  if declaration.isKind .variableDeclaration || declaration.isKind .usingDeclaration then write ";"

def exportDefaultDeclaration (rules : Rules) (t : Tree) : Print := do
  leading t
  write "export default"
  let declared := t.field .declared
  space
  rules declared

def exportDefaultExpression (rules : Rules) (t : Tree) : Print := do
  leading t
  write "export default"
  let e := t.field .expression
  blank (startsWithWord e)
  withTrailing rules e
  write ";"

def exportNamed (rules : Rules) (t : Tree) : Print := do
  leading t
  write "export"
  if t.flag .typeOnly then write " type"
  gap
  let specifiers := (t.field .specifiers).items
  let others := specifiers.filter (·.isKind .exportSpecifier)
  match specifiers.find? (·.isKind .exportNamespaceSpecifier) with
  | some s =>
    rules s
    if others.isEmpty then nothing
    else
      write ","
      gap
      named rules t others
  | none => named rules t others
  if (t.field .source).isNull then nothing
  else
    blank others.isEmpty
    write "from"
    gap
    source rules t
  write ";"

def exportNamespaceSpecifier (rules : Rules) (t : Tree) : Print := do
  leading t
  write "*"
  gap
  write "as "
  rules (t.field .named)

def exportSpecifier (rules : Rules) (t : Tree) : Print := do
  leading t
  if t.flag .isTypeOnly then write "type "
  rules (t.field .orig)
  let exported := t.field .exported
  if exported.isNull then nothing
  else
    write " as "
    rules exported

def exportAll (rules : Rules) (t : Tree) : Print := do
  leading t
  write "export"
  if t.flag .typeOnly then write " type " else gap
  write "*"
  gap
  write "from"
  gap
  source rules t
  write ";"

def exportAssignment (rules : Rules) (t : Tree) : Print := do
  leading t
  write "export"
  gap
  write "="
  gap
  withTrailing rules (t.field .expression)
  write ";"

def namespaceExport (rules : Rules) (t : Tree) : Print := do
  leading t
  write "export as namespace "
  rules (t.field .id)
  write ";"

def importEquals (rules : Rules) (t : Tree) : Print := do
  leading t
  if t.flag .isExport then write "export "
  write "import "
  if t.flag .isTypeOnly then write "type "
  rules (t.field .id)
  gap
  write "="
  gap
  rules (t.field .moduleRef)
  write ";"

def externalModule (rules : Rules) (t : Tree) : Print := do
  leading t
  write "require("
  rules (t.field .expression)
  write ")"

/-- Writes the items of a namespace between braces. -/
def namespaceBlock (rules : Rules) (t : Tree) : Print := do
  gap
  leading t
  write "\x7b"
  list .lines (spanOf t) (moduleItem rules) (t.field .body).items
  leadingAt (t.stop - 1)
  write "\x7d"

end PureCalls.Printer
