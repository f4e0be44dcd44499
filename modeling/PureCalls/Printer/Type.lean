import PureCalls.Printer.Statement

/-! Types, and the declarations that only typed code has. -/
namespace PureCalls.Printer

def typeArguments (rules : Rules) (t : Tree) : Print := do
  leading t
  write "<"
  list .commas (spanOf t) rules (t.field .params).items
  write ">"

def typeParameters (rules : Rules) (t : Tree) : Print := do
  leading t
  write "<"
  list .commas (spanOf t) rules (t.field .parameters).items
  write ">"

def typeParameter (rules : Rules) (t : Tree) : Print := do
  leading t
  modifiers [(t.flag .isConstParam, "const"), (t.flag .isIn, "in"), (t.flag .isOut, "out")]
  rules (t.field .named)
  let bound := t.field .constraint
  if bound.isNull then nothing
  else
    write " extends "
    rules bound
  let default := t.field .defaultType
  if default.isNull then nothing
  else
    gap
    write "="
    gap
    rules default

def annotatedType (rules : Rules) (t : Tree) : Print :=
  rules (t.field .ofType)

def keywordType (t : Tree) : Print := do
  leading t
  write (if t.isKind .thisType then "this" else textOf (t.field .kind))

private def typeReferenceTo (rules : Rules) (name : Field) (types : Field) (t : Tree) : Print := do
  rules (t.field name)
  optional rules (t.field types)

def typeReference (rules : Rules) (t : Tree) : Print := do
  leading t
  typeReferenceTo rules .typeName .typeParams t

def typeQuery (rules : Rules) (t : Tree) : Print := do
  leading t
  write "typeof "
  typeReferenceTo rules .exprName .typeArguments t

def heritage (rules : Rules) (t : Tree) : Print := do
  leading t
  withTrailing rules (t.field .expression)
  optional rules (t.field .typeArguments)

def qualifiedName (rules : Rules) (t : Tree) : Print := do
  leading t
  rules (t.field .left)
  write "."
  rules (t.field .right)

def importType (rules : Rules) (t : Tree) : Print := do
  leading t
  write "import("
  rules (t.field .argument)
  let options := t.field .withClause
  if options.isNull then nothing
  else
    write ","
    gap
    rules options
  write ")"
  let qualifier := t.field .qualifier
  if qualifier.isNull then nothing
  else
    write "."
    rules qualifier
  optional rules (t.field .typeArguments)

/-- Writes the parameters of a function type and the type of its result behind `sign`. -/
private def typedSignature (rules : Rules) (t : Tree) : Print := do
  optional rules (t.field .typeParams)
  write "("
  list .commas (spanOf t) (withTrailing rules) (t.field .params).items
  write ")"

def functionType (rules : Rules) (t : Tree) : Print := do
  leading t
  typedSignature rules t
  gap
  write "=>"
  gap
  rules (t.field .ofType)

def constructorType (rules : Rules) (t : Tree) : Print := do
  leading t
  modifiers [(t.flag .isAbstract, "abstract")]
  write "new"
  gap
  typedSignature rules t
  gap
  write "=>"
  gap
  rules (t.field .ofType)

def typeLiteral (rules : Rules) (t : Tree) : Print := do
  leading t
  write "\x7b"
  list .lines (spanOf t) rules (t.field .members).items
  write "\x7d"

def arrayType (rules : Rules) (t : Tree) : Print := do
  leading t
  rules (t.field .elemType)
  write "[]"

def tupleType (rules : Rules) (t : Tree) : Print := do
  leading t
  write "["
  list .commas (spanOf t) rules (t.field .elemTypes).items
  write "]"

def tupleElement (rules : Rules) (t : Tree) : Print := do
  leading t
  let label := t.field .label
  if label.isNull then nothing
  else
    withTrailing rules label
    write ":"
    gap
  rules (t.field .elementType)

def optionalType (rules : Rules) (t : Tree) : Print := do
  leading t
  rules (t.field .ofType)
  write "?"

def restType (rules : Rules) (t : Tree) : Print := do
  leading t
  write "..."
  rules (t.field .ofType)

def joinedTypes (rules : Rules) (sign : String) (t : Tree) : Print := do
  leading t
  list (.joined sign) (spanOf t) rules (t.field .types).items

def conditionalType (rules : Rules) (t : Tree) : Print := do
  leading t
  rules (t.field .checkType)
  write " extends "
  rules (t.field .extendsType)
  gap
  write "?"
  gap
  rules (t.field .trueType)
  gap
  write ":"
  gap
  rules (t.field .falseType)

def inferType (rules : Rules) (t : Tree) : Print := do
  leading t
  write "infer "
  rules (t.field .typeParam)

def parenType (rules : Rules) (t : Tree) : Print := do
  leading t
  write "("
  rules (t.field .ofType)
  write ")"

def typeOperator (rules : Rules) (t : Tree) : Print := do
  leading t
  write (textOf (t.field .operator))
  space
  rules (t.field .ofType)

def indexedAccess (rules : Rules) (t : Tree) : Print := do
  leading t
  rules (t.field .objectType)
  write "["
  rules (t.field .indexType)
  write "]"

/-- Writes a modifier of a mapped type, with the sign in front of it. -/
private def mappedModifier (word : String) (modifier : Tree) : Print :=
  match modifier with
  | .text sign => write (sign ++ word)
  | .bool true => write word
  | _ => nothing

def mappedType (rules : Rules) (t : Tree) : Print := do
  leading t
  write "\x7b"
  newLine
  let members : Print := do
    mappedModifier "readonly " (t.field .readonly)
    write "["
    let param := t.field .typeParam
    rules (param.field .named)
    write " in "
    rules (param.field .constraint)
    let renamed := t.field .nameType
    if renamed.isNull then nothing
    else
      write " as "
      rules renamed
    write "]"
    mappedModifier "?" (t.field .optional)
    let value := t.field .ofType
    if value.isNull then nothing
    else
      write ":"
      gap
      rules value
    write ";"
    newLine
  indented members
  write "\x7d"

def typePredicate (rules : Rules) (t : Tree) : Print := do
  leading t
  modifiers [(t.flag .asserts, "asserts")]
  rules (t.field .paramName)
  let type := t.field .ofType
  if type.isNull then nothing
  else
    write " is "
    rules type

def literalType (rules : Rules) (t : Tree) : Print := do
  leading t
  rules (t.field .literal)

def asType (rules : Rules) (word : String) (t : Tree) : Print := do
  leading t
  withTrailing rules (t.field .expression)
  write (" " ++ word ++ " ")
  rules (t.field .ofType)

def constAssertion (rules : Rules) (t : Tree) : Print := do
  leading t
  withTrailing rules (t.field .expression)
  write " as const"

def nonNull (rules : Rules) (t : Tree) : Print := do
  leading t
  withTrailing rules (t.field .expression)
  write "!"

def typeAssertion (rules : Rules) (t : Tree) : Print := do
  leading t
  write "<"
  rules (t.field .ofType)
  write ">"
  withTrailing rules (t.field .expression)

def instantiation (rules : Rules) (t : Tree) : Print := do
  leading t
  withTrailing rules (t.field .expression)
  optional rules (t.field .typeArguments)

def callSignature (rules : Rules) (isConstruct : Bool) (t : Tree) : Print := do
  leading t
  if isConstruct then
    write "new"
    gap
  typedSignature rules t
  colonType rules (t.field .ofType) false
  write ";"

def propertySignature (rules : Rules) (t : Tree) : Print := do
  leading t
  modifiers [(t.flag .readonly, "readonly")]
  rules (t.field .key)
  if t.flag .optional then write "?"
  colonType rules (t.field .ofType) false
  write ";"

def methodSignature (rules : Rules) (t : Tree) : Print := do
  leading t
  rules (t.field .key)
  if t.flag .optional then write "?"
  typedSignature rules t
  colonType rules (t.field .ofType) false
  write ";"

def getterSignature (rules : Rules) (t : Tree) : Print := do
  leading t
  write "get "
  rules (t.field .key)
  write "()"
  colonType rules (t.field .ofType) false
  write ";"

def setterSignature (rules : Rules) (t : Tree) : Print := do
  leading t
  write "set "
  rules (t.field .key)
  write "("
  withTrailing rules (t.field .param)
  write ");"

def indexSignature (rules : Rules) (t : Tree) : Print := do
  leading t
  modifiers [(t.flag .isStatic, "static"), (t.flag .readonly, "readonly")]
  write "["
  list .commas (spanOf t) (withTrailing rules) (t.field .params).items
  write "]"
  colonType rules (t.field .ofType) false
  write ";"

private def declareModifier (t : Tree) : Print :=
  modifiers [(t.flag .isDeclare, "declare")]

def interface (rules : Rules) (t : Tree) : Print := do
  leading t
  declareModifier t
  write "interface "
  rules (t.field .id)
  optional rules (t.field .typeParams)
  let bases := (t.field .extended).items
  if bases.isEmpty then nothing
  else
    write " extends "
    list .commas (spanOf t) rules bases
  gap
  rules (t.field .body)

def interfaceBody (rules : Rules) (t : Tree) : Print := do
  leading t
  write "\x7b"
  list .lines (spanOf t) rules (t.field .body).items
  write "\x7d"

def typeAlias (rules : Rules) (t : Tree) : Print := do
  leading t
  declareModifier t
  write "type "
  rules (t.field .id)
  optional rules (t.field .typeParams)
  gap
  write "="
  gap
  rules (t.field .ofType)
  write ";"

def enum (rules : Rules) (t : Tree) : Print := do
  leading t
  modifiers [(t.flag .isDeclare, "declare"), (t.flag .isConst, "const")]
  write "enum "
  rules (t.field .id)
  gap
  write "\x7b"
  list .properties (spanOf t) rules (t.field .members).items
  write "\x7d"

def enumMember (rules : Rules) (t : Tree) : Print := do
  leading t
  rules (t.field .id)
  let value := t.field .init
  if value.isNull then nothing
  else
    gap
    write "="
    gap
    withTrailing rules value

def namespaceDeclaration (rules : Rules) (t : Tree) : Print := do
  leading t
  declareModifier t
  let name := t.field .id
  if t.flag .isGlobal then nothing
  else write (if name.isKind .string then "module " else "namespace ")
  rules name
  rules (t.field .body)

/-- Writes the names of namespaces inside one another with points between them. -/
def nestedNamespace (rules : Rules) (t : Tree) : Print := do
  write "."
  leading t
  rules (t.field .id)
  rules (t.field .body)

end PureCalls.Printer
