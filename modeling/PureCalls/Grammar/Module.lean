import PureCalls.Grammar.Statement

/-! Imports and exports. -/
namespace PureCalls.Grammar
open Source

/-- Reads the attributes of an imported module, if they stand here. -/
private def attributes? (rules : Rules) : Parse Tree := do
  if !(← afterBreak) && ((← isWord "assert") || (← isWord "with")) then
    bump
    rules .object
  else return .null

/-- Reads the name of a module and its attributes behind `from`. -/
private def source (rules : Rules) : Parse (Tree × Tree) := do
  expectWord "from"
  let s ← stringLiteral
  return (s, ← attributes? rules)

/-- Reads the name of an import or export, which may be a string. -/
private def exportName : Parse Tree := do
  match ← token with
  | .string _ => stringLiteral
  | .word _ _ => wordName
  | _ => failUnexpected "identifier or string"

private def textOf (t : Tree) : String :=
  (t.field .value).text?.getD ""

private def isText (t : Tree) (name : String) : Bool :=
  t.isKind .identifier && textOf t = name

/-- Reads the name behind `as` that an import binds, or binds its own name. -/
private def importedAs (start : Pos) (imported : Tree) (isTypeOnly : Bool) : Parse Tree := do
  let make (localName imported : Tree) : Parse Tree :=
    node .importNamed start [(.localName, localName), (.imported, imported), (.isTypeOnly, .bool isTypeOnly)]
  if ← eatWord "as" then make (← bindingIdentifier) imported
  else
    if imported.isKind .string then fail (.importedString (textOf imported))
    if (← context).isReserved (textOf imported) then fail .reservedImport
    make imported .null

private def importSpecifier (typeOnly : Bool) : Parse Tree := do
  let start ← here
  let make (localName imported : Tree) (isTypeOnly : Bool) : Parse Tree :=
    node .importNamed start [(.localName, localName), (.imported, imported), (.isTypeOnly, .bool isTypeOnly)]
  let checkNested : Parse Unit := if typeOnly then emit (.nestedTypeModifier "import") else pure ()
  let first ← exportName
  if !(← typescript) || !isText first "type" || !(← isAnyWord) then return ← importedAs start first false
  let second ← wordName
  if !isText second "as" then
    checkNested
    return ← importedAs start second true
  if !(← isAnyWord) then
    checkNested
    return ← make second .null true
  let third ← bindingIdentifier
  if !isText third "as" || !(← isAnyWord) then return ← make third first false
  let fourth ← bindingIdentifier
  checkNested
  make fourth second true

/-- Reads `import name = …` behind the name. -/
private def importEquals (start : Pos) (id : Tree) (isExport isTypeOnly : Bool) : Parse Tree := do
  expectSign "="
  let refStart ← here
  let target ← if (← isWord "require") && (← peek).token == .sign "(" then do
      bump
      bump
      let s ← stringLiteral
      expectSign ")"
      node .externalModule refStart [(.expression, s)]
    else entityName
  expectSemicolon
  node .importEquals start
    [(.id, id), (.moduleRef, target), (.isExport, .bool isExport), (.isTypeOnly, .bool isTypeOnly)]

/-- Whether the word at the current token is a name that is bound, and does not end what is bound. -/
private def bindsNext : Parse Bool := do
  if !(← isReference) then return false
  if !(← isWord "from") then return true
  return (← peek).token == .word "from" false

/-- Reads a default import behind `type`, if that word makes all of the import about types. -/
private def importedType? (first : Tree) : Parse (Option Tree × Bool) := do
  if !(← typescript) || !isText first "type" then return (some first, false)
  if (← isSign openBrace) || (← isSign "*") then return (none, true)
  if ← bindsNext then return (some (← bindingIdentifier), true)
  if (← isWord "from") && (← peek).token == .sign "=" then return (some (← wordName), true)
  return (some first, false)

/-- Reads a default import behind a word for the phase in which the module is imported. -/
private def importedInPhase? (first : Tree) : Parse (Option Tree × Tree) := do
  let isDefer := isText first "defer"
  if !isDefer && !isText first "source" then return (some first, .null)
  let word := first.field .value
  if isDefer && (← isSign "*") then return (none, word)
  if ← bindsNext then return (some (← bindingIdentifier), word)
  return (some first, .null)

/-- Reads the names of an import that are not the default. -/
private def importedNames (typeOnly : Bool) : Parse (List Tree) := do
  let start ← here
  if ← eatSign "*" then
    expectWord "as"
    let id ← bindingIdentifier
    return [← node .importNamespace start [(.localName, id)]]
  else if ← eatSign openBrace then
    let (items, _) ← openList closeBrace (importSpecifier typeOnly)
    return items
  else return []

private def importNode (rules : Rules) (start : Pos) (specifiers : List Tree) (typeOnly : Bool) (phase : Tree) :
    Parse Tree := do
  let (s, attributes) ← source rules
  expectSemicolon
  node .importDeclaration start
    [(.specifiers, .list specifiers), (.source, s), (.withClause, attributes), (.typeOnly, .bool typeOnly),
     (.phase, phase)]

private def importDeclaration (rules : Rules) : Parse Tree := do
  let start ← here
  bump
  if ← isString then
    let s ← stringLiteral
    let attributes ← attributes? rules
    expectSemicolon
    return ← node .importDeclaration start
      [(.specifiers, .list []), (.source, s), (.withClause, attributes), (.typeOnly, .bool false)]
  if !(← isReference) then return ← importNode rules start (← importedNames false) false .null
  let (named, typeOnly) ← importedType? (← bindingIdentifier)
  match named with
  | none => importNode rules start (← importedNames typeOnly) typeOnly .null
  | some named =>
    if (← typescript) && (← isSign "=") then return ← importEquals start named false typeOnly
    let (named, phase) ← importedInPhase? named
    match named with
    | none => importNode rules start (← importedNames typeOnly) typeOnly phase
    | some named =>
      if !(← isWord "from") then expectSign ","
      let first := Tree.node .importDefault (some ⟨named.start, named.stop⟩) [(.localName, named)]
      importNode rules start (first :: (← importedNames typeOnly)) typeOnly phase

private def exportSpecifier (typeOnly : Bool) : Parse Tree := do
  let start ← here
  let make (orig exported : Tree) (isTypeOnly : Bool) : Parse Tree :=
    node .exportSpecifier start [(.orig, orig), (.exported, exported), (.isTypeOnly, .bool isTypeOnly)]
  let nameFollows : Parse Bool := do return (← isAnyWord) || (← isString)
  let checkNested : Parse Unit := if typeOnly then emit (.nestedTypeModifier "export") else pure ()
  let exportedAs? : Parse Tree := do if ← eatWord "as" then exportName else return .null
  let first ← exportName
  if !(← typescript) || !isText first "type" || !(← nameFollows) then return ← make first (← exportedAs?) false
  let second ← exportName
  if !isText second "as" then
    checkNested
    return ← make second (← exportedAs?) true
  if !(← nameFollows) then
    checkNested
    return ← make second .null true
  let third ← exportName
  if !isText third "as" || !(← nameFollows) then return ← make first third false
  let fourth ← exportName
  checkNested
  make second fourth true

private def exportList (rules : Rules) (start : Pos) (typeOnly : Bool) : Parse Tree := do
  expectSign openBrace
  let (specifiers, _) ← openList closeBrace (exportSpecifier typeOnly)
  let make (s attributes : Tree) : Parse Tree :=
    node .exportNamed start
      [(.specifiers, .list specifiers), (.source, s), (.withClause, attributes), (.typeOnly, .bool typeOnly)]
  if ← isWord "from" then
    let (s, attributes) ← source rules
    expectSemicolon
    make s attributes
  else
    for specifier in specifiers do
      let orig := specifier.field .orig
      let isReserved := Token.isReserved (textOf orig) || ["enum", "await", "yield"].contains (textOf orig)
      if orig.isKind .string then emit .exportedString
      else if isReserved then emit (.exportNeedsFrom (textOf orig))
    let _ ← eatSemicolon
    make .null .null

private def exportStar (rules : Rules) (start : Pos) (typeOnly : Bool) : Parse Tree := do
  let starStart ← here
  expectSign "*"
  if ← eatWord "as" then
    let name ← exportName
    let space ← node .exportNamespaceSpecifier starStart [(.named, name)]
    let (s, attributes) ← source rules
    expectSemicolon
    node .exportNamed start
      [(.specifiers, .list [space]), (.source, s), (.withClause, attributes), (.typeOnly, .bool typeOnly)]
  else
    let (s, attributes) ← source rules
    expectSemicolon
    node .exportAll start [(.source, s), (.withClause, attributes), (.typeOnly, .bool typeOnly)]

private def exportDefault (rules : Rules) (start : Pos) : Parse Tree := do
  let inner ← here
  let declared (t : Tree) : Parse Tree := node .exportDefaultDeclaration start [(.declared, t)]
  let next ← peek
  let typed ← typescript
  if typed && (← isWord "abstract") && next.token == .word "class" false && !next.afterBreak then
    bump
    return ← declared (← classNode rules .classExpression inner false true [])
  if typed && (← isWord "abstract") && next.token == .word "interface" false then
    emit .abstractNotAllowed
    bump
  if typed && (← isWord "interface") then
    match ← declarationBy rules (← here) false with
    | some t => return ← declared t
    | none => pure ()
  if ← isWord "class" then return ← declared (← classNode rules .classExpression inner false false [])
  if ← isWord "function" then
    return ← declared (← functionNode rules .function inner false fun _ => optionalName)
  if (← isWord "async") && next.token == .word "function" false && !next.afterBreak then
    bump
    return ← declared (← functionNode rules .function inner true fun _ => optionalName)
  let e ← allowingIn (rules .assignment)
  expectSemicolon
  node .exportDefaultExpression start [(.expression, e)]

/-- Reads a declaration of typed code behind `export`, if one can be read there. -/
private def exportedType? (rules : Rules) : Parse (Option Tree) := do
  let start ← here
  let isAmbient ← eatWord "declare"
  let ambient ← if isAmbient then ambientDeclaration? rules start else pure none
  match ambient with
  | some t => return some t
  | none => do
    let start ← here
    attempt (declarationBy rules start false)

/-- Whether the current token starts a declaration that all code may export. -/
private def startsDeclaration : Parse Bool := do
  match ← token with
  | .word name false =>
    match name with
    | "class" | "function" | "var" | "const" => return true
    | "let" => startsLet
    | "async" =>
      let next ← peek
      return next.token == .word "function" false && !next.afterBreak
    | _ => return false
  | _ => return false

/-- Reads the forms of an export that only typed code has, if one stands here. -/
private def typedExport? (rules : Rules) (start : Pos) : Parse (Option Tree) := do
  match ← exportedType? rules with
  | some t => return some (← node .exportDeclaration start [(.declaration, t)])
  | none => pure ()
  if ← eatWord "import" then
    let nameFollows := match (← peek).token with
      | .word _ _ => true
      | _ => false
    let typeOnly := nameFollows && (← isWord "type")
    if typeOnly then bump
    let id ← wordName
    return some (← importEquals start id true typeOnly)
  if ← eatSign "=" then
    let e ← rules .expression
    expectSemicolon
    return some (← node .exportAssignment start [(.expression, e)])
  if ← eatWord "as" then
    expectWord "namespace"
    let id ← identifier
    expectSemicolon
    return some (← node .namespaceExport start [(.id, id)])
  return none

private def exportDeclaration (rules : Rules) : Parse Tree := do
  let start ← here
  bump
  if ← isEnd then fail .unexpectedEnd
  let typed ← typescript
  if typed then
    match ← typedExport? rules start with
    | some t => return t
    | none => pure ()
  let typeOnly ← if typed then eatWord "type" else pure false
  if ← isSign "*" then return ← exportStar rules start typeOnly
  if !typeOnly then
    if ← eatWord "default" then return ← exportDefault rules start
    if ← startsDeclaration then
      let declaration ← rules (.statement true)
      return ← node .exportDeclaration start [(.declaration, declaration)]
  exportList rules start typeOnly

/-- Takes the text to be a module from here on, all code of which is strict. -/
private def enterModule : Parse Unit :=
  modify fun s =>
    { s with hasModuleItem := true, context := { s.context with strict := true, inModule := true } }

/-- Reads an import, an export or a statement. -/
def moduleItem (rules : Rules) : Parse Tree := do
  if ← isWord "import" then
    let next := (← peek).token
    if next == .sign "(" || next == .sign "." then importStatement rules
    else
      enterModule
      importDeclaration rules
  else if ← isWord "export" then
    enterModule
    exportDeclaration rules
  else rules (.statement true)

end PureCalls.Grammar
