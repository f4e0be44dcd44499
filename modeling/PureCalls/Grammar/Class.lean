import PureCalls.Grammar.Function

/-! Classes and their members. -/
namespace PureCalls.Grammar
open Source

/-- Whether the word at the current token modifies what follows it, and is not a name itself. -/
private def modifiesNext : Parse Bool := do
  let next ← peek
  if next.afterBreak then return false
  match next.token with
  | .word _ _ | .string _ | .number _ | .bigInt _ => return true
  | .sign text => return ["[", openBrace, "*", "...", "#"].contains text
  | _ => return false

/-- Reads one of the given words if it stands here as a modifier. Only typed code has modifiers. -/
def modifier? (words : List String) : Parse (Option String) := do
  if !(← typescript) then return none
  match ← token with
  | .word name false =>
    if words.contains name && (← modifiesNext) then
      bump
      return some name
    else return none
  | .bad fault => fail fault
  | .eof => fail .unexpectedEnd
  | _ => return none

/-- Reads a word that tells from where a member can be reached. -/
private def accessibility? : Parse (Option String) := do
  match ← modifier? ["public", "protected", "private", "in", "out"] with
  | some word =>
    if word = "in" || word = "out" then
      emit (.modifierOfOtherTypeParameter word)
      return none
    else return some word
  | none => return none

/-- The modifiers in front of a member. -/
structure Modifiers where
  accessibility : Option String := none
  isDeclare : Bool := false
  isStatic : Bool := false
  isAbstract : Bool := false
  isOverride : Bool := false
  isReadonly : Bool := false
  isAccessor : Bool := false

private def flags (m : Modifiers) : List (Field × Tree) :=
  [(.accessibility, match m.accessibility with | some a => .text a | none => .null),
   (.isDeclare, .bool m.isDeclare), (.isStatic, .bool m.isStatic), (.isAbstract, .bool m.isAbstract),
   (.isOverride, .bool m.isOverride), (.readonly, .bool m.isReadonly)]

/-- Reads one more of the modifiers that may come in several orders. -/
private def looseModifier (m : Modifiers) : Parse (Option Modifiers) := do
  if (← isWord "static") && (← peek).token == .sign openBrace then return none
  match ← modifier? ["abstract", "readonly", "override", "static"] with
  | some "abstract" =>
    if m.isAbstract then emit (.repeatedModifier "abstract")
    else if m.isOverride then emit (.modifierOrder "abstract" "override")
    return some { m with isAbstract := true }
  | some "readonly" =>
    if m.isReadonly then emit (.repeatedModifier "readonly")
    return some { m with isReadonly := true }
  | some "override" =>
    if m.isOverride then emit (.repeatedModifier "override")
    else if m.isReadonly then emit (.modifierOrder "override" "readonly")
    else if m.isDeclare then emit (.clashingModifiers "override" "declare")
    else if !(← context).hasBase then emit .overrideWithoutBase
    return some { m with isOverride := true }
  | some _ =>
    if m.isOverride then emit (.modifierOrder "static" "override")
    return some { m with isStatic := true }
  | none => return none

private def memberName (rules : Rules) : Parse Tree := do
  if ← isSign "#" then
    let name ← privateName
    if name.field .value == .text "constructor" then emit .privateConstructor
    return name
  else propertyName rules

private def isConstructorName (key : Tree) : Bool :=
  (key.isKind .identifier || key.isKind .string) && key.field .value == .text "constructor"

/-- Reads a parameter of a constructor, which may declare a property. -/
private def constructorParameter (rules : Rules) : Parse Tree := do
  let start ← here
  let plain (pat : Tree) : Tree :=
    .node .parameter (some ⟨pat.start, pat.stop⟩) [(.decorators, .list []), (.pat, pat)]
  if ← eatSign "..." then
    let target ← rules .pattern
    let type ← typeBehindColon? rules
    return plain (← node .rest start [(.argument, target), (.ofType, type)])
  let accessibility ← accessibility?
  let isOverride := (← modifier? ["override"]).isSome
  let isReadonly := (← modifier? ["readonly"]).isSome
  let pat ← parameterPattern rules
  if accessibility.isNone && !isOverride && !isReadonly then return plain pat
  if !pat.isKind .identifier && !pat.isKind .defaultPattern then fail .parameterPropertyPattern
  let m : Modifiers := { accessibility, isOverride, isReadonly }
  node .parameterProperty start ([(.decorators, .list []), (.param, pat)] ++ flags m)

/-- Reads the type parameters that a constructor should not have. -/
private def constructorTypes (rules : Rules) : Parse Unit := do
  if (← typescript) && (← isSign "<") then
    if (← peek).token == .sign ">" then
      bump
      bump
      emit .emptyTypeParameters
    else
      for _ in ((← rules (.typeParameters false true)).field .parameters).items do emit .constructorTypeParameters

private def constructorNode (rules : Rules) (start : Pos) (key : Tree) (m : Modifiers) (isOptional : Bool) :
    Parse Tree := do
  if m.isOverride then emit (.constructorModifier "override")
  constructorTypes rules
  let params ← parameterList (constructorParameter rules)
  if (← typescript) && (← isSign ":") then
    let _ ← typeBehindColon? rules
    emit .constructorResult
  let body ← optionalBody rules false false params
  if m.isStatic then emit (.constructorModifier "static")
  if m.isAbstract then emit .abstractNotAllowed
  node .classConstructor start
    ([(.key, key), (.params, .list params), (.body, body), (.optional, .bool isOptional)] ++ flags m)

/-- Reads the parameters and body of a method. -/
private def methodNode (rules : Rules) (start : Pos) (key : Tree) (m : Modifiers) (kind : String)
    (isAsync isGenerator isOptional : Bool) : Parse Tree := do
  let from_ ← here
  let s ← withContext (fun c => { c with superAllowed := true, inField := false }) do
    signature rules isAsync isGenerator do
      let params ← parameters rules
      if kind ≠ "method" then checkAccessor (kind = "getter") params.items
      return params
  if kind ≠ "method" && !s.typeParameters.isNull then emit .accessorTypeParameters
  let isPrivate := key.isKind .privateName
  if isPrivate && m.accessibility.isSome then emit .privateAccessibility
  if !isPrivate && m.isAbstract && !s.body.isNull then emit .abstractWithBody
  let function := Tree.node .plain (some ⟨from_, ← lastStop⟩) (signatureFields s isAsync isGenerator)
  node (if isPrivate then .privateMethod else .classMethod) start
    ([(.key, key), (.function, function), (.kind, .text kind), (.optional, .bool isOptional)] ++ flags m)

private def propertyNode (rules : Rules) (start : Pos) (key : Tree) (m : Modifiers) (isOptional : Bool) :
    Parse Tree := do
  if isConstructorName key then fail .fieldNamedConstructor
  let isPrivate := key.isKind .privateName
  if isPrivate && m.isDeclare then emit (.privateModifier "declare")
  if isPrivate && m.isAbstract then emit (.privateModifier "abstract")
  let definite ← if (← typescript) && !isOptional then eatSign "!" else pure false
  let type ← typeBehindColon? rules
  let value ← withContext (fun c => { c with inAllowed := true, inField := true }) do
    if ← eatSign "=" then rules .assignment else return .null
  if !(← eatSemicolon) then emit .semicolonExpected
  if !m.isAccessor then
    if isPrivate && m.accessibility.isSome then emit .privateAccessibility
    if !isPrivate && m.isAbstract && !value.isNull then emit .abstractWithValue
  let kind : Kind := if m.isAccessor then .autoAccessor else if isPrivate then .privateProperty else .classProperty
  node kind start
    ([(.key, key), (.value, value), (.ofType, type), (.optional, .bool isOptional),
      (.definite, .bool definite)] ++ flags m)

private def isMethodNext : Parse Bool := do
  return (← isSign "(") || ((← typescript) && (← isSign "<"))

/-- Whether the name of a property ends here. A line or the class that ends may end it too. -/
private def isPropertyNext (mayEndLine : Bool) : Parse Bool := do
  if (← typescript) && ((← isSign "!") || (← isSign ":")) then return true
  if (← isSign "=") || (← isSign closeBrace) then return true
  if mayEndLine then canEndStatement else isSign ";"

/-- Reads a member that is named by the modifier in front of the current token, if there is one. -/
private def memberNamed? (rules : Rules) (start : Pos) (word : String) (m : Modifiers) (mayEndLine : Bool) :
    Parse (Option Tree) := do
  let key := makeIdentifier start (← lastStop) word []
  let optional : Parse Bool := do if ← typescript then eatSign "?" else return false
  if ← isMethodNext then return some (← methodNode rules start key m "method" false false (← optional))
  if (← isPropertyNext mayEndLine) || ((← typescript) && (← isSign "?")) then
    return some (← propertyNode rules start key m (← optional))
  return none

/-- Reads a block of statements that runs with the class. -/
private def staticBlock (rules : Rules) (start : Pos) (m : Modifiers) : Parse Tree := do
  if m.isDeclare then emit .modifierNotAllowed
  if m.accessibility.isSome then emit .modifierNotAllowed
  let body ← withContext (fun c => { c with staticBlock := true, inField := true, inAllowed := true })
    (blockStatement rules)
  node .staticBlock start [(.body, body)]

/-- Reads `[name: type]: type`, if it stands here. -/
def indexSignature? (rules : Rules) (start : Pos) (isReadonly isStatic : Bool) : Parse (Option Tree) := do
  if !(← isSign "[") then return none
  let starts ← ahead do
    bump
    if !(← isReference) then return false
    bump
    return (← isSign ":") || (← isSign ",")
  if !starts then return none
  bump
  let id ← wordName
  let typeStart ← here
  if ← eatSign "," then emit .indexParameters else expectSign ":"
  let keyType ← rules .type
  let id := annotate id (← node .annotatedType typeStart [(.ofType, keyType)])
  expectSign "]"
  let type ← typeBehindColon? rules
  if !(← eatSign ",") then expectSemicolon
  some <$> node .indexSignature start
    [(.params, .list [id]), (.ofType, type), (.readonly, .bool isReadonly), (.isStatic, .bool isStatic)]

/-- Reads a member behind its modifiers. -/
private def memberBehind (rules : Rules) (start : Pos) (m : Modifiers) : Parse Tree := do
  let typed ← typescript
  if typed && !m.isAbstract && !m.isOverride && m.accessibility.isNone then
    match ← indexSignature? rules start m.isReadonly m.isStatic with
    | some t => return t
    | none => pure ()
  if ← eatSign "*" then
    let key ← memberName rules
    if m.isReadonly then emit .readonlyMethod
    if isConstructorName key then emit .generatorConstructor
    return ← methodNode rules start key m "method" false true false
  let key ← memberName rules
  let isOptional ← if typed then eatSign "?" else pure false
  if ← isMethodNext then
    if m.isDeclare then emit .declareNotAllowed
    if m.isReadonly then fail .readonlyMethod
    if isConstructorName key then return ← constructorNode rules start key m isOptional
    return ← methodNode rules start key m "method" false false isOptional
  let word := if key.isKind .identifier then (key.field .value).text?.getD "" else ""
  let isGeneratorNext := (← afterBreak) && (← isSign "*")
  let isAccessor := (word = "get" || word = "set") && !(← isPropertyNext false) && !isGeneratorNext
  if !isAccessor && (← isPropertyNext true) then return ← propertyNode rules start key m isOptional
  if word = "async" && !(← afterBreak) then
    let isOverride := (← modifier? ["override"]).isSome
    if isOverride then emit (.modifierOrder "override" "async")
    let isGenerator ← eatSign "*"
    let key ← memberName rules
    if isConstructorName key then fail .asyncConstructor
    if m.isReadonly then emit .readonlyMethod
    let isOptional ← if typed && !isOptional then eatSign "?" else pure isOptional
    let m := { m with isOverride := m.isOverride || isOverride }
    return ← methodNode rules start key m "method" true isGenerator isOptional
  if isAccessor then
    let key ← memberName rules
    if m.isReadonly then emit .readonlyAccessor
    if isConstructorName key then emit .accessorConstructor
    return ← methodNode rules start key m (if word = "get" then "getter" else "setter") false false isOptional
  failUnexpected "* for generator, private key, identifier or async"

def classMember (rules : Rules) : Parse Tree := do
  let start ← here
  if ← eatSign ";" then return ← node .empty start []
  let typed ← typescript
  let first ← if typed then eatWord "declare" else pure false
  let accessibility ← accessibility?
  let isDeclare ← if typed && !first then eatWord "declare" else pure first
  let m : Modifiers := { accessibility }
  if isDeclare then
    match ← memberNamed? rules start "declare" m true with
    | some t => return t
    | none => pure ()
  let staticStart ← here
  let isStatic ← eatWord "static"
  let accessorStart ← here
  let isAccessor ← if typed then eatWord "accessor" else pure false
  if isStatic then
    match ← memberNamed? rules staticStart "static" { m with isDeclare } false with
    | some t => return t
    | none => pure ()
  if isAccessor then
    match ← memberNamed? rules accessorStart "accessor" { m with isDeclare, isStatic } false with
    | some t => return t
    | none => pure ()
  let m := { m with isDeclare, isStatic }
  let (m, modified) ← extend (fun (m, _) => do
    match ← looseModifier m with
    | some m => return some (m, true)
    | none => return none) (m, false)
  let isAccessor ← if typed && !isAccessor then eatWord "accessor" else pure isAccessor
  let m := { m with isAccessor }
  if m.isStatic && (← isSign openBrace) then return ← staticBlock rules start m
  if (← isWord "static") && (← peek).token == .sign openBrace then
    if modified then emit .modifierNotAllowed
    bump
    return ← staticBlock rules start m
  memberBehind rules start m

/-- Reads a base or interface, which is a name with members and maybe type arguments. -/
private def heir (rules : Rules) : Parse Tree := do
  let start ← here
  let head ← wordName
  let name ← extend (fun t => do
    if ← eatSign "." then
      let name ← wordName
      return some (← node .member start [(.object, t), (.property, name)])
    else return none) head
  let e ← if (← isSign "!") || (← isSign "?.") || (← isSign "\x60") then do
      let e ← rules (.subscripts name false)
      emit .invalidBaseName
      pure e
    else pure name
  let types ← if (← isSign "<") || (← isSign "<<") then rules .typeArguments else pure .null
  node .heritage start [(.expression, e), (.typeArguments, types)]

/-- Reads bases or interfaces with commas between them. -/
def heritage (rules : Rules) : Parse (List Tree) := do
  let ends : Parse Bool := do return (← isSign openBrace) || (← isWord "implements") || (← isWord "extends")
  let (items, _) ← extend (fun (items, done) => do
    if done || (← ends) then return none
    let item ← heir rules
    if ← eatSign "," then return some (items ++ [item], false)
    if !(← ends) then failExpected ","
    return some (items ++ [item], true)) (([] : List Tree), false)
  return items

private structure Header where
  base : Tree := .null
  baseTypes : Tree := .null
  implemented : List Tree := []

private def baseClass (rules : Rules) : Parse Header := do
  let e ← rules .leftHandSide
  if e.isKind .instantiation then return { base := e.field .expression, baseTypes := e.field .typeArguments }
  let types ← if (← typescript) && (← isSign "<") then rules .typeArguments else pure Tree.null
  return { base := e, baseTypes := types }

/-- Reads what a class extends and implements. -/
private def header (rules : Rules) : Parse Header := do
  let typed ← typescript
  let h : Header ← if ← eatWord "extends" then do
      let h ← baseClass rules
      if typed then
        if ← eatSign "," then
          for _ in ← heritage rules do emit .manyBases
      pure h
    else pure {}
  if ← eatWord "extends" then
    emit .repeatedExtends
    let _ ← baseClass rules
  if !typed then return h
  let h ← if ← eatWord "implements" then do pure { h with implemented := ← heritage rules } else pure h
  if ← eatWord "implements" then
    emit .repeatedImplements
    let _ ← heritage rules
  if ← eatWord "extends" then
    emit .extendsAfterImplements
    let late ← baseClass rules
    return if h.base.isNull then { late with implemented := h.implemented } else h
  return h

/-- The names of types that are known everywhere, which no class or interface can have. -/
def reservedTypeNames : List String :=
  ["string", "null", "number", "object", "any", "unknown", "boolean", "bigint", "symbol", "void", "never", "intrinsic"]

private def className (needsName : Bool) : Parse Tree := do
  if !needsName && !(← isReference) then return .null
  if ← isWord "let" then failUnexpected "let is reserved in const, let, class declaration"
  let name ← bindingIdentifier
  if (← typescript) && reservedTypeNames.contains ((name.field .value).text?.getD "") then emit .invalidClassName
  return name

/-- Reads the members of a class with the braces around them. -/
private def classBody (rules : Rules) : Parse (List Tree) := do
  expectSign openBrace
  let (members, _) ← extend (fun (members, seen) => do
    if (← isSign closeBrace) || (← isEnd) then return none
    let member ← withContext (fun c => { c with superAllowed := true }) (classMember rules)
    let isFull := member.isKind .classConstructor && !(member.field .body).isNull && !(← context).inAmbient
    if isFull && seen then emit .repeatedConstructor
    return some (members ++ [member], seen || isFull)) (([] : List Tree), false)
  expectClosing
  return members

/-- Reads a class from its word on. -/
def classNode (rules : Rules) (kind : Kind) (start : Pos) (needsName isAbstract : Bool)
    (more : List (Field × Tree)) : Parse Tree := do
  expectWord "class"
  let inClass (c : Context) : Context := { c with strict := true, inClass := true, inAllowed := true }
  withContext inClass do
    let name ← className needsName
    let types ← typeParameters? rules true
    let h ← header rules
    let members ← withContext (fun c => { c with hasBase := !h.base.isNull }) (classBody rules)
    if !isAbstract then
      for m in members do
        if (m.isKind .classMethod || m.isKind .classProperty) && m.flag .isAbstract then emit .abstractOutsideAbstract
    node kind start
      ([(.identifier, name), (.decorators, .list []), (.body, .list members), (.superClass, h.base),
        (.typeParams, types), (.superTypeParams, h.baseTypes), (.implements, .list h.implemented),
        (.isAbstract, .bool isAbstract)] ++ more)

end PureCalls.Grammar
