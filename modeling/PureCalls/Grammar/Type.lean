import PureCalls.Grammar.Class

/-! Types. -/
namespace PureCalls.Grammar
open Source

/-- Takes only the first of several signs that are written together. -/
private def splitSign (first : Char) : Parse Unit := do
  match ← token with
  | .sign text =>
    if text.toList.head? = some first && text.length > 1 then
      rescan fun s => .ok (.sign (String.ofList [first]), s.skip [first])
  | _ => return

def expectGreater : Parse Unit := do
  splitSign '>'
  expectSign ">"

private def isGreater : Parse Bool := do
  match ← token with
  | .sign text => return text.toList.head? = some '>'
  | _ => return false

/-- Reads items with commas between them up to a closing angle bracket. -/
private def angledItems (item : Parse Tree) : Parse (List Tree) := do
  let (items, _) ← extend (fun (items, done) => do
    if done || (← isGreater) then return none
    let t ← item
    if ← eatSign "," then return some (items ++ [t], false)
    if !(← isGreater) then failExpected ","
    return some (items ++ [t], true)) (([] : List Tree), false)
  return items

/-- Reads types between angle brackets. -/
def typeArguments (rules : Rules) : Parse Tree := do
  splitSign '<'
  let start ← here
  expectSign "<"
  let types ← withContext (fun c => { c with inType := true, conditionalTypes := true })
    (angledItems (rules .type))
  expectGreater
  if types.isEmpty then emit .emptyTypeArguments
  node .typeArguments start [(.params, .list types)]

/-- The modifiers of a type parameter. -/
private structure Variance where
  isConst : Bool := false
  isIn : Bool := false
  isOut : Bool := false

private def variance (mayVary mayBeConst : Bool) : Parse Variance :=
  extend (fun (v : Variance) => do
    let words := ["public", "private", "protected", "readonly", "abstract", "const", "override", "in", "out"]
    match ← modifier? words with
    | some "const" =>
      if !mayBeConst then emit .constTypeParameter
      return some { v with isConst := true }
    | some "in" =>
      if !mayVary then emit (.modifierOfOtherTypeParameter "in")
      else if v.isIn then emit (.repeatedModifier "in")
      else if v.isOut then emit (.modifierOrder "in" "out")
      return some { v with isIn := true }
    | some "out" =>
      if !mayVary then emit (.modifierOfOtherTypeParameter "out")
      else if v.isOut then emit (.repeatedModifier "out")
      return some { v with isOut := true }
    | some word =>
      emit (.modifierOfTypeParameter word)
      return some v
    | none => return none) {}

private def typeParameter (rules : Rules) (mayVary mayBeConst : Bool) : Parse Tree := do
  let start ← here
  let v ← variance mayVary mayBeConst
  let name ← wordName
  let constraint ← if ← eatWord "extends" then rules .type else pure .null
  let defaultType ← if ← eatSign "=" then rules .type else pure .null
  node .typeParameter start
    [(.named, name), (.constraint, constraint), (.defaultType, defaultType),
     (.isConstParam, .bool v.isConst), (.isIn, .bool v.isIn), (.isOut, .bool v.isOut)]

/-- Reads the parameters of a generic declaration between angle brackets. -/
def typeParameterList (rules : Rules) (mayVary mayBeConst : Bool) : Parse Tree := do
  let start ← here
  expectSign "<"
  let params ← withContext (fun c => { c with inType := true }) (angledItems (typeParameter rules mayVary mayBeConst))
  expectGreater
  if params.isEmpty then emit .emptyTypeParameters
  node .typeParameters start [(.parameters, .list params)]

/-- Reads a name with the names of members behind it. -/
def entityName : Parse Tree := do
  let start ← here
  let head ← wordName
  if head.field .value == .text "void" then emit .semicolonExpected
  let (name, _) ← extend (fun (t, done) => do
    if done then return none
    if !(← eatSign ".") then return none
    if !(← isSign "#") && !(← isAnyWord) then
      emit .typedNameExpected
      return some (t, true)
    let name ← wordName
    return some (← node .qualifiedName start [(.left, t), (.right, name)], false)) (head, false)
  return name

/-- Reads the parameters of a function type, which are patterns without defaults. -/
private def patterns (rules : Rules) : Parse Tree := do
  let params ← parameterList (pattern rules)
  if params.any (·.isKind .defaultPattern) then
    failUnexpected "an identifier, [ for an array pattern, \x7b for an object patter or ... for a rest pattern"
  return .list params
where
  pattern (rules : Rules) : Parse Tree := do
    if ← isSign "..." then restParameter rules else parameterPattern rules

private def separator : Parse Unit := do
  if !(← eatSign ",") then expectSemicolon

/-- Reads the name of a member of a type. Tells whether it is computed. -/
private def memberKey (rules : Rules) : Parse (Tree × Bool) := do
  match ← token with
  | .sign "[" =>
    let start ← here
    bump
    let e ← rules .assignment
    expectSign "]"
    return (← node .computed start [(.expression, e)], true)
  | .string _ => return (← stringLiteral, false)
  | .number raw => return (← numberLiteral raw, false)
  | .sign "#" =>
    let name ← privateName
    emit .privateInInterface
    return (name, false)
  | _ => return (← wordName, false)

/-- Reads the parameters and result of a call or construction behind its first words. -/
private def signatureMember (rules : Rules) (kind : Kind) (start : Pos) : Parse Tree := do
  let types ← typeParameters? rules false
  let params ← patterns rules
  let type ← returnType? rules
  separator
  node kind start [(.params, params), (.ofType, type), (.typeParams, types)]

/-- Reads a getter or setter of a type, if one stands here. -/
private def accessorMember? (rules : Rules) (start : Pos) : Parse (Option Tree) :=
  attempt do
    let isGetter ← eatWord "get"
    if !isGetter then
      if !(← eatWord "set") then return none
    let (key, computed) ← memberKey rules
    if isGetter then
      expectSign "("
      expectSign ")"
      let type ← typeBehindColon? rules
      separator
      some <$> node .getterSignature start [(.key, key), (.ofType, type), (.computed, .bool computed)]
    else
      match (← patterns rules).items with
      | param :: _ =>
        separator
        some <$> node .setterSignature start [(.key, key), (.param, param), (.computed, .bool computed)]
      | [] => fail .setterParameterNeeded

private def memberSignature (rules : Rules) : Parse Tree := do
  let start ← here
  if (← isSign "(") || (← isSign "<") then return ← signatureMember rules .callSignature start
  if ← isWord "new" then
    let next := (← peek).token
    if next == .sign "(" || next == .sign "<" then
      bump
      return ← signatureMember rules .constructSignature start
  let isReadonly := (← modifier? ["readonly"]).isSome
  match ← indexSignature? rules start isReadonly false with
  | some t => return t
  | none => pure ()
  if !isReadonly then
    match ← accessorMember? rules start with
    | some t => return t
    | none => pure ()
  let (key, computed) ← memberKey rules
  let isOptional ← eatSign "?"
  if (← isSign "(") || (← isSign "<") then
    if isReadonly then fail .readonlyMethod
    let types ← typeParameters? rules false
    let params ← patterns rules
    let type ← returnType? rules
    separator
    node .methodSignature start
      [(.key, key), (.params, params), (.ofType, type), (.typeParams, types),
       (.optional, .bool isOptional), (.computed, .bool computed)]
  else
    let type ← typeBehindColon? rules
    separator
    node .propertySignature start
      [(.key, key), (.ofType, type), (.optional, .bool isOptional), (.computed, .bool computed),
       (.readonly, .bool isReadonly)]

/-- Reads the members of an object type or interface with the braces around them. -/
def typeMembers (rules : Rules) : Parse Tree := do
  expectSign openBrace
  let members ← withContext (fun c => { c with inType := true, conditionalTypes := true }) do
    many do
      if ← isSign closeBrace then return none
      return some (← memberSignature rules)
  expectSign closeBrace
  return .list members

private def keywordTypes : List String :=
  ["void", "null", "any", "boolean", "bigint", "never", "number", "object", "string", "symbol", "undefined", "unknown", "intrinsic"]

/-- The things that a type may start with, as a message lists them. -/
private def typeStarts : String :=
  "an identifier, void, yield, null, await, break, a string literal, a numeric literal, true, false, \x60, -, " ++
    "import, this, typeof, " ++ openBrace ++ ", [, ("

private def literalType (start : Pos) (literal : Tree) : Parse Tree :=
  node .literalType start [(.literal, literal)]

private def typeReference (rules : Rules) : Parse Tree := do
  let start ← here
  let hasWord ← parameterWord?
  let name ← entityName
  let types ← if !(← afterBreak) && ((← isSign "<") || (← isSign "<<")) then rules .typeArguments else pure .null
  if hasWord then emit .parameterPropertyOutsideConstructor
  node .typeReference start [(.typeName, name), (.typeParams, types)]

private def importType (rules : Rules) : Parse Tree := do
  let start ← here
  bump
  expectSign "("
  let arg ← if ← isString then stringLiteral else do
      emit .importedTypeName
      bump
      pure .null
  let options ← if (← eatSign ",") && (← isSign openBrace) then rules .object else pure .null
  expectSign ")"
  let qualifier ← if ← eatSign "." then entityName else pure .null
  let types ← if ← isSign "<" then rules .typeArguments else pure .null
  node .importType start
    [(.argument, arg), (.qualifier, qualifier), (.typeArguments, types), (.withClause, options)]

private def typeQuery (rules : Rules) : Parse Tree := do
  let start ← here
  bump
  let name ← if ← isWord "import" then importType rules else entityName
  let types ← if !(← afterBreak) && (← isSign "<") then rules .typeArguments else pure .null
  node .typeQuery start [(.exprName, name), (.typeArguments, types)]

/-- Whether a mapped type starts at the current brace. -/
private def startsMapped : Parse Bool :=
  ahead do
    bump
    if (← isSign "+") || (← isSign "-") then
      bump
      return ← isWord "readonly"
    let _ ← eatWord "readonly"
    if !(← eatSign "[") then return false
    if !(← isReference) then return false
    bump
    isWord "in"

/-- Reads a sign and what it adds or takes away, that thing alone, or nothing. -/
private def mappedModifier (eat : Parse Bool) (expect : Parse Unit) : Parse Tree := do
  if (← isSign "+") || (← isSign "-") then
    let plus ← isSign "+"
    bump
    expect
    return .text (if plus then "+" else "-")
  else if ← eat then return .bool true
  else return .null

private def mappedType (rules : Rules) : Parse Tree := do
  let start ← here
  expectSign openBrace
  let readonly ← mappedModifier (eatWord "readonly") (expectWord "readonly")
  expectSign "["
  let paramStart ← here
  let name ← wordName
  expectWord "in"
  let constraint ← rules .type
  let param ← node .typeParameter paramStart [(.named, name), (.constraint, constraint)]
  let nameType ← if ← eatWord "as" then rules .type else pure .null
  expectSign "]"
  let optional ← mappedModifier (eatSign "?") (expectSign "?")
  let type ← if ← eatSign ":" then rules .type else pure .null
  expectSemicolon
  expectSign closeBrace
  node .mappedType start
    [(.typeParam, param), (.nameType, nameType), (.ofType, type), (.readonly, readonly),
     (.optional, optional)]

/-- Reads the label of a part of a tuple with its colon, if it has one. -/
private def tupleLabel? : Parse (Option Tree) :=
  attempt do
    let start ← here
    let dots ← eatSign "..."
    let name ← wordName
    let isOptional ← eatSign "?"
    expectSign ":"
    let name := if isOptional then addField name .optional (.bool true) else name
    if dots then some <$> node .rest start [(.argument, name)] else return some name

private def tupleElement (rules : Rules) : Parse Tree := do
  let start ← here
  let label := (← tupleLabel?).getD .null
  let partStart ← here
  let t ← if ← eatSign "..." then do
      let t ← rules .type
      node .restType partStart [(.ofType, t)]
    else do
      let t ← rules .type
      if ← eatSign "?" then node .optionalType partStart [(.ofType, t)] else pure t
  node .tupleElement start [(.label, label), (.elementType, t)]

/-- Reads the parts of a tuple between brackets. -/
private def tupleType (rules : Rules) : Parse Tree := do
  let start ← here
  expectSign "["
  let (items, _) ← commaList "]" (tupleElement rules)
  let parts := items.map (·.field .elementType)
  let behindOptional := parts.dropWhile (!·.isKind .optionalType)
  if behindOptional.any fun t => !t.isKind .optionalType && !t.isKind .restType then fail .requiredAfterOptional
  node .tupleType start [(.elemTypes, .list items)]

/-- Reads what is said of `this` behind that word. -/
private def thisPredicate (rules : Rules) (start : Pos) (asserts : Bool) (this : Tree) : Parse Tree := do
  let type ← if ← eatWord "is" then do
      let typeStart ← here
      let t ← rules .type
      node .annotatedType typeStart [(.ofType, t)]
    else pure .null
  node .typePredicate start [(.paramName, this), (.ofType, type), (.asserts, .bool asserts)]

private def thisNode : Parse Tree := do
  let start ← here
  bump
  node .thisType start []

private def primaryType (rules : Rules) : Parse Tree := do
  let start ← here
  match ← token with
  | .string _ => literalType start (← stringLiteral)
  | .number raw => literalType start (← numberLiteral raw)
  | .bigInt raw => literalType start (← bigIntLiteral raw)
  | .sign "-" =>
    bump
    match ← token with
    | .number raw => literalType start (← numberLiteral ("-" ++ raw))
    | .bigInt raw => literalType start (← bigIntLiteral ("-" ++ raw))
    | _ => failUnexpected "numeric literal or bigint literal"
  | .sign "\x60" =>
    let t ← rules (.template true)
    match t with
    | .node _ span fields =>
      let fields := fields.map fun (f, v) => if f = .expressions then (.types, v) else (f, v)
      return .node .templateType span fields
    | t => return t
  | .sign openBrace =>
    if ← startsMapped then mappedType rules
    else
      let members ← rules .typeMembers
      node .typeLiteral start [(.members, members)]
  | .sign "[" => tupleType rules
  | .sign "(" =>
    bump
    let t ← withContext (fun c => { c with conditionalTypes := true }) (rules .type)
    expectSign ")"
    node .parenType start [(.ofType, t)]
  | .word name false =>
    if name = "import" then importType rules
    else if name = "typeof" then typeQuery rules
    else if name = "this" then
      let this ← thisNode
      if !(← afterBreak) && (← isWord "is") then thisPredicate rules start false this else return this
    else if name = "true" || name = "false" then
      bump
      let value ← node .boolean start [(.value, .bool (name = "true"))]
      literalType start value
    else
      let next := (← peek).token
      if name = "asserts" && next == .word "this" false then
        bump
        thisPredicate rules start true (← thisNode)
      else if keywordTypes.contains name && next != .sign "." then
        bump
        node .keywordType start [(.kind, .text name)]
      else if (← isReference) || ["void", "yield", "null", "await", "break"].contains name then typeReference rules
      else failUnexpected typeStarts
  | .word _ true => typeReference rules
  | .bad fault => fail fault
  | _ => failUnexpected typeStarts

/-- Reads a type with the brackets behind it. -/
private def arrayOrAccess (rules : Rules) : Parse Tree := do
  let start ← here
  let t ← primaryType rules
  extend (fun t => do
    if (← afterBreak) || !(← isSign "[") then return none
    bump
    if ← eatSign "]" then return some (← node .arrayType start [(.elemType, t)])
    let index ← rules .type
    expectSign "]"
    return some (← node .indexedAccess start [(.objectType, t), (.indexType, index)])) t

/-- Reads a type with the words in front of it. -/
def typeOperator (rules : Rules) : Parse Tree := do
  let start ← here
  match ← token with
  | .word name false =>
    if ["keyof", "unique", "readonly"].contains name then
      bump
      let t ← rules .typeOperator
      return ← node .typeOperator start [(.operator, .text name), (.ofType, t)]
    if name = "infer" then
      bump
      let paramStart ← here
      let id ← wordName
      let constraint ← if ← isWord "extends" then attempt do
          bump
          let t ← withContext (fun c => { c with conditionalTypes := false }) (rules .type)
          if (← context).conditionalTypes && (← isSign "?") then return none
          return some t
        else pure none
      let param ← node .typeParameter paramStart [(.named, id), (.constraint, constraint.getD .null)]
      return ← node .inferType start [(.typeParam, param)]
    arrayOrAccess rules
  | _ => arrayOrAccess rules

/-- Reads types with a sign between them, which may also stand in front. -/
private def joined (sign : String) (kind : Kind) (item : Parse Tree) : Parse Tree := do
  let start ← here
  let _ ← eatSign sign
  let first ← item
  let rest ← many do
    if ← eatSign sign then return some (← item) else return none
  if rest.isEmpty then return first
  node kind start [(.types, .list (first :: rest))]

def unionType (rules : Rules) : Parse Tree :=
  joined "|" .unionType (joined "&" .intersectionType (rules .typeOperator))

/-- Whether a function type starts at the current token. -/
private def startsFunctionType : Parse Bool := do
  if ← isSign "<" then return true
  if !(← isSign "(") then return false
  ahead do
    bump
    if (← isSign ")") || (← isSign "...") then return true
    let skipped ← skipParameter
    if !skipped then return false
    match ← token with
    | .sign text =>
      if [":", ",", "?", "="].contains text then return true
      if text = ")" then
        bump
        isSign "=>"
      else return false
    | _ => return false
where
  /-- Passes over a name or the brackets of a pattern. -/
  skipParameter : Parse Bool := do
    let _ ← parameterWord?
    if ← isWord "void" then return false
    if ← isAnyWord then
      bump
      return true
    else if (← isSign openBrace) || (← isSign "[") then
      let (depth, _) ← extend (fun (depth, first) => do
        if depth = 0 && !first then return none
        if ← isEnd then return none
        let opens := (← isSign openBrace) || (← isSign "[")
        let closes := (← isSign closeBrace) || (← isSign "]")
        bump
        return some (if opens then depth + 1 else if closes then depth - 1 else depth, false)) ((0 : Nat), true)
      return depth = 0
    else return false

private def functionType (rules : Rules) (kind : Kind) (start : Pos) (isAbstract : Bool) : Parse Tree := do
  let types ← typeParameters? rules false
  let params ← patterns rules
  let resultStart ← here
  expectSign "=>"
  let result ← typePredicateOr rules
  let type ← node .annotatedType resultStart [(.ofType, result)]
  node kind start
    [(.params, params), (.typeParams, types), (.ofType, type), (.isAbstract, .bool isAbstract)]
where
  /-- Reads a statement about a parameter, or a type. -/
  typePredicateOr (rules : Rules) : Parse Tree := do
    let start ← here
    let predicate ← attempt do
      let asserts ← if (← isWord "asserts") && (match (← peek).token with | .word n _ => n ≠ "is" | _ => false) then
          eatWord "asserts"
        else pure false
      let nameStart ← here
      let name ← if ← isWord "this" then do
          bump
          node .thisType nameStart []
        else identifier
      if !(← afterBreak) && (← isWord "is") then
        bump
        let typeStart ← here
        let t ← rules .type
        let type ← node .annotatedType typeStart [(.ofType, t)]
        return some (← node .typePredicate start
          [(.paramName, name), (.ofType, type), (.asserts, .bool asserts)])
      else if asserts then
        return some (← node .typePredicate start [(.paramName, name), (.ofType, .null), (.asserts, .bool true)])
      else return none
    match predicate with
    | some t => return t
    | none => rules .type

/-- Reads the result of a function with its colon. -/
def resultType (rules : Rules) : Parse Tree := do
  let start ← here
  expectSign ":"
  let t ← functionType.typePredicateOr rules
  node .annotatedType start [(.ofType, t)]

/-- Reads a type that is no conditional type. -/
def nonConditionalType (rules : Rules) : Parse Tree := do
  let start ← here
  if ← startsFunctionType then return ← functionType rules .functionType start false
  if ← isWord "new" then
    bump
    return ← functionType rules .constructorType start false
  if (← isWord "abstract") && (← peek).token == .word "new" false then
    bump
    bump
    return ← functionType rules .constructorType start true
  rules .unionType

def typeRule (rules : Rules) : Parse Tree := do
  let start ← here
  let conditional := (← context).conditionalTypes
  let t ← withContext (fun c => { c with inType := true }) (rules .nonConditionalType)
  if conditional && !(← afterBreak) && (← isWord "extends") then
    bump
    let extendsType ← withContext (fun c => { c with conditionalTypes := false }) (rules .nonConditionalType)
    expectSign "?"
    let trueType ← rules .type
    expectSign ":"
    let falseType ← rules .type
    node .conditionalType start
      [(.checkType, t), (.extendsType, extendsType), (.trueType, trueType), (.falseType, falseType)]
  else return t

end PureCalls.Grammar
