import PureCalls.Grammar.Expression

/-! Functions, and the properties of object literals. -/
namespace PureCalls.Grammar
open Source

/-- Reads statements between braces. -/
def blockStatement (rules : Rules) : Parse Tree := do
  let start ← here
  let stmts ← withContext (fun c => { c with topLevel := false }) (bracedItems (rules (.statement true)))
  node .block start [(.stmts, .list stmts)]

/-- Whether a token is the directive that makes the code behind it strict. -/
def isStrictDirective (t : Token) : Bool :=
  t == .string "'use strict'" || t == .string "\"use strict\""

def functionBody (rules : Rules) : Parse Tree := do
  let isStrict := (← isSign openBrace) && isStrictDirective (← peek).token
  withContext (fun c => { c with strict := c.strict || isStrict }) (blockStatement rules)

private def parameterNode (pat : Tree) : Tree :=
  .node .parameter (some ⟨pat.start, pat.stop⟩) [(.decorators, .list []), (.pat, pat)]

/-- Reads a pattern with its annotation and default. -/
def parameterPattern (rules : Rules) : Parse Tree := do
  let hasWord ← parameterWord?
  let typed ← typescript
  let pattern ← withDefault rules (← rules .pattern)
  let hasDefault := pattern.isKind .defaultPattern
  let isOptional ← if typed then eatSign "?" else pure false
  if isOptional && hasDefault && !(← context).inAmbient then fail .optionalPattern
  let pattern := if isOptional && !hasDefault then addField pattern .optional (.bool true) else pattern
  let type ← typeBehindColon? rules
  if hasDefault && !type.isNull then emit .annotationAfterDefault
  if isOptional && (← isSign "=") then emit .optionalWithDefault
  let pattern ← withDefault rules (if hasDefault then pattern else annotate pattern type)
  if hasWord then emit .parameterPropertyOutsideConstructor
  return pattern

/-- Reads a parameter with its dots, which takes all arguments that are left. -/
def restParameter (rules : Rules) : Parse Tree := do
  let start ← here
  expectSign "..."
  let target ← rules .pattern
  if ← isSign "=" then
    emit .restWithDefault
    let _ ← withDefault rules target
  let type ← typeBehindColon? rules
  let r ← node .rest start [(.argument, target), (.ofType, type)]
  if ← typescript then
    if ← eatSign "?" then emit .restOptional
  return r

/-- Reads parameters with the parentheses around them. -/
def parameterList (parameter : Parse Tree) : Parse (List Tree) := do
  expectSign "("
  let (params, comma) ← openList ")" parameter
  let isRest (p : Tree) : Bool := p.isKind .rest || (p.field .pat).isKind .rest
  if params.dropLast.any isRest then emit .restParameterNotLast
  if comma && ((params.getLast?.map isRest).getD false) then emit .commaAfterRest
  return params

def parameters (rules : Rules) : Parse Tree := do
  return .list (← parameterList do
    if ← isSign "..." then return parameterNode (← restParameter rules)
    else return parameterNode (← parameterPattern rules))

/-- What is read of a function behind its name. -/
structure Signature where
  params : Tree
  body : Tree
  typeParameters : Tree
  returnType : Tree

/-- Reads type parameters, if they stand here. Those of types may tell how they vary. -/
def typeParameters? (rules : Rules) (ofType : Bool) : Parse Tree := do
  if (← typescript) && (← isSign "<") then rules (.typeParameters ofType true) else return .null

/-- Reads `: result`, which may be a statement about a parameter. -/
def returnType? (rules : Rules) : Parse Tree := do
  if (← typescript) && (← isSign ":") then rules .typeBeforeArrow else return .null

/-- Reads the body of a function behind its parameters. A declaration of types may lack the body. -/
def optionalBody (rules : Rules) (isAsync isGenerator : Bool) (params : List Tree) : Parse Tree := do
  let typed ← typescript
  if typed && (← context).inAmbient && (← isSign openBrace) then emit .bodyInAmbient
  withContext (fun c => { functionContext isAsync isGenerator c with hasTarget := true }) do
    let isBodiless ← if typed && !(← isSign openBrace) then eatSemicolon else pure false
    if isBodiless then
      for p in params do
        if p.isKind .parameterProperty then emit .parameterPropertyOutsideConstructor
      for p in params do
        if (p.field .pat).isKind .defaultPattern || (p.field .param).isKind .defaultPattern then
          emit .defaultInSignature
      return .null
    let body ← rules .functionBody
    checkDirective params body
    return body

/-- Reads the parameters, result and body of a function. -/
def signature (rules : Rules) (isAsync isGenerator : Bool) (params : Parse Tree) : Parse Signature := do
  let types ← typeParameters? rules false
  let ps ← withContext (fun c =>
      { c with inParameters := true, inFunction := false, inAsync := isAsync, inGenerator := isGenerator }) params
  let result ← returnType? rules
  let body ← optionalBody rules isAsync isGenerator ps.items
  return ⟨ps, body, types, result⟩

def signatureFields (s : Signature) (isAsync isGenerator : Bool) : List (Field × Tree) :=
  [(.params, s.params), (.decorators, .list []), (.body, s.body), (.typeParameters, s.typeParameters),
   (.returnType, s.returnType), (.isAsync, .bool isAsync), (.generator, .bool isGenerator)]

/-- Reads a function from its word on, with a name of the given kind. -/
def functionNode (rules : Rules) (kind : Kind) (start : Pos) (isAsync : Bool) (name : Bool → Parse Tree) :
    Parse Tree := do
  expectWord "function"
  let isGenerator ← eatSign "*"
  let plain (c : Context) : Context := { c with superAllowed := false, inField := false, colonFollows := false }
  let named ← withContext plain (name isGenerator)
  let s ← withContext plain (signature rules isAsync isGenerator (parameters rules))
  node kind start ((.identifier, named) :: signatureFields s isAsync isGenerator)

/-- Reads a name if one stands here. -/
def optionalName : Parse Tree := do
  if ← isReference then bindingIdentifier else return .null

def functionExpression (rules : Rules) (start : Pos) (isAsync : Bool) : Parse Tree := do
  let t ← functionNode rules .function start isAsync fun isGenerator =>
    withContext (fun c => { c with inAsync := isAsync, inGenerator := isGenerator }) optionalName
  if (t.field .body).isNull then failUnexpected openBrace
  return t

private def isThis (p : Tree) : Bool :=
  (((p.field .pat).field .value).text?).getD "" = "this"

/-- Checks the parameters of a getter or setter. -/
def checkAccessor (isGetter : Bool) (params : List Tree) : Parse Unit := do
  let others := params.filter (!isThis ·)
  if isGetter then
    if !others.isEmpty then emit .getterParameters
  else
    if others.length ≠ 1 then emit .setterParameter
    match params with
    | p :: _ => if (p.field .pat).isKind .rest then emit .setterRest
    | [] => pure ()

/-- Reads a getter or setter of an object behind that word. -/
private def accessor (rules : Rules) (start : Pos) (isGetter : Bool) : Parse Tree := do
  let key ← propertyName rules
  let s ← signature rules false false do
    let params ← parameters rules
    checkAccessor isGetter params.items
    return params
  if isGetter then node .getter start [(.key, key), (.ofType, s.returnType), (.body, s.body)]
  else
    let param := match s.params.items.filter (!isThis ·) with
      | p :: _ => p.field .pat
      | [] => .null
    node .setter start [(.key, key), (.param, param), (.body, s.body)]

private def methodOfObject (rules : Rules) (start : Pos) (key : Tree) (isAsync isGenerator : Bool) : Parse Tree := do
  let s ← signature rules isAsync isGenerator (parameters rules)
  node .method start ((.key, key) :: signatureFields s isAsync isGenerator)

/-- What a property of an object needs behind a name, as a message lists it. -/
private def afterPropertyName (typed : Bool) : String :=
  if typed then "... , *,  (, [, :, , ?, =, an identifier, public, protected, private, readonly, <."
  else "... , *,  (, [, :, , ?, = or an identifier"

private def namedProperty (rules : Rules) (start : Pos) : Parse Tree := do
  let typed ← typescript
  let hasWord ← parameterWord?
  let key ← propertyName rules
  let name := if key.isKind .identifier then (key.field .value).text?.getD "" else ""
  if typed then
    let known := match ← token with
      | .sign text =>
        ["(", "[", ":", ",", "?", "=", "*", "<"].contains text || (text = closeBrace && key.isKind .identifier)
      | _ => false
    if !known && !(["get", "set", "async"].contains name) then
      emit .semicolonExpected
      return .node .keyValue none [(.key, key), (.value, .null)]
  if ← eatSign ":" then
    let value ← allowingIn (rules .assignment)
    return .node .keyValue none [(.key, key), (.value, value)]
  if (← isSign "(") || (typed && (← isSign "<")) then return ← methodOfObject rules start key false false
  if !key.isKind .identifier then failUnexpected "identifier"
  if ← eatSign "?" then emit .optionalProperty
  if (← isSign "=") || (← isSign ",") || (← isSign closeBrace) then
    if (← context).isReserved name then emit .reservedShorthand
    if ← eatSign "=" then
      let value ← allowingIn (rules .assignment)
      return ← node .assignmentProperty start [(.key, key), (.value, value)]
    else return key
  match name with
  | "get" | "set" =>
    if hasWord then emit .asyncNotAllowed
    accessor rules start (name = "get")
  | "async" =>
    if hasWord then emit .asyncNotAllowed
    let isGenerator ← eatSign "*"
    let key ← propertyName rules
    methodOfObject rules start key true isGenerator
  | _ => failUnexpected (afterPropertyName typed)

private def property (rules : Rules) : Parse Tree := do
  let start ← here
  if ← isSign "..." then
    let dots := (← get).current.span
    bump
    let e ← allowingIn (rules .assignment)
    return ← node .spread start [(.spread, .range dots), (.arguments, e)]
  if ← eatSign "*" then
    let key ← propertyName rules
    methodOfObject rules start key false true
  else namedProperty rules start

def objectLiteral (rules : Rules) : Parse Tree := do
  let start ← here
  expectSign openBrace
  let inObject (c : Context) : Context := { c with superAllowed := true, inField := false }
  let (properties, comma) ← commaList closeBrace (allowingIn (withContext inObject (property rules)))
  node .object start [(.properties, .list properties), (.trailingComma, .bool comma)]

end PureCalls.Grammar
