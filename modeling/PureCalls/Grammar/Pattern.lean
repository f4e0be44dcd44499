import PureCalls.Grammar.Goal
import PureCalls.Text.Quoted

/-! Names, and the patterns that bind or assign them. -/
namespace PureCalls.Grammar
open Source

/-- Reads a name. What may be a name depends on the code around it. -/
def identifierName : Parse String := do
  match ← token with
  | .word name escaped =>
    let c ← context
    if name = "enum" then emit (.strictName name)
    if Token.reservedInStrict.contains name then emitStrict (.strictName name)
    if name = "await" && !c.inAmbient then
      if c.staticBlock then fail .nameExpected
      if c.inModule || c.inAsync then fail .awaitName
    if Token.isReserved name && !(name = "this" && (← typescript)) then
      if escaped then fail (.escapedKeyword name) else fail .nameExpected
    if name = "arguments" && c.inField then emit .argumentsInField
    bump
    return name
  | _ => fail .nameExpected

def makeIdentifier (start stop : Pos) (name : String) (more : List (Field × Tree)) : Tree :=
  .node .identifier (some ⟨start, stop⟩) (more ++ [(.value, .text name)])

/-- Reads a reference to a binding. -/
def identifier : Parse Tree := do
  let start ← here
  let name ← identifierName
  return makeIdentifier start (← lastStop) name []

/-- Reads any word, such as the name of a property. -/
def wordName : Parse Tree := do
  let start ← here
  match ← token with
  | .word name _ =>
    bump
    return makeIdentifier start (← lastStop) name []
  | _ => fail .nameExpected

/-- Reads a name that is bound here. -/
def bindingIdentifier : Parse Tree := do
  let t ← identifier
  let name := (t.field .value).text?.getD ""
  let c ← context
  if name = "eval" || name = "arguments" then emitStrict .strictEvalOrArguments
  if name = "await" && (c.inAsync || c.staticBlock) then emit .nameExpected
  if name = "arguments" && c.staticBlock then emit .argumentsInField
  if name = "yield" && c.inGenerator then emit .nameExpected
  return t

/-- Reads a private name. -/
def privateName : Parse Tree := do
  let start ← here
  expectSign "#"
  let stop ← lastStop
  if (← here) ≠ stop then fail .spaceInPrivateName
  match ← token with
  | .word name _ =>
    bump
    node .privateName start [(.value, .text name)]
  | _ => fail .nameExpected

/-- Reads `: type`, if it stands here. -/
def typeBehindColon? (rules : Rules) : Parse Tree := do
  if (← typescript) && (← isSign ":") then
    let start ← here
    bump
    let t ← rules .type
    node .annotatedType start [(.ofType, t)]
  else return .null

/-- Reads a string as a tree. -/
def stringLiteral : Parse Tree := do
  let start ← here
  match ← token with
  | .string raw =>
    bump
    let value := match Text.CodePoint.text? (Text.decodeQuoted raw) with
      | some text => Tree.text text
      | none => .null
    node .string start [(.value, value), (.raw, .text raw)]
  | _ => failUnexpected "a string literal"

def numberLiteral (raw : String) : Parse Tree := do
  let start ← here
  bump
  node .number start [(.raw, .text raw)]

def bigIntLiteral (raw : String) : Parse Tree := do
  let start ← here
  bump
  node .bigInt start [(.raw, .text raw)]

/-- Reads the name of a property, which may be computed. -/
def propertyName (rules : Rules) : Parse Tree := do
  match ← token with
  | .string _ => stringLiteral
  | .number raw => numberLiteral raw
  | .bigInt raw => bigIntLiteral raw
  | .word _ _ => wordName
  | .sign "[" =>
    let start ← here
    bump
    let allowingIn := withContext fun c => { c with inAllowed := true }
    let e ← allowingIn (rules .assignment)
    if (← typescript) && (← isSign ",") then
      let _ ← many do
        if ← eatSign "," then some <$> allowingIn (rules .assignment) else return none
      emit .commaInComputedName
    expectSign "]"
    node .computed start [(.expression, e)]
  | _ => failUnexpected "identifier, string literal, numeric literal or [ for the computed key"

/-- Reads `= value` behind a pattern, if it stands here. -/
def withDefault (rules : Rules) (pattern : Tree) : Parse Tree := do
  if ← eatSign "=" then
    let value ← withContext (fun c => { c with inAllowed := true }) (rules .assignment)
    if (← context).inAmbient then emit .defaultInSignature
    node .defaultPattern pattern.start [(.left, pattern), (.right, value)]
  else return pattern

/-- Reads a rest element with its dots. -/
def restElement (rules : Rules) : Parse Tree := do
  let start ← here
  expectSign "..."
  let target ← rules .pattern
  node .rest start [(.argument, target)]

/-- Whether a rest element stands in front of another element. -/
private def restBeforeOthers (elements : List Tree) : Bool :=
  elements.dropLast.any (·.isKind .rest)

private def endsInRest (elements : List Tree) : Bool :=
  (elements.getLast?.map (·.isKind .rest)).getD false

def arrayPattern (rules : Rules) : Parse Tree := do
  let start ← here
  expectSign "["
  let elements ← many do
    if (← isSign "]") || (← isEnd) then return none
    if ← eatSign "," then return some .null
    let element ← if ← isSign "..." then restElement rules else do withDefault rules (← rules .pattern)
    if !(← isSign "]") then
      expectSign ","
      if element.isKind .rest then emit (if ← isSign "]" then .commaAfterRest else .restNotLast)
    return some element
  expectSign "]"
  node .arrayPattern start [(.elements, .list elements)]

def objectPattern (rules : Rules) : Parse Tree := do
  let start ← here
  expectSign openBrace
  let (properties, comma) ← commaList closeBrace do
    if ← isSign "..." then return ← restElement rules
    let start ← here
    let key ← propertyName rules
    if ← eatSign ":" then
      let value ← withDefault rules (← rules .pattern)
      return .node .keyValuePattern none [(.key, key), (.value, value)]
    if !key.isKind .identifier then failUnexpected "an identifier"
    if ← eatSign "=" then
      let value ← withContext (fun c => { c with inAllowed := true }) (rules .assignment)
      node .defaultPatternProperty start [(.key, key), (.value, value)]
    else
      if (← context).isReserved ((key.field .value).text?.getD "") then emit .reservedShorthand
      node .defaultPatternProperty start [(.key, key), (.value, .null)]
  if restBeforeOthers properties then emit .restNotLast
  if endsInRest properties then
    if !((properties.getLastD .null).field .argument).isKind .identifier then fail .restNotName
    if comma then emit .commaAfterRest
  node .objectPattern start [(.properties, .list properties)]

/-- Reads a pattern that binds names. -/
def bindingPattern (rules : Rules) : Parse Tree := do
  match ← token with
  | .sign "[" => arrayPattern rules
  | .sign openBrace => objectPattern rules
  | .word _ _ => bindingIdentifier
  | .bad fault => fail fault
  | _ => failUnexpected "yield, an identifier, [ or \x7b"

/-- Sets a field of a node in front of the others. -/
def addField (t : Tree) (f : Field) (value : Tree) : Tree :=
  match t with
  | .node kind span fields => .node kind span ((f, value) :: fields)
  | t => t

/-- Adds the annotation of a pattern, and stretches the pattern over it. -/
def annotate (pattern type : Tree) : Tree :=
  if type.isNull then pattern
  else
    match pattern with
    | .node kind (some span) fields =>
      let fields := if kind = .identifier then (.ofType, type) :: fields
        else fields ++ [(.ofType, type)]
      .node kind (some (if kind = .identifier then span else ⟨span.start, type.stop⟩)) fields
    | t => t

/-- Whether a value can be assigned to the expression. Strict code cannot assign to `eval` and `arguments`. -/
def isSimpleTarget (strict : Bool) (t : Tree) : Bool :=
  match t with
  | .node kind _ fields =>
    if kind = .identifier then
      !strict || !(["eval", "arguments"].contains ((Tree.lookup .value fields).text?.getD ""))
    else if kind = .member || kind = .superMember then true
    else if kind = .paren || kind = .nonNull || kind = .asType || kind = .satisfiesType ||
      kind = .typeAssertion || kind = .instantiation then inner fields
    else false
  | _ => false
where
  inner : List (Field × Tree) → Bool
    | [] => false
    | (f, t) :: rest => if f = .expression then isSimpleTarget strict t else inner rest

/-- The kinds of expressions that may stand on the left of an assignment, apart from literals that are patterns. -/
private def targetKinds : List Kind :=
  [.identifier, .member, .superMember, .optionalChain, .paren, .asType, .satisfiesType, .nonNull, .typeAssertion,
   .instantiation]

/-- The kinds of expressions that may stand in a pattern that assigns, if something can be assigned to them. -/
private def elementKinds : List Kind :=
  [.identifier, .member, .superMember, .call, .newExpression, .string, .number, .bigInt, .boolean, .nullLiteral,
   .regExp, .function, .classExpression, .paren, .template, .asType, .satisfiesType, .nonNull, .typeAssertion,
   .instantiation]

/-- How many holes end the elements of an array. -/
private def holesAtEnd (elements : List Tree) : Nat :=
  (elements.reverse.takeWhile (·.isNull)).length

mutual

/-- The pattern that an expression spells. Patterns that bind allow names only, those that assign also members. A fault
in it is recorded, and only a method in it ends the reading. -/
def toPattern (binding : Bool) : Tree → Parse Tree
  | .node kind span fields => do
    if kind = .array then
      return .node .arrayPattern span (← elementFields binding fields)
    else if kind = .object then
      return .node .objectPattern span (← elementFields binding fields)
    else if kind = .assignment && Tree.lookup .operator fields == .text "=" then
      return .node .defaultPattern span (fields.filter (·.1 ≠ .operator))
    else if kind = .identifier && binding then return .node kind span fields
    else if elementKinds.contains kind && !binding then
      if !isSimpleTarget (← context).strict (.node kind span fields) then emit .notAssignable
      return .node kind span fields
    else if kind = .arrayPattern || kind = .objectPattern || kind = .rest || kind = .defaultPattern then
      return .node kind span fields
    else
      emit .invalidPattern
      return .node kind span fields
  | t => return t

/-- The fields of an array or object as those of a pattern. -/
def elementFields (binding : Bool) : List (Field × Tree) → Parse (List (Field × Tree))
  | [] => return []
  | (f, t) :: rest => do
    if f = .elements || f = .properties then
      let comma := Tree.lookup .trailingComma rest == .bool true
      let t ← elementList binding comma t
      return (f, t) :: (← elementFields binding rest)
    else if f = .trailingComma then elementFields binding rest
    else return (f, t) :: (← elementFields binding rest)

/-- The elements without the holes at their end. -/
def elementList (binding comma : Bool) : Tree → Parse Tree
  | .list items => do
    let holes := holesAtEnd items
    let items ← elementItems binding comma (holes > 0) items
    return .list (items.take (items.length - holes))
  | t => return t

def elementItems (binding comma holes : Bool) : List Tree → Parse (List Tree)
  | [] => return []
  | t :: rest => do
    let isRest := t.isKind .spread || (t.isKind .plain && !(t.field .spread).isNull)
    if isRest then
      if !rest.isEmpty || holes then emit .restNotLast
      else
        if (t.field .expression).isKind .assignment then emit .restWithDefault
        if comma then emit .commaAfterRest
    let t ← elementItem binding t
    return t :: (← elementItems binding comma holes rest)

/-- An element of an array or a property of an object as a part of a pattern. -/
def elementItem (binding : Bool) : Tree → Parse Tree
  | .node kind span fields => do
    if kind = .plain then
      let target ← heldPattern binding fields
      if (Tree.lookup .spread fields).isNull then return target
      else return .node .rest (some ⟨target.start, target.stop⟩) [(.argument, target)]
    else if kind = .spread then
      let target ← spreadPattern binding fields
      return .node .rest span [(.argument, target)]
    else if kind = .identifier then
      return .node .defaultPatternProperty span [(.key, .node kind span fields), (.value, .null)]
    else if kind = .assignmentProperty then return .node .defaultPatternProperty span fields
    else if kind = .keyValue then
      return .node .keyValuePattern span (← valueField binding fields)
    else fail .invalidPattern
  | t => return t

/-- The pattern in the holder of an element. -/
def heldPattern (binding : Bool) : List (Field × Tree) → Parse Tree
  | [] => fail .invalidPattern
  | (f, t) :: rest => if f = .expression then toPattern binding t else heldPattern binding rest

/-- The pattern behind the dots of an object. Where names are bound it is a name. -/
def spreadPattern (binding : Bool) : List (Field × Tree) → Parse Tree
  | [] => fail .invalidPattern
  | (f, t) :: rest =>
    if f = .arguments then do
      if binding && !t.isKind .identifier then
        emit .restNotName
        return t
      else toPattern binding t
    else spreadPattern binding rest

def valueField (binding : Bool) : List (Field × Tree) → Parse (List (Field × Tree))
  | [] => return []
  | (f, t) :: rest => do
    let t ← if f = .value then toPattern binding t else pure t
    return (f, t) :: (← valueField binding rest)

end

/-- Checks that a value can be assigned to an expression that is no pattern. -/
def checkTarget (t : Tree) : Parse Unit := do
  if !isSimpleTarget (← context).strict t then emit .invalidTarget
  else if (← typescript) && !isSimpleTarget true t then emitStrict .strictArguments

/-- Reads an expression that was read before as what a loop assigns to. -/
def asLoopTarget (t : Tree) : Parse Tree := do
  if t.isKind .array || t.isKind .object then toPattern false t
  else
    checkTarget t
    return t

/-- Reads an expression that was read before as the left side of an assignment with the given operator. -/
def asTarget (operator : String) (t : Tree) : Parse Tree := do
  if operator = "=" then
    let target ← asLoopTarget t
    if !t.isKind .array && !t.isKind .object && !targetKinds.any t.isKind then fail .invalidAssignee
    return target
  else
    if !isSimpleTarget (← context).strict t then
      emit (if ← typescript then .invalidTarget else .notAssignable)
    if !targetKinds.any t.isKind then fail .invalidAssignee
    return t

end PureCalls.Grammar
