import PureCalls.Grammar.Pattern

/-! Expressions. -/
namespace PureCalls.Grammar
open Source

/-- Reads with `in` as an operator. -/
def allowingIn {α : Type} (p : Parse α) : Parse α :=
  withContext (fun c => { c with inAllowed := true, colonFollows := false }) p

/-- The holder of an argument or an element. -/
def holder (spread : Tree) (e : Tree) : Tree :=
  .node .plain none [(.spread, spread), (.expression, e)]

/-- Reads an expression that may be spread. -/
def heldExpression (rules : Rules) : Parse Tree := do
  if ← isSign "..." then
    let span := (← get).current.span
    bump
    return holder (.range span) (← allowingIn (rules .assignment))
  else return holder .null (← allowingIn (rules .assignment))

/-- Reads the arguments of a call with their parentheses. -/
def arguments (rules : Rules) : Parse Tree := do
  expectSign "("
  let (args, _) ← extend (fun (args, first) => do
    if (← isSign ")") || (← isEnd) then return none
    if !first then
      expectSign ","
      if ← isSign ")" then return none
    return some (args ++ [← heldExpression rules], false)) (([] : List Tree), true)
  expectSign ")"
  return .list args

private def chunk : List Char → Option (List Char × Bool)
  | [] => none
  | '\x60' :: _ => some ([], true)
  | '$' :: '{' :: _ => some ([], false)
  | '\\' :: c :: rest => (chunk rest).map fun (text, last) => ('\\' :: c :: text, last)
  | c :: rest => (chunk rest).map fun (text, last) => (c :: text, last)

/-- Reads the text of a template up to its end or an expression, and the sign there. -/
private def templateChunk : Parse (Tree × Bool) := do
  let s ← get
  match chunk s.scanner.rest with
  | none => fail .unterminatedTemplate
  | some (text, last) =>
    let scanner := s.scanner.skip text
    let mark := if last then "\x60" else dollarBrace
    let after := scanner.skip mark.toList
    let sign : Lexeme := ⟨.sign mark, ⟨scanner.pos, after.pos⟩, false, scanner.rest⟩
    set { s with scanner := after, current := sign, previous := s.current }
    bump
    let raw := normalize text
    return (.node .templateElement (some ⟨s.scanner.pos, scanner.pos⟩) [(.raw, .text (String.ofList raw))], last)
where
  /-- Every line in a template ends alike. -/
  normalize : List Char → List Char
    | '\r' :: '\n' :: rest => '\n' :: normalize rest
    | '\r' :: rest => '\n' :: normalize rest
    | c :: rest => c :: normalize rest
    | [] => []

/-- Checks the escapes in a piece of a template. -/
private def checkEscapes : (fuel : Nat) → Scan Unit
  | 0 => return
  | fuel + 1 => do
    match ← Scanner.next? with
    | none => return
    | some '\\' =>
      Scanner.escape true
      checkEscapes fuel
    | some _ => checkEscapes fuel

/-- Reads a template. What stands before it decides whether bad escapes are allowed. -/
def templateLiteral (rules : Rules) (isTagged : Bool) : Parse Tree := do
  let start ← here
  let (first, last) ← templateChunk
  let check (quasi : Tree) : Parse Unit := do
    if !isTagged then
      let text := ((quasi.field .raw).text?.getD "").toList
      match (checkEscapes (text.length + 1)).run { (default : Scanner) with rest := text } with
      | .error fault => fail fault
      | .ok _ => return
  check first
  let (expressions, quasis, _) ← extend (fun (expressions, quasis, last) => do
    if last then return none
    let e ← allowingIn (rules .expression)
    if !(← isSign closeBrace) then failUnexpected "\x60\x7d\x60"
    let (quasi, last) ← templateChunk
    check quasi
    return some (expressions ++ [e], quasis ++ [quasi], last)) ([], [first], last)
  node .template start [(.expressions, .list expressions), (.quasis, .list quasis)]

private def isChain (t : Tree) : Bool :=
  match t with
  | .node kind _ fields => if kind = .nonNull then inner fields else kind = .optionalChain
  | _ => false
where
  inner : List (Field × Tree) → Bool
    | [] => false
    | (f, t) :: rest => if f = .expression then isChain t else inner rest

private def memberNode (start : Pos) (object property : Tree) (optional : Bool) : Parse Tree := do
  if object.isKind .superCallee then
    if !(← context).superAllowed then emit .invalidSuper
    else if optional then fail .invalidSuper
    if property.isKind .privateName then fail .privateInSuper
    node .superMember start [(.object, object), (.property, property)]
  else
    let m ← node .member start [(.object, object), (.property, property)]
    if optional || isChain object then node .optionalChain start [(.base, m), (.optional, .bool optional)]
    else return m

private def callNode (start : Pos) (callee types args : Tree) (optional : Bool) : Parse Tree := do
  if optional || isChain callee then
    let c ← node .optionalCall start [(.callee, callee), (.arguments, args), (.typeArguments, types)]
    node .optionalChain start [(.base, c), (.optional, .bool optional)]
  else node .call start [(.callee, callee), (.arguments, args), (.typeArguments, types)]

private def taggedTemplate (rules : Rules) (start : Pos) (tag types : Tree) : Parse Tree := do
  let quasi ← rules (.template true)
  if isChain tag then fail .templateInChain
  node .tagged start [(.tag, tag), (.typeParameters, types), (.template, quasi)]

/-- Reads a property name behind a dot. -/
private def dottedProperty : Parse Tree := do
  if ← isSign "#" then privateName else wordName

/-- Reads type arguments that a call or template follows. -/
private def typedCall (rules : Rules) (start : Pos) (head : Tree) (calls : Bool) : Parse (Option Tree) :=
  attempt do
    let types ← rules .typeArguments
    if calls && (← isSign "(") then
      let args ← arguments rules
      return some (← callNode start head types args false)
    else if ← isSign "\x60" then return some (← taggedTemplate rules start head types)
    else return none

/-- Whether an expression may start at the current token. -/
def startsExpression : Parse Bool := do
  match ← token with
  | .eof => return false
  | .number _ | .bigInt _ | .string _ | .regExp _ _ => return true
  | .sign text =>
    return ["(", "[", openBrace, "+", "-", "!", "~", "++", "--", "\x60", "<", "/", "/=", "#", "@"].contains text
  | .word name _ =>
    return !Token.isReserved name ||
      ["this", "super", "function", "class", "new", "null", "true", "false", "typeof", "void", "delete",
       "import"].contains name
  | _ => return false

/-- Whether the current token is a sign between two operands. -/
def isBinarySign : Parse Bool := do
  match ← token with
  | .sign text =>
    return ["??", "||", "&&", "|", "^", "&", "==", "!=", "===", "!==", "<", ">", "<=", ">=", "<<", ">>", ">>>", "+",
      "-", "*", "/", "%", "**"].contains text
  | _ => return false

private def isBinaryOperator : Parse Bool := do
  match ← token with
  | .word name false =>
    return name = "instanceof" || name = "as" || name = "satisfies" || (name = "in" && (← context).inAllowed)
  | _ => isBinarySign

/-- Reads type arguments of an expression that is not called. -/
def looseTypeArguments (rules : Rules) : Parse (Option Tree) := do
  if !(← typescript) || !((← isSign "<") || (← isSign "<<")) then return none
  attempt do
    let types ← rules .typeArguments
    match ← token with
    | .sign text =>
      if ["<", ">", ">>", ">>>", "+", "-", "(", "\x60"].contains text then return none
    | _ => pure ()
    if (← afterBreak) || (← isBinaryOperator) || !(← startsExpression) then return some types
    else return none

/-- Reads one more member access, call or template behind an expression. -/
private def subscript (rules : Rules) (start : Pos) (calls : Bool) (head : Tree) : Parse (Option Tree) := do
  let isImport := head.isKind .importCallee
  let typed ← typescript
  if typed && !(← afterBreak) && (← isSign "!") then
    bump
    if head.isKind .superCallee then fail (.nonNull "super")
    if isImport then fail (.nonNull "import")
    return some (← node .nonNull start [(.expression, head)])
  if typed && ((← isSign "<") || (← isSign "<<")) && !head.isKind .superCallee then
    match ← typedCall rules start head calls with
    | some t => return some t
    | none => pure ()
  let optional ← eatSign "?."
  let types ← if optional && typed && ((← isSign "<") || (← isSign "<<")) then do
      let types ← attempt (some <$> rules .typeArguments)
      pure (types.getD .null)
    else do
      let types ← if !optional then looseTypeArguments rules else pure none
      pure (types.getD .null)
  if ← isSign "[" then
    let bracket ← here
    bump
    let e ← allowingIn (rules .expression)
    expectSign "]"
    let property ← node .computed bracket [(.expression, e)]
    return some (← memberNode start head property optional)
  else if (optional || calls) && (← isSign "(") then
    let args ← arguments rules
    if isImport then
      let count := args.items.length
      if count = 0 || count > 2 then fail .importArguments
    return some (← callNode start head types args optional)
  else if ← (if optional then pure true else eatSign ".") then
    if optional && (← isSign "\x60") then fail .templateInChain
    let property ← dottedProperty
    return some (← memberNode start head property optional)
  else if ← isSign "\x60" then
    return some (← taggedTemplate rules start head types)
  else if head.isKind .superCallee then fail (if calls then .invalidSuper else .superCallNotAllowed)
  else if isImport then fail .importNotAllowed
  else if !types.isNull then
    return some (← node .instantiation start [(.expression, head), (.typeArguments, types)])
  else return none

/-- Reads all member accesses, templates and, where allowed, calls behind an expression. -/
def subscripts (rules : Rules) (head : Tree) (calls : Bool) : Parse Tree :=
  extend (fun t => do
    if t.isKind .arrow then return none
    subscript rules head.start calls t) head

/-- The context inside of a function. -/
def functionContext (isAsync isGenerator : Bool) (c : Context) : Context :=
  { c with
    inFunction := true, inAsync := isAsync, inGenerator := isGenerator, inAllowed := true, breakAllowed := false,
    continueAllowed := false, topLevel := false, colonFollows := false, staticBlock := false, labels := [] }

/-- Whether statements start with the directive that makes them strict. -/
def hasStrictDirective (statements : List Tree) : Bool :=
  let isDirective (t : Tree) : Bool := t.isKind .expressionStatement && (t.field .expression).isKind .string
  (statements.takeWhile isDirective).any fun t =>
    match (t.field .expression).field .raw with
    | .text raw => raw = "'use strict'" || raw = "\"use strict\""
    | _ => false

/-- Checks that code with other parameters than names is not made strict by its own directive. -/
def checkDirective (params : List Tree) (body : Tree) : Parse Unit := do
  let isSimple (p : Tree) : Bool := p.isKind .identifier || (p.field .pat).isKind .identifier
  if body.isKind .block && !params.all isSimple && hasStrictDirective (body.field .stmts).items then
    emit .strictDirective

/-- Reads the body of an arrow function behind the arrow. -/
def arrowBody (rules : Rules) (isAsync : Bool) (params : List Tree) : Parse Tree := do
  let inAllowed := (← context).inAllowed
  let colon := (← context).colonFollows
  let change (c : Context) : Context := { functionContext isAsync false c with inAllowed, colonFollows := colon }
  withContext change do
    if ← isSign openBrace then
      let body ← rules .block
      checkDirective params body
      return body
    else rules .assignment

def arrowNode (start : Pos) (isAsync : Bool) (types : Tree) (params : List Tree) (result body : Tree) : Parse Tree :=
  node .arrow start
    [(.params, .list params), (.body, body), (.typeParameters, types), (.returnType, result),
     (.isAsync, .bool isAsync)]

/-- The parameters that items between parentheses spell. -/
private def toParameters (comma : Bool) : List Tree → Parse (List Tree)
  | [] => return []
  | item :: rest => do
    let isSpread := item.isKind .plain && !(item.field .spread).isNull
    if (isSpread || item.isKind .rest) && !rest.isEmpty then emit .restParameterNotLast
    if isSpread && rest.isEmpty && (item.field .expression).isKind .assignment then emit .restWithDefault
    if (isSpread || item.isKind .rest) && rest.isEmpty && comma then emit .commaAfterRest
    let param ← if item.isKind .plain then do
        let p ← toPattern true (item.field .expression)
        if isSpread then pure (Tree.node .rest (some ⟨p.start, p.stop⟩) [(.argument, p)]) else pure p
      else pure item
    return param :: (← toParameters comma rest)

/-- Reads a word that may stand in front of a parameter of a constructor and of no other one. -/
def parameterWord? : Parse Bool := do
  if !(← typescript) then return false
  match ← token with
  | .word name false =>
    let isNext := match (← peek).token with
      | .word _ _ => true
      | .sign text => text = openBrace || text = "["
      | _ => false
    if ["public", "protected", "private", "readonly"].contains name && isNext then
      bump
      return true
    else return false
  | _ => return false

/-- An arrow function with a block for its body that an operator follows. The operands are read and dropped. -/
def arrowBeforeOperator (rules : Rules) (arrow : Tree) : Parse Tree := do
  if (arrow.field .body).isKind .block && (← isBinarySign) then
    emit .semicolonExpected
    rules (.operators arrow 0)
  else return arrow

/-- Reads an item between parentheses, which is an argument or, if it is annotated, a parameter. -/
private def parenthesizedItem (rules : Rules) : Parse Tree := do
  let hasWord ← parameterWord?
  let start ← here
  modify fun s => { s with arrowStart := some start }
  let typed ← typescript
  let item ← if typed then typedItem else heldExpression rules
  let e := item.field .expression
  let isSpread := !(item.field .spread).isNull
  let next := (← peek).token
  let isOptional := typed && (← isSign "?") &&
    (next == .sign "," || next == .sign ":" || next == .sign ")" || next == .sign "=")
  if isOptional then
    bump
    if isSpread then emit .restOptional
    if !e.isKind .identifier then fail .optionalPattern
  let item ← if typed && !isOptional && !isSpread && (← isSign "?") then do
      bump
      let consequent ←
        withContext (fun c => { c with inAllowed := true, colonFollows := true }) (rules .assignment)
      expectSign ":"
      let alternate ← rules .assignment
      pure (holder .null (← node .conditional start [(.test, e), (.consequent, consequent), (.alternate, alternate)]))
    else pure item
  let item ← if isOptional || (typed && (← isSign ":")) then do
      let p ← toPattern true e
      let p := if isOptional then addField p .optional (.bool true) else p
      let p := match item.field .spread with
        | .range dots => .node .rest (some ⟨dots.start, p.stop⟩) [(.argument, p)]
        | _ => p
      let type ← typeBehindColon? rules
      withDefault rules (annotate p type)
    else pure item
  if hasWord then emit .parameterPropertyOutsideConstructor
  return item
where
  /-- Reads an argument of which a question mark behind it is no part. -/
  typedItem : Parse Tree := do
    if (← isSign "...") || !(← isReference) then heldExpression rules
    else if (← peek).token == .sign "?" then
      let e ← allowingIn do
        let e ← rules .unary
        rules (.operators e 0)
      return holder .null e
    else heldExpression rules

/-- Reads parentheses, and an arrow function if an arrow follows them. With `async` in front they may also be
arguments. -/
def parenthesized (rules : Rules) (async? : Option Span) : Parse Tree := do
  let s ← get
  let start := match async? with
    | some span => span.start
    | none => s.current.span.start
  let canBeArrow := s.arrowStart == some start
  let colon := s.context.colonFollows
  let isAsync := async?.isSome
  let types ← if isAsync && s.dialect.typescript && (← isSign "<") then rules (.typeParameters false true) else pure .null
  expectSign "("
  let (items, comma) ← withContext (fun c => { c with inAllowed := true, colonFollows := false })
    (openList ")" (parenthesizedItem rules))
  let stop ← lastStop
  let result ← if canBeArrow && !colon && s.dialect.typescript && (← isSign ":") then do
      let result ← attempt do
        let type ← rules .typeBeforeArrow
        if ← isSign "=>" then return some type else return none
      pure (result.getD .null)
    else pure .null
  let hasPattern := items.any fun t => !t.isKind .plain
  if hasPattern || !result.isNull || (← isSign "=>") then
    if ← afterBreak then fail .breakBeforeArrow
    if !canBeArrow then fail .arrowNotAllowed
    expectSign "=>"
    let params ← toParameters comma items
    let body ← arrowBody rules isAsync params
    arrowBeforeOperator rules (← arrowNode start isAsync types params result body)
  else
    if items.any hasDefaultProperty then emit .defaultInObject
    match async? with
    | some span =>
      let callee := makeIdentifier span.start span.stop "async" []
      return .node .call (some ⟨start, stop⟩)
        [(.callee, callee), (.arguments, .list items), (.typeArguments, types)]
    | none =>
      if items.any fun t => !(t.field .spread).isNull then fail .spreadInParentheses
      match items with
      | [] => fail .emptyParentheses
      | [item] => return .node .paren (some ⟨start, stop⟩) [(.expression, item.field .expression)]
      | first :: _ =>
        let expressions := items.map (·.field .expression)
        let last := expressions.getLastD .null
        let sequence := Tree.node .sequence (some ⟨(first.field .expression).start, last.stop⟩)
          [(.expressions, .list expressions)]
        return .node .paren (some ⟨start, stop⟩) [(.expression, sequence)]
where
  hasDefaultProperty (item : Tree) : Bool :=
    ((item.field .expression).field .properties).items.any (·.isKind .assignmentProperty)

/-- Reads an arrow function with a single name as its parameter. -/
private def simpleArrow (rules : Rules) (start : Pos) (param : Tree) (isAsync : Bool) : Parse Tree := do
  expectSign "=>"
  let body ← arrowBody rules isAsync [param]
  arrowNode start isAsync .null [param] .null body

private def arrayLiteral (rules : Rules) : Parse Tree := do
  let start ← here
  expectSign "["
  let (elements, comma) ← extend (fun (elements, _) => do
    if (← isSign "]") || (← isEnd) then return none
    if ← eatSign "," then return some (elements ++ [Tree.null], false)
    let e ← heldExpression rules
    let comma := !(← isSign "]")
    if comma then expectSign ","
    return some (elements ++ [e], comma)) (([] : List Tree), false)
  expectSign "]"
  node .array start [(.elements, .list elements), (.trailingComma, .bool comma)]

/-- Reads a name, or an arrow function that begins with it. -/
private def nameOrArrow (rules : Rules) : Parse Tree := do
  let s ← get
  let start := s.current.span.start
  let canBeArrow := s.arrowStart == some start
  let name ← identifier
  if canBeArrow && !(← afterBreak) && (← isSign "=>") then
    if ["eval", "arguments"].contains ((name.field .value).text?.getD "") then emitStrict .strictEvalOrArguments
    simpleArrow rules start name false
  else return name

/-- Reads what may begin with `async`. -/
private def asyncExpression (rules : Rules) : Parse (Option Tree) := do
  let s ← get
  let span := s.current.span
  let canBeArrow := s.arrowStart == some span.start
  let next ← peek
  if next.afterBreak then return none
  match next.token with
  | .word "function" false =>
    bump
    return some (← rules (.functionExpression span.start true))
  | .word name _ =>
    if canBeArrow && !s.context.isReserved name then
      bump
      if s.context.inLoopHead && name = "of" && (← peek).token != .sign "=>" then
        if !s.context.inAwaitedLoop then emit .asyncLoopVariable
        return some (makeIdentifier span.start span.stop "async" [])
      let param ← bindingIdentifier
      if s.dialect.typescript && name = "as" && !(← isSign "=>") then
        let type ← rules .type
        let head := makeIdentifier span.start span.stop "async" []
        return some (← node .asType span.start [(.expression, head), (.ofType, type)])
      return some (← simpleArrow rules span.start param true)
    else return none
  | .sign "(" =>
    bump
    return some (← parenthesized rules (some span))
  | .sign "<" =>
    if s.dialect.typescript && canBeArrow then
      attempt do
        bump
        let t ← parenthesized rules (some span)
        return if t.isKind .arrow then some t else none
    else return none
  | _ => return none

/-- The first character that comes again. -/
private def repeated? : List Char → Option Char
  | [] => none
  | c :: rest => if rest.contains c then some c else repeated? rest

/-- Reads an expression that no operator takes apart. -/
def primary (rules : Rules) : Parse Tree := do
  let start ← here
  match ← token with
  | .number raw => numberLiteral raw
  | .bigInt raw => bigIntLiteral raw
  | .string _ => stringLiteral
  | .sign "[" => arrayLiteral rules
  | .sign openBrace => rules .object
  | .sign "(" => parenthesized rules none
  | .sign "\x60" => rules (.template false)
  | .sign "/" | .sign "/=" =>
    rescan Scanner.regExp
    match ← token with
    | .regExp pattern flags =>
      bump
      let flagList := flags.toList
      if flagList.any (!"dgimsuvy".toList.contains ·) then emit .unknownFlag
      match repeated? flagList with
      | some flag => emit (.repeatedFlag flag)
      | none => pure ()
      node .regExp start [(.pattern, .text pattern), (.flags, .text flags)]
    | _ => fail .unterminatedRegExp
  | .sign "#" =>
    bump
    match ← token with
    | .word name _ =>
      bump
      node .privateName start [(.value, .text name)]
    | _ => fail .nameExpected
  | .word name escaped =>
    if !escaped then
      match name with
      | "this" =>
        bump
        return ← node .thisExpression start []
      | "null" =>
        bump
        return ← node .nullLiteral start []
      | "true" | "false" =>
        bump
        return ← node .boolean start [(.value, .bool (name = "true"))]
      | "function" => return ← rules (.functionExpression start false)
      | "class" => return ← rules (.classExpression start)
      | "async" =>
        match ← asyncExpression rules with
        | some t => return t
        | none => pure ()
      | _ => pure ()
    let allowed ← if name = "let" || (name = "await" && (← typescript)) then pure true else
      pure (!(← context).isReserved name)
    if !allowed then
      if escaped && Token.isReserved name then fail (.escapedKeyword name) else fail .expressionExpected
    nameOrArrow rules
  | .bad fault => fail fault
  | _ => fail .expressionExpected

/-- Reads what stands behind `import` in an expression. -/
private def importExpression (rules : Rules) (calls : Bool) : Parse Tree := do
  let start ← here
  bump
  if ← eatSign "." then
    modify fun s => { s with hasModuleItem := true }
    let name ← wordName
    match name.field .value with
    | .text "meta" =>
      let t ← node .metaProperty start [(.kind, .text "import.meta")]
      rules (.subscripts t calls)
    | .text "defer" | .text "source" =>
      let callee ← node .importCallee start [(.phase, name.field .value)]
      rules (.subscripts callee calls)
    | _ => failUnexpected "meta"
  else
    let callee ← node .importCallee start []
    rules (.subscripts callee calls)

private def superExpression (rules : Rules) (calls : Bool) : Parse Tree := do
  let start ← here
  bump
  let callee ← node .superCallee start []
  rules (.subscripts callee calls)

/-- Reads an expression up to its first call. Behind `new` all that follows belongs to the callee. -/
def callee (rules : Rules) : Parse Tree := do
  let start ← here
  if ← isWord "new" then
    bump
    if ← eatSign "." then
      if !(← isWord "target") then failUnexpected "target"
      bump
      let c ← context
      if !c.hasTarget && !c.inParameters && !c.inClass then emit .newTargetOutsideFunction
      let t ← node .metaProperty start [(.kind, .text "new.target")]
      rules (.subscripts t false)
    else
      modify fun s => { s with arrowStart := none }
      let target ← rules .callee
      if target.isKind .optionalChain || (target.isKind .member && (target.field .object).isKind .optionalChain) then
        fail .constructorInChain
      let types ← if (← typescript) && (← isSign "<") then do
          let types ← attempt do
            let types ← rules .typeArguments
            if ← isSign "(" then return some types else return none
          pure (types.getD .null)
        else pure .null
      if ← isSign "(" then
        let args ← arguments rules
        let t ← node .newExpression start [(.callee, target), (.arguments, args), (.typeArguments, types)]
        rules (.subscripts t false)
      else node .newExpression start [(.callee, target), (.arguments, .null), (.typeArguments, types)]
  else if ← isWord "super" then superExpression rules false
  else if ← isWord "import" then importExpression rules false
  else
    let head ← rules .primary
    if head.isKind .arrow then return head
    match ← looseTypeArguments rules with
    | some types =>
      let t ← node .instantiation start [(.expression, head), (.typeArguments, types)]
      rules (.subscripts t false)
    | none => rules (.subscripts head false)

/-- Reads an expression with all its member accesses and calls. -/
def leftHandSide (rules : Rules) : Parse Tree := do
  if (← dialect).elements && (← isSign "<") then
    let t ← rules .element
    return ← rules (.subscripts t true)
  if ← isWord "super" then return ← superExpression rules true
  if ← isWord "import" then return ← importExpression rules true
  let head ← rules .callee
  if head.isKind .arrow then return head
  let bare := head.isKind .newExpression && (head.field .arguments).isNull
  if bare then return head
  rules (.subscripts head true)

private def prefixWords : List String := ["delete", "void", "typeof"]

private def prefixSigns : List String := ["+", "-", "!", "~"]

/-- Reads the operand of `await` behind that word, which is a name if no operand can follow. -/
def awaitOperand (rules : Rules) (start stop : Pos) : Parse Tree := do
  if ← isSign "*" then fail .awaitStar
  let c ← context
  let ends := (← isSign ")") || (← isSign "]") || (← isSign ",") || (← canEndStatement)
  if ends && !c.inAsync then
    if c.inModule then emit .awaitName
    return makeIdentifier start stop "await" []
  if c.topLevel then modify fun s => { s with hasModuleItem := true }
  if c.inFunction && !c.inAsync then emit .awaitOutsideAsync
  if c.inParameters && !c.inFunction then emit .awaitParameter
  let e ← rules .unary
  node .await start [(.argument, e)]

private def awaitExpression (rules : Rules) : Parse Tree := do
  let start ← here
  bump
  awaitOperand rules start (← lastStop)

/-- Reads an expression with its prefix and postfix operators. -/
def unary (rules : Rules) : Parse Tree := do
  let start ← here
  let d ← dialect
  if d.typescript && !d.elements && (← isSign "<") then
    bump
    if (← isWord "const") && (← peek).token == .sign ">" then
      bump
      rescanGreater
      expectSign ">"
      let e ← rules .unary
      return ← node .constAssertion start [(.expression, e)]
    let t ← rules .type
    rescanGreater
    expectSign ">"
    let e ← rules .unary
    return ← node .typeAssertion start [(.expression, e), (.ofType, t)]
  match ← token with
  | .sign text =>
    if text = "++" || text = "--" then
      bump
      let e ← rules .unary
      checkTarget e
      return ← node .update start [(.argument, e), (.isPrefix, .bool true), (.operator, .text text)]
    if prefixSigns.contains text then
      bump
      let e ← recovering (rules .unary)
      return ← node .unary start [(.argument, e), (.operator, .text text)]
  | .word name false =>
    if prefixWords.contains name then
      bump
      let e ← recovering (rules .unary)
      if name = "delete" then checkDeleted e
      return ← node .unary start [(.argument, e), (.operator, .text name)]
    if name = "await" then return ← awaitExpression rules
  | _ => pure ()
  let e ← rules .leftHandSide
  if e.isKind .arrow then return e
  match ← token with
  | .sign text =>
    if (text = "++" || text = "--") && !(← afterBreak) then
      checkTarget e
      bump
      return ← node .update start [(.argument, e), (.isPrefix, .bool false), (.operator, .text text)]
    return e
  | _ => return e
where
  /-- Checks what is deleted, which strict code cannot do with names. -/
  checkDeleted (e : Tree) : Parse Unit := do
    if e.isKind .identifier then emitStrict .deletedName
    let e := unwrapped 1000 e
    let isMember := e.isKind .member || (e.isKind .optionalChain && (e.field .base).isKind .member)
    if (← typescript) && !isMember then emit .deletedNonProperty
  /-- What stands inside of parentheses. -/
  unwrapped (fuel : Nat) (e : Tree) : Tree :=
    match fuel with
    | 0 => e
    | fuel + 1 => if e.isKind .paren then unwrapped fuel (e.field .expression) else e
  /-- Takes only the first sign of several that are written together. -/
  rescanGreater : Parse Unit := do
    match ← token with
    | .sign text =>
      if text.startsWith ">" && text ≠ ">" then
        rescan fun s => .ok (.sign ">", s.skip ['>'])
    | _ => return

/-- How strongly an operator binds. -/
def strengthOf (operator : String) : Option Nat :=
  match operator with
  | "??" | "||" => some 1
  | "&&" => some 2
  | "|" => some 3
  | "^" => some 4
  | "&" => some 5
  | "==" | "!=" | "===" | "!==" => some 6
  | "<" | ">" | "<=" | ">=" | "in" | "instanceof" => some 7
  | "<<" | ">>" | ">>>" => some 8
  | "+" | "-" => some 9
  | "*" | "/" | "%" => some 10
  | "**" => some 11
  | _ => none

private def operator? : Parse (Option String) := do
  match ← token with
  | .sign text => return if (strengthOf text).isSome then some text else none
  | .word "in" false => return if (← context).inAllowed then some "in" else none
  | .word "instanceof" false => return some "instanceof"
  | _ => return none

private def isLogical (operators : List String) (t : Tree) : Bool :=
  t.isKind .binary &&
    match t.field .operator with
    | .text op => operators.contains op
    | _ => false

/-- Reads operators that bind more strongly than `strength`, with their operands, behind a first operand. -/
def operators (rules : Rules) (left : Tree) (strength : Nat) : Parse Tree :=
  extend (fun left => do
    let start := left.start
    if (← typescript) && !(← afterBreak) && strength < 7 then
      if ← isWord "as" then
        bump
        if (← isWord "const") then
          bump
          return some (← node .constAssertion start [(.expression, left)])
        let t ← rules .type
        return some (← node .asType start [(.expression, left), (.ofType, t)])
      if ← isWord "satisfies" then
        bump
        let t ← rules .type
        return some (← node .satisfiesType start [(.expression, left), (.ofType, t)])
    match ← operator? with
    | none => return none
    | some op =>
      let own := (strengthOf op).getD 0
      if own ≤ strength then return none
      bump
      if op = "**" && (left.isKind .unary || left.isKind .await) then fail .unaryInPower
      let right ← rules .unary
      let right ← rules (.operators right (if op = "**" then own - 1 else own))
      if op = "??" && (isLogical ["||", "&&"] left || isLogical ["||", "&&"] right) then emit .mixedNullish
      if (op = "||" || op = "&&") && (isLogical ["??"] left || isLogical ["??"] right) then emit .mixedNullish
      return some (← node .binary start [(.left, left), (.right, right), (.operator, .text op)])) left

/-- Reads the first operand of operators. An operator in its place is a fault that does not end the reading. -/
private def firstOperand (rules : Rules) : Parse Tree := fun s =>
  match rules .unary s with
  | .ok result s' => .ok result s'
  | .error failure s' =>
    let recover := do
      if (← isBinarySign) || (← isWord "instanceof") || ((← isWord "in") && (← context).inAllowed) then
        emit .expressionExpected
        return some Tree.null
      else return none
    match recover s' with
    | .ok (some result) s' => .ok result s'
    | _ => .error failure s'

/-- Reads a conditional expression or one with only operators. -/
private def conditional (rules : Rules) : Parse Tree := do
  let start ← here
  let first ← firstOperand rules
  if first.isKind .arrow then return first
  let test ← rules (.operators first 0)
  if ← isSign "?" then
    bump
    let consequent ← withContext (fun c => { c with inAllowed := true, colonFollows := true }) (rules .assignment)
    expectSign ":"
    let alternate ← rules .assignment
    node .conditional start [(.test, test), (.consequent, consequent), (.alternate, alternate)]
  else return test

def assignmentOperators : List String :=
  ["=", "+=", "-=", "*=", "/=", "%=", "**=", "<<=", ">>=", ">>>=", "&=", "|=", "^=", "&&=", "||=", "??="]

private def yieldExpression (rules : Rules) : Parse Tree := do
  let start ← here
  bump
  let c ← context
  if c.inParameters && !c.inFunction then emit .yieldParameter
  let hasOperand := (← isSign "*") || (← isSign "/") || (← isSign "/=") || (← startsExpression)
  if (← canEndStatement) || !hasOperand then node .yieldExpression start []
  else
    let delegate ← eatSign "*"
    let e ← rules .assignment
    node .yieldExpression start [(.argument, e), (.delegate, .bool delegate)]

private def assignmentBase (rules : Rules) : Parse Tree := do
  if (← context).inGenerator && (← isWord "yield") then return ← yieldExpression rules
  let start ← here
  let canStartArrow := (← isSign "(") || (← isName)
  modify fun s => { s with arrowStart := if canStartArrow then some start else none }
  let left ← conditional rules
  if [Kind.arrow, .conditional, .binary, .unary, .update].any left.isKind then return left
  match ← token with
  | .sign op =>
    if assignmentOperators.contains op then
      let target ← asTarget op left
      bump
      let right ← rules .assignment
      node .assignment start [(.left, target), (.right, right), (.operator, .text op)]
    else return left
  | _ => return left

/-- Reads an expression without commas. -/
def assignment (rules : Rules) : Parse Tree := do
  let d ← dialect
  if d.typescript && (← isSign "<") then
    if d.elements then
      match ← attempt (some <$> assignmentBase rules) with
      | some t => return t
      | none => pure ()
    let start ← here
    let generic ← attempt do
      let types ← rules (.typeParameters false true)
      let t ← assignmentBase rules
      match t with
      | .node kind (some span) fields =>
        if kind = .arrow then
          let fields := fields.map fun (f, v) => if f = .typeParameters then (f, types) else (f, v)
          return some (Tree.node kind (some ⟨start, span.stop⟩) fields)
        else return none
      | _ => return none
    match generic with
    | some t => return t
    | none => assignmentBase rules
  else assignmentBase rules

/-- Reads expressions with commas between them. -/
def expression (rules : Rules) : Parse Tree := do
  let start ← here
  let first ← rules .assignment
  if !(← isSign ",") then return first
  let rest ← many do
    if ← eatSign "," then return some (← rules .assignment) else return none
  node .sequence start [(.expressions, .list (first :: rest))]

end PureCalls.Grammar
