import PureCalls.Grammar.Type

/-! Statements and declarations. -/
namespace PureCalls.Grammar
open Source

private def inParentheses (rules : Rules) : Parse Tree := do
  expectSign "("
  let e ← allowingIn (rules .expression)
  expectSign ")"
  return e

/-- Reads the body of a statement, in which nothing is declared. -/
private def bodyWith (rules : Rules) (change : Context → Context) : Parse Tree :=
  withContext change (rules (.statement false))

mutual

/-- Whether an object literal in an expression has a default, which only a pattern may have. Functions inside are
left out. -/
private def hasDefault : Tree → Bool
  | .node kind _ fields =>
    kind = .assignmentProperty || (!(kind = .function) && !(kind = .arrow) && hasDefaultField fields)
  | .list items => hasDefaultItem items
  | _ => false

private def hasDefaultItem : List Tree → Bool
  | [] => false
  | t :: rest => hasDefault t || hasDefaultItem rest

private def hasDefaultField : List (Field × Tree) → Bool
  | [] => false
  | (_, t) :: rest => hasDefault t || hasDefaultField rest

end

private def checkDefaults (e : Tree) : Parse Unit := do
  if hasDefault e then emit .defaultInObject

/-- Reads a variable of a declaration. In the head of a loop over items it has no value. -/
private def declarator (rules : Rules) (kind : String) (inLoopHead : Bool) : Parse Tree := do
  let start ← here
  if (kind = "let" || kind = "const") && (← isWord "let") then
    failUnexpected "let is reserved in const, let, class declaration"
  let pattern ← rules .pattern
  let definite ← if (← typescript) && pattern.isKind .identifier then eatSign "!" else pure false
  let type ← typeBehindColon? rules
  let pattern := annotate pattern type
  let overItems := inLoopHead && ((← isWord "in") || (← isWord "of"))
  let value ← if overItems then pure Tree.null
    else if ← eatSign "=" then do
      let e ← rules .assignment
      checkDefaults e
      pure e
    else do
      if !(← context).inAmbient then
        if kind = "const" && !inLoopHead then emit .uninitializedConstant
        else if !pattern.isKind .identifier then fail .uninitializedPattern
      pure .null
  node .declarator start [(.id, pattern), (.init, value), (.definite, .bool definite)]

/-- Reads variables with commas between them. -/
private def declarators (rules : Rules) (kind : String) (inLoopHead : Bool) : Parse (List Tree) := do
  let (items, _) ← extend (fun (items, done) => do
    if done then return none
    if (← isSign ";") || (← isEnd) then
      emit .trailingComma
      return some (items, true)
    let item ← declarator rules kind inLoopHead
    return some (items ++ [item], !(← eatSign ","))) (([] : List Tree), false)
  return items

/-- Passes over what stands where a statement should have ended. -/
private def skipToEnd (rules : Rules) : Parse Unit := do
  emit .semicolonExpected
  dropping (rules .expression)
  let _ ← many do
    if ← eatSemicolon then return none
    match ← token with
    | .bad fault => fail fault
    | _ => bump
    return some ()

/-- Whether the head of a loop goes on without variables, as in `for (let of xs)`. -/
private def lacksVariables (rules : Rules) : Parse Bool := do
  if !(← isWord "of") && !(← isWord "in") then return false
  let rest ← ahead (attempt do
    bump
    let _ ← rules .assignment
    expectSign ")"
    return some ())
  return rest.isSome

/-- Reads a declaration of variables from its word on, up to the semicolon. -/
private def variableDeclaration (rules : Rules) (kind : String) (inLoopHead : Bool) : Parse Tree := do
  let start ← here
  bump
  let isEmpty ← if inLoopHead && (← typescript) then lacksVariables rules else pure false
  if isEmpty then emit .noVariables
  let allowed (c : Context) : Context := { c with inAllowed := c.inAllowed || kind ≠ "var" || !inLoopHead }
  let items ← if isEmpty then pure [] else withContext allowed (declarators rules kind inLoopHead)
  if !inLoopHead then
    if !(← eatSemicolon) then skipToEnd rules
  node .variableDeclaration start [(.declarations, .list items), (.kind, .text kind)]

private def resourceNode (start : Pos) (items : List Tree) (isAwait : Bool) : Parse Tree :=
  node .usingDeclaration start [(.declarations, .list items), (.isAwait, .bool isAwait)]

/-- Reads resources from the word `using` on, up to the semicolon. -/
private def resources (rules : Rules) (start : Pos) (isAwait : Bool) : Parse Tree := do
  bump
  let items ← declarators rules "using" false
  if !(← typescript) then emit .usingNotEnabled
  for item in items do
    if !(item.field .id).isKind .identifier then emit .usingPattern
    if (item.field .init).isNull then emit .usingWithoutValue
  expectSemicolon
  resourceNode start items isAwait

/-- Whether the word `let` at the current token declares variables. -/
def startsLet : Parse Bool := do
  match (← peek).token with
  | .sign text => return text = "[" || text = openBrace
  | .word name _ => return !Token.isReserved name
  | _ => return false

/-- Whether the token behind the current one is a name in the same line. -/
private def nameFollows : Parse Bool := do
  let next ← peek
  match next.token with
  | .word name _ => return !next.afterBreak && !(← context).isReserved name
  | _ => return false

private def loopBody (rules : Rules) : Parse Tree :=
  bodyWith rules fun c => { c with breakAllowed := true, continueAllowed := true }

/-- What stands in the parentheses of a loop, and the kind of loop that it makes. -/
private structure LoopHead where
  kind : Kind
  fields : List (Field × Tree)

/-- Reads the test and update of a loop behind the first semicolon. -/
private def stepHead (rules : Rules) (init : Tree) : Parse LoopHead := do
  let test ← if ← eatSign ";" then pure Tree.null else do
    let e ← allowingIn (rules .expression)
    let _ ← eatSign ";"
    pure e
  let update ← if ← isSign ")" then pure Tree.null else allowingIn (rules .expression)
  return ⟨.forLoop, [(.init, init), (.test, test), (.update, update)]⟩

/-- Reads what a loop goes over, from the word in front of it on. -/
private def itemsHead (rules : Rules) (left : Tree) : Parse LoopHead := do
  let isOf ← eatWord "of"
  if !isOf then
    bump
    if left.isKind .usingDeclaration then emit .usingInForIn
  let right ← allowingIn (rules (if isOf then .assignment else .expression))
  return ⟨if isOf then .forOf else .forIn, [(.left, left), (.right, right)]⟩

/-- Checks the declaration of what a loop goes over. -/
private def checkLoopVariables (declaration : Tree) : Parse Unit := do
  match (declaration.field .declarations).items with
  | [d] =>
    if ((← context).strict || (← isWord "of")) && !(d.field .init).isNull then emit .initializedLoopVariable
    if (← typescript) && !((d.field .id).field .ofType).isNull then emit .annotatedLoopVariable
  | items => for _ in items.drop 1 do emit .manyLoopVariables

/-- Whether an expression in the head of a loop turns out to be the word of a resource. -/
private def startsResource (e : Tree) : Parse Bool := do
  let isUsing (t : Tree) : Bool := t.isKind .identifier && t.field .value == .text "using"
  if !(← typescript) || !(isUsing e || (e.isKind .await && isUsing (e.field .argument))) then return false
  let next := (← peek).token
  return !(← isWord "of") && (next == .word "of" false || next == .word "in" false)

private def loopHead (rules : Rules) : Parse LoopHead := do
  let start ← here
  let overItems : Parse Bool := do return (← isWord "of") || (← isWord "in")
  let kind := match ← token with
    | .word name false => name
    | _ => ""
  let declares ← if kind = "let" then startsLet else pure (kind = "var" || kind = "const")
  if declares then
    let declaration ← variableDeclaration rules kind true
    if ← overItems then
      checkLoopVariables declaration
      return ← itemsHead rules declaration
    expectSign ";"
    return ← stepHead rules declaration
  if ← eatSign ";" then return ← stepHead rules .null
  let e ← rules .expression
  if ← startsResource e then
    let name ← bindingIdentifier
    let d ← node .declarator start [(.id, name), (.init, .null), (.definite, .bool false)]
    return ← itemsHead rules (← resourceNode start [d] (e.isKind .await))
  if ← overItems then
    let left ← asLoopTarget e
    let isPattern := left.isKind .arrayPattern || left.isKind .objectPattern
    if (← typescript) && (← isWord "in") && isPattern then emit .destructuredLoopVariable
    return ← itemsHead rules left
  expectSign ";"
  checkDefaults e
  stepHead rules e

private def forStatement (rules : Rules) : Parse Tree := do
  let start ← here
  bump
  let isAwait ← eatWord "await"
  if isAwait && !(← context).inFunction then modify fun s => { s with hasModuleItem := true }
  expectSign "("
  let inHead (c : Context) : Context := { c with inAllowed := false, inLoopHead := true, inAwaitedLoop := isAwait }
  let head ← withContext inHead (loopHead rules)
  expectSign ")"
  let body ← loopBody rules
  if isAwait && !(head.kind = .forOf) then fail .awaitedLoop
  node head.kind start (head.fields ++ [(.body, body), (.isAwait, .bool isAwait)])

private def ifStatement (rules : Rules) : Parse Tree := do
  let start ← here
  bump
  let test ← inParentheses rules
  let consequent ← rules (.statement false)
  let alternate ← if ← eatWord "else" then rules (.statement false) else pure .null
  node .ifStatement start [(.test, test), (.consequent, consequent), (.alternate, alternate)]

private def switchStatement (rules : Rules) : Parse Tree := do
  let start ← here
  bump
  let discriminant ← inParentheses rules
  expectSign openBrace
  let (cases, _) ← withContext (fun c => { c with breakAllowed := true, topLevel := false }) do
    extend (fun (cases, hasDefault) => do
      let caseStart ← here
      let isDefault ← isWord "default"
      if !isDefault && !(← isWord "case") then return none
      bump
      if isDefault && hasDefault then fail .repeatedDefault
      let test ← if isDefault then pure Tree.null else allowingIn (rules .expression)
      expectSign ":"
      let stmts ← many do
        if (← isWord "case") || (← isWord "default") || (← isSign closeBrace) then return none
        return some (← rules (.statement true))
      let c ← node .switchCase caseStart [(.test, test), (.consequent, .list stmts)]
      return some (cases ++ [c], hasDefault || isDefault)) (([] : List Tree), false)
  expectSign closeBrace
  node .switch start [(.discriminant, discriminant), (.cases, .list cases)]

private def catchClause? (rules : Rules) : Parse Tree := do
  let start ← here
  if !(← eatWord "catch") then return .null
  let param ← if ← eatSign "(" then do
      let p ← rules .pattern
      let type ← typeBehindColon? rules
      expectSign ")"
      pure (annotate p type)
    else pure .null
  let body ← rules .block
  node .catchClause start [(.param, param), (.body, body)]

private def finallyBlock? (rules : Rules) : Parse Tree := do
  if ← eatWord "finally" then rules .block else return .null

private def tryStatement (rules : Rules) : Parse Tree := do
  let start ← here
  bump
  let block ← rules .block
  let handler ← catchClause? rules
  let finalizer ← finallyBlock? rules
  if handler.isNull && finalizer.isNull then emit .semicolonExpected
  node .tryStatement start [(.block, block), (.handler, handler), (.finalizer, finalizer)]

/-- Reads what follows a missing `try`. -/
private def tryless (rules : Rules) : Parse Tree := do
  emit .semicolonExpected
  dropping (catchClause? rules)
  dropping (finallyBlock? rules)
  return .null

/-- Reads `break` or `continue` with its label. -/
private def jump (isBreak : Bool) : Parse Tree := do
  let start ← here
  bump
  let label ← if ← eatSemicolon then pure Tree.null else do
      let label ← identifier
      expectSemicolon
      pure label
  let c ← context
  let isUnknown := !label.isNull && !c.labels.contains ((label.field .value).text?.getD "")
  if isBreak then
    if isUnknown then emit .undefinedLabel
    else if !c.breakAllowed then emit .breakOutsideLoop
  else
    if !c.continueAllowed then emit .continueOutsideLoop
    else if isUnknown then emit .jumpAcrossFunction
  node (if isBreak then .breakStatement else .continueStatement) start [(.label, label)]

private def returnStatement (rules : Rules) : Parse Tree := do
  let start ← here
  bump
  let e ← if ← canEndStatement then pure Tree.null else allowingIn (rules .expression)
  expectSemicolon
  let t ← node .returnStatement start [(.argument, e)]
  if !(← context).inFunction then emit .returnOutsideFunction
  return t

private def throwStatement (rules : Rules) : Parse Tree := do
  let start ← here
  bump
  if ← afterBreak then fail .breakAfterThrow
  let e ← allowingIn (rules .expression)
  expectSemicolon
  node .throwStatement start [(.argument, e)]

private def withStatement (rules : Rules) : Parse Tree := do
  let start ← here
  if ← typescript then emit .withInTyped
  emitStrict .withInStrict
  bump
  let object ← inParentheses rules
  let body ← bodyWith rules fun c => { c with inFunction := true }
  node .withStatement start [(.object, object), (.body, body)]

private def functionDeclaration (rules : Rules) (start : Pos) (isAsync : Bool) (more : List (Field × Tree)) :
    Parse Tree := do
  let t ← functionNode rules .functionDeclaration start isAsync fun _ => bindingIdentifier
  match t with
  | .node kind span fields => return .node kind span (fields ++ more)
  | t => return t

/-- Reads the statement behind a label and its colon. -/
private def labeled (rules : Rules) (start : Pos) (label : Tree) : Parse Tree := do
  let name := (label.field .value).text?.getD ""
  let isRepeated := (← context).labels.contains name
  let change (c : Context) : Context := { c with breakAllowed := true, labels := name :: c.labels }
  let body ← withContext change do
    if ← isWord "function" then
      let t ← functionDeclaration rules (← here) false []
      if (← context).strict then emit .labeledFunction
      if t.flag .generator || t.flag .isAsync then emit .labeledSpecialFunction
      return t
    else rules (.statement false)
  if isRepeated then emit (.repeatedLabel name)
  node .labeled start [(.label, label), (.body, body)]

private def statementOf (start : Pos) (e : Tree) : Parse Tree :=
  node .expressionStatement start [(.expression, e)]

/-- Reads a statement that starts with an expression, which may turn out to be a label. -/
private def expressionStatement (rules : Rules) : Parse Tree := do
  let start ← here
  let e ← allowingIn (rules .expression)
  if e.isKind .identifier then
    if ← eatSign ":" then return ← labeled rules start e
  else checkDefaults e
  if ← eatSemicolon then return ← statementOf start e
  if ← isBinarySign then
    emit .semicolonExpected
    statementOf start (← rules (.operators e 0))
  else fail .statementEndExpected

/-- Reads an expression that starts with `import`, behind which no semicolon is needed. -/
def importStatement (rules : Rules) : Parse Tree := do
  let start ← here
  let e ← rules .expression
  let _ ← eatSemicolon
  statementOf start e

/-- Reads resources behind `await using`, or an expression if none are declared. -/
private def awaitedResources (rules : Rules) : Parse Tree := do
  let start ← here
  if (← context).topLevel then modify fun s => { s with hasModuleItem := true }
  bump
  if ← nameFollows then return ← resources rules start true
  let e ← awaitOperand rules start (← lastStop)
  let e ← allowingIn (rules (.operators e 0))
  let _ ← eatSemicolon
  statementOf start e

/-- Reads the name of an enum's member between brackets, which is a string. -/
private def bracketedName (rules : Rules) : Parse Tree := do
  bump
  let e ← rules .expression
  expectSign "]"
  let quasis := (e.field .quasis).items
  match quasis with
  | [quasi] =>
    let raw := "\x60" ++ (quasi.field .raw).text?.getD "" ++ "\x60"
    node .string e.start [(.raw, .text (Text.encodeQuoted (Text.decodeQuoted raw)))]
  | _ =>
    if !e.isKind .string then emit .computedEnumMember
    return e

/-- Reads a member of an enum. Tells whether another token took the place of the comma behind it. -/
private def enumMember (rules : Rules) : Parse (Tree × Bool) := do
  let start ← here
  let id ← match ← token with
    | .string _ => stringLiteral
    | .number raw => do
      emit .numericEnumMember
      numberLiteral raw
    | .sign "[" => bracketedName rules
    | .bad fault => fail fault
    | _ => wordName
  let init ← if ← eatSign "=" then allowingIn (rules .assignment) else pure .null
  let isOdd := init.isNull && !(← isSign ",") && !(← isSign closeBrace)
  if isOdd then
    emit .semicolonExpected
    bump
  return (← node .enumMember start [(.id, id), (.init, init)], isOdd)

/-- Reads an enum behind that word. -/
private def enumDeclaration (rules : Rules) (start : Pos) (isConst isDeclare : Bool) : Parse Tree := do
  let id ← wordName
  expectSign openBrace
  let (members, _) ← extend (fun (members, done) => do
    if done || (← isSign closeBrace) then return none
    let (member, isOdd) ← enumMember rules
    if ← (if isOdd then pure true else eatSign ",") then return some (members ++ [member], false)
    if !(← isSign closeBrace) then failExpected ","
    return some (members ++ [member], true)) (([] : List Tree), false)
  expectSign closeBrace
  node .enum start
    [(.id, id), (.members, .list members), (.isConst, .bool isConst), (.isDeclare, .bool isDeclare)]

/-- Reads an interface behind that word. -/
private def interfaceDeclaration (rules : Rules) (start : Pos) (isDeclare : Bool) : Parse Tree := do
  let id ← wordName
  if reservedTypeNames.contains ((id.field .value).text?.getD "") then emit .invalidInterfaceName
  let types ← if ← isSign "<" then rules (.typeParameters true false) else pure .null
  let bases ← if ← eatWord "extends" then heritage rules else pure []
  if ← isWord "extends" then
    emit .repeatedExtends
    let _ ← many do
      if (← isSign openBrace) || (← isEnd) then return none
      bump
      return some ()
  let bodyStart ← here
  let members ← rules .typeMembers
  let body ← node .interfaceBody bodyStart [(.body, members)]
  node .interface start
    [(.id, id), (.extended, .list bases), (.body, body), (.typeParams, types), (.isDeclare, .bool isDeclare)]

/-- Reads the name of a type, and what it stands for, behind the word `type`. -/
private def aliasDeclaration (rules : Rules) (start : Pos) (isDeclare : Bool) : Parse Tree := do
  let id ← wordName
  let types ← if ← isSign "<" then rules (.typeParameters true false) else pure .null
  if !(← eatSign "=") then failUnexpected "="
  let t ← rules .type
  expectSemicolon
  node .typeAlias start
    [(.id, id), (.ofType, t), (.typeParams, types), (.isDeclare, .bool isDeclare)]

/-- Reads the items of a namespace with the braces around them. -/
def namespaceBody (rules : Rules) : Parse Tree := do
  let start ← here
  let items ← withContext (fun c => { c with topLevel := true }) (bracedItems (rules .moduleItem))
  node .namespaceBlock start [(.body, .list items)]

/-- Reads a namespace from its name on. Names with dots are namespaces inside one another. -/
private def namespaceNames (rules : Rules) : Parse (Tree × Tree) := do
  let first ← wordName
  let inner ← many do
    if ← eatSign "." then
      let start ← here
      return some (start, ← wordName)
    else return none
  let body ← rules .namespaceBody
  let stop ← lastStop
  let nested := inner.foldr (fun (start, id) body =>
    Tree.node .nestedNamespace (some ⟨start, stop⟩) [(.id, id), (.body, body)]) body
  return (first, nested)

private def namespaceDeclaration (rules : Rules) (start : Pos) (isDeclare isSpace : Bool) : Parse Tree := do
  let (id, body) ← namespaceNames rules
  node .namespaceDeclaration start
    [(.id, id), (.body, body), (.isDeclare, .bool isDeclare), (.space, .bool isSpace)]

/-- Reads the types of a module that is named by a string, or of the global scope. -/
private def outsideModule (rules : Rules) (start : Pos) (isDeclare : Bool) : Parse Tree := do
  let isGlobal ← isWord "global"
  let id ← if isGlobal then wordName else if ← isString then stringLiteral
    else failUnexpected "global or a string literal"
  let body ← if ← isSign openBrace then rules .namespaceBody else do
    expectSemicolon
    pure .null
  node .namespaceDeclaration start
    [(.id, id), (.body, body), (.isDeclare, .bool isDeclare), (.isGlobal, .bool isGlobal)]

/-- Reads the declaration that the current word starts, if it can start one. -/
def declarationBy (rules : Rules) (start : Pos) (isDeclare : Bool) : Parse (Option Tree) := do
  match ← token with
  | .word "abstract" false =>
    bump
    some <$> classNode rules .classDeclaration start true true [(.isDeclare, .bool isDeclare)]
  | .word "enum" false =>
    bump
    some <$> enumDeclaration rules start false isDeclare
  | .word "interface" false =>
    bump
    some <$> interfaceDeclaration rules start isDeclare
  | .word "type" false =>
    bump
    some <$> aliasDeclaration rules start isDeclare
  | .word "namespace" false =>
    bump
    some <$> namespaceDeclaration rules start isDeclare true
  | .word "module" false =>
    bump
    if ← isString then some <$> outsideModule rules start isDeclare
    else some <$> namespaceDeclaration rules start isDeclare false
  | _ => return none

/-- Reads a constant enum from the word `const` on. -/
def constEnum (rules : Rules) (start : Pos) (isDeclare : Bool) : Parse Tree := do
  bump
  bump
  enumDeclaration rules start true isDeclare

/-- Reads a declaration behind `declare`, if one stands there. -/
def ambientDeclaration? (rules : Rules) (start : Pos) : Parse (Option Tree) :=
  withContext (fun c => { c with inAmbient := true }) do
    match ← token with
    | .word "function" false => some <$> functionDeclaration rules start false [(.isDeclare, .bool true)]
    | .word "class" false => some <$> classNode rules .classDeclaration start true false [(.isDeclare, .bool true)]
    | .word "global" false => some <$> outsideModule rules start true
    | .word name false =>
      if name = "const" && (← peek).token == .word "enum" false then return some (← constEnum rules start true)
      if ["const", "var", "let"].contains name then
        match ← variableDeclaration rules name false with
        | .node k (some span) fields =>
          return some (.node k (some ⟨start, span.stop⟩) (fields ++ [(.isDeclare, .bool true)]))
        | t => return some t
      if name = "module" && (← afterBreak) then return none
      declarationBy rules start true
    | _ => return none

/-- Whether the word at the current token starts a declaration that only typed code has. -/
private def startsTyped (name : String) : Parse Bool := do
  let next ← peek
  let isWord := match next.token with
    | .word _ _ => true
    | _ => false
  let isReference ← match next.token with
    | .word name _ => pure !(← context).isReserved name
    | _ => pure false
  let isString := match next.token with
    | .string _ => true
    | _ => false
  match name with
  | "enum" | "interface" => return isWord && !next.afterBreak
  | "type" => return isReference && !next.afterBreak
  | "namespace" => return isReference
  | "module" => return (isReference || isString) && !next.afterBreak
  | "abstract" => return next.token == .word "class" false && !next.afterBreak
  | _ => return false

/-- Reads a declaration of typed code, ambient or not, if one stands here. -/
private def typedStatement? (rules : Rules) (name : String) : Parse (Option Tree) := do
  let start ← here
  let next := (← peek).token
  if name = "const" && next == .word "enum" false then return some (← constEnum rules start false)
  if name = "declare" then
    match next with
    | .word _ _ =>
      let s ← get
      bump
      match ← ambientDeclaration? rules start with
      | some t => return some t
      | none =>
        set s
        return none
    | _ => return none
  if name = "global" && next == .sign openBrace then return some (← outsideModule rules start false)
  if ← startsTyped name then declarationBy rules start false else return none

/-- Reads a declaration or statement. -/
def statement (rules : Rules) (declarations : Bool) : Parse Tree := do
  let start ← here
  match ← token with
  | .sign ";" =>
    bump
    node .empty start []
  | .sign openBrace => rules .block
  | .word name false =>
    if ← typescript then
      match ← typedStatement? rules name with
      | some t => return t
      | none => pure ()
    if !declarations && (name = "function" || name = "class") then emit .declarationNotAllowed
    match name with
    | "var" => variableDeclaration rules "var" false
    | "const" => if declarations then variableDeclaration rules "const" false else expressionStatement rules
    | "let" => if declarations && (← startsLet) then variableDeclaration rules "let" false else expressionStatement rules
    | "using" =>
      if declarations && (← nameFollows) then resources rules start false else expressionStatement rules
    | "function" => functionDeclaration rules start false []
    | "async" =>
      let next ← peek
      if next.token == .word "function" false && !next.afterBreak then
        bump
        functionDeclaration rules start true []
      else expressionStatement rules
    | "await" =>
      let isUsing := (← peek).token == .word "using" false
      if isUsing && (declarations || (← context).topLevel) then awaitedResources rules else expressionStatement rules
    | "class" => classNode rules .classDeclaration start true false []
    | "if" => ifStatement rules
    | "for" => forStatement rules
    | "while" =>
      bump
      let test ← inParentheses rules
      let body ← loopBody rules
      node .whileLoop start [(.test, test), (.body, body)]
    | "do" =>
      bump
      let body ← loopBody rules
      expectWord "while"
      let test ← inParentheses rules
      let _ ← eatSign ";"
      node .doWhile start [(.test, test), (.body, body)]
    | "switch" => switchStatement rules
    | "try" => tryStatement rules
    | "catch" | "finally" => tryless rules
    | "throw" => throwStatement rules
    | "return" => returnStatement rules
    | "break" => jump true
    | "continue" => jump false
    | "debugger" =>
      bump
      expectSemicolon
      node .debugger start []
    | "with" => withStatement rules
    | "import" =>
      let next := (← peek).token
      if next == .sign "(" || next == .sign "." then importStatement rules else fail .importOutsideModule
    | "export" => fail .importOutsideModule
    | _ => expressionStatement rules
  | _ => expressionStatement rules

end PureCalls.Grammar
