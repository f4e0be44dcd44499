import PureCalls.Grammar.Statement

/-! Elements: tags with attributes, and the text and expressions between them. -/
namespace PureCalls.Grammar
open Source

/-- Cuts a name in a tag, which may hold dashes. -/
private def tagWord : Scan Token := do
  let cs ← Scanner.takeWhile fun c => Text.isNamePart c || c = '-'
  return .word (String.ofList cs) false

/-- Cuts a string in a tag, which has no escapes and may hold line ends. -/
private def tagString (quote : Char) : Scan Token := do
  let _ ← Scanner.next?
  let cs ← Scanner.takeWhile (· ≠ quote)
  match ← Scanner.next? with
  | some _ => return .string (String.ofList (quote :: cs ++ [quote]))
  | none => Scanner.fail .unterminatedString

/-- Cuts what stands behind the equals sign of an attribute. -/
private def valueToken : Scan Token := do
  match ← Scanner.peek? with
  | some c => if c = '"' || c = '\'' then tagString c else Scanner.token
  | none => Scanner.token

private def tagName : Parse Tree := do
  let start ← here
  if !(← isAnyWord) then fail .nameExpected
  rescan tagWord
  match ← token with
  | .word name _ =>
    bump
    return makeIdentifier start (← lastStop) name []
  | _ => fail .nameExpected

/-- Reads a name, a name in a space, or a member. -/
private def elementName (members : Bool) : Parse Tree := do
  let start ← here
  let first ← tagName
  if ← eatSign ":" then
    let second ← tagName
    node .namespacedName start [(.space, first), (.named, second)]
  else if !members then return first
  else
    extend (fun t => do
      if ← eatSign "." then
        let property ← tagName
        return some (← node .elementMember start [(.object, t), (.property, property)])
      else return none) first

/-- The text of a name, as a message shows it. -/
private def shownName (fuel : Nat) (t : Tree) : String :=
  match fuel with
  | 0 => ""
  | fuel + 1 =>
    match t.kind? with
    | some .namespacedName => shownName fuel (t.field .space) ++ ":" ++ shownName fuel (t.field .named)
    | some .elementMember => shownName fuel (t.field .object) ++ "." ++ shownName fuel (t.field .property)
    | _ => (t.field .value).text?.getD ""

private def attributeValue (rules : Rules) : Parse Tree := do
  let start ← here
  match ← token with
  | .string _ => stringLiteral
  | .sign openBrace =>
    bump
    if ← isSign closeBrace then fail .emptyAttribute
    let e ← allowingIn (rules .expression)
    expectSign closeBrace
    node .elementExpression start [(.expression, e)]
  | .sign "<" => rules .element
  | _ => fail .invalidAttributeValue

private def tagAttribute (rules : Rules) : Parse Tree := do
  let start ← here
  if ← eatSign openBrace then
    let dots := (← get).current.span
    expectSign "..."
    let e ← allowingIn (rules .assignment)
    expectSign closeBrace
    node .spread start [(.spread, .range dots), (.arguments, e)]
  else
    let name ← elementName false
    if ← isSign "=" then
      bumpBy valueToken
      let value ← attributeValue rules
      node .elementAttribute start [(.named, name), (.value, value)]
    else node .elementAttribute start [(.named, name), (.value, .null)]

/-- Takes only the first of several signs that are written together as the end of a tag. -/
private def endTag : Parse Unit := do
  match ← token with
  | .sign text =>
    if text.toList.head? = some '>' && text.length > 1 then
      rescan fun s => .ok (.sign ">", s.skip ['>'])
  | _ => return

/-- Reads the text up to the next tag or expression, and the sign there. The end of the text gives no sign. -/
private def elementText : Parse (Option Tree) := do
  let s ← get
  let text := s.scanner.rest.takeWhile fun c => c ≠ '<' && c ≠ '{'
  let scanner := s.scanner.skip text
  let span : Span := ⟨s.scanner.pos, scanner.pos⟩
  let raw := String.ofList text
  let previous := if text.isEmpty then s.current else ⟨.elementText raw, span, false, s.scanner.rest⟩
  let (sign, after) := match scanner.rest with
    | c :: _ => (Token.sign (String.ofList [c]), scanner.skip [c])
    | [] => (.eof, scanner)
  set { s with scanner := after, previous, current := ⟨sign, ⟨scanner.pos, after.pos⟩, false, scanner.rest⟩ }
  if text.isEmpty then return none
  return some (.node .elementText (some span) [(.value, .text raw), (.raw, .text raw)])

private def currentStop : Parse Pos := fun s => .ok s.current.span.stop s

/-- Reads `p`. Where it fails the end of the element was needed. -/
private def orEndNeeded {α : Type} (p : Parse α) : Parse α := fun s =>
  match p s with
  | .ok r s' => .ok r s'
  | .error failure s' => .error ⟨.expected "'</'" ("'" ++ failure.token.shown ++ "'"), failure.token⟩ s'

/-- Reads an expression in braces between tags, up to the closing brace. -/
private def childExpression (rules : Rules) : Parse Tree := do
  let start ← here
  bump
  if ← isSign closeBrace then
    let inner := Tree.node .emptyExpression (some ⟨← lastStop, ← here⟩) []
    return .node .elementExpression (some ⟨start, ← currentStop⟩) [(.expression, inner)]
  if ← eatSign "..." then
    let e ← allowingIn (rules .expression)
    if !(← isSign closeBrace) then failExpected closeBrace
    return .node .elementSpread (some ⟨start, ← currentStop⟩) [(.expression, e)]
  let e ← allowingIn (rules .expression)
  if !(← isSign closeBrace) then failExpected closeBrace
  return .node .elementExpression (some ⟨start, ← currentStop⟩) [(.expression, e)]

/-- Reads all that stands between two tags, up to the sign that opens the second one. -/
private def children (rules : Rules) : Parse (List Tree) := do
  let (items, _) ← extend (fun (items, done) => do
    if done then return none
    let text ← elementText
    let items := match text with
      | some t => items ++ [t]
      | none => items
    if ← isSign openBrace then
      let e ← orEndNeeded (childExpression rules)
      return some (items ++ [e], false)
    else if ← isSign "<" then
      let next ← peek
      match next.token with
      | .sign text =>
        if text.startsWith "/" then return some (items, true)
        else
          let e ← rules .innerElement
          return some (items ++ [e], false)
      | _ =>
        let e ← rules .innerElement
        return some (items ++ [e], false)
    else return some (items, true)) (([] : List Tree), false)
  if !(← isSign "<") then failExpected "</"
  return items

private def expectEndTag : Parse Unit := do
  endTag
  if !(← isSign ">") then failExpected ">"

private def closingSlash : Parse Unit := do
  bump
  match ← token with
  | .sign text =>
    if text.length > 1 then rescan fun s => .ok (.sign "/", s.skip ['/'])
  | _ => pure ()
  bump

/-- Reads an element up to its last sign, which stays the current token. -/
def innerElement (rules : Rules) : Parse Tree := do
  let start ← here
  expectSign "<"
  endTag
  if ← isSign ">" then
    let opening := Tree.node .openingFragment (some ⟨start, ← currentStop⟩) []
    let items ← children rules
    let closeStart ← here
    closingSlash
    expectEndTag
    let closing := Tree.node .closingFragment (some ⟨closeStart, ← currentStop⟩) []
    return .node .fragment (some ⟨start, ← currentStop⟩)
      [(.opening, opening), (.children, .list items), (.closing, closing)]
  let name ← elementName true
  let types ← if (← typescript) && (← isSign "<") then rules .typeArguments else pure .null
  let attributes ← many do
    endTag
    if (← isSign ">") || (← isSign "/") || (← isEnd) then return none
    return some (← tagAttribute rules)
  let selfClosing ← isSign "/"
  if selfClosing then bump
  expectEndTag
  let opening := Tree.node .openingElement (some ⟨start, ← currentStop⟩)
    [(.named, name), (.attributes, .list attributes), (.typeArguments, types), (.selfClosing, .bool selfClosing)]
  if selfClosing then
    return .node .element (some ⟨start, ← currentStop⟩)
      [(.opening, opening), (.children, .list []), (.closing, .null)]
  let items ← children rules
  let closeStart ← here
  closingSlash
  let wanted := shownName 100 name
  endTag
  let closeName ← if ← isSign ">" then pure .null else elementName true
  expectEndTag
  if shownName 100 closeName ≠ wanted then
    rescan fun s => .ok (.elementText "", s)
    fail (.closingTag wanted)
  let closing := Tree.node .closingElement (some ⟨closeStart, ← currentStop⟩) [(.named, closeName)]
  return .node .element (some ⟨start, ← currentStop⟩)
    [(.opening, opening), (.children, .list items), (.closing, closing)]

/-- Reads an element in an expression. -/
def elementExpression (rules : Rules) : Parse Tree := do
  let t ← rules .innerElement
  bump
  return t

end PureCalls.Grammar
