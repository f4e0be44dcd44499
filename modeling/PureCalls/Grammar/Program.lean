import PureCalls.Grammar.Element
import PureCalls.Grammar.Module

/-! Whole programs. -/
namespace PureCalls.Grammar
open Source

/-- The rule for a goal. -/
def rule (rules : Rules) : Goal → Parse Tree
  | .expression => expression rules
  | .assignment => assignment rules
  | .unary => unary rules
  | .leftHandSide => leftHandSide rules
  | .callee => callee rules
  | .primary => primary rules
  | .object => objectLiteral rules
  | .template tagged => templateLiteral rules tagged
  | .operators left strength => operators rules left strength
  | .subscripts head calls => subscripts rules head calls
  | .pattern => bindingPattern rules
  | .functionBody => functionBody rules
  | .functionExpression start isAsync => functionExpression rules start isAsync
  | .classExpression start => classNode rules .classExpression start false false []
  | .statement declarations => statement rules declarations
  | .moduleItem => moduleItem rules
  | .block => blockStatement rules
  | .type => typeRule rules
  | .typeBeforeArrow => resultType rules
  | .nonConditionalType => nonConditionalType rules
  | .unionType => unionType rules
  | .typeOperator => typeOperator rules
  | .typeArguments => typeArguments rules
  | .typeParameters variance constant => typeParameterList rules variance constant
  | .typeMembers => typeMembers rules
  | .namespaceBody => namespaceBody rules
  | .element => elementExpression rules
  | .innerElement => innerElement rules

/-- All rules together, with goals inside one another up to the given depth. -/
def rulesWithin : (depth : Nat) → Rules
  | 0, _ => fail .tooDeep
  | depth + 1, goal => rule (rulesWithin depth) goal

/-- A program as a tree, with its comments. -/
structure Program where
  tree : Tree
  leading : Comments
  trailing : Comments
  deriving Inhabited

private def items (rules : Rules) : Parse (List Tree) :=
  many do
    if ← isEnd then return none
    return some (← rules .moduleItem)

/-- Reads the first line of a script that names its interpreter. -/
private def hashbang (cs : List Char) : Option (List Char) :=
  match cs with
  | '#' :: '!' :: rest => some (rest.takeWhile (!Text.isLineBreak ·))
  | _ => none

private def initial (dialect : Dialect) (scanner : Scanner) : Except Failure State :=
  let start := scanner.pos
  match (Scanner.lexeme ⟨none, start⟩).run scanner with
  | .error fault => .error ⟨fault, .eof⟩
  | .ok (first, scanner) =>
    .ok {
      scanner, dialect, current := first,
      previous := { (default : Lexeme) with token := .eof, span := ⟨start, start⟩ }
      context := { topLevel := true, strict := isStrictDirective first.token }
      moduleFaults := scanner.strictFaults }

/-- The program node. It stands between its first and its last token; a text without tokens is all blank. -/
private def programTree (isModule : Bool) (start stop : Pos) (interpreter : Tree) (body : List Tree) : Tree :=
  .node (if isModule then .moduleProgram else .script) (some ⟨min start stop, max start stop⟩)
    [(.body, .list body), (.interpreter, interpreter)]

/-- The program that a text spells, or the fault that is reported. A fault that ends the reading goes first. -/
def parse (dialect : Dialect) (text : String) : Except Fault Program := do
  let cs := text.toList
  let (cs, pos) := match cs with
    | c :: rest => if c.toNat = 0xFEFF then (rest, 1) else (cs, 1)
    | [] => (cs, 1)
  let depth := 40 * (cs.length + 2)
  let bang := hashbang cs
  let (interpreter, scanner) := match bang with
    | some line =>
      let scanner : Scanner := { (default : Scanner) with rest := cs, pos }
      (Tree.text (String.ofList line), scanner.skip ('#' :: '!' :: line))
    | none => (.null, { (default : Scanner) with rest := cs, pos })
  match initial dialect scanner with
  | .error failure => .error failure.fault
  | .ok state =>
    let start := state.current.span.start
    match items (rulesWithin depth) state with
    | .error failure _ => .error failure.fault
    | .ok body s =>
      let tree := programTree s.hasModuleItem (if bang.isSome then pos else start) s.previous.span.stop interpreter body
      match s.faults ++ (if s.hasModuleItem then s.moduleFaults else []) with
      | fault :: _ => .error fault
      | [] => .ok ⟨tree, s.scanner.leading, s.scanner.trailing⟩

end PureCalls.Grammar
