import PureCalls.Tree

/-! What the text of a node starts and ends with: a word has to be kept apart from the word beside it. -/
namespace PureCalls.Printer

/-- The operators that are words. -/
def wordOperators : List String := ["typeof", "void", "delete", "in", "instanceof"]

private def isWordOperator (operator : Tree) : Bool :=
  match operator with
  | .text name => wordOperators.contains name
  | _ => false

/-- The kinds whose text always starts with a word. -/
private def startsAsWord : List Kind :=
  [.identifier, .boolean, .number, .nullLiteral, .bigInt, .await, .function, .classExpression, .thisExpression,
   .yieldExpression, .newExpression, .metaProperty, .superMember, .superCallee, .importCallee]

/-- The field that the text of a node starts with. -/
private def firstField? (kind : Kind) : Option Field :=
  if kind = .sequence then some .expressions
  else if kind = .assignment || kind = .binary || kind = .defaultPattern then some .left
  else if kind = .conditional then some .test
  else if kind = .call || kind = .optionalCall then some .callee
  else if kind = .member then some .object
  else if kind = .tagged then some .tag
  else if kind = .optionalChain then some .base
  else if kind = .nonNull || kind = .asType || kind = .constAssertion || kind = .instantiation ||
    kind = .satisfiesType then some .expression
  else none

mutual

/-- Whether the text of an expression or pattern starts with a word. -/
def startsWithWord : Tree → Bool
  | .node kind _ fields =>
    if startsAsWord.contains kind then true
    else if kind = .unary then isWordOperator (Tree.lookup .operator fields)
    else if kind = .update then Tree.lookup .isPrefix fields != .bool true && startsAt .argument fields
    else if kind = .arrow then
      Tree.lookup .isAsync fields == .bool true ||
        ((Tree.lookup .params fields).items.length = 1 && startsAt .params fields)
    else
      match firstField? kind with
      | some f => startsAt f fields
      | none => false
  | .list items => startsWithFirst items
  | _ => false

private def startsWithFirst : List Tree → Bool
  | [] => false
  | t :: _ => startsWithWord t

private def startsAt (f : Field) : List (Field × Tree) → Bool
  | [] => false
  | (g, t) :: rest => if g = f then startsWithWord t else startsAt f rest

end

/-- Whether the text of a statement starts with a word. -/
def startsStatementWithWord (t : Tree) : Bool :=
  match t.kind? with
  | some .expressionStatement => startsWithWord (t.field .expression)
  | some .block | some .empty => false
  | _ => true

/-- Whether the text of an expression ends with a word. -/
def endsWithWord (t : Tree) : Bool :=
  match t.kind? with
  | some .array | some .object | some .string | some .paren | some .call => false
  | some .newExpression => (t.field .arguments).items.isEmpty
  | some .member => !(t.field .property).isKind .computed
  | _ => true

mutual

/-- Whether the text of a pattern ends with a word. -/
def patternEndsWithWord : Tree → Bool
  | .node kind span fields =>
    if kind = .objectPattern || kind = .arrayPattern then false
    else if kind = .rest then patternEndsAt .argument fields
    else if kind = .defaultPattern then endsWithWord (Tree.lookup .right fields)
    else endsWithWord (.node kind span fields)
  | _ => true

private def patternEndsAt (f : Field) : List (Field × Tree) → Bool
  | [] => true
  | (g, t) :: rest => if g = f then patternEndsWithWord t else patternEndsAt f rest

end

/-- Whether the text in front of `in` or `of` in the head of a loop ends with a word. -/
def loopHeadEndsWithWord (t : Tree) : Bool :=
  if t.isKind .variableDeclaration || t.isKind .usingDeclaration then
    match (t.field .declarations).items.getLast? with
    | some d => if (d.field .init).isNull then patternEndsWithWord (d.field .id) else endsWithWord (d.field .init)
    | none => true
  else patternEndsWithWord t

mutual

/-- Whether an operand begins with a sign that would run together with the operator in front of it. -/
def joinsOperator (operator : String) : Tree → Bool
  | .node kind _ fields =>
    if kind = .update then
      Tree.lookup .isPrefix fields == .bool true && Tree.lookup .operator fields == .text (operator ++ operator)
    else if kind = .unary then
      (operator = "+" || operator = "-") && Tree.lookup .operator fields == .text operator
    else if kind = .binary then joinsOperatorAt operator fields
    else false
  | _ => false

private def joinsOperatorAt (operator : String) : List (Field × Tree) → Bool
  | [] => false
  | (g, t) :: rest => if g = .left then joinsOperator operator t else joinsOperatorAt operator rest

end

end PureCalls.Printer
