import PureCalls.Grammar.State

/-! The goals of the grammar. A rule reads its goal with the help of a reader for all goals, itself included. -/
namespace PureCalls.Grammar

/-- What can be read by its name from inside other rules. -/
inductive Goal where
  /-- Expressions with commas between them. -/
  | expression
  | assignment
  | unary
  | leftHandSide
  | callee
  | primary
  | object
  | template (tagged : Bool)
  /-- Operators stronger than the given strength, behind a first operand. -/
  | operators (left : Tree) (strength : Nat)
  /-- Members, templates and maybe calls behind an expression. -/
  | subscripts (head : Tree) (calls : Bool)
  | pattern
  | functionBody
  /-- A function from the word on, which may have `async` in front. -/
  | functionExpression (start : Pos) (async : Bool)
  | classExpression (start : Pos)
  /-- A statement, or a declaration where one may stand. -/
  | statement (declarations : Bool)
  | moduleItem
  | block
  | type
  /-- The result of a function, with its colon. -/
  | typeBeforeArrow
  | nonConditionalType
  | unionType
  | typeOperator
  | typeArguments
  /-- Type parameters with their brackets, which may tell how they vary, and may be constant. -/
  | typeParameters (variance constant : Bool)
  | typeMembers
  | namespaceBody
  | element
  /-- An element up to its last sign, behind which the text around it goes on. -/
  | innerElement
  deriving Inhabited

/-- A reader for all goals. -/
abbrev Rules := Goal → Parse Tree

end PureCalls.Grammar
