import PureCalls.Printer.Element
import PureCalls.Printer.Module

/-! Whole programs as text. -/
namespace PureCalls.Printer

/-- Writes a program: the line that names its interpreter, if there is one, and its items. -/
def program (rules : Rules) (t : Tree) : Print := do
  leading t
  match t.field .interpreter with
  | .text name => do
    write ("#!" ++ name)
    endLine
  | _ => nothing
  (t.field .body).items.forM (moduleItem rules)
  trailing t

/-- The rule for a node, which leaves its children to `rules`. -/
def rule (rules : Rules) (t : Tree) : Print :=
  match t.kind? with
  | none => nothing
  | some kind =>
    match kind with
    | .moduleProgram | .script => program rules t
    -- statements
    | .block => block rules t
    | .empty => emptyStatement t
    | .debugger => wordStatement "debugger" t
    | .withStatement => withStatement rules t
    | .returnStatement => exitStatement rules "return" t
    | .throwStatement => exitStatement rules "throw" t
    | .labeled => labeled rules t
    | .breakStatement => jump rules "break" t
    | .continueStatement => jump rules "continue" t
    | .ifStatement => ifStatement rules t
    | .switch => switchStatement rules t
    | .switchCase => switchCase rules t
    | .tryStatement => tryStatement rules t
    | .catchClause => catchClause rules t
    | .whileLoop => whileLoop rules t
    | .doWhile => doWhile rules t
    | .forLoop => forLoop rules t
    | .forIn => eachLoop rules "in" t
    | .forOf => eachLoop rules "of" t
    | .expressionStatement => expressionStatement rules t
    | .variableDeclaration => variableDeclaration rules t
    | .usingDeclaration => usingDeclaration rules t
    | .declarator => declarator rules t
    -- functions and classes
    | .function | .functionDeclaration => function rules t
    | .classExpression | .classDeclaration => classNode rules t
    | .parameter => parameter rules t
    | .parameterProperty => parameterProperty rules t
    | .arrow => arrow rules t
    | .method => method rules t
    | .getter => getter rules t
    | .setter => setter rules t
    | .classConstructor => classConstructor rules t
    | .classMethod | .privateMethod => classMethod rules t
    | .classProperty | .privateProperty => classProperty rules t
    | .autoAccessor => autoAccessor rules t
    | .staticBlock => staticBlock rules t
    -- imports and exports
    | .importDeclaration => importDeclaration rules t
    | .importNamed => importNamed rules t
    | .exportDeclaration => exportDeclaration rules t
    | .exportDefaultDeclaration => exportDefaultDeclaration rules t
    | .exportDefaultExpression => exportDefaultExpression rules t
    | .exportNamed => exportNamed rules t
    | .exportSpecifier => exportSpecifier rules t
    | .exportNamespaceSpecifier => exportNamespaceSpecifier rules t
    | .exportAll => exportAll rules t
    | .exportAssignment => exportAssignment rules t
    | .namespaceExport => namespaceExport rules t
    | .importEquals => importEquals rules t
    | .externalModule => externalModule rules t
    -- expressions
    | .identifier => identifier rules t
    | .privateName => privateName t
    | .thisExpression => do leading t; write "this"
    | .nullLiteral => do leading t; write "null"
    | .superCallee => do leading t; write "super"
    | .importCallee => importCallee t
    | .boolean => do leading t; write (if t.flag .value then "true" else "false")
    | .metaProperty => do leading t; write (textOf (t.field .kind))
    | .string => stringLiteral t
    | .number => discard (numberLiteral t)
    | .bigInt => bigLiteral t
    | .regExp => regularExpression t
    | .template | .templateType => template rules false t
    | .tagged => taggedTemplate rules t
    | .array => arrayLiteral rules t
    | .object => objectLiteral rules t
    | .keyValue => keyValue rules t
    | .assignmentProperty => assignedProperty rules t
    | .spread => spreadProperty rules t
    | .computed => computedName rules t
    | .member => memberAccess rules t
    | .superMember => superMember rules t
    | .call => call rules t
    | .newExpression => construction rules true t
    | .optionalChain => optionalChain rules t
    | .unary => unary rules t
    | .update => update rules t
    | .binary => binary rules t
    | .assignment => assignment rules t
    | .conditional => conditional rules t
    | .sequence => sequence rules t
    | .paren => parenthesis rules t
    | .await => wordAndOperand rules "await" t (t.field .argument)
    | .yieldExpression => yieldExpression rules t
    -- patterns
    | .rest => restPattern rules t
    | .arrayPattern => arrayPattern rules t
    | .objectPattern => objectPattern rules t
    | .defaultPattern => defaultPattern rules t
    | .keyValuePattern => keyValuePattern rules t
    | .defaultPatternProperty => defaultPatternProperty rules t
    -- elements
    | .element | .fragment => element rules t
    | .openingElement => openingElement rules t
    | .closingElement => closingElement rules t
    | .openingFragment => fragmentSign "<>" t
    | .closingFragment => fragmentSign "</>" t
    | .elementAttribute => elementAttribute rules t
    | .elementSpread => elementSpread rules .expression t
    | .elementExpression => elementExpression rules t
    | .emptyExpression => leading t
    | .elementText => elementText t
    | .elementMember => elementMember rules t
    | .namespacedName => namespacedName rules t
    -- types
    | .annotatedType => annotatedType rules t
    | .typeArguments => typeArguments rules t
    | .typeParameters => typeParameters rules t
    | .typeParameter => typeParameter rules t
    | .keywordType | .thisType => keywordType t
    | .typeReference => typeReference rules t
    | .typeQuery => typeQuery rules t
    | .heritage => heritage rules t
    | .qualifiedName => qualifiedName rules t
    | .importType => importType rules t
    | .functionType => functionType rules t
    | .constructorType => constructorType rules t
    | .typeLiteral => typeLiteral rules t
    | .arrayType => arrayType rules t
    | .tupleType => tupleType rules t
    | .tupleElement => tupleElement rules t
    | .optionalType => optionalType rules t
    | .restType => restType rules t
    | .unionType => joinedTypes rules "|" t
    | .intersectionType => joinedTypes rules "&" t
    | .conditionalType => conditionalType rules t
    | .inferType => inferType rules t
    | .parenType => parenType rules t
    | .typeOperator => typeOperator rules t
    | .indexedAccess => indexedAccess rules t
    | .mappedType => mappedType rules t
    | .typePredicate => typePredicate rules t
    | .literalType => literalType rules t
    | .asType => asType rules "as" t
    | .satisfiesType => asType rules "satisfies" t
    | .constAssertion => constAssertion rules t
    | .nonNull => nonNull rules t
    | .typeAssertion => typeAssertion rules t
    | .instantiation => instantiation rules t
    | .callSignature => callSignature rules false t
    | .constructSignature => callSignature rules true t
    | .propertySignature => propertySignature rules t
    | .methodSignature => methodSignature rules t
    | .getterSignature => getterSignature rules t
    | .setterSignature => setterSignature rules t
    | .indexSignature => indexSignature rules t
    | .interface => interface rules t
    | .interfaceBody => interfaceBody rules t
    | .typeAlias => typeAlias rules t
    | .enum => enum rules t
    | .enumMember => enumMember rules t
    | .namespaceDeclaration => namespaceDeclaration rules t
    | .nestedNamespace => nestedNamespace rules t
    | .namespaceBlock => namespaceBlock rules t
    | _ => nothing

/-- All rules together, for nodes inside one another up to the given depth. -/
def rulesWithin : (depth : Nat) → Rules
  | 0, _ => nothing
  | depth + 1, t => rule (rulesWithin depth) t

/-- The text of a program with its comments, with or without the blanks that can be left out. -/
def print (compact : Bool) (leading trailing : Comments) (t : Tree) : String :=
  ((rulesWithin t.depth t).run { leading, trailing, compact }).2.text

end PureCalls.Printer
