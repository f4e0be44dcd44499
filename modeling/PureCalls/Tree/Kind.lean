/-! The kinds of syntax nodes. A kind is its name in the tree format, so a walk meets no node it has no kind for. -/
namespace PureCalls

/-- What a node of a syntax tree is. -/
structure Kind where
  name : String
  deriving DecidableEq, Repr, Inhabited

namespace Kind

/-- An object of the tree format that has no name, such as the holder of an argument and its spread. -/
@[match_pattern] def plain : Kind := ⟨""⟩

-- Programs
@[match_pattern] def moduleProgram : Kind := ⟨"Module"⟩
@[match_pattern] def script : Kind := ⟨"Script"⟩

-- Statements
@[match_pattern] def block : Kind := ⟨"BlockStatement"⟩
@[match_pattern] def empty : Kind := ⟨"EmptyStatement"⟩
@[match_pattern] def debugger : Kind := ⟨"DebuggerStatement"⟩
@[match_pattern] def withStatement : Kind := ⟨"WithStatement"⟩
@[match_pattern] def returnStatement : Kind := ⟨"ReturnStatement"⟩
@[match_pattern] def labeled : Kind := ⟨"LabeledStatement"⟩
@[match_pattern] def breakStatement : Kind := ⟨"BreakStatement"⟩
@[match_pattern] def continueStatement : Kind := ⟨"ContinueStatement"⟩
@[match_pattern] def ifStatement : Kind := ⟨"IfStatement"⟩
@[match_pattern] def switch : Kind := ⟨"SwitchStatement"⟩
@[match_pattern] def switchCase : Kind := ⟨"SwitchCase"⟩
@[match_pattern] def throwStatement : Kind := ⟨"ThrowStatement"⟩
@[match_pattern] def tryStatement : Kind := ⟨"TryStatement"⟩
@[match_pattern] def catchClause : Kind := ⟨"CatchClause"⟩
@[match_pattern] def whileLoop : Kind := ⟨"WhileStatement"⟩
@[match_pattern] def doWhile : Kind := ⟨"DoWhileStatement"⟩
@[match_pattern] def forLoop : Kind := ⟨"ForStatement"⟩
@[match_pattern] def forIn : Kind := ⟨"ForInStatement"⟩
@[match_pattern] def forOf : Kind := ⟨"ForOfStatement"⟩
@[match_pattern] def expressionStatement : Kind := ⟨"ExpressionStatement"⟩

-- Declarations
@[match_pattern] def classDeclaration : Kind := ⟨"ClassDeclaration"⟩
@[match_pattern] def functionDeclaration : Kind := ⟨"FunctionDeclaration"⟩
@[match_pattern] def variableDeclaration : Kind := ⟨"VariableDeclaration"⟩
@[match_pattern] def declarator : Kind := ⟨"VariableDeclarator"⟩
@[match_pattern] def usingDeclaration : Kind := ⟨"UsingDeclaration"⟩

-- Imports and exports
@[match_pattern] def importDeclaration : Kind := ⟨"ImportDeclaration"⟩
@[match_pattern] def importNamed : Kind := ⟨"ImportSpecifier"⟩
@[match_pattern] def importDefault : Kind := ⟨"ImportDefaultSpecifier"⟩
@[match_pattern] def importNamespace : Kind := ⟨"ImportNamespaceSpecifier"⟩
@[match_pattern] def exportDeclaration : Kind := ⟨"ExportDeclaration"⟩
@[match_pattern] def exportNamed : Kind := ⟨"ExportNamedDeclaration"⟩
@[match_pattern] def exportSpecifier : Kind := ⟨"ExportSpecifier"⟩
@[match_pattern] def exportNamespaceSpecifier : Kind := ⟨"ExportNamespaceSpecifier"⟩
@[match_pattern] def exportDefaultSpecifier : Kind := ⟨"ExportDefaultSpecifier"⟩
@[match_pattern] def exportDefaultDeclaration : Kind := ⟨"ExportDefaultDeclaration"⟩
@[match_pattern] def exportDefaultExpression : Kind := ⟨"ExportDefaultExpression"⟩
@[match_pattern] def exportAll : Kind := ⟨"ExportAllDeclaration"⟩

-- Expressions
@[match_pattern] def thisExpression : Kind := ⟨"ThisExpression"⟩
@[match_pattern] def array : Kind := ⟨"ArrayExpression"⟩
@[match_pattern] def object : Kind := ⟨"ObjectExpression"⟩
@[match_pattern] def function : Kind := ⟨"FunctionExpression"⟩
@[match_pattern] def unary : Kind := ⟨"UnaryExpression"⟩
@[match_pattern] def update : Kind := ⟨"UpdateExpression"⟩
@[match_pattern] def binary : Kind := ⟨"BinaryExpression"⟩
@[match_pattern] def assignment : Kind := ⟨"AssignmentExpression"⟩
@[match_pattern] def member : Kind := ⟨"MemberExpression"⟩
@[match_pattern] def superMember : Kind := ⟨"SuperPropExpression"⟩
@[match_pattern] def conditional : Kind := ⟨"ConditionalExpression"⟩
@[match_pattern] def call : Kind := ⟨"CallExpression"⟩
@[match_pattern] def newExpression : Kind := ⟨"NewExpression"⟩
@[match_pattern] def sequence : Kind := ⟨"SequenceExpression"⟩
@[match_pattern] def identifier : Kind := ⟨"Identifier"⟩
@[match_pattern] def template : Kind := ⟨"TemplateLiteral"⟩
@[match_pattern] def templateElement : Kind := ⟨"TemplateElement"⟩
@[match_pattern] def tagged : Kind := ⟨"TaggedTemplateExpression"⟩
@[match_pattern] def arrow : Kind := ⟨"ArrowFunctionExpression"⟩
@[match_pattern] def classExpression : Kind := ⟨"ClassExpression"⟩
@[match_pattern] def yieldExpression : Kind := ⟨"YieldExpression"⟩
@[match_pattern] def metaProperty : Kind := ⟨"MetaProperty"⟩
@[match_pattern] def await : Kind := ⟨"AwaitExpression"⟩
@[match_pattern] def paren : Kind := ⟨"ParenthesisExpression"⟩
@[match_pattern] def optionalChain : Kind := ⟨"OptionalChainingExpression"⟩
@[match_pattern] def optionalCall : Kind := ⟨"OptionalCall"⟩
@[match_pattern] def superCallee : Kind := ⟨"Super"⟩
@[match_pattern] def importCallee : Kind := ⟨"Import"⟩
@[match_pattern] def computed : Kind := ⟨"Computed"⟩
@[match_pattern] def privateName : Kind := ⟨"PrivateName"⟩

-- Literals
@[match_pattern] def string : Kind := ⟨"StringLiteral"⟩
@[match_pattern] def boolean : Kind := ⟨"BooleanLiteral"⟩
@[match_pattern] def nullLiteral : Kind := ⟨"NullLiteral"⟩
@[match_pattern] def number : Kind := ⟨"NumericLiteral"⟩
@[match_pattern] def bigInt : Kind := ⟨"BigIntLiteral"⟩
@[match_pattern] def regExp : Kind := ⟨"RegExpLiteral"⟩

-- Members of objects and classes
@[match_pattern] def keyValue : Kind := ⟨"KeyValueProperty"⟩
@[match_pattern] def method : Kind := ⟨"MethodProperty"⟩
@[match_pattern] def getter : Kind := ⟨"GetterProperty"⟩
@[match_pattern] def setter : Kind := ⟨"SetterProperty"⟩
@[match_pattern] def assignmentProperty : Kind := ⟨"AssignmentProperty"⟩
@[match_pattern] def spread : Kind := ⟨"SpreadElement"⟩
@[match_pattern] def classConstructor : Kind := ⟨"Constructor"⟩
@[match_pattern] def classMethod : Kind := ⟨"ClassMethod"⟩
@[match_pattern] def privateMethod : Kind := ⟨"PrivateMethod"⟩
@[match_pattern] def classProperty : Kind := ⟨"ClassProperty"⟩
@[match_pattern] def privateProperty : Kind := ⟨"PrivateProperty"⟩
@[match_pattern] def staticBlock : Kind := ⟨"StaticBlock"⟩
@[match_pattern] def autoAccessor : Kind := ⟨"AutoAccessor"⟩
@[match_pattern] def parameter : Kind := ⟨"Parameter"⟩
@[match_pattern] def parameterProperty : Kind := ⟨"TsParameterProperty"⟩
@[match_pattern] def decorator : Kind := ⟨"Decorator"⟩

-- Patterns
@[match_pattern] def arrayPattern : Kind := ⟨"ArrayPattern"⟩
@[match_pattern] def objectPattern : Kind := ⟨"ObjectPattern"⟩
@[match_pattern] def rest : Kind := ⟨"RestElement"⟩
@[match_pattern] def defaultPattern : Kind := ⟨"AssignmentPattern"⟩
@[match_pattern] def defaultPatternProperty : Kind := ⟨"AssignmentPatternProperty"⟩
@[match_pattern] def keyValuePattern : Kind := ⟨"KeyValuePatternProperty"⟩

-- Elements
@[match_pattern] def element : Kind := ⟨"JSXElement"⟩
@[match_pattern] def openingElement : Kind := ⟨"JSXOpeningElement"⟩
@[match_pattern] def closingElement : Kind := ⟨"JSXClosingElement"⟩
@[match_pattern] def fragment : Kind := ⟨"JSXFragment"⟩
@[match_pattern] def openingFragment : Kind := ⟨"JSXOpeningFragment"⟩
@[match_pattern] def closingFragment : Kind := ⟨"JSXClosingFragment"⟩
@[match_pattern] def elementAttribute : Kind := ⟨"JSXAttribute"⟩
@[match_pattern] def elementText : Kind := ⟨"JSXText"⟩
@[match_pattern] def elementExpression : Kind := ⟨"JSXExpressionContainer"⟩
@[match_pattern] def emptyExpression : Kind := ⟨"JSXEmptyExpression"⟩
@[match_pattern] def elementSpread : Kind := ⟨"JSXSpreadChild"⟩
@[match_pattern] def elementMember : Kind := ⟨"JSXMemberExpression"⟩
@[match_pattern] def namespacedName : Kind := ⟨"JSXNamespacedName"⟩

-- Expressions around a type
@[match_pattern] def asType : Kind := ⟨"TsAsExpression"⟩
@[match_pattern] def satisfiesType : Kind := ⟨"TsSatisfiesExpression"⟩
@[match_pattern] def constAssertion : Kind := ⟨"TsConstAssertion"⟩
@[match_pattern] def nonNull : Kind := ⟨"TsNonNullExpression"⟩
@[match_pattern] def instantiation : Kind := ⟨"TsInstantiation"⟩
@[match_pattern] def typeAssertion : Kind := ⟨"TsTypeAssertion"⟩

-- Declarations of types and namespaces
@[match_pattern] def enum : Kind := ⟨"TsEnumDeclaration"⟩
@[match_pattern] def enumMember : Kind := ⟨"TsEnumMember"⟩
@[match_pattern] def interface : Kind := ⟨"TsInterfaceDeclaration"⟩
@[match_pattern] def interfaceBody : Kind := ⟨"TsInterfaceBody"⟩
@[match_pattern] def typeAlias : Kind := ⟨"TsTypeAliasDeclaration"⟩
@[match_pattern] def namespaceDeclaration : Kind := ⟨"TsModuleDeclaration"⟩
@[match_pattern] def namespaceBlock : Kind := ⟨"TsModuleBlock"⟩
@[match_pattern] def nestedNamespace : Kind := ⟨"TsNamespaceDeclaration"⟩
@[match_pattern] def importEquals : Kind := ⟨"TsImportEqualsDeclaration"⟩
@[match_pattern] def externalModule : Kind := ⟨"TsExternalModuleReference"⟩
@[match_pattern] def exportAssignment : Kind := ⟨"TsExportAssignment"⟩
@[match_pattern] def namespaceExport : Kind := ⟨"TsNamespaceExportDeclaration"⟩
@[match_pattern] def heritage : Kind := ⟨"TsExpressionWithTypeArguments"⟩

-- Types
@[match_pattern] def annotatedType : Kind := ⟨"TsTypeAnnotation"⟩
@[match_pattern] def typeParameters : Kind := ⟨"TsTypeParameterDeclaration"⟩
@[match_pattern] def typeParameter : Kind := ⟨"TsTypeParameter"⟩
@[match_pattern] def typeArguments : Kind := ⟨"TsTypeParameterInstantiation"⟩
@[match_pattern] def keywordType : Kind := ⟨"TsKeywordType"⟩
@[match_pattern] def thisType : Kind := ⟨"TsThisType"⟩
@[match_pattern] def functionType : Kind := ⟨"TsFunctionType"⟩
@[match_pattern] def constructorType : Kind := ⟨"TsConstructorType"⟩
@[match_pattern] def typeReference : Kind := ⟨"TsTypeReference"⟩
@[match_pattern] def typeQuery : Kind := ⟨"TsTypeQuery"⟩
@[match_pattern] def typeLiteral : Kind := ⟨"TsTypeLiteral"⟩
@[match_pattern] def arrayType : Kind := ⟨"TsArrayType"⟩
@[match_pattern] def tupleType : Kind := ⟨"TsTupleType"⟩
@[match_pattern] def tupleElement : Kind := ⟨"TsTupleElement"⟩
@[match_pattern] def optionalType : Kind := ⟨"TsOptionalType"⟩
@[match_pattern] def restType : Kind := ⟨"TsRestType"⟩
@[match_pattern] def unionType : Kind := ⟨"TsUnionType"⟩
@[match_pattern] def intersectionType : Kind := ⟨"TsIntersectionType"⟩
@[match_pattern] def conditionalType : Kind := ⟨"TsConditionalType"⟩
@[match_pattern] def inferType : Kind := ⟨"TsInferType"⟩
@[match_pattern] def parenType : Kind := ⟨"TsParenthesizedType"⟩
@[match_pattern] def typeOperator : Kind := ⟨"TsTypeOperator"⟩
@[match_pattern] def indexedAccess : Kind := ⟨"TsIndexedAccessType"⟩
@[match_pattern] def mappedType : Kind := ⟨"TsMappedType"⟩
@[match_pattern] def literalType : Kind := ⟨"TsLiteralType"⟩
@[match_pattern] def templateType : Kind := ⟨"TsTemplateLiteralType"⟩
@[match_pattern] def typePredicate : Kind := ⟨"TsTypePredicate"⟩
@[match_pattern] def importType : Kind := ⟨"TsImportType"⟩
@[match_pattern] def qualifiedName : Kind := ⟨"TsQualifiedName"⟩
@[match_pattern] def propertySignature : Kind := ⟨"TsPropertySignature"⟩
@[match_pattern] def methodSignature : Kind := ⟨"TsMethodSignature"⟩
@[match_pattern] def getterSignature : Kind := ⟨"TsGetterSignature"⟩
@[match_pattern] def setterSignature : Kind := ⟨"TsSetterSignature"⟩
@[match_pattern] def callSignature : Kind := ⟨"TsCallSignatureDeclaration"⟩
@[match_pattern] def constructSignature : Kind := ⟨"TsConstructSignatureDeclaration"⟩
@[match_pattern] def indexSignature : Kind := ⟨"TsIndexSignature"⟩

/-- The nodes that hold types only. A walk over values does not enter them. -/
def isType (k : Kind) : Bool :=
  k = annotatedType || k = typeArguments || k = typeParameters || k = typeAlias || k = interface ||
    k = heritage

/-- The name under which the tree format shows a kind. The call at the end of an optional chain is shown like
any other call. -/
def shown (k : Kind) : String :=
  if k = optionalCall then call.name else k.name

end Kind
end PureCalls
