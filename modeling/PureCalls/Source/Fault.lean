/-! What can be wrong with source text. -/
namespace PureCalls.Source

/-- A way in which source text breaks the rules of the language. -/
inductive Fault where
  /-- One sign or word was needed and another token stood there. -/
  | expected (wanted got : String)
  /-- One of several things was needed and another token stood there. -/
  | unexpected (got wanted : String)
  | unexpectedEnd
  | unexpectedCharacter (c : Char)
  | unterminatedString
  | unterminatedTemplate
  | unterminatedRegExp
  | unterminatedComment
  | unterminatedElement
  | badEscape (wanted : String)
  | badUnicodeEscape
  | escapeExpected
  | escapedKeyword (word : String)
  | badNameCharacter
  | digitExpected (base : Nat)
  | exponentExpected
  | legacyOctal
  | legacyDecimal
  | legacyComment
  | separatorOutsideDigits
  | nameAfterNumber
  | repeatedFlag (flag : Char)
  | unknownFlag
  | strictName (name : String)
  | awaitName
  | strictEvalOrArguments
  | strictArguments
  | argumentsInField
  | nameExpected
  | semicolonExpected
  | statementEndExpected
  | expressionExpected
  | uninitializedConstant
  | uninitializedPattern
  | invalidTarget
  | notAssignable
  | invalidPattern
  | invalidAssignee
  | notExpression
  | returnOutsideFunction
  | newTargetOutsideFunction
  | breakOutsideLoop
  | continueOutsideLoop
  | jumpAcrossFunction
  | undefinedLabel
  | repeatedLabel (name : String)
  | repeatedDefault
  | repeatedConstructor
  | breakAfterThrow
  | breakBeforeArrow
  | arrowNotAllowed
  | manyLoopVariables
  | noVariables
  | initializedLoopVariable
  | awaitedLoop
  | annotatedLoopVariable
  | destructuredLoopVariable
  | asyncLoopVariable
  | deletedName
  | deletedNonProperty
  | withInStrict
  | withInTyped
  | mixedNullish
  | unaryInPower
  | emptyParentheses
  | spreadInParentheses
  | defaultInObject
  | reservedShorthand
  | commaAfterRest
  | trailingComma
  | restNotLast
  | restParameterNotLast
  | restWithDefault
  | restOptional
  | restNotName
  | constructorInChain
  | templateInChain
  | importArguments
  | importOutsideModule
  | importNotAllowed
  | metaOutsideModule
  | importedString (name : String)
  | exportedString
  | exportNeedsFrom (name : String)
  | reservedImport
  | emptyAttribute
  | invalidAttributeValue
  | closingTag (name : String)
  | closingFragment
  | setterParameter
  | setterParameterNeeded
  | setterRest
  | getterParameters
  | privateConstructor
  | privateModifier (word : String)
  | privateAccessibility
  | fieldNamedConstructor
  | asyncConstructor
  | generatorConstructor
  | accessorConstructor
  | labeledFunction
  | labeledSpecialFunction
  | declarationNotAllowed
  | yieldParameter
  | awaitParameter
  | awaitOutsideAsync
  | awaitStar
  | strictDirective
  | spaceInPrivateName
  | hashNotAllowed
  | invalidSuper
  | privateInSuper
  | superCallNotAllowed
  | nestedTypeModifier (keyword : String)
  | manyBases
  | repeatedExtends
  | repeatedImplements
  | extendsAfterImplements
  | bodyInAmbient
  | emptyTypeParameters
  | emptyTypeArguments
  | optionalWithDefault
  | optionalProperty
  | defaultInSignature
  | annotationAfterDefault
  | requiredAfterOptional
  | optionalPattern
  | modifierOrder (first second : String)
  | repeatedModifier (word : String)
  | misplacedModifier (word : String)
  | clashingModifiers (first second : String)
  | modifierOfTypeParameter (word : String)
  | modifierOfOtherTypeParameter (word : String)
  | constTypeParameter
  | modifierNotAllowed
  | abstractOutsideAbstract
  | abstractWithBody
  | abstractWithValue
  | overrideWithoutBase
  | parameterPropertyOutsideConstructor
  | parameterPropertyPattern
  | accessorTypeParameters
  | nonNull (word : String)
  | constructorTypeParameters
  | constructorResult
  | constructorModifier (word : String)
  | readonlyMethod
  | readonlyAccessor
  | declareNotAllowed
  | abstractNotAllowed
  | asyncNotAllowed
  | computedEnumMember
  | usingWithoutValue
  | usingPattern
  | usingNotAllowed
  | usingNotEnabled
  | usingInForIn
  | numericEnumMember
  | indexParameters
  | typeExpected
  | invalidInterfaceName
  | invalidClassName
  | invalidBaseName
  | privateInInterface
  | typedNameExpected
  | importedTypeName
  | commaInComputedName
  | decoratorNotAllowed
  | tooDeep
  deriving DecidableEq, Repr

namespace Fault

private def digitKind (base : Nat) : String :=
  match base with
  | 2 => "a binary"
  | 8 => "an octal"
  | 10 => "a decimal"
  | _ => "a hexadecimal"

/-- The characters without a sign of their own, as ranges of code points. -/
private def unseen : List (Nat × Nat) :=
  [(0, 0x1F), (0x7F, 0xA0), (0xAD, 0xAD), (0x300, 0x36F), (0x600, 0x605), (0x61C, 0x61C), (0x1680, 0x1680),
   (0x180E, 0x180E), (0x2000, 0x200F), (0x2028, 0x202F), (0x205F, 0x206F), (0x20D0, 0x20F0), (0x3000, 0x3000),
   (0xE000, 0xF8FF), (0xFE00, 0xFE0F), (0xFE20, 0xFE2F), (0xFEFF, 0xFEFF), (0xFFF0, 0xFFFB), (0xFFFE, 0xFFFF),
   (0xE0000, 0x10FFFF)]

/-- A character between quotes. One that cannot be seen is spelled by its number. -/
private def shownCharacter (c : Char) : String :=
  let n := c.toNat
  let inner :=
    match c with
    | '\x00' => "\\0"
    | '\t' => "\\t"
    | '\n' => "\\n"
    | '\r' => "\\r"
    | '\'' => "\\'"
    | '\\' => "\\\\"
    | _ =>
      if unseen.any fun (first, last) => first ≤ n && n ≤ last then
        "\\u\x7b" ++ String.ofList (Nat.toDigits 16 n) ++ "\x7d"
      else c.toString
  "'" ++ inner ++ "'"

/-- What is said of a fault. -/
def message : Fault → String
  | .expected wanted got => "Expected " ++ wanted ++ ", got " ++ got
  | .unexpected got wanted => "Unexpected token \x60" ++ got ++ "\x60. Expected " ++ wanted
  | .unexpectedEnd => "Unexpected eof"
  | .unexpectedCharacter c => "Unexpected character " ++ shownCharacter c
  | .unterminatedString => "Unterminated string constant"
  | .unterminatedTemplate => "Unterminated template"
  | .unterminatedRegExp => "Unterminated regexp literal"
  | .unterminatedComment => "Unterminated block comment"
  | .unterminatedElement => "Unterminated JSX contents"
  | .badEscape wanted => "Bad character escape sequence, expected " ++ wanted
  | .badUnicodeEscape => "Invalid unicode escape"
  | .escapeExpected => "Expected unicode escape"
  | .escapedKeyword word => "Unexpected escape sequence in reserved word: " ++ word
  | .badNameCharacter => "Invalid character in identifier"
  | .digitExpected base => "Expected " ++ digitKind base ++ " digit"
  | .exponentExpected => "Expected +, - or decimal digit after e"
  | .legacyOctal => "Legacy octal escape is not permitted in strict mode"
  | .legacyDecimal => "Legacy decimal escape is not permitted in strict mode"
  | .legacyComment => "Legacy comments cannot be used in module code"
  | .separatorOutsideDigits => "A numeric separator is only allowed between two digits"
  | .nameAfterNumber => "Identifier cannot follow number"
  | .repeatedFlag flag => "Duplicated regular expression flag '" ++ flag.toString ++ "'."
  | .unknownFlag => "Unknown regular expression flags."
  | .strictName name => "\x60" ++ name ++ "\x60 cannot be used as an identifier in strict mode"
  | .awaitName => "\x60await\x60 cannot be used as an identifier in an async context"
  | .strictEvalOrArguments => "'eval' and 'arguments' cannot be used as a binding identifier in strict mode"
  | .strictArguments => "Invalid use of 'arguments' in strict mode"
  | .argumentsInField => "'arguments' is only allowed in functions and class methods"
  | .nameExpected => "Expected ident"
  | .semicolonExpected => "Expected a semicolon"
  | .statementEndExpected => "Expected ';', '\x7d' or <eof>"
  | .expressionExpected => "Expression expected"
  | .uninitializedConstant => "'const' declarations must be initialized"
  | .uninitializedPattern => "Destructuring bindings require initializers"
  | .invalidTarget => "The left-hand side of an assignment expression must be a variable or a property access."
  | .notAssignable => "Cannot assign to this"
  | .invalidPattern => "Not a pattern"
  | .invalidAssignee => "Invalid assignment target"
  | .notExpression => "Not an expression"
  | .returnOutsideFunction => "Return statement is not allowed here"
  | .newTargetOutsideFunction =>
    "'new.target' is only allowed in the body of a function declaration, function expression, or class."
  | .breakOutsideLoop => "A 'break' statement can only be used within an enclosing iteration or switch statement"
  | .continueOutsideLoop =>
    "A 'continue' statement can only jump to a label of an enclosing iteration statement"
  | .jumpAcrossFunction => "Jump target cannot cross function boundary"
  | .undefinedLabel => "A 'break' statement can only jump to a label of an enclosing statement"
  | .repeatedLabel name => "Label " ++ name ++ " is already declared"
  | .repeatedDefault => "A switch block cannot have multiple defaults"
  | .repeatedConstructor => "A class can only have one constructor"
  | .breakAfterThrow => "LineBreak cannot follow 'throw'"
  | .breakBeforeArrow => "Unexpected line break between arrow head and arrow"
  | .arrowNotAllowed => "An arrow function is not allowed here"
  | .manyLoopVariables => "Expected one variable binding"
  | .noVariables => "Variable declaration list cannot be empty"
  | .initializedLoopVariable => "Unexpected initializer in for in/of loop"
  | .awaitedLoop => "for await syntax is valid only for for-of statement"
  | .annotatedLoopVariable => "The left-hand side of a 'for...of' statement cannot use a type annotation"
  | .destructuredLoopVariable =>
    "The left-hand side of a 'for...in' statement cannot be a destructuring pattern"
  | .asyncLoopVariable => "The left-hand side of a \x60for...of\x60 statement may not be \x60async\x60"
  | .deletedName => "'delete' cannot be called on an identifier in strict mode"
  | .deletedNonProperty => "The operand of a 'delete' operator must be a property reference."
  | .withInStrict => "With statement are not allowed in strict mode"
  | .withInTyped =>
    "The 'with' statement is not supported. All symbols in a 'with' block will have type 'any'."
  | .mixedNullish => "Nullish coalescing operator(??) requires parens when mixing with logical operators"
  | .unaryInPower => "** cannot be applied to unary operator"
  | .emptyParentheses => "Parenthesized expression cannot be empty"
  | .spreadInParentheses => "Parenthesized expression cannot contain spread operator"
  | .defaultInObject => "assignment property is invalid syntax"
  | .reservedShorthand => "Cannot use a reserved word as a shorthand property"
  | .commaAfterRest => "Trailing comma isn't permitted after a rest element"
  | .trailingComma => "Trailing comma is not allowed"
  | .restNotLast => "Rest element must be final element"
  | .restParameterNotLast => "A rest parameter must be last in a parameter list"
  | .restWithDefault => "A rest parameter cannot have an initializer"
  | .restOptional => "A rest parameter cannot be optional"
  | .restNotName => "\x60...\x60 must be followed by an identifier in declaration contexts"
  | .constructorInChain => "Constructor in/after an optional chaining is not allowed."
  | .templateInChain => "Tagged template literal is not allowed in optional chain."
  | .importArguments => "\x60import()\x60 requires exactly one or two arguments"
  | .importOutsideModule => "'import', and 'export' cannot be used outside of module code"
  | .importNotAllowed => "Import is not allowed here"
  | .metaOutsideModule => "'import.meta' cannot be used outside of module code."
  | .importedString name =>
    "A string literal cannot be used as an imported binding.\n- Did you mean \x60import \x7b \"" ++ name ++
      "\" as foo \x7d\x60?"
  | .exportedString => "A string literal cannot be used as an exported binding without \x60from\x60."
  | .exportNeedsFrom name => "\x60" ++ name ++ "\x60 cannot be used without \x60from\x60 clause"
  | .reservedImport => "cannot import as reserved word"
  | .emptyAttribute => "JSX attributes must only be assigned a non-empty expression"
  | .invalidAttributeValue => "JSX value should be either an expression or a quoted JSX text"
  | .closingTag name => "Expected corresponding JSX closing tag for <" ++ name ++ ">"
  | .closingFragment => "Expected corresponding JSX closing tag for <>"
  | .setterParameter => "A \x60set\x60 accessor must have exactly one parameter"
  | .setterParameterNeeded => "Setter should have exactly one parameter"
  | .setterRest => "Rest pattern is not allowed in setter"
  | .getterParameters => "A \x60get\x60 accessor cannot have parameters"
  | .privateConstructor => "Classes can't have a private field named '#constructor'."
  | .privateModifier word => "'" ++ word ++ "' modifier cannot be used with a private identifier"
  | .privateAccessibility => "An accessibility modifier cannot be used with a private identifier."
  | .fieldNamedConstructor => "Classes may not have a non-static field named 'constructor'"
  | .asyncConstructor => "Constructor can't be an async function"
  | .generatorConstructor => "Constructor can't be a generator"
  | .accessorConstructor => "Class constructor can't be an accessor"
  | .labeledFunction => "Function cannot be labelled in strict mode"
  | .labeledSpecialFunction => "Generator or async function cannot be labelled"
  | .declarationNotAllowed => "Declaration is not allowed"
  | .yieldParameter => "'yield' cannot be used as a parameter within generator"
  | .awaitParameter => "\x60await\x60 expressions cannot be used in a parameter initializer."
  | .awaitOutsideAsync => "await isn't allowed in non-async function"
  | .awaitStar =>
    "await* has been removed from the async functions proposal. Use Promise.all() instead."
  | .strictDirective => "Illegal 'use strict' directive in function with non-simple parameter list."
  | .spaceInPrivateName => "Unexpected space between # and identifier"
  | .hashNotAllowed => "Unexpected token '#'"
  | .invalidSuper => "Invalid access to super"
  | .privateInSuper => "Index super with private name is not allowed"
  | .superCallNotAllowed => "Invalid \x60super()\x60"
  | .nestedTypeModifier keyword =>
    "The 'type' modifier cannot be used on a named " ++ keyword ++ " when '" ++ keyword ++
      " type' is used on its " ++ keyword ++ " statement."
  | .manyBases => "Classes can only extend a single class"
  | .repeatedExtends => "\x60extends\x60 clause already seen."
  | .repeatedImplements => "\x60implements\x60 clause already seen"
  | .extendsAfterImplements => "'extends' clause must precede 'implements' clause."
  | .bodyInAmbient => "An implementation cannot be declared in ambient contexts"
  | .emptyTypeParameters => "Type parameter list cannot be empty"
  | .emptyTypeArguments => "Type argument list cannot be empty."
  | .optionalWithDefault => "Parameter cannot have question mark and initializer"
  | .optionalProperty => "An object member cannot be declared optional"
  | .defaultInSignature =>
    "A parameter initializer is only allowed in a function or constructor implementation"
  | .annotationAfterDefault => "Type annotations must come before default assignments"
  | .requiredAfterOptional => "A required element cannot follow an optional element."
  | .optionalPattern => "A binding pattern parameter cannot be optional in an implementation signature."
  | .modifierOrder first second => "'" ++ first ++ "' modifier must precede '" ++ second ++ "' modifier."
  | .repeatedModifier word => "'" ++ word ++ "' modifier already seen."
  | .misplacedModifier word => "'" ++ word ++ "' modifier cannot be used here."
  | .clashingModifiers first second =>
    "'" ++ first ++ "' modifier cannot be used with '" ++ second ++ "' modifier."
  | .modifierOfTypeParameter word => "'" ++ word ++ "' modifier cannot appear on a type parameter"
  | .modifierOfOtherTypeParameter word => "'" ++ word ++
    "' modifier can only appear on a type parameter of a class, interface or type alias"
  | .constTypeParameter =>
    "'const' modifier can only appear on a type parameter of a function, method or class"
  | .modifierNotAllowed => "Modifiers cannot appear here"
  | .abstractOutsideAbstract => "Abstract methods can only appear within an abstract class."
  | .abstractWithBody => "Abstract method cannot have an implementation because it is marked abstract."
  | .abstractWithValue => "Property cannot have an initializer because it is marked abstract."
  | .overrideWithoutBase =>
    "This member cannot have an 'override' modifier because its containing class does not extend another class."
  | .parameterPropertyOutsideConstructor =>
    "A parameter property is only allowed in a constructor implementation"
  | .parameterPropertyPattern => "Typescript parameter property must be an identifier or assignment pattern"
  | .accessorTypeParameters => "An accessor cannot have type parameters"
  | .nonNull word => "Typescript non-null assertion operator is not allowed with '" ++ word ++ "'"
  | .constructorTypeParameters => "Type parameters cannot appear on a constructor declaration"
  | .constructorResult => "Type annotation cannot appear on a constructor declaration"
  | .constructorModifier word => "'" ++ word ++ "' modifier cannot appear on a constructor declaration"
  | .readonlyMethod => "A method cannot be readonly"
  | .readonlyAccessor => "A getter or a setter cannot be readonly"
  | .declareNotAllowed => "\x60declare\x60 modifier cannot appear on class elements of this kind"
  | .abstractNotAllowed => "\x60abstract\x60 modifier can only appear on a class or method declaration"
  | .asyncNotAllowed => "\x60async\x60 modifier cannot be used here"
  | .computedEnumMember => "Computed property names are not allowed in enums"
  | .usingWithoutValue => "Using declaration requires initializer"
  | .usingPattern => "Using declaration only allows identifiers"
  | .usingNotAllowed => "Using declaration is not allowed"
  | .usingNotEnabled =>
    "Using declaration is not enabled. Set jsc.parser.explicitResourceManagement to true"
  | .usingInForIn => "Using declaration is not allowed in for-in loop"
  | .numericEnumMember => "An enum member cannot have a numeric name"
  | .indexParameters => "An index signature must have exactly one parameter"
  | .typeExpected => "Type expected"
  | .invalidInterfaceName => "interface name is invalid"
  | .invalidClassName => "Invalid class name"
  | .invalidBaseName =>
    "An interface can only extend an identifier/qualified-name with optional type arguments."
  | .privateInInterface => "private names are not allowed in interface"
  | .typedNameExpected => "Expected an identifier"
  | .importedTypeName => "literal in an import type should be string literal"
  | .commaInComputedName => "A comma expression is not allowed in a computed property name"
  | .decoratorNotAllowed => "Decorators are not valid here"
  | .tooDeep => "Expression nested too deeply"

end Fault
end PureCalls.Source
