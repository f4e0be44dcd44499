/-! The fields of syntax nodes, and the order in which a walk visits them. -/
namespace PureCalls

/-- A field of a node, by its name in the tree format. -/
structure Field where
  name : String
  deriving DecidableEq, Repr, Inhabited

namespace Field

def spread : Field := ⟨"spread"⟩
def rest : Field := ⟨"rest"⟩
def label : Field := ⟨"label"⟩
def space : Field := ⟨"namespace"⟩
def identifier : Field := ⟨"identifier"⟩
def id : Field := ⟨"id"⟩
def localName : Field := ⟨"local"⟩
def imported : Field := ⟨"imported"⟩
def orig : Field := ⟨"orig"⟩
def exported : Field := ⟨"exported"⟩
def named : Field := ⟨"name"⟩
def key : Field := ⟨"key"⟩
def init : Field := ⟨"init"⟩
def discriminant : Field := ⟨"discriminant"⟩
def callee : Field := ⟨"callee"⟩
def tag : Field := ⟨"tag"⟩
def object : Field := ⟨"object"⟩
def left : Field := ⟨"left"⟩
def right : Field := ⟨"right"⟩
def value : Field := ⟨"value"⟩
def test : Field := ⟨"test"⟩
def consequent : Field := ⟨"consequent"⟩
def alternate : Field := ⟨"alternate"⟩
def update : Field := ⟨"update"⟩
def opening : Field := ⟨"opening"⟩
def children : Field := ⟨"children"⟩
def closing : Field := ⟨"closing"⟩
def attributes : Field := ⟨"attributes"⟩
def members : Field := ⟨"members"⟩
def moduleRef : Field := ⟨"moduleRef"⟩
def specifiers : Field := ⟨"specifiers"⟩
def source : Field := ⟨"source"⟩
def withClause : Field := ⟨"with"⟩
def elements : Field := ⟨"elements"⟩
def properties : Field := ⟨"properties"⟩
def property : Field := ⟨"property"⟩
def argument : Field := ⟨"argument"⟩
def arguments : Field := ⟨"arguments"⟩
def expression : Field := ⟨"expression"⟩
def expressions : Field := ⟨"expressions"⟩
def quasis : Field := ⟨"quasis"⟩
def parameters : Field := ⟨"parameters"⟩
def params : Field := ⟨"params"⟩
def exprName : Field := ⟨"exprName"⟩
def typeName : Field := ⟨"typeName"⟩
def checkType : Field := ⟨"checkType"⟩
def extendsType : Field := ⟨"extendsType"⟩
def trueType : Field := ⟨"trueType"⟩
def falseType : Field := ⟨"falseType"⟩
def objectType : Field := ⟨"objectType"⟩
def indexType : Field := ⟨"indexType"⟩
def nameType : Field := ⟨"nameType"⟩
def ofType : Field := ⟨"typeAnnotation"⟩
def extended : Field := ⟨"extends"⟩
def decorators : Field := ⟨"decorators"⟩
def thisParam : Field := ⟨"thisParam"⟩
def param : Field := ⟨"param"⟩
def pat : Field := ⟨"pat"⟩
def function : Field := ⟨"function"⟩
def block : Field := ⟨"block"⟩
def handler : Field := ⟨"handler"⟩
def finalizer : Field := ⟨"finalizer"⟩
def cases : Field := ⟨"cases"⟩
def declaration : Field := ⟨"declaration"⟩
/-- What a default export declares. -/
def declared : Field := ⟨"decl"⟩
def declarations : Field := ⟨"declarations"⟩
def base : Field := ⟨"base"⟩
def body : Field := ⟨"body"⟩
def superClass : Field := ⟨"superClass"⟩
def typeParameters : Field := ⟨"typeParameters"⟩
def typeParams : Field := ⟨"typeParams"⟩
def typeArguments : Field := ⟨"typeArguments"⟩
def template : Field := ⟨"template"⟩
def returnType : Field := ⟨"returnType"⟩
def superTypeParams : Field := ⟨"superTypeParams"⟩
def implements : Field := ⟨"implements"⟩
def accessibility : Field := ⟨"accessibility"⟩
def isAsync : Field := ⟨"async"⟩
def isAwait : Field := ⟨"await"⟩
def computed : Field := ⟨"computed"⟩
def cooked : Field := ⟨"cooked"⟩
def ctxt : Field := ⟨"ctxt"⟩
def isDeclare : Field := ⟨"declare"⟩
def delegate : Field := ⟨"delegate"⟩
def definite : Field := ⟨"definite"⟩
def flags : Field := ⟨"flags"⟩
def generator : Field := ⟨"generator"⟩
def isGlobal : Field := ⟨"global"⟩
def isAbstract : Field := ⟨"isAbstract"⟩
def isConst : Field := ⟨"isConst"⟩
def isExport : Field := ⟨"isExport"⟩
def isOptional : Field := ⟨"isOptional"⟩
def isOverride : Field := ⟨"isOverride"⟩
def isStatic : Field := ⟨"isStatic"⟩
def isTypeOnly : Field := ⟨"isTypeOnly"⟩
def kind : Field := ⟨"kind"⟩
def metaName : Field := ⟨"meta"⟩
def operator : Field := ⟨"operator"⟩
def optional : Field := ⟨"optional"⟩
def override : Field := ⟨"override"⟩
def isPrefix : Field := ⟨"prefix"⟩
def pattern : Field := ⟨"pattern"⟩
def raw : Field := ⟨"raw"⟩
def readonly : Field := ⟨"readonly"⟩
def tail : Field := ⟨"tail"⟩
def typeOnly : Field := ⟨"typeOnly"⟩
def interpreter : Field := ⟨"interpreter"⟩
def selfClosing : Field := ⟨"selfClosing"⟩
def stmts : Field := ⟨"stmts"⟩
def types : Field := ⟨"types"⟩
def qualifier : Field := ⟨"qualifier"⟩
def plus : Field := ⟨"plus"⟩
def minus : Field := ⟨"minus"⟩
def asserts : Field := ⟨"asserts"⟩
def typeParam : Field := ⟨"typeParam"⟩
def constraint : Field := ⟨"constraint"⟩
def defaultType : Field := ⟨"default"⟩
def elemTypes : Field := ⟨"elemTypes"⟩
def elemType : Field := ⟨"elemType"⟩
def exprType : Field := ⟨"exprType"⟩
def isConstParam : Field := ⟨"const"⟩
def isIn : Field := ⟨"in"⟩
def isOut : Field := ⟨"out"⟩
def phase : Field := ⟨"phase"⟩
def method : Field := ⟨"method"⟩
def elementType : Field := ⟨"elementType"⟩
def isTypeOf : Field := ⟨"isTypeOf"⟩
def paramName : Field := ⟨"paramName"⟩
def literal : Field := ⟨"literal"⟩
/-- Whether a comma stands behind the last item. -/
def trailingComma : Field := ⟨"trailingComma"⟩

/-- The fields that hold nodes, in the order in which they are visited. One list serves every kind: no two kinds
visit the same two fields in different orders. -/
def visited : List Field :=
  [spread, rest, label, space, identifier, id, localName, imported, orig, exported, named, key, init,
   discriminant, callee, tag, object, left, right, value, test, consequent, alternate, update, opening,
   children, closing, attributes, stmts, members, moduleRef, specifiers, source, withClause, elements, properties,
   property, argument, arguments, expression, expressions, quasis, params, parameters, exprName, typeName, checkType,
   extendsType, trueType, falseType, objectType, indexType, nameType, ofType, extended, decorators,
   thisParam, param, pat, function, block, handler, finalizer, cases, declaration, declared, declarations, base, body,
   superClass, typeParameters, typeParams, typeArguments, template, returnType, superTypeParams, implements]

/-- The place of a field in a walk. Fields without nodes come last. -/
def rank (f : Field) : Nat :=
  visited.idxOf f

end Field
end PureCalls
