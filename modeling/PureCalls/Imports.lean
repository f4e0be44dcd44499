import PureCalls.Tree

/-! The bindings that the import declarations of a module introduce. -/
namespace PureCalls

/-- What an identifier denotes: two identifiers with the same name and context are the same binding. -/
structure Binding where
  name : String
  context : Int
  deriving DecidableEq, Repr, Inhabited

/-- The binding that an identifier stands for. -/
def Tree.binding? (t : Tree) : Option Binding :=
  match t with
  | .node .identifier _ fields =>
    match Tree.lookup .value fields, Tree.lookup .ctxt fields with
    | .text name, .number context 0 => some ⟨name, context⟩
    | _, _ => none
  | _ => none

/-- An imported value. The default export has the name `default`, and `*` is the module as a whole. A name, of the
module or of the export, is missing where it is not written in Unicode. -/
structure Import where
  source : Option String
  exported : Option String
  deriving DecidableEq, Repr, Inhabited

/-- The imports of a module by the binding that each introduces, the newest first. -/
abbrev Imports := List (Binding × Import)

namespace Imports

/-- The import that a binding was introduced by. Of several the newest counts. -/
def find? (imports : Imports) (b : Binding) : Option Import :=
  match imports with
  | [] => none
  | (c, i) :: rest => if c = b then some i else find? rest b

/-- The exported name that a specifier asks for, none at all for a specifier of a type. -/
def exportedName? (specifier : Tree) : Option (Option String) :=
  match specifier.kind? with
  | some .importDefault => some (some "default")
  | some .importNamespace => some (some "*")
  | some .importNamed =>
    if specifier.flag .isTypeOnly then none
    else if (specifier.field .imported).isNull then some ((specifier.field .localName).field .value).text?
    else some ((specifier.field .imported).field .value).text?
  | _ => none

/-- Adds the binding of a specifier. -/
def addSpecifier (source : Option String) (imports : Imports) (specifier : Tree) : Imports :=
  match (specifier.field .localName).binding?, exportedName? specifier with
  | some b, some name => (b, ⟨source, name⟩) :: imports
  | _, _ => imports

/-- Adds the bindings of an item of a module. Only a declaration that imports values has some. -/
def addItem (imports : Imports) (item : Tree) : Imports :=
  if item.isKind .importDeclaration && !item.flag .typeOnly then
    (item.field .specifiers).items.foldl (addSpecifier ((item.field .source).field .value).text?) imports
  else imports

/-- The bindings that the items of a module import. -/
def ofModule (program : Tree) : Imports :=
  (program.field .body).items.foldl addItem []

/-- Whether a binding was imported from the module under one of the names. -/
def refersTo (imports : Imports) (b : Binding) (source : String) (names : List String) : Bool :=
  match imports.find? b with
  | some i => i.source = some source && i.exported.any names.contains
  | none => false

end Imports
end PureCalls
