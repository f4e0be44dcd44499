import Mathlib.Logic.Equiv.Basic
import PureCalls.Proofs.Matching
import PureCalls.Proofs.Translation

/-! Runs over a program whose bindings have other names. What is marked depends on which binding an identifier denotes
and on the exported names, so a run over the program with its bindings renamed marks the same calls. -/
namespace PureCalls
open PureCalls.Tree Marking

namespace Tree

/-- The fields with one of them given a value: the first one of that name, or else a new one behind all others. -/
def give (f : Field) (value : Tree) : List (Field × Tree) → List (Field × Tree)
  | [] => [(f, value)]
  | (g, t) :: rest => if g = f then (f, value) :: rest else (g, t) :: give f value rest

/-- The identifier with the name of a binding. -/
def identifierOf (span : Option Span) (b : Binding) : Tree :=
  .node .identifier span [(.ctxt, .number b.context 0), (.value, .text b.name), (.optional, .bool false)]

/-- What a specifier of a value imports where it does not say so: the export with the name of its binding. -/
def implied? (specifier : Tree) : Option Tree :=
  if specifier.isKind .importNamed && !specifier.flag .isTypeOnly && (specifier.field .imported).isNull then
    (specifier.field .localName).binding?.map (identifierOf (specifier.field .localName).span?)
  else none

/-- The fields of a node with the binding that it stands for renamed, or with what it imports written out. -/
def renameOwn (φ : Binding → Binding) (values : Bool) (node : Tree) (fields : List (Field × Tree)) :
    List (Field × Tree) :=
  match node.binding?, node.implied? with
  | some b, _ => give .value (.text (φ b).name) (give .ctxt (.number (φ b).context 0) fields)
  | none, some imported => if values then give .imported imported fields else fields
  | none, none => fields

/-- Whether specifiers in the fields of a node import values, if those outside of any declaration in it do. -/
def importsValues (values : Bool) (node : Tree) : Bool :=
  if node.isKind .importDeclaration then !node.flag .typeOnly else values

mutual

/-- The tree with every binding renamed. Exported names stay: each specifier of a value says what it imports before its
own binding is renamed, and what specifiers import is left alone. -/
def rename (φ : Binding → Binding) (values : Bool) : Tree → Tree
  | .list items => .list (renameItems φ values items)
  | .node kind span fields =>
    let values := importsValues values (.node kind none fields)
    .node kind span (renameOwn φ values (.node kind none fields) (renameFields φ values kind fields))
  | t => t

def renameItems (φ : Binding → Binding) (values : Bool) : List Tree → List Tree
  | [] => []
  | t :: rest => rename φ values t :: renameItems φ values rest

def renameFields (φ : Binding → Binding) (values : Bool) (kind : Kind) : List (Field × Tree) → List (Field × Tree)
  | [] => []
  | (f, t) :: rest =>
    (f, if kind = .importNamed ∧ f = .imported then t else rename φ values t) :: renameFields φ values kind rest

end

def entries : Tree → List (Field × Tree)
  | .node _ _ fields => fields
  | _ => []

/-- Whether no binding stands where the syntax has a name of another sort: behind the dot of a member, as the source of
an import, and as what a specifier imports, which is no more than a name. -/
def NamesApart (t : Tree) : Prop :=
  ∀ n ∈ t.nodes, (n.isKind .member = true → (n.field .property).binding? = none) ∧
    (n.isKind .importDeclaration = true → (n.field .source).binding? = none) ∧
    (n.isKind .importNamed = true → ∀ e ∈ n.entries, e.1 = .imported → ∀ m ∈ e.2.reached, m.isSite = false)

instance (t : Tree) : Decidable t.NamesApart :=
  inferInstanceAs (Decidable (∀ n ∈ t.nodes, _ ∧ _ ∧ _))

private theorem nodes_lookup (f : Field) (fields : List (Field × Tree)) : (lookup f fields).nodes ⊆ nodesOfFields fields := by
  induction fields with
  | nil => exact List.nil_subset _
  | cons entry rest ih =>
    obtain ⟨g, t⟩ := entry
    rw [lookup_cons, nodesOfFields]
    split
    · exact List.subset_append_left _ _
    · exact List.subset_append_of_subset_right _ ih

theorem nodes_field (t : Tree) (f : Field) : (t.field f).nodes ⊆ t.nodes := by
  cases t with
  | node kind span fields => exact List.subset_append_of_subset_left _ (nodes_lookup f fields)
  | _ => exact List.nil_subset _

mutual

private theorem nodes_subset_of_mem {n : Tree} : ∀ t : Tree, n ∈ t.nodes → n.nodes ⊆ t.nodes
  | .list items, h => nodes_subset_of_mem_items items h
  | .node kind span fields, h => by
    rcases List.mem_append.mp h with h | h
    · exact List.subset_append_of_subset_left _ (nodes_subset_of_mem_fields fields h)
    · exact List.mem_singleton.mp h ▸ List.Subset.refl _
  | .null, h | .bool _, h | .number _ _, h | .text _, h | .range _, h => nomatch h

private theorem nodes_subset_of_mem_items {n : Tree} : ∀ items, n ∈ nodesOfItems items → n.nodes ⊆ nodesOfItems items
  | t :: rest, h => by
    rcases List.mem_append.mp h with h | h
    · exact List.subset_append_of_subset_left _ (nodes_subset_of_mem t h)
    · exact List.subset_append_of_subset_right _ (nodes_subset_of_mem_items rest h)

private theorem nodes_subset_of_mem_fields {n : Tree} : ∀ fields, n ∈ nodesOfFields fields → n.nodes ⊆ nodesOfFields fields
  | (_, t) :: rest, h => by
    rcases List.mem_append.mp h with h | h
    · exact List.subset_append_of_subset_left _ (nodes_subset_of_mem t h)
    · exact List.subset_append_of_subset_right _ (nodes_subset_of_mem_fields rest h)

end

theorem nodes_of_mem_items {t u : Tree} (h : u ∈ t.items) : u.nodes ⊆ t.nodes := by
  cases t with
  | list items =>
    change u ∈ items at h
    change u.nodes ⊆ nodesOfItems items
    induction items with
    | nil => cases h
    | cons v rest ih =>
      rw [nodesOfItems]
      rcases List.mem_cons.mp h with rfl | h
      · exact List.subset_append_left _ _
      · exact List.subset_append_of_subset_right _ (ih h)
  | _ => cases h

private theorem self_mem_nodes {t : Tree} {kind : Kind} (h : t.isKind kind = true) : t ∈ t.nodes := by
  cases t with
  | node => exact List.mem_append_right _ List.mem_cons_self
  | _ => simp [isKind, kind?] at h

private theorem NamesApart.field {t : Tree} (h : t.NamesApart) (f : Field) : (t.field f).NamesApart :=
  fun n hn => h n (nodes_field t f hn)

private theorem NamesApart.node {t n : Tree} (h : t.NamesApart) (hn : n ∈ t.nodes) : n.NamesApart :=
  fun m hm => h m (nodes_subset_of_mem t hn hm)

private theorem NamesApart.item {t u : Tree} (h : t.NamesApart) (hu : u ∈ t.items) : u.NamesApart :=
  fun n hn => h n (nodes_of_mem_items hu hn)

private theorem NamesApart.lookup {kind : Kind} {span : Option Span} {fields : List (Field × Tree)}
    (h : (Tree.node kind span fields).NamesApart) (f : Field) : (lookup f fields).NamesApart :=
  h.field f

private theorem lookup_give (f g : Field) (value : Tree) (fields : List (Field × Tree)) :
    lookup g (give f value fields) = if g = f then value else lookup g fields := by
  induction fields with
  | nil => simp only [give, lookup_cons, lookup_nil, eq_comm]
  | cons entry rest ih =>
    obtain ⟨k, t⟩ := entry
    rw [give]
    by_cases hk : k = f
    · subst hk
      by_cases hg : k = g
      · simp [lookup_cons, hg]
      · simp [lookup_cons, hg, Ne.symm hg]
    · rw [if_neg hk, lookup_cons, ih, lookup_cons]
      by_cases hg : k = g
      · rw [if_pos hg, if_pos hg, if_neg (hg ▸ hk)]
      · rw [if_neg hg, if_neg hg]

variable {φ : Binding → Binding} {values : Bool}

private theorem renameItems_eq (items : List Tree) : renameItems φ values items = items.map (rename φ values) := by
  induction items with
  | nil => rfl
  | cons t rest ih => rw [renameItems, ih, List.map_cons]

private theorem renameFields_eq_map (kind : Kind) : renameFields φ values kind = List.map fun e =>
    (e.1, if kind = .importNamed ∧ e.1 = .imported then e.2 else rename φ values e.2) := by
  funext fields
  induction fields with
  | nil => rfl
  | cons entry rest ih => rw [renameFields, ih, List.map_cons]

private theorem renameFields_eq {kind : Kind} (h : kind ≠ .importNamed) (fields : List (Field × Tree)) :
    renameFields φ values kind fields = fields.map (Prod.map id (rename φ values)) := by
  simp only [renameFields_eq_map, h, false_and, if_false]
  rfl

private theorem lookup_renameFields (kind : Kind) (f : Field) (fields : List (Field × Tree)) :
    lookup f (renameFields φ values kind fields) =
      if kind = .importNamed ∧ f = .imported then lookup f fields else rename φ values (lookup f fields) := by
  induction fields with
  | nil =>
    rw [renameFields, lookup_nil]
    split <;> rfl
  | cons entry rest ih =>
    obtain ⟨g, t⟩ := entry
    rw [renameFields, lookup_cons, lookup_cons]
    by_cases hg : g = f
    · rw [if_pos hg, if_pos hg, hg]
    · rw [if_neg hg, if_neg hg, ih]

private theorem binding?_of_kind {t : Tree} (h : t.isKind .identifier = false) : t.binding? = none := by
  cases t with
  | node kind span fields =>
    rw [binding?_node, if_neg]
    rintro rfl
    cases h
  | _ => rfl

private theorem implied?_of_kind {t : Tree} (h : t.isKind .importNamed = false) : t.implied? = none := by
  rw [implied?, h, Bool.false_and, Bool.false_and, if_neg (by decide)]

private theorem renameOwn_of_kind {kind : Kind} (hi : kind ≠ .identifier) (hn : kind ≠ .importNamed)
    (fields renamed : List (Field × Tree)) : renameOwn φ values (.node kind none fields) renamed = renamed := by
  have hbinding : (Tree.node kind none fields).binding? = none := binding?_of_kind (by simpa [isKind, kind?] using hi)
  have himplied : (Tree.node kind none fields).implied? = none := implied?_of_kind (by simpa [isKind, kind?] using hn)
  rw [renameOwn, hbinding, himplied]

private theorem importsValues_of_kind {t : Tree} (h : t.isKind .importDeclaration = false) :
    importsValues values t = values := by
  rw [importsValues, h, if_neg (by decide)]

/-- A node that is neither a binding nor a specifier only has its fields renamed. -/
theorem rename_node {kind : Kind} (hi : kind ≠ .identifier) (hn : kind ≠ .importNamed) (span : Option Span)
    (fields : List (Field × Tree)) : rename φ values (.node kind span fields) =
      .node kind span (fields.map (Prod.map id (rename φ (importsValues values (.node kind none fields))))) := by
  rw [rename, renameOwn_of_kind hi hn, renameFields_eq hn]

private theorem kind?_rename (t : Tree) : (rename φ values t).kind? = t.kind? := by
  cases t <;> rfl

private theorem text?_rename (t : Tree) : (rename φ values t).text? = t.text? := by
  cases t <;> rfl

private theorem integer?_rename (t : Tree) : (rename φ values t).integer? = t.integer? := by
  cases t <;> rfl

private theorem items_rename (t : Tree) : (rename φ values t).items = t.items.map (rename φ values) := by
  cases t with
  | list items => exact renameItems_eq items
  | _ => rfl

end Tree

/-- The translation that renames all bindings. -/
def Translation.renaming (φ : Binding → Binding) (values : Bool) : Translation where
  tree := rename φ values
  fields kind fs :=
    let values := importsValues values (.node kind none fs)
    renameOwn φ values (.node kind none fs) (renameFields φ values kind fs)
  place := id
  tree_node kind span fs := by
    rw [rename]
    cases span <;> rfl
  kind?_tree := kind?_rename
  tree_list items := congrArg Tree.list (renameItems_eq items)
  isLeaf_tree t := by cases t <;> rfl
  tree_null := rfl
  fields_passage {kind} h fs := by
    have hi : kind ≠ .identifier := by rintro rfl; cases h
    have hn : kind ≠ .importNamed := by rintro rfl; cases h
    have hd : kind ≠ .importDeclaration := by rintro rfl; cases h
    rw [renameOwn_of_kind hi hn, renameFields_eq hn, importsValues_of_kind (by simpa [isKind, kind?] using hd)]
  place_injective := Function.injective_id
  place_dummy := rfl

namespace Tree
variable {φ : Binding → Binding} {values : Bool}

private theorem lookup_map_rename (f : Field) (fields : List (Field × Tree)) :
    lookup f (fields.map (Prod.map id (rename φ values))) = rename φ values (lookup f fields) :=
  (Translation.renaming φ values).lookup_map f fields

/-- A field of a node that is no binding is renamed, unless it says what a specifier imports. -/
theorem field_rename {t : Tree} (h : t.binding? = none) {f : Field} (hf : f ≠ .imported) :
    (rename φ values t).field f = rename φ (importsValues values t) (t.field f) := by
  cases t with
  | node kind span fields =>
    have hbinding : (Tree.node kind none fields).binding? = none := by rwa [binding?_node] at h ⊢
    have hlookup (values : Bool) : lookup f (renameFields φ values kind fields) = rename φ values (lookup f fields) := by
      rw [lookup_renameFields, if_neg fun h => hf h.2]
    rw [rename, renameOwn, hbinding]
    change lookup f _ = rename φ (importsValues values (.node kind none fields)) (lookup f fields)
    cases (Tree.node kind none fields).implied? with
    | none => exact hlookup _
    | some imported =>
      dsimp only
      split
      · rw [lookup_give, if_neg hf, hlookup]
      · exact hlookup _
  | _ => rfl

private theorem flag_rename {t : Tree} (h : t.binding? = none) {f : Field} (hf : f ≠ .imported) :
    (rename φ values t).flag f = t.flag f := by
  rw [flag, flag, field_rename h hf]
  cases t.field f <;> rfl

/-- A binding gets its new name. -/
theorem binding?_rename (t : Tree) : (rename φ values t).binding? = t.binding?.map φ := by
  cases t with
  | node kind span fields =>
    by_cases hi : kind = .identifier
    · subst hi
      have himplied : (Tree.node .identifier none fields).implied? = none := implied?_of_kind rfl
      have hbinding : (Tree.node .identifier span fields).binding? = (Tree.node .identifier none fields).binding? := by
        rw [binding?_node, binding?_node]
      rw [hbinding, rename, renameOwn, himplied]
      cases hb : (Tree.node .identifier none fields).binding? with
      | some b =>
        simp +decide [binding?_node, lookup_give, text?, integer?]
      | none =>
        rw [binding?_node, if_pos rfl] at hb
        rw [binding?_node, if_pos rfl, lookup_renameFields, lookup_renameFields, if_neg (by simp +decide),
          if_neg (by simp +decide), text?_rename, integer?_rename, hb]
        rfl
    · have hkind : (Tree.node kind span fields).isKind .identifier = false := by simpa [isKind, kind?] using hi
      rw [binding?_of_kind hkind, binding?_of_kind (by rwa [isKind, kind?_rename])]
      rfl
  | _ => rfl

/-- A name that is no binding stays. -/
theorem text?_value_rename {t : Tree} (h : t.binding? = none) :
    ((rename φ values t).field .value).text? = (t.field .value).text? := by
  rw [field_rename h (by decide), text?_rename]

private theorem propertyName?_rename {t : Tree} (h : t.binding? = none) :
    Callee.propertyName? (rename φ values t) = Callee.propertyName? t := by
  cases t with
  | node kind span fields =>
    have hvalue : ((rename φ values (.node kind span fields)).field .value).text? = (lookup .value fields).text? :=
      text?_value_rename h
    rw [rename] at hvalue ⊢
    rw [Callee.propertyName?_node, Callee.propertyName?_node]
    split
    · exact hvalue
    · rfl
  | _ => rfl

/-- A callee spells the renamed binding and the same path. -/
theorem ofTree_rename (t : Tree) (h : t.NamesApart) :
    Callee.ofTree (rename φ values t) = (Callee.ofTree t).map fun callee => ⟨φ callee.root, callee.path⟩ := by
  induction t using induction_lookup with
  | leaf t hk => cases t <;> first | rfl | cases hk
  | node kind span fields ih =>
    by_cases hi : kind = .identifier
    · subst hi
      have hbinding : (rename φ values (.node .identifier span fields)).binding? = _ := binding?_rename _
      rw [rename] at hbinding ⊢
      simp only [Callee.ofTree, if_true, hbinding]
      cases (Tree.node .identifier span fields).binding? <;> rfl
    by_cases hn : kind = .importNamed
    · rw [rename, Callee.ofTree_other, Callee.ofTree_other, Option.map_none] <;> rw [hn] <;> decide
    by_cases hparen : kind = .paren
    · subst hparen
      rw [rename_node hi hn, importsValues_of_kind rfl, Callee.ofTree_paren, Callee.ofTree_paren, lookup_map_rename]
      exact ih _ (h.lookup _)
    by_cases hm : kind = .member
    · subst hm
      have hproperty : (lookup .property fields).binding? = none :=
        (h _ (self_mem_nodes (show isKind _ .member = true from rfl))).1 rfl
      rw [rename_node hi hn, importsValues_of_kind rfl, Callee.ofTree_member, Callee.ofTree_member, lookup_map_rename,
        lookup_map_rename, propertyName?_rename hproperty, ih .object (h.lookup _)]
      cases Callee.propertyName? (lookup .property fields) <;> cases Callee.ofTree (lookup .object fields) <;> rfl
    · rw [rename_node hi hn, Callee.ofTree_other hi hparen hm, Callee.ofTree_other hi hparen hm, Option.map_none]

end Tree

/-- The imports with the bindings renamed that they introduce. -/
def Imports.rename (φ : Binding → Binding) (imports : Imports) : Imports :=
  imports.map (Prod.map φ id)

namespace Imports
variable {φ : Binding → Binding} {values : Bool}

private theorem find?_rename (hφ : Function.Injective φ) (imports : Imports) (b : Binding) :
    (imports.rename φ).find? (φ b) = imports.find? b := by
  induction imports with
  | nil => rfl
  | cons entry rest ih =>
    obtain ⟨c, i⟩ := entry
    change (if φ c = φ b then some i else (Imports.rename φ rest).find? (φ b)) =
      if c = b then some i else Imports.find? rest b
    rw [ih]
    exact if_congr hφ.eq_iff rfl rfl

private theorem refersTo_rename (hφ : Function.Injective φ) (imports : Imports) (b : Binding) (source : String)
    (names : List String) : (imports.rename φ).refersTo (φ b) source names = imports.refersTo b source names := by
  rw [refersTo, refersTo, find?_rename hφ]

private theorem isAllowed_rename (hφ : Function.Injective φ) (w : Whitelist) (imports : Imports) (callee : Callee) :
    Callee.isAllowed w (imports.rename φ) ⟨φ callee.root, callee.path⟩ = callee.isAllowed w imports := by
  simp only [Callee.isAllowed, refersTo_rename hφ]

/-- A renamed callee is as pure as before. -/
theorem isPure_rename (hφ : Function.Injective φ) (w : Whitelist) (imports : Imports) {t : Tree} (h : t.NamesApart) :
    isPure w (imports.rename φ) (t.rename φ values) = isPure w imports t := by
  rw [isPure, isPure, ofTree_rename t h]
  cases Callee.ofTree t with
  | none => rfl
  | some callee => exact isAllowed_rename hφ w imports callee

private theorem foldl_rename {add : Imports → Tree → Imports} {image : Tree → Tree} (items : List Tree) (imports : Imports)
    (h : ∀ t ∈ items, ∀ imports : Imports, add (imports.rename φ) (image t) = (add imports t).rename φ) :
    (items.map image).foldl add (imports.rename φ) = (items.foldl add imports).rename φ := by
  induction items generalizing imports with
  | nil => rfl
  | cons t rest ih =>
    rw [List.map_cons, List.foldl_cons, List.foldl_cons, h t List.mem_cons_self]
    exact ih _ fun u hu => h u (List.mem_cons_of_mem _ hu)

private theorem addSpecifier_of_not_exported {source : Option String} {imports : Imports} {t : Tree}
    (h : exportedName? t = none) : addSpecifier source imports t = imports := by
  rw [addSpecifier, h]
  cases (t.field .localName).binding? <;> rfl

/-- What a specifier of a value imports is written out if it was not, and stays otherwise. -/
theorem field_imported_rename {t : Tree} (h : t.isKind .importNamed = true) :
    (t.rename φ true).field .imported = t.implied?.getD (t.field .imported) := by
  cases t with
  | node kind span fields =>
    have hkind : kind = .importNamed := by simpa [isKind, kind?] using h
    subst hkind
    have hbinding : (Tree.node .importNamed none fields).binding? = none := binding?_of_kind rfl
    rw [Tree.rename, renameOwn, hbinding, importsValues_of_kind rfl]
    change lookup _ _ = (Tree.node .importNamed none fields).implied?.getD (lookup .imported fields)
    cases (Tree.node .importNamed none fields).implied? with
    | none =>
      rw [lookup_renameFields, if_pos ⟨rfl, rfl⟩]
      rfl
    | some imported =>
      dsimp only
      rw [if_pos rfl, lookup_give, if_pos rfl]
      rfl
  | _ => cases h

/-- A specifier that says what it imports asks for the same name as before. -/
theorem exportedName?_rename {t : Tree} {b : Binding} (h : (t.field .localName).binding? = some b) :
    exportedName? (t.rename φ true) = exportedName? t := by
  cases hn : t.isKind .importNamed with
  | false =>
    unfold exportedName?
    rw [kind?_rename]
    split
    · rfl
    · rfl
    next hkind =>
      rw [isKind, hkind] at hn
      exact absurd hn (by decide)
    · rfl
  | true =>
    have hkind : t.kind? = some .importNamed := by simpa [isKind] using hn
    have hbinding : t.binding? = none := binding?_of_kind (by simp [isKind, hkind, Kind.importNamed, Kind.identifier])
    simp only [exportedName?, kind?_rename, hkind, Kind.importNamed, flag_rename hbinding (f := .isTypeOnly) (by decide),
      field_imported_rename hn]
    cases htype : t.flag .isTypeOnly with
    | true => rfl
    | false =>
      cases himported : (t.field .imported).isNull with
      | false =>
        have himplied : t.implied? = none := by rw [implied?, himported, Bool.and_false, if_neg (by decide)]
        simp [himplied, himported]
      | true =>
        have himplied : t.implied? = some (identifierOf (t.field .localName).span? b) := by
          rw [implied?, hn, htype, himported, h]
          rfl
        have hname : ((identifierOf (t.field .localName).span? b).field .value).text? = some b.name := rfl
        rw [himplied, Option.getD_some, hname, text?_localName h]
        rfl

private theorem not_exported {t : Tree} (h : t.isKind .identifier = true ∨ t.isKind .importDeclaration = true) :
    exportedName? t = none := by
  have hkind : t.kind? = some .identifier ∨ t.kind? = some .importDeclaration := by simpa [isKind] using h
  rcases hkind with hkind | hkind
  · rw [exportedName?, hkind]
    rfl
  · rw [exportedName?, hkind]
    rfl

private theorem localName_rename {t : Tree} (hi : t.isKind .identifier = false) (hd : t.isKind .importDeclaration = false) :
    (t.rename φ values).field .localName = (t.field .localName).rename φ values := by
  rw [field_rename (binding?_of_kind hi) (by decide), importsValues_of_kind hd]

/-- A specifier brings in the renamed binding for the same export. -/
theorem addSpecifier_rename (source : Option String) (imports : Imports) (t : Tree) :
    addSpecifier source (imports.rename φ) (t.rename φ true) = (addSpecifier source imports t).rename φ := by
  by_cases hkind : t.isKind .identifier = true ∨ t.isKind .importDeclaration = true
  · have hkind' : (t.rename φ true).isKind .identifier = true ∨ (t.rename φ true).isKind .importDeclaration = true := by
      rwa [isKind, isKind, kind?_rename]
    rw [addSpecifier_of_not_exported (not_exported hkind), addSpecifier_of_not_exported (not_exported hkind')]
  · obtain ⟨hi, hd⟩ := not_or.mp hkind
    rw [Bool.not_eq_true] at hi hd
    rw [addSpecifier, addSpecifier, localName_rename hi hd, binding?_rename]
    cases hb : (t.field .localName).binding? with
    | none => rfl
    | some b =>
      rw [exportedName?_rename hb]
      cases exportedName? t <;> rfl

/-- A declaration brings in the renamed bindings for the same exports. -/
theorem addItem_rename (imports : Imports) {t : Tree} (h : t.NamesApart) :
    addItem (imports.rename φ) (t.rename φ values) = (addItem imports t).rename φ := by
  rw [addItem, addItem, isKind, kind?_rename, ← isKind]
  cases hd : t.isKind .importDeclaration with
  | false => rfl
  | true =>
    have hbinding : t.binding? = none := by
      have hkind : t.kind? = some .importDeclaration := by simpa [isKind] using hd
      exact binding?_of_kind (by simp [isKind, hkind, Kind.importDeclaration, Kind.identifier])
    have hsource : (t.field .source).binding? = none := (h t (self_mem_nodes hd)).2.1 hd
    rw [flag_rename hbinding (by decide), field_rename hbinding (by decide), text?_value_rename hsource,
      field_rename hbinding (by decide), items_rename]
    cases htype : t.flag .typeOnly with
    | true => rfl
    | false =>
      have hvalues : importsValues values t = true := by rw [importsValues, hd, if_pos rfl, htype]; rfl
      rw [hvalues]
      exact foldl_rename _ _ fun s _ imports => addSpecifier_rename _ imports s

/-- A module with its bindings renamed imports the same for the renamed bindings. -/
theorem ofModule_rename {program : Tree} (hkind : program.isKind .moduleProgram = true) (h : program.NamesApart) :
    ofModule (program.rename φ values) = (ofModule program).rename φ := by
  have hmodule : program.kind? = some .moduleProgram := by simpa [isKind] using hkind
  have hi : program.isKind .identifier = false := by simp [isKind, hmodule, Kind.moduleProgram, Kind.identifier]
  rw [ofModule, ofModule, field_rename (binding?_of_kind hi) (by decide), items_rename]
  exact foldl_rename _ [] fun item hitem imports => addItem_rename imports ((h.field .body).item hitem)

end Imports

namespace Tree
variable {φ : Binding → Binding} {values : Bool} {pure pure' : Tree → Bool}

private theorem NamesApart.callee {t c : Tree} (h : t.NamesApart) (hc : t.callee? = some c) : c.NamesApart := by
  cases t with
  | node kind span fields =>
    obtain ⟨-, hc⟩ := Option.ite_none_right_eq_some.mp hc
    exact Option.some.inj hc ▸ h.lookup .callee
  | _ => cases hc

/-- A call of the renamed program is as pure as before. -/
theorem callsPure_rename (hφ : Function.Injective φ) (w : Whitelist) (imports : Imports) {t : Tree} (h : t.NamesApart) :
    (t.rename φ values).callsPure (isPure w (imports.rename φ)) = t.callsPure (isPure w imports) := by
  have hcallee : (t.rename φ values).callee? = t.callee?.map (rename φ values) :=
    (Translation.renaming φ values).callee?_tree t
  rw [callsPure, callsPure, hcallee]
  cases hc : t.callee? with
  | none => rfl
  | some c => exact Imports.isPure_rename hφ w imports (h.callee hc)

private theorem walked_node {kind : Kind} (hk : kind.isType = false) (hs : kind.isSite = false) (fields : List (Field × Tree))
    (s : Marking) : Walked pure (.node kind none fields) (.node kind none (walkFields pure fields s).1) := by
  have h : Walked pure (.node kind none fields) (walk pure (.node kind none fields) s).1 := .of_walk _ s
  simpa only [walk, hk, visit_of_not_site hs, Bool.false_eq_true, if_false] using h

private theorem implied?_walked (hp : Nominal pure) {n n' : Tree} (h : Walked pure n n') : n'.implied? = n.implied? := by
  have hlocal := h.field hp (f := .localName) (by decide) (by decide) (by decide)
  have himported := h.field hp (f := .imported) (by decide) (by decide) (by decide)
  rw [implied?, isKind, h.kind hp, h.flag hp (by decide) (by decide) (by decide), himported.isNull hp,
    hlocal.binding hp, hlocal.span hp]
  rfl

private theorem renameOwn_walked (hp : Nominal pure) {n n' : Tree} (h : Walked pure n n') :
    renameOwn φ values n' = renameOwn φ values n := by
  funext fields
  rw [renameOwn, renameOwn, h.binding hp, implied?_walked hp h]

private theorem importsValues_walked (hp : Nominal pure) {n n' : Tree} (h : Walked pure n n') :
    importsValues values n' = importsValues values n := by
  rw [importsValues, isKind, h.kind hp, h.flag hp (by decide) (by decide) (by decide)]
  rfl

/-- A leaf given in place of a leaf is not noticed. -/
theorem walkFields_give {f : Field} {value : Tree} {fields : List (Field × Tree)} (hold : (lookup f fields).isLeaf = true)
    (hvalue : ∀ n ∈ value.reached, n.isSite = false) (s : Marking) :
    walkFields pure (give f value fields) s = ((walkFields pure fields s).map (give f value) id) := by
  induction fields generalizing s with
  | nil => simp only [give, walkFields, walk_of_no_sites value hvalue, Prod.map, id_eq]
  | cons entry rest ih =>
    obtain ⟨g, t⟩ := entry
    rw [lookup_cons] at hold
    by_cases hg : g = f
    · rw [if_pos hg] at hold
      simp only [give, if_pos hg, walkFields, walk_of_no_sites value hvalue, walk_of_leaf hold, Prod.map, id_eq]
    · rw [if_neg hg] at hold
      simp only [give, if_neg hg, walkFields, ih hold, Prod.map, id_eq]

private theorem implied?_eq_some {n imported : Tree} (h : n.implied? = some imported) :
    n.isKind .importNamed = true ∧ (n.field .imported).isNull = true ∧ ∃ span b, imported = identifierOf span b := by
  obtain ⟨hn, himported⟩ := Option.ite_none_right_eq_some.mp h
  obtain ⟨b, -, rfl⟩ := Option.map_eq_some_iff.mp himported
  simp only [Bool.and_eq_true] at hn
  exact ⟨hn.1.1, hn.2, _, b, rfl⟩

private theorem identifierOf_no_sites (span : Option Span) (b : Binding) :
    ∀ n ∈ (identifierOf span b).reached, n.isSite = false := by
  intro n hn
  obtain rfl : n = identifierOf span b := List.mem_singleton.mp hn
  rfl

/-- What a node has of its own, in place of what it had, is not noticed. -/
theorem walkFields_renameOwn (kind : Kind) (fields : List (Field × Tree)) (s : Marking) :
    walkFields pure (renameOwn φ values (.node kind none fields) (renameFields φ values kind fields)) s =
      (walkFields pure (renameFields φ values kind fields) s).map
        (renameOwn φ values (.node kind none fields)) id := by
  unfold renameOwn
  cases hb : (Tree.node kind none fields).binding? with
  | some b =>
    obtain ⟨_, _, heq, hname, hcontext⟩ := binding?_eq_some_iff.mp hb
    cases heq
    have hvalue : lookup .value (renameFields φ values .identifier fields) = .text b.name := by
      rw [lookup_renameFields, hname]
      rfl
    have hctxt : lookup .ctxt (renameFields φ values .identifier fields) = .number b.context 0 := by
      rw [lookup_renameFields, hcontext]
      rfl
    have hgiven : lookup .value (give .ctxt (.number (φ b).context 0) (renameFields φ values .identifier fields)) =
        .text b.name := by
      rw [lookup_give, if_neg (by decide), hvalue]
    dsimp only
    rw [walkFields_give (by rw [hgiven]; rfl) (List.forall_mem_nil _),
      walkFields_give (by rw [hctxt]; rfl) (List.forall_mem_nil _)]
    rfl
  | none =>
    cases himplied : (Tree.node kind none fields).implied? with
    | none => rfl
    | some imported =>
      obtain ⟨hkind, hnull, span, b, rfl⟩ := implied?_eq_some himplied
      have hkind : kind = .importNamed := by simpa [isKind, kind?] using hkind
      have hold : lookup .imported (renameFields φ values kind fields) = lookup .imported fields := by
        rw [lookup_renameFields, if_pos ⟨hkind, rfl⟩]
      have hleaf : (lookup .imported fields).isLeaf = true := by
        change (lookup .imported fields).isNull = true at hnull
        cases hl : lookup .imported fields <;> rw [hl] at hnull <;> first | rfl | cases hnull
      cases values with
      | false => rfl
      | true => exact walkFields_give (by rw [hold, hleaf]) (identifierOf_no_sites span b) s

end Tree

namespace Translation.Keeps
variable {φ : Binding → Binding} {values : Bool} {pure pure' : Tree → Bool} {nodes : List Tree} {taking : Pos → Prop}

/-- Fields with the bindings in them renamed go along, and what a specifier imports goes along as it is. -/
theorem renameFields_along {kind : Kind} {fs : List (Field × Tree)}
    (h : ∀ e ∈ fs, Along pure pure' nodes taking Eq (rename φ values) e.2)
    (himported : kind = .importNamed → ∀ e ∈ fs, e.1 = .imported → ∀ m ∈ e.2.reached, m.isSite = false) :
    FieldsAlong pure pure' nodes taking Eq (renameFields φ values kind) fs := by
  rw [renameFields_eq_map]
  apply fields_along fun f t => if kind = .importNamed ∧ f = .imported then t else rename φ values t
  intro e he
  by_cases hk : kind = .importNamed ∧ e.1 = .imported
  · simp only [if_pos hk]
    exact .of_no_sites (himported hk.1 e he hk.2)
  · simp only [if_neg hk]
    exact h e he

/-- Walks go together over the fields of a node with its bindings renamed. -/
theorem renaming_follows (hp : Nominal pure) (hnames : ∀ n ∈ nodes, n.NamesApart) :
    FieldsFollow (Translation.renaming φ) pure pure' nodes taking Eq := by
  intro values kind span fs hk hn h
  cases hpassage : kind.isPassage with
  | true =>
    have hfields : (Translation.renaming φ values).fields kind = List.map (Prod.map id (rename φ values)) :=
      funext fun fs => (Translation.renaming φ values).fields_passage hpassage fs
    rw [hfields]
    exact fields_along (fun _ => rename φ values) fun e he => h e he values
  | false =>
    intro s s' hs hnodes ht
    subst hs
    have hsite : kind.isSite = false := by
      cases hsite : kind.isSite with
      | true => rw [Kind.isPassage_of_site hsite] at hpassage; cases hpassage
      | false => rfl
    have hw : Walked pure (.node kind none fs) _ := walked_node hk hsite fs s
    have himported : kind = .importNamed → ∀ e ∈ fs, e.1 = .imported → ∀ m ∈ e.2.reached, m.isSite = false := by
      rintro rfl
      have hself : Tree.node .importNamed span fs ∈ (Tree.node .importNamed span fs).nodes :=
        self_mem_nodes (show isKind _ .importNamed = true from rfl)
      exact (hnames _ hn _ hself).2.2 rfl
    have hfields : FieldsAlong pure pure' nodes taking Eq
        (renameFields φ (importsValues values (.node kind none fs)) kind) fs :=
      renameFields_along (fun e he => h e he _) himported
    replace hfields := hfields s s rfl hnodes ht
    change Carried (fun fs => renameOwn φ (importsValues values (.node kind none fs)) (.node kind none fs)
      (renameFields φ (importsValues values (.node kind none fs)) kind fs)) Eq _
      (walkFields pure' (renameOwn φ (importsValues values (.node kind none fs)) (.node kind none fs)
        (renameFields φ (importsValues values (.node kind none fs)) kind fs)) s)
    rw [walkFields_renameOwn]
    constructor
    · rw [importsValues_walked hp hw, renameOwn_walked hp hw]
      exact congrArg (renameOwn φ _ _) hfields.left
    · exact hfields.marking

end Translation.Keeps
namespace Annotator
variable {φ : Binding → Binding}

private theorem walks_rename (w : Whitelist) {program : Tree} (hnames : program.NamesApart) :
    walks w (program.rename φ true) = walks w program := by
  rw [walks, walks, isKind, kind?_rename, ← isKind]
  cases hkind : program.isKind .moduleProgram with
  | false => rfl
  | true =>
    rw [Imports.ofModule_rename hkind hnames, Imports.rename, List.isEmpty_map]

/-- A walk over a program with its bindings renamed goes with the one over the program. -/
theorem walk_rename (hφ : Function.Injective φ) (w : Whitelist) {program : Tree}
    (hkind : program.isKind .moduleProgram = true) (hnames : program.NamesApart) (s : Marking) :
    Carried (rename φ true) Eq (walk (verdict w program) program s)
      (walk (verdict w (program.rename φ true)) (program.rename φ true) s) := by
  have hverdict : verdict w (program.rename φ true) = isPure w ((Imports.ofModule program).rename φ) := by
    rw [verdict, Imports.ofModule_rename hkind hnames]
  have hreached : ∀ n ∈ program.reached, n.NamesApart := fun n hn => hnames.node (reached_subset program hn)
  have hkeeps (values : Bool) : (Translation.renaming φ values).Keeps (verdict w program)
      (verdict w (program.rename φ true)) program.reached (fun _ => True) Eq := by
    refine ⟨fun hn => ?_, ?_, ?_, ?_, fun _ => rfl, ?_, ?_⟩
    · rw [hverdict]
      exact callsPure_rename hφ w _ (hreached _ hn)
    · rintro s _ rfl p
      rfl
    · rintro s _ rfl p
      rfl
    · rintro s _ rfl
      rfl
    · rintro s _ rfl p
      rfl
    · rintro s _ rfl _ p
      rfl
  have hp := verdict_nominal w program
  have hp' := verdict_nominal w (program.rename φ true)
  exact Translation.Keeps.walk_along hp hp' hkeeps (Translation.Keeps.renaming_follows hp hreached) program true s s rfl
    (List.Subset.refl _) fun _ _ => trivial

/-- A run does not depend on how bindings are spelled. Over a program with all bindings renamed, no two to one, it
leaves what it leaves over the program, with the bindings renamed, and the same comments and fresh positions. -/
theorem bindings_renamed (w : Whitelist) {program : Tree} (comments : Comments) (c : Pos)
    (hφ : Function.Injective φ) (hnames : program.NamesApart) :
    let run := visit w program (start comments c)
    visit w (program.rename φ true) (start comments c) = (run.1.rename φ true, run.2) := by
  intro run
  cases hwalks : walks w program with
  | false =>
    have hwalks' : walks w (program.rename φ true) = false := (walks_rename w hnames).trans hwalks
    simp only [run, visit_of_not_walks hwalks, visit_of_not_walks hwalks']
  | true =>
    have hwalks' : walks w (program.rename φ true) = true := (walks_rename w hnames).trans hwalks
    have hkind : program.isKind .moduleProgram = true := by
      simp only [walks, Bool.and_eq_true] at hwalks
      exact hwalks.1.1
    have hcarried := walk_rename hφ w hkind hnames ⟨comments, [], c⟩
    simp only [run, visit_of_walks hwalks, visit_of_walks hwalks']
    exact Prod.ext hcarried.left (congrArg (fun s => Annotator.mk [] { s with marked := [] }) hcarried.marking.symm)

/-- With another name for the import, `import { f as h } from "m"; h(h()).g();`, the same calls are marked. -/
theorem bindings_renamed_chained :
    let φ := Equiv.swap (Binding.mk "f" 2) ⟨"h", 3⟩
    let run := visit .calledF .chained (start {} .firstFresh)
    let run' := visit .calledF (Tree.chained.rename φ true) (start {} .firstFresh)
    Imports.ofModule (Tree.chained.rename φ true) = [(⟨"h", 3⟩, ⟨some "m", some "f"⟩)] ∧
      run' = (run.1.rename φ true, run.2) ∧ run'.2.marking.comments.get .firstFresh = [Comment.marker] := by
  intro φ run run'
  have hrenamed : run' = (run.1.rename φ true, run.2) :=
    bindings_renamed .calledF {} .firstFresh (Equiv.swap _ _).injective (by decide +kernel)
  refine ⟨by decide +kernel, hrenamed, ?_⟩
  rw [hrenamed]
  decide +kernel

end Annotator
end PureCalls
