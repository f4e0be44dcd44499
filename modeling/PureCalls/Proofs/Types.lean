import PureCalls.Proofs.Erasure
import PureCalls.Proofs.Parentheses
import PureCalls.Proofs.Translation

/-! Types play no part. A run over a program leaves each type of it as it was, and what else it does does not depend on
them: on what is written in them, on the calls in them, or on where they stand. -/
namespace PureCalls
open PureCalls.Tree Marking
namespace Tree

/-- Whether a tree is a node that no walk enters. -/
def isType (t : Tree) : Bool :=
  t.kind?.any Kind.isType

/-- What stands for a type where it does not matter which one it is. -/
def hole : Tree := .node .annotatedType none []

mutual

/-- The tree with a hole in place of every type. -/
def skeleton : Tree → Tree
  | .list items => .list (skeletonItems items)
  | .node kind span fields => if kind.isType then hole else .node kind span (skeletonFields fields)
  | t => t

def skeletonItems : List Tree → List Tree
  | [] => []
  | t :: rest => skeleton t :: skeletonItems rest

def skeletonFields : List (Field × Tree) → List (Field × Tree)
  | [] => []
  | (f, t) :: rest => (f, skeleton t) :: skeletonFields rest

end

mutual

/-- The types in a tree, from the first to the last. A type that stands inside another one is a part of it. -/
def types : Tree → List Tree
  | .list items => typesOfItems items
  | .node kind span fields => if kind.isType then [.node kind span fields] else typesOfFields fields
  | _ => []

def typesOfItems : List Tree → List Tree
  | [] => []
  | t :: rest => types t ++ typesOfItems rest

def typesOfFields : List (Field × Tree) → List Tree
  | [] => []
  | (_, t) :: rest => types t ++ typesOfFields rest

end

private theorem skeleton_type {kind : Kind} (hk : kind.isType = true) (span : Option Span) (fields : List (Field × Tree)) :
    skeleton (.node kind span fields) = hole := by
  rw [skeleton, if_pos hk]

private theorem skeleton_node {kind : Kind} (hk : kind.isType = false) (span : Option Span) (fields : List (Field × Tree)) :
    skeleton (.node kind span fields) = .node kind span (skeletonFields fields) := by
  rw [skeleton, hk, if_neg (by decide)]

private theorem types_type {kind : Kind} (hk : kind.isType = true) (span : Option Span) (fields : List (Field × Tree)) :
    types (.node kind span fields) = [.node kind span fields] := by
  rw [types, if_pos hk]

private theorem types_node {kind : Kind} (hk : kind.isType = false) (span : Option Span) (fields : List (Field × Tree)) :
    types (.node kind span fields) = typesOfFields fields := by
  rw [types, hk, if_neg (by decide)]

private theorem skeletonItems_eq (items : List Tree) : skeletonItems items = items.map skeleton := by
  induction items with
  | nil => rfl
  | cons t rest ih => rw [skeletonItems, ih, List.map_cons]

/-- No kind of a type is a kind of anything else. -/
private theorem ne_of_isType {k k' : Kind} (hk : k.isType = true) (hk' : k'.isType = false) : k ≠ k' := by
  rintro rfl
  rw [hk] at hk'
  cases hk'

private theorem hole_ne_node {kind : Kind} (hk : kind.isType = false) (span : Option Span)
    (fields : List (Field × Tree)) : hole ≠ .node kind span fields := by
  intro h
  cases h
  cases hk

private theorem isLeaf_skeleton (t : Tree) : t.skeleton.isLeaf = t.isLeaf := by
  cases t with
  | node kind span fields =>
    rw [skeleton]
    split <;> rfl
  | _ => rfl

private theorem skeleton_of_leaf {t : Tree} (h : t.isLeaf = true) : t.skeleton = t ∧ t.types = [] := by
  cases t <;> first | exact ⟨rfl, rfl⟩ | cases h

private theorem leaf_of_skeleton {t u : Tree} {ts us : List Tree} (h : t.isLeaf = true) (hs : t.skeleton = u.skeleton)
    (ht : t.types ++ ts = u.types ++ us) : t = u ∧ ts = us := by
  have hu : u.isLeaf = true := by rw [← isLeaf_skeleton, ← hs, isLeaf_skeleton, h]
  rw [(skeleton_of_leaf h).1, (skeleton_of_leaf hu).1] at hs
  rw [(skeleton_of_leaf h).2, (skeleton_of_leaf hu).2] at ht
  exact ⟨hs, ht⟩

mutual

/-- There is only one tree with a given skeleton and given types. -/
theorem eq_of_skeleton : ∀ (t u : Tree) {ts us : List Tree}, t.skeleton = u.skeleton →
    t.types ++ ts = u.types ++ us → t = u ∧ ts = us
  | .list items, u, ts, us, hs, ht => by
    cases u with
    | list items' =>
      obtain ⟨rfl, hts⟩ := eq_of_skeletonItems items items' (Tree.list.inj hs) ht
      exact ⟨rfl, hts⟩
    | node kind span fields =>
      rw [skeleton, skeleton] at hs
      split at hs <;> cases hs
    | _ => cases hs
  | .node kind span fields, u, ts, us, hs, ht => by
    cases u with
    | node kind' span' fields' =>
      cases hk : kind.isType <;> cases hk' : kind'.isType
      · rw [skeleton_node hk, skeleton_node hk'] at hs
        rw [types_node hk, types_node hk'] at ht
        obtain ⟨rfl, rfl, hfields⟩ := Tree.node.inj hs
        obtain ⟨rfl, hts⟩ := eq_of_skeletonFields fields fields' hfields ht
        exact ⟨rfl, hts⟩
      · rw [skeleton_node hk, skeleton_type hk'] at hs
        exact absurd hs.symm (hole_ne_node hk _ _)
      · rw [skeleton_type hk, skeleton_node hk'] at hs
        exact absurd hs (hole_ne_node hk' _ _)
      · rw [types_type hk, types_type hk'] at ht
        exact List.cons.inj ht
    | list items =>
      rw [skeleton, skeleton] at hs
      split at hs <;> cases hs
    | _ =>
      rw [skeleton] at hs
      split at hs <;> cases hs
  | .null, _, _, _, hs, ht | .bool _, _, _, _, hs, ht | .number _ _, _, _, _, hs, ht | .text _, _, _, _, hs, ht
  | .range _, _, _, _, hs, ht => leaf_of_skeleton rfl hs ht

private theorem eq_of_skeletonItems : ∀ (items items' : List Tree) {ts us : List Tree},
    skeletonItems items = skeletonItems items' → typesOfItems items ++ ts = typesOfItems items' ++ us →
      items = items' ∧ ts = us
  | [], [], _, _, _, ht => ⟨rfl, ht⟩
  | t :: rest, u :: rest', ts, us, hs, ht => by
    obtain ⟨hst, hsrest⟩ := List.cons.inj hs
    rw [typesOfItems, typesOfItems, List.append_assoc, List.append_assoc] at ht
    obtain ⟨rfl, htrest⟩ := eq_of_skeleton t u hst ht
    obtain ⟨rfl, hts⟩ := eq_of_skeletonItems rest rest' hsrest htrest
    exact ⟨rfl, hts⟩

private theorem eq_of_skeletonFields : ∀ (fields fields' : List (Field × Tree)) {ts us : List Tree},
    skeletonFields fields = skeletonFields fields' → typesOfFields fields ++ ts = typesOfFields fields' ++ us →
      fields = fields' ∧ ts = us
  | [], [], _, _, _, ht => ⟨rfl, ht⟩
  | (f, t) :: rest, (f', u) :: rest', ts, us, hs, ht => by
    obtain ⟨hentry, hsrest⟩ := List.cons.inj hs
    obtain ⟨rfl, hst⟩ := Prod.mk.inj hentry
    rw [typesOfFields, typesOfFields, List.append_assoc, List.append_assoc] at ht
    obtain ⟨rfl, htrest⟩ := eq_of_skeleton t u hst ht
    obtain ⟨rfl, hts⟩ := eq_of_skeletonFields rest rest' hsrest htrest
    exact ⟨rfl, hts⟩

end

private theorem lookup_skeletonFields (f : Field) (fields : List (Field × Tree)) :
    lookup f (skeletonFields fields) = skeleton (lookup f fields) := by
  induction fields with
  | nil => rfl
  | cons entry fields ih =>
    obtain ⟨g, t⟩ := entry
    rw [skeletonFields, lookup_cons, lookup_cons, ih]
    split <;> rfl

private theorem text?_skeleton (t : Tree) : t.skeleton.text? = t.text? := by
  cases t with
  | node kind span fields =>
    rw [skeleton]
    split <;> rfl
  | _ => rfl

private theorem integer?_skeleton (t : Tree) : t.skeleton.integer? = t.integer? := by
  cases t with
  | node kind span fields =>
    rw [skeleton]
    split <;> rfl
  | _ => rfl

private theorem isNull_skeleton (t : Tree) : t.skeleton.isNull = t.isNull := by
  cases t with
  | node kind span fields =>
    rw [skeleton]
    split <;> rfl
  | _ => rfl

private theorem items_skeleton (t : Tree) : t.skeleton.items = t.items.map skeleton := by
  cases t with
  | list items => exact skeletonItems_eq items
  | node kind span fields =>
    rw [skeleton]
    split <;> rfl
  | _ => rfl

private theorem skeleton_of_isType {t : Tree} (h : t.isType = true) : t.skeleton = hole := by
  cases t with
  | node kind span fields => exact skeleton_type h span fields
  | _ => cases h

private theorem kind?_skeleton {t : Tree} (h : t.isType = false) : t.skeleton.kind? = t.kind? := by
  cases t with
  | node kind span fields => rw [skeleton_node h]; rfl
  | _ => rfl

/-- The kind of a node that is no type can be told in the skeleton. -/
theorem isKind_skeleton {kind : Kind} (hk : kind.isType = false) (t : Tree) :
    t.skeleton.isKind kind = t.isKind kind := by
  cases t with
  | node k span fields =>
    cases hkt : k.isType with
    | true =>
      rw [skeleton_type hkt]
      simp [isKind, kind?, hole, ne_of_isType hkt hk, ne_of_isType (k := .annotatedType) rfl hk]
    | false => rw [skeleton_node hkt]; rfl
  | _ => rfl

private theorem field_skeleton {t : Tree} (h : t.isType = false) (f : Field) : t.skeleton.field f = (t.field f).skeleton := by
  cases t with
  | node kind span fields =>
    rw [skeleton_node h]
    exact lookup_skeletonFields f fields
  | _ => rfl

private theorem flag_skeleton {t : Tree} (h : t.isType = false) (f : Field) : t.skeleton.flag f = t.flag f := by
  rw [flag, flag, field_skeleton h]
  cases t.field f with
  | node kind span fields =>
    rw [skeleton]
    split
    next he => split at he <;> cases he
    next => rfl
  | _ => rfl

private theorem binding?_skeleton (t : Tree) : t.skeleton.binding? = t.binding? := by
  cases t with
  | node kind span fields =>
    cases hk : kind.isType with
    | true =>
      rw [skeleton_type hk, binding?_node, if_neg (ne_of_isType hk rfl)]
      rfl
    | false =>
      rw [skeleton_node hk, binding?_node, binding?_node, lookup_skeletonFields, lookup_skeletonFields, text?_skeleton,
        integer?_skeleton]
  | _ => rfl

private theorem propertyName?_skeleton (t : Tree) : Callee.propertyName? t.skeleton = Callee.propertyName? t := by
  cases t with
  | node kind span fields =>
    cases hk : kind.isType with
    | true =>
      rw [skeleton_type hk, Callee.propertyName?_node, if_neg (ne_of_isType hk rfl)]
      rfl
    | false =>
      rw [skeleton_node hk, Callee.propertyName?_node, Callee.propertyName?_node, lookup_skeletonFields, text?_skeleton]
  | _ => rfl

/-- A type spells nothing, and what anything else spells does not depend on types. -/
theorem ofTree_skeleton (t : Tree) : Callee.ofTree t.skeleton = Callee.ofTree t := by
  induction t using induction_lookup with
  | leaf t h => cases t <;> first | rfl | cases h
  | node kind span fields ih =>
    have hbinding := binding?_skeleton (.node kind span fields)
    cases hk : kind.isType with
    | true =>
      rw [skeleton_type hk,
        Callee.ofTree_other (ne_of_isType hk rfl) (ne_of_isType hk rfl) (ne_of_isType hk rfl)]
      rfl
    | false =>
      rw [skeleton_node hk] at hbinding ⊢
      by_cases hi : kind = .identifier
      · simp only [Callee.ofTree, hi, if_true] at hbinding ⊢
        rw [hbinding]
      by_cases hparen : kind = .paren
      · subst hparen
        rw [Callee.ofTree_paren, Callee.ofTree_paren, lookup_skeletonFields, ih]
      by_cases hm : kind = .member
      · subst hm
        rw [Callee.ofTree_member, Callee.ofTree_member, lookup_skeletonFields, lookup_skeletonFields,
          propertyName?_skeleton, ih]
      · rw [Callee.ofTree_other hi hparen hm, Callee.ofTree_other hi hparen hm]

private theorem hasExpressionCallee_skeletonFields (fields : List (Field × Tree)) :
    hasExpressionCallee (skeletonFields fields) = hasExpressionCallee fields := by
  rw [hasExpressionCallee, lookup_skeletonFields, isKind_skeleton rfl, isKind_skeleton rfl]
  rfl

private theorem callsPure_skeleton {pure : Tree → Bool} (hp : Nominal pure) {kind : Kind} {span : Option Span}
    {fields : List (Field × Tree)} :
    (Tree.node kind span (skeletonFields fields)).callsPure pure = (Tree.node kind span fields).callsPure pure := by
  simp only [callsPure, callee?, hasExpressionCallee_skeletonFields, lookup_skeletonFields]
  split
  · exact hp.congr (ofTree_skeleton _)
  · rfl

private theorem head?_skeleton (t : Tree) : head? t.skeleton = (head? t).map skeleton := by
  induction t using induction_lookup with
  | leaf t h => cases t <;> first | rfl | cases h
  | node kind span fields ih =>
    cases hk : kind.isType with
    | true =>
      rw [skeleton_type hk, head?_type hk]
      rfl
    | false =>
      rw [skeleton_node hk, head?, head?]
      split
      · rw [Option.map_some, skeleton_node hk]
      · split
        next f _ => rw [headOf?_eq, headOf?_eq, lookup_skeletonFields, ih f]
        next => rfl

private theorem wrapAt_type {kind : Kind} (hk : kind.isType = true) (q : Pos) (span : Option Span)
    (fields : List (Field × Tree)) : wrapAt q (.node kind span fields) = .node kind span fields := by
  rw [wrapAt, if_neg fun hc => by simp [Kind.not_type_of_call hc] at hk]
  cases hf : operand? kind with
  | none => rfl
  | some f => simp [Kind.not_type_of_operand hf] at hk

mutual

/-- Parentheses around a call leave all types where they are. -/
theorem skeleton_wrapAt (q : Pos) : ∀ t : Tree,
    (wrapAt q t).skeleton = wrapAt q t.skeleton ∧ (wrapAt q t).types = t.types
  | .node kind span fields => by
    cases hk : kind.isType with
    | true =>
      have hhole : wrapAt q hole = hole := wrapAt_type rfl q none []
      rw [wrapAt_type hk, skeleton_type hk, hhole]
      exact ⟨rfl, rfl⟩
    | false =>
      rw [skeleton_node hk, types_node hk, wrapAt, wrapAt]
      split
      · simp only [wrap, skeleton_node (rfl : Kind.paren.isType = false), types_node (rfl : Kind.paren.isType = false),
          skeletonFields, typesOfFields, skeleton_node hk, types_node hk, List.append_nil]
        exact ⟨trivial, trivial⟩
      · split
        next f _ =>
          obtain ⟨hskeleton, htypes⟩ := skeletonFields_wrapAtOf q f fields
          rw [skeleton_node hk, types_node hk, hskeleton, htypes]
          exact ⟨rfl, rfl⟩
        next => exact ⟨skeleton_node hk span fields, types_node hk span fields⟩
  | .null | .bool _ | .number _ _ | .text _ | .range _ | .list _ => ⟨rfl, rfl⟩

private theorem skeletonFields_wrapAtOf (q : Pos) (f : Field) : ∀ fields : List (Field × Tree),
    skeletonFields (wrapAtOf q f fields) = wrapAtOf q f (skeletonFields fields) ∧
      typesOfFields (wrapAtOf q f fields) = typesOfFields fields
  | [] => ⟨rfl, rfl⟩
  | (g, t) :: rest => by
    rw [skeletonFields, wrapAtOf, wrapAtOf]
    split
    · obtain ⟨hskeleton, htypes⟩ := skeleton_wrapAt q t
      rw [skeletonFields, typesOfFields, typesOfFields, hskeleton, htypes]
      exact ⟨rfl, rfl⟩
    · obtain ⟨hskeleton, htypes⟩ := skeletonFields_wrapAtOf q f rest
      rw [skeletonFields, typesOfFields, typesOfFields, hskeleton, htypes]
      exact ⟨rfl, rfl⟩

end

private theorem opening?_skeletonFields (kind : Kind) (fields : List (Field × Tree)) :
    opening? kind (skeletonFields fields) = opening? kind fields := by
  simp only [opening?, hasExpressionCallee_skeletonFields]

private theorem front?_skeletonFields (kind : Kind) (span : Option Span) (fields : List (Field × Tree)) :
    (Tree.node kind span (skeletonFields fields)).front? = (Tree.node kind span fields).front?.map skeleton := by
  rw [front?, front?, opening?_skeletonFields]
  cases opening? kind fields with
  | none => rfl
  | some f => rw [Option.bind_some, Option.bind_some, headOf?_eq, headOf?_eq, lookup_skeletonFields, head?_skeleton]

end Tree

namespace Visit
variable {pure : Tree → Bool} {v : Visit}

/-- The visit of the same node with holes in place of its types. -/
def skeleton (v : Visit) : Visit :=
  { v with fields := skeletonFields v.fields }

private theorem start_skeleton (v : Visit) : v.skeleton.start = v.start := by
  rw [start, start, node, node, skeleton]
  cases v.span <;> rfl

private theorem opens_skeleton (v : Visit) : v.skeleton.opens = v.opens := by
  have hfront : v.skeleton.node.front? = v.node.front?.map Tree.skeleton := front?_skeletonFields v.kind v.span v.fields
  rw [opens, opens, hfront, start_skeleton]
  cases hhead : v.node.front? with
  | none => rfl
  | some h =>
    obtain ⟨f, -, hf⟩ := front?_eq_some.mp hhead
    obtain ⟨kind, span, fields, hk, rfl⟩ := head?_isCall ((headOf?_eq f v.fields).symm.trans hf)
    rw [Option.map_some, skeleton_node (Kind.not_type_of_call hk)]
    cases span <;> rfl

private theorem change_skeleton (hp : Nominal pure) (v : Visit) : v.skeleton.change pure = v.change pure := by
  have hcalls : v.skeleton.node.callsPure pure = v.node.callsPure pure := callsPure_skeleton hp
  rw [change, change, opens_skeleton, isDue_node, isDue_node, hcalls, start_skeleton]
  rfl

/-- A visit does the same to a node whatever its types are. -/
theorem fieldsAfter_skeleton (hp : Nominal pure) (v : Visit) :
    v.skeleton.fieldsAfter pure = skeletonFields (v.fieldsAfter pure) ∧
      typesOfFields (v.fieldsAfter pure) = typesOfFields v.fields := by
  have hopening : opening? v.skeleton.kind v.skeleton.fields = opening? v.kind v.fields :=
    opening?_skeletonFields v.kind v.fields
  unfold fieldsAfter
  rw [change_skeleton hp, hopening]
  split
  next f _ _ =>
    obtain ⟨hskeleton, htypes⟩ := skeletonFields_wrapAtOf v.before.fresh f v.fields
    exact ⟨hskeleton.symm, htypes⟩
  next => exact ⟨rfl, rfl⟩

private theorem after_skeleton (hp : Nominal pure) (v : Visit) : v.skeleton.after pure = v.after pure := by
  rw [after_eq hp, after_eq hp, change_skeleton hp, start_skeleton]
  rfl

end Visit

namespace Marking
variable {pure : Tree → Bool}

mutual

/-- A walk leaves the types alone and does not notice them. -/
theorem walk_skeleton (hp : Nominal pure) : ∀ (t : Tree) (s : Marking),
    walk pure t.skeleton s = ((walk pure t s).1.skeleton, (walk pure t s).2) ∧ (walk pure t s).1.types = t.types
  | .list items, s => by
    obtain ⟨hwalk, htypes⟩ := walkItems_skeleton hp items s
    rw [skeleton, walk, walk, hwalk]
    exact ⟨rfl, htypes⟩
  | .node kind span fields, s => by
    cases hk : kind.isType with
    | true => 
      rw [skeleton_type hk, walk_type hk, skeleton_type hk]
      exact ⟨walk_type rfl none [] s, rfl⟩
    | false =>
      obtain ⟨hwalk, htypes⟩ := walkFields_skeleton hp fields s
      have hvisit : visitOf pure kind span (skeletonFields fields) s = (visitOf pure kind span fields s).skeleton := by
        rw [visitOf, hwalk]
        rfl
      obtain ⟨hskeleton, hkept⟩ := (visitOf pure kind span fields s).fieldsAfter_skeleton hp
      rw [skeleton_node hk, walk_node hp hk, walk_node hp hk, hvisit, hskeleton, Visit.after_skeleton hp,
        skeleton_node hk, types_node hk, types_node hk, hkept]
      exact ⟨rfl, htypes⟩
  | .null, _ | .bool _, _ | .number _ _, _ | .text _, _ | .range _, _ => ⟨rfl, rfl⟩

private theorem walkItems_skeleton (hp : Nominal pure) : ∀ (items : List Tree) (s : Marking),
    walkItems pure (skeletonItems items) s =
        (skeletonItems (walkItems pure items s).1, (walkItems pure items s).2) ∧
      typesOfItems (walkItems pure items s).1 = typesOfItems items
  | [], _ => ⟨rfl, rfl⟩
  | t :: rest, s => by
    obtain ⟨hfirst, htypes⟩ := walk_skeleton hp t s
    obtain ⟨hlater, htypes'⟩ := walkItems_skeleton hp rest (walk pure t s).2
    simp only [skeletonItems, walkItems, hfirst, hlater]
    exact ⟨trivial, congrArg₂ (· ++ ·) htypes htypes'⟩

private theorem walkFields_skeleton (hp : Nominal pure) : ∀ (fields : List (Field × Tree)) (s : Marking),
    walkFields pure (skeletonFields fields) s =
        (skeletonFields (walkFields pure fields s).1, (walkFields pure fields s).2) ∧
      typesOfFields (walkFields pure fields s).1 = typesOfFields fields
  | [], _ => ⟨rfl, rfl⟩
  | (f, t) :: rest, s => by
    obtain ⟨hfirst, htypes⟩ := walk_skeleton hp t s
    obtain ⟨hlater, htypes'⟩ := walkFields_skeleton hp rest (walk pure t s).2
    simp only [skeletonFields, walkFields, hfirst, hlater]
    exact ⟨trivial, congrArg₂ (· ++ ·) htypes htypes'⟩

end

end Marking

namespace Imports

/-- Whether no type stands where a declaration names its module or a specifier what it imports. The syntax has only
names there. -/
def ByName (item : Tree) : Prop :=
  item.isKind .importDeclaration = true → (item.field .source).isType = false ∧
    ∀ specifier ∈ (item.field .specifiers).items, (specifier.field .imported).isType = false

instance (item : Tree) : Decidable (ByName item) :=
  inferInstanceAs (Decidable (item.isKind .importDeclaration = true → _ ∧ _))

private theorem isType_of_isKind {t : Tree} {kind : Kind} (h : t.isKind kind = true) (hk : kind.isType = false) :
    t.isType = false := by
  have hkind : t.kind? = some kind := by simpa [isKind] using h
  rw [isType, hkind]
  exact hk

private theorem isType_of_binding? {t : Tree} {b : Binding} (h : t.binding? = some b) : t.isType = false := by
  cases t with
  | node kind span fields =>
    rw [binding?_node] at h
    split at h
    next hi => rw [hi]; rfl
    next => cases h
  | _ => rfl

private theorem exportedName?_of_type {t : Tree} (h : t.isType = true) : exportedName? t = none := by
  unfold exportedName?
  split
  next hk => rw [isType, hk] at h; cases h
  next hk => rw [isType, hk] at h; cases h
  next hk => rw [isType, hk] at h; cases h
  next => rfl

private theorem exportedName?_skeleton {t : Tree} (ht : t.isType = false) (hlocal : (t.field .localName).isType = false)
    (himported : (t.field .imported).isType = false) : exportedName? t.skeleton = exportedName? t := by
  simp only [exportedName?, kind?_skeleton ht, flag_skeleton ht, field_skeleton ht, field_skeleton hlocal,
    field_skeleton himported, isNull_skeleton, text?_skeleton]

private theorem addSpecifier_skeleton (source : Option String) (imports : Imports) {t : Tree}
    (h : (t.field .imported).isType = false) :
    addSpecifier source imports t.skeleton = addSpecifier source imports t := by
  cases ht : t.isType with
  | true =>
    rw [addSpecifier, addSpecifier, skeleton_of_isType ht, exportedName?_of_type ht, exportedName?_of_type rfl]
    cases (t.field .localName).binding? <;> rfl
  | false =>
    rw [addSpecifier, addSpecifier, field_skeleton ht, binding?_skeleton]
    cases hb : (t.field .localName).binding? with
    | none => rfl
    | some b => rw [exportedName?_skeleton ht (isType_of_binding? hb) h]

private theorem foldl_skeleton {add : Imports → Tree → Imports} {items : List Tree}
    (h : ∀ t ∈ items, ∀ imports, add imports t.skeleton = add imports t) (imports : Imports) :
    (items.map skeleton).foldl add imports = items.foldl add imports := by
  rw [List.foldl_map]
  exact List.foldl_ext _ _ imports fun imports t ht => h t ht imports

private theorem addItem_skeleton (imports : Imports) {item : Tree} (h : ByName item) :
    addItem imports item.skeleton = addItem imports item := by
  cases hd : item.isKind .importDeclaration with
  | false => rw [addItem, addItem, isKind_skeleton rfl, hd]; rfl
  | true =>
    have ht : item.isType = false := isType_of_isKind hd rfl
    obtain ⟨hsource, himported⟩ := h hd
    rw [addItem, addItem, isKind_skeleton rfl, flag_skeleton ht, field_skeleton ht, field_skeleton ht,
      field_skeleton hsource, text?_skeleton, items_skeleton,
      foldl_skeleton fun t ht imports => addSpecifier_skeleton _ imports (himported t ht)]

/-- What a module imports does not depend on its types. -/
theorem ofModule_skeleton {t : Tree} (ht : t.isType = false) (h : ∀ item ∈ (t.field .body).items, ByName item) :
    ofModule t.skeleton = ofModule t := by
  rw [ofModule, ofModule, field_skeleton ht, items_skeleton,
    foldl_skeleton fun item hitem imports => addItem_skeleton imports (h item hitem)]

end Imports

namespace Annotator
variable {w : Whitelist} {program : Tree}

/-- A run over a program leaves the skeleton that the run over its skeleton leaves, and the types that were there. -/
private theorem visit_skeleton (h : ∀ item ∈ (program.field .body).items, Imports.ByName item) (comments : Comments)
    (c : Pos) :
    visit w program.skeleton (start comments c) =
        ((visit w program (start comments c)).1.skeleton, (visit w program (start comments c)).2) ∧
      (visit w program (start comments c)).1.types = program.types := by
  cases hmodule : program.isKind .moduleProgram with
  | false =>
    have hnot {t : Tree} (ht : t.isKind .moduleProgram = false) : walks w t = false := by rw [walks, ht]; rfl
    rw [visit_of_not_walks (hnot hmodule), visit_of_not_walks (hnot ((isKind_skeleton rfl program).trans hmodule))]
    exact ⟨rfl, rfl⟩
  | true =>
    have himports := Imports.ofModule_skeleton (Imports.isType_of_isKind hmodule rfl) h
    have hwalks : walks w program.skeleton = walks w program := by rw [walks, walks, isKind_skeleton rfl, himports]
    have hverdict : verdict w program.skeleton = verdict w program := by rw [verdict, verdict, himports]
    cases hw : walks w program with
    | false =>
      rw [visit_of_not_walks hw, visit_of_not_walks (hwalks.trans hw)]
      exact ⟨rfl, rfl⟩
    | true =>
      obtain ⟨hwalk, htypes⟩ := walk_skeleton (verdict_nominal w program) program (start comments c).marking
      rw [visit_of_walks hw, visit_of_walks (hwalks.trans hw), hverdict, hwalk]
      exact ⟨rfl, htypes⟩

/-- Types play no part in a run. Runs over two programs that differ in their types only do the same to the comments,
take the same fresh positions and leave the same program, but for the types. Each leaves the types that were there, so
that one leaves what the other leaves, with the types of its own program. -/
theorem types_inert (w : Whitelist) (program program' : Tree) (comments : Comments) (c : Pos) :
    let run := visit w program (start comments c)
    let run' := visit w program' (start comments c)
    (∀ item ∈ (program.field .body).items, Imports.ByName item) →
      (∀ item ∈ (program'.field .body).items, Imports.ByName item) → program'.skeleton = program.skeleton →
      run'.2 = run.2 ∧ run'.1.skeleton = run.1.skeleton ∧ run.1.types = program.types ∧
        run'.1.types = program'.types ∧
        ∀ t : Tree, t.skeleton = run.1.skeleton → t.types = program'.types → t = run'.1 := by
  intro run run' h h' hskeleton
  obtain ⟨hrun, htypes⟩ := visit_skeleton (w := w) h comments c
  obtain ⟨hrun', htypes'⟩ := visit_skeleton (w := w) h' comments c
  rw [hskeleton, hrun] at hrun'
  obtain ⟨houtput, hsnd⟩ := Prod.mk.inj hrun'
  refine ⟨hsnd.symm, houtput.symm, htypes, htypes', fun t ht httypes => ?_⟩
  exact (eq_of_skeleton t run'.1 (ht.trans houtput) (congrArg (· ++ []) (httypes.trans htypes'.symm))).1

/-- The program `import { f } from "m"; f<>(f()).g();` with any types between the angle brackets. -/
def chainedOver (types : List Tree) : Tree :=
  .node .moduleProgram (some ⟨1, 36⟩) [(.body, .list ((chained.field .body).items.take 1 ++ [
    .node .expressionStatement (some ⟨25, 36⟩) [(.expression, .node .call (some ⟨25, 35⟩) [
      (.callee, .node .member (some ⟨25, 33⟩) [
        (.object, .node .call (some ⟨25, 31⟩) [
          (.callee, chained.called 25),
          (.arguments, .list [.node .plain none [(.expression, chained.argument)]]),
          (.typeArguments, .node .typeArguments (some ⟨25, 27⟩) [(.params, .list types)])]),
        (.property, .node .identifier (some ⟨32, 33⟩) [(.value, .text "g")])]),
      (.arguments, .list [])])]]))]

/-- Calls of `f` that stand in a type are not marked, wherever they start. -/
theorem types_inert_chained :
    let run := visit .calledF (chainedOver []) (start {} .firstFresh)
    let run' := visit .calledF (chainedOver [chained.head, chained.argument]) (start {} .firstFresh)
    run'.2 = run.2 ∧ run'.1.types =
      [.node .typeArguments (some ⟨25, 27⟩) [(.params, .list [chained.head, chained.argument])]] := by
  intro run run'
  obtain ⟨hsame, -, -, htypes, -⟩ := types_inert .calledF (chainedOver []) (chainedOver [chained.head, chained.argument])
    {} .firstFresh (by decide) (by decide) rfl
  exact ⟨hsame, htypes⟩

end Annotator
end PureCalls
