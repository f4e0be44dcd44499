import PureCalls.Proofs.Visits

/-! What a walk leaves as it was: the kinds and places of nodes, the leaves, what a callee spells and what a module
imports. So a verdict on a tree that a walk has been over is the verdict on the tree before it. -/
namespace PureCalls
open PureCalls.Tree
namespace Marking
variable {pure : Tree → Bool}

theorem lookup_walkFields (pure : Tree → Bool) (fields : List (Field × Tree)) (s : Marking) (f : Field) :
    ∃ s', lookup f (walkFields pure fields s).1 = (walk pure (lookup f fields) s').1 := by
  induction fields generalizing s with
  | nil => exact ⟨s, rfl⟩
  | cons entry fields ih =>
    obtain ⟨g, t⟩ := entry
    by_cases hg : g = f
    · exact ⟨s, by simp [walkFields, lookup_cons, hg]⟩
    · obtain ⟨s', hs'⟩ := ih (walk pure t s).2
      exact ⟨s', by simpa [walkFields, lookup_cons, hg] using hs'⟩

private theorem isKind_wrapAt {kind : Kind} (h : kind ≠ .call) (h' : kind ≠ .newExpression) (h'' : kind ≠ .paren)
    (fresh : Pos) (t : Tree) : (wrapAt fresh t).isKind kind = t.isKind kind := by
  cases t with
  | node k span fields =>
    rw [wrapAt]
    split
    next hk =>
      rcases Kind.call_cases hk with rfl | rfl
      · simp [isKind, kind?, wrap, h.symm, h''.symm]
      · simp [isKind, kind?, wrap, h'.symm, h''.symm]
    next => split <;> rfl
  | _ => rfl

end Marking

namespace Visit
open Marking
variable {pure : Tree → Bool}

theorem fieldsAfter_eq (pure : Tree → Bool) (v : Visit) :
    v.fieldsAfter pure = v.fields ∨ ∃ f, opening? v.kind v.fields = some f ∧ v.change pure = .release ∧
      v.fieldsAfter pure = wrapAtOf v.before.fresh f v.fields := by
  unfold fieldsAfter
  split
  next f hc hf => exact Or.inr ⟨f, hf, hc, rfl⟩
  next => exact Or.inl rfl

theorem opening_cases {kind : Kind} {fields : List (Field × Tree)} {f : Field} (h : opening? kind fields = some f) :
    kind = .call ∧ f = .callee ∧ hasExpressionCallee fields = true ∨
      kind = .optionalChain ∧ f = .base ∨ kind = .tagged ∧ f = .tag := by
  unfold opening? at h
  split at h
  next hk =>
    split at h
    next he => exact Or.inl ⟨hk, by simpa [eq_comm] using h, he⟩
    next => simp at h
  next =>
    split at h
    next hk => exact Or.inr (Or.inl ⟨hk, by simpa [eq_comm] using h⟩)
    next =>
      split at h
      next hk => exact Or.inr (Or.inr ⟨hk, by simpa [eq_comm] using h⟩)
      next => simp at h

private theorem lookup_fieldsAfter (pure : Tree → Bool) (v : Visit) (g : Field) :
    lookup g (v.fieldsAfter pure) = lookup g v.fields ∨
      (g = .callee ∨ g = .base ∨ g = .tag) ∧
        lookup g (v.fieldsAfter pure) = wrapAt v.before.fresh (lookup g v.fields) := by
  rcases v.fieldsAfter_eq pure with h | ⟨f, hf, _, h⟩
  · exact Or.inl (by rw [h])
  · rw [h, lookup_wrapAtOf]
    by_cases hg : g = f
    · subst hg
      refine Or.inr ⟨?_, if_pos rfl⟩
      rcases opening_cases hf with ⟨_, h, _⟩ | ⟨_, h⟩ | ⟨_, h⟩ <;> simp [h]
    · exact Or.inl (if_neg hg)

end Visit

namespace Tree

def integer? : Tree → Option Int
  | .number mantissa 0 => some mantissa
  | _ => none

theorem binding?_node (kind : Kind) (span : Option Span) (fields : List (Field × Tree)) :
    (Tree.node kind span fields).binding? =
      if kind = .identifier then (lookup .value fields).text?.bind fun name =>
        (lookup .ctxt fields).integer?.map fun context => Binding.mk name context
      else none := by
  split
  next h =>
    subst h
    cases hv : lookup .value fields with
    | text name =>
      cases hx : lookup .ctxt fields with
      | number mantissa decimals => cases decimals <;> simp [binding?, Kind.identifier, hv, hx, integer?, text?]
      | _ => simp [binding?, Kind.identifier, hv, hx, integer?, text?]
    | _ => simp [binding?, Kind.identifier, hv, text?]
  next h =>
    obtain ⟨name⟩ := kind
    unfold binding?
    split
    next he => simp_all [Kind.identifier]
    next => rfl

end Tree

theorem Callee.propertyName?_node (kind : Kind) (span : Option Span) (fields : List (Field × Tree)) :
    Callee.propertyName? (.node kind span fields) =
      if kind = .identifier then (lookup .value fields).text? else none := by
  obtain ⟨name⟩ := kind
  unfold Callee.propertyName?
  split <;> simp_all [Kind.identifier]

open Marking

/-- What may become of a tree in a walk: it is walked over, or left alone inside a type. -/
def Walked (pure : Tree → Bool) (t t' : Tree) : Prop :=
  t' = t ∨ ∃ s, t' = (walk pure t s).1

namespace Walked
variable {pure : Tree → Bool} {t t' : Tree}

theorem of_walk (t : Tree) (s : Marking) : Walked pure t (walk pure t s).1 :=
  Or.inr ⟨s, rfl⟩

theorem of_lookup (pure : Tree → Bool) (fields : List (Field × Tree)) (s : Marking) (f : Field) :
    Walked pure (lookup f fields) (lookup f (walkFields pure fields s).1) :=
  Or.inr (lookup_walkFields pure fields s f)

/-- A leaf stays, and a list or a node stays a list or a node. -/
theorem cases (hp : Nominal pure) (h : Walked pure t t') :
    t' = t ∨ (∃ items s, t = .list items ∧ t' = .list (walkItems pure items s).1) ∨
      ∃ kind span fields s, kind.isType = false ∧ t = .node kind span fields ∧
        t' = .node kind span ((visitOf pure kind span fields s).fieldsAfter pure) := by
  rcases h with rfl | ⟨s, rfl⟩
  · exact Or.inl rfl
  · cases t with
    | node kind span fields =>
      cases hk : kind.isType with
      | true => exact Or.inl (by rw [walk_type hk])
      | false => exact Or.inr (Or.inr ⟨kind, span, fields, s, hk, rfl, by rw [walk_node hp hk]⟩)
    | list items => exact Or.inr (Or.inl ⟨items, s, rfl, rfl⟩)
    | _ => exact Or.inl rfl

theorem kind (hp : Nominal pure) (h : Walked pure t t') : t'.kind? = t.kind? := by
  rcases h.cases hp with rfl | ⟨items, s, rfl, rfl⟩ | ⟨k, span, fields, s, _, rfl, rfl⟩ <;> rfl

theorem span (hp : Nominal pure) (h : Walked pure t t') : t'.span? = t.span? := by
  rcases h.cases hp with rfl | ⟨items, s, rfl, rfl⟩ | ⟨k, span, fields, s, _, rfl, rfl⟩ <;> rfl

private theorem text (hp : Nominal pure) (h : Walked pure t t') : t'.text? = t.text? := by
  rcases h.cases hp with rfl | ⟨items, s, rfl, rfl⟩ | ⟨k, span, fields, s, _, rfl, rfl⟩ <;> rfl

theorem isNull (hp : Nominal pure) (h : Walked pure t t') : t'.isNull = t.isNull := by
  rcases h.cases hp with rfl | ⟨items, s, rfl, rfl⟩ | ⟨k, span, fields, s, _, rfl, rfl⟩ <;> rfl

/-- Fields that no walk wraps anything in are walked over or left alone as a whole. -/
theorem field (hp : Nominal pure) (h : Walked pure t t') {f : Field} (hc : f ≠ .callee) (hb : f ≠ .base)
    (ht : f ≠ .tag) : Walked pure (t.field f) (t'.field f) := by
  rcases h.cases hp with rfl | ⟨items, s, rfl, rfl⟩ | ⟨k, span, fields, s, _, rfl, rfl⟩
  · exact Or.inl rfl
  · exact Or.inl rfl
  · rcases (visitOf pure k span fields s).lookup_fieldsAfter pure f with hf | ⟨hf, -⟩
    · simp only [Tree.field, hf]
      exact of_lookup pure fields s f
    · simp [hc, hb, ht] at hf

private theorem integer (hp : Nominal pure) (h : Walked pure t t') : t'.integer? = t.integer? := by
  rcases h.cases hp with rfl | ⟨items, s, rfl, rfl⟩ | ⟨k, span, fields, s, _, rfl, rfl⟩ <;> rfl

theorem binding (hp : Nominal pure) (h : Walked pure t t') : t'.binding? = t.binding? := by
  have hvalue := (h.field hp (f := .value) (by decide) (by decide) (by decide)).text hp
  have hctxt := (h.field hp (f := .ctxt) (by decide) (by decide) (by decide)).integer hp
  rcases h.cases hp with rfl | ⟨items, s, rfl, rfl⟩ | ⟨k, span, fields, s, _, rfl, rfl⟩
  · rfl
  · rfl
  · simp only [Tree.field] at hvalue hctxt
    rw [binding?_node, binding?_node, hvalue, hctxt]

private theorem propertyName (hp : Nominal pure) (h : Walked pure t t') :
    Callee.propertyName? t' = Callee.propertyName? t := by
  have hvalue := (h.field hp (f := .value) (by decide) (by decide) (by decide)).text hp
  rcases h.cases hp with rfl | ⟨items, s, rfl, rfl⟩ | ⟨k, span, fields, s, _, rfl, rfl⟩
  · rfl
  · rfl
  · simp only [Tree.field] at hvalue
    rw [Callee.propertyName?_node, Callee.propertyName?_node, hvalue]

/-- A walk keeps what a callee spells. -/
theorem ofTree (hp : Nominal pure) (h : Walked pure t t') : Callee.ofTree t' = Callee.ofTree t := by
  induction t using induction_lookup generalizing t' with
  | leaf t hk =>
    rcases h.cases hp with rfl | ⟨items, s, rfl, rfl⟩ | ⟨k, span, fields, s, _, rfl, rfl⟩
    · rfl
    · rfl
    · cases hk
  | node kind span fields ih =>
    have hfield {f : Field} (hc : f ≠ .callee) (hb : f ≠ .base) (ht : f ≠ .tag) :
        Callee.ofTree (t'.field f) = Callee.ofTree (lookup f fields) := ih f (h.field hp hc hb ht)
    have hproperty := (h.field hp (f := .property) (by decide) (by decide) (by decide)).propertyName hp
    have hbinding := h.binding hp
    rcases h.cases hp with rfl | ⟨items, s, ht, rfl⟩ | ⟨k, span', fields', s, _, ht, rfl⟩
    · rfl
    · cases ht
    · cases ht
      by_cases hi : kind = .identifier
      · simp only [Callee.ofTree, hi, if_true] at hbinding ⊢
        rw [hbinding]
      by_cases hparen : kind = .paren
      · subst hparen
        rw [Callee.ofTree_paren, Callee.ofTree_paren]
        exact hfield (f := .expression) (by decide) (by decide) (by decide)
      by_cases hm : kind = .member
      · subst hm
        rw [Callee.ofTree_member, Callee.ofTree_member]
        have hobject := hfield (f := .object) (by decide) (by decide) (by decide)
        simp only [Tree.field] at hproperty hobject
        rw [hproperty, hobject]
      · rw [Callee.ofTree_other hi hparen hm, Callee.ofTree_other hi hparen hm]

theorem flag (hp : Nominal pure) (h : Walked pure t t') {f : Field} (hc : f ≠ .callee) (hb : f ≠ .base)
    (ht : f ≠ .tag) : t'.flag f = t.flag f := by
  unfold Tree.flag
  rcases (h.field hp hc hb ht).cases hp with hf | ⟨items, s, hf, hf'⟩ | ⟨k, span, fields, s, _, hf, hf'⟩
  · rw [hf]
  · rw [hf, hf']
  · rw [hf, hf']

theorem ofItems (items : List Tree) (s : Marking) : List.Forall₂ (Walked pure) items (walkItems pure items s).1 := by
  induction items generalizing s with
  | nil => exact .nil
  | cons t items ih => exact .cons (of_walk t s) (ih _)

private theorem items (hp : Nominal pure) (h : Walked pure t t') : List.Forall₂ (Walked pure) t.items t'.items := by
  rcases h.cases hp with rfl | ⟨items, s, rfl, rfl⟩ | ⟨k, span, fields, s, _, rfl, rfl⟩
  · exact List.forall₂_same.mpr fun t _ => Or.inl rfl
  · exact ofItems items s
  · exact .nil

end Walked

namespace Imports
variable {pure : Tree → Bool} {t t' : Tree}

private theorem exportedName?_walked (hp : Nominal pure) (h : Walked pure t t') :
    exportedName? t' = exportedName? t := by
  have himported := h.field hp (f := .imported) (by decide) (by decide) (by decide)
  have hlocal := h.field hp (f := .localName) (by decide) (by decide) (by decide)
  have hexported := (himported.field hp (f := .value) (by decide) (by decide) (by decide)).text hp
  have hname := (hlocal.field hp (f := .value) (by decide) (by decide) (by decide)).text hp
  unfold exportedName?
  rw [h.kind hp, h.flag hp (by decide) (by decide) (by decide), himported.isNull hp, hexported, hname]

private theorem addSpecifier_walked (hp : Nominal pure) (h : Walked pure t t') (source : Option String)
    (imports : Imports) : addSpecifier source imports t' = addSpecifier source imports t := by
  have hlocal := (h.field hp (f := .localName) (by decide) (by decide) (by decide)).binding hp
  rw [addSpecifier, hlocal, exportedName?_walked hp h]
  rfl

private theorem foldl_walked {add : Imports → Tree → Imports}
    (hadd : ∀ imports t t', Walked pure t t' → add imports t' = add imports t) {items items' : List Tree}
    (h : List.Forall₂ (Walked pure) items items') (imports : Imports) :
    items'.foldl add imports = items.foldl add imports := by
  induction h generalizing imports with
  | nil => rfl
  | cons hw _ ih => rw [List.foldl_cons, List.foldl_cons, hadd _ _ _ hw, ih]

private theorem addItem_walked (hp : Nominal pure) (h : Walked pure t t') (imports : Imports) :
    addItem imports t' = addItem imports t := by
  have hspecifiers := h.field hp (f := .specifiers) (by decide) (by decide) (by decide)
  have hsource := h.field hp (f := .source) (by decide) (by decide) (by decide)
  have htext := (hsource.field hp (f := .value) (by decide) (by decide) (by decide)).text hp
  unfold addItem isKind
  rw [h.kind hp, h.flag hp (by decide) (by decide) (by decide), htext]
  have hfold := foldl_walked (fun imports _ _ hw => addSpecifier_walked hp hw
    ((t.field .source).field .value).text? imports) (hspecifiers.items hp) imports
  rw [hfold]

/-- A walk keeps what a module imports. -/
theorem ofModule_walked (hp : Nominal pure) (h : Walked pure t t') : ofModule t' = ofModule t :=
  foldl_walked (fun imports _ _ hw => addItem_walked hp hw imports)
    ((h.field hp (f := .body) (by decide) (by decide) (by decide)).items hp) []

end Imports

namespace Tree
variable {pure : Tree → Bool}

/-- Whether two nodes are alike to a walk: of one kind, in one place, and both or neither a pure call. -/
structure Alike (pure : Tree → Bool) (t u : Tree) : Prop where
  kind : u.kind? = t.kind?
  start : u.start = t.start
  callsPure : u.callsPure pure = t.callsPure pure

theorem Alike.refl (t : Tree) : Alike pure t t := ⟨rfl, rfl, rfl⟩

private theorem Alike.trans {t u v : Tree} (h : Alike pure t u) (h' : Alike pure u v) : Alike pure t v :=
  ⟨h'.kind.trans h.kind, h'.start.trans h.start, h'.callsPure.trans h.callsPure⟩

private theorem alike_of_callee (hp : Nominal pure) (kind : Kind) (span : Option Span) {fields fields' : List (Field × Tree)}
    (hkind : ∀ k, k = .superCallee ∨ k = .importCallee →
      (lookup .callee fields').isKind k = (lookup .callee fields).isKind k)
    (hcallee : Callee.ofTree (lookup .callee fields') = Callee.ofTree (lookup .callee fields)) :
    Alike pure (.node kind span fields) (.node kind span fields') := by
  refine ⟨rfl, by cases span <;> rfl, ?_⟩
  have he : hasExpressionCallee fields' = hasExpressionCallee fields := by
    rw [hasExpressionCallee, hkind _ (Or.inl rfl), hkind _ (Or.inr rfl)]
    rfl
  simp only [callsPure, callee?, he]
  split
  · exact hp.congr hcallee
  · rfl

/-- Whether a visit is the one of a node, whose fields the walk has been over. -/
def VisitedBy (pure : Tree → Bool) (n : Tree) (v : Visit) : Prop :=
  ∃ kind span fields s, kind.isType = false ∧ n = .node kind span fields ∧ v = visitOf pure kind span fields s

theorem VisitedBy.alike (hp : Nominal pure) {n : Tree} {v : Visit} (h : VisitedBy pure n v) :
    Alike pure n v.node := by
  obtain ⟨kind, span, fields, s, -, rfl, rfl⟩ := h
  have hw := Walked.of_lookup pure fields s .callee
  apply alike_of_callee hp
  · intro k _
    exact congrArg (· == some k) (hw.kind hp)
  · exact hw.ofTree hp

private theorem alike_fieldsAfter (hp : Nominal pure) (v : Visit) :
    Alike pure v.node (.node v.kind v.span (v.fieldsAfter pure)) := by
  apply alike_of_callee hp
  · intro k hk
    rcases v.lookup_fieldsAfter pure .callee with h | ⟨-, h⟩
    · rw [h]
    · rw [h, isKind_wrapAt] <;> rcases hk with rfl | rfl <;> decide
  · rcases v.lookup_fieldsAfter pure .callee with h | ⟨-, h⟩
    · rw [h]
    · rw [h, Callee.ofTree_wrapAt]

theorem alike_walk (hp : Nominal pure) {kind : Kind} (hk : kind.isType = false) (span : Option Span)
    (fields : List (Field × Tree)) (s : Marking) :
    Alike pure (.node kind span fields) (walk pure (.node kind span fields) s).1 := by
  have hvisited : VisitedBy pure (.node kind span fields) (visitOf pure kind span fields s) :=
    ⟨kind, span, fields, s, hk, rfl, rfl⟩
  rw [walk_node hp hk]
  exact (hvisited.alike hp).trans (alike_fieldsAfter hp _)

end Tree

namespace Marking
variable {pure : Tree → Bool}

mutual

/-- A walk visits the nodes that it reaches, one after the other. -/
theorem visits_reached (pure : Tree → Bool) : ∀ (t : Tree) (s : Marking),
    List.Forall₂ (VisitedBy pure) t.reached (visits pure t s)
  | .list items, s => visits_reached_items pure items s
  | .node kind span fields, s => by
    rw [reached, visits]
    split
    · exact .nil
    next hk =>
      have hnode : VisitedBy pure (.node kind span fields) (visitOf pure kind span fields s) :=
        ⟨kind, span, fields, s, by simpa using hk, rfl, rfl⟩
      exact List.rel_append (visits_reached_fields pure fields s) (.cons hnode .nil)
  | .null, _ | .bool _, _ | .number _ _, _ | .text _, _ | .range _, _ => .nil

private theorem visits_reached_items (pure : Tree → Bool) : ∀ (items : List Tree) (s : Marking),
    List.Forall₂ (VisitedBy pure) (reachedOfItems items) (visitsOfItems pure items s)
  | [], _ => .nil
  | t :: rest, s => List.rel_append (visits_reached pure t s) (visits_reached_items pure rest _)

private theorem visits_reached_fields (pure : Tree → Bool) : ∀ (fields : List (Field × Tree)) (s : Marking),
    List.Forall₂ (VisitedBy pure) (reachedOfFields fields) (visitsOfFields pure fields s)
  | [], _ => .nil
  | (_, t) :: rest, s => List.rel_append (visits_reached pure t s) (visits_reached_fields pure rest _)

end

theorem exists_visitedBy {ns : List Tree} {vs : List Visit} (h : List.Forall₂ (VisitedBy pure) ns vs) :
    ∀ v ∈ vs, ∃ n ∈ ns, VisitedBy pure n v := by
  induction h with
  | nil => simp
  | @cons n v ns vs hn _ ih =>
    refine List.forall_mem_cons.mpr ⟨⟨n, List.mem_cons_self, hn⟩, fun v hv => ?_⟩
    obtain ⟨m, hm, hv⟩ := ih v hv
    exact ⟨m, List.mem_cons_of_mem _ hm, hv⟩

end Marking

/-- Each visit of a run is one of a node that the walk reaches. -/
theorem Annotator.visits_alike (w : Whitelist) (program : Tree) (a : Annotator) :
    ∀ v ∈ visits w program a, ∃ n ∈ program.reached, Alike (verdict w program) n v.node := by
  intro v hv
  unfold visits at hv
  split at hv
  next =>
    obtain ⟨n, hn, hvisited⟩ := exists_visitedBy (Marking.visits_reached _ program a.marking) v hv
    exact ⟨n, hn, hvisited.alike (verdict_nominal w program)⟩
  next => simp at hv

end PureCalls
