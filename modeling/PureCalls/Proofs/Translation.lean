import PureCalls.Proofs.Unchanged

/-! Maps of trees that a walk does not notice. They keep the kind of every node, and they map one by one the trees in
the fields through which a site leads to the call in front of it. So a walk over a tree and a walk over its image go
visit by visit together. -/
namespace PureCalls
open PureCalls.Tree Marking

/-- The span with both ends moved. -/
def Span.move (place : Pos → Pos) (span : Span) : Span :=
  ⟨place span.start, place span.stop⟩

/-- Whether a node of the kind may be a site, stand between a site and the call in front of it, or hold that call in
parentheses. -/
def Kind.isPassage (k : Kind) : Bool :=
  k.isSite || (operand? k).isSome || k = .paren

theorem Kind.isPassage_of_site {k : Kind} (h : k.isSite = true) : k.isPassage = true := by
  simp [isPassage, h]

private theorem Kind.isPassage_of_operand {k : Kind} {f : Field} (h : operand? k = some f) : k.isPassage = true := by
  simp [isPassage, h]

private theorem Tree.start_of_leaf {t : Tree} (h : t.kind? = none) : t.start = .dummy := by
  cases t <;> first | rfl | cases h

/-- Whether a tree is neither a node nor a list. -/
def Tree.isLeaf : Tree → Bool
  | .list _ | .node _ _ _ => false
  | _ => true

/-- A missing field stays missing when the fields are mapped. -/
theorem Tree.lookup_map_of_null {image : Tree → Tree} (h : image .null = .null) (f : Field) (fs : List (Field × Tree)) :
    lookup f (fs.map (Prod.map id image)) = image (lookup f fs) := by
  induction fs with
  | nil => exact h.symm
  | cons entry fs ih =>
    obtain ⟨g, t⟩ := entry
    rw [List.map_cons, Prod.map_apply, id_eq, lookup_cons, lookup_cons, ih]
    split <;> rfl

theorem Marking.walk_of_leaf {t : Tree} (h : t.isLeaf = true) (pure : Tree → Bool) (s : Marking) :
    walk pure t s = (t, s) := by
  cases t <;> first | rfl | cases h

private theorem Marking.head?_of_leaf {t : Tree} (h : t.kind? = none) : head? t = none := by
  cases t <;> first | rfl | cases h

namespace Marking
variable {pure : Tree → Bool} {s : Marking}

theorem visit_of_not_site {kind : Kind} (h : kind.isSite = false) (span : Option Span) (fields : List (Field × Tree)) :
    visit pure kind span fields s = (.node kind span fields, s) := by
  simp only [Kind.isSite, Bool.or_eq_false_iff, decide_eq_false_iff_not] at h
  obtain ⟨⟨⟨hcall, hnew⟩, hchain⟩, htag⟩ := h
  simp only [visit, hcall, hnew, hchain, htag, if_false]

mutual

/-- A walk that comes to no site does nothing. -/
theorem walk_of_no_sites : ∀ t : Tree, (∀ n ∈ t.reached, n.isSite = false) → walk pure t s = (t, s)
  | .list items, h => by rw [walk, walkItems_of_no_sites items h]
  | .node kind span fields, h => by
    cases hk : kind.isType with
    | true => exact walk_type hk span fields s
    | false =>
      rw [reached, hk, if_neg (by decide)] at h
      obtain ⟨hfields, hnode⟩ := List.forall_mem_append.mp h
      have hkind : kind.isSite = false := hnode (.node kind span fields) List.mem_cons_self
      rw [walk, hk, if_neg (by decide), walkFields_of_no_sites fields hfields]
      exact visit_of_not_site hkind span fields
  | .null, _ | .bool _, _ | .number _ _, _ | .text _, _ | .range _, _ => rfl

private theorem walkItems_of_no_sites : ∀ items : List Tree, (∀ n ∈ reachedOfItems items, n.isSite = false) →
    walkItems pure items s = (items, s)
  | [], _ => rfl
  | t :: rest, h => by
    obtain ⟨ht, hrest⟩ := List.forall_mem_append.mp h
    simp only [walkItems, walk_of_no_sites t ht, walkItems_of_no_sites rest hrest]

private theorem walkFields_of_no_sites : ∀ fields : List (Field × Tree), (∀ n ∈ reachedOfFields fields, n.isSite = false) →
    walkFields pure fields s = (fields, s)
  | [], _ => rfl
  | (f, t) :: rest, h => by
    obtain ⟨ht, hrest⟩ := List.forall_mem_append.mp h
    simp only [walkFields, walk_of_no_sites t ht, walkFields_of_no_sites rest hrest]

end

end Marking

/-- A map of trees that keeps kinds, moves places and never moves two to one, and maps the fields of passages one by
one. What it does to the fields of other nodes is left open. -/
structure Translation where
  tree : Tree → Tree
  fields : Kind → List (Field × Tree) → List (Field × Tree)
  place : Pos → Pos
  tree_node (kind : Kind) (span : Option Span) (fs : List (Field × Tree)) :
    tree (.node kind span fs) = .node kind (span.map (Span.move place)) (fields kind fs)
  kind?_tree (t : Tree) : (tree t).kind? = t.kind?
  tree_list (items : List Tree) : tree (.list items) = .list (items.map tree)
  isLeaf_tree (t : Tree) : (tree t).isLeaf = t.isLeaf
  tree_null : tree .null = .null
  fields_passage {kind : Kind} (h : kind.isPassage = true) (fs : List (Field × Tree)) :
    fields kind fs = fs.map (Prod.map id tree)
  place_injective : Function.Injective place
  place_dummy : place .dummy = .dummy

namespace Translation
variable (T : Translation)

theorem lookup_map (f : Field) (fs : List (Field × Tree)) :
    lookup f (fs.map (Prod.map id T.tree)) = T.tree (lookup f fs) :=
  lookup_map_of_null T.tree_null f fs

private theorem start_tree (t : Tree) : (T.tree t).start = T.place t.start := by
  cases ht : t.kind? with
  | none => rw [start_of_leaf ht, start_of_leaf ((T.kind?_tree t).trans ht), T.place_dummy]
  | some kind =>
    cases t with
    | node kind span fs =>
      rw [T.tree_node]
      cases span with
      | none => exact T.place_dummy.symm
      | some span => rfl
    | _ => cases ht

private theorem isKind_tree (t : Tree) (kind : Kind) : (T.tree t).isKind kind = t.isKind kind := by
  rw [isKind, isKind, T.kind?_tree]

private theorem head?_tree (t : Tree) : head? (T.tree t) = (head? t).map T.tree := by
  induction t using induction_lookup with
  | leaf t h => rw [head?_of_leaf h, head?_of_leaf ((T.kind?_tree t).trans h), Option.map_none]
  | node kind span fs ih =>
    rw [T.tree_node, head?, head?]
    split
    · rw [Option.map_some, T.tree_node]
    · split
      next f hf =>
        rw [T.fields_passage (Kind.isPassage_of_operand hf), headOf?_eq, headOf?_eq, T.lookup_map, ih f]
      next => rfl

private theorem headOf?_map (f : Field) (fs : List (Field × Tree)) :
    headOf? f (fs.map (Prod.map id T.tree)) = (headOf? f fs).map T.tree := by
  rw [headOf?_eq, headOf?_eq, T.lookup_map, T.head?_tree]

private theorem map_wrapAtOf {q : Pos} {f : Field} (fs : List (Field × Tree))
    (h : T.tree (wrapAt q (lookup f fs)) = wrapAt q (T.tree (lookup f fs))) :
    (wrapAtOf q f fs).map (Prod.map id T.tree) = wrapAtOf q f (fs.map (Prod.map id T.tree)) := by
  induction fs with
  | nil => rfl
  | cons entry fs ih =>
    obtain ⟨g, t⟩ := entry
    rw [lookup_cons] at h
    rw [List.map_cons, Prod.map_apply, id_eq, wrapAtOf, wrapAtOf]
    split
    next hg =>
      rw [if_pos hg] at h
      rw [List.map_cons, Prod.map_apply, id_eq, h]
    next hg =>
      rw [if_neg hg] at h
      rw [List.map_cons, Prod.map_apply, id_eq, ih h]

/-- A fresh position that stays where it is can be given before or after. -/
theorem tree_wrapAt {q : Pos} (hq : T.place q = q) (t : Tree) : T.tree (wrapAt q t) = wrapAt q (T.tree t) := by
  induction t using induction_lookup with
  | leaf t h =>
    have hstay {u : Tree} (hu : u.kind? = none) : wrapAt q u = u := by cases u <;> first | rfl | cases hu
    rw [hstay h, hstay ((T.kind?_tree t).trans h)]
  | node kind span fs ih =>
    rw [T.tree_node, wrapAt, wrapAt]
    split
    · have hparen : Kind.paren.isPassage = true := rfl
      rw [wrap, wrap, T.tree_node, T.fields_passage hparen, List.map_cons, List.map_nil, Prod.map_apply,
        id_eq, T.tree_node, Option.map_some, Span.move, hq]
    · split
      next f hf =>
        have hfields := T.fields_passage (Kind.isPassage_of_operand hf)
        rw [T.tree_node, hfields, hfields, T.map_wrapAtOf fs (ih f)]
      next => rw [T.tree_node]

private theorem wrapAtOf_map {q : Pos} (hq : T.place q = q) (f : Field) (fs : List (Field × Tree)) :
    (wrapAtOf q f fs).map (Prod.map id T.tree) = wrapAtOf q f (fs.map (Prod.map id T.tree)) :=
  T.map_wrapAtOf fs (T.tree_wrapAt hq _)

private theorem hasExpressionCallee_map (fs : List (Field × Tree)) :
    hasExpressionCallee (fs.map (Prod.map id T.tree)) = hasExpressionCallee fs := by
  simp only [hasExpressionCallee, T.lookup_map, T.isKind_tree]

theorem isSite_of_opening {kind : Kind} {fs : List (Field × Tree)} {f : Field}
    (h : opening? kind fs = some f) : kind.isSite = true := by
  rcases Visit.opening_cases h with ⟨rfl, -⟩ | ⟨rfl, -⟩ | ⟨rfl, -⟩ <;> rfl

theorem callee?_tree (t : Tree) : (T.tree t).callee? = t.callee?.map T.tree := by
  cases ht : t.kind? with
  | none =>
    have hnone {u : Tree} (hu : u.kind? = none) : u.callee? = none := by cases u <;> first | rfl | cases hu
    rw [hnone ht, hnone ((T.kind?_tree t).trans ht), Option.map_none]
  | some kind =>
    cases t with
    | node kind span fs =>
      rw [T.tree_node, callee?, callee?]
      by_cases hcall : kind = .newExpression ∨ kind = .call
      · rw [T.fields_passage (by rcases hcall with rfl | rfl <;> rfl), T.hasExpressionCallee_map, T.lookup_map]
        split <;> rfl
      · obtain ⟨hnew, hcall⟩ := not_or.mp hcall
        simp [hnew, hcall]
    | _ => cases ht

private theorem opening?_fields (kind : Kind) (fs : List (Field × Tree)) :
    opening? kind (T.fields kind fs) = opening? kind fs := by
  by_cases hcall : kind = .call
  · rw [T.fields_passage (by rw [hcall]; rfl), opening?, opening?, T.hasExpressionCallee_map]
  · rw [opening?, opening?, if_neg hcall, if_neg hcall]

private theorem front?_tree (t : Tree) : (T.tree t).front? = t.front?.map T.tree := by
  cases ht : t.kind? with
  | none =>
    have hnone {u : Tree} (hu : u.kind? = none) : u.front? = none := by cases u <;> first | rfl | cases hu
    rw [hnone ht, hnone ((T.kind?_tree t).trans ht), Option.map_none]
  | some kind =>
    cases t with
    | node kind span fs =>
      rw [T.tree_node, front?, front?, T.opening?_fields]
      cases hf : opening? kind fs with
      | none => rfl
      | some f =>
        rw [T.fields_passage (Kind.isPassage_of_site (isSite_of_opening hf))]
        exact T.headOf?_map f fs
    | _ => cases ht

end Translation

/-- What a walk over a tree and a walk over its image keep between their markings, if the first takes no fresh
positions but those for which `taking` holds: the same places, moved, are marked and can get a mark, and both take the
same fresh positions, which do not move. -/
structure Translation.Keeps (T : Translation) (pure pure' : Tree → Bool) (nodes : List Tree) (taking : Pos → Prop)
    (R : Marking → Marking → Prop) : Prop where
  callsPure {n : Tree} (hn : n ∈ nodes) : (T.tree n).callsPure pure' = n.callsPure pure
  marked {s s' : Marking} (h : R s s') (p : Pos) : T.place p ∈ s'.marked ↔ p ∈ s.marked
  accepts {s s' : Marking} (h : R s s') (p : Pos) : s'.comments.accepts (T.place p) = s.comments.accepts p
  fresh {s s' : Marking} (h : R s s') : s'.fresh = s.fresh
  stays {p : Pos} (h : taking p) : T.place p = p
  mark {s s' : Marking} (h : R s s') (p : Pos) : R (s.apply p .mark) (s'.apply (T.place p) .mark)
  release {s s' : Marking} (h : R s s') (ht : taking s.fresh) (p : Pos) :
    R (s.apply p .release) (s'.apply (T.place p) .release)

/-- How a walk over an image ends: it leaves the image of what the other walk leaves, and the markings still fit. -/
structure Carried {α : Type} (image : α → α) (R : Marking → Marking → Prop) (x x' : α × Marking) : Prop where
  left : x'.1 = image x.1
  marking : R x.2 x'.2

namespace Translation.Keeps
variable {T : Translation} {pure pure' : Tree → Bool} {nodes : List Tree} {taking : Pos → Prop}
  {R : Marking → Marking → Prop} {n : Tree} {v v' : Visit}

/-- Whether two visits are those of a node and of its image. -/
structure Paired (T : Translation) (R : Marking → Marking → Prop) (v v' : Visit) : Prop where
  node : v'.node = T.tree v.node
  before : R v.before v'.before

private theorem Paired.start (hv : Paired T R v v') : v'.start = T.place v.start := by
  rw [Visit.start, hv.node, T.start_tree]
  rfl

private theorem opens_eq (h : T.Keeps pure pure' nodes taking R) (hv : Paired T R v v') : v'.opens = v.opens := by
  rw [Bool.eq_iff_iff, Visit.opens_iff, Visit.opens_iff, hv.node, T.front?_tree, hv.start, h.marked hv.before]
  constructor
  · rintro ⟨_, hfront, hstart, hmarked⟩
    obtain ⟨hd, hhead, rfl⟩ := Option.map_eq_some_iff.mp hfront
    rw [T.start_tree] at hstart
    exact ⟨hd, hhead, T.place_injective hstart, hmarked⟩
  · rintro ⟨hd, hhead, hstart, hmarked⟩
    refine ⟨_, Option.map_eq_some_iff.mpr ⟨hd, hhead, rfl⟩, ?_, hmarked⟩
    rw [T.start_tree, hstart]

private theorem change_eq (hp : Nominal pure) (hp' : Nominal pure') (h : T.Keeps pure pure' nodes taking R)
    (hv : Paired T R v v') (hn : n ∈ nodes) (hvisited : VisitedBy pure n v) (hvisited' : VisitedBy pure' (T.tree n) v') :
    v'.change pure' = v.change pure := by
  have hcalls : v'.node.callsPure pure' = v.node.callsPure pure := by
    rw [(hvisited'.alike hp').callsPure, (hvisited.alike hp).callsPure, h.callsPure hn]
  rw [Visit.change, Visit.change, h.opens_eq hv, Visit.isDue_node, Visit.isDue_node, hcalls, hv.start,
    h.accepts hv.before]

/-- The visits of a node and of its image keep what the walks over their fields have kept. -/
theorem walk_node (hp : Nominal pure) (hp' : Nominal pure') (h : T.Keeps pure pure' nodes taking R) {kind : Kind}
    (hk : kind.isType = false) {span : Option Span} {fs : List (Field × Tree)} {s s' : Marking}
    (hn : .node kind span fs ∈ nodes)
    (hfields : Carried (T.fields kind) R (walkFields pure fs s) (walkFields pure' (T.fields kind fs) s'))
    (ht : ∀ q ∈ taken pure [visitOf pure kind span fs s], taking q) :
    Carried T.tree R (walk pure (.node kind span fs) s) (walk pure' (T.tree (.node kind span fs)) s') := by
  have hv : Paired T R (visitOf pure kind span fs s)
      (visitOf pure' kind (span.map (Span.move T.place)) (T.fields kind fs) s') := by
    refine ⟨?_, hfields.marking⟩
    simp only [Visit.node, visitOf, T.tree_node, hfields.left]
  have hvisited : VisitedBy pure (.node kind span fs) (visitOf pure kind span fs s) :=
    ⟨kind, span, fs, s, hk, rfl, rfl⟩
  have hvisited' : VisitedBy pure' (T.tree (.node kind span fs))
      (visitOf pure' kind (span.map (Span.move T.place)) (T.fields kind fs) s') :=
    ⟨kind, _, _, s', hk, T.tree_node kind span fs, rfl⟩
  have hchange := h.change_eq hp hp' hv hn hvisited hvisited'
  have hstart := hv.start
  rw [T.tree_node, Marking.walk_node hp hk, Marking.walk_node hp' hk]
  -- From here on only the two visits count.
  generalize hw : visitOf pure kind span fs s = v at *
  generalize hw' : visitOf pure' kind (span.map (Span.move T.place)) (T.fields kind fs) s' = v' at *
  have hkind : v.kind = kind := hw ▸ rfl
  have hkind' : v'.kind = kind := hw' ▸ rfl
  have hfs : v'.fields = T.fields kind v.fields := by
    rw [← hw', ← hw]
    exact hfields.left
  constructor
  · rw [T.tree_node]
    have hopening : opening? v'.kind v'.fields = opening? v.kind v.fields := by
      rw [hkind', hkind, hfs, T.opening?_fields]
    unfold Visit.fieldsAfter
    rw [hchange, hopening]
    split
    next f hrelease hf =>
      have hpassage : kind.isPassage = true := by
        rw [hkind] at hf
        exact Kind.isPassage_of_site (isSite_of_opening hf)
      have hstay : T.place v.before.fresh = v.before.fresh := h.stays (ht _ (by simp [taken, hrelease]))
      rw [hfs, h.fresh hv.before, T.fields_passage hpassage, T.fields_passage hpassage, T.wrapAtOf_map hstay]
    next => rw [hfs]
  · rw [Visit.after_eq hp, Visit.after_eq hp', hchange, hstart]
    cases hc : v.change pure with
    | keep => exact hv.before
    | mark => exact h.mark hv.before _
    | release => exact h.release hv.before (ht _ (by simp [taken, hc])) _

/-- A type is left alone, and so is its image. -/
theorem walk_type {kind : Kind} (hk : kind.isType = true) {span : Option Span} {fs : List (Field × Tree)}
    {s s' : Marking} (hs : R s s') :
    Carried T.tree R (walk pure (.node kind span fs) s) (walk pure' (T.tree (.node kind span fs)) s') := by
  rw [T.tree_node, Marking.walk_type hk, Marking.walk_type hk, ← T.tree_node]
  exact ⟨rfl, hs⟩

/-- Whether the walks over a tree and over its image go together, whatever markings they come with that fit. -/
def Along (pure pure' : Tree → Bool) (nodes : List Tree) (taking : Pos → Prop) (R : Marking → Marking → Prop)
    (image : Tree → Tree) (t : Tree) : Prop :=
  ∀ s s', R s s' → t.reached ⊆ nodes → (∀ q ∈ taken pure (visits pure t s), taking q) →
    Carried image R (walk pure t s) (walk pure' (image t) s')

/-- Whether the walks over fields of a node and over their image go together. -/
def FieldsAlong (pure pure' : Tree → Bool) (nodes : List Tree) (taking : Pos → Prop) (R : Marking → Marking → Prop)
    (image : List (Field × Tree) → List (Field × Tree)) (fs : List (Field × Tree)) : Prop :=
  ∀ s s', R s s' → reachedOfFields fs ⊆ nodes → (∀ q ∈ taken pure (visitsOfFields pure fs s), taking q) →
    Carried image R (walkFields pure fs s) (walkFields pure' (image fs) s')

/-- Whether walks go together over the fields of a node as soon as they do over each of them, under every translation
of a family. A node may be translated in another way than the trees in its fields. -/
def FieldsFollow {ι : Type} (T : ι → Translation) (pure pure' : Tree → Bool) (nodes : List Tree) (taking : Pos → Prop)
    (R : Marking → Marking → Prop) : Prop :=
  ∀ i kind span fs, kind.isType = false → .node kind span fs ∈ nodes →
    (∀ e ∈ fs, ∀ j, Along pure pure' nodes taking R (T j).tree e.2) →
    FieldsAlong pure pure' nodes taking R ((T i).fields kind) fs

private theorem taking_append {vs ws : List Visit} (h : ∀ q ∈ taken pure (vs ++ ws), taking q) :
    (∀ q ∈ taken pure vs, taking q) ∧ ∀ q ∈ taken pure ws, taking q := by
  rw [taken_append] at h
  exact List.forall_mem_append.mp h

private theorem leaf_along {t : Tree} (ht : t.isLeaf = true) : Along pure pure' nodes taking R T.tree t := by
  intro s s' hs _ _
  rw [walk_of_leaf ht, walk_of_leaf ((T.isLeaf_tree t).trans ht)]
  exact ⟨rfl, hs⟩

/-- A tree without sites goes along with itself. -/
theorem Along.of_no_sites {t : Tree} (ht : ∀ n ∈ t.reached, n.isSite = false) :
    Along pure pure' nodes taking R id t := by
  intro s s' hs _ _
  rw [id_eq, walk_of_no_sites t ht, walk_of_no_sites t ht]
  exact ⟨rfl, hs⟩

private theorem items_along {items : List Tree} (h : ∀ t ∈ items, Along pure pure' nodes taking R T.tree t)
    {s s' : Marking} (hs : R s s') (hn : reachedOfItems items ⊆ nodes)
    (ht : ∀ q ∈ taken pure (visitsOfItems pure items s), taking q) :
    Carried (List.map T.tree) R (walkItems pure items s) (walkItems pure' (items.map T.tree) s') := by
  induction items generalizing s s' with
  | nil => exact ⟨rfl, hs⟩
  | cons t rest ih =>
    obtain ⟨hnt, hnrest⟩ := List.append_subset.mp hn
    obtain ⟨htt, htrest⟩ := taking_append ht
    have hfirst := h t List.mem_cons_self s s' hs hnt htt
    have hlater := ih (fun u hu => h u (List.mem_cons_of_mem _ hu)) hfirst.marking hnrest htrest
    exact ⟨congrArg₂ List.cons hfirst.left hlater.left, hlater.marking⟩

/-- Fields that are mapped one by one go along if their trees do. -/
theorem fields_along (image : Field → Tree → Tree) {fs : List (Field × Tree)}
    (h : ∀ e ∈ fs, Along pure pure' nodes taking R (image e.1) e.2) :
    FieldsAlong pure pure' nodes taking R (List.map fun e => (e.1, image e.1 e.2)) fs := by
  intro s s' hs hn ht
  induction fs generalizing s s' with
  | nil => exact ⟨rfl, hs⟩
  | cons entry rest ih =>
    obtain ⟨f, t⟩ := entry
    obtain ⟨hnt, hnrest⟩ := List.append_subset.mp hn
    obtain ⟨htt, htrest⟩ := taking_append ht
    have hfirst := h (f, t) List.mem_cons_self s s' hs hnt htt
    have hlater := ih (fun e he => h e (List.mem_cons_of_mem _ he)) _ _ hfirst.marking hnrest htrest
    exact ⟨congrArg₂ (fun t rest => (f, t) :: rest) hfirst.left hlater.left, hlater.marking⟩

section
variable {ι : Type} {F : ι → Translation}

mutual

/-- Walks over a tree and over its images go together. -/
theorem walk_along (hp : Nominal pure) (hp' : Nominal pure') (h : ∀ i, (F i).Keeps pure pure' nodes taking R)
    (hfields : FieldsFollow F pure pure' nodes taking R) : ∀ t i, Along pure pure' nodes taking R (F i).tree t
  | .list items => fun i s s' hs hn ht => by
    have hitems := items_along (fun t ht => walk_along_items hp hp' h hfields items t ht i) hs hn ht
    rw [(F i).tree_list]
    exact ⟨(congrArg Tree.list hitems.left).trans ((F i).tree_list _).symm, hitems.marking⟩
  | .node kind span fs => fun i s s' hs hn ht => by
    cases hk : kind.isType with
    | true => exact walk_type hk hs
    | false =>
      rw [reached, hk, if_neg (by decide)] at hn
      rw [visits, hk, if_neg (by decide)] at ht
      obtain ⟨hnfields, hnode⟩ := List.append_subset.mp hn
      obtain ⟨htfields, htnode⟩ := taking_append ht
      have hnode := hnode List.mem_cons_self
      have hlater := hfields i kind span fs hk hnode (walk_along_fields hp hp' h hfields fs)
      exact walk_node hp hp' (h i) hk hnode (hlater s s' hs hnfields htfields) htnode
  | .null => fun _ => leaf_along rfl
  | .bool _ => fun _ => leaf_along rfl
  | .number _ _ => fun _ => leaf_along rfl
  | .text _ => fun _ => leaf_along rfl
  | .range _ => fun _ => leaf_along rfl

private theorem walk_along_items (hp : Nominal pure) (hp' : Nominal pure') (h : ∀ i, (F i).Keeps pure pure' nodes taking R)
    (hfields : FieldsFollow F pure pure' nodes taking R) :
    ∀ items : List Tree, ∀ t ∈ items, ∀ i, Along pure pure' nodes taking R (F i).tree t
  | [] => List.forall_mem_nil _
  | t :: rest =>
    List.forall_mem_cons.mpr ⟨walk_along hp hp' h hfields t, walk_along_items hp hp' h hfields rest⟩

private theorem walk_along_fields (hp : Nominal pure) (hp' : Nominal pure') (h : ∀ i, (F i).Keeps pure pure' nodes taking R)
    (hfields : FieldsFollow F pure pure' nodes taking R) :
    ∀ fs : List (Field × Tree), ∀ e ∈ fs, ∀ i, Along pure pure' nodes taking R (F i).tree e.2
  | [] => List.forall_mem_nil _
  | (_, t) :: rest =>
    List.forall_mem_cons.mpr ⟨walk_along hp hp' h hfields t, walk_along_fields hp hp' h hfields rest⟩

end

end

end Translation.Keeps
end PureCalls
