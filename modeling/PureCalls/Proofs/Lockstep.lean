import PureCalls.Proofs.Renumbering

/-! Two walks over one tree that go step by step together. They start with different markings, and as long as these
agree on what is marked and on what can get a mark, the trees that they leave differ in the fresh positions only. -/
namespace PureCalls
open PureCalls.Tree Marking
namespace Marking
variable {pure : Tree → Bool} {fresh : Pos → Bool} {σ : Pos → Pos} {nodes : List Tree} {taking : Pos → Prop}
  {R : Marking → Marking → Prop}

/-- What two walks over the same nodes keep between their markings, if the first takes no fresh positions but those for
which `taking` holds: the same positions are marked and can be marked, and the next fresh positions correspond. -/
structure InStep (pure : Tree → Bool) (fresh : Pos → Bool) (σ : Pos → Pos) (nodes : List Tree) (taking : Pos → Prop)
    (R : Marking → Marking → Prop) : Prop where
  marked {s s' : Marking} (h : R s s') : s'.marked = s.marked
  apart {s s' : Marking} (h : R s s') {p : Pos} (hp : p ∈ s.marked) (span : Span) :
    (span.renumber fresh σ).start = p ↔ span.start = p
  accepts {s s' : Marking} (h : R s s') {n : Tree} (hn : n ∈ nodes) (hcall : n.callsPure pure = true) :
    s'.comments.accepts n.start = s.comments.accepts n.start
  position {s s' : Marking} (h : R s s') (ht : taking s.fresh) :
    Span.renumber fresh σ ⟨s.fresh, s.fresh⟩ = ⟨s'.fresh, s'.fresh⟩
  mark {s s' : Marking} (h : R s s') {n : Tree} (hn : n ∈ nodes) (hdue : n.isDue pure s.comments = true)
    (haccepts : s'.comments.accepts n.start = true) : R (s.apply n.start .mark) (s'.apply n.start .mark)
  release {s s' : Marking} (h : R s s') {p : Pos} (hp : p ∈ s.marked) (ht : taking s.fresh) :
    R (s.apply p .release) (s'.apply p .release)

/-- Whether two visits are those of one node in two walks that go together. -/
structure Paired (fresh : Pos → Bool) (σ : Pos → Pos) (R : Marking → Marking → Prop) (v v' : Visit) : Prop where
  kind : v'.kind = v.kind
  span : v'.span = v.span
  fields : v'.fields = renumberFields fresh σ v.fields
  before : R v.before v'.before

namespace Paired
variable {v v' : Visit}

private theorem start (hv : Paired fresh σ R v v') : v'.start = v.start := by
  rw [Visit.start, Visit.start, Visit.node, Visit.node, hv.span]
  cases v.span <;> rfl

private theorem front?_eq (hv : Paired fresh σ R v v') : v'.node.front? = v.node.front?.map (renumber fresh σ) := by
  have hfront : (renumber fresh σ v.node).front? = v.node.front?.map (renumber fresh σ) := front?_renumber v.node
  rw [← hfront, Visit.node, Visit.node, hv.kind, hv.fields]
  rfl

private theorem callsPure_eq (hp : Nominal pure) (hv : Paired fresh σ R v v') :
    v'.node.callsPure pure = v.node.callsPure pure := by
  rw [← callsPure_renumber hp v.node, Visit.node, Visit.node, hv.kind, hv.fields]
  rfl

end Paired

namespace InStep
variable {n : Tree} {v v' : Visit}

private theorem opens_eq (h : InStep pure fresh σ nodes taking R) (hv : Paired fresh σ R v v') : v'.opens = v.opens := by
  rw [Bool.eq_iff_iff, Visit.opens_iff, Visit.opens_iff, hv.front?_eq, hv.start, h.marked hv.before]
  constructor
  · rintro ⟨_, hfront, hstart, hmarked⟩
    obtain ⟨hd, hhead, rfl⟩ := Option.map_eq_some_iff.mp hfront
    exact ⟨hd, hhead, ((start_renumber_iff (h.apart hv.before hmarked) hd).mp hstart.symm).symm, hmarked⟩
  · rintro ⟨hd, hhead, hstart, hmarked⟩
    refine ⟨_, Option.map_eq_some_iff.mpr ⟨hd, hhead, rfl⟩, ?_, hmarked⟩
    exact ((start_renumber_iff (h.apart hv.before hmarked) hd).mpr hstart.symm).symm

private theorem isDue_eq (hp : Nominal pure) (h : InStep pure fresh σ nodes taking R) (hv : Paired fresh σ R v v')
    (hn : n ∈ nodes) (halike : Alike pure n v.node) :
    v'.node.isDue pure v'.before.comments = v.node.isDue pure v.before.comments := by
  rw [Visit.isDue_node, Visit.isDue_node, hv.callsPure_eq hp, hv.start]
  cases hcall : v.node.callsPure pure with
  | true =>
    have hstart : v.start = n.start := halike.start
    rw [hstart, h.accepts hv.before hn (halike.callsPure.symm.trans hcall)]
  | false => rfl

private theorem change_eq (hp : Nominal pure) (h : InStep pure fresh σ nodes taking R) (hv : Paired fresh σ R v v')
    (hn : n ∈ nodes) (halike : Alike pure n v.node) : v'.change pure = v.change pure := by
  rw [Visit.change, Visit.change, h.opens_eq hv, h.isDue_eq hp hv hn halike]

/-- One visit of each walk leaves the markings in step. -/
theorem after (hp : Nominal pure) (h : InStep pure fresh σ nodes taking R) (hv : Paired fresh σ R v v')
    (hn : n ∈ nodes) (halike : Alike pure n v.node) (ht : v.change pure = .release → taking v.before.fresh) :
    R (v.after pure) (v'.after pure) := by
  rw [Visit.after_eq hp, Visit.after_eq hp, h.change_eq hp hv hn halike, hv.start]
  cases hchange : v.change pure with
  | keep => exact hv.before
  | mark =>
    have hdue := (Visit.change_eq_mark hp).mp hchange
    have hstart : v.start = n.start := halike.start
    rw [isDue, halike.callsPure, halike.start] at hdue
    obtain ⟨hcall, haccepts⟩ := Bool.and_eq_true_iff.mp hdue
    rw [hstart]
    exact h.mark hv.before hn hdue ((h.accepts hv.before hn hcall).trans haccepts)
  | release =>
    obtain ⟨_, _, _, hmarked⟩ := Visit.release_iff.mp hchange
    exact h.release hv.before hmarked (ht hchange)

/-- One visit of each walk leaves the node the same but for fresh positions. -/
theorem fieldsAfter_eq (hp : Nominal pure) (h : InStep pure fresh σ nodes taking R) (hv : Paired fresh σ R v v')
    (hn : n ∈ nodes) (halike : Alike pure n v.node) (ht : v.change pure = .release → taking v.before.fresh) :
    v'.fieldsAfter pure = renumberFields fresh σ (v.fieldsAfter pure) := by
  have hopening : opening? v'.kind v'.fields = opening? v.kind v.fields := by
    rw [hv.kind, hv.fields, opening?_renumberFields]
  unfold Visit.fieldsAfter
  rw [h.change_eq hp hv hn halike, hopening]
  split
  next f hchange _ => rw [hv.fields, renumberFields_wrapAtOf (h.position hv.before (ht hchange))]
  next => exact hv.fields

end InStep

/-- How two walks that go together end: what they leave differs in the fresh positions only, the markings are in step,
and both have taken the same number of fresh positions. -/
structure Together {α : Type} (pure : Tree → Bool) (R : Marking → Marking → Prop) (renumbered : α → α)
    (x x' : α × Marking) (vs vs' : List Visit) : Prop where
  left : x'.1 = renumbered x.1
  marking : R x.2 x'.2
  count : (taken pure vs').length = (taken pure vs).length

private theorem taking_append {vs ws : List Visit} (h : ∀ q ∈ taken pure (vs ++ ws), taking q) :
    (∀ q ∈ taken pure vs, taking q) ∧ ∀ q ∈ taken pure ws, taking q := by
  rw [taken_append] at h
  exact List.forall_mem_append.mp h

private theorem count_append {vs ws vs' ws' : List Visit} (h : (taken pure vs').length = (taken pure vs).length)
    (h' : (taken pure ws').length = (taken pure ws).length) :
    (taken pure (vs' ++ ws')).length = (taken pure (vs ++ ws)).length := by
  rw [taken_append, taken_append, List.length_append, List.length_append, h, h']

/-- The visits of a node keep in step what the walks over its fields have kept. -/
private theorem node_together (hp : Nominal pure) (h : InStep pure fresh σ nodes taking R) {kind : Kind}
    (hk : kind.isType = false) {span : Option Span} {fields : List (Field × Tree)} {s s' : Marking}
    (hspan : span.map (Span.renumber fresh σ) = span) (hn : .node kind span fields ∈ nodes)
    (hfields : Together pure R (renumberFields fresh σ) (walkFields pure fields s) (walkFields pure fields s')
      (visitsOfFields pure fields s) (visitsOfFields pure fields s'))
    (ht : ∀ q ∈ taken pure [visitOf pure kind span fields s], taking q) :
    Together pure R (renumber fresh σ) (walk pure (.node kind span fields) s) (walk pure (.node kind span fields) s')
      (visitsOfFields pure fields s ++ [visitOf pure kind span fields s])
      (visitsOfFields pure fields s' ++ [visitOf pure kind span fields s']) := by
  have hv : Paired fresh σ R (visitOf pure kind span fields s) (visitOf pure kind span fields s') :=
    ⟨rfl, rfl, hfields.left, hfields.marking⟩
  have halike : Alike pure (.node kind span fields) (visitOf pure kind span fields s).node :=
    VisitedBy.alike hp ⟨kind, span, fields, s, hk, rfl, rfl⟩
  have hchange := h.change_eq hp hv hn halike
  have ht' : (visitOf pure kind span fields s).change pure = .release →
      taking (visitOf pure kind span fields s).before.fresh := fun hr => ht _ (by simp [taken, hr])
  rw [walk_node hp hk, walk_node hp hk]
  refine ⟨?_, h.after hp hv hn halike ht', count_append hfields.count ?_⟩
  · rw [renumber, hspan, h.fieldsAfter_eq hp hv hn halike ht']
  · by_cases hr : (visitOf pure kind span fields s).change pure = .release <;> simp [taken, hchange, hr]

mutual

/-- Two walks over a tree that begin in step go together to the end. -/
theorem walk_together (hp : Nominal pure) (h : InStep pure fresh σ nodes taking R) : ∀ (t : Tree) {s s' : Marking},
    R s s' → t.reached ⊆ nodes → Free fresh t.nodes → (∀ q ∈ taken pure (visits pure t s), taking q) →
      Together pure R (renumber fresh σ) (walk pure t s) (walk pure t s') (visits pure t s) (visits pure t s')
  | .list items, s, s', hs, hn, hfree, ht => by
    have hitems := walkItems_together hp h items hs hn hfree ht
    exact ⟨congrArg Tree.list hitems.left, hitems.marking, hitems.count⟩
  | .node kind span fields, s, s', hs, hn, hfree, ht => by
    cases hk : kind.isType with
    | true =>
      rw [walk_type hk, walk_type hk, visits, visits, hk, if_pos rfl, if_pos rfl]
      exact ⟨(renumber_of_free _ hfree).symm, hs, rfl⟩
    | false =>
      rw [reached, hk, if_neg (by decide)] at hn
      obtain ⟨hfields, hnode⟩ := List.append_subset.mp hn
      obtain ⟨hfree, hspan⟩ := Free.append hfree
      rw [visits, hk, if_neg (by decide)] at ht
      rw [visits, visits, hk, if_neg (by decide), if_neg (by decide)]
      obtain ⟨htfields, htnode⟩ := taking_append ht
      exact node_together hp h hk (map_renumber_of_free (hspan _ List.mem_cons_self)) (hnode List.mem_cons_self)
        (walkFields_together hp h fields hs hfields hfree htfields) htnode
  | .null, _, _, hs, _, _, _ | .bool _, _, _, hs, _, _, _ | .number _ _, _, _, hs, _, _, _
  | .text _, _, _, hs, _, _, _ | .range _, _, _, hs, _, _, _ => ⟨rfl, hs, rfl⟩

private theorem walkItems_together (hp : Nominal pure) (h : InStep pure fresh σ nodes taking R) : ∀ (items : List Tree)
    {s s' : Marking}, R s s' → reachedOfItems items ⊆ nodes → Free fresh (nodesOfItems items) →
      (∀ q ∈ taken pure (visitsOfItems pure items s), taking q) →
      Together pure R (renumberItems fresh σ) (walkItems pure items s) (walkItems pure items s')
        (visitsOfItems pure items s) (visitsOfItems pure items s')
  | [], _, _, hs, _, _, _ => ⟨rfl, hs, rfl⟩
  | t :: rest, s, s', hs, hn, hfree, ht => by
    obtain ⟨hnt, hnrest⟩ := List.append_subset.mp hn
    obtain ⟨hft, hfrest⟩ := Free.append hfree
    obtain ⟨htt, htrest⟩ := taking_append ht
    have hfirst := walk_together hp h t hs hnt hft htt
    have hlater := walkItems_together hp h rest hfirst.marking hnrest hfrest htrest
    exact ⟨congrArg₂ List.cons hfirst.left hlater.left, hlater.marking, count_append hfirst.count hlater.count⟩

private theorem walkFields_together (hp : Nominal pure) (h : InStep pure fresh σ nodes taking R) :
    ∀ (fields : List (Field × Tree)) {s s' : Marking}, R s s' → reachedOfFields fields ⊆ nodes →
      Free fresh (nodesOfFields fields) → (∀ q ∈ taken pure (visitsOfFields pure fields s), taking q) →
      Together pure R (renumberFields fresh σ) (walkFields pure fields s) (walkFields pure fields s')
        (visitsOfFields pure fields s) (visitsOfFields pure fields s')
  | [], _, _, hs, _, _, _ => ⟨rfl, hs, rfl⟩
  | (f, t) :: rest, s, s', hs, hn, hfree, ht => by
    obtain ⟨hnt, hnrest⟩ := List.append_subset.mp hn
    obtain ⟨hft, hfrest⟩ := Free.append hfree
    obtain ⟨htt, htrest⟩ := taking_append ht
    have hfirst := walk_together hp h t hs hnt hft htt
    have hlater := walkFields_together hp h rest hfirst.marking hnrest hfrest htrest
    exact ⟨congrArg₂ (fun t rest => (f, t) :: rest) hfirst.left hlater.left, hlater.marking,
      count_append hfirst.count hlater.count⟩

end

end Marking
end PureCalls
