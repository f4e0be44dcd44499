import Mathlib.Algebra.BigOperators.Group.Finset.Piecewise
import PureCalls.Proofs.Unchanged

/-! No comment is lost, doubled or moved, apart from the marks that a run itself puts in. The invariant says for each
position what its list is: the one that was given, with one mark behind it where a call is marked right now or a fresh
position was taken. -/
namespace PureCalls
open PureCalls.Tree Marking
namespace Comments

/-- The positions that have comments. -/
def positions (store : Comments) : Finset Pos :=
  (store.entries.map Prod.fst).toFinset

/-- How many comments there are. -/
def total (store : Comments) : Nat :=
  ∑ p ∈ store.positions, (store.get p).length

private theorem total_eq_sum {store : Comments} {ps : Finset Pos} (h : store.positions ⊆ ps) :
    store.total = ∑ p ∈ ps, (store.get p).length := by
  refine Finset.sum_subset h fun p _ hp => ?_
  rw [get_eq_nil fun he => hp (List.mem_toFinset.mpr he), List.length_nil]

/-- Comments that are moved from one list to another are counted at both. -/
theorem total_add {store other : Comments} {a b : Pos} {m n : Nat}
    (h : ∀ p, (other.get p).length + (if p = a then m else 0) = (store.get p).length + if p = b then n else 0) :
    other.total + m = store.total + n := by
  let ps := (store.positions ∪ other.positions) ∪ {a, b}
  have hsum := Finset.sum_congr (rfl : ps = ps) fun p _ => h p
  rw [Finset.sum_add_distrib, Finset.sum_add_distrib, Finset.sum_ite_eq', Finset.sum_ite_eq',
    if_pos (by simp [ps]), if_pos (by simp [ps])] at hsum
  have hstore : store.positions ⊆ ps := Finset.subset_union_left.trans Finset.subset_union_left
  have hother : other.positions ⊆ ps := Finset.subset_union_right.trans Finset.subset_union_left
  rw [total_eq_sum hstore, total_eq_sum hother, hsum]

end Comments

namespace Marking
variable {pure : Tree → Bool}

/-- What holds at every moment of a run that began with the comments `initial` and takes its fresh positions from `c`
on: at a marked position, and at a fresh position that was taken, stands one mark more than at the beginning, and
nothing else has changed. Marked are only places of pure calls that had no mark. -/
structure Conserves (pure : Tree → Bool) (nodes : List Tree) (initial : Comments) (c : Pos) (s : Marking) :
    Prop where
  fresh : c ≤ s.fresh
  others (p : Pos) (hp : p ∉ s.marked) (hf : ¬ (c ≤ p ∧ p < s.fresh)) : s.comments.get p = initial.get p
  marked (p : Pos) (hp : p ∈ s.marked) : s.comments.get p = initial.get p ++ [Comment.marker]
  moved (p : Pos) (hp : c ≤ p) (hf : p < s.fresh) : s.comments.get p = initial.get p ++ [Comment.marker]
  below (p : Pos) (hp : p ∈ s.marked) : p < c ∧ p ≠ .dummy ∧ p ≠ .reserved
  unmarked (p : Pos) (hp : p ∈ s.marked) : initial.isMarked p = false
  called (p : Pos) (hp : p ∈ s.marked) : ∃ n ∈ nodes, n.start = p ∧ n.callsPure pure = true

namespace Conserves
variable {nodes : List Tree} {initial : Comments} {c : Pos} {s : Marking}

theorem start (pure : Tree → Bool) (nodes : List Tree) (comments : Comments) (c : Pos) :
    Conserves pure nodes comments c ⟨comments, [], c⟩ where
  fresh := le_rfl
  others _ _ _ := rfl
  marked _ h := by simp at h
  moved p h h' := absurd h (not_le.mpr h')
  below _ h := by simp at h
  unmarked _ h := by simp at h
  called _ h := by simp at h

theorem not_marked (h : Conserves pure nodes initial c s) {p : Pos} (hp : s.comments.accepts p = true) :
    p ∉ s.marked ∧ p ≠ .dummy ∧ p ≠ .reserved ∧ s.comments.isMarked p = false := by
  obtain ⟨hdummy, hreserved, hunmarked⟩ := Comments.accepts_iff.mp hp
  refine ⟨fun hm => ?_, hdummy, hreserved, hunmarked⟩
  rw [Comments.isMarked_of_get (h.marked p hm)] at hunmarked
  cases hunmarked

/-- A mark is put behind the comments that were there from the beginning. -/
theorem mark (h : Conserves pure nodes initial c s) {p : Pos} (hp : s.comments.accepts p = true) (hc : p < c)
    (hn : ∃ n ∈ nodes, n.start = p ∧ n.callsPure pure = true) :
    Conserves pure nodes initial c (s.apply p .mark) := by
  obtain ⟨hnot, hdummy, hreserved, hunmarked⟩ := h.not_marked hp
  have hget : s.comments.get p = initial.get p := h.others p hnot fun hf => absurd hf.1 (not_le.mpr hc)
  have hmem (q : Pos) : q ∈ s.marked.insert p ↔ q = p ∨ q ∈ s.marked := List.mem_insert_iff
  refine ⟨h.fresh, ?_, ?_, ?_, ?_, ?_, ?_⟩
  · intro q hq hf
    rw [apply, hmem, not_or] at hq
    simp only [apply, Comments.get_append, if_neg hq.1]
    exact h.others q hq.2 hf
  · intro q hq
    simp only [apply, Comments.get_append]
    split
    next he => rw [he, hget]
    next he => exact h.marked q (((hmem q).mp hq).resolve_left he)
  · intro q hq hf
    have hne : q ≠ p := fun he => absurd (he ▸ hq) (not_le.mpr hc)
    simp only [apply, Comments.get_append, if_neg hne]
    exact h.moved q hq hf
  · intro q hq
    rcases (hmem q).mp hq with rfl | hq
    · exact ⟨hc, hdummy, hreserved⟩
    · exact h.below q hq
  · intro q hq
    rcases (hmem q).mp hq with rfl | hq
    · rw [← Comments.isMarked_congr hget, hunmarked]
    · exact h.unmarked q hq
  · intro q hq
    rcases (hmem q).mp hq with rfl | hq
    · exact hn
    · exact h.called q hq

/-- The mark that moves is the one that the run put there, and the comments in front of it stay. -/
theorem get_release (h : Conserves pure nodes initial c s) {p : Pos} (hp : p ∈ s.marked) (q : Pos) :
    (s.release p).comments.get q =
      if q = p then initial.get p else if q = s.fresh then s.comments.get s.fresh ++ [Comment.marker]
      else s.comments.get q :=
  Comments.get_moveMarker (h.marked p hp) (((h.below p hp).1.trans_le h.fresh).ne) q

theorem release (h : Conserves pure nodes initial c s) {p : Pos} (hp : p ∈ s.marked)
    (hfresh : s.fresh < .reserved) : Conserves pure nodes initial c (s.apply p .release) := by
  have hnext : (s.apply p .release).fresh = s.fresh + 1 :=
    Nat.mod_eq_of_lt (lt_trans (Nat.succ_lt_succ hfresh) (by decide))
  have hmem (q : Pos) : q ∈ (s.apply p .release).marked ↔ q ∈ s.marked ∧ q ≠ p := by
    simp [apply, Marking.release]
  have hget := h.get_release hp
  have hpc := (h.below p hp).1
  have hfree : s.comments.get s.fresh = initial.get s.fresh := by
    refine h.others _ (fun hm => ?_) fun hf => lt_irrefl _ hf.2
    exact absurd ((h.below _ hm).1.trans_le h.fresh) (lt_irrefl _)
  refine ⟨hnext ▸ h.fresh.trans (Nat.le_succ _), ?_, ?_, ?_, ?_, ?_, ?_⟩
  · intro q hq hf
    rw [hnext] at hf
    rw [apply, hget]
    split
    next he => rw [he]
    next he =>
      have hne : q ≠ s.fresh := fun he' => hf ⟨he' ▸ h.fresh, he' ▸ Nat.lt_succ_self _⟩
      rw [if_neg hne]
      exact h.others q (fun hm => hq ((hmem q).mpr ⟨hm, he⟩)) fun hf' => hf ⟨hf'.1, hf'.2.trans (Nat.lt_succ_self _)⟩
  · intro q hq
    obtain ⟨hq, hne⟩ := (hmem q).mp hq
    have hfr : q ≠ s.fresh := ((h.below q hq).1.trans_le h.fresh).ne
    rw [apply, hget, if_neg hne, if_neg hfr]
    exact h.marked q hq
  · intro q hq hf
    rw [hnext] at hf
    have hne : q ≠ p := fun he => absurd (he ▸ hq) (not_le.mpr hpc)
    rw [apply, hget, if_neg hne]
    split
    next he => rw [hfree, he]
    next he => exact h.moved q hq (lt_of_le_of_ne (Nat.lt_succ_iff.mp hf) he)
  · exact fun q hq => h.below q ((hmem q).mp hq).1
  · exact fun q hq => h.unmarked q ((hmem q).mp hq).1
  · exact fun q hq => h.called q ((hmem q).mp hq).1

/-- Visits keep the invariant, as long as fresh positions are left. -/
theorem after (hp : Nominal pure) {v : Visit} (h : Conserves pure nodes initial c v.before)
    (hv : ∃ n ∈ nodes, (n.start < c ∨ n.start = .reserved) ∧ Alike pure n v.node)
    (hfresh : v.change pure = .release → v.before.fresh < .reserved) :
    Conserves pure nodes initial c (v.after pure) := by
  obtain ⟨n, hn, hplace, halike⟩ := hv
  have hstart : n.start = v.start := halike.start.symm
  rw [Visit.after_eq hp]
  cases hchange : v.change pure with
  | keep => exact h
  | mark =>
    obtain ⟨hcall, haccepts⟩ := Bool.and_eq_true_iff.mp ((Visit.change_eq_mark hp).mp hchange)
    have hreserved : n.start ≠ .reserved := hstart ▸ (h.not_marked haccepts).2.2.1
    exact h.mark haccepts (hstart ▸ hplace.resolve_right hreserved) ⟨n, hn, hstart, halike.callsPure ▸ hcall⟩
  | release =>
    obtain ⟨_, _, _, hmarked⟩ := Visit.release_iff.mp hchange
    exact h.release hmarked (hfresh hchange)

/-- Only a visit that marks changes how many comments there are. -/
theorem total_after (hp : Nominal pure) {v : Visit} (h : Conserves pure nodes initial c v.before) :
    (v.after pure).comments.total = v.before.comments.total + if v.change pure = .mark then 1 else 0 := by
  rw [Visit.after_eq hp]
  cases hchange : v.change pure with
  | keep => simp [apply]
  | mark =>
    refine Comments.total_add (a := v.start) (b := v.start) (m := 0) (n := 1) fun p => ?_
    by_cases hs : p = v.start <;> simp [apply, hs]
  | release =>
    obtain ⟨_, _, _, hmarked⟩ := Visit.release_iff.mp hchange
    have hne : v.start ≠ v.before.fresh := ((h.below _ hmarked).1.trans_le h.fresh).ne
    have hadd : (v.before.release v.start).comments.total + 1 = v.before.comments.total + 1 := by
      refine Comments.total_add (a := v.start) (b := v.before.fresh) fun p => ?_
      rw [h.get_release hmarked]
      by_cases hs : p = v.start
      · simp [hs, hne, h.marked _ hmarked]
      · by_cases hf : p = v.before.fresh <;> simp [hs, hf, hne.symm]
    simpa [apply] using hadd

end Conserves

private theorem Linked.total (hp : Nominal pure) {nodes : List Tree} {initial : Comments} {c : Pos} {s s' : Marking}
    {vs : List Visit} (h : Linked pure s vs s') (hvs : ∀ v ∈ vs, Conserves pure nodes initial c v.before) :
    s'.comments.total = s.comments.total + vs.countP fun v => v.change pure = .mark := by
  induction vs generalizing s with
  | nil => rw [show s = s' from h, List.countP_nil, Nat.add_zero]
  | cons v vs ih =>
    obtain ⟨rfl, h⟩ := h
    rw [ih h fun w hw => hvs w (List.mem_cons_of_mem _ hw), (hvs v List.mem_cons_self).total_after hp,
      List.countP_cons, Nat.add_assoc, Nat.add_comm (vs.countP _)]
    simp only [decide_eq_true_eq]

end Marking

namespace Annotator
open Marking

/-- A run over one program without nodes at fresh positions keeps the invariant from its first visit to its last one. -/
theorem run_conserves_below (w : Whitelist) {program : Tree} (comments : Comments) {c : Pos}
    (hbelow : ∀ n ∈ program.nodes, n.start < c ∨ n.start = .reserved)
    (hk : c + takes w program (start comments c) ≤ .reserved) :
    ∃ s, Linked (verdict w program) ⟨comments, [], c⟩ (visits w program (start comments c)) s ∧
      (visit w program (start comments c)).2 = start s.comments s.fresh ∧
      s.fresh = c + takes w program (start comments c) ∧ Conserves (verdict w program) program.reached comments c s ∧
      ∀ v ∈ visits w program (start comments c), Conserves (verdict w program) program.reached comments c v.before := by
  have hp := verdict_nominal w program
  obtain ⟨s, hlinked, hrun⟩ := visit_linked w program comments c
  have hbound : c + takes w program (start comments c) < 4294967296 := lt_of_le_of_lt hk (by decide)
  obtain ⟨hrange, hend⟩ := taken_visits w program comments hbound.le
  rw [hrun] at hend
  have hplaces : ∀ v ∈ visits w program (start comments c), ∃ n ∈ program.reached,
      (n.start < c ∨ n.start = .reserved) ∧ Alike (verdict w program) n v.node := by
    intro v hv
    obtain ⟨n, hn, halike⟩ := visits_alike w program _ v hv
    exact ⟨n, hn, hbelow n (reached_subset program hn), halike⟩
  have hfresh : ∀ v ∈ visits w program (start comments c), v.change (verdict w program) = .release →
      v.before.fresh < .reserved := by
    intro v hv hchange
    have htaken : v.before.fresh ∈ taken (verdict w program) (visits w program (start comments c)) :=
      List.mem_map_of_mem (List.mem_filter.mpr ⟨hv, by simpa using hchange⟩)
    rw [hrange, List.mem_range'_1] at htaken
    exact htaken.2.trans_le hk
  have hinv : Conserves (verdict w program) program.reached comments c s ∧
      ∀ v ∈ visits w program (start comments c), Conserves (verdict w program) program.reached comments c v.before :=
    hlinked.invariant (Conserves.start _ _ comments c) fun v hv h => h.after hp (hplaces v hv) (hfresh v hv)
  exact ⟨s, hlinked, hrun, hend hbound, hinv⟩

theorem run_conserves (w : Whitelist) {program : Tree} (comments : Comments) {c : Pos} (htext : program.InText)
    (hc : .firstFresh ≤ c) (hk : c + takes w program (start comments c) ≤ .reserved) :
    ∃ s, Linked (verdict w program) ⟨comments, [], c⟩ (visits w program (start comments c)) s ∧
      (visit w program (start comments c)).2 = start s.comments s.fresh ∧
      s.fresh = c + takes w program (start comments c) ∧ Conserves (verdict w program) program.reached comments c s ∧
      ∀ v ∈ visits w program (start comments c), Conserves (verdict w program) program.reached comments c v.before :=
  run_conserves_below w comments (fun n hn => (htext n hn).imp_left (lt_of_lt_of_le · hc)) hk

/-- A run keeps every comment in its place and order. At a position that is not fresh it adds at most one mark behind
the others, and only where a pure call starts that had none. At each fresh position that it takes it adds exactly one,
and all in all it adds as many as it comes to pure calls that can get one. -/
theorem comments_conserved (w : Whitelist) (program : Tree) (comments : Comments) (c : Pos) :
    let k := takes w program (start comments c)
    let store := (visit w program (start comments c)).2.marking.comments
    program.InText → .firstFresh ≤ c → c + k ≤ .reserved →
      (∀ p, ¬ (c ≤ p ∧ p < c + k) → store.get p = comments.get p ∨
        store.get p = comments.get p ++ [Comment.marker] ∧ p ≠ .dummy ∧ p ≠ .reserved ∧
          comments.isMarked p = false ∧ ∃ n ∈ program.reached, n.start = p ∧ n.callsPure (verdict w program) = true) ∧
      (∀ p, c ≤ p → p < c + k → store.get p = comments.get p ++ [Comment.marker]) ∧
      store.total = comments.total + marks w program (start comments c) := by
  intro k store htext hc hk
  have hp := verdict_nominal w program
  obtain ⟨s, hlinked, hrun, hend, hs, hvs⟩ := run_conserves w comments htext hc hk
  have hstore : store = s.comments := congrArg (fun a => a.marking.comments) hrun
  rw [hstore]
  refine ⟨fun p hf => ?_, fun p hp' hf => hs.moved p hp' (hend ▸ hf), ?_⟩
  · by_cases hm : p ∈ s.marked
    · obtain ⟨-, hdummy, hreserved⟩ := hs.below p hm
      exact Or.inr ⟨hs.marked p hm, hdummy, hreserved, hs.unmarked p hm, hs.called p hm⟩
    · exact Or.inl (hs.others p hm fun hf' => hf (hend ▸ hf'))
  · rw [hlinked.total hp hvs, marks]
    congr 2
    funext v
    rw [Bool.eq_iff_iff, decide_eq_true_eq]
    exact Visit.change_eq_mark hp

theorem comments_conserved_chained :
    let comments : Comments := ⟨[(25, [⟨.line, " first"⟩])]⟩
    let store := (visit .calledF .chained (start comments .firstFresh)).2.marking.comments
    store.get .firstFresh = [Comment.marker] ∧ store.total = 3 := by
  intro comments store
  obtain ⟨-, hmoved, htotal⟩ :=
    comments_conserved .calledF .chained comments .firstFresh (by decide) (by decide) (by decide)
  exact ⟨hmoved _ le_rfl (by decide), htotal.trans (by decide)⟩

end Annotator
end PureCalls
