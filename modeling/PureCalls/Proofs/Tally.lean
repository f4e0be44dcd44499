import Mathlib.Logic.Function.Basic
import PureCalls.Proofs.Unchanged

/-! How many marks a walk has added at each position. Nothing is asked of the positions here: nodes may stand anywhere,
and the fresh positions may be those of nodes. A mark is then still taken away only where the walk has added one. -/
namespace PureCalls
open PureCalls.Tree Marking

namespace Comment

/-- The text of the marker is read as a mark, whatever kind of comment it stands in. -/
theorem isMark_of_text {c : Comment} (h : c.text = markerText) : c.isMark = true := by
  have hmarker := isMark_marker
  rw [isMark] at hmarker ⊢
  rwa [h]

end Comment

namespace Comments

private theorem dropLastMarker_eq_none {cs : List Comment} (h : ∀ c ∈ cs, c.text ≠ Comment.markerText) :
    dropLastMarker cs = none := by
  induction cs with
  | nil => rfl
  | cons c cs ih =>
    obtain ⟨hc, hcs⟩ := List.forall_mem_cons.mp h
    rw [dropLastMarker, ih hcs, if_neg hc]

/-- A search for the last marker takes out one comment that reads as the marker, if there is any. -/
theorem exists_dropLastMarker {cs : List Comment} (h : ∃ c ∈ cs, c.text = Comment.markerText) :
    ∃ c rest, dropLastMarker cs = some rest ∧ c.text = Comment.markerText ∧ cs.Perm (c :: rest) := by
  induction cs with
  | nil => simp at h
  | cons d cs ih =>
    by_cases hlater : ∃ c ∈ cs, c.text = Comment.markerText
    · obtain ⟨c, rest, hdrop, hc, hperm⟩ := ih hlater
      exact ⟨c, d :: rest, by rw [dropLastMarker, hdrop], hc, (hperm.cons d).trans (.swap c d rest)⟩
    · obtain ⟨c, hmem, hc⟩ := h
      have hd : d.text = Comment.markerText := by
        rcases List.mem_cons.mp hmem with rfl | hmem
        · exact hc
        · exact absurd ⟨c, hmem, hc⟩ hlater
      have hnone : dropLastMarker cs = none := dropLastMarker_eq_none (by simpa using hlater)
      exact ⟨d, cs, by rw [dropLastMarker, hnone, if_pos hd], hd, .refl _⟩

/-- Whether a store has the comments of another one and, at each position, a number of marks more, in any order. -/
def HasMore (initial store : Comments) (added : Pos → Nat) : Prop :=
  ∀ p, (store.get p).Perm (initial.get p ++ List.replicate (added p) Comment.marker)

namespace HasMore
variable {initial store : Comments} {added : Pos → Nat} {p : Pos}

private theorem refl (store : Comments) : store.HasMore store fun _ => 0 := by
  intro p
  rw [List.replicate_zero, List.append_nil]

theorem isMarked_iff (h : initial.HasMore store added) :
    store.isMarked p = true ↔ initial.isMarked p = true ∨ 0 < added p := by
  rw [isMarked, (h p).any_eq, List.any_append, Bool.or_eq_true, List.any_replicate]
  by_cases hp : added p = 0 <;> simp [isMarked, hp, Nat.pos_iff_ne_zero]

theorem length_get (h : initial.HasMore store added) : (store.get p).length = (initial.get p).length + added p := by
  rw [(h p).length_eq, List.length_append, List.length_replicate]

private theorem append (h : initial.HasMore store added) (p : Pos) :
    initial.HasMore (store.append p [Comment.marker]) (Function.update added p (added p + 1)) := by
  intro q
  rw [get_append, Function.update_apply]
  split
  next hq =>
    rw [hq, List.replicate_succ', ← List.append_assoc]
    exact (h p).append_right _
  next => exact h q

/-- What is left where a mark has been taken away again. -/
theorem dropLastMarker (h : initial.HasMore store added) (hunmarked : initial.isMarked p = false) (hp : 0 < added p) :
    ∃ others, Comments.dropLastMarker (store.get p) = some others ∧
      others.Perm (initial.get p ++ List.replicate (added p - 1) Comment.marker) := by
  obtain ⟨n, hn⟩ := Nat.exists_eq_succ_of_ne_zero (Nat.ne_of_gt hp)
  have hperm : (store.get p).Perm (Comment.marker :: (initial.get p ++ List.replicate n Comment.marker)) := by
    have hcount := h p
    rw [hn, Nat.succ_eq_add_one, List.replicate_succ] at hcount
    exact hcount.trans List.perm_middle
  obtain ⟨c, others, hdrop, hc, hothers⟩ :=
    exists_dropLastMarker ⟨_, hperm.mem_iff.mpr List.mem_cons_self, rfl⟩
  -- No comment that was there from the beginning reads as the marker, so it is one of the marks that goes.
  have hmarker : c = Comment.marker := by
    rcases List.mem_cons.mp (hperm.mem_iff.mp (hothers.mem_iff.mpr List.mem_cons_self)) with hc' | hmem
    · exact hc'
    · rcases List.mem_append.mp hmem with hmem | hmem
      · have hmark := List.any_eq_false.mp hunmarked c hmem
        exact absurd (Comment.isMark_of_text hc) hmark
      · exact List.eq_of_mem_replicate hmem
  rw [hmarker] at hothers
  rw [hn, Nat.succ_eq_add_one, Nat.add_sub_cancel]
  exact ⟨others, hdrop, (hothers.symm.trans hperm).cons_inv⟩

/-- A mark that the walk has added moves, and all other comments stay. -/
theorem moveMarker (h : initial.HasMore store added) (hunmarked : initial.isMarked p = false) (hp : 0 < added p)
    (q : Pos) : let fewer := Function.update added p (added p - 1)
      initial.HasMore (store.moveMarker p q) (Function.update fewer q (fewer q + 1)) := by
  intro fewer r
  obtain ⟨others, hdrop, hothers⟩ := h.dropLastMarker hunmarked hp
  simp only [Comments.moveMarker, hdrop, get_append, get_set, fewer, Function.update_apply]
  by_cases hpq : q = p
  · subst hpq
    by_cases hr : r = q
    · subst hr
      simp only [if_true, List.nil_append]
      rw [List.replicate_succ]
      exact (hothers.cons _).trans List.perm_middle.symm
    · simp only [hr, if_false]
      exact h r
  · by_cases hr : r = p
    · subst hr
      simp only [if_true, Ne.symm hpq, if_false, List.nil_append]
      exact hothers
    · by_cases hrq : r = q
      · subst hrq
        simp only [hpq, if_true, if_false]
        rw [List.replicate_succ', ← List.append_assoc]
        exact (h r).append_right _
      · simp only [hr, hrq, if_false]
        exact h r

end HasMore
end Comments

namespace Marking

/-- What holds at every moment of a walk that began with the comments `initial`: it has added so many marks at each
position, at least one at each position where a call is marked right now, and had found none there. -/
structure Adds (initial : Comments) (added : Pos → Nat) (s : Marking) : Prop where
  comments : initial.HasMore s.comments added
  marked (p : Pos) (hp : p ∈ s.marked) : 0 < added p
  unmarked (p : Pos) (hp : p ∈ s.marked) : initial.isMarked p = false

/-- The marks that are added once a change is done at a position, by a walk that takes `fresh` next. -/
def addedAfter (added : Pos → Nat) (fresh p : Pos) : Change → Pos → Nat
  | .keep => added
  | .mark => Function.update added p (added p + 1)
  | .release =>
    let fewer := Function.update added p (added p - 1)
    Function.update fewer fresh (fewer fresh + 1)

/-- Once there is a mark more somewhere, there always is. -/
theorem exists_addedAfter_pos {added : Pos → Nat} (h : ∃ q, 0 < added q) (fresh p : Pos) (change : Change) :
    ∃ q, 0 < addedAfter added fresh p change q := by
  cases change with
  | keep => exact h
  | mark => exact ⟨p, by simp [addedAfter]⟩
  | release => exact ⟨fresh, by simp [addedAfter]⟩

namespace Adds
variable {initial : Comments} {added : Pos → Nat} {s : Marking} {p : Pos}

theorem start (initial : Comments) (c : Pos) : Adds initial (fun _ => 0) ⟨initial, [], c⟩ where
  comments := .refl initial
  marked _ h := by simp at h
  unmarked _ h := by simp at h

theorem apply (h : Adds initial added s) {change : Change} (hmark : change = .mark → s.comments.accepts p = true)
    (hrelease : change = .release → p ∈ s.marked) :
    Adds initial (addedAfter added s.fresh p change) (s.apply p change) := by
  cases change with
  | keep => exact h
  | mark =>
    have hunmarked : initial.isMarked p = false := by
      by_contra hinitial
      have hstore := h.comments.isMarked_iff.mpr (Or.inl (Bool.not_eq_false _ ▸ hinitial))
      rw [(Comments.accepts_iff.mp (hmark rfl)).2.2] at hstore
      cases hstore
    refine ⟨h.comments.append p, fun q hq => ?_, fun q hq => ?_⟩
    · rcases List.mem_insert_iff.mp hq with rfl | hq
      · simp [addedAfter]
      · rw [addedAfter, Function.update_apply]
        split
        · exact Nat.succ_pos _
        · exact h.marked q hq
    · rcases List.mem_insert_iff.mp hq with rfl | hq
      · exact hunmarked
      · exact h.unmarked q hq
  | release =>
    have hp := hrelease rfl
    have hleft {q : Pos} (hq : q ∈ (s.release p).marked) : q ∈ s.marked ∧ q ≠ p := by
      simpa [Marking.release] using hq
    refine ⟨h.comments.moveMarker (h.unmarked p hp) (h.marked p hp) s.fresh, fun q hq => ?_, fun q hq => ?_⟩
    · obtain ⟨hq, hne⟩ := hleft hq
      simp only [addedAfter, Function.update_apply, if_neg hne]
      split
      · exact Nat.succ_pos _
      · exact h.marked q hq
    · exact h.unmarked q (hleft hq).1

/-- A visit keeps the count. -/
theorem after {pure : Tree → Bool} (hp : Nominal pure) {v : Visit} (h : Adds initial added v.before) :
    Adds initial (addedAfter added v.before.fresh v.start (v.change pure)) (v.after pure) := by
  rw [Visit.after_eq hp]
  refine h.apply (fun hmark => ?_) fun hrelease => ?_
  · exact (Bool.and_eq_true_iff.mp ((Visit.change_eq_mark hp).mp hmark)).2
  · obtain ⟨_, _, _, hmarked⟩ := Visit.release_iff.mp hrelease
    exact hmarked

end Adds
end Marking
end PureCalls
