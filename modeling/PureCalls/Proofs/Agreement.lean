import PureCalls.Proofs.Sequence
import PureCalls.Proofs.Tally

/-! What of the comments matters to a run: whether there is a mark where a call starts, and nothing else. The number,
the order, the kinds and the texts of the comments may be any. -/
namespace PureCalls
open PureCalls.Tree Marking
namespace Marking
variable {pure : Tree → Bool} {nodes : List Tree} {initial initial' : Comments}

/-- The markings of two walks that began with different comments and have added the same marks to them. -/
def AddsAlike (initial initial' : Comments) (s s' : Marking) : Prop :=
  s'.marked = s.marked ∧ s'.fresh = s.fresh ∧ ∃ added, Adds initial added s ∧ Adds initial' added s'

private theorem AddsAlike.accepts {s s' : Marking} (h : AddsAlike initial initial' s s') {p : Pos}
    (hagree : initial'.isMarked p = initial.isMarked p) : s'.comments.accepts p = s.comments.accepts p := by
  obtain ⟨-, -, added, hadds, hadds'⟩ := h
  have hmarked : s'.comments.isMarked p = s.comments.isMarked p := by
    rw [Bool.eq_iff_iff, hadds.comments.isMarked_iff, hadds'.comments.isMarked_iff, hagree]
  rw [Comments.accepts, Comments.accepts, hmarked]

/-- Walks over one program stay in step if they find marks at the same of its calls. -/
theorem inStep_addsAlike (hagree : ∀ n ∈ nodes, n.isCall = true → initial'.isMarked n.start = initial.isMarked n.start) :
    InStep pure (fun _ => false) id nodes (fun _ => True) (AddsAlike initial initial') where
  marked h := h.1
  apart _ _ _ _ := Iff.rfl
  accepts h n hn hcall := by
    obtain ⟨kind, span, fields, hk, rfl⟩ := isCall_of_callsPure hcall
    exact h.accepts (hagree _ hn hk)
  position h _ := by rw [h.2.1]; rfl
  mark {s s'} h n hn hdue haccepts := by
    obtain ⟨-, haccepts'⟩ := Bool.and_eq_true_iff.mp hdue
    obtain ⟨hmarked, hfresh, added, hadds, hadds'⟩ := h
    refine ⟨congrArg (List.insert n.start) hmarked, hfresh, addedAfter added s.fresh n.start .mark, ?_, ?_⟩
    · exact hadds.apply (fun _ => haccepts') nofun
    · rw [← hfresh]
      exact hadds'.apply (fun _ => haccepts) nofun
  release {s s'} h p hp _ := by
    obtain ⟨hmarked, hfresh, added, hadds, hadds'⟩ := h
    refine ⟨?_, congrArg Pos.next hfresh, addedAfter added s.fresh p .release, hadds.apply nofun fun _ => hp, ?_⟩
    · simp only [apply, Marking.release, hmarked]
    · rw [← hfresh]
      exact hadds'.apply nofun fun _ => hmarked ▸ hp

end Marking

namespace Annotator
variable {w : Whitelist} {program : Tree} {comments comments' : Comments} {c : Pos}

/-- Where a run adds so many marks it adds at most one to each list, and puts it behind the others. -/
theorem get_of_hasMore (htext : program.InText) (hc : .firstFresh ≤ c)
    (hk : c + takes w program (start comments c) ≤ .reserved) {added : Pos → Nat}
    (hmore : comments.HasMore (visit w program (start comments c)).2.marking.comments added) (p : Pos) :
    added p ≤ 1 ∧ (visit w program (start comments c)).2.marking.comments.get p =
      comments.get p ++ List.replicate (added p) Comment.marker := by
  obtain ⟨s, -, hrun, hfresh, hs, -⟩ := run_conserves w comments htext hc hk
  have hgains := hs.gains hfresh
  have hlength := hmore.length_get (p := p)
  rw [hrun] at hlength ⊢
  change (s.comments.get p).length = _ at hlength
  change _ ∧ s.comments.get p = _
  rw [hgains p, List.length_append, Nat.add_left_cancel_iff] at hlength
  rw [hgains p, ← hlength]
  split <;> exact ⟨by decide, rfl⟩

/-- Two runs over a program whose comments mark the same of its calls leave the same program, take the same fresh
positions and add marks at the same positions. -/
private theorem runs_alike (hagree : ∀ n ∈ program.reached, n.isCall = true →
      comments'.isMarked n.start = comments.isMarked n.start) :
    let run := visit w program (start comments c)
    let run' := visit w program (start comments' c)
    run'.1 = run.1 ∧ AddsAlike comments comments' run.2.marking run'.2.marking ∧
      takes w program (start comments' c) = takes w program (start comments c) := by
  intro run run'
  have hstart : AddsAlike comments comments' ⟨comments, [], c⟩ ⟨comments', [], c⟩ :=
    ⟨rfl, rfl, _, .start comments c, .start comments' c⟩
  cases hw : walks w program with
  | false =>
    simp only [run, run', visit_of_not_walks hw, takes_of_not_walks hw]
    exact ⟨trivial, hstart, trivial⟩
  | true =>
    have hfree : Free (fun _ => false) program.nodes := fun _ _ _ _ => rfl
    have htogether := walk_together (verdict_nominal w program) (inStep_addsAlike hagree) program hstart
      (List.Subset.refl _) hfree fun _ _ => trivial
    obtain ⟨-, hfresh, added, hadds, hadds'⟩ := htogether.marking
    simp only [run, run', takes, visit_of_walks hw, visits_of_walks hw]
    refine ⟨htogether.left.trans (renumber_id _), ⟨rfl, hfresh, added, ?_, ?_⟩, htogether.count⟩
    · exact ⟨hadds.comments, by simp, by simp⟩
    · exact ⟨hadds'.comments, by simp, by simp⟩

/-- A run looks at the comments only for marks where a call starts. Two runs whose comments have them at the same calls
leave the same program and the same next fresh position, and they add the same number of marks at each position: over
a program that stands in front of the fresh positions, one mark at each of the same positions, behind the others. -/
theorem only_marks_matter (w : Whitelist) (program : Tree) (comments comments' : Comments) (c : Pos) :
    let run := visit w program (start comments c)
    let run' := visit w program (start comments' c)
    (∀ n ∈ program.reached, n.isCall = true → comments'.isMarked n.start = comments.isMarked n.start) →
      run'.1 = run.1 ∧ run'.2.marking.fresh = run.2.marking.fresh ∧ ∃ added : Pos → Nat,
        comments.HasMore run.2.marking.comments added ∧ comments'.HasMore run'.2.marking.comments added ∧
        (program.InText → .firstFresh ≤ c → c + takes w program (start comments c) ≤ .reserved → ∀ p, added p ≤ 1 ∧
          run.2.marking.comments.get p = comments.get p ++ List.replicate (added p) Comment.marker ∧
          run'.2.marking.comments.get p = comments'.get p ++ List.replicate (added p) Comment.marker) := by
  intro run run' hagree
  obtain ⟨houtput, ⟨-, hfresh, added, hadds, hadds'⟩, htakes⟩ := runs_alike (w := w) (c := c) hagree
  refine ⟨houtput, hfresh, added, hadds.comments, hadds'.comments, fun htext hc hk p => ?_⟩
  obtain ⟨hone, hget⟩ := get_of_hasMore htext hc hk hadds.comments p
  obtain ⟨-, hget'⟩ := get_of_hasMore htext hc (htakes ▸ hk) hadds'.comments p
  exact ⟨hone, hget, hget'⟩

/-- A line comment with the text of the marker and a note that mentions `@__PURE__` are as good as the marker. -/
theorem only_marks_matter_chained :
    let comments : Comments := ⟨[(25, [⟨.line, "first"⟩]), (27, [Comment.marker])]⟩
    let comments' : Comments := ⟨[(27, [⟨.line, "#__PURE__"⟩, ⟨.block, " see @__PURE__ below "⟩])]⟩
    let run := visit .calledF .chained (start comments .firstFresh)
    let run' := visit .calledF .chained (start comments' .firstFresh)
    run'.1 = run.1 ∧ run'.2.marking.comments.get .firstFresh = [Comment.marker] := by
  intro comments comments' run run'
  obtain ⟨houtput, -, added, -, -, hexact⟩ :=
    only_marks_matter .calledF .chained comments comments' .firstFresh (by decide +kernel)
  obtain ⟨-, hget, hget'⟩ := hexact (by decide) le_rfl (by decide +kernel) .firstFresh
  have hsame : run'.2.marking.comments.get .firstFresh = run.2.marking.comments.get .firstFresh :=
    hget'.trans hget.symm
  exact ⟨houtput, hsame.trans (by decide +kernel)⟩

end Annotator
end PureCalls
