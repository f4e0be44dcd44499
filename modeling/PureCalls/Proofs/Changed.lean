import PureCalls.Proofs.Conservation
import PureCalls.Proofs.Decisions

/-! The marked places and the comments are kept apart from each other, yet at every moment of a walk the one can be
read off the other: marked is what has changed. -/
namespace PureCalls
open PureCalls.Tree
namespace Marking
variable {pure : Tree → Bool}

/-- Whether the marked positions are those of the text whose comments have changed, each by one mark behind comments
among which there was none. -/
structure Records (initial : Comments) (s : Marking) : Prop where
  marked_iff (p : Pos) : p ∈ s.marked ↔ p < .firstFresh ∧ s.comments.get p ≠ initial.get p
  get (p : Pos) (hp : p ∈ s.marked) : s.comments.get p = initial.get p ++ [Comment.marker]
  unmarked (p : Pos) (hp : p ∈ s.marked) : initial.isMarked p = false

/-- A run that takes its fresh positions behind the text marks nothing but the text, and changes nothing there that it
does not mark. -/
theorem Conserves.records {nodes : List Tree} {initial : Comments} {c : Pos} {s : Marking}
    (h : Conserves pure nodes initial c s) (htext : ∀ n ∈ nodes, n.start < .firstFresh ∨ n.start = .reserved)
    (hc : .firstFresh ≤ c) : Records initial s := by
  refine ⟨fun p => ⟨fun hp => ⟨?_, ?_⟩, ?_⟩, h.marked, h.unmarked⟩
  · obtain ⟨n, hn, hstart, -⟩ := h.called p hp
    exact hstart ▸ (htext n hn).resolve_right (hstart ▸ (h.below p hp).2.2)
  · simp [h.marked p hp]
  · rintro ⟨hp, hchanged⟩
    by_contra hm
    exact hchanged (h.others p hm fun hf => absurd (hp.trans_le hc) (not_lt.mpr hf.1))

/-- What holds at every visit and at the end holds behind every visit. -/
theorem Linked.forall_after {inv : Marking → Prop} {s s' : Marking} {vs : List Visit} (h : Linked pure s vs s')
    (hs' : inv s') (hvs : ∀ v ∈ vs, inv v.before) : ∀ v ∈ vs, inv (v.after pure) := by
  induction vs generalizing s with
  | nil => simp
  | cons v vs ih =>
    obtain ⟨hv, hrest⟩ := List.forall_mem_cons.mp hvs
    refine List.forall_mem_cons.mpr ⟨?_, ih h.2 hrest⟩
    cases vs with
    | nil => exact h.2 ▸ hs'
    | cons w ws => exact h.2.1 ▸ hrest w List.mem_cons_self

end Marking

namespace Visit
open Marking
variable {pure : Tree → Bool}

/-- A search that takes a fresh position releases the mark of the node. -/
theorem search_of_taken {v : Visit} (h : v.search.2.fresh ≠ v.before.fresh) :
    v.opens = true ∧ v.search.2 = v.before.release v.start := by
  rcases v.search_cases with ⟨-, hs⟩ | ⟨ho, f, -, hs⟩
  · exact absurd (by rw [hs]) h
  · exact ⟨ho, by rw [hs]⟩

/-- Between search and decision stands what the visit found or what it leaves. -/
theorem search_eq_before_or_after (hp : Nominal pure) (v : Visit) :
    v.search.2 = v.before ∨ v.search.2 = v.after pure := by
  rcases v.search_cases with ⟨-, hs⟩ | ⟨ho, f, -, hs⟩
  · exact Or.inl (by rw [hs])
  · refine Or.inr ?_
    rw [hs, after_eq hp, change_eq_release.mpr ho]
    rfl

end Visit

namespace Annotator
open Marking

/-- At every moment of a run over a program, be it before a visit, within it or behind it, the marked positions are
those of the text whose comments are not what they were, and one mark more is all that is new there. So a search that
takes a fresh position always finds the mark that it moves, and this is the one that the run has put there itself. -/
theorem marked_exactly_changed (w : Whitelist) (program : Tree) (comments : Comments) (c : Pos) :
    let vs := visits w program (start comments c)
    program.InText → .firstFresh ≤ c → c + takes w program (start comments c) ≤ .reserved →
      ∃ last, Linked (verdict w program) ⟨comments, [], c⟩ vs last ∧
        (visit w program (start comments c)).2 = start last.comments last.fresh ∧
        Records comments ⟨comments, [], c⟩ ∧ Records comments last ∧
        ∀ v ∈ vs, Records comments v.before ∧ Records comments v.search.2 ∧
          Records comments (v.after (verdict w program)) ∧
          (v.search.2.fresh ≠ v.before.fresh →
            v.search.2 = v.before.release v.start ∧ v.start ∈ v.before.marked ∧
              v.before.comments.get v.start = comments.get v.start ++ [Comment.marker] ∧
              Comments.dropLastMarker (v.before.comments.get v.start) = some (comments.get v.start)) := by
  intro vs htext hc hk
  have hp := verdict_nominal w program
  have hreached : ∀ n ∈ program.reached, n.start < .firstFresh ∨ n.start = .reserved :=
    fun n hn => htext n (reached_subset program hn)
  obtain ⟨last, hlinked, hrun, -, hlast, hvs⟩ := run_conserves w comments htext hc hk
  have hbefore : ∀ v ∈ vs, Records comments v.before := fun v hv => (hvs v hv).records hreached hc
  have hend : Records comments last := hlast.records hreached hc
  have hafter : ∀ v ∈ vs, Records comments (v.after (verdict w program)) := hlinked.forall_after hend hbefore
  have hstart := Conserves.start (verdict w program) program.reached comments c
  refine ⟨last, hlinked, hrun, hstart.records hreached hc, hend, fun v hv => ?_⟩
  refine ⟨hbefore v hv, ?_, hafter v hv, fun htaken => ?_⟩
  · rcases v.search_eq_before_or_after hp with hs | hs
    · exact hs ▸ hbefore v hv
    · exact hs ▸ hafter v hv
  · obtain ⟨hopens, hs⟩ := Visit.search_of_taken htaken
    obtain ⟨-, -, -, hmarked⟩ := Visit.opens_iff.mp hopens
    have hget := (hbefore v hv).get v.start hmarked
    exact ⟨hs, hmarked, hget, by rw [hget, Comments.dropLastMarker_append]⟩

theorem marked_exactly_changed_chained :
    let comments : Comments := ⟨[(25, [⟨.line, " first"⟩])]⟩
    ∃ v ∈ visits .calledF .chained (start comments .firstFresh), v.start = 25 ∧ 25 ∈ v.before.marked ∧
      Comments.dropLastMarker (v.before.comments.get 25) = some [⟨.line, " first"⟩] ∧
      Records comments v.search.2 ∧ 25 ∉ v.search.2.marked := by
  intro comments
  have htaken : ∃ v ∈ visits .calledF .chained (start comments .firstFresh),
      v.start = 25 ∧ v.search.2.fresh ≠ v.before.fresh := by decide +kernel
  obtain ⟨v, hv, hstart, hfresh⟩ := htaken
  obtain ⟨last, -, -, -, -, hvs⟩ :=
    marked_exactly_changed .calledF .chained comments .firstFresh (by decide) (by decide) (by decide)
  obtain ⟨-, hsearch, -, hmoves⟩ := hvs v hv
  obtain ⟨hs, hmarked, -, hdrop⟩ := hmoves hfresh
  rw [hstart] at hs hmarked hdrop
  exact ⟨v, hv, hstart, hmarked, hdrop, hsearch, by simp [hs, release]⟩

end Annotator
end PureCalls
