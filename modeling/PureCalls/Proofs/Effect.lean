import PureCalls.Proofs.Idempotence
import PureCalls.Proofs.Tally

/-! When a run has an effect: exactly if it comes to a due call. A mark that has been added may move any number of
times and to any position, but it never goes, so the comments alone tell. -/
namespace PureCalls
open PureCalls.Tree Marking
namespace Marking
variable {pure : Tree → Bool} {initial : Comments} {s s' : Marking} {vs : List Visit}

/-- Whether a walk that began with the comments `initial` has added a mark somewhere. -/
def HasAdded (initial : Comments) (s : Marking) : Prop :=
  ∃ added, Adds initial added s ∧ ∃ p, 0 < added p

private theorem HasAdded.after (hp : Nominal pure) {v : Visit} (h : HasAdded initial v.before) :
    HasAdded initial (v.after pure) := by
  obtain ⟨added, hadds, hpos⟩ := h
  exact ⟨_, hadds.after hp, exists_addedAfter_pos hpos _ _ _⟩

/-- A store to which marks were added is another one. -/
theorem HasAdded.exists_get_ne (h : HasAdded initial s) : ∃ p, s.comments.get p ≠ initial.get p := by
  obtain ⟨added, hadds, p, hpos⟩ := h
  refine ⟨p, fun hget => ?_⟩
  have hlength := hadds.comments.length_get (p := p)
  rw [hget] at hlength
  omega

/-- Visits that begin without marked calls find nothing due and change nothing, or the walk has added a mark. -/
theorem Linked.nothing_due_or_hasAdded (hp : Nominal pure) {c : Pos} (h : Linked pure ⟨initial, [], c⟩ vs s') :
    (∀ v ∈ vs, v.node.isDue pure initial = false) ∨ HasAdded initial s' := by
  induction vs with
  | nil => exact Or.inl (by simp)
  | cons v vs ih =>
    obtain ⟨hbefore, h⟩ := h
    have hstart : Adds initial (fun _ => 0) v.before := hbefore ▸ .start initial c
    cases hchange : v.change pure with
    | keep =>
      have hafter : v.after pure = ⟨initial, [], c⟩ := by rw [Visit.after_eq hp, hchange, hbefore]; rfl
      rw [hafter] at h
      refine (ih h).imp_left fun hvs => List.forall_mem_cons.mpr ⟨?_, hvs⟩
      by_contra hdue
      have hmark : v.change pure = .mark := by
        rw [Visit.change_eq_mark hp, hbefore]
        exact Bool.not_eq_false _ ▸ hdue
      rw [hmark] at hchange
      cases hchange
    | mark =>
      have hadded : HasAdded initial (v.after pure) :=
        ⟨_, hstart.after hp, v.start, by rw [hchange, addedAfter, Function.update_self]; exact Nat.succ_pos _⟩
      exact Or.inr (h.invariant hadded fun w _ hw => hw.after hp).1
    | release =>
      obtain ⟨_, _, _, hmarked⟩ := Visit.release_iff.mp hchange
      rw [hbefore] at hmarked
      cases hmarked

private theorem exists_visit {ns : List Tree} (h : List.Forall₂ (VisitedBy pure) ns vs) :
    ∀ n ∈ ns, ∃ v ∈ vs, VisitedBy pure n v := by
  induction h with
  | nil => simp
  | @cons n v ns vs hv _ ih =>
    refine List.forall_mem_cons.mpr ⟨⟨v, List.mem_cons_self, hv⟩, fun m hm => ?_⟩
    obtain ⟨u, hu, hvisited⟩ := ih m hm
    exact ⟨u, List.mem_cons_of_mem _ hu, hvisited⟩

/-- A walk that comes to a due call has added a mark at its end. -/
theorem hasAdded_walk (hp : Nominal pure) {t n : Tree} {c : Pos} (hn : n ∈ t.reached)
    (hdue : n.isDue pure initial = true) : HasAdded initial (walk pure t ⟨initial, [], c⟩).2 := by
  refine (Linked.nothing_due_or_hasAdded hp (walk_linked t ⟨initial, [], c⟩)).resolve_left fun hnone => ?_
  obtain ⟨v, hv, hvisited⟩ := exists_visit (visits_reached pure t ⟨initial, [], c⟩) n hn
  have halike := hvisited.alike hp
  have hnot := hnone v hv
  rw [isDue, halike.callsPure, halike.start] at hnot
  rw [isDue, hnot] at hdue
  cases hdue

end Marking

namespace Annotator
variable {w : Whitelist} {program : Tree} {comments : Comments} {c : Pos}

/-- A run over one program that walks it in any case, also where nothing is whitelisted or nothing is imported. -/
def visitAnyway (w : Whitelist) (program : Tree) (a : Annotator) : Tree × Annotator :=
  let (output, marking) := walk (verdict w program) program a.marking
  (output, { marking := { marking with marked := [] } })

private theorem not_due_of_not_walks (h : walks w program = false) (hmodule : program.isKind .moduleProgram = true) (n : Tree) :
    n.isDue (verdict w program) comments = false := by
  cases hcallee : n.callee? <;> simp [isDue, callsPure, hcallee, verdict_of_not_walks h hmodule]

private theorem visitAnyway_of_not_walks (h : walks w program = false) (hmodule : program.isKind .moduleProgram = true) :
    visitAnyway w program (start comments c) = (program, start comments c) := by
  have hwalk : walk (verdict w program) program (start comments c).marking = (program, (start comments c).marking) :=
    walk_of_not_due (verdict_nominal w program) rfl program fun n _ => not_due_of_not_walks h hmodule n
  rw [visitAnyway, hwalk]
  rfl

/-- A run over a module walks it in effect, whether it looks into it or not. -/
theorem visitAnyway_eq (hmodule : program.isKind .moduleProgram = true) :
    visitAnyway w program (start comments c) = visit w program (start comments c) := by
  cases h : walks w program with
  | true => rw [visit_of_walks h]; rfl
  | false => rw [visit_of_not_walks h, visitAnyway_of_not_walks h hmodule]

/-- A run over a module with a due call leaves other comments. -/
theorem exists_get_ne (hmodule : program.isKind .moduleProgram = true) {n : Tree} (hn : n ∈ program.reached)
    (hdue : n.isDue (verdict w program) comments = true) :
    ∃ p, (visit w program (start comments c)).2.marking.comments.get p ≠ comments.get p := by
  rw [← visitAnyway_eq hmodule]
  exact (hasAdded_walk (verdict_nominal w program) hn hdue).exists_get_ne

/-- A run over a module leaves everything as it was exactly if it reaches no due call, and where it has left the
comments as they were it has changed nothing else either. That a module is not walked at all, where nothing is
whitelisted or nothing is imported, makes no difference: the walk would change nothing. -/
theorem unchanged_iff_nothing_due (w : Whitelist) (program : Tree) (comments : Comments) (c : Pos) :
    let run := visit w program (start comments c)
    program.isKind .moduleProgram = true →
      (run = (program, start comments c) ↔ ∀ n ∈ program.reached, n.isDue (verdict w program) comments = false) ∧
      ((∀ p, run.2.marking.comments.get p = comments.get p) → run = (program, start comments c)) ∧
      visitAnyway w program (start comments c) = run ∧
      (w.isEmpty = true ∨ Imports.ofModule program = [] →
        visitAnyway w program (start comments c) = (program, start comments c)) := by
  intro run hmodule
  have hdue : (∀ p, run.2.marking.comments.get p = comments.get p) →
      ∀ n ∈ program.reached, n.isDue (verdict w program) comments = false := by
    intro hsame n hn
    by_contra hdue
    obtain ⟨p, hp⟩ := exists_get_ne (c := c) hmodule hn (Bool.not_eq_false _ ▸ hdue)
    exact hp (hsame p)
  refine ⟨⟨fun hrun => hdue fun p => ?_, fun h => visit_of_not_due h c⟩, fun hsame => visit_of_not_due (hdue hsame) c,
    visitAnyway_eq hmodule, fun hnothing => visitAnyway_of_not_walks ?_ hmodule⟩
  · rw [hrun]
    rfl
  · rcases hnothing with hempty | hnone
    · simp [walks, hempty]
    · simp [walks, hnone]

/-- The two calls of `f` are due, and once both have a mark a run changes nothing. Where nothing is whitelisted, a walk
through the module changes nothing either. -/
theorem unchanged_iff_nothing_due_chained :
    let comments : Comments := ⟨[(25, [⟨.line, " @__PURE__ "⟩]), (27, [Comment.marker])]⟩
    visit .calledF .chained (start {} .firstFresh) ≠ (chained, start {} .firstFresh) ∧
      visit .calledF .chained (start comments .firstFresh) = (chained, start comments .firstFresh) ∧
      visitAnyway ⟨[("m", {})]⟩ .chained (start {} .firstFresh) = (chained, start {} .firstFresh) := by
  intro comments
  refine ⟨fun hrun => ?_, ?_, ?_⟩
  · have hnone := (unchanged_iff_nothing_due .calledF .chained {} .firstFresh rfl).1.mp hrun
    exact absurd hnone (by decide +kernel)
  · exact (unchanged_iff_nothing_due .calledF .chained comments .firstFresh rfl).1.mpr (by decide +kernel)
  · exact (unchanged_iff_nothing_due ⟨[("m", {})]⟩ .chained {} .firstFresh rfl).2.2.2 (Or.inl (by decide))

end Annotator
end PureCalls
