import PureCalls.Proofs.Exactness

/-! A run leaves no pure call that could still get a mark, and a walk that comes to no such call changes nothing. -/
namespace PureCalls
open PureCalls.Tree Marking
namespace Marking
variable {pure : Tree → Bool}

mutual

/-- A walk that has marked nothing and comes to no due call changes nothing. -/
theorem walk_of_not_due (hp : Nominal pure) {s : Marking} (hs : s.marked = []) : ∀ t : Tree,
    (∀ n ∈ t.reached, n.isDue pure s.comments = false) → walk pure t s = (t, s)
  | .list items, h => by rw [walk, walkItems_of_not_due hp hs items h]
  | .node kind span fields, h => by
    cases hk : kind.isType with
    | true => exact walk_type hk span fields s
    | false =>
      rw [reached, hk, if_neg (by decide)] at h
      obtain ⟨hfields, hnode⟩ := List.forall_mem_append.mp h
      let v : Visit := ⟨kind, span, fields, s⟩
      have hv : visitOf pure kind span fields s = v := by
        rw [visitOf, walkFields_of_not_due hp hs fields hfields]
      have hopens : v.opens = false := by
        by_contra ho
        obtain ⟨_, _, _, hmarked⟩ := Visit.opens_iff.mp (Bool.not_eq_false _ ▸ ho)
        rw [show v.before.marked = [] from hs] at hmarked
        cases hmarked
      have hdue : v.node.isDue pure v.before.comments = false := hnode _ List.mem_cons_self
      have hkeep : v.change pure = .keep := by simp [Visit.change, hopens, hdue]
      rw [walk_node hp hk, hv, Visit.after_eq hp, Visit.fieldsAfter, hkeep]
      rfl
  | .null, _ | .bool _, _ | .number _ _, _ | .text _, _ | .range _, _ => rfl

private theorem walkItems_of_not_due (hp : Nominal pure) {s : Marking} (hs : s.marked = []) : ∀ items : List Tree,
    (∀ n ∈ reachedOfItems items, n.isDue pure s.comments = false) → walkItems pure items s = (items, s)
  | [], _ => rfl
  | t :: rest, h => by
    obtain ⟨ht, hrest⟩ := List.forall_mem_append.mp h
    simp only [walkItems, walk_of_not_due hp hs t ht, walkItems_of_not_due hp hs rest hrest]

private theorem walkFields_of_not_due (hp : Nominal pure) {s : Marking} (hs : s.marked = []) : ∀ fields : List (Field × Tree),
    (∀ n ∈ reachedOfFields fields, n.isDue pure s.comments = false) → walkFields pure fields s = (fields, s)
  | [], _ => rfl
  | (f, t) :: rest, h => by
    obtain ⟨ht, hrest⟩ := List.forall_mem_append.mp h
    simp only [walkFields, walk_of_not_due hp hs t ht, walkFields_of_not_due hp hs rest hrest]

end

/-- A run leaves no due call: each has its mark now, and what had one before still has it. -/
theorem Finished.not_due (hp : Nominal pure) {program : Tree} {initial : Comments} {c k : Pos} {vs : List Visit}
    {ms : List Tree} {s : Marking} (h : Finished pure program initial c k vs ms s) {m : Tree} (hm : m ∈ ms) :
    m.isDue pure s.comments = false := by
  have hlength := h.relocated.follows.length_eq
  rw [← List.map_snd_zip hlength.ge] at hm
  obtain ⟨⟨n, m⟩, hz, rfl⟩ := List.mem_map.mp hm
  cases hdue : n.isDue pure initial with
  | true =>
    have hmarked := Comments.isMarked_of_get (h.get_due hp hz hdue)
    simp [isDue, Comments.accepts, hmarked]
  | false =>
    obtain ⟨hstart, hget⟩ := h.get_rest hz hdue
    rw [isDue, (h.follows hz).callsPure, Comments.accepts, Comments.isMarked_congr hget, hstart]
    exact hdue

end Marking

namespace Annotator

/-- A walk changes no verdict of its module. -/
theorem verdict_visit {w : Whitelist} {program : Tree} (h : walks w program = true) (a : Annotator) :
    verdict w (visit w program a).1 = verdict w program := by
  rw [visit_of_walks h]
  exact congrArg (isPure w) (Imports.ofModule_walked (verdict_nominal w program) (.of_walk program a.marking))

/-- A run over a program that has no due calls changes nothing. -/
theorem visit_of_not_due {w : Whitelist} {program : Tree} {comments : Comments}
    (h : ∀ n ∈ program.reached, n.isDue (verdict w program) comments = false) (c : Pos) :
    visit w program (start comments c) = (program, start comments c) := by
  cases hw : walks w program with
  | false => exact visit_of_not_walks hw comments c
  | true =>
    rw [visit_of_walks hw, start, walk_of_not_due (verdict_nominal w program) rfl program h]

/-- A second run over a source-shaped program changes nothing, neither with what the first run goes on with nor with a
new start from any fresh position. -/
theorem second_run_unchanged (w : Whitelist) (program : Tree) (comments : Comments) (c : Pos) :
    let run := visit w program (start comments c)
    let store := run.2.marking.comments
    SourceShaped program → .firstFresh ≤ c → c + takes w program (start comments c) ≤ .reserved →
      visit w run.1 run.2 = run ∧ ∀ c', visit w run.1 (start store c') = (run.1, start store c') := by
  intro run store hshape hc hk
  have hsecond : ∀ c', visit w run.1 (start store c') = (run.1, start store c') := by
    cases hw : walks w program with
    | false =>
      have hrun : run = (program, start comments c) := visit_of_not_walks hw comments c
      simp only [store, hrun]
      exact visit_of_not_walks hw comments
    | true =>
      obtain ⟨s, hrun, hfinished⟩ := run_finished comments hw hshape hc hk
      have hstore : store = s.comments := congrArg (fun a => a.marking.comments) hrun
      refine visit_of_not_due fun m hm => ?_
      rw [verdict_visit hw, hstore]
      cases hcall : m.callsPure (verdict w program) with
      | true =>
        have hsite : m ∈ run.1.sites := List.mem_filter.mpr ⟨hm, isSite_of_callsPure hcall⟩
        exact hfinished.not_due (verdict_nominal w program) hsite
      | false => simp [isDue, hcall]
  refine ⟨?_, hsecond⟩
  obtain ⟨s, -, hrun⟩ := visit_linked w program comments c
  have hagain := hsecond s.fresh
  rw [show start store s.fresh = run.2 by simp only [store, run, hrun]; rfl] at hagain
  exact hagain

theorem second_run_unchanged_chained :
    let run := visit .calledF .chained (start {} .firstFresh)
    run.2.marking.fresh = .firstFresh + 1 ∧ visit .calledF run.1 run.2 = run :=
  ⟨by decide, (second_run_unchanged .calledF .chained {} .firstFresh chained_sourceShaped le_rfl (by decide)).1⟩

end Annotator
end PureCalls
