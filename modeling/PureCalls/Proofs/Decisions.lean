import PureCalls.Proofs.Unchanged

/-! The decisions of a walk. A visit first looks for a marked call in front of its node and then decides on a callee
that the walk, and perhaps this very search, has rewritten; here the two are told apart. -/
namespace PureCalls
open PureCalls.Tree
namespace Visit
open Marking

/-- The fields of the node and the marking once the call in front has been looked for. -/
def search (v : Visit) : List (Field × Tree) × Marking :=
  match opening? v.kind v.fields with
  | some f => wrapHeadOf v.start f v.fields v.before
  | none => (v.fields, v.before)

/-- The callee that a visit decides on, as the search has left it. -/
def decided? (v : Visit) : Option Tree :=
  v.node.callee?.map fun _ => lookup .callee v.search.1

variable {v : Visit}

/-- The search changes something exactly if the call in front is marked and starts with the node. -/
theorem search_cases (v : Visit) :
    v.opens = false ∧ v.search = (v.fields, v.before) ∨
      v.opens = true ∧ ∃ f, opening? v.kind v.fields = some f ∧
        v.search = (wrapAtOf v.before.fresh f v.fields, v.before.release v.start) := by
  cases hf : opening? v.kind v.fields with
  | none => exact Or.inl ⟨by simp [opens, node, front?, hf], by simp [search, hf]⟩
  | some f =>
    have hs : v.search = if v.opens then (wrapAtOf v.before.fresh f v.fields, v.before.release v.start)
        else (v.fields, v.before) := by
      simp only [search, opens, node, front?, hf, Option.bind_some, wrapHeadOf_eq]
    cases ho : v.opens with
    | true => exact Or.inr ⟨rfl, f, rfl, by rw [hs, ho, if_pos rfl]⟩
    | false => exact Or.inl ⟨rfl, by rw [hs, ho, if_neg (by decide)]⟩

private theorem visit_search_call (pure : Tree → Bool) (hk : v.kind = .call) :
    visit pure v.kind v.span v.fields v.before =
      (.node v.kind v.span v.search.1, if v.decided?.any pure then v.search.2.mark v.start else v.search.2) := by
  by_cases he : hasExpressionCallee v.fields = true
  · simp [visit, search, decided?, callee?, opening?, start, node, hk, he]
  · simp +decide [visit, search, decided?, callee?, opening?, node, hk, he]

private theorem visit_search_new (pure : Tree → Bool) (hk : v.kind = .newExpression) :
    visit pure v.kind v.span v.fields v.before =
      (.node v.kind v.span v.search.1, if v.decided?.any pure then v.search.2.mark v.start else v.search.2) := by
  have hs : v.search = (v.fields, v.before) := by simp +decide [search, opening?, hk]
  have hd : v.decided? = some (lookup .callee v.fields) := by simp [decided?, callee?, node, hs, hk]
  simp +decide only [visit, hs, hd, Option.any_some, hk, start, node, if_true, if_false]

/-- A visit searches first and then decides, on what the search has left. -/
theorem visit_eq_search (pure : Tree → Bool) (v : Visit) :
    visit pure v.kind v.span v.fields v.before =
      (.node v.kind v.span v.search.1, if v.decided?.any pure then v.search.2.mark v.start else v.search.2) := by
  -- Only calls and `new` expressions decide anything; all other kinds at most search.
  by_cases hcall : v.kind = .call
  · exact visit_search_call pure hcall
  by_cases hnew : v.kind = .newExpression
  · exact visit_search_new pure hnew
  have hd : v.decided? = none := by simp [decided?, callee?, node, hcall, hnew]
  rw [hd, Option.any_none, if_neg (by decide)]
  by_cases hchain : v.kind = .optionalChain
  · simp +decide only [visit, search, opening?, start, node, wrapHead, operand?, hchain, if_true, if_false]
  by_cases htag : v.kind = .tagged
  · simp +decide only [visit, search, opening?, start, node, htag, if_true, if_false]
  · simp [visit, search, opening?, hcall, hnew, hchain, htag]

end Visit

namespace Marking
variable {pure : Tree → Bool}

/-- The search keeps what a callee spells, whatever it looks for and whether it finds it. -/
theorem ofTree_wrapHead (outer : Pos) (t : Tree) (s : Marking) :
    Callee.ofTree (wrapHead outer t s).1 = Callee.ofTree t := by
  rw [wrapHead_eq]
  split
  · exact Callee.ofTree_wrapAt s.fresh t
  · rfl

private theorem ofTree_searched (v : Visit) :
    Callee.ofTree (lookup .callee v.search.1) = Callee.ofTree (lookup .callee v.fields) := by
  rcases v.search_cases with ⟨-, hs⟩ | ⟨-, f, -, hs⟩
  · rw [hs]
  · rw [hs, lookup_wrapAtOf]
    split
    next h => rw [h, Callee.ofTree_wrapAt]
    next => rfl

/-- What a visit decides is what the node had said, before anything was done to it or to what is below it. -/
theorem decided_of_visitedBy (hp : Nominal pure) {n : Tree} {v : Visit} (h : VisitedBy pure n v) :
    v.decided?.any pure = n.callsPure pure := by
  have hcallee : pure (lookup .callee v.search.1) = pure (lookup .callee v.fields) := hp.congr (ofTree_searched v)
  rw [← (h.alike hp).callsPure, callsPure, Visit.decided?, Visit.node, callee?]
  split
  · exact hcallee
  · rfl

/-- No rewriting changes a verdict. It is the same on a callee, on the callee that a walk has been over, from any
marking, and on that after one more search from any outer position. So the visits of a walk, one for each node that it
reaches, take their decisions as if nothing had been rewritten. -/
theorem verdict_unchanged (w : Whitelist) (imports : Imports) :
    let pure := isPure w imports
    (∀ callee s, pure (walk pure callee s).1 = pure callee ∧
      ∀ outer s', pure (wrapHead outer (walk pure callee s).1 s').1 = pure callee) ∧
      ∀ t s, Linked pure s (visits pure t s) (walk pure t s).2 ∧
        List.Forall₂ (fun n v => VisitedBy pure n v ∧
          visit pure v.kind v.span v.fields v.before =
            (.node v.kind v.span v.search.1, if n.callsPure pure then v.search.2.mark v.start else v.search.2) ∧
          v.decided?.any pure = n.callsPure pure) t.reached (visits pure t s) := by
  intro pure
  have hp : Nominal pure := isPure_nominal w imports
  have hwalk (callee : Tree) (s : Marking) : Callee.ofTree (walk pure callee s).1 = Callee.ofTree callee :=
    (Walked.of_walk callee s).ofTree hp
  refine ⟨fun callee s => ⟨hp.congr (hwalk callee s), fun outer s' => ?_⟩, fun t s => ⟨walk_linked t s, ?_⟩⟩
  · exact hp.congr ((ofTree_wrapHead outer _ s').trans (hwalk callee s))
  · apply (visits_reached pure t s).imp
    intro n v hv
    have hdecided := decided_of_visitedBy hp hv
    refine ⟨hv, ?_, hdecided⟩
    rw [← hdecided]
    exact Visit.visit_eq_search pure v

end Marking
end PureCalls
