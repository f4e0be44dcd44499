import PureCalls.Proofs.Outcome

/-! Which calls get parentheses. A due call gets them exactly if a call, an optional chain or a tagged template begins
with it and the walk meets no other call or tagged template on the way to it. -/
namespace PureCalls
open PureCalls.Tree Marking
namespace Tree

/-- Whether a member, an optional chain or an expression with a type begins with an expression. -/
def PassesTo (outer inner : Tree) : Prop :=
  outer.LeadsTo inner ∧ outer.isKind .call = false ∧ outer.isKind .tagged = false

/-- Whether an expression stands in front of a call, an optional chain or a tagged template, with any number of
members, optional chains and types in between, but no call and no template. -/
def HasInFront (outer n : Tree) : Prop :=
  outer.isSite = true ∧ ∃ first, outer.LeadsTo first ∧ Relation.ReflTransGen PassesTo first n

private theorem HasInFront.beginsWith {outer n : Tree} (h : outer.HasInFront n) : outer.BeginsWith n := by
  obtain ⟨-, first, hfirst, hrest⟩ := h
  exact Relation.TransGen.head'_iff.mpr ⟨first, hfirst, Relation.ReflTransGen.mono (fun _ _ h => h.1) _ _ hrest⟩

/-- The last call, optional chain or tagged template in front of which an expression stands has it in front. -/
private theorem BeginsWith.last {t n : Tree} (h : t.BeginsWith n) :
    (∃ first, t.LeadsTo first ∧ Relation.ReflTransGen PassesTo first n) ∨
      ∃ o, t.BeginsWith o ∧ o.HasInFront n := by
  induction h using Relation.TransGen.head_induction_on with
  | single h => exact Or.inl ⟨n, h, .refl⟩
  | @head t u htu _ ih =>
    rcases ih with ⟨first, hfirst, hrest⟩ | ⟨o, ho, hfront⟩
    · by_cases hstop : u.isKind .call = true ∨ u.isKind .tagged = true
      · have hsite : u.isSite = true := by
          cases u with
          | node kind span fields => rcases hstop with hk | hk <;> simp_all [isKind, kind?, isSite, Kind.isSite]
          | _ => simp [isKind, kind?] at hstop
        exact Or.inr ⟨u, .single htu, hsite, first, hfirst, hrest⟩
      · rw [not_or, Bool.not_eq_true, Bool.not_eq_true] at hstop
        exact Or.inl ⟨u, htu, hrest.head ⟨hfirst, hstop⟩⟩
    · exact Or.inr ⟨o, ho.head htu, hfront⟩

end Tree

namespace Placed
variable {pure : Tree → Bool} {c : Pos} {program : Tree} {store : Comments} {n : Tree}

/-- A due call shares its place exactly if it stands in front of something. -/
theorem shares_iff (hp : Nominal pure) (h : Placed c program) (hn : n ∈ program.sites)
    (hdue : n.isDue pure store = true) :
    Shares pure program.sites n.start ↔ ∃ o ∈ program.reached, o.HasInFront n := by
  obtain ⟨hcall, haccepts⟩ := Bool.and_eq_true_iff.mp hdue
  obtain ⟨hdummy, hreserved, -⟩ := Comments.accepts_iff.mp haccepts
  have hnsite := isSite_of_callsPure hcall
  constructor
  · rintro ⟨o, ho, hstart, hnot⟩
    obtain ⟨ho', hosite⟩ := List.mem_filter.mp ho
    have hne : n ≠ o := fun he => by rw [he, hnot] at hcall; cases hcall
    have hbegins := (h.begins_or hn ho hne hstart.symm hdummy hreserved).resolve_left
      (Callee.not_beginsWith_site hp hcall hosite)
    rcases hbegins.last with hfront | ⟨o', hoo', hfront⟩
    · exact ⟨o, ho', hosite, hfront⟩
    · obtain ⟨before, after, hsplit⟩ := List.append_of_mem ho'
      have hmem := (leftInside_reached program).beginsWith hsplit hoo' (isEntered_of_site hfront.1)
      exact ⟨o', hsplit ▸ List.mem_append_left _ hmem, hfront⟩
  · rintro ⟨o, ho, hfront⟩
    have hosite := List.mem_filter.mpr ⟨ho, hfront.1⟩
    refine ⟨o, hosite, (h.aligned o hosite n hfront.beginsWith hnsite).symm, ?_⟩
    by_contra hpure
    exact Callee.not_beginsWith_site hp (Bool.not_eq_false _ ▸ hpure) hnsite hfront.beginsWith

end Placed

namespace Annotator

/-- A run over a source-shaped module puts a node into parentheses exactly if it is a due call and stands in front of a
call, an optional chain or a tagged template. Each of them gets one of the fresh positions, and nothing else changes. -/
theorem wraps_exact (w : Whitelist) (program : Tree) (comments : Comments) (c : Pos) :
    let k := takes w program (start comments c)
    let run := visit w program (start comments c)
    SourceShaped program → program.isKind .moduleProgram = true → .firstFresh ≤ c → c + k ≤ .reserved →
      ∃ place, run.1 = program.parenthesize place ∧
        (∀ n ∈ program.reached, (place n).isSome = true ↔
          n.isDue (verdict w program) comments = true ∧ ∃ o ∈ program.reached, o.HasInFront n) ∧
        (program.reached.filterMap place).Perm (List.range' c k) := by
  intro k run hshape hmodule hc hk
  have hp := verdict_nominal w program
  have hplaced := hshape.placed hc
  obtain ⟨place, houtcome⟩ := exists_outcome w hmodule comments hplaced hk
  refine ⟨place, houtcome.output, fun n hn => ⟨fun hsome => ?_, fun ⟨hdue, hfront⟩ => ?_⟩, ?_⟩
  · have hsite : n ∈ program.sites := List.mem_filter.mpr ⟨hn, isSite_of_isCall (houtcome.calls n hsome)⟩
    obtain ⟨hdue, hshares⟩ := (houtcome.placed n hsite).mp hsome
    exact ⟨hdue, (hplaced.shares_iff hp hsite hdue).mp hshares⟩
  · have hsite : n ∈ program.sites :=
      List.mem_filter.mpr ⟨hn, isSite_of_callsPure (Bool.and_eq_true_iff.mp hdue).1⟩
    exact (houtcome.placed n hsite).mpr ⟨hdue, (hplaced.shares_iff hp hsite hdue).mpr hfront⟩
  · exact filterMap_sites houtcome.calls program ▸ houtcome.fresh

theorem wraps_exact_chained :
    ∃ place, (visit .calledF .chained (start {} .firstFresh)).1 = chained.parenthesize place ∧
      place chained.head = some .firstFresh := by
  obtain ⟨place, houtput, hiff, hfresh⟩ :=
    wraps_exact .calledF .chained {} .firstFresh chained_sourceShaped rfl le_rfl (by decide)
  have hsites : chained.sites = [chained.argument, chained.head, chained.call] := rfl
  have hhead : chained.head ∈ chained.sites := by simp [hsites]
  have hcall : chained.call ∈ chained.sites := by simp [hsites]
  replace hhead := List.mem_of_mem_filter hhead
  replace hcall := List.mem_of_mem_filter hcall
  have hfront : chained.call.HasInFront chained.head :=
    ⟨rfl, _, rfl, .single ⟨rfl, rfl, rfl⟩⟩
  obtain ⟨q, hq⟩ := Option.isSome_iff_exists.mp ((hiff chained.head hhead).mpr ⟨by decide, _, hcall, hfront⟩)
  have hk : takes .calledF .chained (start {} .firstFresh) = 1 := by decide
  have hmem := hfresh.subset (List.mem_filterMap.mpr ⟨_, hhead, hq⟩)
  rw [hk] at hmem
  exact ⟨place, houtput, hq.trans (congrArg some (List.mem_singleton.mp hmem))⟩

end Annotator
end PureCalls
