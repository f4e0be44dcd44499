import PureCalls.Proofs.Settling

/-! What a run over a program leaves. It puts the due calls that other expressions begin with into parentheses, each at
a fresh position, and it adds a mark wherever a due call stands then. -/
namespace PureCalls
open PureCalls.Tree Marking
namespace Tree
variable {pure : Tree → Bool} {place : Tree → Option Pos}

/-- Where a node stands, given the positions that nodes are moved to. -/
def standing (place : Tree → Option Pos) (n : Tree) : Pos :=
  (place n).getD n.start

theorem start_settle_eq (hcalls : OnlyCalls place) (n : Tree) : (settle place n).start = standing place n := by
  cases h : place n with
  | some q => rw [start_settle_placed (hcalls n (Option.isSome_iff_exists.mpr ⟨q, h⟩)) h, standing, h]; rfl
  | none => rw [start_settle h, standing, h]; rfl

/-- Whether a site that is no pure call starts at a position. -/
def Shares (pure : Tree → Bool) (ns : List Tree) (p : Pos) : Prop :=
  ∃ o ∈ ns, o.start = p ∧ o.callsPure pure = false

/-- The fresh ends of what has been moved are the positions that were given. -/
theorem map_snd_shifts (hcalls : OnlyCalls place) {ns : List Tree} (h : ∀ n ∈ ns, ∀ q, place n = some q → n.start ≠ q) :
    (shifts ns (ns.map (settle place))).map Prod.snd = ns.filterMap place := by
  induction ns with
  | nil => rfl
  | cons n ns ih =>
    obtain ⟨hn, hns⟩ := List.forall_mem_cons.mp h
    have hone : [n].length = [settle place n].length := rfl
    have hsplit : shifts (n :: ns) ((n :: ns).map (settle place)) =
        shifts [n] [settle place n] ++ shifts ns (ns.map (settle place)) := shifts_append hone ns _
    rw [hsplit, List.map_append, ih hns]
    cases hq : place n with
    | some q => simp [shifts, start_settle_eq hcalls, standing, hq, hn q hq]
    | none => simp [shifts, start_settle_eq hcalls, standing, hq]

end Tree

/-- What a run leaves of a program and of comments, if it takes the `k` positions from `c` on and moves calls to those
that `place` gives: the program has parentheses around the due calls that share their place with another site, and a
position has one mark more if a due call stands there. -/
structure Outcome (pure : Tree → Bool) (program : Tree) (initial : Comments) (c k : Pos) (place : Tree → Option Pos)
    (output : Tree) (store : Comments) : Prop where
  output : output = program.parenthesize place
  calls : OnlyCalls place
  placed (n : Tree) (hn : n ∈ program.sites) :
    (place n).isSome = true ↔ n.isDue pure initial = true ∧ Shares pure program.sites n.start
  fresh : (program.sites.filterMap place).Perm (List.range' c k)
  marked (n : Tree) (hn : n ∈ program.sites) (hdue : n.isDue pure initial = true) :
    store.get (standing place n) = initial.get (standing place n) ++ [Comment.marker]
  others (p : Pos) (hp : ∀ n ∈ program.sites, n.isDue pure initial = true → standing place n ≠ p) :
    store.get p = initial.get p

namespace Outcome
variable {pure : Tree → Bool} {program output : Tree} {initial store : Comments} {c k : Pos}
  {place : Tree → Option Pos} {n m : Tree} {q : Pos}

theorem due_of_placed (h : Outcome pure program initial c k place output store) (hn : n ∈ program.sites)
    (hq : place n = some q) : n.isDue pure initial = true :=
  ((h.placed n hn).mp (Option.isSome_iff_exists.mpr ⟨q, hq⟩)).1

theorem callsPure_of_placed (h : Outcome pure program initial c k place output store) (hn : n ∈ program.sites)
    (hq : place n = some q) : n.callsPure pure = true :=
  (Bool.and_eq_true_iff.mp (h.due_of_placed hn hq)).1

theorem within_iff (h : Outcome pure program initial c k place output store) :
    Pos.within c k q = true ↔ ∃ n ∈ program.sites, place n = some q := by
  rw [Pos.within_iff, ← List.mem_range'_1, ← h.fresh.mem_iff, List.mem_filterMap]

theorem within_of_placed (h : Outcome pure program initial c k place output store) (hn : n ∈ program.sites)
    (hq : place n = some q) : c ≤ q ∧ q < c + k :=
  Pos.within_iff.mp (h.within_iff.mpr ⟨n, hn, hq⟩)

/-- No two sites are given one position. -/
theorem eq_of_placed (h : Outcome pure program initial c k place output store) (hn : n ∈ program.sites)
    (hm : m ∈ program.sites) (hq : place n = some q) (hq' : place m = some q) : n = m := by
  have hnodup : (program.sites.filterMap place).Nodup := h.fresh.nodup_iff.mpr List.nodup_range'
  have hsymm : Std.Symm fun n m : Tree => ∀ q, place n = some q → ∀ q', place m = some q' → q ≠ q' :=
    ⟨fun n m hnm q hq q' hq' => (hnm q' hq' q hq).symm⟩
  by_contra hne
  exact (List.pairwise_filterMap.mp hnodup).forall hn hm hne q hq q hq' rfl

theorem sites_output (h : Outcome pure program initial c k place output store) :
    output.sites = program.sites.map (settle place) := by
  rw [h.output, sites_parenthesize h.calls]

/-- What a site begins with, up to another site, stays where it is. -/
theorem stays (hp : Nominal pure) (h : Outcome pure program initial c k place output store)
    (hn : n ∈ program.sites) (hnm : n.BeginsWith m) (hm : m.isSite = true) : place n = none := by
  by_contra hne
  obtain ⟨q, hq⟩ := Option.ne_none_iff_exists'.mp hne
  exact Callee.not_beginsWith_site hp (h.callsPure_of_placed hn hq) hm hnm

/-- A site that begins with another one that stays does so after the run. -/
theorem beginsWith_settle (hp : Nominal pure) (h : Outcome pure program initial c k place output store)
    (hn : n ∈ program.sites) (hnm : n.BeginsWith m) (hm : m.isSite = true) (hstays : place m = none) :
    (settle place n).BeginsWith (settle place m) := by
  rw [← parenthesize_eq_settle (isEntered_of_site hm) hstays]
  refine Tree.beginsWith_settle h.calls hnm fun x hx hxm => ?_
  by_contra hne
  have hx' : x.isSite = true := isSite_of_isCall (h.calls x (Option.isSome_iff_ne_none.mpr hne))
  exact hne (h.stays hp (mem_sites_of_beginsWith hn hx hx') hxm hm)

/-- A run leaves the places of nodes as the next walk asks. -/
theorem placed_output (hp : Nominal pure) (h : Outcome pure program initial c k place output store)
    (hplaced : Placed c program) (hk : c + k ≤ .reserved) : Placed (c + k) output where
  aligned n' hn' m' hbegins hm' := by
    rw [h.sites_output] at hn'
    obtain ⟨n, hn, rfl⟩ := List.mem_map.mp hn'
    obtain ⟨m, hnm, rfl⟩ := beginsWith_of_settle h.calls hbegins
    obtain ⟨hstays, hm, heq⟩ := site_of_parenthesize hm'
    rw [heq, start_settle hstays, start_settle (h.stays hp hn hnm hm)]
    exact hplaced.aligned n hn m hnm hm
  shared := by
    rw [h.sites_output, List.pairwise_map]
    have hnodup : (program.sites.filterMap place).Nodup := h.fresh.nodup_iff.mpr List.nodup_range'
    refine (hplaced.shared.and (List.pairwise_filterMap.mp hnodup)).imp_of_mem fun {n m} hn hm hnm hstart => ?_
    obtain ⟨hshared, hapart⟩ := hnm
    have hout {n : Tree} (hn : n ∈ program.sites) {q : Pos} (hq : c ≤ q ∧ q < c + k) : n.start ≠ q := by
      rcases hplaced.below n (reached_subset program (List.mem_of_mem_filter hn)) with hlt | hreserved
      · exact (hlt.trans_le hq.1).ne
      · exact hreserved ▸ (hq.2.trans_le hk).ne'
    rw [start_settle_eq h.calls, start_settle_eq h.calls, standing, standing] at hstart
    rw [start_settle_eq h.calls, standing]
    cases hqn : place n with
    | some q =>
      have hq := h.within_of_placed hn hqn
      cases hqm : place m with
      | some q' => simp [hqn, hqm, hapart q hqn q' hqm] at hstart
      | none => exact absurd (by simpa [hqn, hqm] using hstart.symm) (hout hm hq)
    | none =>
      cases hqm : place m with
      | some q' => exact absurd (by simpa [hqn, hqm] using hstart) (hout hn (h.within_of_placed hm hqm))
      | none =>
        have hsite {n : Tree} (hn : n ∈ program.sites) : n.isSite = true := List.of_mem_filter hn
        rcases hshared (by simpa [hqn, hqm] using hstart) with h0 | h0 | hnm | hmn
        · exact Or.inl h0
        · exact Or.inr (Or.inl h0)
        · exact Or.inr (Or.inr (Or.inl (h.beginsWith_settle hp hn hnm (hsite hm) hqm)))
        · exact Or.inr (Or.inr (Or.inr (h.beginsWith_settle hp hm hmn (hsite hn) hqn)))
  below m hm := by
    rw [h.output] at hm
    rcases nodes_parenthesize program m hm with ⟨n, hn, hstart⟩ | ⟨n, hn, hq⟩
    · rw [hstart]
      exact (hplaced.below n hn).imp_left fun hlt => hlt.trans_le (Nat.le_add_right c k)
    · have hsite := isSite_of_isCall (h.calls n (Option.isSome_iff_exists.mpr ⟨_, hq⟩))
      exact Or.inl (h.within_of_placed (List.mem_filter.mpr ⟨hn, hsite⟩) hq).2

end Outcome

namespace Marking
namespace Finished
variable {pure : Tree → Bool} {program output : Tree} {initial : Comments} {c k : Pos} {vs : List Visit} {s : Marking}

/-- A mark is moved away by a site that is no pure call. -/
theorem shares (hp : Nominal pure) {ms : List Tree} (h : Finished pure program initial c k vs ms s) {p : Pos}
    (hmoved : p ∈ (moves pure vs).map Prod.fst) : Shares pure program.sites p := by
  obtain ⟨⟨p, q⟩, hmem, rfl⟩ := List.mem_map.mp hmoved
  obtain ⟨v, hv, hchange, rfl, rfl⟩ := mem_moves.mp hmem
  obtain ⟨o, ho, hvisited⟩ := exists_visitedBy h.visited v hv
  have halike := hvisited.alike hp
  obtain ⟨_, hfront, -⟩ := Visit.release_iff.mp hchange
  obtain ⟨f, hf, -⟩ := Visit.front?_eq_some.mp hfront
  have hsite : v.node.isSite = true := opening?_of_site hf
  refine ⟨o, List.mem_filter.mpr ⟨ho, ?_⟩, halike.start.symm, ?_⟩
  · rwa [isSite, halike.kind] at hsite
  · exact halike.callsPure.symm.trans (Visit.callsPure_of_release hp hchange)

/-- No other site stands where a mark is in its place. -/
theorem not_shares {ms : List Tree} (h : Finished pure program initial c k vs ms s) {n : Tree}
    (hn : n ∈ program.sites) (hcall : n.callsPure pure = true) (hmarked : n.start ∈ s.marked) :
    ¬ Shares pure program.sites n.start := by
  rintro ⟨o, ho, hstart, hnot⟩
  obtain ⟨m, honly, -⟩ := h.tracks.alone _ hmarked
  have hmem {u : Tree} (hu : u ∈ program.sites) (hstart : u.start = n.start) : u = m := by
    obtain ⟨hu, hsite⟩ := List.mem_filter.mp hu
    have hat : u ∈ program.reached.filter (isSiteAt n.start) :=
      List.mem_filter.mpr ⟨hu, isSiteAt_iff.mpr ⟨hsite, hstart⟩⟩
    rwa [honly, List.mem_singleton] at hat
  rw [hmem ho hstart, ← hmem hn rfl, hcall] at hnot
  cases hnot

private theorem settles {ms : List Tree} (h : Finished pure program initial c k vs ms s) : Settles pure c vs := by
  refine fun v hv => ⟨h.tracks.movesPure v hv, fun hchange => ?_⟩
  obtain ⟨_, _, _, hmarked⟩ := Visit.release_iff.mp hchange
  exact ((h.conserved v hv).below _ hmarked).2

private theorem due_of_marked {p : Pos} (hs : Conserves pure program.reached initial c s) (hmarked : p ∈ s.marked)
    {n : Tree} (hstart : n.start = p) (hcall : n.callsPure pure = true) : n.isDue pure initial = true := by
  obtain ⟨-, hdummy, hreserved⟩ := hs.below p hmarked
  refine Bool.and_eq_true_iff.mpr ⟨hcall, Comments.accepts_iff.mpr ?_⟩
  rw [hstart]
  exact ⟨hdummy, hreserved, hs.unmarked p hmarked⟩

/-- The calls that are moved are the due calls that share their place. -/
theorem moved_iff (hp : Nominal pure) {ms : List Tree} (h : Finished pure program initial c k vs ms s) {n : Tree}
    (hn : n ∈ program.sites) : (movedBy pure (moves pure vs) n).isSome = true ↔
      n.isDue pure initial = true ∧ Shares pure program.sites n.start := by
  rw [movedBy_isSome_iff]
  constructor
  · rintro ⟨hcall, hmoved⟩
    refine ⟨?_, h.shares hp hmoved⟩
    obtain ⟨⟨_, _⟩, hmem, hstart⟩ := List.mem_map.mp hmoved
    obtain ⟨v, hv, hchange, hv', -⟩ := mem_moves.mp hmem
    obtain ⟨_, _, _, hmarked⟩ := Visit.release_iff.mp hchange
    exact due_of_marked (h.conserved v hv) hmarked (hstart.symm.trans hv'.symm) hcall
  · rintro ⟨hdue, hshares⟩
    have hcall := (Bool.and_eq_true_iff.mp hdue).1
    refine ⟨hcall, (h.tracks.due n (List.mem_of_mem_filter hn) hdue).resolve_left fun hmarked => ?_⟩
    exact h.not_shares hn hcall hmarked hshares

/-- What a walk to the end makes of a program. -/
theorem outcome (hp : Nominal pure) (houtput : output = program.parenthesize (movedBy pure (moves pure vs)))
    (h : Finished pure program initial c k vs output.sites s) :
    Outcome pure program initial c k (movedBy pure (moves pure vs)) output s.comments := by
  have hcalls := movedBy_onlyCalls pure (moves pure vs)
  have hsites : output.sites = program.sites.map (settle (movedBy pure (moves pure vs))) := by
    rw [houtput, sites_parenthesize hcalls]
  have hfresh : (program.sites.filterMap (movedBy pure (moves pure vs))).Perm (List.range' c k) := by
    have hperm := h.relocated.perm.map Prod.snd
    rw [hsites, map_snd_shifts hcalls, map_snd_moves, h.taken] at hperm
    · exact hperm
    · intro n _ q hq
      obtain ⟨v, hv, hchange, hstart, rfl⟩ := mem_moves.mp (movedBy_eq_some hq).2
      obtain ⟨hlt, hle, -⟩ := h.tracks.movesPure v hv hchange
      exact hstart ▸ (hlt.trans_le hle).ne
  refine ⟨houtput, hcalls, fun n hn => h.moved_iff hp hn, hfresh, fun n hn hdue => ?_, fun p hp' => ?_⟩
  · have hz : (n, settle (movedBy pure (moves pure vs)) n) ∈ program.sites.zip output.sites := by
      have hzip : (program.sites.map id).zip (program.sites.map (settle (movedBy pure (moves pure vs)))) =
          program.sites.map fun n => (n, settle (movedBy pure (moves pure vs)) n) := List.zip_map'
      rw [List.map_id] at hzip
      rw [hsites, hzip]
      exact List.mem_map_of_mem hn
    rw [← start_settle_eq hcalls]
    exact h.get_due hp hz hdue
  · by_cases hmarked : p ∈ s.marked
    · obtain ⟨n, hn, hstart, hcall⟩ := h.conserves.called p hmarked
      have hsite : n ∈ program.sites := List.mem_filter.mpr ⟨hn, isSite_of_callsPure hcall⟩
      have hstays : movedBy pure (moves pure vs) n = none := by
        by_contra hne
        have hmoved := (h.moved_iff hp hsite).mp (Option.isSome_iff_ne_none.mpr hne)
        exact h.not_shares hsite hcall (hstart ▸ hmarked) hmoved.2
      refine absurd ?_ (hp' n hsite (due_of_marked h.conserves hmarked hstart hcall))
      rw [standing, hstays]
      exact hstart
    · refine h.conserves.others p hmarked fun hf => ?_
      have hmem : p ∈ List.range' c k := List.mem_range'_1.mpr ⟨hf.1, h.fresh ▸ hf.2⟩
      obtain ⟨n, hn, hplace⟩ := List.mem_filterMap.mp (hfresh.symm.subset hmem)
      have hdue := ((h.moved_iff hp hn).mp (Option.isSome_iff_exists.mpr ⟨p, hplace⟩)).1
      refine hp' n hn hdue ?_
      rw [standing, hplace]
      rfl

end Finished
end Marking

namespace Annotator
open Marking

/-- Each run over a module has an outcome, if the places of nodes are as a walk asks. -/
theorem exists_outcome (w : Whitelist) {program : Tree} (hmodule : program.isKind .moduleProgram = true)
    (comments : Comments) {c : Pos} (hplaced : Placed c program)
    (hk : c + takes w program (start comments c) ≤ .reserved) :
    let run := visit w program (start comments c)
    ∃ place, Outcome (verdict w program) program comments c (takes w program (start comments c)) place run.1
      run.2.marking.comments := by
  intro run
  have hp := verdict_nominal w program
  cases hw : walks w program with
  | true =>
    obtain ⟨s, hrun, hfinished⟩ := run_finished_of_placed comments hw hplaced hk
    have hstore : run.2.marking.comments = s.comments := congrArg (fun a => a.marking.comments) hrun
    have hvisits := visits_of_walks hw comments c
    have hsettles := hfinished.settles
    have houtput : run.1 = program.parenthesize
        (movedBy (verdict w program) (moves (verdict w program) (visits w program (start comments c)))) := by
      simp only [run, visit_of_walks hw, hvisits]
      exact walk_eq_parenthesize hp program _ (hplaced.pureApart hp) (hvisits ▸ hsettles)
    exact ⟨_, hstore ▸ hfinished.outcome hp houtput⟩
  | false =>
    have hrun : run = (program, start comments c) := visit_of_not_walks hw comments c
    have hdue (n : Tree) : n.isDue (verdict w program) comments = false := by
      cases hcallee : n.callee? <;> simp [isDue, callsPure, hcallee, verdict_of_not_walks hw hmodule]
    refine ⟨fun _ => none, ?_⟩
    rw [hrun, takes_of_not_walks hw]
    refine ⟨(parenthesize_none program).symm, by simp [OnlyCalls], by simp [hdue], by simp, by simp [hdue], ?_⟩
    exact fun _ _ => rfl

end Annotator
end PureCalls
