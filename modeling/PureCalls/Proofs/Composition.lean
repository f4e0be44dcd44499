import PureCalls.Proofs.Matching
import PureCalls.Proofs.Outcome
import PureCalls.Proofs.Renumbering

/-! Runs with one whitelist after another. What a run leaves has an outcome again, the outcomes of two runs are one
outcome for both whitelists, and an outcome is unique up to the numbers of the fresh positions. -/
namespace PureCalls
open PureCalls.Tree Marking

namespace Options

/-- All entries that options have for a module. -/
def entriesOf (options : Options) (source : String) : List Entry :=
  (options.modules.filter fun m => m.1 = source).flatMap Prod.snd

/-- The options with the entries of `b` behind those of `a`, for each module. -/
def merge (a b : Options) : Options :=
  ⟨a.modules.map (fun m => (m.1, m.2 ++ b.entriesOf m.1)) ++
    b.modules.filter fun m => m.1 ∉ a.modules.map Prod.fst⟩

private theorem mem_entriesOf {options : Options} {source : String} {entry : Entry} :
    entry ∈ options.entriesOf source ↔ options.Lists source entry := by
  simp [entriesOf, Lists, and_assoc]

private theorem lists_merge {a b : Options} {source : String} {entry : Entry} :
    (a.merge b).Lists source entry ↔ a.Lists source entry ∨ b.Lists source entry := by
  constructor
  · rintro ⟨m, hm, rfl, hentry⟩
    rcases List.mem_append.mp hm with hm | hm
    · obtain ⟨n, hn, rfl⟩ := List.mem_map.mp hm
      rcases List.mem_append.mp hentry with hentry | hentry
      · exact Or.inl ⟨n, hn, rfl, hentry⟩
      · exact Or.inr (mem_entriesOf.mp hentry)
    · exact Or.inr ⟨m, List.mem_of_mem_filter hm, rfl, hentry⟩
  · rintro (⟨m, hm, rfl, hentry⟩ | ⟨m, hm, rfl, hentry⟩)
    · exact ⟨_, List.mem_append_left _ (List.mem_map_of_mem hm), rfl, List.mem_append_left _ hentry⟩
    · by_cases hlisted : m.1 ∈ a.modules.map Prod.fst
      · obtain ⟨n, hn, hsource⟩ := List.mem_map.mp hlisted
        refine ⟨_, List.mem_append_left _ (List.mem_map_of_mem hn), hsource, List.mem_append_right _ ?_⟩
        exact mem_entriesOf.mpr ⟨m, hm, hsource.symm, hentry⟩
      · exact ⟨m, List.mem_append_right _ (List.mem_filter.mpr ⟨hm, by simpa using hlisted⟩), rfl, hentry⟩

end Options

/-- Merged options count exactly the callees as pure that one of the two does. -/
theorem isPure_merge (a b : Options) (imports : Imports) (t : Tree) :
    isPure (.ofOptions (a.merge b)) imports t =
      (isPure (.ofOptions a) imports t || isPure (.ofOptions b) imports t) := by
  unfold isPure
  split
  next callee _ =>
    rw [Bool.eq_iff_iff, Bool.or_eq_true]
    simp only [Callee.isAllowed_iff, Options.allows_iff, Options.lists_merge, ← exists_or, ← and_or_left,
      or_and_right]
  next => rfl

private theorem Tree.callsPure_or (pure other : Tree → Bool) (n : Tree) :
    n.callsPure (fun t => pure t || other t) = (n.callsPure pure || n.callsPure other) := by
  unfold callsPure
  cases n.callee? <;> rfl

/-- The positions that calls are given by one run and by another one on what the first leaves. -/
def Tree.placedByBoth (place place' : Tree → Option Pos) (n : Tree) : Option Pos :=
  (place n).or (place' (settle place n))

namespace Outcome
section Both
variable {pure other : Tree → Bool} {program middle output : Tree} {initial store store' : Comments} {c k k' : Pos}
  {place place' : Tree → Option Pos} {n m : Tree} {p : Pos}

private theorem start_lt (hplaced : Placed c program) (hn : n ∈ program.sites) (h : initial.accepts n.start = true) :
    n.start < c :=
  (hplaced.below n (reached_subset program (List.mem_of_mem_filter hn))).resolve_right (Comments.accepts_iff.mp h).2.1

/-- A run gives no place the chance of a mark. -/
private theorem accepts_of_accepts (h : Outcome pure program initial c k place middle store)
    (hp : store.accepts p = true) : initial.accepts p = true := by
  obtain ⟨hdummy, hreserved, hunmarked⟩ := Comments.accepts_iff.mp hp
  refine Comments.accepts_iff.mpr ⟨hdummy, hreserved, ?_⟩
  by_cases hdue : ∃ n ∈ program.sites, n.isDue pure initial = true ∧ standing place n = p
  · obtain ⟨n, hn, hdue, rfl⟩ := hdue
    rw [Comments.isMarked_of_get (h.marked n hn hdue)] at hunmarked
    cases hunmarked
  · push Not at hdue
    rw [← Comments.isMarked_congr (h.others p hdue)]
    exact hunmarked

private theorem not_placed (h : Outcome pure program initial c k place middle store) (hn : n ∈ program.sites)
    (hnot : n.callsPure pure = false) : place n = none := by
  by_contra hne
  obtain ⟨q, hq⟩ := Option.ne_none_iff_exists'.mp hne
  rw [h.callsPure_of_placed hn hq] at hnot
  cases hnot

/-- Where one whitelist has a due call, the other one has none. -/
private theorem standing_ne (hp : Nominal fun t => pure t || other t) (hplaced : Placed c program)
    (h : Outcome pure program initial c k place middle store) (hn : n ∈ program.sites) (hm : m ∈ program.sites)
    (hdue : m.isDue pure initial = true) (hcall : n.callsPure other = true) (hnot : n.callsPure pure = false)
    (haccepts : initial.accepts n.start = true) : standing place m ≠ n.start := by
  intro hstart
  obtain ⟨hmcall, hmaccepts⟩ := Bool.and_eq_true_iff.mp hdue
  cases hq : place m with
  | some q =>
    rw [standing, hq, Option.getD_some] at hstart
    exact absurd (start_lt hplaced hn haccepts) (not_lt.mpr (hstart ▸ (h.within_of_placed hm hq).1))
  | none =>
    rw [standing, hq, Option.getD_none] at hstart
    obtain ⟨hdummy, hreserved, -⟩ := Comments.accepts_iff.mp hmaccepts
    have heq := hplaced.eq_of_callsPure hp hm hn (by simp [callsPure_or, hmcall]) (by simp [callsPure_or, hcall]) hstart
      hdummy hreserved
    rw [← heq, hmcall] at hnot
    cases hnot

/-- What is due in the second run are the due calls of the second whitelist that the first one does not have. -/
private theorem due_settle_iff (hp : Nominal fun t => pure t || other t) (ho : Nominal other)
    (hplaced : Placed c program) (h : Outcome pure program initial c k place middle store) (hn : n ∈ program.sites) :
    (settle place n).isDue other store = true ↔
      n.isDue (fun t => pure t || other t) initial = true ∧ n.callsPure pure = false := by
  simp only [isDue, callsPure_or, callsPure_settle ho h.calls, start_settle_eq h.calls, Bool.and_eq_true]
  cases hcall : n.callsPure pure with
  | true =>
    simp only [Bool.true_eq_false, and_false, iff_false, not_and, Bool.not_eq_true]
    intro _
    by_contra haccepts
    rw [Bool.not_eq_false] at haccepts
    have hdue : n.isDue pure initial = true := by
      cases hq : place n with
      | some q => exact h.due_of_placed hn hq
      | none =>
        have hinitial := h.accepts_of_accepts haccepts
        rw [standing, hq, Option.getD_none] at hinitial
        exact Bool.and_eq_true_iff.mpr ⟨hcall, hinitial⟩
    simp [Comments.accepts, Comments.isMarked_of_get (h.marked n hn hdue)] at haccepts
  | false =>
    simp only [standing, h.not_placed hn hcall, Option.getD_none, Bool.false_or, and_true]
    refine and_congr_right fun hother => ⟨h.accepts_of_accepts, fun haccepts => ?_⟩
    have hget := h.others n.start fun m hm hdue => h.standing_ne hp hplaced hn hm hdue hother hcall haccepts
    rw [Comments.accepts, Comments.isMarked_congr hget]
    exact haccepts

/-- A call that is pure to both whitelists is done with after the first run. -/
private theorem place_settle_eq_none (hp : Nominal fun t => pure t || other t) (ho : Nominal other)
    (hplaced : Placed c program) (h : Outcome pure program initial c k place middle store)
    (h' : Outcome other middle store (c + k) k' place' output store') (hn : n ∈ program.sites)
    (hcall : n.callsPure pure = true) : place' (settle place n) = none := by
  by_contra hne
  obtain ⟨q, hq⟩ := Option.ne_none_iff_exists'.mp hne
  have hn' : settle place n ∈ middle.sites := h.sites_output ▸ List.mem_map_of_mem hn
  have hnot := ((h.due_settle_iff hp ho hplaced hn).mp (h'.due_of_placed hn' hq)).2
  rw [hcall] at hnot
  cases hnot

/-- A due call shares its place with the same sites, whatever run it is due in. -/
private theorem shares_iff (hp : Nominal fun t => pure t || other t) (ho : Nominal other) (hplaced : Placed c program)
    (h : Outcome pure program initial c k place middle store) (hn : n ∈ program.sites)
    (hdue : n.isDue (fun t => pure t || other t) initial = true) :
    (if n.callsPure pure then Shares pure program.sites n.start else Shares other middle.sites n.start) ↔
      Shares (fun t => pure t || other t) program.sites n.start := by
  obtain ⟨hcall, haccepts⟩ := Bool.and_eq_true_iff.mp hdue
  obtain ⟨hdummy, hreserved, -⟩ := Comments.accepts_iff.mp haccepts
  have hsame {o : Tree} (ho : o ∈ program.sites) (hstart : o.start = n.start)
      (hocall : o.callsPure (fun t => pure t || other t) = true) : n = o :=
    hplaced.eq_of_callsPure hp hn ho hcall hocall hstart.symm hdummy hreserved
  split
  next hpure =>
    constructor
    · rintro ⟨o, ho, hstart, hnot⟩
      refine ⟨o, ho, hstart, ?_⟩
      by_contra hocall
      rw [← hsame ho hstart (Bool.not_eq_false _ ▸ hocall), hpure] at hnot
      cases hnot
    · rintro ⟨o, ho, hstart, hnot⟩
      rw [callsPure_or, Bool.or_eq_false_iff] at hnot
      exact ⟨o, ho, hstart, hnot.1⟩
  next hpure =>
    rw [Bool.not_eq_true] at hpure
    rw [h.sites_output]
    constructor
    · rintro ⟨_, ho', hstart, hnot⟩
      obtain ⟨o, hosite, rfl⟩ := List.mem_map.mp ho'
      rw [callsPure_settle ho h.calls] at hnot
      rw [start_settle_eq h.calls, standing] at hstart
      cases hq : place o with
      | some q =>
        rw [hq, Option.getD_some] at hstart
        exact absurd (start_lt hplaced hn haccepts) (not_lt.mpr (hstart ▸ (h.within_of_placed hosite hq).1))
      | none =>
        rw [hq, Option.getD_none] at hstart
        refine ⟨o, hosite, hstart, ?_⟩
        by_contra hocall
        have heq := hsame hosite hstart (Bool.not_eq_false _ ▸ hocall)
        rw [callsPure_or, ← heq, hpure, heq, hnot] at hocall
        exact hocall rfl
    · rintro ⟨o, hosite, hstart, hnot⟩
      rw [callsPure_or, Bool.or_eq_false_iff] at hnot
      refine ⟨_, List.mem_map_of_mem hosite, ?_, ?_⟩
      · rw [start_settle (h.not_placed hosite hnot.1), hstart]
      · rw [callsPure_settle ho h.calls, hnot.2]

private theorem filterMap_or_perm {α β : Type} {f g : α → Option β} {l : List α}
    (h : ∀ x ∈ l, (f x).isSome = true → g x = none) :
    (l.filterMap fun x => (f x).or (g x)).Perm (l.filterMap f ++ l.filterMap g) := by
  induction l with
  | nil => exact .nil
  | cons x l ih =>
    obtain ⟨hx, hl⟩ := List.forall_mem_cons.mp h
    cases hf : f x with
    | some b =>
      have hg : g x = none := hx (by rw [hf]; rfl)
      simpa [hf, hg] using ih hl
    | none =>
      cases hg : g x with
      | some b => simpa [hf, hg] using ((ih hl).cons b).trans List.perm_middle.symm
      | none => simpa [hf, hg] using ih hl

private theorem standing_both (hp : Nominal fun t => pure t || other t) (ho : Nominal other)
    (hplaced : Placed c program) (h : Outcome pure program initial c k place middle store)
    (h' : Outcome other middle store (c + k) k' place' output store') (hn : n ∈ program.sites) :
    standing (placedByBoth place place') n =
      if n.callsPure pure then standing place n else standing place' (settle place n) := by
  split
  next hcall => rw [standing, placedByBoth, h.place_settle_eq_none hp ho hplaced h' hn hcall, Option.or_none, standing]
  next hcall =>
    have hstays := h.not_placed hn (Bool.not_eq_true _ ▸ hcall)
    rw [standing, placedByBoth, hstays, Option.none_or, standing, start_settle hstays]

private theorem standing_lt (hplaced : Placed c program) (h : Outcome pure program initial c k place middle store)
    (hn : n ∈ program.sites) (hdue : n.isDue pure initial = true) : standing place n < c + k := by
  cases hq : place n with
  | some q =>
    rw [standing, hq, Option.getD_some]
    exact (h.within_of_placed hn hq).2
  | none =>
    rw [standing, hq, Option.getD_none]
    exact (start_lt hplaced hn (Bool.and_eq_true_iff.mp hdue).2).trans_le (Nat.le_add_right c k)

/-- The calls that the two runs mark stand at different places. -/
private theorem standing_apart (hp : Nominal fun t => pure t || other t) (ho : Nominal other)
    (hplaced : Placed c program) (h : Outcome pure program initial c k place middle store)
    (h' : Outcome other middle store (c + k) k' place' output store') (hn : n ∈ program.sites)
    (hdue : n.isDue pure initial = true) (hm : m ∈ program.sites)
    (hdue' : (settle place m).isDue other store = true) :
    standing place n ≠ standing place' (settle place m) := by
  have hm' : settle place m ∈ middle.sites := h.sites_output ▸ List.mem_map_of_mem hm
  obtain ⟨hboth, hnot⟩ := (h.due_settle_iff hp ho hplaced hm).mp hdue'
  obtain ⟨hcall, haccepts⟩ := Bool.and_eq_true_iff.mp hboth
  rw [callsPure_or, hnot, Bool.false_or] at hcall
  cases hq : place' (settle place m) with
  | some q =>
    rw [standing, standing, hq, Option.getD_some]
    exact ((standing_lt hplaced h hn hdue).trans_le (h'.within_of_placed hm' hq).1).ne
  | none =>
    rw [standing.eq_def place', hq, Option.getD_none, start_settle (h.not_placed hm hnot)]
    exact h.standing_ne hp hplaced hm hn hdue hcall hnot haccepts

private theorem due_or_iff : n.isDue (fun t => pure t || other t) initial = true ↔
    n.isDue pure initial = true ∨
      n.isDue (fun t => pure t || other t) initial = true ∧ n.callsPure pure = false := by
  cases hcall : n.callsPure pure <;> simp [isDue, callsPure_or, hcall]

/-- The outcomes of a run and of the next run on what it leaves are one outcome for what is pure to either. -/
theorem both (hp : Nominal pure) (ho : Nominal other) (hplaced : Placed c program)
    (h : Outcome pure program initial c k place middle store)
    (h' : Outcome other middle store (c + k) k' place' output store') :
    Outcome (fun t => pure t || other t) program initial c (k + k') (placedByBoth place place') output store' := by
  have hboth := hp.or ho
  have hmem {n : Tree} (hn : n ∈ program.sites) : settle place n ∈ middle.sites :=
    h.sites_output ▸ List.mem_map_of_mem hn
  have hnone {n : Tree} (hn : n ∈ program.sites) (hq : (place n).isSome = true) : place' (settle place n) = none := by
    obtain ⟨q, hq⟩ := Option.isSome_iff_exists.mp hq
    exact h.place_settle_eq_none hboth ho hplaced h' hn (h.callsPure_of_placed hn hq)
  refine ⟨?_, ?_, fun n hn => ?_, ?_, fun n hn hdue => ?_, fun p hp' => ?_⟩
  · rw [h'.output, h.output, parenthesize_parenthesize h'.calls]
    · rfl
    · intro n hn hq
      exact hnone (List.mem_filter.mpr ⟨hn, isSite_of_isCall (h.calls n hq)⟩) hq
  · intro n hq
    rw [placedByBoth, Option.isSome_or, Bool.or_eq_true] at hq
    rcases hq with hq | hq
    · exact h.calls n hq
    · have hcall := h'.calls _ hq
      rwa [isCall, kind_settle] at hcall
  · have hshares := h.shares_iff (n := n) hboth ho hplaced hn
    rw [placedByBoth, Option.isSome_or, Bool.or_eq_true, h.placed n hn, h'.placed _ (hmem hn),
      h.due_settle_iff hboth ho hplaced hn]
    cases hcall : n.callsPure pure with
    | true =>
      have hdue : n.isDue pure initial = n.isDue (fun t => pure t || other t) initial := by
        simp [isDue, callsPure_or, hcall]
      simp only [hdue, Bool.true_eq_false, and_false, false_and, or_false]
      exact and_congr_right fun hdue => by simpa [hcall] using hshares hdue
    | false =>
      have hdue : n.isDue pure initial = false := by simp [isDue, hcall]
      simp only [hdue, Bool.false_eq_true, false_and, false_or, and_true, start_settle (h.not_placed hn hcall)]
      exact and_congr_right fun hdue => by simpa [hcall] using hshares hdue
  · have hperm := filterMap_or_perm fun n hn => hnone hn
    have hsecond : program.sites.filterMap (fun n => place' (settle place n)) = middle.sites.filterMap place' := by
      rw [h.sites_output, List.filterMap_map]
      rfl
    rw [hsecond] at hperm
    have happend := hperm.trans (h.fresh.append h'.fresh)
    rwa [List.range'_append_1] at happend
  · rw [h.standing_both hboth ho hplaced h' hn]
    rcases due_or_iff.mp hdue with hfirst | hsecond
    · rw [if_pos (Bool.and_eq_true_iff.mp hfirst).1, ← h.marked n hn hfirst]
      refine h'.others _ fun m' hm' hdue' => ?_
      obtain ⟨m, hm, rfl⟩ := List.mem_map.mp (h.sites_output ▸ hm')
      exact (h.standing_apart hboth ho hplaced h' hn hfirst hm hdue').symm
    · have hdue' := (h.due_settle_iff hboth ho hplaced hn).mpr hsecond
      rw [if_neg (by simp [hsecond.2]), h'.marked _ (hmem hn) hdue']
      rw [h.others _ fun m hm hfirst => h.standing_apart hboth ho hplaced h' hm hfirst hn hdue']
  · have hsecond : store'.get p = store.get p := by
      refine h'.others p fun n' hn' hdue' => ?_
      obtain ⟨n, hn, rfl⟩ := List.mem_map.mp (h.sites_output ▸ hn')
      obtain ⟨hdue, hnot⟩ := (h.due_settle_iff hboth ho hplaced hn).mp hdue'
      have hne := hp' n hn hdue
      rwa [h.standing_both hboth ho hplaced h' hn, if_neg (by simp [hnot])] at hne
    rw [hsecond]
    refine h.others p fun n hn hfirst => ?_
    have hne := hp' n hn (due_or_iff.mpr (Or.inl hfirst))
    rwa [h.standing_both hboth ho hplaced h' hn, if_pos (Bool.and_eq_true_iff.mp hfirst).1] at hne

end Both
end Outcome

namespace Outcome
section Unique
variable {pure : Tree → Bool} {program output output' : Tree} {initial store store' : Comments} {c k k' : Pos}
  {place place' : Tree → Option Pos} {n m : Tree}

private theorem isSome_eq (h : Outcome pure program initial c k place output store)
    (h' : Outcome pure program initial c k' place' output' store') (hn : n ∈ program.sites) :
    (place n).isSome = (place' n).isSome :=
  Bool.eq_iff_iff.mpr ((h.placed n hn).trans (h'.placed n hn).symm)

/-- All outcomes of a program take the same number of fresh positions. -/
theorem count_eq (h : Outcome pure program initial c k place output store)
    (h' : Outcome pure program initial c k' place' output' store') : k' = k := by
  have hlength := h.fresh.length_eq
  have hlength' := h'.fresh.length_eq
  rw [List.length_filterMap_eq_countP, List.length_range'] at hlength hlength'
  rw [← hlength, ← hlength']
  exact List.countP_congr fun n hn => by rw [h.isSome_eq h' hn]

/-- Two outcomes give the same calls positions, so one renumbering takes the positions of one to those of the other. -/
private theorem exists_renumbering (h : Outcome pure program initial c k place output store)
    (h' : Outcome pure program initial c k place' output' store') :
    ∃ σ : Pos → Pos, Set.BijOn σ {q | Pos.within c k q} {q | Pos.within c k q} ∧
      ∀ n ∈ program.reached, place' n = (place n).map σ := by
  have hexists : ∀ q, Pos.within c k q = true → ∃ q', ∃ n ∈ program.sites, place n = some q ∧ place' n = some q' := by
    intro q hq
    obtain ⟨n, hn, hplace⟩ := h.within_iff.mp hq
    obtain ⟨q', hq'⟩ := Option.isSome_iff_exists.mp ((h.isSome_eq h' hn).symm.trans (by rw [hplace]; rfl))
    exact ⟨q', n, hn, hplace, hq'⟩
  choose! σ hσ using hexists
  have hmap : ∀ n ∈ program.sites, place' n = (place n).map σ := by
    intro n hn
    cases hq : place n with
    | some q =>
      obtain ⟨m, hm, hmq, hmσ⟩ := hσ q (h.within_iff.mpr ⟨n, hn, hq⟩)
      rw [h.eq_of_placed hn hm hq hmq, hmσ]
      rfl
    | none =>
      have hnone := h.isSome_eq h' hn
      rw [hq] at hnone
      simpa using hnone.symm
  refine ⟨σ, ⟨fun q hq => ?_, fun q hq r hr hqr => ?_, fun q' hq' => ?_⟩, fun n hn => ?_⟩
  · obtain ⟨n, hn, -, hplace⟩ := hσ q hq
    exact h'.within_iff.mpr ⟨n, hn, hplace⟩
  · obtain ⟨n, hn, hq, hqσ⟩ := hσ q hq
    obtain ⟨m, hm, hr, hrσ⟩ := hσ r hr
    rw [h'.eq_of_placed hn hm hqσ (hqr ▸ hrσ), hr] at hq
    exact (Option.some.inj hq).symm
  · obtain ⟨n, hn, hplace⟩ := h'.within_iff.mp hq'
    rw [hmap n hn] at hplace
    obtain ⟨q, hq, rfl⟩ := Option.map_eq_some_iff.mp hplace
    exact ⟨q, h.within_iff.mpr ⟨n, hn, hq⟩, rfl⟩
  · cases hsite : n.isSite with
    | true => exact hmap n (List.mem_filter.mpr ⟨hn, hsite⟩)
    | false =>
      have hcall : n.isCall = false := by
        by_contra hcall
        rw [isSite_of_isCall (Bool.not_eq_false _ ▸ hcall)] at hsite
        cases hsite
      rw [h.calls.eq_none hcall, h'.calls.eq_none hcall, Option.map_none]

/-- Away from the fresh positions a mark is added where a due call stays. -/
private theorem standing_eq_iff (h : Outcome pure program initial c k place output store) (hn : n ∈ program.sites)
    {p : Pos} (hp : Pos.within c k p = false) : standing place n = p ↔ place n = none ∧ n.start = p := by
  cases hq : place n with
  | some q =>
    have hne : q ≠ p := by
      rintro rfl
      rw [h.within_iff.mpr ⟨n, hn, hq⟩] at hp
      cases hp
    simp [standing, hq, hne]
  | none => simp [standing, hq]

/-- A program has one outcome, up to the numbers of the fresh positions. -/
theorem unique (hfree : Free (Pos.within c k) program.nodes)
    (hclear : ∀ q, Pos.within c k q = true → initial.get q = [])
    (h : Outcome pure program initial c k place output store)
    (h' : Outcome pure program initial c k place' output' store') :
    SameUpToFresh c k output output' store store' := by
  obtain ⟨σ, hσ, hmap⟩ := h.exists_renumbering h'
  have hmarked {q : Pos} (hq : Pos.within c k q = true) {place : Tree → Option Pos} {output : Tree} {store : Comments}
      (h : Outcome pure program initial c k place output store) : store.get q = [Comment.marker] := by
    obtain ⟨n, hn, hplace⟩ := h.within_iff.mp hq
    have hget := h.marked n hn (h.due_of_placed hn hplace)
    rwa [standing, hplace, Option.getD_some, hclear q hq] at hget
  refine ⟨σ, hσ, ?_, fun q hq => ?_, fun p hp => ?_⟩
  · rw [h.output, h'.output, renumber_parenthesize program hfree]
    · exact parenthesize_congr program hmap
    · intro n hn q hq
      have hsite := isSite_of_isCall (h.calls n (Option.isSome_iff_exists.mpr ⟨q, hq⟩))
      exact h.within_iff.mpr ⟨n, List.mem_filter.mpr ⟨hn, hsite⟩, hq⟩
  · rw [hmarked hq h, hmarked (hσ.mapsTo hq) h']
  · have hsame {n : Tree} (hn : n ∈ program.sites) : standing place n = p ↔ standing place' n = p := by
      rw [h.standing_eq_iff hn hp, h'.standing_eq_iff hn hp, hmap n (List.mem_of_mem_filter hn), Option.map_eq_none_iff]
    by_cases hdue : ∃ n ∈ program.sites, n.isDue pure initial = true ∧ standing place n = p
    · obtain ⟨n, hn, hdue, hstanding⟩ := hdue
      have hget := h.marked n hn hdue
      have hget' := h'.marked n hn hdue
      rw [hstanding] at hget
      rw [(hsame hn).mp hstanding] at hget'
      rw [hget, hget']
    · push Not at hdue
      rw [h.others p hdue, h'.others p fun n hn hn' hstanding => hdue n hn hn' ((hsame hn).mpr hstanding)]

end Unique
end Outcome

namespace Annotator

/-- A run with one whitelist, and a run with another one over what the first has left. -/
def visitBoth (w w' : Whitelist) (program : Tree) (a : Annotator) : Tree × Annotator :=
  let (program, a) := visit w program a
  visit w' program a

/-- How many fresh positions the two runs take. -/
def takesBoth (w w' : Whitelist) (program : Tree) (a : Annotator) : Nat :=
  takes w program a + takes w' (visit w program a).1 (visit w program a).2

private theorem visit_walked (w : Whitelist) (program : Tree) (comments : Comments) (c : Pos) :
    Walked (verdict w program) program (visit w program (start comments c)).1 := by
  cases hw : walks w program with
  | true =>
    rw [visit_of_walks hw]
    exact .of_walk program _
  | false =>
    rw [visit_of_not_walks hw]
    exact Or.inl rfl

/-- What two runs leave is an outcome for what is pure to either whitelist. -/
theorem exists_outcome_both (w w' : Whitelist) {program : Tree} (hmodule : program.isKind .moduleProgram = true)
    (comments : Comments) {c : Pos} (hplaced : Placed c program)
    (hk : c + takesBoth w w' program (start comments c) ≤ .reserved) :
    let run := visitBoth w w' program (start comments c)
    ∃ place, Outcome (fun t => verdict w program t || verdict w' program t) program comments c
      (takesBoth w w' program (start comments c)) place run.1 run.2.marking.comments := by
  intro run
  have hp := verdict_nominal w program
  have hk' : c + takes w program (start comments c) ≤ .reserved :=
    (Nat.add_le_add_left (Nat.le_add_right _ _) c).trans hk
  obtain ⟨place, houtcome⟩ := exists_outcome w hmodule comments hplaced hk'
  have hrun := visit_snd rfl hk'
  have hwalked := visit_walked w program comments c
  have hverdict : verdict w' (visit w program (start comments c)).1 = verdict w' program :=
    congrArg (isPure w') (Imports.ofModule_walked hp hwalked)
  have hmodule' : (visit w program (start comments c)).1.isKind .moduleProgram = true := by
    rwa [isKind, hwalked.kind hp]
  simp only [run, visitBoth, takesBoth] at hk ⊢
  rw [hrun] at hk ⊢
  obtain ⟨place', houtcome'⟩ := exists_outcome w' hmodule' _ (houtcome.placed_output hp hplaced hk')
    (by rwa [Nat.add_assoc])
  rw [hverdict] at houtcome'
  exact ⟨_, houtcome.both hp (verdict_nominal w' program) hplaced houtcome'⟩

/-- Runs over a source-shaped module with one whitelist after the other, in either order, and one run with both of them
merged leave the same program and the same comments, up to the numbers of the fresh positions. -/
theorem whitelists_compose (a b : Options) (program : Tree) (comments : Comments) (c : Pos) :
    let k := takes (.ofOptions (a.merge b)) program (start comments c)
    let merged := visit (.ofOptions (a.merge b)) program (start comments c)
    let ab := visitBoth (.ofOptions a) (.ofOptions b) program (start comments c)
    let ba := visitBoth (.ofOptions b) (.ofOptions a) program (start comments c)
    SourceShaped program → program.isKind .moduleProgram = true → .firstFresh ≤ c →
      (∀ p, .firstFresh ≤ p → comments.get p = []) → c + k ≤ .reserved →
      c + takesBoth (.ofOptions a) (.ofOptions b) program (start comments c) ≤ .reserved →
      c + takesBoth (.ofOptions b) (.ofOptions a) program (start comments c) ≤ .reserved →
        SameUpToFresh c k merged.1 ab.1 merged.2.marking.comments ab.2.marking.comments ∧
        SameUpToFresh c k merged.1 ba.1 merged.2.marking.comments ba.2.marking.comments ∧
        SameUpToFresh c k ab.1 ba.1 ab.2.marking.comments ba.2.marking.comments := by
  intro k merged ab ba hshape hmodule hc hclear hk hkab hkba
  have hplaced := hshape.placed hc
  have hfree := hshape.inText.free hc hk
  have hclear' : ∀ q, Pos.within c k q = true → comments.get q = [] :=
    fun q hq => hclear q (hc.trans (Pos.within_iff.mp hq).1)
  obtain ⟨place, houtcome⟩ := exists_outcome (.ofOptions (a.merge b)) hmodule comments hplaced hk
  obtain ⟨placeab, hab⟩ := exists_outcome_both (.ofOptions a) (.ofOptions b) hmodule comments hplaced hkab
  obtain ⟨placeba, hba⟩ := exists_outcome_both (.ofOptions b) (.ofOptions a) hmodule comments hplaced hkba
  have hverdict : verdict (.ofOptions (a.merge b)) program =
      fun t => verdict (.ofOptions a) program t || verdict (.ofOptions b) program t :=
    funext fun t => isPure_merge a b _ t
  simp only [Bool.or_comm (verdict (.ofOptions b) program _), ← hverdict] at hab hba
  rw [houtcome.count_eq hab] at hab
  rw [houtcome.count_eq hba] at hba
  exact ⟨houtcome.unique hfree hclear' hab, houtcome.unique hfree hclear' hba, hab.unique hfree hclear' hba⟩

end Annotator

/-- The program `import { f } from "m"; f(f()).g(); f.g().h();`. -/
def Tree.chainedOn : Tree :=
  .node .moduleProgram (some ⟨1, 46⟩) [(.body, .list ((chained.field .body).items ++ [
    .node .expressionStatement (some ⟨36, 46⟩) [(.expression, call)]]))]
where
  property (p : Pos) (name : String) : Tree := .node .identifier (some ⟨p, p + 1⟩) [(.value, .text name)]
  head : Tree := .node .call (some ⟨36, 41⟩) [
    (.callee, .node .member (some ⟨36, 39⟩) [(.object, chained.called 36), (.property, property 38 "g")]),
    (.arguments, .list [])]
  call : Tree := .node .call (some ⟨36, 45⟩) [
    (.callee, .node .member (some ⟨36, 43⟩) [(.object, head), (.property, property 42 "h")]),
    (.arguments, .list [])]

private theorem chainedOn_sourceShaped : SourceShaped .chainedOn where
  aligned := by decide
  shared := by
    have hbegins : chained.call.BeginsWith chained.head := .tail (.single rfl) rfl
    have hbegins' : chainedOn.call.BeginsWith chainedOn.head := .tail (.single rfl) rfl
    have hsites : chainedOn.sites =
        [chained.argument, chained.head, chained.call, chainedOn.head, chainedOn.call] := rfl
    have hargument : ∀ m ∈ [chained.head, chained.call, chainedOn.head, chainedOn.call],
        chained.argument.start ≠ m.start := by decide
    have hhead : ∀ m ∈ [chainedOn.head, chainedOn.call], chained.head.start ≠ m.start := by decide
    have hcall : ∀ m ∈ [chainedOn.head, chainedOn.call], chained.call.start ≠ m.start := by decide
    rw [hsites]
    refine .cons (fun m hm hstart => absurd hstart (hargument m hm)) (.cons ?_ (.cons ?_ (.cons ?_ ?_)))
    · exact List.forall_mem_cons.mpr ⟨fun _ => .inr (.inr (.inr hbegins)),
        fun m hm hstart => absurd hstart (hhead m hm)⟩
    · exact fun m hm hstart => absurd hstart (hcall m hm)
    · exact List.forall_mem_singleton.mpr fun _ => .inr (.inr (.inr hbegins'))
    · exact List.pairwise_singleton _ _
  inText := by decide

namespace Annotator

/-- One whitelist marks the calls of `f`, the other one the call of `f.g`. -/
theorem whitelists_compose_chained :
    let a : Options := ⟨[("m", [.plain "f"])]⟩
    let b : Options := ⟨[("m", [.chain ["f", "g"]]), ("n", [.plain "h"])]⟩
    let merged := visit (.ofOptions (a.merge b)) .chainedOn (start {} .firstFresh)
    let ab := visitBoth (.ofOptions a) (.ofOptions b) .chainedOn (start {} .firstFresh)
    let ba := visitBoth (.ofOptions b) (.ofOptions a) .chainedOn (start {} .firstFresh)
    takes (.ofOptions a) .chainedOn (start {} .firstFresh) = 1 ∧
      takes (.ofOptions b) .chainedOn (start {} .firstFresh) = 1 ∧
      SameUpToFresh .firstFresh 2 merged.1 ab.1 merged.2.marking.comments ab.2.marking.comments ∧
      SameUpToFresh .firstFresh 2 merged.1 ba.1 merged.2.marking.comments ba.2.marking.comments ∧
      SameUpToFresh .firstFresh 2 ab.1 ba.1 ab.2.marking.comments ba.2.marking.comments := by
  intro a b merged ab ba
  have hk : takes (.ofOptions (a.merge b)) .chainedOn (start {} .firstFresh) = 2 := by decide +kernel
  have hab : takesBoth (.ofOptions a) (.ofOptions b) .chainedOn (start {} .firstFresh) = 2 := by decide +kernel
  have hba : takesBoth (.ofOptions b) (.ofOptions a) .chainedOn (start {} .firstFresh) = 2 := by decide +kernel
  have hcompose := whitelists_compose a b .chainedOn {} .firstFresh chainedOn_sourceShaped rfl le_rfl (fun _ _ => rfl)
  rw [hk, hab, hba] at hcompose
  have ha : takes (.ofOptions a) .chainedOn (start {} .firstFresh) = 1 := by decide +kernel
  have hb : takes (.ofOptions b) .chainedOn (start {} .firstFresh) = 1 := by decide +kernel
  dsimp only [merged, ab, ba]
  exact ⟨ha, hb, hcompose (by decide) (by decide) (by decide)⟩

end Annotator

end PureCalls
