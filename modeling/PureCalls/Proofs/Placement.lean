import PureCalls.Proofs.Conservation
import PureCalls.Proofs.Erasure
import PureCalls.Proofs.Relocation

/-! Where the marks are after a run over a program that was read from a text. Expressions that share a position begin
with one another there, so a position has at most one pure call, and the next site around that call moves it away. -/
namespace PureCalls
open PureCalls.Tree Marking

/-- What a parser promises of the places of nodes. An expression starts where the expression starts that it begins
with, and two sites start at the same place only if one of them begins with the other. -/
structure SourceShaped (program : Tree) : Prop where
  aligned : ∀ n ∈ program.reached, ∀ u ∈ n.leading?, u.start = n.start
  shared : program.sites.Pairwise fun n m =>
    n.start = m.start → n.start = .dummy ∨ n.start = .reserved ∨ n.BeginsWith m ∨ m.BeginsWith n
  inText : program.InText

namespace Tree

def isSiteAt (p : Pos) (t : Tree) : Bool :=
  t.isSite && t.start = p

theorem isSiteAt_iff {p : Pos} {t : Tree} : t.isSiteAt p = true ↔ t.isSite = true ∧ t.start = p := by
  simp [isSiteAt]

end Tree

/-- What a walk that takes its fresh positions from `c` on asks of the places of nodes. Sites that begin with one another
start at the same place, sites that share a place begin with one another, and no node starts at a fresh position. -/
structure Placed (c : Pos) (program : Tree) : Prop where
  aligned : ∀ n ∈ program.sites, ∀ m, n.BeginsWith m → m.isSite = true → m.start = n.start
  shared : program.sites.Pairwise fun n m =>
    n.start = m.start → n.start = .dummy ∨ n.start = .reserved ∨ n.BeginsWith m ∨ m.BeginsWith n
  below : ∀ n ∈ program.nodes, n.start < c ∨ n.start = .reserved

namespace Placed
variable {c : Pos} {program : Tree} {before after : List Tree} {n m : Tree}

/-- A site that is left before another one at the same place is one that the other begins with. -/
theorem beginsWith (h : Placed c program) (hsplit : program.reached = before ++ n :: after) (hm : m ∈ before)
    (hms : m.isSite = true) (hns : n.isSite = true) (hstart : m.start = n.start) (hdummy : n.start ≠ .dummy)
    (hreserved : n.start ≠ .reserved) : n.BeginsWith m := by
  have hshared := List.pairwise_filter.mp h.shared
  rw [hsplit] at hshared
  have hpair (m : Tree) (hm : m ∈ before) (hms : m.isSite = true) (hstart : m.start = n.start) :
      m.BeginsWith n ∨ n.BeginsWith m := by
    have hrel := (List.pairwise_append.mp hshared).2.2 m hm n List.mem_cons_self hms hns hstart
    rw [hstart] at hrel
    exact (hrel.resolve_left hdummy).resolve_left hreserved
  refine (hpair m hm hms hstart).resolve_left fun hmn => ?_
  -- Then `n` was left before `m` already, and has to begin with itself.
  obtain ⟨before', rest, rfl⟩ := List.append_of_mem hm
  have hn : n ∈ before' := (leftInside_reached program).beginsWith
    (hsplit.trans (List.append_assoc ..)) hmn (isEntered_of_site hns)
  have hself := hpair n (List.mem_append_left _ hn) hns rfl
  exact not_beginsWith_self n (hself.elim id id)

/-- Of two sites at one place one begins with the other. -/
theorem begins_or (h : Placed c program) (hn : n ∈ program.sites) (hm : m ∈ program.sites) (hne : n ≠ m)
    (hstart : n.start = m.start) (hdummy : n.start ≠ .dummy) (hreserved : n.start ≠ .reserved) :
    n.BeginsWith m ∨ m.BeginsWith n := by
  have hsymm : Std.Symm fun n m : Tree =>
      n.start = m.start → n.start = .dummy ∨ n.start = .reserved ∨ n.BeginsWith m ∨ m.BeginsWith n :=
    ⟨fun n m hnm hstart => hstart ▸ (hnm hstart.symm).imp_right (Or.imp_right Or.symm)⟩
  exact ((h.shared.forall hn hm hne hstart).resolve_left hdummy).resolve_left hreserved

/-- Two pure calls at one place are the same call. -/
theorem eq_of_callsPure {pure : Tree → Bool} (hp : Nominal pure) (h : Placed c program) (hn : n ∈ program.sites)
    (hm : m ∈ program.sites) (hncall : n.callsPure pure = true) (hmcall : m.callsPure pure = true)
    (hstart : n.start = m.start) (hdummy : n.start ≠ .dummy) (hreserved : n.start ≠ .reserved) : n = m := by
  by_contra hne
  exact Callee.not_begins_or hp hncall hmcall (h.begins_or hn hm hne hstart hdummy hreserved)

/-- A walk stops nowhere between two sites at one place if it comes to no third one there. -/
theorem nothing_between (h : Placed c program) (hsplit : program.reached = before ++ n :: after)
    (hns : n.isSite = true) (honly : before.filter (isSiteAt n.start) = [m]) :
    ∀ x, n.BeginsWith x → x.BeginsWith m → x.isSite = false := by
  intro x hx hxm
  by_contra hsite
  rw [Bool.not_eq_false] at hsite
  have hn : n ∈ program.sites := List.mem_filter.mpr ⟨by simp [hsplit], hns⟩
  have hbefore : x ∈ before := (leftInside_reached program).beginsWith hsplit hx (isEntered_of_site hsite)
  have hmem : x ∈ before.filter (isSiteAt n.start) :=
    List.mem_filter.mpr ⟨hbefore, isSiteAt_iff.mpr ⟨hsite, h.aligned n hn x hx hsite⟩⟩
  rw [honly, List.mem_singleton] at hmem
  exact not_beginsWith_self m (hmem ▸ hxm)

end Placed

namespace SourceShaped
variable {program : Tree} {n m : Tree}

private theorem start_of_beginsWith (h : SourceShaped program) (hn : n ∈ program.reached) (hm : n.BeginsWith m) :
    m.start = n.start := by
  obtain ⟨before, after, hsplit⟩ := List.append_of_mem hn
  induction hm with
  | single hm => exact h.aligned n hn _ hm
  | @tail u m hu hm ih =>
    have hreached : u ∈ program.reached := by
      rw [hsplit]
      exact List.mem_append_left _ ((leftInside_reached program).beginsWith hsplit hu (isEntered_of_leads hm))
    exact (h.aligned u hreached _ hm).trans ih

theorem placed (h : SourceShaped program) {c : Pos} (hc : .firstFresh ≤ c) : Placed c program where
  aligned _ hn _ hm _ := h.start_of_beginsWith (List.mem_of_mem_filter hn) hm
  shared := h.shared
  below n hn := (h.inText n hn).imp_left (lt_of_lt_of_le · hc)

end SourceShaped

theorem chained_sourceShaped : SourceShaped .chained where
  aligned := by decide
  shared := by
    have hbegins : chained.call.BeginsWith chained.head := .tail (.single rfl) rfl
    have hsites : chained.sites = [chained.argument, chained.head, chained.call] := rfl
    have hapart : ∀ m ∈ [chained.head, chained.call], chained.argument.start ≠ m.start := by decide
    rw [hsites]
    refine .cons (fun m hm hstart => absurd hstart (hapart m hm)) (.cons (fun m hm _ => ?_) ?_)
    · exact Or.inr (Or.inr (Or.inr (List.mem_singleton.mp hm ▸ hbegins)))
    · exact List.pairwise_singleton _ _
  inText := by decide

namespace Marking
variable {pure : Tree → Bool}

/-- What a run knows when it has left the nodes `before` in the visits `past`: a marked
position belongs to one site alone, which is a pure call, and every call that was due is marked or was moved. -/
structure Tracks (pure : Tree → Bool) (initial : Comments) (c : Pos) (before : List Tree) (past : List Visit)
    (s : Marking) : Prop where
  alone (p : Pos) (hp : p ∈ s.marked) : ∃ m, before.filter (isSiteAt p) = [m] ∧ m.callsPure pure = true
  due (n : Tree) (hn : n ∈ before) (h : n.isDue pure initial = true) :
    n.start ∈ s.marked ∨ n.start ∈ (moves pure past).map Prod.fst
  movesPure (v : Visit) (hv : v ∈ past) : v.MovesPure pure c

namespace Tracks
variable {program : Tree} {initial : Comments} {c : Pos} {before after : List Tree} {past : List Visit} {n : Tree}
  {v : Visit}

/-- In front of a site at a marked position stands the call that was marked there. -/
theorem front?_marked (hp : Nominal pure) (hplaced : Placed c program)
    (hsplit : program.reached = before ++ n :: after) (hv : VisitedBy pure n v)
    (hs : Conserves pure program.reached initial c v.before) (h : Tracks pure initial c before past v.before)
    (hsite : n.isSite = true) (hmarked : v.start ∈ v.before.marked) :
    ∃ hd, v.node.front? = some hd ∧ v.start = hd.start ∧ hd.callsPure pure = true := by
  have hstart : v.start = n.start := (hv.alike hp).start
  rw [hstart] at hmarked ⊢
  obtain ⟨-, hdummy, hreserved⟩ := hs.below _ hmarked
  obtain ⟨m, honly, hm⟩ := h.alone _ hmarked
  obtain ⟨hmem, hat⟩ := List.mem_filter.mp (show m ∈ before.filter (isSiteAt n.start) by simp [honly])
  obtain ⟨hmsite, hmstart⟩ := isSiteAt_iff.mp hat
  have hbegins := hplaced.beginsWith hsplit hmem hmsite hsite hmstart hdummy hreserved
  obtain ⟨s, hfront⟩ := front?_visited hp hv hsite hbegins (hplaced.nothing_between hsplit hsite honly) hm
  obtain ⟨kind, span, fields, hk, rfl⟩ := isCall_of_callsPure hm
  have halike := alike_walk hp (Kind.not_type_of_call hk) span fields s
  exact ⟨_, hfront, (halike.start.trans hmstart).symm, halike.callsPure.trans hm⟩

private theorem site_of_release (hp : Nominal pure) (hv : VisitedBy pure n v) (hchange : v.change pure = .release) :
    n.isSite = true := by
  obtain ⟨hd, hfront, -⟩ := Visit.release_iff.mp hchange
  obtain ⟨f, hf, -⟩ := Visit.front?_eq_some.mp hfront
  have hsite : v.node.isSite = true := opening?_of_site hf
  rwa [isSite, (hv.alike hp).kind] at hsite

private theorem alone_kept (hp : Nominal pure) (hplaced : Placed c program)
    (hsplit : program.reached = before ++ n :: after) (hv : VisitedBy pure n v)
    (hs : Conserves pure program.reached initial c v.before) (h : Tracks pure initial c before past v.before)
    {p : Pos} (hmarked : p ∈ v.before.marked) (hkeep : v.change pure = .release → p ≠ v.start) :
    ∃ m, (before ++ [n]).filter (isSiteAt p) = [m] ∧ m.callsPure pure = true := by
  have hat : isSiteAt p n = false := by
    by_contra hat
    rw [Bool.not_eq_false, isSiteAt_iff, ← (hv.alike hp).start] at hat
    obtain ⟨hsite, rfl⟩ := hat
    obtain ⟨hd, hfront, hstart, -⟩ := h.front?_marked hp hplaced hsplit hv hs hsite hmarked
    exact hkeep (Visit.release_iff.mpr ⟨hd, hfront, hstart, hmarked⟩) rfl
  obtain ⟨m, honly, hm⟩ := h.alone p hmarked
  exact ⟨m, by simp [List.filter_append, honly, hat], hm⟩

private theorem alone_new (hp : Nominal pure) (hplaced : Placed c program)
    (hsplit : program.reached = before ++ n :: after) (hv : VisitedBy pure n v)
    (hs : Conserves pure program.reached initial c v.before) (hdue : v.node.isDue pure v.before.comments = true) :
    (before ++ [n]).filter (isSiteAt v.start) = [n] ∧ n.callsPure pure = true := by
  obtain ⟨hcall, haccepts⟩ := Bool.and_eq_true_iff.mp hdue
  obtain ⟨-, hdummy, hreserved, -⟩ := hs.not_marked haccepts
  have halike := hv.alike hp
  have hstart : v.node.start = n.start := halike.start
  have hn : n.callsPure pure = true := halike.callsPure ▸ hcall
  have hsite := isSite_of_callsPure hn
  refine ⟨?_, hn⟩
  have hbefore : before.filter (isSiteAt v.start) = [] := by
    refine List.filter_eq_nil_iff.mpr fun m hm hat => ?_
    obtain ⟨hmsite, hmstart⟩ := isSiteAt_iff.mp hat
    rw [hstart] at hdummy hreserved
    have hbegins := hplaced.beginsWith hsplit hm hmsite hsite (hmstart.trans hstart) hdummy hreserved
    exact Callee.not_beginsWith_site hp hn hmsite hbegins
  have hat : isSiteAt v.start n = true := isSiteAt_iff.mpr ⟨hsite, hstart.symm⟩
  simp [List.filter_append, hbefore, hat]

/-- A due call is marked when it is left, since nothing has changed at its place. -/
private theorem due_new (hp : Nominal pure) (htext : n.start < c ∨ n.start = .reserved) (hv : VisitedBy pure n v)
    (hs : Conserves pure program.reached initial c v.before) (hdue : n.isDue pure initial = true) :
    n.start ∈ (v.after pure).marked := by
  obtain ⟨hcall, haccepts⟩ := Bool.and_eq_true_iff.mp hdue
  have halike := hv.alike hp
  have hstart : v.start = n.start := halike.start
  have hv : v.node.callsPure pure = true := halike.callsPure.trans hcall
  have hc : n.start < c := htext.resolve_right (Comments.accepts_iff.mp haccepts).2.1
  rw [Visit.after_eq hp]
  by_cases hmarked : n.start ∈ v.before.marked
  · cases hchange : v.change pure with
    | keep => exact hmarked
    | mark => exact List.mem_insert_of_mem hmarked
    | release =>
      rw [Visit.callsPure_of_release hp hchange] at hv
      cases hv
  · have hget := hs.others _ hmarked fun hf => absurd hf.1 (not_le.mpr hc)
    have haccepts' : v.before.comments.accepts v.start = true := by
      rw [hstart, Comments.accepts, Comments.isMarked_congr hget]
      exact haccepts
    have hmark : v.change pure = .mark := (Visit.change_eq_mark hp).mpr (Bool.and_eq_true_iff.mpr ⟨hv, haccepts'⟩)
    rw [hmark, hstart]
    exact List.mem_insert_self

/-- Leaving one more node keeps what is known. -/
theorem leave (hp : Nominal pure) (hplaced : Placed c program) (hsplit : program.reached = before ++ n :: after)
    (hv : VisitedBy pure n v) (hs : Conserves pure program.reached initial c v.before)
    (h : Tracks pure initial c before past v.before) :
    Tracks pure initial c (before ++ [n]) (past ++ [v]) (v.after pure) := by
  have hstart : v.start = n.start := (hv.alike hp).start
  have hn : n ∈ program.reached := by simp [hsplit]
  refine ⟨fun p hmarked => ?_, fun m hm hdue => ?_, fun w hw => ?_⟩
  · rw [Visit.after_eq hp] at hmarked
    cases hchange : v.change pure with
    | keep =>
      rw [hchange] at hmarked
      exact h.alone_kept hp hplaced hsplit hv hs hmarked fun hr => by simp [hchange] at hr
    | mark =>
      rw [hchange, apply, List.mem_insert_iff] at hmarked
      rcases hmarked with rfl | hmarked
      · exact ⟨n, alone_new hp hplaced hsplit hv hs ((Visit.change_eq_mark hp).mp hchange)⟩
      · exact h.alone_kept hp hplaced hsplit hv hs hmarked fun hr => by simp [hchange] at hr
    | release =>
      rw [hchange, apply, Marking.release, List.mem_filter] at hmarked
      exact h.alone_kept hp hplaced hsplit hv hs hmarked.1 fun _ => by simpa using hmarked.2
  · rw [moves_append, List.map_append, List.mem_append, ← or_assoc]
    rcases List.mem_append.mp hm with hm | hm
    · rcases h.due m hm hdue with hmarked | hmoved
      · rw [Visit.after_eq hp]
        cases hchange : v.change pure with
        | keep => exact Or.inl (Or.inl hmarked)
        | mark => exact Or.inl (Or.inl (List.mem_insert_of_mem hmarked))
        | release =>
          by_cases he : m.start = v.start
          · exact Or.inr (by simp [moves, hchange, he])
          · exact Or.inl (Or.inl (List.mem_filter.mpr ⟨hmarked, by simpa using he⟩))
      · exact Or.inl (Or.inr hmoved)
    · rw [List.mem_singleton] at hm
      subst hm
      exact Or.inl (Or.inl (due_new hp (hplaced.below m (reached_subset program hn)) hv hs hdue))
  · rcases List.mem_append.mp hw with hw | hw
    · exact h.movesPure w hw
    · rw [List.mem_singleton] at hw
      subst hw
      intro hchange
      obtain ⟨_, _, _, hmarked⟩ := Visit.release_iff.mp hchange
      obtain ⟨hd, hfront, -, hpure⟩ :=
        h.front?_marked hp hplaced hsplit hv hs (site_of_release hp hv hchange) hmarked
      refine ⟨(hs.below _ hmarked).1, hs.fresh, fun hd' hfront' => ?_⟩
      rw [hfront] at hfront'
      exact Option.some.inj hfront' ▸ hpure

end Tracks

/-- A walk tracks all nodes of its program to the end. -/
theorem Linked.tracks (hp : Nominal pure) {program : Tree} {initial : Comments} {c : Pos}
    (hplaced : Placed c program) {s s' : Marking} {before ns : List Tree} {past vs : List Visit}
    (h : Linked pure s vs s') (hsplit : program.reached = before ++ ns) (hns : List.Forall₂ (VisitedBy pure) ns vs)
    (hvs : ∀ v ∈ vs, Conserves pure program.reached initial c v.before) (hs : Tracks pure initial c before past s) :
    Tracks pure initial c program.reached (past ++ vs) s' := by
  induction hns generalizing s before past with
  | nil =>
    rw [hsplit, List.append_nil, List.append_nil]
    exact (show s = s' from h) ▸ hs
  | @cons n v ns vs hv _ ih =>
    obtain ⟨rfl, h⟩ := h
    have hstep := hs.leave hp hplaced hsplit hv (hvs v List.mem_cons_self)
    rw [List.append_cons] at hsplit ⊢
    exact ih h hsplit (fun w hw => hvs w (List.mem_cons_of_mem _ hw)) hstep

end Marking
end PureCalls
