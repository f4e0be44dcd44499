import PureCalls.Proofs.Placement

/-! Each pure call that can get a mark has exactly one mark more after a run, at a place that it shares with no other
site, and no other site is marked or moved. -/
namespace PureCalls
open PureCalls.Tree Marking
namespace Tree

def fields : Tree → List (Field × Tree)
  | .node _ _ fields => fields
  | _ => []

mutual

/-- The sites of a tree without added parentheses are those with them, apart from their places. -/
theorem sites_erase (fresh : Pos → Bool) : ∀ t : Tree, (erase fresh t).sites.map (fun n => (n.kind?, n.fields)) =
    t.sites.map fun n => (n.kind?, eraseFields fresh n.fields)
  | .list items => sites_eraseItems fresh items
  | .node kind span fields => by
    have hfields := sites_eraseFields fresh fields
    rw [erase]
    cases hu : unwrapped? fresh (.node kind span (eraseFields fresh fields)) with
    | none =>
      rw [Option.getD_none]
      cases hk : kind.isType with
      | true => simp [sites, reached, hk]
      | false =>
        rw [sites_node hk, sites_node hk, List.map_append, List.map_append, hfields]
        congr 1
        split <;> rfl
    | some u =>
      obtain ⟨rfl, inner, place, inside, heq, hinner, -, rfl⟩ := unwrapped?_eq_some hu
      have hkind : inner.isType = false ∧ inner.isSite = true := by rcases hinner with rfl | rfl <;> decide
      have hparen : Kind.isType .paren = false ∧ Kind.isSite .paren = false := by decide
      rw [heq, sitesOfFields_cons, sites_node hkind.1, if_pos hkind.2] at hfields
      rw [Option.getD_some, sites_node hkind.1, if_pos hkind.2, sites_node hparen.1, hparen.2,
        if_neg (by decide), List.append_nil, ← hfields]
      simp [sitesOfFields, reachedOfFields, kind?, Tree.fields]
  | .null | .bool _ | .number _ _ | .text _ | .range _ => rfl

private theorem sites_eraseItems (fresh : Pos → Bool) : ∀ items : List Tree,
    (sitesOfItems (eraseItems fresh items)).map (fun n => (n.kind?, n.fields)) =
      (sitesOfItems items).map fun n => (n.kind?, eraseFields fresh n.fields)
  | [] => rfl
  | t :: rest => by
    rw [eraseItems, sitesOfItems_cons, sitesOfItems_cons, List.map_append, List.map_append, sites_erase fresh t,
      sites_eraseItems fresh rest]

private theorem sites_eraseFields (fresh : Pos → Bool) : ∀ fields : List (Field × Tree),
    (sitesOfFields (eraseFields fresh fields)).map (fun n => (n.kind?, n.fields)) =
      (sitesOfFields fields).map fun n => (n.kind?, eraseFields fresh n.fields)
  | [] => rfl
  | (f, t) :: rest => by
    rw [eraseFields, sitesOfFields_cons, sitesOfFields_cons, List.map_append, List.map_append, sites_erase fresh t,
      sites_eraseFields fresh rest]

end

end Tree

namespace Marking
variable {pure : Tree → Bool}

/-- What is known of the sites `ms` of a program and of the marking `s` when the visits `vs` of a run are done. -/
structure Finished (pure : Tree → Bool) (program : Tree) (initial : Comments) (c k : Pos) (vs : List Visit)
    (ms : List Tree) (s : Marking) : Prop where
  placed : Placed c program
  bound : c + k ≤ .reserved
  visited : List.Forall₂ (VisitedBy pure) program.reached vs
  conserves : Conserves pure program.reached initial c s
  conserved : ∀ v ∈ vs, Conserves pure program.reached initial c v.before
  tracks : Tracks pure initial c program.reached vs s
  relocated : Relocated pure program.sites ms (moves pure vs)
  taken : taken pure vs = List.range' c k
  fresh : s.fresh = c + k

namespace Finished
variable {program : Tree} {initial : Comments} {c k : Pos} {vs : List Visit} {ms : List Tree} {s : Marking}
  {n m : Tree}

theorem follows (h : Finished pure program initial c k vs ms s) (hz : (n, m) ∈ program.sites.zip ms) :
    Follows pure n m :=
  List.forall₂_zip h.relocated.follows hz

private theorem place (h : Finished pure program initial c k vs ms s) (hz : (n, m) ∈ program.sites.zip ms) :
    n.start < c ∨ n.start = .reserved := by
  have hn : n ∈ program.reached := List.mem_of_mem_filter (List.of_mem_zip hz).1
  exact h.placed.below n (reached_subset program hn)

/-- Only due calls are moved, each to one of the fresh positions that were taken. -/
theorem moved (h : Finished pure program initial c k vs ms s) (hz : (n, m) ∈ program.sites.zip ms)
    (hne : n.start ≠ m.start) : n.isDue pure initial = true ∧ c ≤ m.start ∧ m.start < c + k := by
  have hmem := h.relocated.perm.subset (mem_shifts.mpr ⟨hne, n, m, hz, rfl, rfl⟩)
  have htaken : m.start ∈ List.range' c k := by
    rw [← h.taken, ← map_snd_moves]
    exact List.mem_map_of_mem hmem
  obtain ⟨v, hv, hchange, hstart, -⟩ := mem_moves.mp hmem
  obtain ⟨_, _, _, hmarked⟩ := Visit.release_iff.mp hchange
  have hs := h.conserved v hv
  obtain ⟨-, hdummy, hreserved⟩ := hs.below _ hmarked
  have hunmarked := hs.unmarked _ hmarked
  rw [hstart] at hdummy hreserved hunmarked
  have hcall := (h.follows hz).start.resolve_left hne.symm
  have haccepts := Comments.accepts_iff.mpr ⟨hdummy, hreserved, hunmarked⟩
  exact ⟨Bool.and_eq_true_iff.mpr ⟨hcall, haccepts⟩, List.mem_range'_1.mp htaken⟩

private theorem pairwise_zip {R : Tree → Tree → Prop} (h : Finished pure program initial c k vs ms s)
    (hr : program.sites.Pairwise R) : (program.sites.zip ms).Pairwise fun a b => R a.1 b.1 := by
  rw [← List.map_fst_zip h.relocated.follows.length_eq.le] at hr
  exact List.pairwise_map.mp hr

/-- Two due calls do not start at the same place. -/
private theorem due_apart (hp : Nominal pure) (h : Finished pure program initial c k vs ms s) :
    program.sites.Pairwise fun n m =>
      n.isDue pure initial = true → m.isDue pure initial = true → n.start ≠ m.start := by
  refine h.placed.shared.imp fun {n m} hshared hn hm hstart => ?_
  obtain ⟨hncall, haccepts⟩ := Bool.and_eq_true_iff.mp hn
  obtain ⟨hmcall, -⟩ := Bool.and_eq_true_iff.mp hm
  obtain ⟨hdummy, hreserved, -⟩ := Comments.accepts_iff.mp haccepts
  rcases hshared hstart with h0 | hr | hbegins
  · exact hdummy h0
  · exact hreserved hr
  · exact Callee.not_begins_or hp hncall hmcall hbegins

/-- A marked position has one site. -/
private theorem marked_apart (h : Finished pure program initial c k vs ms s) :
    program.sites.Pairwise fun n m => n.start ∈ s.marked → n.start ≠ m.start := by
  refine List.pairwise_iff_forall_sublist.mpr fun {n m} hsub hmarked hstart => ?_
  obtain ⟨u, honly, -⟩ := h.tracks.alone _ hmarked
  have hsites : program.sites.filter (fun u => u.start = n.start) = [u] := by
    rw [← honly, sites, List.filter_filter]
    exact List.filter_congr fun u _ => by rw [isSiteAt, Bool.and_comm]
  have hpair := hsub.filter fun u => u.start = n.start
  rw [hsites] at hpair
  simpa [hstart] using hpair.length_le

/-- A due call that is in its place is marked there. -/
theorem marked (hp : Nominal pure) (h : Finished pure program initial c k vs ms s)
    (hz : (n, m) ∈ program.sites.zip ms) (hdue : n.isDue pure initial = true) (hstart : n.start = m.start) :
    n.start ∈ s.marked := by
  have hn : n ∈ program.reached := List.mem_of_mem_filter (List.of_mem_zip hz).1
  refine (h.tracks.due n hn hdue).resolve_right fun hmoved => ?_
  -- Another due call would have been moved away from the same place.
  obtain ⟨⟨p, q⟩, hmem, hp'⟩ := List.mem_map.mp hmoved
  obtain ⟨hne, n', m', hz', hn', hm'⟩ := mem_shifts.mp (h.relocated.perm.symm.subset hmem)
  have hdue' := (h.moved hz' (by rwa [hn', hm'])).1
  have hsymm : Std.Symm fun a b : Tree × Tree =>
      a.1.isDue pure initial = true → b.1.isDue pure initial = true → a.1.start ≠ b.1.start :=
    ⟨fun a b hab hb ha => (hab ha hb).symm⟩
  have hpair : (n, m) ≠ (n', m') := by
    intro heq
    obtain ⟨rfl, rfl⟩ := Prod.mk.inj heq
    exact hne (hn'.symm.trans (hstart.trans hm'))
  exact (h.pairwise_zip (h.due_apart hp)).forall hz hz' hpair hdue hdue' (hp'.symm.trans hn'.symm)

/-- A site that was not moved does not stand at a fresh position. -/
private theorem not_fresh (h : Finished pure program initial c k vs ms s) (hz : (n, m) ∈ program.sites.zip ms)
    (hstart : n.start = m.start) : ¬ (c ≤ m.start ∧ m.start < c + k) := by
  rw [← hstart]
  rcases h.place hz with hlt | hreserved
  · exact fun hf => absurd hf.1 (not_le.mpr hlt)
  · exact fun hf => absurd (hreserved ▸ hf.2) (not_lt.mpr h.bound)

/-- A due call has one mark more than its place had. -/
theorem get_due (hp : Nominal pure) (h : Finished pure program initial c k vs ms s)
    (hz : (n, m) ∈ program.sites.zip ms) (hdue : n.isDue pure initial = true) :
    s.comments.get m.start = initial.get m.start ++ [Comment.marker] := by
  by_cases hstart : n.start = m.start
  · exact h.conserves.marked _ (hstart ▸ h.marked hp hz hdue hstart)
  · obtain ⟨-, hc, hk⟩ := h.moved hz hstart
    exact h.conserves.moved _ hc (h.fresh ▸ hk)

/-- Any other site is where it was, with the comments that were there. -/
theorem get_rest (h : Finished pure program initial c k vs ms s) (hz : (n, m) ∈ program.sites.zip ms)
    (hdue : n.isDue pure initial = false) :
    m.start = n.start ∧ s.comments.get m.start = initial.get m.start := by
  have hstart : m.start = n.start := by
    by_contra hne
    rw [(h.moved hz (Ne.symm hne)).1] at hdue
    cases hdue
  refine ⟨hstart, h.conserves.others _ (fun hmarked => ?_) (h.fresh ▸ h.not_fresh hz hstart.symm)⟩
  rw [hstart] at hmarked
  obtain ⟨u, honly, hu⟩ := h.tracks.alone _ hmarked
  obtain ⟨hn, hsite⟩ := List.mem_filter.mp (List.of_mem_zip hz).1
  have hmem : n ∈ program.reached.filter (isSiteAt n.start) :=
    List.mem_filter.mpr ⟨hn, isSiteAt_iff.mpr ⟨hsite, rfl⟩⟩
  rw [honly, List.mem_singleton] at hmem
  obtain ⟨-, hdummy, hreserved⟩ := h.conserves.below _ hmarked
  have haccepts := Comments.accepts_iff.mpr ⟨hdummy, hreserved, h.conserves.unmarked _ hmarked⟩
  have hcall : n.callsPure pure = true := hmem ▸ hu
  rw [isDue, hcall, haccepts] at hdue
  cases hdue

/-- No two sites are moved to the same place. -/
private theorem moved_apart (h : Finished pure program initial c k vs ms s) :
    (program.sites.zip ms).Pairwise fun a b =>
      a.1.start ≠ a.2.start → b.1.start ≠ b.2.start → a.2.start ≠ b.2.start := by
  have hnodup : ((shifts program.sites ms).map Prod.snd).Nodup := by
    rw [(h.relocated.perm.map Prod.snd).nodup_iff, map_snd_moves, h.taken]
    exact List.nodup_range'
  rw [shifts, List.zip_map] at hnodup
  have hpairs := List.pairwise_map.mp (List.pairwise_filter.mp (List.pairwise_map.mp hnodup))
  exact hpairs.imp fun hab ha hb => hab (by simpa using ha) (by simpa using hb)

/-- No other site stands where a due call stands now. -/
theorem apart (hp : Nominal pure) (h : Finished pure program initial c k vs ms s) :
    (program.sites.zip ms).Pairwise fun a b =>
      a.1.isDue pure initial = true ∨ b.1.isDue pure initial = true → a.2.start ≠ b.2.start := by
  refine (h.moved_apart.and (h.pairwise_zip h.marked_apart)).imp_of_mem fun {a b} ha hb hab hdue heq => ?_
  obtain ⟨hmoved, hmarked⟩ := hab
  by_cases hsame : a.1.start = a.2.start
  · by_cases hsame' : b.1.start = b.2.start
    · have hstart : a.1.start = b.1.start := hsame.trans (heq.trans hsame'.symm)
      refine hmarked ?_ hstart
      rcases hdue with hdue | hdue
      · exact h.marked hp ha hdue hsame
      · exact hstart ▸ h.marked hp hb hdue hsame'
    · exact h.not_fresh ha hsame (heq ▸ (h.moved hb hsame').2)
  · by_cases hsame' : b.1.start = b.2.start
    · exact h.not_fresh hb hsame' (heq ▸ (h.moved ha hsame).2)
    · exact hmoved hsame hsame' heq

end Finished
end Marking

namespace Annotator
open Marking

theorem run_finished_of_placed {w : Whitelist} {program : Tree} (comments : Comments) {c : Pos}
    (hw : walks w program = true) (hplaced : Placed c program)
    (hk : c + takes w program (start comments c) ≤ .reserved) :
    ∃ s, (visit w program (start comments c)).2 = start s.comments s.fresh ∧
      Finished (verdict w program) program comments c (takes w program (start comments c))
        (visits w program (start comments c)) (visit w program (start comments c)).1.sites s := by
  have hp := verdict_nominal w program
  obtain ⟨s, hlinked, hrun, hfresh, hs, hvs⟩ := run_conserves_below w comments hplaced.below hk
  have htaken := (taken_visits w program comments (hk.trans (by decide))).1
  have hvisits := visits_of_walks hw comments c
  have hstart : Tracks (verdict w program) comments c [] [] ⟨comments, [], c⟩ := ⟨by simp, by simp, by simp⟩
  have hreached := visits_reached (verdict w program) program ⟨comments, [], c⟩
  rw [← hvisits] at hreached
  have htracks := hlinked.tracks hp hplaced rfl hreached hvs hstart
  have hrelocated := relocated_walk hp program ⟨comments, [], c⟩ (hvisits ▸ htracks.movesPure)
  rw [← hvisits] at hrelocated
  refine ⟨s, hrun, hplaced, hk, hreached, hs, hvs, htracks, ?_, htaken, hfresh⟩
  rw [visit_of_walks hw]
  exact hrelocated

theorem run_finished {w : Whitelist} {program : Tree} (comments : Comments) {c : Pos} (hw : walks w program = true)
    (hshape : SourceShaped program) (hc : .firstFresh ≤ c) (hk : c + takes w program (start comments c) ≤ .reserved) :
    ∃ s, (visit w program (start comments c)).2 = start s.comments s.fresh ∧
      Finished (verdict w program) program comments c (takes w program (start comments c))
        (visits w program (start comments c)) (visit w program (start comments c)).1.sites s :=
  run_finished_of_placed comments hw (hshape.placed hc) hk

end Annotator

namespace Tree

/-- How a run leaves a site `n` as `m`: it puts parentheses inside, and it adds one mark if the site is a due call. It
moves no other site, and a due call at most to one of the fresh positions. -/
structure Annotated (pure : Tree → Bool) (fresh : Pos → Bool) (initial store : Comments) (n m : Tree) : Prop where
  kind : m.kind? = n.kind?
  fields : eraseFields fresh m.fields = n.fields
  place : m.start = n.start ∨ fresh m.start = true
  due (h : n.isDue pure initial = true) : store.get m.start = initial.get m.start ++ [Comment.marker]
  rest (h : n.isDue pure initial = false) : m.start = n.start ∧ store.get m.start = initial.get m.start

end Tree

namespace Annotator
open Marking

private theorem zip_self {l : List Tree} {n m : Tree} (h : (n, m) ∈ l.zip l) : m = n :=
  (List.forall₂_zip (List.forall₂_same.mpr fun x _ => (rfl : x = x)) h).symm

/-- After a run over a source-shaped module every due call has one mark more than its place had, at its own place or
at a fresh one, and no other site stands there. All other sites stand where they stood, with the comments they had. -/
theorem marks_exact (w : Whitelist) (program : Tree) (comments : Comments) (c : Pos) :
    let k := takes w program (start comments c)
    let run := visit w program (start comments c)
    SourceShaped program → program.isKind .moduleProgram = true → .firstFresh ≤ c → c + k ≤ .reserved →
      List.Forall₂ (Annotated (verdict w program) (Pos.within c k) comments run.2.marking.comments)
        program.sites run.1.sites ∧
      (program.sites.zip run.1.sites).Pairwise fun a b =>
        a.1.isDue (verdict w program) comments = true ∨ b.1.isDue (verdict w program) comments = true →
          a.2.start ≠ b.2.start := by
  intro k run hshape hmodule hc hk
  have hp := verdict_nominal w program
  have herase : run.1.erase (Pos.within c k) = program := erase_visit (hk.trans (by decide)) (hshape.inText.free hc hk)
  have hmap : List.Forall₂ (· = ·) (program.sites.map fun n => (n.kind?, n.fields))
      (run.1.sites.map fun m => (m.kind?, eraseFields (Pos.within c k) m.fields)) := by
    rw [← sites_erase, herase]
    exact List.forall₂_refl _
  have hsites := List.forall₂_map_right_iff.mp (List.forall₂_map_left_iff.mp hmap)
  have hsame {n m : Tree} (hz : (n, m) ∈ program.sites.zip run.1.sites) :
      m.kind? = n.kind? ∧ eraseFields (Pos.within c k) m.fields = n.fields :=
    ⟨(congrArg Prod.fst (List.forall₂_zip hsites hz)).symm, (congrArg Prod.snd (List.forall₂_zip hsites hz)).symm⟩
  rw [List.forall₂_iff_zip, and_assoc]
  refine ⟨hsites.length_eq, ?_⟩
  cases hw : walks w program with
  | false =>
    have hrun : run = (program, start comments c) := visit_of_not_walks hw comments c
    have hdue (n : Tree) : n.isDue (verdict w program) comments = false := by
      cases hcallee : n.callee? <;> simp [isDue, callsPure, hcallee, verdict_of_not_walks hw hmodule]
    refine ⟨fun {n m} hz => ?_, List.pairwise_of_forall fun a b => by simp [hdue]⟩
    have hm : m = n := by
      rw [hrun] at hz
      exact zip_self hz
    refine ⟨(hsame hz).1, (hsame hz).2, Or.inl (hm ▸ rfl), fun h => ?_, fun _ => ⟨hm ▸ rfl, by rw [hrun]; rfl⟩⟩
    rw [hdue] at h
    cases h
  | true =>
    obtain ⟨s, hrun, hfinished⟩ := run_finished comments hw hshape hc hk
    have hstore : run.2.marking.comments = s.comments := congrArg (fun a => a.marking.comments) hrun
    rw [hstore]
    refine ⟨fun {n m} hz => ?_, hfinished.apart hp⟩
    refine ⟨(hsame hz).1, (hsame hz).2, ?_, hfinished.get_due hp hz, hfinished.get_rest hz⟩
    by_cases hstart : n.start = m.start
    · exact Or.inl hstart.symm
    · exact Or.inr (decide_eq_true (hfinished.moved hz hstart).2)

theorem marks_exact_chained :
    let run := visit .calledF .chained (start {} .firstFresh)
    List.Forall₂ (Annotated (verdict .calledF .chained) (Pos.within .firstFresh 1) {} run.2.marking.comments)
      [chained.argument, chained.head, chained.call] run.1.sites := by
  have hk : takes .calledF .chained (start {} .firstFresh) = 1 := by decide
  have hmarks := (marks_exact .calledF .chained {} .firstFresh chained_sourceShaped rfl le_rfl (by decide)).1
  rwa [hk] at hmarks

end Annotator
end PureCalls
