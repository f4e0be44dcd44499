import PureCalls.Proofs.Sequence
import PureCalls.Proofs.Translation

/-! How far the fresh positions reach. They are counted in 32 bits, and no run asks how many are left. So they stay apart
from one another and from all programs exactly as long as there are numbers in front of the reserved one. -/
namespace PureCalls
open PureCalls.Tree Marking

namespace Annotator

/-- The fresh positions that a run over programs gives to calls that it wraps, in their order. -/
def handedOut (w : Whitelist) : List Tree → Annotator → List Pos
  | [], _ => []
  | program :: rest, a => taken (verdict w program) (visits w program a) ++ handedOut w rest (visit w program a).2

private theorem visit_handed (w : Whitelist) (program : Tree) (comments : Comments) (c : Pos) (i : Nat) :
    taken (verdict w program) (visits w program (start comments (handed c i))) =
        (List.range' i (takes w program (start comments (handed c i)))).map (handed c) ∧
      ∃ store, (visit w program (start comments (handed c i))).2 =
        start store (handed c (i + takes w program (start comments (handed c i)))) := by
  obtain ⟨s, hlinked, hrun⟩ := visit_linked w program comments (handed c i)
  obtain ⟨htaken, hfresh⟩ := hlinked.taken_handed (verdict_nominal w program) rfl
  refine ⟨htaken, s.comments, ?_⟩
  rw [hrun, hfresh]
  rfl

/-- Over all programs the positions are handed out one after the other. -/
theorem handedOut_eq (w : Whitelist) (programs : List Tree) (comments : Comments) (c : Pos) (i : Nat) :
    handedOut w programs (start comments (handed c i)) =
      (List.range' i (takesAll w programs (start comments (handed c i)))).map (handed c) := by
  induction programs generalizing comments i with
  | nil => rfl
  | cons program rest ih =>
    obtain ⟨htaken, store, hrun⟩ := visit_handed w program comments c i
    rw [handedOut, takesAll, htaken, hrun, ih, ← List.map_append, List.range'_append_1]

/-- Whether positions given to wrapped calls are positions of nothing else: no two are the same, all stand somewhere in
a text and are not reserved, and no node of a program starts at one of them. -/
structure Apart (programs : List Tree) (positions : List Pos) : Prop where
  nodup : positions.Nodup
  not_dummy : Pos.dummy ∉ positions
  not_reserved : Pos.reserved ∉ positions
  free : ∀ t ∈ programs, ∀ n ∈ t.nodes, n.start ∉ positions

private theorem handedOut_firstFresh (w : Whitelist) (programs : List Tree) (comments : Comments) :
    handedOut w programs (start comments .firstFresh) =
      (List.range' 0 (takesAll w programs (start comments .firstFresh))).map (handed .firstFresh) :=
  handedOut_eq w programs comments .firstFresh 0

private theorem handed_of_lt {i : Nat} (h : i ≤ 65535) : handed .firstFresh i = .firstFresh + i := by
  apply handed_eq
  change 4294901759 + i < 4294967296
  omega

/-- What is handed out up to the last number in front of the reserved one is apart from everything. -/
theorem apart_of_le {programs : List Tree} (htext : ∀ t ∈ programs, t.InText) {k : Nat} (hk : k ≤ 65535) :
    Apart programs ((List.range' 0 k).map (handed .firstFresh)) := by
  have hplaced : ∀ p ∈ (List.range' 0 k).map (handed .firstFresh), .firstFresh ≤ p ∧ p < .reserved := by
    intro p hp
    obtain ⟨i, hi, rfl⟩ := List.mem_map.mp hp
    have hlt := (List.mem_range'_1.mp hi).2
    rw [handed_of_lt (by omega)]
    change 4294901759 ≤ 4294901759 + i ∧ 4294901759 + i < 4294967294
    omega
  refine ⟨?_, fun h => ?_, fun h => ?_, fun t ht n hn h => ?_⟩
  · apply List.Nodup.map_on _ List.nodup_range'
    intro i hi j hj h
    have hlt := (List.mem_range'_1.mp hi).2
    have hlt' := (List.mem_range'_1.mp hj).2
    rw [handed_of_lt (by omega), handed_of_lt (by omega)] at h
    exact Nat.add_left_cancel h
  · exact absurd (hplaced _ h).1 (by decide)
  · exact absurd (hplaced _ h).2 (by decide)
  · obtain ⟨hle, hlt⟩ := hplaced _ h
    rcases htext t ht n hn with hbelow | hreserved
    · exact absurd hle (Nat.not_le.mpr hbelow)
    · exact absurd hreserved (Nat.ne_of_lt hlt)

/-- The number behind the last one of those is reserved. -/
theorem reserved_handed {k : Nat} (hk : 65535 < k) : Pos.reserved ∈ (List.range' 0 k).map (handed .firstFresh) := by
  refine List.mem_map.mpr ⟨65535, List.mem_range'_1.mpr ⟨Nat.zero_le _, by omega⟩, ?_⟩
  rw [handed_of_lt (Nat.le_refl _)]
  rfl

/-- The fresh positions of a run over programs are apart from one another and from everything else exactly if the run
wraps no more than 65535 calls. The next call would get the reserved position. -/
theorem fresh_positions_apart_iff (w : Whitelist) {programs : List Tree} (comments : Comments)
    (htext : ∀ t ∈ programs, t.InText) :
    Apart programs (handedOut w programs (start comments .firstFresh)) ↔
      takesAll w programs (start comments .firstFresh) ≤ 65535 := by
  rw [handedOut_firstFresh]
  constructor
  · intro h
    by_contra hk
    exact h.not_reserved (reserved_handed (Nat.lt_of_not_le hk))
  · exact apart_of_le htext

/-- The two calls of `f` get positions of their own. -/
theorem fresh_positions_apart_chained :
    (∀ t ∈ [Tree.chained, Tree.chained], t.InText) ∧
      Apart [.chained, .chained] (handedOut .calledF [.chained, .chained] (start {} .firstFresh)) ∧
      handedOut .calledF [.chained, .chained] (start {} .firstFresh) = [.firstFresh, .firstFresh + 1] := by
  have htext : ∀ t ∈ [Tree.chained, Tree.chained], t.InText := by decide +kernel
  refine ⟨htext, (fresh_positions_apart_iff .calledF {} htext).mpr (by decide +kernel), by decide +kernel⟩

end Annotator

namespace Tree.Crowded

def name (text : String) (context : Int) (p : Pos) : Tree :=
  .node .identifier (some ⟨p, p + 1⟩) [(.ctxt, .number context 0), (.value, .text text)]

def callOf (callee : Tree) (p stop : Pos) : Tree :=
  .node .call (some ⟨p, stop⟩) [(.callee, callee), (.arguments, .list []), (.typeArguments, .null)]

/-- The call `x()`. -/
def unlisted : Tree :=
  callOf (name "x" 1 1) 1 4

/-- The statement `x();`. -/
def stray : Tree :=
  .node .expressionStatement (some ⟨1, 5⟩) [(.expression, unlisted)]

/-- The declaration `import{f}from"m";`. -/
def declaration : Tree :=
  .node .importDeclaration (some ⟨5, 22⟩) [
    (.specifiers, .list [.node .importNamed (some ⟨12, 13⟩)
      [(.localName, name "f" 2 12), (.imported, .null), (.isTypeOnly, .bool false)]]),
    (.source, .node .string (some ⟨18, 21⟩) [(.value, .text "m"), (.raw, .text "\"m\"")]),
    (.withClause, .null), (.typeOnly, .bool false), (.phase, .null)]

/-- Where a statement `f()();` stands that has `i` others in front of it. -/
def place (i : Nat) : Pos :=
  22 + 6 * i

def head (p : Pos) : Tree :=
  callOf (name "f" 2 p) p (p + 3)

/-- The statement `f()();`. -/
def item (p : Pos) : Tree :=
  .node .expressionStatement (some ⟨p, p + 6⟩) [(.expression, callOf (head p) p (p + 5))]

end Crowded

/-- The program `x();import{f}from"m";` with the statement `f()();` behind it as often as given. -/
def crowded (n : Nat) : Tree :=
  .node .moduleProgram (some ⟨1, Crowded.place n⟩) [
    (.body, .list (Crowded.stray :: Crowded.declaration :: (List.range' 0 n).map fun i => Crowded.item (Crowded.place i))),
    (.interpreter, .null)]

namespace Crowded

private theorem ofModule_crowded (n : Nat) : Imports.ofModule (crowded n) = [(⟨"f", 2⟩, ⟨some "m", some "f"⟩)] := by
  have hitems (is : List Nat) (imports : Imports) :
      (is.map fun i => item (place i)).foldl Imports.addItem imports = imports := by
    induction is with
    | nil => rfl
    | cons i is ih => exact ih
  exact hitems _ _

private theorem verdict_name (n : Nat) (p : Pos) : Annotator.verdict .calledF (crowded n) (name "f" 2 p) = true := by
  rw [Annotator.verdict, ofModule_crowded]
  rfl

private theorem verdict_stray (n : Nat) (p : Pos) : Annotator.verdict .calledF (crowded n) (name "x" 1 p) = false := by
  rw [Annotator.verdict, ofModule_crowded]
  rfl

variable {pure : Tree → Bool} {s : Marking} {p stop : Pos}

/-- The visit of a call without arguments. -/
def calling (callee : Tree) (p stop : Pos) (before : Marking) : Visit :=
  ⟨.call, some ⟨p, stop⟩, [(.callee, callee), (.arguments, .list []), (.typeArguments, .null)], before⟩

/-- A walk over a call without arguments visits what its callee has, and the call. -/
theorem visits_callOf {callee : Tree} {s' : Marking} (h : walk pure callee s = (callee, s')) :
    visits pure (callOf callee p stop) s = visits pure callee s ++ [calling callee p stop s'] := by
  have hfields : walkFields pure [(.callee, callee), (.arguments, .list []), (.typeArguments, .null)] s =
      ([(.callee, callee), (.arguments, .list []), (.typeArguments, .null)], s') := by
    rw [walkFields, h]
    rfl
  rw [callOf, visits, if_neg (by decide), visitOf, hfields, visitsOfFields]
  exact congrArg (· ++ _) (List.append_nil _)

private theorem walk_callOf (hp : Nominal pure) {callee : Tree} {s' : Marking} (h : walk pure callee s = (callee, s')) :
    walk pure (callOf callee p stop) s = (.node .call (some ⟨p, stop⟩) ((calling callee p stop s').fieldsAfter pure),
      s'.apply p ((calling callee p stop s').change pure)) := by
  have hfields : walkFields pure [(.callee, callee), (.arguments, .list []), (.typeArguments, .null)] s =
      ([(.callee, callee), (.arguments, .list []), (.typeArguments, .null)], s') := by
    rw [walkFields, h]
    rfl
  rw [callOf, walk_node hp rfl, visitOf, hfields, Visit.after_eq hp]
  rfl

private theorem walk_name (text : String) (context : Int) : walk pure (name text context p) s = (name text context p, s) := by
  apply walk_of_no_sites
  intro n hn
  obtain rfl : n = name text context p := List.mem_singleton.mp hn
  rfl

/-- A call of a pure name gets a mark if it can get one. -/
theorem change_head (hf : pure (name "f" 2 p) = true) (hs : s.comments.accepts p = true) :
    (calling (name "f" 2 p) p stop s).change pure = .mark := by
  have hopens : (calling (name "f" 2 p) p stop s).opens = false := rfl
  have hdue : (calling (name "f" 2 p) p stop s).node.isDue pure s.comments = true := by
    rw [isDue, Bool.and_eq_true]
    exact ⟨hf, hs⟩
  rw [Visit.change, hopens, if_neg (by decide)]
  exact if_pos hdue

private theorem walk_head (hp : Nominal pure) (hf : pure (name "f" 2 p) = true) (hs : s.comments.accepts p = true) :
    walk pure (head p) s = (head p, s.apply p .mark) := by
  have hchange : (calling (name "f" 2 p) p (p + 3) s).change pure = .mark := change_head hf hs
  rw [head, walk_callOf hp (walk_name "f" 2), hchange, Visit.fieldsAfter, hchange]
  rfl

/-- A call of what a marked call at the same place returns wraps that call. -/
theorem change_outer (hm : p ∈ s.marked) : (calling (head p) p stop s).change pure = .release :=
  Visit.release_iff.mpr ⟨head p, rfl, rfl, hm⟩

private theorem taken_eq_nil {vs : List Visit} (h : ∀ v ∈ vs, v.kind.isSite = false) : taken pure vs = [] := by
  have hkeeps : ∀ v ∈ vs, ¬ v.change pure = .release := by
    intro v hv hchange
    obtain ⟨hd, hfront, -⟩ := Visit.release_iff.mp hchange
    obtain ⟨f, hf, -⟩ := Option.bind_eq_some_iff.mp hfront
    exact absurd (Translation.isSite_of_opening hf) (by simp [h v hv])
  rw [taken, List.map_eq_nil_iff, List.filter_eq_nil_iff]
  simpa using hkeeps

private theorem taken_head (hf : pure (name "f" 2 p) = true) (hs : s.comments.accepts p = true) :
    taken pure (visits pure (head p) s) = [] := by
  have hname : taken pure (visits pure (name "f" 2 p) s) = [] :=
    taken_eq_nil (by simp +decide [name, visits, visitsOfFields, visitOf])
  have hcall : taken pure [calling (name "f" 2 p) p (p + 3) s] = [] := by simp [taken, change_head hf hs]
  rw [head, visits_callOf (walk_name "f" 2), taken_append, hname, hcall]
  rfl

/-- A walk over `f()();` marks the first call and then wraps it. -/
theorem walk_item (hp : Nominal pure) (hf : pure (name "f" 2 p) = true) (hs : s.comments.accepts p = true) :
    (walk pure (item p) s).2 = (s.apply p .mark).apply p .release ∧
      taken pure (visits pure (item p) s) = [s.fresh] := by
  have hmarked : p ∈ (s.apply p .mark).marked := List.mem_insert_self
  have houter : (calling (head p) p (p + 5) (s.apply p .mark)).change pure = .release := change_outer hmarked
  have hwalk := walk_head hp hf hs
  constructor
  · rw [item, walk, if_neg (by decide), walkFields, walk_callOf hp hwalk, houter]
    rfl
  · have hstatement (v : Visit) (hv : v.kind = .expressionStatement) : taken pure [v] = [] :=
      taken_eq_nil (by simp +decide [hv])
    have hcall : taken pure [calling (head p) p (p + 5) (s.apply p .mark)] = [s.fresh] := by
      rw [taken, List.filter_cons_of_pos (by simpa using houter)]
      rfl
    rw [item, visits, if_neg (by decide), taken_append, hstatement _ rfl, visitsOfFields, visitsOfFields,
      List.append_nil, List.append_nil, visits_callOf hwalk, taken_append, taken_head hf hs, hcall]
    rfl

/-- Whether a walk over the first `i` statements has moved a mark to each position handed out, and left nothing else. -/
structure Ready (i : Nat) (s : Marking) : Prop where
  marked : s.marked = []
  fresh : s.fresh = handed .firstFresh i
  others {q : Pos} (h : ∀ j < i, q ≠ handed .firstFresh j) : s.comments.get q = []
  moved {j : Nat} (h : j < i) : s.comments.get (handed .firstFresh j) = [Comment.marker]

private theorem place_lt {i : Nat} (hi : i ≤ 700000000) : place i < .firstFresh := by
  change 22 + 6 * i < 4294901759
  omega

private theorem place_ne_handed {i j : Nat} (hi : i ≤ 700000000) (hj : j ≤ i) : place i ≠ handed .firstFresh j := by
  rcases Nat.lt_or_ge j 65537 with hlt | hge
  · have hfresh : handed .firstFresh j = .firstFresh + j := handed_eq (Nat.add_lt_add_left hlt 4294901759)
    rw [hfresh]
    exact Nat.ne_of_lt (Nat.lt_add_right j (place_lt hi))
  · -- The numbers have begun again from 0, but slower than the statements move on.
    change 22 + 6 * i ≠ (4294901759 + j) % 4294967296
    have hagain : (4294901759 + j) % 4294967296 = j - 65537 := by omega
    omega

private theorem handed_ne_handed {i j : Nat} (hi : i ≤ 700000000) (hj : j < i) :
    handed .firstFresh i ≠ handed .firstFresh j := by
  change (4294901759 + i) % 4294967296 ≠ (4294901759 + j) % 4294967296
  omega

private theorem Ready.accepts {i : Nat} (h : Ready i s) (hi : i ≤ 700000000) : s.comments.accepts (place i) = true := by
  have hnone : s.comments.get (place i) = [] := h.others fun j hj => place_ne_handed hi hj.le
  refine Comments.accepts_iff.mpr ⟨?_, ?_, ?_⟩
  · exact Nat.ne_of_gt (Nat.lt_add_right _ (by decide))
  · exact Nat.ne_of_lt ((place_lt hi).trans (by decide))
  · rw [Comments.isMarked, hnone]
    rfl

/-- A mark that is given and released at once ends up at the fresh position, with nothing else changed. -/
theorem get_mark_release (hp : p ≠ s.fresh) (q : Pos) : ((s.apply p .mark).apply p .release).comments.get q =
    if q = s.fresh then s.comments.get q ++ [Comment.marker] else s.comments.get q := by
  have hget (r : Pos) : (s.apply p .mark).comments.get r =
      if r = p then s.comments.get p ++ [Comment.marker] else s.comments.get r := Comments.get_append ..
  have hmarked : (s.apply p .mark).comments.get p = s.comments.get p ++ [Comment.marker] := by rw [hget, if_pos rfl]
  change ((s.apply p .mark).comments.moveMarker p s.fresh).get q = _
  rw [Comments.get_moveMarker hmarked hp, hget, if_neg hp.symm, hget]
  by_cases hq : q = p
  · rw [if_pos hq, if_neg (hq ▸ hp), hq]
  · rw [if_neg hq, if_neg hq]
    by_cases hf : q = s.fresh
    · rw [if_pos hf, if_pos hf, hf]
    · rw [if_neg hf, if_neg hf]

private theorem Ready.next {i : Nat} (h : Ready i s) (hi : i < 700000000) :
    Ready (i + 1) ((s.apply (place i) .mark).apply (place i) .release) := by
  have hplace : place i ≠ s.fresh := h.fresh ▸ place_ne_handed hi.le (Nat.le_refl i)
  have hget := get_mark_release hplace
  refine ⟨?_, ?_, fun {q} hq => ?_, fun {j} hj => ?_⟩
  · simp [apply, release, h.marked]
  · change s.fresh.next = _
    rw [h.fresh, next_handed]
  · rw [hget, if_neg (h.fresh ▸ hq i (Nat.lt_succ_self i))]
    exact h.others fun j hj => hq j (Nat.lt_succ_of_lt hj)
  · rw [hget]
    rcases Nat.lt_succ_iff_lt_or_eq.mp hj with hlt | rfl
    · rw [if_neg (h.fresh ▸ (handed_ne_handed hi.le hlt).symm)]
      exact h.moved hlt
    · rw [if_pos h.fresh.symm, h.others fun k hk => handed_ne_handed hi.le hk]
      rfl

/-- A walk over statements moves one mark for each of them. -/
theorem walk_items (hp : Nominal pure) (hf : ∀ p, pure (name "f" 2 p) = true) (n : Nat) {i : Nat} (h : Ready i s)
    (hn : i + n ≤ 700000000) :
    Ready (i + n) (walkItems pure ((List.range' i n).map fun i => item (place i)) s).2 ∧
      (taken pure (visitsOfItems pure ((List.range' i n).map fun i => item (place i)) s)).length = n := by
  induction n generalizing i s with
  | zero => exact ⟨h, rfl⟩
  | succ n ih =>
    obtain ⟨hwalk, htaken⟩ := walk_item hp (hf (place i)) (h.accepts (by omega))
    have hnext : Ready (i + 1) (walk pure (item (place i)) s).2 := hwalk ▸ h.next (by omega)
    obtain ⟨hready, hlength⟩ := ih hnext (by omega)
    rw [List.range'_succ, List.map_cons, walkItems, visitsOfItems, taken_append, htaken, List.length_append, hlength]
    rw [Nat.add_assoc, Nat.add_comm 1] at hready
    exact ⟨hready, Nat.add_comm 1 n⟩

private theorem walk_stray (hp : Nominal pure) (hx : pure (name "x" 1 1) = false) :
    (walk pure stray s).2 = s ∧ taken pure (visits pure stray s) = [] := by
  have hopens : (calling (name "x" 1 1) 1 4 s).opens = false := rfl
  have hdue : (calling (name "x" 1 1) 1 4 s).node.isDue pure s.comments = false := by
    rw [isDue, Bool.and_eq_false_iff]
    exact Or.inl hx
  have hkeep : (calling (name "x" 1 1) 1 4 s).change pure = .keep := by
    rw [Visit.change, hopens, if_neg (by decide)]
    exact if_neg (Bool.eq_false_iff.mp hdue)
  constructor
  · rw [stray, unlisted, walk, if_neg (by decide), walkFields, walk_callOf hp (walk_name "x" 1), hkeep]
    rfl
  · have hname : taken pure (visits pure (name "x" 1 1) s) = [] :=
      taken_eq_nil (by simp +decide [name, visits, visitsOfFields, visitOf])
    have hstatement (v : Visit) (hv : v.kind = .expressionStatement) : taken pure [v] = [] :=
      taken_eq_nil (by simp +decide [hv])
    have hcall : taken pure [calling (name "x" 1 1) 1 4 s] = [] := by simp [taken, hkeep]
    rw [stray, unlisted, visits, if_neg (by decide), taken_append, hstatement _ rfl, visitsOfFields, visitsOfFields,
      List.append_nil, List.append_nil, visits_callOf (walk_name "x" 1), taken_append, hname, hcall]
    rfl

private theorem walk_declaration : (walk pure declaration s).2 = s ∧ taken pure (visits pure declaration s) = [] := by
  constructor
  · rw [walk_of_no_sites declaration (by decide +kernel)]
  · exact taken_eq_nil (by simp +decide [declaration, name, visits, visitsOfFields, visitsOfItems, visitOf])

/-- A walk over the program is one over its statements. -/
theorem walk_crowded (hp : Nominal pure) (hx : pure (name "x" 1 1) = false) (n : Nat) :
    let items := (List.range' 0 n).map fun i => item (place i)
    (walk pure (crowded n) s).2 = (walkItems pure items s).2 ∧
      taken pure (visits pure (crowded n) s) = taken pure (visitsOfItems pure items s) := by
  intro items
  obtain ⟨hstray, htaken⟩ := walk_stray (s := s) hp hx
  obtain ⟨hdeclaration, htaken'⟩ : (walk pure declaration s).2 = s ∧ _ := walk_declaration
  constructor
  · have hbody : (walkItems pure (stray :: declaration :: items) s).2 = (walkItems pure items s).2 := by
      change (walkItems pure items (walk pure declaration (walk pure stray s).2).2).2 = _
      rw [hstray, hdeclaration]
    rw [crowded, walk, if_neg (by decide)]
    exact hbody
  · have hbody : taken pure (visitsOfItems pure (stray :: declaration :: items) s) =
        taken pure (visitsOfItems pure items s) := by
      rw [visitsOfItems, visitsOfItems, taken_append, taken_append, htaken, hstray, htaken', hdeclaration]
      rfl
    have hmodule (v : Visit) (hv : v.kind = .moduleProgram) : taken pure [v] = [] :=
      taken_eq_nil (by simp +decide [hv])
    rw [crowded, visits, if_neg (by decide), taken_append, hmodule _ rfl, List.append_nil]
    change taken pure (visitsOfItems pure (stray :: declaration :: items) s ++ []) = _
    rw [List.append_nil, hbody]

end Crowded
end Tree

namespace Annotator
open PureCalls.Tree.Crowded

/-- A run over the program wraps the first call of every statement, and moves a mark to every position handed out. -/
theorem run_crowded {n : Nat} (hn : n ≤ 700000000) :
    takes .calledF (crowded n) (start {} .firstFresh) = n ∧
      ∀ j < n, (visit .calledF (crowded n) (start {} .firstFresh)).2.marking.comments.get (handed .firstFresh j) =
        [Comment.marker] := by
  have hwalks : walks .calledF (crowded n) = true := by
    rw [walks, ofModule_crowded]
    rfl
  have hp := verdict_nominal .calledF (crowded n)
  have hbefore : Ready 0 ⟨{}, [], .firstFresh⟩ :=
    ⟨rfl, rfl, fun _ => rfl, fun hj => absurd hj (Nat.not_lt_zero _)⟩
  obtain ⟨hready, hlength⟩ := walk_items hp (verdict_name n) n hbefore (by rwa [Nat.zero_add])
  obtain ⟨hwalk, htaken⟩ := walk_crowded (s := ⟨{}, [], .firstFresh⟩) hp (verdict_stray n 1) n
  rw [Nat.zero_add] at hready
  constructor
  · rw [takes, visits_of_walks hwalks, htaken, hlength]
  · intro j hj
    rw [visit_of_walks hwalks]
    change (walk _ (crowded n) ⟨{}, [], .firstFresh⟩).2.comments.get _ = _
    rw [hwalk]
    exact hready.moved hj

private theorem mem_nodesOfItems {m : Tree} {items : List Tree} (h : m ∈ nodesOfItems items) : ∃ t ∈ items, m ∈ t.nodes := by
  induction items with
  | nil => cases h
  | cons t rest ih =>
    rcases List.mem_append.mp h with h | h
    · exact ⟨t, List.mem_cons_self, h⟩
    · obtain ⟨u, hu, hm⟩ := ih h
      exact ⟨u, List.mem_cons_of_mem _ hu, hm⟩

private theorem start_of_mem_item {p : Pos} {m : Tree} (h : m ∈ (item p).nodes) : m.start = p := by
  have hnodes : (item p).nodes = [name "f" 2 p, head p, callOf (head p) p (p + 5), item p] := rfl
  simp only [hnodes, List.mem_cons, List.not_mem_nil, or_false] at h
  rcases h with rfl | rfl | rfl | rfl <;> rfl

private theorem crowded_inText {n : Nat} (hn : n ≤ 700000000) : (crowded n).InText := by
  have hfront : ∀ t ∈ [stray, declaration], t.InText := by decide +kernel
  intro m hm
  rcases List.mem_append.mp hm with hm | hm
  · obtain ⟨t, ht, hm⟩ := mem_nodesOfItems ((List.mem_append.mp hm).resolve_right (List.not_mem_nil))
    rcases List.mem_append.mp (show t ∈ [stray, declaration] ++ _ from ht) with ht | ht
    · exact hfront t ht m hm
    · obtain ⟨i, hi, rfl⟩ := List.mem_map.mp ht
      have hlt := (List.mem_range'_1.mp hi).2
      rw [start_of_mem_item hm]
      exact Or.inl (place_lt (by omega))
  · obtain rfl := List.mem_singleton.mp hm
    exact Or.inl (show 1 < 4294901759 by decide)

private theorem unlisted_mem (n : Nat) : unlisted ∈ (crowded n).nodes := by
  have hmem : unlisted ∈ stray.nodes := by simp [stray, nodes, nodesOfFields, unlisted, callOf]
  exact List.mem_append_left _ (List.mem_append_left _ (List.mem_append_left _ hmem))

private theorem unlisted_not_pure (n : Nat) : unlisted.callsPure (verdict .calledF (crowded n)) = false :=
  verdict_stray n 1

/-- A program can wrap more calls than there are numbers. The marks of later ones then move to the reserved position, to
none at all, and to the front of a call that is not pure. -/
theorem crowded_not_apart :
    (crowded 65539).InText ∧
      ¬ Apart [crowded 65539] (handedOut .calledF [crowded 65539] (start {} .firstFresh)) ∧
      unlisted ∈ (crowded 65539).nodes ∧ unlisted.callsPure (verdict .calledF (crowded 65539)) = false ∧
      (visit .calledF (crowded 65539) (start {} .firstFresh)).2.marking.comments.get unlisted.start =
        [Comment.marker] := by
  have hn : 65539 ≤ 700000000 := by omega
  obtain ⟨htakes, hmoved⟩ := run_crowded hn
  have hstart : unlisted.start = handed .firstFresh 65538 := rfl
  refine ⟨crowded_inText hn, fun h => ?_, unlisted_mem _, unlisted_not_pure _, ?_⟩
  · apply h.not_reserved
    rw [handedOut_firstFresh, takesAll, takesAll, htakes]
    exact reserved_handed (by omega)
  · rw [hstart]
    exact hmoved 65538 (by omega)

end Annotator
end PureCalls
