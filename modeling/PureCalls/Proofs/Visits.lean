import PureCalls.Proofs.Verdict

/-! The visits of a walk in their order, each with the marking it finds and what it does to it. A walk does nothing
but its visits. -/
namespace PureCalls
open PureCalls.Tree

/-- Whether something that starts at a position can get a mark. -/
def Comments.accepts (store : Comments) (p : Pos) : Bool :=
  !(p = .dummy || p = .reserved || store.isMarked p)

theorem Comments.accepts_iff {store : Comments} {p : Pos} :
    store.accepts p = true ↔ p ≠ .dummy ∧ p ≠ .reserved ∧ store.isMarked p = false := by
  simp [accepts, and_assoc]

/-- Whether a tree is a pure call that can get a mark. -/
def Tree.isDue (pure : Tree → Bool) (store : Comments) (t : Tree) : Bool :=
  t.callsPure pure && store.accepts t.start

namespace Marking

/-- What a visit does to the marks: nothing, one more at the node, or one less there. -/
inductive Change where
  | keep
  | mark
  | release
  deriving DecidableEq, Repr

def apply (s : Marking) (p : Pos) : Change → Marking
  | .keep => s
  | .mark => { s with comments := s.comments.append p [Comment.marker], marked := s.marked.insert p }
  | .release => s.release p

private theorem mark_eq (s : Marking) (p : Pos) : s.mark p = if s.comments.accepts p then s.apply p .mark else s := by
  cases h : p = .dummy || p = .reserved || s.comments.isMarked p <;> simp [mark, Comments.accepts, apply, h]

end Marking

/-- A node whose children are done, and the marking at that moment. -/
structure Visit where
  kind : Kind
  span : Option Span
  fields : List (Field × Tree)
  before : Marking

namespace Visit
open Marking

def node (v : Visit) : Tree :=
  .node v.kind v.span v.fields

def start (v : Visit) : Pos :=
  v.node.start

def after (pure : Tree → Bool) (v : Visit) : Marking :=
  (visit pure v.kind v.span v.fields v.before).2

/-- Whether the call in front starts with the node and was marked by the walk. -/
def opens (v : Visit) : Bool :=
  v.node.front?.any fun h => v.start = h.start && v.before.marked.contains v.start

def change (pure : Tree → Bool) (v : Visit) : Change :=
  if v.opens then .release
  else if v.node.isDue pure v.before.comments then .mark
  else .keep

/-- The fields of the node after a visit. -/
def fieldsAfter (pure : Tree → Bool) (v : Visit) : List (Field × Tree) :=
  match v.change pure, opening? v.kind v.fields with
  | .release, some f => wrapAtOf v.before.fresh f v.fields
  | _, _ => v.fields

/-- The call that a visit puts into parentheses, with them. -/
def wrapped? (pure : Tree → Bool) (v : Visit) : Option Tree :=
  if v.change pure = .release then v.node.front?.map (wrapAt v.before.fresh) else none

variable {pure : Tree → Bool}

theorem opens_iff {v : Visit} :
    v.opens = true ↔ ∃ h, v.node.front? = some h ∧ v.start = h.start ∧ v.start ∈ v.before.marked := by
  unfold opens
  cases v.node.front? <;> simp

theorem change_eq_release {v : Visit} : v.change pure = .release ↔ v.opens = true := by
  unfold change
  split
  next h => simp [h]
  next h => split <;> simp [h]

theorem isDue_node (pure : Tree → Bool) (v : Visit) :
    v.node.isDue pure v.before.comments = (v.node.callsPure pure && v.before.comments.accepts v.start) :=
  rfl

/-- A visit releases a mark exactly where the call in front of its node is marked and starts with it. -/
theorem release_iff {v : Visit} :
    v.change pure = .release ↔ ∃ h, v.node.front? = some h ∧ v.start = h.start ∧ v.start ∈ v.before.marked :=
  change_eq_release.trans opens_iff

theorem front?_eq_some {v : Visit} {h : Tree} :
    v.node.front? = some h ↔ ∃ f, opening? v.kind v.fields = some f ∧ headOf? f v.fields = some h :=
  Option.bind_eq_some_iff

private theorem wrapHeadOf_opening {v : Visit} {f : Field} (hf : opening? v.kind v.fields = some f) :
    wrapHeadOf v.start f v.fields v.before =
      if v.opens then (wrapAtOf v.before.fresh f v.fields, v.before.release v.start) else (v.fields, v.before) := by
  simp only [wrapHeadOf_eq, opens, node, front?, hf, Option.bind_some]

private theorem opens_eq_false {v : Visit} (hf : opening? v.kind v.fields = none) : v.opens = false := by
  simp [opens, node, front?, hf]

private theorem callee_not_pure (hp : Nominal pure) {v : Visit} (hf : opening? v.kind v.fields = some .callee)
    (h : v.opens = true) : pure (lookup .callee v.fields) = false := by
  by_contra hpure
  have hhead : headOf? .callee v.fields = none := by
    rw [headOf?_eq]
    exact Callee.head?_eq_none (hp.isSome (by simpa using hpure))
  simp [opens, node, front?, hf, hhead] at h

private theorem visit_call (hp : Nominal pure) {v : Visit} (hk : v.kind = .call) :
    visit pure v.kind v.span v.fields v.before =
      (.node v.kind v.span (v.fieldsAfter pure), v.before.apply v.start (v.change pure)) := by
  by_cases he : hasExpressionCallee v.fields = true
  · have hf : opening? v.kind v.fields = some .callee := by simp [opening?, hk, he]
    have hc : v.node.callsPure pure = pure (lookup .callee v.fields) := by
      simp [callsPure, callee?, node, hk, he]
    have hv : visit pure v.kind v.span v.fields v.before =
        (.node v.kind v.span (wrapHeadOf v.start .callee v.fields v.before).1,
          if pure (lookup .callee (wrapHeadOf v.start .callee v.fields v.before).1)
          then (wrapHeadOf v.start .callee v.fields v.before).2.mark v.start
          else (wrapHeadOf v.start .callee v.fields v.before).2) := by
      simp only [visit, hk, he, if_true]
      simp only [start, node, hk]
    rw [hv, wrapHeadOf_opening hf]
    by_cases ho : v.opens = true
    · have hn := callee_not_pure hp hf ho
      simp [ho, change, fieldsAfter, hf, apply, lookup_wrapAtOf, hp.congr (Callee.ofTree_wrapAt _ _), hn]
    · cases ha : v.before.comments.accepts v.start <;> cases hpure : pure (lookup .callee v.fields) <;>
        simp [ho, change, fieldsAfter, isDue_node, hc, ha, hpure, apply, mark_eq]
  · have hf : opening? v.kind v.fields = none := by simp [opening?, hk, he]
    have hc : v.node.callsPure pure = false := by simp +decide [callsPure, callee?, node, hk, he]
    simp [visit, change, fieldsAfter, opens_eq_false hf, isDue_node, hc, apply, hk, he]

private theorem visit_new {v : Visit} (hk : v.kind = .newExpression) :
    visit pure v.kind v.span v.fields v.before =
      (.node v.kind v.span (v.fieldsAfter pure), v.before.apply v.start (v.change pure)) := by
  have hf : opening? v.kind v.fields = none := by simp +decide [opening?, hk]
  have hc : v.node.callsPure pure = pure (lookup .callee v.fields) := by
    simp [callsPure, callee?, node, hk]
  have hv : visit pure v.kind v.span v.fields v.before = (.node v.kind v.span v.fields,
      if pure (lookup .callee v.fields) then v.before.mark v.start else v.before) := by
    simp +decide only [visit, start, node, hk, if_true, if_false]
  cases ha : v.before.comments.accepts v.start <;> cases hpure : pure (lookup .callee v.fields) <;>
    simp [hv, change, fieldsAfter, opens_eq_false hf, isDue_node, hc, ha, hpure, apply, mark_eq]

private theorem visit_front {v : Visit} {f : Field} (hf : opening? v.kind v.fields = some f)
    (hc : v.node.callee? = none)
    (hv : visit pure v.kind v.span v.fields v.before =
      (.node v.kind v.span (wrapHeadOf v.start f v.fields v.before).1,
        (wrapHeadOf v.start f v.fields v.before).2)) :
    visit pure v.kind v.span v.fields v.before =
      (.node v.kind v.span (v.fieldsAfter pure), v.before.apply v.start (v.change pure)) := by
  rw [hv, wrapHeadOf_opening hf]
  cases ho : v.opens <;> simp [ho, change, fieldsAfter, hf, apply, isDue_node, callsPure, hc]

/-- A visit keeps its node, except that it may wrap the call in front, and does what its change says. -/
theorem visit_eq (hp : Nominal pure) (v : Visit) :
    visit pure v.kind v.span v.fields v.before =
      (.node v.kind v.span (v.fieldsAfter pure), v.before.apply v.start (v.change pure)) := by
  by_cases hcall : v.kind = .call
  · exact visit_call hp hcall
  by_cases hnew : v.kind = .newExpression
  · exact visit_new hnew
  have hc : v.node.callee? = none := by simp [callee?, node, hcall, hnew]
  by_cases hchain : v.kind = .optionalChain
  · apply visit_front (f := .base) (by simp +decide [opening?, hchain]) hc
    simp +decide only [visit, start, node, wrapHead, operand?, hchain, if_true, if_false]
  by_cases htag : v.kind = .tagged
  · apply visit_front (f := .tag) (by simp +decide [opening?, htag]) hc
    simp +decide only [visit, start, node, htag, if_true, if_false]
  · have hf : opening? v.kind v.fields = none := by simp [opening?, hcall, hchain, htag]
    simp [visit, change, fieldsAfter, opens_eq_false hf, isDue_node, callsPure, hc, apply, hcall, hnew, hchain, htag]

/-- A node that begins with a marked call is no pure call itself. -/
theorem callsPure_of_release (hp : Nominal pure) {v : Visit} (h : v.change pure = .release) :
    v.node.callsPure pure = false := by
  have hopens := change_eq_release.mp h
  obtain ⟨_, hfront, -⟩ := opens_iff.mp hopens
  by_cases hcall : v.kind = .call
  · by_cases he : hasExpressionCallee v.fields = true
    · have hf : opening? v.kind v.fields = some .callee := by simp [opening?, hcall, he]
      simpa [callsPure, callee?, node, hcall, he] using callee_not_pure hp hf hopens
    · simp [node, front?, opening?, hcall, he] at hfront
  · by_cases hnew : v.kind = .newExpression
    · simp +decide [node, front?, opening?, hnew] at hfront
    · simp [callsPure, callee?, node, hcall, hnew]

theorem change_eq_mark (hp : Nominal pure) {v : Visit} :
    v.change pure = .mark ↔ v.node.isDue pure v.before.comments = true := by
  cases ho : v.opens with
  | true =>
    have hrelease : v.change pure = .release := change_eq_release.mpr ho
    simp [hrelease, isDue_node, callsPure_of_release hp hrelease]
  | false => simp [change, ho]

theorem after_eq (hp : Nominal pure) (v : Visit) : v.after pure = v.before.apply v.start (v.change pure) := by
  rw [after, visit_eq hp]

end Visit

namespace Marking
variable {pure : Tree → Bool}

/-- The visit of a node, once a walk that came with a marking is done with the fields. -/
def visitOf (pure : Tree → Bool) (kind : Kind) (span : Option Span) (fields : List (Field × Tree))
    (s : Marking) : Visit :=
  ⟨kind, span, (walkFields pure fields s).1, (walkFields pure fields s).2⟩

theorem walk_node (hp : Nominal pure) {kind : Kind} (h : kind.isType = false) (span : Option Span)
    (fields : List (Field × Tree)) (s : Marking) :
    walk pure (.node kind span fields) s =
      (.node kind span ((visitOf pure kind span fields s).fieldsAfter pure),
        (visitOf pure kind span fields s).after pure) := by
  rw [Visit.after, Visit.visit_eq hp, walk, h, if_neg (by decide)]
  exact Visit.visit_eq hp (visitOf pure kind span fields s)

theorem walk_type {kind : Kind} (h : kind.isType = true) (span : Option Span) (fields : List (Field × Tree))
    (s : Marking) : walk pure (.node kind span fields) s = (.node kind span fields, s) := by
  rw [walk, h, if_pos rfl]

mutual

/-- The visits of a walk over a tree. -/
def visits (pure : Tree → Bool) : Tree → Marking → List Visit
  | .list items, s => visitsOfItems pure items s
  | .node kind span fields, s =>
    if kind.isType then []
    else visitsOfFields pure fields s ++ [visitOf pure kind span fields s]
  | _, _ => []

def visitsOfItems (pure : Tree → Bool) : List Tree → Marking → List Visit
  | [], _ => []
  | t :: rest, s => visits pure t s ++ visitsOfItems pure rest (walk pure t s).2

def visitsOfFields (pure : Tree → Bool) : List (Field × Tree) → Marking → List Visit
  | [], _ => []
  | (_, t) :: rest, s => visits pure t s ++ visitsOfFields pure rest (walk pure t s).2

end

/-- Visits that lead from one marking to another, each on what the one before has left. -/
def Linked (pure : Tree → Bool) : Marking → List Visit → Marking → Prop
  | s, [], s' => s = s'
  | s, v :: vs, s' => v.before = s ∧ Linked pure (v.after pure) vs s'

private theorem Linked.append {s s' s'' : Marking} {vs ws : List Visit} (h : Linked pure s vs s')
    (h' : Linked pure s' ws s'') : Linked pure s (vs ++ ws) s'' := by
  induction vs generalizing s with
  | nil => exact h ▸ h'
  | cons v vs ih => exact ⟨h.1, ih h.2⟩

/-- What every visit keeps holds at each visit and at the end. -/
theorem Linked.invariant {inv : Marking → Prop} {s s' : Marking} {vs : List Visit} (h : Linked pure s vs s')
    (hs : inv s) (step : ∀ v ∈ vs, inv v.before → inv (v.after pure)) :
    inv s' ∧ ∀ v ∈ vs, inv v.before := by
  induction vs generalizing s with
  | nil => exact ⟨h ▸ hs, by simp⟩
  | cons v vs ih =>
    obtain ⟨rfl, h⟩ := h
    obtain ⟨hend, hvs⟩ := ih h (step v List.mem_cons_self hs) fun w hw => step w (List.mem_cons_of_mem _ hw)
    exact ⟨hend, List.forall_mem_cons.mpr ⟨hs, hvs⟩⟩

mutual

/-- A walk changes the marking through its visits only. -/
theorem walk_linked : ∀ (t : Tree) (s : Marking), Linked pure s (visits pure t s) (walk pure t s).2
  | .list items, s => walkItems_linked items s
  | .node kind span fields, s => by
    rw [visits, walk]
    split
    · rfl
    · exact (walkFields_linked fields s).append ⟨rfl, rfl⟩
  | .null, s | .bool _, s | .number _ _, s | .text _, s | .range _, s => rfl

private theorem walkItems_linked : ∀ (items : List Tree) (s : Marking),
    Linked pure s (visitsOfItems pure items s) (walkItems pure items s).2
  | [], _ => rfl
  | t :: rest, s => (walk_linked t s).append (walkItems_linked rest _)

private theorem walkFields_linked : ∀ (fields : List (Field × Tree)) (s : Marking),
    Linked pure s (visitsOfFields pure fields s) (walkFields pure fields s).2
  | [], _ => rfl
  | (_, t) :: rest, s => (walk_linked t s).append (walkFields_linked rest _)

end

/-- The fresh positions that visits take, in their order. -/
def taken (pure : Tree → Bool) (vs : List Visit) : List Pos :=
  (vs.filter fun v => v.change pure = .release).map fun v => v.before.fresh

theorem taken_append (vs ws : List Visit) : taken pure (vs ++ ws) = taken pure vs ++ taken pure ws := by
  simp [taken]

private theorem fresh_apply (s : Marking) (p : Pos) (c : Change) :
    (s.apply p c).fresh = if c = .release then s.fresh.next else s.fresh := by
  cases c <;> rfl

/-- The position handed out behind `i` others, by a run that takes its first one at `c`. -/
def handed (c : Pos) (i : Nat) : Pos :=
  (c + i) % 4294967296

theorem next_handed (c : Pos) (i : Nat) : (handed c i).next = handed c (i + 1) := by
  rw [Pos.next, handed, handed, Nat.mod_add_mod, Nat.add_assoc]

theorem handed_eq {c : Pos} {i : Nat} (h : c + i < 4294967296) : handed c i = c + i :=
  Nat.mod_eq_of_lt h

/-- Fresh positions are handed out one after the other, and from 0 on again once the numbers of 32 bits run out. -/
theorem Linked.taken_handed (hp : Nominal pure) {s s' : Marking} {vs : List Visit} (h : Linked pure s vs s') {c : Pos}
    {i : Nat} (hs : s.fresh = handed c i) :
    taken pure vs = (List.range' i (taken pure vs).length).map (handed c) ∧
      s'.fresh = handed c (i + (taken pure vs).length) := by
  induction vs generalizing s i with
  | nil => exact ⟨rfl, h ▸ hs⟩
  | cons v vs ih =>
    obtain ⟨rfl, h⟩ := h
    have hfresh := fresh_apply v.before v.start (v.change pure)
    rw [← Visit.after_eq hp, hs, next_handed] at hfresh
    by_cases hr : v.change pure = .release
    · have htaken : taken pure (v :: vs) = handed c i :: taken pure vs := by simp [taken, hr, hs]
      obtain ⟨hrange, hend⟩ := ih h (hfresh.trans (if_pos hr))
      rw [htaken, List.length_cons, List.range'_succ, List.map_cons, ← hrange]
      refine ⟨rfl, ?_⟩
      rw [hend, Nat.add_assoc, Nat.add_comm 1]
    · have htaken : taken pure (v :: vs) = taken pure vs := by simp [taken, hr]
      rw [htaken]
      exact ih h (hfresh.trans (if_neg hr))

/-- As long as the numbers of 32 bits last, fresh positions only go up. -/
theorem Linked.taken_eq (hp : Nominal pure) {s s' : Marking} {vs : List Visit} (h : Linked pure s vs s') {c : Nat}
    (hc : c < 4294967296 → s.fresh = c) (hk : c + (taken pure vs).length ≤ 4294967296) :
    taken pure vs = List.range' c (taken pure vs).length ∧
      (c + (taken pure vs).length < 4294967296 → s'.fresh = c + (taken pure vs).length) := by
  rcases Nat.lt_or_ge c 4294967296 with hlt | hge
  · have hs : s.fresh = handed c 0 := (hc hlt).trans (handed_eq (i := 0) hlt).symm
    obtain ⟨hrange, hend⟩ := h.taken_handed hp hs
    rw [Nat.zero_add] at hend
    refine ⟨hrange.trans ?_, fun hlast => hend.trans (handed_eq hlast)⟩
    rw [List.range'_eq_map_range (s := c), List.range_eq_range']
    apply List.map_congr_left
    intro i hi
    have hlast := (List.mem_range'_1.mp hi).2
    have hlt : c + i < 4294967296 := by omega
    exact handed_eq hlt
  · have hnone : (taken pure vs).length = 0 := by omega
    rw [List.length_eq_zero_iff.mp hnone]
    exact ⟨rfl, fun hlast => absurd hlast (by simpa using hge)⟩

end Marking

namespace Annotator
open Marking

/-- Whether a program is walked at all. -/
def walks (w : Whitelist) (program : Tree) : Bool :=
  program.isKind .moduleProgram && !w.isEmpty && !(Imports.ofModule program).isEmpty

/-- Which callees count as pure in a program. -/
def verdict (w : Whitelist) (program : Tree) : Tree → Bool :=
  isPure w (Imports.ofModule program)

theorem verdict_nominal (w : Whitelist) (program : Tree) : Nominal (verdict w program) :=
  isPure_nominal w _

/-- A module that is not walked has no pure calls. -/
theorem verdict_of_not_walks {w : Whitelist} {program : Tree} (h : walks w program = false)
    (hmodule : program.isKind .moduleProgram = true) (t : Tree) : verdict w program t = false := by
  have hempty : w.isEmpty = true ∨ Imports.ofModule program = [] := by
    simp only [walks, hmodule, Bool.true_and, Bool.and_eq_false_iff, Bool.not_eq_false', List.isEmpty_iff] at h
    exact h
  unfold verdict isPure
  split
  · exact Callee.isAllowed_eq_false hempty _
  · rfl

/-- The visits of a run over one program. -/
def visits (w : Whitelist) (program : Tree) (a : Annotator) : List Visit :=
  if walks w program then Marking.visits (verdict w program) program a.marking else []

/-- How many fresh positions a run over one program takes. -/
def takes (w : Whitelist) (program : Tree) (a : Annotator) : Nat :=
  (taken (verdict w program) (visits w program a)).length

/-- How often a run over one program comes to a pure call that can get a mark. -/
def marks (w : Whitelist) (program : Tree) (a : Annotator) : Nat :=
  (visits w program a).countP fun v => v.node.isDue (verdict w program) v.before.comments

theorem visit_of_walks {w : Whitelist} {program : Tree} (h : walks w program = true) (a : Annotator) :
    visit w program a =
      ((walk (verdict w program) program a.marking).1,
        { marking := { (walk (verdict w program) program a.marking).2 with marked := [] } }) := by
  simp only [walks, Bool.and_eq_true, Bool.not_eq_true'] at h
  simp [visit, h, verdict]

theorem visit_of_not_walks {w : Whitelist} {program : Tree} (h : walks w program = false) (comments : Comments)
    (c : Pos) : visit w program (start comments c) = (program, start comments c) := by
  unfold visit
  split
  next h' =>
    have he : (Imports.ofModule program).isEmpty = true := by simpa [walks, h'] using h
    rw [if_pos he, List.isEmpty_iff.mp he]
    rfl
  next => rfl

theorem visits_of_walks {w : Whitelist} {program : Tree} (h : walks w program = true) (comments : Comments) (c : Pos) :
    visits w program (start comments c) = Marking.visits (verdict w program) program ⟨comments, [], c⟩ := by
  rw [visits, h, if_pos rfl]
  rfl

theorem takes_of_not_walks {w : Whitelist} {program : Tree} (h : walks w program = false) (a : Annotator) :
    takes w program a = 0 := by
  rw [takes, visits, h, if_neg (by decide)]
  rfl

/-- A run over one program does what its visits do, and then forgets what it has marked. -/
theorem visit_linked (w : Whitelist) (program : Tree) (comments : Comments) (c : Pos) :
    ∃ s, Linked (verdict w program) ⟨comments, [], c⟩ (visits w program (start comments c)) s ∧
      (visit w program (start comments c)).2 = start s.comments s.fresh := by
  cases h : walks w program with
  | true =>
    refine ⟨_, ?_, by rw [visit_of_walks h]; rfl⟩
    rw [visits, h, if_pos rfl]
    exact walk_linked program _
  | false =>
    refine ⟨⟨comments, [], c⟩, ?_, by rw [visit_of_not_walks h]⟩
    rw [visits, h, if_neg (by decide)]
    rfl

/-- A run takes its fresh positions one after the other, from the one that it is given on. -/
theorem taken_visits (w : Whitelist) (program : Tree) (comments : Comments) {c : Pos}
    (h : c + takes w program (start comments c) ≤ 4294967296) :
    taken (verdict w program) (visits w program (start comments c)) =
        List.range' c (takes w program (start comments c)) ∧
      (c + takes w program (start comments c) < 4294967296 →
        (visit w program (start comments c)).2.marking.fresh = c + takes w program (start comments c)) := by
  obtain ⟨s, hlinked, hrun⟩ := visit_linked w program comments c
  rw [hrun]
  exact hlinked.taken_eq (verdict_nominal w program) (fun _ => rfl) h

private theorem fresh_visit (w : Whitelist) (program : Tree) (comments : Comments) {c : Pos}
    (hk : c + takes w program (start comments c) ≤ .reserved) :
    (visit w program (start comments c)).2.marking.fresh = c + takes w program (start comments c) :=
  (taken_visits w program comments (Nat.le_trans hk (by decide))).2 (Nat.lt_of_le_of_lt hk (by decide))

/-- A run hands its comments and the next fresh position on, and nothing else. -/
theorem visit_snd_eq_start (w : Whitelist) (program : Tree) (comments : Comments) (c : Pos) :
    (visit w program (start comments c)).2 =
      start (visit w program (start comments c)).2.marking.comments
        (visit w program (start comments c)).2.marking.fresh := by
  obtain ⟨s, -, hrun⟩ := visit_linked w program comments c
  rw [hrun]
  rfl

theorem visit_snd {w : Whitelist} {program : Tree} {comments : Comments} {c : Pos} {k : Nat}
    (hk : takes w program (start comments c) = k) (hbound : c + k ≤ .reserved) :
    (visit w program (start comments c)).2 =
      start (visit w program (start comments c)).2.marking.comments (c + k) := by
  have hfresh := fresh_visit w program comments (hk ▸ hbound)
  have heq := visit_snd_eq_start w program comments c
  rwa [hfresh, hk] at heq

end Annotator

/-- The program `import { f } from "m"; f(f()).g();`. -/
def Tree.chained : Tree :=
  .node .moduleProgram (some ⟨1, 36⟩) [(.body, .list [
    .node .importDeclaration (some ⟨1, 25⟩) [
      (.specifiers, .list [.node .importNamed (some ⟨10, 11⟩) [(.localName, called 10)]]),
      (.source, .node .string (some ⟨19, 22⟩) [(.value, .text "m")])],
    .node .expressionStatement (some ⟨25, 36⟩) [(.expression, call)]])]
where
  called (p : Pos) : Tree := .node .identifier (some ⟨p, p + 1⟩) [(.value, .text "f"), (.ctxt, .number 2 0)]
  argument : Tree := .node .call (some ⟨27, 30⟩) [(.callee, called 27), (.arguments, .list [])]
  head : Tree := .node .call (some ⟨25, 31⟩) [
    (.callee, called 25),
    (.arguments, .list [.node .plain none [(.expression, argument)]])]
  call : Tree := .node .call (some ⟨25, 35⟩) [
    (.callee, .node .member (some ⟨25, 33⟩) [
      (.object, head),
      (.property, .node .identifier (some ⟨32, 33⟩) [(.value, .text "g")])]),
    (.arguments, .list [])]

/-- The calls of `f` of the module `m` are pure. -/
def Whitelist.calledF : Whitelist :=
  ⟨[("m", { plain := ["f"] })]⟩

end PureCalls
