import PureCalls.Proofs.Conservation
import PureCalls.Proofs.Lockstep

/-! Runs over many programs. A run hands on the comments and the next fresh position and nothing else, so two programs
that have no site at one place can change places: what is left differs in the fresh positions only. -/
namespace PureCalls
open PureCalls.Tree Marking

namespace Pos

theorem within_add {c p : Pos} {k k' : Nat} :
    within c (k + k') p = true ↔ within c k p = true ∨ within (c + k) k' p = true := by
  have h : ∀ c p k k' : Nat, (c ≤ p ∧ p < c + (k + k')) ↔ (c ≤ p ∧ p < c + k) ∨ (c + k ≤ p ∧ p < c + k + k') := by
    omega
  simp only [within_iff]
  exact h c p k k'

/-- The position with the `k` positions from `c` on and the `k'` positions behind them exchanged. -/
def exchange (c : Pos) (k k' : Nat) (q : Pos) : Pos :=
  if q < c + k then q + k' else q - k

theorem exchange_of_lt {c q : Pos} {k : Nat} (h : q < c + k) (k' : Nat) : exchange c k k' q = q + k' :=
  if_pos h

theorem exchange_of_le {c q : Pos} {k : Nat} (h : c + k ≤ q) (k' : Nat) : exchange c k k' q + k = q := by
  rw [exchange, if_neg (not_lt.mpr h)]
  exact Nat.sub_add_cancel ((Nat.le_add_left k c).trans h)

private theorem exchange_within {c q : Pos} {k k' : Nat} (h : within c (k + k') q = true) :
    within c (k' + k) (exchange c k k' q) = true ∧ exchange c k' k (exchange c k k' q) = q := by
  rcases within_add.mp h with h | h
  · obtain ⟨hle, hlt⟩ := within_iff.mp h
    have hle' : c + k' ≤ q + k' := Nat.add_le_add_right hle k'
    have hlt' : q + k' < c + k' + k := Nat.add_right_comm c k k' ▸ Nat.add_lt_add_right hlt k'
    rw [exchange_of_lt hlt]
    exact ⟨within_add.mpr (Or.inr (within_iff.mpr ⟨hle', hlt'⟩)), Nat.add_right_cancel (exchange_of_le hle' k)⟩
  · obtain ⟨hle, hlt⟩ := within_iff.mp h
    have hback : exchange c k k' q + k = q := exchange_of_le hle k'
    rw [← hback] at hle hlt
    have hle' : c ≤ exchange c k k' q := Nat.le_of_add_le_add_right hle
    have hlt' : exchange c k k' q < c + k' := Nat.lt_of_add_lt_add_right (Nat.add_right_comm c k k' ▸ hlt)
    exact ⟨within_add.mpr (Or.inl (within_iff.mpr ⟨hle', hlt'⟩)), by rw [exchange_of_lt hlt', hback]⟩

theorem bijOn_exchange (c : Pos) (k k' : Nat) :
    Set.BijOn (exchange c k k') {q | within c (k + k') q} {q | within c (k + k') q} := by
  have hcomm (q : Pos) : within c (k' + k) q = within c (k + k') q := by rw [Nat.add_comm]
  have hmaps : Set.MapsTo (exchange c k k') {q | within c (k + k') q} {q | within c (k + k') q} :=
    fun q hq => (hcomm _).symm.trans (exchange_within hq).1
  have hmaps' : Set.MapsTo (exchange c k' k) {q | within c (k + k') q} {q | within c (k + k') q} :=
    fun q hq => (exchange_within ((hcomm q).trans hq)).1
  have hinverse : Set.InvOn (exchange c k' k) (exchange c k k') {q | within c (k + k') q} {q | within c (k + k') q} :=
    ⟨fun q hq => (exchange_within hq).2, fun q hq => (exchange_within ((hcomm q).trans hq)).2⟩
  exact hinverse.bijOn hmaps hmaps'

end Pos

/-- Whether a store has one mark more than another one at the positions of a list and at the `k` fresh positions from
`c` on, and is the same everywhere else. -/
def Comments.Gains (initial store : Comments) (marked : List Pos) (c : Pos) (k : Nat) : Prop :=
  ∀ p, store.get p = initial.get p ++ if p ∈ marked ∨ Pos.within c k p = true then [Comment.marker] else []

/-- Marks that are added first here and then there are marks that are added. -/
theorem Comments.Gains.trans {initial store store' : Comments} {marked marked' : List Pos} {c : Pos} {k k' : Nat}
    (h : initial.Gains store marked c k) (h' : store.Gains store' marked' (c + k) k')
    (hlt : ∀ p ∈ marked, p < c) (hlt' : ∀ p ∈ marked', p < c) (hdisjoint : ∀ p ∈ marked, p ∉ marked') :
    initial.Gains store' (marked ++ marked') c (k + k') := by
  intro p
  have hone : ¬ ((p ∈ marked ∨ Pos.within c k p = true) ∧ (p ∈ marked' ∨ Pos.within (c + k) k' p = true)) := by
    rintro ⟨hp | hp, hp' | hp'⟩
    · exact hdisjoint p hp hp'
    · exact absurd ((hlt p hp).trans_le (Nat.le_add_right c k)) (not_lt.mpr (Pos.within_iff.mp hp').1)
    · exact absurd (hlt' p hp') (not_lt.mpr (Pos.within_iff.mp hp).1)
    · exact absurd (Pos.within_iff.mp hp).2 (not_lt.mpr (Pos.within_iff.mp hp').1)
  have hor : (p ∈ marked ++ marked' ∨ Pos.within c (k + k') p = true) ↔
      (p ∈ marked ∨ Pos.within c k p = true) ∨ (p ∈ marked' ∨ Pos.within (c + k) k' p = true) := by
    rw [List.mem_append, Pos.within_add]
    exact or_or_or_comm
  rw [h' p, h p, List.append_assoc]
  congr 1
  simp only [hor]
  by_cases hp : p ∈ marked ∨ Pos.within c k p = true
  · rw [if_pos hp, if_neg fun hp' => hone ⟨hp, hp'⟩, if_pos (Or.inl hp), List.append_nil]
  · rw [if_neg hp, List.nil_append]
    simp only [hp, false_or]

theorem Comments.Gains.of_mem_iff {initial store : Comments} {marked marked' : List Pos} {c : Pos} {k : Nat}
    (h : initial.Gains store marked c k) (hmem : ∀ p, p ∈ marked ↔ p ∈ marked') : initial.Gains store marked' c k := by
  intro p
  rw [h p]
  simp only [hmem]

private theorem Comments.Gains.comm {initial store : Comments} {marked marked' : List Pos} {c : Pos} {k k' : Nat}
    (h : initial.Gains store (marked ++ marked') c (k + k')) :
    initial.Gains store (marked' ++ marked) c (k' + k) := by
  rw [Nat.add_comm]
  exact h.of_mem_iff fun _ => List.perm_append_comm.mem_iff

namespace Marking
variable {pure : Tree → Bool} {nodes : List Tree} {fresh : Pos → Bool} {σ : Pos → Pos} {initial initial' : Comments}
  {a b : Pos} {k : Nat}

theorem Conserves.gains {s : Marking} (h : Conserves pure nodes initial a s) (hfresh : s.fresh = a + k) :
    initial.Gains s.comments s.marked a k := by
  intro p
  have hwithin : Pos.within a k p = true ↔ a ≤ p ∧ p < s.fresh := hfresh ▸ Pos.within_iff
  split
  next hp =>
    rcases hp with hp | hp
    · exact h.marked p hp
    · exact h.moved p (hwithin.mp hp).1 (hwithin.mp hp).2
  next hp =>
    rw [not_or, hwithin] at hp
    rw [List.append_nil, h.others p hp.1 hp.2]

/-- The markings of two runs over one program that have begun with different comments and different fresh positions. -/
structure Shifted (pure : Tree → Bool) (nodes : List Tree) (initial initial' : Comments) (a b : Pos) (s s' : Marking) :
    Prop where
  marked : s'.marked = s.marked
  fresh : s'.fresh + a = s.fresh + b
  left : Conserves pure nodes initial a s
  right : Conserves pure nodes initial' b s'

/-- Runs that find the same calls marked go together, and one takes its fresh positions as far along as the other. -/
theorem inStep_shifted (ha : .firstFresh ≤ a) (hb : .firstFresh ≤ b)
    (htext : ∀ n ∈ nodes, n.start < .firstFresh ∨ n.start = .reserved)
    (hagree : ∀ n ∈ nodes, n.callsPure pure = true → n.start ≠ .dummy → n.start ≠ .reserved →
      initial'.isMarked n.start = initial.isMarked n.start)
    (hσ : ∀ q, a ≤ q → q < a + k → fresh q = true ∧ σ q + a = q + b)
    (hlow : ∀ q, fresh q = true → .firstFresh ≤ q ∧ .firstFresh ≤ σ q) (hka : a + k ≤ .reserved)
    (hkb : b + k ≤ .reserved) :
    InStep pure fresh σ nodes (fun q => a ≤ q ∧ q < a + k) (Shifted pure nodes initial initial' a b) where
  marked h := h.marked
  apart {s s'} h {p} hp span := by
    obtain ⟨n, hn, rfl, -⟩ := h.left.called p hp
    have hlt := (htext n hn).resolve_right (h.left.below _ hp).2.2
    unfold Span.renumber
    split
    next hfresh =>
      obtain ⟨hle, hle'⟩ := hlow _ hfresh
      exact iff_of_false (hlt.trans_le hle').ne' (hlt.trans_le hle).ne'
    next => rfl
  accepts {s s'} h {n} hn hcall := by
    by_cases hmarked : n.start ∈ s.marked
    · have hleft := Comments.isMarked_of_get (h.left.marked _ hmarked)
      have hright := Comments.isMarked_of_get (h.right.marked _ (h.marked ▸ hmarked))
      rw [Comments.accepts, Comments.accepts, hleft, hright]
    · by_cases hplace : n.start = .dummy ∨ n.start = .reserved
      · rcases hplace with h0 | h0 <;> simp [Comments.accepts, h0]
      · rw [not_or] at hplace
        have hlt := (htext n hn).resolve_right hplace.2
        have hleft := h.left.others _ hmarked fun hf => absurd (hlt.trans_le ha) (not_lt.mpr hf.1)
        have hright := h.right.others _ (h.marked ▸ hmarked) fun hf => absurd (hlt.trans_le hb) (not_lt.mpr hf.1)
        rw [Comments.accepts, Comments.accepts, Comments.isMarked_congr hleft, Comments.isMarked_congr hright,
          hagree n hn hcall hplace.1 hplace.2]
  position {s s'} h ht := by
    obtain ⟨hfresh, hq⟩ := hσ s.fresh ht.1 ht.2
    have hsame : σ s.fresh = s'.fresh := Nat.add_right_cancel (hq.trans h.fresh.symm)
    simp only [Span.renumber, hfresh, if_true, hsame]
  mark {s s'} h {n} hn hdue haccepts := by
    obtain ⟨hcall, hleft⟩ := Bool.and_eq_true_iff.mp hdue
    have hlt := (htext n hn).resolve_right (Comments.accepts_iff.mp hleft).2.1
    refine ⟨congrArg (List.insert n.start) h.marked, h.fresh, ?_, ?_⟩
    · exact h.left.mark hleft (hlt.trans_le ha) ⟨n, hn, rfl, hcall⟩
    · exact h.right.mark haccepts (hlt.trans_le hb) ⟨n, hn, rfl, hcall⟩
  release {s s'} h {p} hp ht := by
    have hfresh : s.fresh + 1 < 4294967296 := (Nat.succ_le_of_lt (ht.2.trans_le hka)).trans_lt (by decide)
    have hlt : s'.fresh < b + k := by
      have hsum : s.fresh + b < a + k + b := Nat.add_lt_add_right ht.2 b
      rw [← h.fresh, Nat.add_comm (a + k) b, Nat.add_comm a k, ← Nat.add_assoc] at hsum
      exact Nat.lt_of_add_lt_add_right hsum
    have hfresh' : s'.fresh + 1 < 4294967296 := (Nat.succ_le_of_lt (hlt.trans_le hkb)).trans_lt (by decide)
    refine ⟨?_, ?_, ?_, ?_⟩
    · simp only [apply, Marking.release, h.marked]
    · simp only [apply, Marking.release, Pos.next, Nat.mod_eq_of_lt hfresh, Nat.mod_eq_of_lt hfresh']
      rw [Nat.add_right_comm, h.fresh, Nat.add_right_comm]
    · exact h.left.release hp (ht.2.trans_le hka)
    · exact h.right.release (h.marked ▸ hp) (hlt.trans_le hkb)

/-- How a walk ends that began with the comments `initial` and no marked calls and has taken the `k` fresh positions
from `a` on: it has added one mark at each of them, and one at each place of a site that is marked now. -/
structure Ended (t : Tree) (initial : Comments) (a : Pos) (k : Nat) (s : Marking) : Prop where
  fresh : s.fresh = a + k
  gains : initial.Gains s.comments s.marked a k
  places (p : Pos) (hp : p ∈ s.marked) : p < .firstFresh ∧ p ≠ .dummy ∧ p ≠ .reserved ∧ ∃ n ∈ t.sites, n.start = p

private theorem Conserves.ended {t : Tree} {s : Marking} (h : Conserves pure t.reached initial a s) (htext : t.InText)
    (hfresh : s.fresh = a + k) : Ended t initial a k s where
  fresh := hfresh
  gains := h.gains hfresh
  places p hp := by
    obtain ⟨-, hdummy, hreserved⟩ := h.below p hp
    obtain ⟨n, hn, rfl, hcall⟩ := h.called p hp
    exact ⟨(htext n (reached_subset t hn)).resolve_right hreserved, hdummy, hreserved, n,
      List.mem_filter.mpr ⟨hn, isSite_of_callsPure hcall⟩, rfl⟩

/-- Two walks over a tree, with comments that mark the same of its sites and from different fresh positions on, take
as many positions, mark the same places and leave trees that differ in the fresh positions only. -/
theorem walk_shifted (hp : Nominal pure) {t : Tree} (htext : t.InText) (ha : .firstFresh ≤ a) (hb : .firstFresh ≤ b)
    (hk : (taken pure (visits pure t ⟨initial, [], a⟩)).length = k) (hka : a + k ≤ .reserved) (hkb : b + k ≤ .reserved)
    (hagree : ∀ n ∈ t.sites, n.start ≠ .dummy → n.start ≠ .reserved →
      initial'.isMarked n.start = initial.isMarked n.start)
    (hfree : Free fresh t.nodes) (hσ : ∀ q, a ≤ q → q < a + k → fresh q = true ∧ σ q + a = q + b)
    (hlow : ∀ q, fresh q = true → .firstFresh ≤ q ∧ .firstFresh ≤ σ q) :
    (taken pure (visits pure t ⟨initial', [], b⟩)).length = k ∧
    (walk pure t ⟨initial', [], b⟩).1 = (walk pure t ⟨initial, [], a⟩).1.renumber fresh σ ∧
    (walk pure t ⟨initial', [], b⟩).2.marked = (walk pure t ⟨initial, [], a⟩).2.marked ∧
    Ended t initial a k (walk pure t ⟨initial, [], a⟩).2 ∧ Ended t initial' b k (walk pure t ⟨initial', [], b⟩).2 := by
  have hstart : Shifted pure t.reached initial initial' a b ⟨initial, [], a⟩ ⟨initial', [], b⟩ :=
    ⟨rfl, Nat.add_comm b a, .start _ _ initial a, .start _ _ initial' b⟩
  have hstep : InStep pure fresh σ t.reached (fun q => a ≤ q ∧ q < a + k)
      (Shifted pure t.reached initial initial' a b) := by
    refine inStep_shifted ha hb (fun n hn => htext n (reached_subset t hn)) (fun n hn hcall => ?_) hσ hlow hka hkb
    exact hagree n (List.mem_filter.mpr ⟨hn, isSite_of_callsPure hcall⟩)
  have hbound : a + (taken pure (visits pure t ⟨initial, [], a⟩)).length < 4294967296 :=
    hk ▸ hka.trans_lt (by decide)
  obtain ⟨hrange, hend⟩ := (walk_linked t ⟨initial, [], a⟩).taken_eq hp (fun _ => rfl) hbound.le
  have htaken : ∀ q ∈ taken pure (visits pure t ⟨initial, [], a⟩), a ≤ q ∧ q < a + k := by
    rw [hrange, hk]
    exact fun q hq => List.mem_range'_1.mp hq
  have htogether := walk_together hp hstep t hstart (List.Subset.refl _) hfree htaken
  have hshifted := htogether.marking
  have hfresh : (walk pure t ⟨initial, [], a⟩).2.fresh = a + k := hk ▸ hend hbound
  have hfresh' : (walk pure t ⟨initial', [], b⟩).2.fresh = b + k := by
    refine Nat.add_right_cancel (hshifted.fresh.trans ?_)
    rw [hfresh, Nat.add_right_comm, Nat.add_comm a b, Nat.add_right_comm]
  exact ⟨htogether.count.trans hk, htogether.left, hshifted.marked, hshifted.left.ended htext hfresh,
    hshifted.right.ended htext hfresh'⟩

end Marking

namespace Annotator
open Marking
variable {w : Whitelist} {program : Tree} {comments comments' : Comments}

/-- Away from its sites and from the positions that it takes a run leaves all comments as they are. -/
theorem get_elsewhere {c p : Pos} (htext : program.InText) (hc : .firstFresh ≤ c)
    (hk : c + takes w program (start comments c) ≤ .reserved)
    (hp : Pos.within c (takes w program (start comments c)) p = false)
    (hsites : ∀ n ∈ program.sites, n.start = p → p = .dummy ∨ p = .reserved) :
    (visit w program (start comments c)).2.marking.comments.get p = comments.get p := by
  obtain ⟨s, -, hrun, hfresh, hs, -⟩ := run_conserves w comments htext hc hk
  rw [hrun]
  refine hs.others p (fun hmarked => ?_) fun hf => ?_
  · obtain ⟨n, hn, hstart, hcall⟩ := hs.called p hmarked
    obtain ⟨-, hdummy, hreserved⟩ := hs.below p hmarked
    exact (hsites n (List.mem_filter.mpr ⟨hn, isSite_of_callsPure hcall⟩) hstart).elim hdummy hreserved
  · rw [Pos.within_iff.mpr (hfresh ▸ hf)] at hp
    cases hp

private theorem get_untaken {c p : Pos} (htext : program.InText) (hc : .firstFresh ≤ c)
    (hk : c + takes w program (start comments c) ≤ .reserved) (hp : .firstFresh ≤ p)
    (hout : p < c ∨ c + takes w program (start comments c) ≤ p) :
    (visit w program (start comments c)).2.marking.comments.get p = comments.get p := by
  refine get_elsewhere htext hc hk ?_ fun n hn hstart => ?_
  · by_contra hwithin
    obtain ⟨hle, hlt⟩ := Pos.within_iff.mp (Bool.not_eq_false _ ▸ hwithin)
    exact hout.elim (fun h => absurd hle (not_le.mpr h)) fun h => absurd hlt (not_lt.mpr h)
  · rw [← hstart] at hp ⊢
    exact (htext n (reached_subset program (List.mem_of_mem_filter hn))).imp_left fun hlt => absurd hp (not_le.mpr hlt)

section Shifted
variable {a b : Pos} {k : Nat} {fresh : Pos → Bool} {σ : Pos → Pos}

/-- Two runs over a program, with comments that mark the same of its sites and from different fresh positions on, take
as many positions, mark the same places and leave programs that differ in the fresh positions only. -/
theorem run_shifted (comments comments' : Comments) (htext : program.InText) (ha : .firstFresh ≤ a)
    (hb : .firstFresh ≤ b) (hk : takes w program (start comments a) = k) (hka : a + k ≤ .reserved)
    (hkb : b + k ≤ .reserved)
    (hagree : ∀ n ∈ program.sites, n.start ≠ .dummy → n.start ≠ .reserved →
      comments'.isMarked n.start = comments.isMarked n.start)
    (hfree : Free fresh program.nodes) (hσ : ∀ q, a ≤ q → q < a + k → fresh q = true ∧ σ q + a = q + b)
    (hlow : ∀ q, fresh q = true → .firstFresh ≤ q ∧ .firstFresh ≤ σ q) :
    takes w program (start comments' b) = k ∧
    (visit w program (start comments' b)).1 = (visit w program (start comments a)).1.renumber fresh σ ∧
    ∃ marked : List Pos,
      (∀ p ∈ marked, p < .firstFresh ∧ p ≠ .dummy ∧ p ≠ .reserved ∧ ∃ n ∈ program.sites, n.start = p) ∧
      comments.Gains (visit w program (start comments a)).2.marking.comments marked a k ∧
      comments'.Gains (visit w program (start comments' b)).2.marking.comments marked b k := by
  cases hw : walks w program with
  | true =>
    rw [takes, visits_of_walks hw] at hk
    obtain ⟨htakes, houtput, hmarked, hleft, hright⟩ :=
      walk_shifted (verdict_nominal w program) htext ha hb hk hka hkb hagree hfree hσ hlow
    rw [takes, visits_of_walks hw, visit_of_walks hw, visit_of_walks hw]
    exact ⟨htakes, houtput, _, hleft.places, hleft.gains, hmarked ▸ hright.gains⟩
  | false =>
    rw [takes_of_not_walks hw] at hk
    subst hk
    have hgains (comments : Comments) (c : Pos) : comments.Gains comments [] c 0 := by
      intro p
      simp [Pos.within]
    rw [visit_of_not_walks hw, visit_of_not_walks hw, takes_of_not_walks hw]
    exact ⟨rfl, (renumber_of_free program hfree).symm, [], by simp, hgains comments a, hgains comments' b⟩

end Shifted

/-- Whether two programs have no sites at one place in a text. -/
def SitesApart (P Q : Tree) : Prop :=
  ∀ n ∈ P.sites, ∀ m ∈ Q.sites, n.start = m.start → n.start = .dummy ∨ n.start = .reserved

instance (P Q : Tree) : Decidable (SitesApart P Q) :=
  inferInstanceAs (Decidable (∀ n ∈ P.sites, ∀ m ∈ Q.sites, n.start = m.start → n.start = .dummy ∨ n.start = .reserved))

theorem SitesApart.symm {P Q : Tree} (h : SitesApart P Q) : SitesApart Q P :=
  fun m hm n hn hstart => hstart ▸ h n hn m hm hstart.symm

private theorem isMarked_elsewhere {other : Tree} {c : Pos} (htext : program.InText) (hother : other.InText)
    (hc : .firstFresh ≤ c) (hk : c + takes w program (start comments c) ≤ .reserved)
    (hapart : SitesApart program other) {m : Tree} (hm : m ∈ other.sites) (hreserved : m.start ≠ .reserved) :
    (visit w program (start comments c)).2.marking.comments.isMarked m.start = comments.isMarked m.start := by
  have hlt : m.start < c :=
    ((hother m (reached_subset other (List.mem_of_mem_filter hm))).resolve_right hreserved).trans_le hc
  refine Comments.isMarked_congr (get_elsewhere htext hc hk ?_ fun n hn hstart => hstart ▸ hapart n hn m hm hstart)
  by_contra hwithin
  exact absurd (Pos.within_iff.mp (Bool.not_eq_false _ ▸ hwithin)).1 (not_le.mpr hlt)

/-- Two programs without sites at one place leave the same in either order, apart from the fresh positions. -/
theorem visit_exchange {P Q : Tree} {c : Pos} {k k' : Nat} (hP : P.InText) (hQ : Q.InText) (hc : .firstFresh ≤ c)
    (hapart : SitesApart P Q) (hk : takes w P (start comments c) = k)
    (hk' : takes w Q (start (visit w P (start comments c)).2.marking.comments (c + k)) = k')
    (hbound : c + (k + k') ≤ .reserved) :
    let run := visit w P (start comments c)
    let next := visit w Q (start run.2.marking.comments (c + k))
    let run' := visit w Q (start comments c)
    let next' := visit w P (start run'.2.marking.comments (c + k'))
    (takes w Q (start comments c) = k' ∧ takes w P (start run'.2.marking.comments (c + k')) = k) ∧
    (run'.1 = next.1.renumber (Pos.within c (k + k')) (Pos.exchange c k k') ∧
      next'.1 = run.1.renumber (Pos.within c (k + k')) (Pos.exchange c k k')) ∧
    ∃ marked, (∀ p ∈ marked, p < c) ∧ comments.Gains next.2.marking.comments marked c (k + k') ∧
      comments.Gains next'.2.marking.comments marked c (k + k') := by
  intro run next run' next'
  have hle : c ≤ c + k := Nat.le_add_right c k
  have hle' : c ≤ c + k' := Nat.le_add_right c k'
  have hbk : c + k ≤ .reserved := (Nat.add_le_add_left (Nat.le_add_right k k') c).trans hbound
  have hbk' : c + k' ≤ .reserved := (Nat.add_le_add_left (Nat.le_add_left k' k) c).trans hbound
  have hfree {t : Tree} (ht : t.InText) : Free (Pos.within c (k + k')) t.nodes := ht.free hc hbound
  have hlow : ∀ q, Pos.within c (k + k') q = true → .firstFresh ≤ q ∧ .firstFresh ≤ Pos.exchange c k k' q :=
    fun q hq => ⟨hc.trans (Pos.within_iff.mp hq).1, hc.trans (Pos.within_iff.mp (Pos.exchange_within hq).1).1⟩
  have hswap : ∀ q, c + k ≤ q → q < c + k + k' →
      Pos.within c (k + k') q = true ∧ Pos.exchange c k k' q + (c + k) = q + c := by
    intro q hq hq'
    refine ⟨Pos.within_add.mpr (Or.inr (Pos.within_iff.mpr ⟨hq, hq'⟩)), ?_⟩
    rw [Nat.add_comm c k, ← Nat.add_assoc, Pos.exchange_of_le hq]
  have hswap' : ∀ q, c ≤ q → q < c + k →
      Pos.within c (k + k') q = true ∧ Pos.exchange c k k' q + c = q + (c + k') := by
    intro q hq hq'
    refine ⟨Pos.within_add.mpr (Or.inl (Pos.within_iff.mpr ⟨hq, hq'⟩)), ?_⟩
    rw [Pos.exchange_of_lt hq', Nat.add_assoc, Nat.add_comm k' c]
  -- `Q` finds its sites marked as if `P` had not been there, and `P` as if `Q` had not been there.
  have hagree : ∀ m ∈ Q.sites, m.start ≠ .dummy → m.start ≠ .reserved →
      comments.isMarked m.start = run.2.marking.comments.isMarked m.start :=
    fun m hm _ hreserved => (isMarked_elsewhere hP hQ hc (hk ▸ hbk) hapart hm hreserved).symm
  obtain ⟨htakes, houtput, marked', hmarked', hnext, hrun'⟩ := run_shifted run.2.marking.comments comments hQ
    (hc.trans hle) hc hk' (by rwa [Nat.add_assoc]) hbk' hagree (hfree hQ) hswap hlow
  have hagree' : ∀ n ∈ P.sites, n.start ≠ .dummy → n.start ≠ .reserved →
      run'.2.marking.comments.isMarked n.start = comments.isMarked n.start :=
    fun n hn _ hreserved => isMarked_elsewhere hQ hP hc (htakes ▸ hbk')
      hapart.symm hn hreserved
  obtain ⟨htakes', houtput', marked, hmarked, hrun, hnext'⟩ := run_shifted comments run'.2.marking.comments hP hc
     (hc.trans hle') hk hbk (by rwa [Nat.add_assoc, Nat.add_comm k' k]) hagree' (hfree hP) hswap' hlow
  have hlt : ∀ p ∈ marked, p < c := fun p hp => (hmarked p hp).1.trans_le hc
  have hlt' : ∀ p ∈ marked', p < c := fun p hp => (hmarked' p hp).1.trans_le hc
  have hdisjoint : ∀ p ∈ marked, p ∉ marked' := by
    intro p hp hp'
    obtain ⟨-, hdummy, hreserved, n, hn, hstart⟩ := hmarked p hp
    obtain ⟨-, -, -, m, hm, hstart'⟩ := hmarked' p hp'
    rw [← hstart] at hdummy hreserved
    exact (hapart n hn m hm (hstart.trans hstart'.symm)).elim hdummy hreserved
  refine ⟨⟨htakes, htakes'⟩, ⟨houtput, houtput'⟩, marked ++ marked', List.forall_mem_append.mpr ⟨hlt, hlt'⟩, ?_, ?_⟩
  · exact hrun.trans hnext hlt hlt' hdisjoint
  · exact (hrun'.trans hnext' hlt' hlt fun p hp' hp => hdisjoint p hp hp').comm

/-- What a run over programs hands on after the last one. -/
def after (w : Whitelist) (programs : List Tree) (a : Annotator) : Annotator :=
  programs.foldl (fun a program => (visit w program a).2) a

/-- How many fresh positions a run over programs takes. -/
def takesAll (w : Whitelist) : List Tree → Annotator → Nat
  | [], _ => 0
  | program :: rest, a => takes w program a + takesAll w rest (visit w program a).2

/-- The steps of runs that are started anew for each program, with the comments and the next fresh position of the run
before. -/
def stepsAnew (w : Whitelist) : List Tree → Comments → Pos → List (Tree × Comments)
  | [], _, _ => []
  | program :: rest, comments, c =>
    let (program, a) := visit w program (start comments c)
    (program, a.marking.comments) :: stepsAnew w rest a.marking.comments a.marking.fresh

/-- One run over many programs does what new runs do. -/
theorem steps_eq_stepsAnew (w : Whitelist) (programs : List Tree) (comments : Comments) (c : Pos) :
    steps w programs (start comments c) = stepsAnew w programs comments c := by
  induction programs generalizing comments c with
  | nil => rfl
  | cons program rest ih =>
    have hrest := ih (visit w program (start comments c)).2.marking.comments
      (visit w program (start comments c)).2.marking.fresh
    rw [← visit_snd_eq_start] at hrest
    exact congrArg (_ :: ·) hrest

theorem steps_cons (w : Whitelist) (program : Tree) (rest : List Tree) (a : Annotator) :
    steps w (program :: rest) a =
      ((visit w program a).1, (visit w program a).2.marking.comments) :: steps w rest (visit w program a).2 := rfl

private theorem steps_append (w : Whitelist) (programs rest : List Tree) (a : Annotator) :
    steps w (programs ++ rest) a = steps w programs a ++ steps w rest (after w programs a) := by
  induction programs generalizing a with
  | nil => rfl
  | cons program programs ih => exact congrArg (_ :: ·) (ih _)

private theorem takesAll_append (w : Whitelist) (programs rest : List Tree) (a : Annotator) :
    takesAll w (programs ++ rest) a = takesAll w programs a + takesAll w rest (after w programs a) := by
  induction programs generalizing a with
  | nil => rw [takesAll, Nat.zero_add]; rfl
  | cons program programs ih =>
    rw [List.cons_append, takesAll, takesAll, ih, Nat.add_assoc]
    rfl

/-- A run that begins without comments at fresh positions has none at those that it has not taken. -/
theorem after_clear (w : Whitelist) {programs : List Tree} {comments : Comments} {c : Pos}
    (htext : ∀ t ∈ programs, t.InText) (hc : .firstFresh ≤ c) (hclear : ∀ q, c ≤ q → comments.get q = [])
    (hk : c + takesAll w programs (start comments c) ≤ .reserved) :
    ∃ store, after w programs (start comments c) = start store (c + takesAll w programs (start comments c)) ∧
      ∀ q, c + takesAll w programs (start comments c) ≤ q → store.get q = [] := by
  induction programs generalizing comments c with
  | nil => exact ⟨comments, rfl, hclear⟩
  | cons program rest ih =>
    obtain ⟨hprogram, hrest⟩ := List.forall_mem_cons.mp htext
    rw [takesAll, ← Nat.add_assoc] at hk ⊢
    have hk' : c + takes w program (start comments c) ≤ .reserved := (Nat.le_add_right _ _).trans hk
    have hrun := visit_snd rfl hk'
    have hclear' : ∀ q, c + takes w program (start comments c) ≤ q →
        (visit w program (start comments c)).2.marking.comments.get q = [] := by
      intro q hq
      have hle : c ≤ q := (Nat.le_add_right _ _).trans hq
      rw [get_untaken hprogram hc hk' (hc.trans hle) (Or.inr hq), hclear q hle]
    rw [hrun] at hk ⊢
    obtain ⟨store, hafter, hstore⟩ := ih hrest (hc.trans (Nat.le_add_right _ _)) hclear' hk
    refine ⟨store, ?_, hstore⟩
    rw [← hafter, after, List.foldl_cons, hrun]
    rfl

/-- Runs over the same programs that begin with the same comments, up to the fresh positions taken before, go on
alike. -/
theorem steps_alike (w : Whitelist) {programs : List Tree} {c d : Pos} {k : Nat} {σ : Pos → Pos}
    (htext : ∀ t ∈ programs, t.InText) (hc : .firstFresh ≤ c) (hd : c + k ≤ d)
    (hk : d + takesAll w programs (start comments d) ≤ .reserved)
    (hσ : ∀ q, Pos.within c k q = true → Pos.within c k (σ q) = true)
    (hsame : ∀ p, comments'.get p = comments.get p)
    (hclear : ∀ q, Pos.within c k q = true → comments.get (σ q) = comments.get q) :
    List.Forall₂ (fun x x' => x'.1 = x.1 ∧ x.2.Renumbered (Pos.within c k) σ x'.2)
      (steps w programs (start comments d)) (steps w programs (start comments' d)) := by
  induction programs generalizing comments comments' d with
  | nil => exact .nil
  | cons program rest ih =>
    obtain ⟨hprogram, hrest⟩ := List.forall_mem_cons.mp htext
    have hcd : c ≤ d := (Nat.le_add_right c k).trans hd
    rw [takesAll, ← Nat.add_assoc] at hk
    have hk' : d + takes w program (start comments d) ≤ .reserved := (Nat.le_add_right _ _).trans hk
    have hmoved : ∀ q, d ≤ q → q < d + takes w program (start comments d) →
        Pos.within d (takes w program (start comments d)) q = true ∧ id q + d = q + d :=
      fun q hq hq' => ⟨Pos.within_iff.mpr ⟨hq, hq'⟩, rfl⟩
    have hlow : ∀ q, Pos.within d (takes w program (start comments d)) q = true →
        .firstFresh ≤ q ∧ .firstFresh ≤ id q := by
      intro q hq
      have hle := (hc.trans hcd).trans (Pos.within_iff.mp hq).1
      exact ⟨hle, hle⟩
    obtain ⟨htakes, houtput, marked, -, hgains, hgains'⟩ := run_shifted comments comments' hprogram
      (hc.trans hcd) (hc.trans hcd) rfl hk' hk' (fun n _ _ _ => Comments.isMarked_congr (hsame n.start))
      (hprogram.free (hc.trans hcd) hk') hmoved hlow
    rw [renumber_id] at houtput
    have hsame' : ∀ p, (visit w program (start comments' d)).2.marking.comments.get p =
        (visit w program (start comments d)).2.marking.comments.get p := by
      intro p
      rw [hgains p, hgains' p, hsame p]
    have hkept : ∀ q, Pos.within c k q = true →
        (visit w program (start comments d)).2.marking.comments.get q = comments.get q := by
      intro q hq
      obtain ⟨hle, hlt⟩ := Pos.within_iff.mp hq
      exact get_untaken hprogram (hc.trans hcd) hk' (hc.trans hle) (Or.inl (hlt.trans_le hd))
    have hclear' : ∀ q, Pos.within c k q = true →
        (visit w program (start comments d)).2.marking.comments.get (σ q) =
          (visit w program (start comments d)).2.marking.comments.get q := by
      intro q hq
      rw [hkept q hq, hkept (σ q) (hσ q hq), hclear q hq]
    have hrun := visit_snd (rfl : takes w program (start comments d) = _) hk'
    have hrun' := visit_snd htakes hk'
    rw [steps_cons, steps_cons]
    refine .cons ⟨houtput, fun q hq => (hsame' (σ q)).trans (hclear' q hq), fun p _ => hsame' p⟩ ?_
    rw [hrun, hrun']
    rw [hrun] at hk
    exact ih hrest (hd.trans (Nat.le_add_right _ _)) hk hsame' hclear'

/-- Whether the steps of a run that end with two programs and some more ones are those of a run with the two in the
other order, up to the numbers of the `k` fresh positions from `c` on that the two take. -/
def Exchanged (c : Pos) (k : Nat) (before ahead swapped : List (Tree × Comments)) : Prop :=
  ∃ P Q first last first' last' later later' σ,
    Set.BijOn σ {q | Pos.within c k q} {q | Pos.within c k q} ∧
    ahead = before ++ (P, first) :: (Q, last) :: later ∧
    swapped = before ++ (Q.renumber (Pos.within c k) σ, first') :: (P.renumber (Pos.within c k) σ, last') :: later' ∧
    last.Renumbered (Pos.within c k) σ last' ∧
    List.Forall₂ (fun x x' => x'.1 = x.1 ∧ x.2.Renumbered (Pos.within c k) σ x'.2) later later'

private theorem steps_two {P Q : Tree} {a : Annotator} {store store' : Comments} {c c' : Pos}
    (hP : (visit w P a).2 = start store c) (hQ : (visit w Q (start store c)).2 = start store' c') (rest : List Tree) :
    steps w (P :: Q :: rest) a =
      ((visit w P a).1, store) :: ((visit w Q (start store c)).1, store') :: steps w rest (start store' c') := by
  rw [steps_cons, steps_cons, hP, hQ]
  rfl

/-- The first two programs of a run can change places. -/
theorem exchanged_first (w : Whitelist) {P Q : Tree} {rest : List Tree} {c : Pos} (hP : P.InText) (hQ : Q.InText)
    (hrest : ∀ t ∈ rest, t.InText) (hc : .firstFresh ≤ c) (hclear : ∀ q, c ≤ q → comments.get q = [])
    (hk : c + takesAll w (P :: Q :: rest) (start comments c) ≤ .reserved) (hapart : SitesApart P Q) :
    Exchanged c (takesAll w [P, Q] (start comments c)) [] (steps w (P :: Q :: rest) (start comments c))
      (steps w (Q :: P :: rest) (start comments c)) := by
  obtain ⟨k, hkP⟩ : ∃ k, takes w P (start comments c) = k := ⟨_, rfl⟩
  simp only [takesAll, hkP, Nat.add_zero] at hk ⊢
  have hrun := visit_snd hkP ((Nat.add_le_add_left (Nat.le_add_right _ _) c).trans hk)
  rw [hrun] at hk ⊢
  obtain ⟨k', hkQ⟩ : ∃ k', takes w Q (start (visit w P (start comments c)).2.marking.comments (c + k)) = k' :=
    ⟨_, rfl⟩
  rw [hkQ, ← Nat.add_assoc k, ← Nat.add_assoc] at hk
  rw [hkQ]
  have hbound : c + (k + k') ≤ .reserved := (Nat.le_add_right _ _).trans hk
  obtain ⟨⟨hkQ', hkP'⟩, ⟨houtput, houtput'⟩, marked, hmarked, hgains, hgains'⟩ :=
    visit_exchange hP hQ hc hapart hkP hkQ hbound
  have hrun' := visit_snd hkQ' ((Nat.add_le_add_left (Nat.le_add_left _ _) c).trans hbound)
  have hnext := visit_snd hkQ (by rwa [Nat.add_assoc])
  have hnext' := visit_snd hkP' (by rwa [Nat.add_assoc, Nat.add_comm k'])
  rw [Nat.add_assoc] at hnext hnext'
  rw [Nat.add_comm k'] at hnext'
  rw [hnext] at hk
  rw [steps_two hrun hnext, steps_two hrun' hnext', houtput, houtput']
  -- From here on it counts only what the two programs have left together, in either order.
  generalize (visit w Q (start (visit w P (start comments c)).2.marking.comments (c + k))).2.marking.comments =
    store at hk hgains ⊢
  generalize (visit w P (start (visit w Q (start comments c)).2.marking.comments (c + k'))).2.marking.comments =
    store' at hgains' ⊢
  have hσ := Pos.bijOn_exchange c k k'
  have hsame : ∀ p, store'.get p = store.get p := fun p => (hgains' p).trans (hgains p).symm
  have hfresh : ∀ q, Pos.within c (k + k') q = true → store.get q = [Comment.marker] := by
    intro q hq
    rw [hgains q, if_pos (Or.inr hq), hclear q (Pos.within_iff.mp hq).1, List.nil_append]
  have hclear' : ∀ q, Pos.within c (k + k') q = true → store.get (Pos.exchange c k k' q) = store.get q :=
    fun q hq => (hfresh _ (hσ.mapsTo hq)).trans (hfresh q hq).symm
  exact ⟨_, _, _, _, _, _, _, _, _, hσ, rfl, rfl, ⟨fun q hq => (hsame _).trans (hclear' q hq), fun p _ => hsame p⟩,
    steps_alike w hrest hc le_rfl hk hσ.mapsTo hsame hclear'⟩

/-- A run over programs does what new runs do, each with the comments and the next fresh position of the one before.
Where two programs that follow each other have no sites at one place, they can change places: the run takes the same
fresh positions, and what it leaves is the same up to their numbers. -/
theorem programs_independent (w : Whitelist) (comments : Comments) (c : Pos) :
    (∀ programs, steps w programs (start comments c) = stepsAnew w programs comments c) ∧
    ∀ before P Q rest,
      let a := after w before (start comments c)
      (∀ t ∈ before ++ P :: Q :: rest, t.InText) → .firstFresh ≤ c → (∀ p, .firstFresh ≤ p → comments.get p = []) →
      c + takesAll w (before ++ P :: Q :: rest) (start comments c) ≤ .reserved → SitesApart P Q →
        Exchanged a.marking.fresh (takesAll w [P, Q] a) (steps w before (start comments c))
          (steps w (before ++ P :: Q :: rest) (start comments c))
          (steps w (before ++ Q :: P :: rest) (start comments c)) := by
  refine ⟨fun programs => steps_eq_stepsAnew w programs comments c, ?_⟩
  intro before P Q rest a htext hc hclear hk hapart
  obtain ⟨hbefore, htext⟩ := List.forall_mem_append.mp htext
  obtain ⟨hP, htext⟩ := List.forall_mem_cons.mp htext
  obtain ⟨hQ, hrest⟩ := List.forall_mem_cons.mp htext
  rw [takesAll_append, ← Nat.add_assoc] at hk
  obtain ⟨store, hafter, hstore⟩ :=
    after_clear w hbefore hc (fun q hq => hclear q (hc.trans hq)) ((Nat.le_add_right _ _).trans hk)
  rw [hafter] at hk
  obtain ⟨P₁, Q₁, first, last, first', last', later, later', σ, hσ, hahead, hswapped, hlast, hlater⟩ :=
    exchanged_first w hP hQ hrest (hc.trans (Nat.le_add_right _ _)) hstore hk hapart
  simp only [a, steps_append, hafter]
  exact ⟨P₁, Q₁, first, last, first', last', later, later', σ, hσ, congrArg (_ ++ ·) hahead,
    congrArg (_ ++ ·) hswapped, hlast, hlater⟩

theorem programs_independent_chained :
    let further := chained.renumber (fun _ => true) (· + 40)
    let run := start {} .firstFresh
    Exchanged .firstFresh 2 [] (steps .calledF [chained, further] run) (steps .calledF [further, chained] run) := by
  intro further run
  have hk : takesAll .calledF [chained, further] run = 2 := by decide +kernel
  have hexchanged := (programs_independent .calledF {} .firstFresh).2 [] chained further [] (by decide) le_rfl
    (fun _ _ => rfl) (by decide +kernel) (by decide)
  rw [← hk]
  exact hexchanged

end Annotator
end PureCalls
