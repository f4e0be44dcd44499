import Mathlib.Algebra.GroupWithZero.Nat
import PureCalls.Proofs.Sequence

/-! Blocks of positions that lie one behind another, each as wide as what it belongs to asks for. If the blocks are laid
in another order, every position moves along with its block. -/
namespace PureCalls
namespace Pos
variable {α : Type} {width : α → Nat} {a : Pos} {k k' : Nat} {σ τ : Pos → Pos} {xs ys : List α}

/-- How many positions the blocks take together. -/
def extent (width : α → Nat) (xs : List α) : Nat :=
  (xs.map width).sum

/-- Each thing with the first position of its block, the first block from `a` on. -/
def lay (width : α → Nat) : Pos → List α → List (α × Pos)
  | _, [] => []
  | a, x :: rest => (x, a) :: lay width (a + width x) rest

theorem extent_cons (x : α) (xs : List α) : extent width (x :: xs) = width x + extent width xs :=
  List.sum_cons

theorem extent_perm (h : xs.Perm ys) : extent width xs = extent width ys :=
  (h.map width).sum_eq

theorem map_fst_lay (xs : List α) (a : Pos) : (lay width a xs).map Prod.fst = xs := by
  induction xs generalizing a with
  | nil => rfl
  | cons x xs ih => rw [lay, List.map_cons, ih]

/-- Whether a block lies among `k` positions from `a` on. -/
def Inside (width : α → Nat) (a : Pos) (k : Nat) (x : α × Pos) : Prop :=
  a ≤ x.2 ∧ x.2 + width x.1 ≤ a + k

private theorem Inside.behind {x : α × Pos} (h : Inside width (a + k) k' x) : Inside width a (k + k') x :=
  ⟨(Nat.le_add_right a k).trans h.1, Nat.add_assoc a k k' ▸ h.2⟩

private theorem inside_of_mem_lay {x : α × Pos} (h : x ∈ lay width a xs) : Inside width a (extent width xs) x := by
  induction xs generalizing a with
  | nil => cases h
  | cons y xs ih =>
    rw [extent_cons]
    rcases List.mem_cons.mp h with rfl | h
    · exact ⟨le_rfl, Nat.add_le_add_left (Nat.le_add_right _ _) a⟩
    · exact (ih h).behind

/-- Whether a renumbering of `k` positions from `a` on takes one block to another one of the same thing. -/
structure Moves (width : α → Nat) (a : Pos) (k : Nat) (σ : Pos → Pos) (x y : α × Pos) : Prop where
  same : y.1 = x.1
  inside : Inside width a k x
  inside' : Inside width a k y
  shift (q : Pos) (h : x.2 ≤ q) (h' : q < x.2 + width x.1) : σ q + x.2 = q + y.2

private theorem Moves.trans {x y z : α × Pos} (h : Moves width a k σ x y) (h' : Moves width a k τ y z) :
    Moves width a k (τ ∘ σ) x z where
  same := h'.same.trans h.same
  inside := h.inside
  inside' := h'.inside'
  shift q hq hlt := by
    have hfirst := h.shift q hq hlt
    have hin : ∀ p q r w s : Nat, r + p = q + s → p ≤ q → q < p + w → s ≤ r ∧ r < s + w := by omega
    obtain ⟨hle, hlt'⟩ := hin _ _ _ _ _ hfirst hq hlt
    have hlater := h'.shift (σ q) hle (h.same ▸ hlt')
    have hsum : ∀ p q r s u v : Nat, r + p = q + s → u + s = r + v → u + p = q + v := by omega
    exact hsum _ _ _ _ _ _ hfirst hlater

private theorem forall₂_trans {R S T : α × Pos → α × Pos → Prop} (h : ∀ x y z, R x y → S y z → T x z)
    {ls ms ns : List (α × Pos)} (hl : List.Forall₂ R ls ms) (hm : List.Forall₂ S ms ns) : List.Forall₂ T ls ns := by
  induction hl generalizing ns with
  | nil => cases hm; exact .nil
  | cons hx _ ih =>
    cases hm with
    | cons hy hm => exact .cons (h _ _ _ hx hy) (ih hm)

/-- The one renumbering in front of a position, and the other one from there on. -/
def glue (m : Pos) (σ τ : Pos → Pos) (q : Pos) : Pos :=
  if q < m then σ q else τ q

private theorem bijOn_glue (hσ : Set.BijOn σ {q | within a k q} {q | within a k q})
    (hτ : Set.BijOn τ {q | within (a + k) k' q} {q | within (a + k) k' q}) :
    Set.BijOn (glue (a + k) σ τ) {q | within a (k + k') q} {q | within a (k + k') q} := by
  have hwindow : {q | within a (k + k') q = true} = {q | within a k q = true} ∪ {q | within (a + k) k' q = true} :=
    Set.ext fun q => within_add
  have hfirst : Set.EqOn σ (glue (a + k) σ τ) {q | within a k q} :=
    fun q hq => (if_pos (within_iff.mp hq).2).symm
  have hlater : Set.EqOn τ (glue (a + k) σ τ) {q | within (a + k) k' q} :=
    fun q hq => (if_neg (not_lt.mpr (within_iff.mp hq).1)).symm
  have hσ' := hσ.congr hfirst
  have hτ' := hτ.congr hlater
  rw [hwindow]
  refine hσ'.union hτ' ((Set.injOn_union ?_).mpr ⟨hσ'.injOn, hτ'.injOn, fun q hq r hr he => ?_⟩)
  · exact Set.disjoint_left.mpr fun q hq hr => absurd (within_iff.mp hq).2 (not_lt.mpr (within_iff.mp hr).1)
  · have hle := (within_iff.mp (hτ'.mapsTo hr)).1
    exact absurd (within_iff.mp (hσ'.mapsTo hq)).2 (not_lt.mpr (he ▸ hle))

private theorem Moves.behind {x y : α × Pos} (h : Moves width (a + k) k' τ x y) :
    Moves width a (k + k') (glue (a + k) σ τ) x y where
  same := h.same
  inside := h.inside.behind
  inside' := h.inside'.behind
  shift q hq hlt := by
    rw [glue, if_neg (not_lt.mpr (h.inside.1.trans hq))]
    exact h.shift q hq hlt

/-- Whether a renumbering takes the blocks of one list to the blocks of another one, in some order. -/
def Rearranges (width : α → Nat) (a : Pos) (σ : Pos → Pos) (xs ys : List α) : Prop :=
  Set.BijOn σ {q | within a (extent width xs) q} {q | within a (extent width xs) q} ∧
    ∃ moved, (lay width a ys).Perm moved ∧
      List.Forall₂ (Moves width a (extent width xs) σ) (lay width a xs) moved

private theorem rearranges_id (xs : List α) (a : Pos) : Rearranges width a id xs xs := by
  refine ⟨Set.bijOn_id _, _, .refl _, List.forall₂_same.mpr fun x hx => ?_⟩
  exact ⟨rfl, inside_of_mem_lay hx, inside_of_mem_lay hx, fun _ _ _ => rfl⟩

private theorem Rearranges.cons (x : α) (h : Rearranges width (a + width x) τ xs ys) :
    Rearranges width a (glue (a + width x) id τ) (x :: xs) (x :: ys) := by
  obtain ⟨hbij, moved, hperm, hmoves⟩ := h
  rw [Rearranges, extent_cons]
  refine ⟨bijOn_glue (Set.bijOn_id _) hbij, (x, a) :: moved, hperm.cons _, .cons ?_ (hmoves.imp fun _ _ => .behind)⟩
  have hinside : Inside width a (width x + extent width xs) (x, a) :=
    ⟨le_rfl, Nat.add_le_add_left (Nat.le_add_right _ _) a⟩
  refine ⟨rfl, hinside, hinside, fun q _ hlt => ?_⟩
  rw [glue, if_pos hlt, id]

private theorem rearranges_swap (x y : α) (xs : List α) (a : Pos) :
    Rearranges width a (glue (a + (width y + width x)) (exchange a (width y) (width x)) id) (y :: x :: xs)
      (x :: y :: xs) := by
  have hextent : extent width (y :: x :: xs) = width y + width x + extent width xs := by
    rw [extent_cons, extent_cons, Nat.add_assoc]
  rw [Rearranges, hextent]
  refine ⟨bijOn_glue (bijOn_exchange a (width y) (width x)) (Set.bijOn_id _),
    (y, a + width x) :: (x, a) :: lay width (a + (width y + width x)) xs, ?_, ?_⟩
  · rw [lay, lay, Nat.add_assoc, Nat.add_comm (width x)]
    exact .swap _ _ _
  rw [lay, lay, Nat.add_assoc a]
  have hinside (z : α) (b : Pos) (k : Nat) (h : width z + k = width y + width x) (hb : b ≤ k) :
      Inside width a (width y + width x + extent width xs) (z, a + b) := by
    refine ⟨Nat.le_add_right a b, ?_⟩
    have hle : ∀ a b k w s e : Nat, w + k = s → b ≤ k → a + b + w ≤ a + (s + e) := by omega
    exact hle a b k (width z) _ _ h hb
  refine .cons ⟨rfl, hinside y 0 (width x) rfl (Nat.zero_le _), hinside y _ _ rfl le_rfl, fun q hq hlt => ?_⟩
    (.cons ⟨rfl, hinside x _ _ (Nat.add_comm _ _) le_rfl, hinside x 0 _ (Nat.add_comm _ _) (Nat.zero_le _),
      fun q hq hlt => ?_⟩ (List.forall₂_same.mpr fun z hz => ?_))
  · rw [glue, if_pos (hlt.trans_le (Nat.add_le_add_left (Nat.le_add_right _ _) a)), exchange_of_lt hlt, Nat.add_assoc,
      Nat.add_comm (width x)]
  · rw [glue, if_pos (Nat.add_assoc a (width y) (width x) ▸ hlt), Nat.add_comm a, ← Nat.add_assoc, exchange_of_le hq]
  · have hbehind : Moves width (a + (width y + width x)) (extent width xs) id z z :=
      ⟨rfl, inside_of_mem_lay hz, inside_of_mem_lay hz, fun _ _ _ => rfl⟩
    exact hbehind.behind

private theorem Rearranges.trans {zs : List α} (h : Rearranges width a σ xs ys) (h' : Rearranges width a τ ys zs)
    (hperm : xs.Perm ys) : Rearranges width a (τ ∘ σ) xs zs := by
  obtain ⟨hbij, moved, hlay, hmoves⟩ := h
  obtain ⟨hbij', moved', hlay', hmoves'⟩ := h'
  rw [← extent_perm hperm] at hbij' hmoves'
  obtain ⟨again, hagain, hmoved⟩ := List.perm_comp_forall₂ hlay.symm hmoves'
  exact ⟨hbij'.comp hbij, again, hlay'.trans hmoved.symm, forall₂_trans (fun _ _ _ => .trans) hmoves hagain⟩

/-- In every order of the things there is a renumbering that takes each block to its new place. -/
theorem exists_rearranges (h : xs.Perm ys) (a : Pos) : ∃ σ, Rearranges width a σ xs ys := by
  induction h generalizing a with
  | nil => exact ⟨id, rearranges_id [] a⟩
  | cons x _ ih =>
    obtain ⟨τ, h⟩ := ih (a + width x)
    exact ⟨_, h.cons x⟩
  | swap x y l => exact ⟨_, rearranges_swap x y l a⟩
  | trans h _ ih ih' =>
    obtain ⟨σ, hσ⟩ := ih a
    obtain ⟨τ, hτ⟩ := ih' a
    exact ⟨_, hσ.trans hτ h⟩

end Pos
end PureCalls
