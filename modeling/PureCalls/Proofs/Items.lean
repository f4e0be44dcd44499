import PureCalls.Proofs.Framing
import PureCalls.Proofs.Layout

/-! Walks over many items. If no two of the items have sites at one place, a walk over them does with each what a walk
over that item alone does, with its fresh positions behind those of the items in front of it. -/
namespace PureCalls
open PureCalls.Tree Marking
open Annotator (SitesApart)

namespace Marking
variable {pure : Tree → Bool} {comments initial initial' : Comments} {c a b : Pos} {t : Tree} {items : List Tree}
  {j : Nat} {s : Marking}

/-- How many fresh positions a walk over a tree takes that comes with the comments, no marked calls and the fresh
position `c`. -/
def width (pure : Tree → Bool) (comments : Comments) (c : Pos) (t : Tree) : Nat :=
  (taken pure (visits pure t ⟨comments, [], c⟩)).length

/-- The calls that are marked after such a walk. -/
def own (pure : Tree → Bool) (comments : Comments) (c : Pos) (t : Tree) : List Pos :=
  (walk pure t ⟨comments, [], c⟩).2.marked

/-- What such a walk leaves of the tree. -/
def output (pure : Tree → Bool) (comments : Comments) (t : Tree) (c : Pos) : Tree :=
  (walk pure t ⟨comments, [], c⟩).1

/-- A walk takes as many fresh positions and marks the same places from another fresh position on, and with other
comments that mark the same of the sites. -/
theorem width_shifted (hp : Nominal pure) (htext : t.InText) (ha : .firstFresh ≤ a) (hb : .firstFresh ≤ b)
    (hka : a + width pure initial a t ≤ .reserved) (hkb : b + width pure initial a t ≤ .reserved)
    (hagree : ∀ n ∈ t.sites, n.start ≠ .dummy → n.start ≠ .reserved →
      initial'.isMarked n.start = initial.isMarked n.start) :
    width pure initial' b t = width pure initial a t ∧ own pure initial' b t = own pure initial a t ∧
      Ended t initial' b (width pure initial a t) (walk pure t ⟨initial', [], b⟩).2 := by
  have hσ : ∀ q, a ≤ q → q < a + width pure initial a t →
      Pos.within a (width pure initial a t) q = true ∧ q - a + b + a = q + b := by
    intro q hq hlt
    refine ⟨Pos.within_iff.mpr ⟨hq, hlt⟩, ?_⟩
    rw [Nat.add_right_comm, Nat.sub_add_cancel hq]
  have hlow : ∀ q, Pos.within a (width pure initial a t) q = true → .firstFresh ≤ q ∧ .firstFresh ≤ q - a + b :=
    fun q hq => ⟨ha.trans (Pos.within_iff.mp hq).1, hb.trans (Nat.le_add_left b _)⟩
  obtain ⟨hcount, -, hmarked, -, hended⟩ :=
    walk_shifted hp htext ha hb rfl hka hkb hagree (htext.free ha hka) hσ hlow
  exact ⟨hcount, hmarked, hended⟩

/-- Comments that mark the same of the sites make no difference to what a walk leaves of a tree. -/
theorem output_congr (hp : Nominal pure) (htext : t.InText) (ha : .firstFresh ≤ a)
    (hk : a + width pure initial a t ≤ .reserved)
    (hagree : ∀ n ∈ t.sites, n.start ≠ .dummy → n.start ≠ .reserved →
      initial'.isMarked n.start = initial.isMarked n.start) :
    output pure initial' t a = output pure initial t a := by
  have hσ : ∀ q, a ≤ q → q < a + width pure initial a t →
      Pos.within a (width pure initial a t) q = true ∧ id q + a = q + a :=
    fun q hq hlt => ⟨Pos.within_iff.mpr ⟨hq, hlt⟩, rfl⟩
  have hlow : ∀ q, Pos.within a (width pure initial a t) q = true → .firstFresh ≤ q ∧ .firstFresh ≤ id q :=
    fun q hq => ⟨ha.trans (Pos.within_iff.mp hq).1, ha.trans (Pos.within_iff.mp hq).1⟩
  obtain ⟨-, houtput, -⟩ := walk_shifted hp htext ha ha rfl hk hk hagree (htext.free ha hk) hσ hlow
  exact houtput.trans (renumber_id _)

/-- What holds between two items of a walk over many, with `j` fresh positions taken and the given items to come. -/
structure Passed (comments : Comments) (c : Pos) (items : List Tree) (j : Nat) (s : Marking) : Prop where
  fresh : s.fresh = c + j
  gains : comments.Gains s.comments s.marked c j
  text (p : Pos) (hp : p ∈ s.marked) : p < .firstFresh
  apart (t : Tree) (ht : t ∈ items) (n : Tree) (hn : n ∈ t.sites) : n.start ∉ s.marked

theorem Passed.start (comments : Comments) (c : Pos) (items : List Tree) :
    Passed comments c items 0 ⟨comments, [], c⟩ where
  fresh := rfl
  gains p := by simp [Pos.within]
  text _ hp := by cases hp
  apart _ _ _ _ := List.not_mem_nil

/-- An item to come finds its sites marked as if no items had been there before it. -/
theorem Passed.agree (h : Passed comments c items j s) (hc : .firstFresh ≤ c) (ht : t ∈ items) (htext : t.InText) :
    ∀ n ∈ t.sites, n.start ≠ .dummy → n.start ≠ .reserved → s.comments.isMarked n.start = comments.isMarked n.start := by
  intro n hn _ hreserved
  have hlt := (htext n (reached_subset t (List.mem_of_mem_filter hn))).resolve_right hreserved
  refine Comments.isMarked_congr ?_
  rw [h.gains, if_neg, List.append_nil]
  rintro (hmarked | hwithin)
  · exact h.apart t ht n hn hmarked
  · exact absurd (hlt.trans_le hc) (not_lt.mpr (Pos.within_iff.mp hwithin).1)

private theorem bounds {k : Nat} (h : c + (j + k) ≤ .reserved) : c + k ≤ .reserved ∧ c + j + k ≤ .reserved :=
  ⟨(Nat.add_le_add_left (Nat.le_add_left k j) c).trans h, Nat.add_assoc c j k ▸ h⟩

/-- How a walk goes that comes to an item after `j` fresh positions: as a walk over the item alone. -/
structure Alone (pure : Tree → Bool) (comments : Comments) (c : Pos) (t : Tree) (j : Nat) (s : Marking) : Prop where
  count : (taken pure (visits pure t s)).length = width pure comments c t
  bound : c + (j + width pure comments c t) ≤ .reserved
  output : (walk pure t s).1 = output pure comments t (c + j)
  marked : (walk pure t s).2.marked = own pure comments c t ++ s.marked
  fresh : (walk pure t s).2.fresh = c + (j + width pure comments c t)
  gains : s.comments.Gains (walk pure t s).2.comments (own pure comments c t) (c + j) (width pure comments c t)
  places (p : Pos) (hp : p ∈ own pure comments c t) :
    p < .firstFresh ∧ p ≠ .dummy ∧ p ≠ .reserved ∧ ∃ n ∈ t.sites, n.start = p

/-- An item to come takes as many fresh positions as if no items had been there before it. In one order of the items it
is the one count that is bounded, in another order it is the other one. -/
theorem Passed.width_eq (hp : Nominal pure) (h : Passed comments c items j s) (hc : .firstFresh ≤ c) (ht : t ∈ items)
    (htext : t.InText) (hk : c + (j + width pure s.comments (c + j) t) ≤ .reserved ∨
      c + (j + width pure comments c t) ≤ .reserved) :
    width pure s.comments (c + j) t = width pure comments c t ∧ c + (j + width pure comments c t) ≤ .reserved := by
  have hcj : .firstFresh ≤ c + j := hc.trans (Nat.le_add_right c j)
  have hagree := h.agree hc ht htext
  rcases hk with hk | hk
  · have hsame := (width_shifted hp htext hcj hc (bounds hk).2 (bounds hk).1
      fun n hn hdummy hreserved => (hagree n hn hdummy hreserved).symm).1
    exact ⟨hsame.symm, hsame ▸ hk⟩
  · exact ⟨(width_shifted hp htext hc hcj (bounds hk).1 (bounds hk).2 hagree).1, hk⟩

/-- A walk that comes to an item does with it what a walk over the item alone does. -/
theorem Passed.alone (hp : Nominal pure) (h : Passed comments c (t :: items) j s) (hc : .firstFresh ≤ c)
    (htext : t.InText) (hk : c + (j + (taken pure (visits pure t s)).length) ≤ .reserved ∨
      c + (j + width pure comments c t) ≤ .reserved) : Alone pure comments c t j s := by
  have hcj : .firstFresh ≤ c + j := hc.trans (Nat.le_add_right c j)
  have hagree := h.agree hc List.mem_cons_self htext
  -- The calls that are marked already belong to other items, so the walk is one without marked calls.
  have hs : s = Marking.beside ⟨s.comments, [], c + j⟩ s.marked := by rw [← h.fresh]; rfl
  have hframed := walk_beside hp t ⟨s.comments, [], c + j⟩ (h.apart t List.mem_cons_self)
  rw [← hs] at hframed
  have hwalk : (walk pure t s).2 = (walk pure t ⟨s.comments, [], c + j⟩).2.beside s.marked := by rw [hframed.walk]
  have hcount : (taken pure (visits pure t s)).length = width pure s.comments (c + j) t := by rw [hframed.taken, width]
  rw [hcount] at hk
  obtain ⟨hsame, hk⟩ := h.width_eq hp hc List.mem_cons_self htext hk
  obtain ⟨hlow, hhigh⟩ := bounds hk
  obtain ⟨-, hown, hended⟩ := width_shifted hp htext hc hcj hlow hhigh hagree
  have hmoved := (width_shifted hp htext hc hcj hlow hhigh fun _ _ _ _ => rfl).1
  refine ⟨hcount.trans hsame, hk, ?_, ?_, ?_, ?_, fun p hp => ?_⟩
  · rw [hframed.walk]
    exact output_congr hp htext hcj (hmoved ▸ hhigh) hagree
  · rw [hwalk, ← hown]
    rfl
  · rw [hwalk, ← Nat.add_assoc]
    exact hended.fresh
  · rw [hwalk, ← hown]
    exact hended.gains
  · rw [← hown] at hp
    exact hended.places p hp

private theorem Passed.next (h : Passed comments c (t :: items) j s) (hc : .firstFresh ≤ c)
    (hapart : ∀ u ∈ items, SitesApart t u) (ht : Alone pure comments c t j s) :
    Passed comments c items (j + width pure comments c t) (walk pure t s).2 where
  fresh := ht.fresh
  gains := by
    have hlt : ∀ p ∈ s.marked, p < c := fun p hp => (h.text p hp).trans_le hc
    have hlt' : ∀ p ∈ own pure comments c t, p < c := fun p hp => (ht.places p hp).1.trans_le hc
    have hdisjoint : ∀ p ∈ s.marked, p ∉ own pure comments c t := by
      intro p hp hp'
      obtain ⟨-, -, -, n, hn, rfl⟩ := ht.places p hp'
      exact h.apart t List.mem_cons_self n hn hp
    rw [ht.marked]
    exact (h.gains.trans ht.gains hlt hlt' hdisjoint).of_mem_iff fun p => List.perm_append_comm.mem_iff
  text p hp := by
    rw [ht.marked] at hp
    exact (List.mem_append.mp hp).elim (fun hp => (ht.places p hp).1) (h.text p)
  apart u hu n hn hmarked := by
    rw [ht.marked] at hmarked
    rcases List.mem_append.mp hmarked with hp | hp
    · obtain ⟨-, hdummy, hreserved, m, hm, hstart⟩ := ht.places _ hp
      exact (hapart u hu m hm n hn hstart).elim (hstart ▸ hdummy) (hstart ▸ hreserved)
    · exact h.apart u (List.mem_cons_of_mem t hu) n hn hp

/-- How a walk over items goes that comes to them after `j` fresh positions: each item is walked over as if it were
alone, with its fresh positions behind those of the items in front. -/
structure Each (pure : Tree → Bool) (comments : Comments) (c : Pos) (items : List Tree) (j : Nat) (s : Marking) :
    Prop where
  count : (taken pure (visitsOfItems pure items s)).length = Pos.extent (width pure comments c) items
  bound : c + (j + Pos.extent (width pure comments c) items) ≤ .reserved
  outputs : (walkItems pure items s).1 =
    (Pos.lay (width pure comments c) (c + j) items).map fun x => output pure comments x.1 x.2
  marked (p : Pos) : p ∈ (walkItems pure items s).2.marked ↔ p ∈ items.flatMap (own pure comments c) ∨ p ∈ s.marked
  passed : Passed comments c [] (j + Pos.extent (width pure comments c) items) (walkItems pure items s).2

theorem Passed.each (hp : Nominal pure) (hc : .firstFresh ≤ c) (h : Passed comments c items j s)
    (htext : ∀ t ∈ items, t.InText) (hapart : items.Pairwise SitesApart)
    (hk : c + (j + (taken pure (visitsOfItems pure items s)).length) ≤ .reserved ∨
      c + (j + Pos.extent (width pure comments c) items) ≤ .reserved) : Each pure comments c items j s := by
  induction items generalizing j s with
  | nil => exact ⟨rfl, hk.elim id id, rfl, fun p => by simp [walkItems], h⟩
  | cons t rest ih =>
    obtain ⟨ht, hrest⟩ := List.forall_mem_cons.mp htext
    obtain ⟨hapt, haprest⟩ := List.pairwise_cons.mp hapart
    rw [visitsOfItems, taken_append, List.length_append, Pos.extent_cons] at hk
    have hle {k k' : Nat} (hk : c + (j + (k + k')) ≤ .reserved) : c + (j + k) ≤ .reserved :=
      (Nat.add_le_add_left (Nat.add_le_add_left (Nat.le_add_right k k') j) c).trans hk
    have hfirst := h.alone hp hc ht (hk.imp hle hle)
    rw [hfirst.count, ← Nat.add_assoc j, ← Nat.add_assoc j] at hk
    have hlater := ih (h.next hc hapt hfirst) hrest haprest hk
    refine ⟨?_, ?_, ?_, fun p => ?_, ?_⟩
    · rw [visitsOfItems, taken_append, List.length_append, hfirst.count, hlater.count, Pos.extent_cons]
    · rw [Pos.extent_cons, ← Nat.add_assoc j]
      exact hlater.bound
    · change (walk pure t s).1 :: (walkItems pure rest (walk pure t s).2).1 = _
      rw [hfirst.output, hlater.outputs, Pos.lay, List.map_cons, Nat.add_assoc]
    · change p ∈ (walkItems pure rest (walk pure t s).2).2.marked ↔ _
      rw [hlater.marked, hfirst.marked, List.flatMap_cons, List.mem_append, List.mem_append]
      exact or_left_comm.trans or_assoc.symm
    · rw [Pos.extent_cons, ← Nat.add_assoc j]
      exact hlater.passed

end Marking
end PureCalls
