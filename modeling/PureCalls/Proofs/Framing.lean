import PureCalls.Proofs.Relocation

/-! Marked calls beside a tree. A walk asks which calls are marked only where a site of its tree starts, so calls that
are marked elsewhere neither change what it does nor are changed by it. -/
namespace PureCalls
open PureCalls.Tree Marking

/-- The marking with further calls marked. -/
def Marking.beside (s : Marking) (others : List Pos) : Marking :=
  { s with marked := s.marked ++ others }

private theorem Marking.apply_beside {s : Marking} {others : List Pos} {p : Pos} {change : Change}
    (h : change ≠ .keep → p ∉ others) : (s.beside others).apply p change = (s.apply p change).beside others := by
  cases change with
  | keep => rfl
  | mark =>
    have hp : p ∉ others := h (by decide)
    by_cases hm : p ∈ s.marked <;> simp [beside, apply, hm, hp]
  | release =>
    have hothers : others.filter (· ≠ p) = others := by
      refine List.filter_eq_self.mpr fun q hq => ?_
      have hne : q ≠ p := fun he => h (by decide) (he ▸ hq)
      simpa using hne
    simp only [beside, apply, release, List.filter_append, hothers]

namespace Visit
variable {pure : Tree → Bool} {v : Visit} {others : List Pos}

def beside (v : Visit) (others : List Pos) : Visit :=
  { v with before := v.before.beside others }

/-- Only a site is marked or released. -/
theorem isSite_of_change (hp : Nominal pure) (h : v.change pure ≠ .keep) : v.node.isSite = true := by
  cases hchange : v.change pure with
  | keep => exact absurd hchange h
  | mark => exact isSite_of_callsPure (Bool.and_eq_true_iff.mp ((change_eq_mark hp).mp hchange)).1
  | release =>
    obtain ⟨_, hfront, -⟩ := release_iff.mp hchange
    obtain ⟨f, hf, -⟩ := front?_eq_some.mp hfront
    exact opening?_of_site hf

theorem taken_of_not_site (hp : Nominal pure) (h : v.node.isSite = false) : taken pure [v] = [] := by
  have hchange : v.change pure ≠ .release := by
    intro hrelease
    rw [isSite_of_change hp (by rw [hrelease]; nofun)] at h
    cases h
  simp [taken, hchange]

private theorem change_beside (h : v.node.isSite = true → v.start ∉ others) :
    (v.beside others).change pure = v.change pure := by
  have hopens : (v.beside others).opens = v.opens := by
    rw [Bool.eq_iff_iff, opens_iff, opens_iff]
    refine exists_congr fun hd => and_congr_right fun hfront => and_congr_right fun _ => ?_
    obtain ⟨f, hf, -⟩ := front?_eq_some.mp hfront
    have hothers : v.start ∉ others := h (opening?_of_site hf)
    change v.start ∈ v.before.marked ++ others ↔ v.start ∈ v.before.marked
    rw [List.mem_append, or_iff_left hothers]
  rw [change, change, hopens]
  rfl

private theorem fieldsAfter_beside (h : v.node.isSite = true → v.start ∉ others) :
    (v.beside others).fieldsAfter pure = v.fieldsAfter pure := by
  rw [fieldsAfter, fieldsAfter, change_beside h]
  rfl

private theorem after_beside (hp : Nominal pure) (h : v.node.isSite = true → v.start ∉ others) :
    (v.beside others).after pure = (v.after pure).beside others := by
  rw [after_eq hp, after_eq hp, change_beside h]
  exact apply_beside fun hchange => h (isSite_of_change hp hchange)

private theorem taken_beside (h : v.node.isSite = true → v.start ∉ others) : taken pure [v.beside others] = taken pure [v] := by
  simp only [taken, List.filter_cons, change_beside h, List.filter_nil]
  split <;> rfl

end Visit

namespace Marking
variable {pure : Tree → Bool} {others : List Pos}

/-- Whether a walk does the same beside other marked calls: it leaves the same, and takes the same fresh positions. -/
structure Framed {α : Type} (pure : Tree → Bool) (others : List Pos) (x x' : α × Marking) (vs vs' : List Visit) : Prop
    where
  walk : x' = (x.1, x.2.beside others)
  taken : taken pure vs' = taken pure vs

mutual

/-- A walk does the same beside marked calls that start at none of its sites. -/
theorem walk_beside (hp : Nominal pure) : ∀ (t : Tree) (s : Marking), (∀ n ∈ t.sites, n.start ∉ others) →
    Framed pure others (walk pure t s) (walk pure t (s.beside others)) (visits pure t s)
      (visits pure t (s.beside others))
  | .list items, s, h => by
    have hitems := walkItems_beside hp items s h
    exact ⟨by rw [walk, walk, hitems.walk], hitems.taken⟩
  | .node kind span fields, s, h => by
    cases hk : kind.isType with
    | true =>
      rw [walk_type hk, walk_type hk, visits, visits, hk, if_pos rfl, if_pos rfl]
      exact ⟨rfl, rfl⟩
    | false =>
      rw [sites_node hk] at h
      obtain ⟨hsites, hnode⟩ := List.forall_mem_append.mp h
      have hfields := walkFields_beside hp fields s hsites
      have hvisit : visitOf pure kind span fields (s.beside others) = (visitOf pure kind span fields s).beside others := by
        rw [visitOf, hfields.walk]
        rfl
      have hv : (visitOf pure kind span fields s).node.isSite = true →
          (visitOf pure kind span fields s).start ∉ others := by
        intro hsite
        have hkind : kind.isSite = true := hsite
        rw [if_pos hkind] at hnode
        have hstart := hnode _ List.mem_cons_self
        cases span <;> exact hstart
      rw [walk_node hp hk, walk_node hp hk, visits, visits, hk, if_neg (by decide), if_neg (by decide), hvisit,
        Visit.fieldsAfter_beside hv, Visit.after_beside hp hv]
      exact ⟨rfl, by rw [taken_append, taken_append, hfields.taken, Visit.taken_beside hv]⟩
  | .null, _, _ | .bool _, _, _ | .number _ _, _, _ | .text _, _, _ | .range _, _, _ => ⟨rfl, rfl⟩

private theorem walkItems_beside (hp : Nominal pure) : ∀ (items : List Tree) (s : Marking),
    (∀ n ∈ sitesOfItems items, n.start ∉ others) →
      Framed pure others (walkItems pure items s) (walkItems pure items (s.beside others)) (visitsOfItems pure items s)
        (visitsOfItems pure items (s.beside others))
  | [], _, _ => ⟨rfl, rfl⟩
  | t :: rest, s, h => by
    rw [sitesOfItems_cons] at h
    obtain ⟨ht, hrest⟩ := List.forall_mem_append.mp h
    have hfirst := walk_beside hp t s ht
    have hlater := walkItems_beside hp rest (walk pure t s).2 hrest
    simp only [walkItems, visitsOfItems, hfirst.walk, hlater.walk]
    exact ⟨rfl, by rw [taken_append, taken_append, hfirst.taken, hlater.taken]⟩

private theorem walkFields_beside (hp : Nominal pure) : ∀ (fields : List (Field × Tree)) (s : Marking),
    (∀ n ∈ sitesOfFields fields, n.start ∉ others) →
      Framed pure others (walkFields pure fields s) (walkFields pure fields (s.beside others))
        (visitsOfFields pure fields s) (visitsOfFields pure fields (s.beside others))
  | [], _, _ => ⟨rfl, rfl⟩
  | (f, t) :: rest, s, h => by
    rw [sitesOfFields_cons] at h
    obtain ⟨ht, hrest⟩ := List.forall_mem_append.mp h
    have hfirst := walk_beside hp t s ht
    have hlater := walkFields_beside hp rest (walk pure t s).2 hrest
    simp only [walkFields, visitsOfFields, hfirst.walk, hlater.walk]
    exact ⟨rfl, by rw [taken_append, taken_append, hfirst.taken, hlater.taken]⟩

end

end Marking
end PureCalls
