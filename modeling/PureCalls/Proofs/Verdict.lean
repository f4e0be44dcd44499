import PureCalls.Proofs.Reach

/-! Verdicts on callees. They rest on the binding and the path that a callee spells, which parentheses around a call
do not change, and a callee that spells something begins with no call. -/
namespace PureCalls
open PureCalls.Tree Marking
namespace Callee

private theorem ofField_eq (f : Field) (fields : List (Field × Tree)) : ofField f fields = ofTree (lookup f fields) := by
  induction fields with
  | nil => rfl
  | cons entry fields ih =>
    obtain ⟨g, t⟩ := entry
    rw [ofField, lookup_cons, ih]
    split <;> rfl

theorem ofTree_paren (span : Option Span) (fields : List (Field × Tree)) :
    ofTree (.node .paren span fields) = ofTree (lookup .expression fields) := by
  simp +decide [ofTree, ofField_eq]

theorem ofTree_member (span : Option Span) (fields : List (Field × Tree)) :
    ofTree (.node .member span fields) = (propertyName? (lookup .property fields)).bind fun name =>
      (ofTree (lookup .object fields)).map fun callee => { callee with path := callee.path ++ [name] } := by
  rw [ofTree, if_neg (by decide), if_neg (by decide), if_pos rfl, ofField_eq]
  cases propertyName? (lookup .property fields) <;> cases ofTree (lookup .object fields) <;> rfl

theorem ofTree_other {kind : Kind} (h : kind ≠ .identifier) (h' : kind ≠ .paren) (h'' : kind ≠ .member)
    (span : Option Span) (fields : List (Field × Tree)) : ofTree (.node kind span fields) = none := by
  simp [ofTree, h, h', h'']

private theorem kind_of_ofTree {kind : Kind} {span : Option Span} {fields : List (Field × Tree)}
    (h : (ofTree (.node kind span fields)).isSome) : kind = .identifier ∨ kind = .paren ∨ kind = .member := by
  by_contra hk
  push Not at hk
  simp [ofTree_other hk.1 hk.2.1 hk.2.2] at h

theorem ofTree_call {kind : Kind} (h : (kind = .call || kind = .newExpression) = true) (span : Option Span)
    (fields : List (Field × Tree)) : ofTree (.node kind span fields) = none := by
  rcases Kind.call_cases h with rfl | rfl
  · exact ofTree_other (by decide) (by decide) (by decide) span fields
  · exact ofTree_other (by decide) (by decide) (by decide) span fields

private theorem operand_member {kind : Kind} {f : Field} (h : operand? kind = some f)
    (hk : kind = .identifier ∨ kind = .paren ∨ kind = .member) : kind = .member ∧ f = .object := by
  rcases hk with rfl | rfl | rfl
  · simp +decide [operand?] at h
  · simp +decide [operand?] at h
  · exact ⟨rfl, by simpa [operand?, eq_comm] using h⟩

/-- A call spells nothing, in parentheses or not. -/
theorem ofTree_wrapAt (fresh : Pos) (t : Tree) : ofTree (wrapAt fresh t) = ofTree t := by
  induction t using induction_lookup with
  | leaf t h => cases t <;> first | rfl | simp [kind?] at h
  | node kind span fields ih =>
    rw [wrapAt]
    split
    next h =>
      rw [ofTree_call h, wrap, ofTree_paren]
      exact ofTree_call h _ _
    next h =>
      split
      next f hf =>
        by_cases hk : kind = .identifier ∨ kind = .paren ∨ kind = .member
        · obtain ⟨rfl, rfl⟩ := operand_member hf hk
          have hprop : lookup .property (wrapAtOf fresh .object fields) = lookup .property fields := by
            rw [lookup_wrapAtOf, if_neg (by decide)]
          have hobj : lookup .object (wrapAtOf fresh .object fields) = wrapAt fresh (lookup .object fields) := by
            rw [lookup_wrapAtOf, if_pos rfl]
          rw [ofTree_member, ofTree_member, hprop, hobj, ih]
        · push Not at hk
          rw [ofTree_other hk.1 hk.2.1 hk.2.2, ofTree_other hk.1 hk.2.1 hk.2.2]
      next => rfl

theorem head?_eq_none {t : Tree} (h : (ofTree t).isSome) : head? t = none := by
  induction t using induction_lookup with
  | leaf t h' => cases t <;> first | rfl | simp [kind?] at h'
  | node kind span fields ih =>
    have hk := kind_of_ofTree h
    rw [head?, if_neg]
    · split
      next f hf =>
        obtain ⟨rfl, rfl⟩ := operand_member hf hk
        rw [headOf?_eq]
        apply ih
        rw [ofTree_member] at h
        cases ho : ofTree (lookup .object fields) <;> simp_all
      next => rfl
    · intro hc
      simp [ofTree_call hc] at h

private theorem leading_isSome {t u : Tree} (h : (ofTree t).isSome) (hu : t.LeadsTo u) :
    (ofTree u).isSome := by
  cases t with
  | node kind span fields =>
    rcases kind_of_ofTree h with rfl | rfl | rfl
    · simp +decide [LeadsTo, leading?, operandOf?, operand?] at hu
    · simp +decide [LeadsTo, leading?, operandOf?, operand?] at hu
    · have hl : u = lookup .object fields := by
        simpa +decide [LeadsTo, leading?, operandOf?, operand?, eq_comm] using hu
      rw [ofTree_member] at h
      cases ho : ofTree (lookup .object fields) <;> simp_all
  | _ => simp [LeadsTo, leading?] at hu

private theorem not_site {t : Tree} (h : (ofTree t).isSome) : t.isSite = false := by
  cases t with
  | node kind span fields =>
    rcases kind_of_ofTree h with rfl | rfl | rfl <;> rfl
  | _ => rfl

/-- No call, optional chain or tagged template stands in front of a callee that spells something. -/
theorem chain_not_site {t u : Tree} (h : (ofTree t).isSome)
    (hu : Relation.ReflTransGen LeadsTo t u) : u.isSite = false := by
  apply not_site
  induction hu with
  | refl => exact h
  | tail _ hu ih => exact leading_isSome ih hu

end Callee

private theorem Imports.refersTo_nil (imports : Imports) (b : Binding) (source : String) :
    imports.refersTo b source [] = false := by
  unfold refersTo
  split
  next i _ => cases i.exported <;> simp
  next => rfl

/-- Without patterns or without imports no callee is pure. -/
theorem Callee.isAllowed_eq_false {w : Whitelist} {imports : Imports} (h : w.isEmpty = true ∨ imports = [])
    (callee : Callee) : callee.isAllowed w imports = false := by
  refine List.any_eq_false.mpr fun m hm => ?_
  rcases h with hempty | rfl
  · have hpatterns : m.2.isEmpty = true := List.all_eq_true.mp hempty m hm
    simp only [Patterns.isEmpty, Bool.and_eq_true, List.isEmpty_iff] at hpatterns
    simp [hpatterns, Imports.refersTo_nil]
  · simp [Imports.refersTo, Imports.find?]

/-- A verdict that rests on the binding and the path that a callee spells, and on nothing else. -/
def Nominal (pure : Tree → Bool) : Prop :=
  ∃ allowed : Callee → Bool, ∀ t, pure t = (Callee.ofTree t).any allowed

theorem isPure_nominal (w : Whitelist) (imports : Imports) : Nominal (isPure w imports) :=
  ⟨fun callee => callee.isAllowed w imports, fun t => by unfold isPure; cases Callee.ofTree t <;> rfl⟩

namespace Nominal
variable {pure : Tree → Bool} {t u : Tree}

theorem congr (hp : Nominal pure) (h : Callee.ofTree t = Callee.ofTree u) : pure t = pure u := by
  obtain ⟨allowed, hp⟩ := hp
  rw [hp, hp, h]

theorem isSome (hp : Nominal pure) (h : pure t = true) : (Callee.ofTree t).isSome := by
  obtain ⟨allowed, hp⟩ := hp
  rw [hp] at h
  cases ht : Callee.ofTree t <;> simp_all

theorem or {other : Tree → Bool} (hp : Nominal pure) (ho : Nominal other) :
    Nominal fun t => pure t || other t := by
  obtain ⟨allowed, hp⟩ := hp
  obtain ⟨allowed', ho⟩ := ho
  refine ⟨fun callee => allowed callee || allowed' callee, fun t => ?_⟩
  simp only [hp, ho]
  cases Callee.ofTree t <;> rfl

end Nominal
end PureCalls
