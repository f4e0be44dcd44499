import PureCalls.Marking

/-! The call that an expression begins with. A walk finds it, tests where it starts, and may wrap it; here the three
are told apart, so that what happens to the tree does not depend on what happens to the marks. -/
namespace PureCalls
namespace Tree

@[simp] theorem lookup_nil (f : Field) : lookup f [] = .null := rfl

theorem lookup_cons (f g : Field) (t : Tree) (fields : List (Field × Tree)) :
    lookup f ((g, t) :: fields) = if g = f then t else lookup f fields := rfl

mutual

/-- Induction along the fields of nodes, for what does not look into lists. -/
theorem induction_lookup {motive : Tree → Prop} (leaf : ∀ t, t.kind? = none → motive t)
    (node : ∀ kind span fields, (∀ f, motive (lookup f fields)) → motive (.node kind span fields)) :
    ∀ t, motive t
  | .node kind span fields => node kind span fields (induction_lookup_field leaf node fields)
  | .null | .bool _ | .number _ _ | .text _ | .range _ | .list _ => leaf _ rfl

private theorem induction_lookup_field {motive : Tree → Prop} (leaf : ∀ t, t.kind? = none → motive t)
    (node : ∀ kind span fields, (∀ f, motive (lookup f fields)) → motive (.node kind span fields)) :
    ∀ (fields : List (Field × Tree)) (f : Field), motive (lookup f fields)
  | [], _ => leaf _ rfl
  | (g, t) :: rest, f => by
    rw [lookup_cons]
    split
    · exact induction_lookup leaf node t
    · exact induction_lookup_field leaf node rest f

end

end Tree

namespace Marking
open PureCalls.Tree

mutual

/-- The call or `new` expression that a tree begins with, if nothing but members, optional chains and types stand
behind it. -/
def head? : Tree → Option Tree
  | .node kind span fields =>
    if kind = .call || kind = .newExpression then some (.node kind span fields)
    else
      match operand? kind with
      | some f => headOf? f fields
      | none => none
  | _ => none

/-- The call that the value of a field begins with. -/
def headOf? (f : Field) : List (Field × Tree) → Option Tree
  | [] => none
  | (g, t) :: rest => if g = f then head? t else headOf? f rest

end

mutual

/-- The tree with the call that it begins with in parentheses. -/
def wrapAt (fresh : Pos) : Tree → Tree
  | .node kind span fields =>
    if kind = .call || kind = .newExpression then wrap kind span fields fresh
    else
      match operand? kind with
      | some f => .node kind span (wrapAtOf fresh f fields)
      | none => .node kind span fields
  | t => t

def wrapAtOf (fresh : Pos) (f : Field) : List (Field × Tree) → List (Field × Tree)
  | [] => []
  | (g, t) :: rest => if g = f then (g, wrapAt fresh t) :: rest else (g, t) :: wrapAtOf fresh f rest

end

theorem headOf?_eq (f : Field) (fields : List (Field × Tree)) : headOf? f fields = head? (lookup f fields) := by
  induction fields with
  | nil => rfl
  | cons entry fields ih =>
    obtain ⟨g, t⟩ := entry
    rw [headOf?, lookup_cons, ih]
    split <;> rfl

theorem lookup_wrapAtOf (fresh : Pos) (f g : Field) (fields : List (Field × Tree)) :
    lookup g (wrapAtOf fresh f fields) = if g = f then wrapAt fresh (lookup f fields) else lookup g fields := by
  induction fields with
  | nil => by_cases hg : g = f <;> simp [wrapAtOf, wrapAt, hg]
  | cons entry fields ih =>
    obtain ⟨k, t⟩ := entry
    rw [wrapAtOf]
    by_cases hk : k = f
    · subst hk
      by_cases hg : g = k
      · simp [lookup_cons, hg]
      · simp [lookup_cons, hg, Ne.symm hg]
    · rw [if_neg hk, lookup_cons, ih, lookup_cons, lookup_cons, if_neg hk]
      by_cases hg : g = f
      · simp [hg, hk]
      · simp [hg]

mutual

theorem wrapHead_eq (outer : Pos) : ∀ (t : Tree) (s : Marking),
    wrapHead outer t s =
      if (head? t).any (fun h => outer = h.start && s.marked.contains outer)
      then (wrapAt s.fresh t, s.release outer) else (t, s)
  | .node kind span fields, s => by
    rw [wrapHead, head?, wrapAt]
    by_cases hk : (kind = .call || kind = .newExpression) = true
    · simp only [hk, if_true, Option.any_some]
      by_cases ho : (Tree.node kind span fields).start = outer
      · simp [ho]
      · simp [ho, Ne.symm ho]
    · rw [if_neg hk, if_neg hk, if_neg hk]
      cases operand? kind with
      | none => rfl
      | some f =>
        simp only [wrapHeadOf_eq outer f fields s]
        split <;> rfl
  | .null, s | .bool _, s | .number _ _, s | .text _, s | .range _, s | .list _, s => rfl

theorem wrapHeadOf_eq (outer : Pos) (f : Field) : ∀ (fields : List (Field × Tree)) (s : Marking),
    wrapHeadOf outer f fields s =
      if (headOf? f fields).any (fun h => outer = h.start && s.marked.contains outer)
      then (wrapAtOf s.fresh f fields, s.release outer) else (fields, s)
  | [], s => rfl
  | (g, t) :: rest, s => by
    rw [wrapHeadOf, headOf?, wrapAtOf]
    by_cases hg : g = f
    · simp only [hg, if_true, wrapHead_eq outer t s]
      split <;> rfl
    · simp only [hg, if_false, wrapHeadOf_eq outer f rest s]
      split <;> rfl

end

end Marking
end PureCalls
