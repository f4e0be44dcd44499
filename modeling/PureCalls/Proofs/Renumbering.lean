import Mathlib.Data.Set.Function
import PureCalls.Proofs.Erasure
import PureCalls.Proofs.Parentheses

/-! Trees with other fresh positions. Two runs that take the same fresh positions in another order leave trees that
differ in the numbers of these positions only. -/
namespace PureCalls
open PureCalls.Tree Marking

/-- The span with a fresh position renumbered. A span that starts elsewhere stays. -/
def Span.renumber (fresh : Pos → Bool) (σ : Pos → Pos) (span : Span) : Span :=
  if fresh span.start then ⟨σ span.start, σ span.stop⟩ else span

namespace Tree

mutual

/-- The tree with the fresh positions renumbered at which nodes start. -/
def renumber (fresh : Pos → Bool) (σ : Pos → Pos) : Tree → Tree
  | .list items => .list (renumberItems fresh σ items)
  | .node kind span fields => .node kind (span.map (Span.renumber fresh σ)) (renumberFields fresh σ fields)
  | t => t

def renumberItems (fresh : Pos → Bool) (σ : Pos → Pos) : List Tree → List Tree
  | [] => []
  | t :: rest => renumber fresh σ t :: renumberItems fresh σ rest

def renumberFields (fresh : Pos → Bool) (σ : Pos → Pos) : List (Field × Tree) → List (Field × Tree)
  | [] => []
  | (f, t) :: rest => (f, renumber fresh σ t) :: renumberFields fresh σ rest

end

variable {fresh : Pos → Bool} {σ : Pos → Pos} {place : Tree → Option Pos}

theorem map_renumber_of_free {t : Tree} (h : ∀ span ∈ t.span?, fresh span.start = false) :
    t.span?.map (Span.renumber fresh σ) = t.span? := by
  cases hs : t.span? with
  | none => rfl
  | some span => simp [Span.renumber, h span hs]

mutual

/-- A tree without nodes at fresh positions stays. -/
theorem renumber_of_free : ∀ t : Tree, Free fresh t.nodes → renumber fresh σ t = t
  | .list items, h => congrArg Tree.list (renumberItems_of_free items h)
  | .node kind span fields, h => by
    obtain ⟨hfields, hnode⟩ := Free.append h
    have hspan : span.map (Span.renumber fresh σ) = span :=
      map_renumber_of_free (t := .node kind span fields) (hnode _ List.mem_cons_self)
    rw [renumber, renumberFields_of_free fields hfields, hspan]
  | .null, _ | .bool _, _ | .number _ _, _ | .text _, _ | .range _, _ => rfl

private theorem renumberItems_of_free : ∀ items : List Tree, Free fresh (nodesOfItems items) →
    renumberItems fresh σ items = items
  | [], _ => rfl
  | t :: rest, h => by
    obtain ⟨ht, hrest⟩ := Free.append h
    rw [renumberItems, renumber_of_free t ht, renumberItems_of_free rest hrest]

private theorem renumberFields_of_free : ∀ fields : List (Field × Tree), Free fresh (nodesOfFields fields) →
    renumberFields fresh σ fields = fields
  | [], _ => rfl
  | (f, t) :: rest, h => by
    obtain ⟨ht, hrest⟩ := Free.append h
    rw [renumberFields, renumber_of_free t ht, renumberFields_of_free rest hrest]

end

mutual

theorem renumber_id : ∀ t : Tree, renumber fresh id t = t
  | .list items => congrArg Tree.list (renumberItems_id items)
  | .node kind span fields => by
    have hspan : span.map (Span.renumber fresh id) = span := by
      cases span with
      | some span =>
        rw [Option.map_some, Span.renumber]
        split <;> rfl
      | none => rfl
    rw [renumber, hspan, renumberFields_id fields]
  | .null | .bool _ | .number _ _ | .text _ | .range _ => rfl

private theorem renumberItems_id : ∀ items : List Tree, renumberItems fresh id items = items
  | [] => rfl
  | t :: rest => by rw [renumberItems, renumber_id t, renumberItems_id rest]

private theorem renumberFields_id : ∀ fields : List (Field × Tree), renumberFields fresh id fields = fields
  | [] => rfl
  | (f, t) :: rest => by rw [renumberFields, renumber_id t, renumberFields_id rest]

end

mutual

/-- Renumbering the positions of calls in parentheses renumbers what the calls are given. -/
theorem renumber_parenthesize : ∀ t : Tree, Free fresh t.nodes →
    (∀ n ∈ t.reached, ∀ q, place n = some q → fresh q = true) →
      renumber fresh σ (parenthesize place t) = parenthesize (fun n => (place n).map σ) t
  | .list items, hfree, h => congrArg Tree.list (renumberItems_parenthesizeItems items hfree h)
  | .node kind span fields, hfree, h => by
    cases hk : kind.isType with
    | true => rw [parenthesize_type hk, parenthesize_type hk, renumber_of_free _ hfree]
    | false =>
      obtain ⟨hfields, hnode⟩ := Free.append hfree
      rw [reached, hk, if_neg (by decide)] at h
      obtain ⟨hplaces, hplace⟩ := List.forall_mem_append.mp h
      have hspan : span.map (Span.renumber fresh σ) = span :=
        map_renumber_of_free (t := .node kind span fields) (hnode _ List.mem_cons_self)
      have hrest := renumberFields_parenthesizeFields fields hfields hplaces
      cases hq : place (.node kind span fields) with
      | some q =>
        have hfresh : fresh q = true := hplace _ List.mem_cons_self q hq
        rw [parenthesize_placed hk hq, parenthesize_placed hk (by rw [hq]; rfl), wrap, wrap, renumber, renumberFields,
          renumberFields, renumber, hspan, hrest]
        simp [Span.renumber, hfresh]
      | none =>
        rw [parenthesize_node hk hq, parenthesize_node hk (by rw [hq]; rfl), renumber, hspan, hrest]
  | .null, _, _ | .bool _, _, _ | .number _ _, _, _ | .text _, _, _ | .range _, _, _ => rfl

private theorem renumberItems_parenthesizeItems : ∀ items : List Tree, Free fresh (nodesOfItems items) →
    (∀ n ∈ reachedOfItems items, ∀ q, place n = some q → fresh q = true) →
      renumberItems fresh σ (parenthesizeItems place items) = parenthesizeItems (fun n => (place n).map σ) items
  | [], _, _ => rfl
  | t :: rest, hfree, h => by
    obtain ⟨ht, hrest⟩ := Free.append hfree
    obtain ⟨hpt, hprest⟩ := List.forall_mem_append.mp h
    rw [parenthesizeItems, renumberItems, renumber_parenthesize t ht hpt,
      renumberItems_parenthesizeItems rest hrest hprest, parenthesizeItems]

private theorem renumberFields_parenthesizeFields : ∀ fields : List (Field × Tree), Free fresh (nodesOfFields fields) →
    (∀ n ∈ reachedOfFields fields, ∀ q, place n = some q → fresh q = true) →
      renumberFields fresh σ (parenthesizeFields place fields) = parenthesizeFields (fun n => (place n).map σ) fields
  | [], _, _ => rfl
  | (f, t) :: rest, hfree, h => by
    obtain ⟨ht, hrest⟩ := Free.append hfree
    obtain ⟨hpt, hprest⟩ := List.forall_mem_append.mp h
    rw [parenthesizeFields, renumberFields, renumber_parenthesize t ht hpt,
      renumberFields_parenthesizeFields rest hrest hprest, parenthesizeFields]

end

private theorem lookup_renumberFields (f : Field) (fields : List (Field × Tree)) :
    lookup f (renumberFields fresh σ fields) = renumber fresh σ (lookup f fields) := by
  induction fields with
  | nil => rfl
  | cons entry fields ih =>
    obtain ⟨g, t⟩ := entry
    rw [renumberFields, lookup_cons, lookup_cons, ih]
    split <;> rfl

private theorem kind?_renumber (t : Tree) : (renumber fresh σ t).kind? = t.kind? := by
  cases t <;> rfl

private theorem text?_renumber (t : Tree) : (renumber fresh σ t).text? = t.text? := by
  cases t <;> rfl

private theorem integer?_renumber (t : Tree) : (renumber fresh σ t).integer? = t.integer? := by
  cases t <;> rfl

private theorem propertyName?_renumber (t : Tree) :
    Callee.propertyName? (renumber fresh σ t) = Callee.propertyName? t := by
  cases t with
  | node kind span fields =>
    rw [renumber, Callee.propertyName?_node, Callee.propertyName?_node, lookup_renumberFields, text?_renumber]
  | _ => rfl

private theorem ofTree_renumber (t : Tree) : Callee.ofTree (renumber fresh σ t) = Callee.ofTree t := by
  induction t using induction_lookup with
  | leaf t h => cases t <;> first | rfl | simp [kind?] at h
  | node kind span fields ih =>
    rw [renumber]
    by_cases hi : kind = .identifier
    · simp only [Callee.ofTree, hi, if_true, binding?_node, lookup_renumberFields, text?_renumber, integer?_renumber]
    by_cases hparen : kind = .paren
    · subst hparen
      rw [Callee.ofTree_paren, Callee.ofTree_paren, lookup_renumberFields, ih]
    by_cases hm : kind = .member
    · subst hm
      rw [Callee.ofTree_member, Callee.ofTree_member, lookup_renumberFields, lookup_renumberFields,
        propertyName?_renumber, ih]
    · rw [Callee.ofTree_other hi hparen hm, Callee.ofTree_other hi hparen hm]

private theorem hasExpressionCallee_renumberFields (fields : List (Field × Tree)) :
    hasExpressionCallee (renumberFields fresh σ fields) = hasExpressionCallee fields := by
  simp only [hasExpressionCallee, isKind, lookup_renumberFields, kind?_renumber]

theorem callsPure_renumber {pure : Tree → Bool} (hp : Nominal pure) (t : Tree) :
    (renumber fresh σ t).callsPure pure = t.callsPure pure := by
  cases t with
  | node kind span fields =>
    have hpure : pure (lookup .callee (renumberFields fresh σ fields)) = pure (lookup .callee fields) := by
      rw [lookup_renumberFields]
      exact hp.congr (ofTree_renumber _)
    simp only [renumber, callsPure, callee?, hasExpressionCallee_renumberFields]
    split
    · exact hpure
    · rfl
  | _ => rfl

/-- A node starts at a position that no span is moved to or from exactly if it does after the renumbering. -/
theorem start_renumber_iff {p : Pos} (h : ∀ span, (Span.renumber fresh σ span).start = p ↔ span.start = p) (t : Tree) :
    (renumber fresh σ t).start = p ↔ t.start = p := by
  cases t with
  | node kind span fields =>
    cases span with
    | some span => exact h span
    | none => rfl
  | _ => rfl

mutual

private theorem head?_renumber : ∀ t : Tree, head? (renumber fresh σ t) = (head? t).map (renumber fresh σ)
  | .node kind span fields => by
    rw [renumber, head?, head?]
    split
    · rfl
    · split
      next f _ => exact headOf?_renumberFields f fields
      next => rfl
  | .null | .bool _ | .number _ _ | .text _ | .range _ | .list _ => rfl

private theorem headOf?_renumberFields (f : Field) : ∀ fields : List (Field × Tree),
    headOf? f (renumberFields fresh σ fields) = (headOf? f fields).map (renumber fresh σ)
  | [] => rfl
  | (g, t) :: rest => by
    rw [renumberFields, headOf?, headOf?]
    split
    · exact head?_renumber t
    · exact headOf?_renumberFields f rest

end

mutual

private theorem renumber_wrapAt {q q' : Pos} (hq : Span.renumber fresh σ ⟨q, q⟩ = ⟨q', q'⟩) : ∀ t : Tree,
    renumber fresh σ (wrapAt q t) = wrapAt q' (renumber fresh σ t)
  | .node kind span fields => by
    rw [wrapAt, renumber, wrapAt]
    split
    · simp only [wrap, renumber, renumberFields, Option.map_some, hq]
    · split
      next f _ => rw [renumber, renumberFields_wrapAtOf hq f fields]
      next => rw [renumber]
  | .null | .bool _ | .number _ _ | .text _ | .range _ | .list _ => rfl

theorem renumberFields_wrapAtOf {q q' : Pos} (hq : Span.renumber fresh σ ⟨q, q⟩ = ⟨q', q'⟩) (f : Field) :
    ∀ fields : List (Field × Tree),
      renumberFields fresh σ (wrapAtOf q f fields) = wrapAtOf q' f (renumberFields fresh σ fields)
  | [] => rfl
  | (g, t) :: rest => by
    rw [renumberFields, wrapAtOf, wrapAtOf]
    split
    · rw [renumberFields, renumber_wrapAt hq t]
    · rw [renumberFields, renumberFields_wrapAtOf hq f rest]

end

theorem opening?_renumberFields (kind : Kind) (fields : List (Field × Tree)) :
    opening? kind (renumberFields fresh σ fields) = opening? kind fields := by
  simp only [opening?, hasExpressionCallee_renumberFields]

theorem front?_renumber (t : Tree) : (renumber fresh σ t).front? = t.front?.map (renumber fresh σ) := by
  cases t with
  | node kind span fields =>
    rw [renumber, front?, front?, opening?_renumberFields]
    cases opening? kind fields with
    | some f => exact headOf?_renumberFields f fields
    | none => rfl
  | _ => rfl

end Tree

/-- Whether the comments at fresh positions are those at the renumbered ones, and all others are the same. -/
structure Comments.Renumbered (fresh : Pos → Bool) (σ : Pos → Pos) (store store' : Comments) : Prop where
  moved (q : Pos) (hq : fresh q = true) : store'.get (σ q) = store.get q
  others (p : Pos) (hp : fresh p = false) : store'.get p = store.get p

/-- Whether programs and comments are the same but for the numbers of the `k` fresh positions from `c` on. -/
def SameUpToFresh (c : Pos) (k : Nat) (program program' : Tree) (store store' : Comments) : Prop :=
  ∃ σ, Set.BijOn σ {q | Pos.within c k q} {q | Pos.within c k q} ∧
    program' = program.renumber (Pos.within c k) σ ∧ store.Renumbered (Pos.within c k) σ store'

end PureCalls
