import Mathlib.Data.List.Perm.Basic
import PureCalls.Proofs.Unchanged

/-! A run only adds parentheses. Each pair stands around a call at a fresh position, the positions are used once and
in order, and without the pairs the program is the one that was given. -/
namespace PureCalls
open PureCalls.Tree Marking
namespace Tree

/-- The call inside parentheses that hold it at a fresh position, in the place of the parentheses. -/
def unwrapped? (fresh : Pos → Bool) : Tree → Option Tree
  | .node kind span [(f, .node inner (some place) fields)] =>
    if kind = .paren ∧ f = .expression ∧ (inner = .call ∨ inner = .newExpression) ∧ place.start = place.stop ∧
        fresh place.start then some (.node inner span fields)
    else none
  | _ => none

mutual

/-- The tree without the parentheses around calls at fresh positions. -/
def erase (fresh : Pos → Bool) : Tree → Tree
  | .list items => .list (eraseItems fresh items)
  | .node kind span fields =>
    (unwrapped? fresh (.node kind span (eraseFields fresh fields))).getD (.node kind span (eraseFields fresh fields))
  | t => t

def eraseItems (fresh : Pos → Bool) : List Tree → List Tree
  | [] => []
  | t :: rest => erase fresh t :: eraseItems fresh rest

def eraseFields (fresh : Pos → Bool) : List (Field × Tree) → List (Field × Tree)
  | [] => []
  | (f, t) :: rest => (f, erase fresh t) :: eraseFields fresh rest

end

/-- The parentheses in a tree around calls at fresh positions. -/
def wrappers (fresh : Pos → Bool) (t : Tree) : List Tree :=
  t.nodes.filter fun n => (unwrapped? fresh n).isSome

def wrappersOfItems (fresh : Pos → Bool) (items : List Tree) : List Tree :=
  (nodesOfItems items).filter fun n => (unwrapped? fresh n).isSome

def wrappersOfFields (fresh : Pos → Bool) (fields : List (Field × Tree)) : List Tree :=
  (nodesOfFields fields).filter fun n => (unwrapped? fresh n).isSome

/-- Whether no node of a list starts at a fresh position. -/
def Free (fresh : Pos → Bool) (nodes : List Tree) : Prop :=
  ∀ n ∈ nodes, ∀ span ∈ n.span?, fresh span.start = false

instance (fresh : Pos → Bool) (nodes : List Tree) : Decidable (Free fresh nodes) :=
  inferInstanceAs (Decidable (∀ n ∈ nodes, ∀ span ∈ n.span?, fresh span.start = false))

theorem Free.append {fresh : Pos → Bool} {ns ms : List Tree} (h : Free fresh (ns ++ ms)) :
    Free fresh ns ∧ Free fresh ms :=
  List.forall_mem_append.mp h

private theorem unwrapped?_wrap {fresh : Pos → Bool} {kind : Kind} {q : Pos}
    (hk : (kind = .call || kind = .newExpression) = true) (hq : fresh q = true) (span : Option Span)
    (fields : List (Field × Tree)) : unwrapped? fresh (wrap kind span fields q) = some (.node kind span fields) := by
  simp [unwrapped?, wrap, Kind.call_cases hk, hq]

private theorem unwrapped?_eq_none {kind : Kind} (hk : kind ≠ .paren) (fresh : Pos → Bool) (span : Option Span)
    (fields : List (Field × Tree)) : unwrapped? fresh (.node kind span fields) = none := by
  unfold unwrapped?
  split
  next h => cases h; simp [hk]
  next => rfl

private theorem not_paren {kind : Kind} (h : (kind = .call || kind = .newExpression) = true) : kind ≠ .paren := by
  rintro rfl
  exact absurd h (by decide)

private theorem operand_not_paren {kind : Kind} {f : Field} (h : operand? kind = some f) : kind ≠ .paren := by
  rintro rfl
  simp +decide [operand?] at h

private theorem erase_node {kind : Kind} (hk : kind ≠ .paren) (fresh : Pos → Bool) (span : Option Span)
    (fields : List (Field × Tree)) :
    erase fresh (.node kind span fields) = .node kind span (eraseFields fresh fields) := by
  rw [erase, unwrapped?_eq_none hk, Option.getD_none]

private theorem wrappers_node {fresh : Pos → Bool} {kind : Kind} {span : Option Span} {fields : List (Field × Tree)}
    (h : unwrapped? fresh (.node kind span fields) = none) :
    wrappers fresh (.node kind span fields) = wrappersOfFields fresh fields := by
  simp [wrappers, wrappersOfFields, nodes, h]

private theorem wrappersOfItems_cons (fresh : Pos → Bool) (t : Tree) (items : List Tree) :
    wrappersOfItems fresh (t :: items) = wrappers fresh t ++ wrappersOfItems fresh items := by
  rw [wrappersOfItems, nodesOfItems, List.filter_append]
  rfl

private theorem wrappersOfFields_cons (fresh : Pos → Bool) (f : Field) (t : Tree) (fields : List (Field × Tree)) :
    wrappersOfFields fresh ((f, t) :: fields) = wrappers fresh t ++ wrappersOfFields fresh fields := by
  rw [wrappersOfFields, nodesOfFields, List.filter_append]
  rfl

mutual

/-- Wrapping at a fresh position is undone. -/
theorem erase_wrapAt {fresh : Pos → Bool} {q : Pos} (hq : fresh q = true) :
    ∀ t, erase fresh (wrapAt q t) = erase fresh t
  | .node kind span fields => by
    rw [wrapAt]
    split
    next h =>
      have hinner : erase fresh (.node kind (some ⟨q, q⟩) fields) =
        .node kind (some ⟨q, q⟩) (eraseFields fresh fields) := erase_node (not_paren h) fresh _ fields
      have houter := unwrapped?_wrap h hq span (eraseFields fresh fields)
      rw [wrap] at houter ⊢
      rw [erase, eraseFields, eraseFields, hinner, houter, Option.getD_some, erase_node (not_paren h)]
    next =>
      split
      next f hf =>
        rw [erase_node (operand_not_paren hf), erase_node (operand_not_paren hf), eraseFields_wrapAtOf hq f fields]
      next => rfl
  | .null | .bool _ | .number _ _ | .text _ | .range _ | .list _ => rfl

private theorem eraseFields_wrapAtOf {fresh : Pos → Bool} {q : Pos} (hq : fresh q = true) (f : Field) :
    ∀ fields, eraseFields fresh (wrapAtOf q f fields) = eraseFields fresh fields
  | [] => rfl
  | (g, t) :: rest => by
    rw [wrapAtOf]
    split
    · rw [eraseFields, eraseFields, erase_wrapAt hq t]
    · rw [eraseFields, eraseFields, eraseFields_wrapAtOf hq f rest]

end

mutual

/-- Wrapping adds one pair of parentheses and changes no other. -/
theorem wrappers_wrapAt {fresh : Pos → Bool} {q : Pos} (hq : fresh q = true) {h : Tree} :
    ∀ t, head? t = some h → (wrappers fresh (wrapAt q t)).Perm (wrappers fresh t ++ [wrapAt q h])
  | .node kind span fields, hh => by
    rw [head?] at hh
    rw [wrapAt]
    split at hh
    next hk =>
      cases hh
      have hinner := unwrapped?_eq_none (not_paren hk) fresh (some ⟨q, q⟩) fields
      have houter := unwrapped?_eq_none (not_paren hk) fresh span fields
      have hwrap : (unwrapped? fresh (wrap kind span fields q)).isSome := by rw [unwrapped?_wrap hk hq]; rfl
      rw [if_pos hk, wrapAt, if_pos hk]
      rw [wrap] at hwrap ⊢
      simp [wrappers, nodes, nodesOfFields, hinner, houter, hwrap]
    next hk =>
      split at hh
      next f hf =>
        have hnone := unwrapped?_eq_none (operand_not_paren hf) fresh span
        rw [if_neg hk, wrappers_node (hnone _), wrappers_node (hnone _)]
        exact wrappers_wrapAtOf hq f fields hh
      next => simp at hh
  | .null, hh | .bool _, hh | .number _ _, hh | .text _, hh | .range _, hh | .list _, hh => by simp [head?] at hh

private theorem wrappers_wrapAtOf {fresh : Pos → Bool} {q : Pos} (hq : fresh q = true) (f : Field) {h : Tree} :
    ∀ fields, headOf? f fields = some h →
      (wrappersOfFields fresh (wrapAtOf q f fields)).Perm (wrappersOfFields fresh fields ++ [wrapAt q h])
  | [], hh => by simp [headOf?] at hh
  | (g, t) :: rest, hh => by
    rw [headOf?] at hh
    rw [wrapAtOf]
    split at hh
    next hg =>
      rw [if_pos hg, wrappersOfFields_cons, wrappersOfFields_cons, List.append_assoc]
      refine ((wrappers_wrapAt hq t hh).append_right _).trans ?_
      rw [List.append_assoc]
      exact List.perm_append_comm.append_left _
    next hg =>
      rw [if_neg hg, wrappersOfFields_cons, wrappersOfFields_cons, List.append_assoc]
      exact (wrappers_wrapAtOf hq f rest hh).append_left _

end

private theorem mem_nodes {t : Tree} {span : Span} (h : t.span? = some span) : t ∈ t.nodes := by
  cases t with
  | node kind span fields => simp [nodes]
  | _ => cases h

/-- What counts as a pair of added parentheses. -/
theorem unwrapped?_eq_some {fresh : Pos → Bool} {kind : Kind} {span : Option Span} {fields : List (Field × Tree)}
    {u : Tree} (h : unwrapped? fresh (.node kind span fields) = some u) :
    kind = .paren ∧ ∃ inner place inside, fields = [(.expression, .node inner (some place) inside)] ∧
      (inner = .call ∨ inner = .newExpression) ∧ fresh place.start = true ∧ u = .node inner span inside := by
  unfold unwrapped? at h
  split at h
  next heq =>
    cases heq
    split at h
    next hc =>
      obtain ⟨hk, rfl, hinner, -, hfresh⟩ := hc
      exact ⟨hk, _, _, _, rfl, hinner, hfresh, (Option.some.inj h).symm⟩
    next => simp at h
  next => simp at h

private theorem unwrapped?_of_free {fresh : Pos → Bool} {fields : List (Field × Tree)}
    (h : Free fresh (nodesOfFields fields)) (kind : Kind) (span : Option Span) :
    unwrapped? fresh (.node kind span fields) = none := by
  by_contra hn
  obtain ⟨u, hu⟩ := Option.ne_none_iff_exists'.mp hn
  obtain ⟨-, inner, place, inside, rfl, -, hfresh, -⟩ := unwrapped?_eq_some hu
  have hplace := h (.node inner (some place) inside) (by simp [nodesOfFields, nodes]) place rfl
  simp [hplace] at hfresh

mutual

private theorem erase_of_free {fresh : Pos → Bool} : ∀ t, Free fresh t.nodes → erase fresh t = t
  | .list items, h => by rw [erase, eraseItems_of_free items h]
  | .node kind span fields, h => by
    have hfields := (Free.append h).1
    rw [erase, eraseFields_of_free fields hfields, unwrapped?_of_free hfields, Option.getD_none]
  | .null, _ | .bool _, _ | .number _ _, _ | .text _, _ | .range _, _ => rfl

private theorem eraseItems_of_free {fresh : Pos → Bool} :
    ∀ items, Free fresh (nodesOfItems items) → eraseItems fresh items = items
  | [], _ => rfl
  | t :: rest, h => by
    rw [eraseItems, erase_of_free t h.append.1, eraseItems_of_free rest h.append.2]

private theorem eraseFields_of_free {fresh : Pos → Bool} :
    ∀ fields, Free fresh (nodesOfFields fields) → eraseFields fresh fields = fields
  | [], _ => rfl
  | (f, t) :: rest, h => by
    rw [eraseFields, erase_of_free t h.append.1, eraseFields_of_free rest h.append.2]

end

mutual

private theorem wrappers_of_free {fresh : Pos → Bool} : ∀ t, Free fresh t.nodes → wrappers fresh t = []
  | .list items, h => wrappersOfItems_of_free items h
  | .node kind span fields, h => by
    have hfields := (Free.append h).1
    rw [wrappers_node (unwrapped?_of_free hfields kind span), wrappersOfFields_of_free fields hfields]
  | .null, _ | .bool _, _ | .number _ _, _ | .text _, _ | .range _, _ => rfl

private theorem wrappersOfItems_of_free {fresh : Pos → Bool} :
    ∀ items, Free fresh (nodesOfItems items) → wrappersOfItems fresh items = []
  | [], _ => rfl
  | t :: rest, h => by
    rw [wrappersOfItems_cons, wrappers_of_free t h.append.1, wrappersOfItems_of_free rest h.append.2, List.append_nil]

private theorem wrappersOfFields_of_free {fresh : Pos → Bool} :
    ∀ fields, Free fresh (nodesOfFields fields) → wrappersOfFields fresh fields = []
  | [], _ => rfl
  | (f, t) :: rest, h => by
    rw [wrappersOfFields_cons, wrappers_of_free t h.append.1, wrappersOfFields_of_free rest h.append.2, List.append_nil]

end

private theorem lookup_eraseFields (fresh : Pos → Bool) (f : Field) (fields : List (Field × Tree)) :
    lookup f (eraseFields fresh fields) = erase fresh (lookup f fields) := by
  induction fields with
  | nil => rfl
  | cons entry fields ih =>
    obtain ⟨g, t⟩ := entry
    rw [eraseFields, lookup_cons, lookup_cons, ih]
    split <;> rfl

/-- A call that is found in front of a tree is found without the parentheses too. -/
theorem head?_erase (fresh : Pos → Bool) {t h : Tree} (hh : head? t = some h) :
    head? (erase fresh t) = some (erase fresh h) := by
  induction t using induction_lookup with
  | leaf t hk =>
    cases t with
    | node => cases hk
    | _ => cases hh
  | node kind span fields ih =>
    rw [head?] at hh
    split at hh
    next hk =>
      cases hh
      rw [erase_node (not_paren hk), head?, if_pos hk]
    next hk =>
      split at hh
      next f hf =>
        rw [headOf?_eq] at hh
        rw [erase_node (operand_not_paren hf), head?, if_neg hk, hf]
        exact (headOf?_eq _ _).trans ((congrArg head? (lookup_eraseFields fresh f fields)).trans (ih f hh))
      next => simp at hh

private theorem isKind_erase {kind : Kind} (h : kind ≠ .call) (h' : kind ≠ .newExpression) (h'' : kind ≠ .paren)
    (fresh : Pos → Bool) (t : Tree) : (erase fresh t).isKind kind = t.isKind kind := by
  cases t with
  | node k span fields =>
    rw [erase]
    cases hu : unwrapped? fresh (.node k span (eraseFields fresh fields)) with
    | none => rfl
    | some u =>
      obtain ⟨rfl, inner, place, inside, -, hinner, -, rfl⟩ := unwrapped?_eq_some hu
      rcases hinner with rfl | rfl <;> simp [isKind, kind?, h.symm, h'.symm, h''.symm]
  | _ => rfl

private theorem front?_erase (fresh : Pos → Bool) {kind : Kind} {span : Option Span} {fields : List (Field × Tree)} {c : Tree}
    (h : (Tree.node kind span fields).front? = some c) :
    (Tree.node kind span (eraseFields fresh fields)).front? = some (erase fresh c) := by
  have hopening : opening? kind (eraseFields fresh fields) = opening? kind fields := by
    simp only [opening?, hasExpressionCallee, lookup_eraseFields]
    rw [isKind_erase (by decide) (by decide) (by decide), isKind_erase (by decide) (by decide) (by decide)]
    rfl
  obtain ⟨f, hf, hc⟩ := Option.bind_eq_some_iff.mp (show (opening? kind fields).bind _ = _ from h)
  rw [front?, hopening, hf, Option.bind_some, headOf?_eq, lookup_eraseFields]
  exact head?_erase fresh ((headOf?_eq f fields).symm.trans hc)

end Tree

namespace Marking
variable {pure : Tree → Bool} {fresh : Pos → Bool}

/-- Whether visits take only positions that count as fresh. -/
def TakesFresh (pure : Tree → Bool) (fresh : Pos → Bool) (vs : List Visit) : Prop :=
  ∀ q ∈ taken pure vs, fresh q = true

private theorem TakesFresh.append {vs ws : List Visit} (h : TakesFresh pure fresh (vs ++ ws)) :
    TakesFresh pure fresh vs ∧ TakesFresh pure fresh ws := by
  rw [TakesFresh, taken_append] at h
  exact List.forall_mem_append.mp h

private theorem TakesFresh.release {v : Visit} (h : TakesFresh pure fresh [v]) (hv : v.change pure = .release) :
    fresh v.before.fresh = true :=
  h _ (by simp [taken, hv])

private theorem erase_fieldsAfter {v : Visit} (h : TakesFresh pure fresh [v]) :
    eraseFields fresh (v.fieldsAfter pure) = eraseFields fresh v.fields := by
  rcases v.fieldsAfter_eq pure with hf | ⟨f, -, hv, hf⟩
  · rw [hf]
  · rw [hf, eraseFields_wrapAtOf (h.release hv)]

mutual

/-- A walk adds nothing but parentheses. -/
theorem erase_walk (hp : Nominal pure) : ∀ (t : Tree) (s : Marking), Free fresh t.nodes →
    TakesFresh pure fresh (visits pure t s) → erase fresh (walk pure t s).1 = t
  | .list items, s, hfree, hv => by
    rw [walk, erase, erase_walkItems hp items s hfree hv]
  | .node kind span fields, s, hfree, hv => by
    cases hk : kind.isType with
    | true => rw [walk_type hk, erase_of_free _ hfree]
    | false =>
      rw [visits, hk, if_neg (by decide)] at hv
      have hfields := (Free.append hfree).1
      have hwalk := erase_walkFields hp fields s hfields hv.append.1
      have hafter : eraseFields fresh ((visitOf pure kind span fields s).fieldsAfter pure) = fields :=
        (erase_fieldsAfter hv.append.2).trans hwalk
      rw [walk_node hp hk, erase, hafter, unwrapped?_of_free hfields, Option.getD_none]
  | .null, _, _, _ | .bool _, _, _, _ | .number _ _, _, _, _ | .text _, _, _, _ | .range _, _, _, _ => rfl

private theorem erase_walkItems (hp : Nominal pure) : ∀ (items : List Tree) (s : Marking),
    Free fresh (nodesOfItems items) → TakesFresh pure fresh (visitsOfItems pure items s) →
    eraseItems fresh (walkItems pure items s).1 = items
  | [], _, _, _ => rfl
  | t :: rest, s, hfree, hv => by
    rw [walkItems, eraseItems, erase_walk hp t s hfree.append.1 hv.append.1,
      erase_walkItems hp rest _ hfree.append.2 hv.append.2]

private theorem erase_walkFields (hp : Nominal pure) : ∀ (fields : List (Field × Tree)) (s : Marking),
    Free fresh (nodesOfFields fields) → TakesFresh pure fresh (visitsOfFields pure fields s) →
    eraseFields fresh (walkFields pure fields s).1 = fields
  | [], _, _, _ => rfl
  | (f, t) :: rest, s, hfree, hv => by
    rw [walkFields, eraseFields, erase_walk hp t s hfree.append.1 hv.append.1,
      erase_walkFields hp rest _ hfree.append.2 hv.append.2]

end

private theorem front_of_release {v : Visit} (h : v.change pure = .release) :
    ∃ f c, opening? v.kind v.fields = some f ∧ headOf? f v.fields = some c ∧ v.node.front? = some c ∧
      v.start = c.start := by
  obtain ⟨c, hc, hstart, -⟩ := Visit.release_iff.mp h
  obtain ⟨f, hf, hhead⟩ := Visit.front?_eq_some.mp hc
  exact ⟨f, c, hf, hhead, hc, hstart⟩

/-- A visit that takes a fresh position adds one pair of parentheses. -/
theorem wrappers_fieldsAfter {v : Visit} (h : TakesFresh pure fresh [v]) :
    (wrappersOfFields fresh (v.fieldsAfter pure)).Perm
      (wrappersOfFields fresh v.fields ++ (v.wrapped? pure).toList) := by
  by_cases hv : v.change pure = .release
  · obtain ⟨f, c, hf, hhead, hfront, -⟩ := front_of_release hv
    have hwrapped : v.wrapped? pure = some (wrapAt v.before.fresh c) := by simp [Visit.wrapped?, hv, hfront]
    have hafter : v.fieldsAfter pure = wrapAtOf v.before.fresh f v.fields := by simp [Visit.fieldsAfter, hv, hf]
    rw [hwrapped, hafter]
    exact wrappers_wrapAtOf (h.release hv) f v.fields hhead
  · have hwrapped : v.wrapped? pure = none := by simp [Visit.wrapped?, hv]
    rcases v.fieldsAfter_eq pure with hafter | ⟨_, _, hc, _⟩
    · rw [hwrapped, hafter]
      simp
    · exact absurd hc hv

/-- A node of the given program is not taken for a pair of parentheses that was added. -/
private theorem unwrapped?_walk (hp : Nominal pure) {fields : List (Field × Tree)}
    (hfree : Free fresh (nodesOfFields fields)) (kind : Kind) (span : Option Span) (s : Marking) :
    unwrapped? fresh (.node kind span ((visitOf pure kind span fields s).fieldsAfter pure)) = none := by
  by_contra hn
  obtain ⟨u, hu⟩ := Option.ne_none_iff_exists'.mp hn
  obtain ⟨hkind, inner, place, inside, hfields, -, hfresh, -⟩ := unwrapped?_eq_some hu
  have hafter : (visitOf pure kind span fields s).fieldsAfter pure = (walkFields pure fields s).1 := by
    rcases (visitOf pure kind span fields s).fieldsAfter_eq pure with h | ⟨g, hg, -, -⟩
    · exact h
    · rcases Visit.opening_cases hg with ⟨hk, -⟩ | ⟨hk, -⟩ | ⟨hk, -⟩ <;>
        exact absurd (hkind.symm.trans hk) (by decide)
  rw [hafter] at hfields
  cases fields with
  | nil => simp [walkFields] at hfields
  | cons entry rest =>
    obtain ⟨g, t⟩ := entry
    simp only [walkFields, List.cons.injEq, Prod.mk.injEq] at hfields
    have hspan := (Walked.of_walk t s).span hp
    rw [hfields.1.2] at hspan
    have hplace := hfree t (by simp [nodesOfFields, mem_nodes hspan.symm]) place hspan.symm
    simp [hplace] at hfresh

mutual

/-- The parentheses that a walk adds are those of its visits. -/
theorem wrappers_walk (hp : Nominal pure) : ∀ (t : Tree) (s : Marking), Free fresh t.nodes →
    TakesFresh pure fresh (visits pure t s) →
    (wrappers fresh (walk pure t s).1).Perm ((visits pure t s).filterMap (Visit.wrapped? pure))
  | .list items, s, hfree, hv => wrappers_walkItems hp items s hfree hv
  | .node kind span fields, s, hfree, hv => by
    cases hk : kind.isType with
    | true => rw [walk_type hk, visits, hk, if_pos rfl, wrappers_of_free _ hfree]; rfl
    | false =>
      rw [visits, hk, if_neg (by decide)] at hv ⊢
      have hfields := (Free.append hfree).1
      have hwalk := wrappers_walkFields hp fields s hfields hv.append.1
      have hvisit := wrappers_fieldsAfter hv.append.2
      have hnode := unwrapped?_walk hp hfields kind span s
      have hlast (v : Visit) : [v].filterMap (Visit.wrapped? pure) = (v.wrapped? pure).toList := by
        cases h : v.wrapped? pure <;> simp [h]
      rw [walk_node hp hk, wrappers_node hnode, List.filterMap_append, hlast]
      exact hvisit.trans (hwalk.append_right _)
  | .null, _, _, _ | .bool _, _, _, _ | .number _ _, _, _, _ | .text _, _, _, _ | .range _, _, _, _ => .nil

private theorem wrappers_walkItems (hp : Nominal pure) : ∀ (items : List Tree) (s : Marking),
    Free fresh (nodesOfItems items) → TakesFresh pure fresh (visitsOfItems pure items s) →
    (wrappersOfItems fresh (walkItems pure items s).1).Perm
      ((visitsOfItems pure items s).filterMap (Visit.wrapped? pure))
  | [], _, _, _ => .nil
  | t :: rest, s, hfree, hv => by
    rw [walkItems, wrappersOfItems_cons, visitsOfItems, List.filterMap_append]
    exact (wrappers_walk hp t s hfree.append.1 hv.append.1).append
      (wrappers_walkItems hp rest _ hfree.append.2 hv.append.2)

private theorem wrappers_walkFields (hp : Nominal pure) : ∀ (fields : List (Field × Tree)) (s : Marking),
    Free fresh (nodesOfFields fields) → TakesFresh pure fresh (visitsOfFields pure fields s) →
    (wrappersOfFields fresh (walkFields pure fields s).1).Perm
      ((visitsOfFields pure fields s).filterMap (Visit.wrapped? pure))
  | [], _, _, _ => .nil
  | (f, t) :: rest, s, hfree, hv => by
    rw [walkFields, wrappersOfFields_cons, visitsOfFields, List.filterMap_append]
    exact (wrappers_walk hp t s hfree.append.1 hv.append.1).append
      (wrappers_walkFields hp rest _ hfree.append.2 hv.append.2)

end

mutual

/-- The nodes that are visited are those of the given program, parentheses apart. -/
theorem visits_erase (hp : Nominal pure) : ∀ (t : Tree) (s : Marking), Free fresh t.nodes →
    TakesFresh pure fresh (visits pure t s) →
    List.Forall₂ (fun n v => n = .node v.kind v.span (eraseFields fresh v.fields)) t.reached (visits pure t s)
  | .list items, s, hfree, hv => visits_erase_items hp items s hfree hv
  | .node kind span fields, s, hfree, hv => by
    rw [reached, visits]
    split
    · exact .nil
    next hk =>
      rw [visits, if_neg hk] at hv
      have hfields := (Free.append hfree).1
      refine List.rel_append (visits_erase_fields hp fields s hfields hv.append.1) (.cons ?_ .nil)
      exact congrArg (Tree.node kind span) (erase_walkFields hp fields s hfields hv.append.1).symm
  | .null, _, _, _ | .bool _, _, _, _ | .number _ _, _, _, _ | .text _, _, _, _ | .range _, _, _, _ => .nil

private theorem visits_erase_items (hp : Nominal pure) : ∀ (items : List Tree) (s : Marking),
    Free fresh (nodesOfItems items) → TakesFresh pure fresh (visitsOfItems pure items s) →
    List.Forall₂ (fun n v => n = .node v.kind v.span (eraseFields fresh v.fields)) (reachedOfItems items)
      (visitsOfItems pure items s)
  | [], _, _, _ => .nil
  | t :: rest, s, hfree, hv => List.rel_append (visits_erase hp t s hfree.append.1 hv.append.1)
      (visits_erase_items hp rest _ hfree.append.2 hv.append.2)

private theorem visits_erase_fields (hp : Nominal pure) : ∀ (fields : List (Field × Tree)) (s : Marking),
    Free fresh (nodesOfFields fields) → TakesFresh pure fresh (visitsOfFields pure fields s) →
    List.Forall₂ (fun n v => n = .node v.kind v.span (eraseFields fresh v.fields)) (reachedOfFields fields)
      (visitsOfFields pure fields s)
  | [], _, _, _ => .nil
  | (_, t) :: rest, s, hfree, hv => List.rel_append (visits_erase hp t s hfree.append.1 hv.append.1)
      (visits_erase_fields hp rest _ hfree.append.2 hv.append.2)

end

/-- Whether a pair of parentheses was put around the call that stands in front of a node. -/
def WrapsFrontOf (fresh : Pos → Bool) (n u : Tree) : Prop :=
  n.front? = some (u.erase fresh) ∧ u.start = n.start

private theorem start_wrapAt (q : Pos) (t : Tree) : (wrapAt q t).start = t.start := by
  cases t with
  | node kind span fields =>
    rw [wrapAt]
    split
    · cases span <;> rfl
    · split
      · cases span <;> rfl
      · rfl
  | _ => rfl

private theorem wrapped?_eq_some {v : Visit} {u : Tree} (h : v.wrapped? pure = some u) :
    v.change pure = .release ∧ ∃ c, v.node.front? = some c ∧ v.start = c.start ∧ u = wrapAt v.before.fresh c := by
  unfold Visit.wrapped? at h
  split at h
  next hv =>
    obtain ⟨f, c, -, -, hc, hstart⟩ := front_of_release hv
    exact ⟨hv, c, hc, hstart, by simpa [hc, eq_comm] using h⟩
  next => simp at h

/-- The nodes whose visit releases a mark, of nodes with their visits. -/
def releasing (pure : Tree → Bool) (ns : List Tree) (vs : List Visit) : List Tree :=
  ((ns.zip vs).filter fun x => x.2.change pure = .release).map Prod.fst

private theorem releasing_sublist (pure : Tree → Bool) (ns : List Tree) (vs : List Visit) :
    (releasing pure ns vs).Sublist ns := by
  induction ns generalizing vs with
  | nil => exact .slnil
  | cons n ns ih =>
    cases vs with
    | nil => exact List.nil_sublist _
    | cons v vs =>
      rw [releasing, List.zip_cons_cons, List.filter_cons]
      split
      · exact (ih vs).cons_cons n
      · exact (ih vs).cons n

/-- Every pair of parentheses was put there by the visit of a node that releases a mark, in the order of the visits. -/
theorem wrapped_releasing {ns : List Tree} {vs : List Visit}
    (h : List.Forall₂ (fun n v => n = Tree.node v.kind v.span (eraseFields fresh v.fields)) ns vs)
    (hv : TakesFresh pure fresh vs) :
    List.Forall₂ (WrapsFrontOf fresh) (releasing pure ns vs) (vs.filterMap (Visit.wrapped? pure)) := by
  induction h with
  | nil => exact .nil
  | @cons n v ns vs hn _ ih =>
    have hv' : TakesFresh pure fresh ([v] ++ vs) := hv
    have hrest := ih hv'.append.2
    rw [releasing, List.zip_cons_cons, List.filter_cons]
    cases hu : v.wrapped? pure with
    | none =>
      have hkeep : v.change pure ≠ .release := by
        intro hrelease
        obtain ⟨c, hc, -⟩ := Visit.release_iff.mp hrelease
        simp [Visit.wrapped?, hrelease, hc] at hu
      rw [if_neg (by simpa using hkeep), List.filterMap_cons_none hu]
      exact hrest
    | some u =>
      obtain ⟨hrelease, c, hc, hstart, rfl⟩ := wrapped?_eq_some hu
      rw [if_pos (by simpa using hrelease), List.filterMap_cons_some hu]
      refine .cons ⟨?_, ?_⟩ hrest
      · rw [hn, front?_erase fresh hc, erase_wrapAt (hv'.append.1.release hrelease)]
      · rw [start_wrapAt, ← hstart, hn]
        cases hspan : v.span <;> simp [Visit.start, Visit.node, start, hspan]

theorem head?_isCall {t h : Tree} (hh : head? t = some h) :
    ∃ kind span fields, (kind = .call || kind = .newExpression) = true ∧ h = .node kind span fields := by
  induction t using induction_lookup with
  | leaf t hk =>
    cases t with
    | node => cases hk
    | _ => cases hh
  | node kind span fields ih =>
    rw [head?] at hh
    split at hh
    next hk => exact ⟨kind, span, fields, hk, by simpa [eq_comm] using hh⟩
    next =>
      split at hh
      next f hf => exact ih f ((headOf?_eq f fields).symm.trans hh)
      next => simp at hh

/-- The calls in the added parentheses stand at the positions that were taken, in their order. -/
theorem start_wrapped (vs : List Visit) :
    (vs.filterMap (Visit.wrapped? pure)).map (fun u => (u.field .expression).start) = taken pure vs := by
  induction vs with
  | nil => rfl
  | cons v vs ih =>
    by_cases hv : v.change pure = .release
    · obtain ⟨f, c, -, hhead, hc, -⟩ := front_of_release hv
      obtain ⟨kind, span, fields, hk, rfl⟩ := head?_isCall ((headOf?_eq f v.fields).symm.trans hhead)
      have hu : v.wrapped? pure = some (wrap kind span fields v.before.fresh) := by
        simp only [Visit.wrapped?, hv, hc, if_true, Option.map_some, wrapAt, hk]
      have htaken : taken pure (v :: vs) = v.before.fresh :: taken pure vs := by simp [taken, hv]
      rw [List.filterMap_cons_some hu, List.map_cons, ih, htaken]
      rfl
    · have hu : v.wrapped? pure = none := by simp [Visit.wrapped?, hv]
      have htaken : taken pure (v :: vs) = taken pure vs := by simp [taken, hv]
      rw [List.filterMap_cons_none hu, ih, htaken]

end Marking

/-- Whether a position is one of the `k` positions from `c` on. -/
def Pos.within (c : Pos) (k : Nat) (q : Pos) : Bool :=
  c ≤ q ∧ q < c + k

theorem Pos.within_iff {c q : Pos} {k : Nat} : Pos.within c k q = true ↔ c ≤ q ∧ q < c + k :=
  decide_eq_true_iff

/-- A tree in a text has no node at a fresh position. -/
theorem Tree.InText.free {t : Tree} (h : t.InText) {c : Pos} {k : Nat} (hc : .firstFresh ≤ c) (hk : c + k ≤ .reserved) :
    Free (Pos.within c k) t.nodes := by
  intro n hn span hspan
  have hstart : n.start = span.start := by
    cases n with
    | node kind span' fields => rw [show span' = some span from hspan]; rfl
    | _ => cases hspan
  simp only [Pos.within, decide_eq_false_iff_not, ← hstart]
  rcases h n hn with hlt | hreserved
  · exact fun hf => Nat.not_le.mpr (Nat.lt_of_lt_of_le hlt hc) hf.1
  · exact fun hf => Nat.not_lt.mpr hk (hreserved ▸ hf.2)

namespace Annotator

private theorem takesFresh_visits {w : Whitelist} {program : Tree} {comments : Comments} {c : Pos}
    (h : c + takes w program (start comments c) ≤ 4294967296) :
    TakesFresh (verdict w program) (Pos.within c (takes w program (start comments c)))
      (visits w program (start comments c)) := by
  intro q hq
  rw [(taken_visits w program comments h).1, List.mem_range'_1] at hq
  simpa [Pos.within] using hq

/-- Without the parentheses that a run adds the program is the one that was given. -/
theorem erase_visit {w : Whitelist} {program : Tree} {comments : Comments} {c : Pos}
    (h : c + takes w program (start comments c) ≤ 4294967296)
    (hfree : Free (Pos.within c (takes w program (start comments c))) program.nodes) :
    (visit w program (start comments c)).1.erase (Pos.within c (takes w program (start comments c))) = program := by
  have hfresh := takesFresh_visits h
  cases hw : walks w program with
  | false => rw [visit_of_not_walks hw, erase_of_free program hfree]
  | true =>
    rw [visits, hw, if_pos rfl] at hfresh
    rw [visit_of_walks hw]
    exact erase_walk (verdict_nominal w program) program _ hfree hfresh

/-- A run adds as many pairs of parentheses as it takes fresh positions. The calls in them stand at these positions,
which are numbered in the order in which the walk leaves the nodes that release the marks of the calls, and the rest of
the program is what it was. -/
theorem only_parentheses_added (w : Whitelist) (program : Tree) (comments : Comments) (c : Pos) :
    let k := takes w program (start comments c)
    let fresh := Pos.within c k
    let run := visit w program (start comments c)
    let vs := visits w program (start comments c)
    let causes := releasing (verdict w program) program.reached vs
    c + k ≤ 4294967296 → Free fresh program.nodes →
      run.1.erase fresh = program ∧ (c + k < 4294967296 → run.2.marking.fresh = c + k) ∧
      (∀ n v, (n, v) ∈ program.reached.zip vs → n = .node v.kind v.span (eraseFields fresh v.fields)) ∧
      ∃ pairs : List Tree, (run.1.wrappers fresh).Perm pairs ∧
        pairs.map (fun u => (u.field .expression).start) = List.range' c k ∧
        causes.Sublist program.reached ∧ List.Forall₂ (WrapsFrontOf fresh) causes pairs := by
  intro k fresh run vs causes hbound hfree
  have hp := verdict_nominal w program
  obtain ⟨hrange, hend⟩ := taken_visits w program comments hbound
  have hfresh := takesFresh_visits hbound
  have hsub : causes.Sublist program.reached := releasing_sublist _ _ _
  refine ⟨erase_visit hbound hfree, hend, ?_⟩
  cases hw : walks w program with
  | false =>
    have hvs : vs = [] := by simp [vs, visits, hw]
    have hk : k = 0 := by simp [k, takes, visits, hw, taken]
    have hrun : run = (program, start comments c) := visit_of_not_walks hw comments c
    have hcauses : causes = [] := by simp [causes, releasing, hvs]
    rw [hrun, hk, hvs, hcauses]
    refine ⟨by simp, [], ?_, rfl, List.nil_sublist _, .nil⟩
    rw [wrappers_of_free program hfree]
  | true =>
    have hvs : vs = Marking.visits (verdict w program) program ⟨comments, [], c⟩ := by
      simp only [vs, visits, hw, if_true]
      rfl
    rw [visits, hw, if_pos rfl] at hfresh hrange
    have hrun : run = _ := visit_of_walks hw (start comments c)
    have hnodes := visits_erase hp program ⟨comments, [], c⟩ hfree hfresh
    refine ⟨fun n v hmem => ?_, _, ?_, (start_wrapped _).trans hrange, hsub, ?_⟩
    · rw [hvs] at hmem
      exact List.forall₂_iff_zip.mp hnodes |>.2 hmem
    · rw [hrun]
      exact wrappers_walk hp program _ hfree hfresh
    · rw [show causes = releasing _ _ _ from congrArg (releasing _ program.reached) hvs]
      exact wrapped_releasing hnodes hfresh

/-- The call of `g` releases the mark in front of it. -/
theorem only_parentheses_added_chained :
    let run := visit .calledF .chained (start {} .firstFresh)
    run.1.erase (Pos.within .firstFresh 1) = .chained ∧ run.2.marking.fresh = .firstFresh + 1 ∧
      ∃ pairs : List Tree, (run.1.wrappers (Pos.within .firstFresh 1)).Perm pairs ∧
        List.Forall₂ (WrapsFrontOf (Pos.within .firstFresh 1)) [chained.call] pairs := by
  intro run
  have hk : takes .calledF .chained (start {} .firstFresh) = 1 := by decide
  have hcauses : releasing (verdict .calledF .chained) chained.reached (visits .calledF .chained (start {} .firstFresh)) =
      [chained.call] := by rfl
  obtain ⟨herase, hnext, -, pairs, hperm, -, -, hpairs⟩ :=
    only_parentheses_added .calledF .chained {} .firstFresh (by decide) (by decide)
  rw [hk] at herase hnext hperm hpairs
  rw [hcauses] at hpairs
  exact ⟨herase, hnext (by decide), pairs, hperm, hpairs⟩

end Annotator
end PureCalls
