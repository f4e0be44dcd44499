import Mathlib.Data.List.Perm.Basic
import PureCalls.Proofs.Leading

/-! Where the sites of a program stand after a walk. The walk keeps them in their order, and it moves the pure calls
that its visits release, each to the fresh position that the visit takes. -/
namespace PureCalls
open PureCalls.Tree Marking
namespace Tree
variable {pure : Tree → Bool}

def sitesOfItems (items : List Tree) : List Tree :=
  (reachedOfItems items).filter isSite

def sitesOfFields (fields : List (Field × Tree)) : List Tree :=
  (reachedOfFields fields).filter isSite

theorem sitesOfItems_cons (t : Tree) (items : List Tree) :
    sitesOfItems (t :: items) = t.sites ++ sitesOfItems items := by
  rw [sitesOfItems, reachedOfItems, List.filter_append]
  rfl

theorem sitesOfFields_cons (f : Field) (t : Tree) (fields : List (Field × Tree)) :
    sitesOfFields ((f, t) :: fields) = t.sites ++ sitesOfFields fields := by
  rw [sitesOfFields, reachedOfFields, List.filter_append]
  rfl

theorem sites_node {kind : Kind} (hk : kind.isType = false) (span : Option Span) (fields : List (Field × Tree)) :
    (Tree.node kind span fields).sites =
      sitesOfFields fields ++ if kind.isSite then [.node kind span fields] else [] := by
  rw [sites, reached, hk, if_neg (by decide), List.filter_append, List.filter_singleton]
  cases hs : kind.isSite <;> simp [sitesOfFields, isSite, kind?, hs]

/-- Whether a site may be another one after a walk: of the same kind and alike in what it calls, and in its place
unless it is a pure call. -/
structure Follows (pure : Tree → Bool) (n m : Tree) : Prop where
  kind : m.kind? = n.kind?
  callsPure : m.callsPure pure = n.callsPure pure
  start : m.start = n.start ∨ n.callsPure pure = true

private theorem Follows.trans_alike {n m m' : Tree} (h : Follows pure n m) (h' : Alike pure m m') : Follows pure n m' :=
  ⟨h'.kind.trans h.kind, h'.callsPure.trans h.callsPure, h.start.imp_left h'.start.trans⟩

/-- The call at a position of its own. -/
def movedTo (q : Pos) : Tree → Tree
  | .node kind _ fields => .node kind (some ⟨q, q⟩) fields
  | t => t

/-- The positions that differ between two lists of sites. -/
def shifts (ns ms : List Tree) : List (Pos × Pos) :=
  ((ns.map start).zip (ms.map start)).filter fun x => x.1 ≠ x.2

theorem shifts_append {ns ms : List Tree} (h : ns.length = ms.length) (ns' ms' : List Tree) :
    shifts (ns ++ ns') (ms ++ ms') = shifts ns ms ++ shifts ns' ms' := by
  rw [shifts, List.map_append, List.map_append, List.zip_append (by simpa using h), List.filter_append]
  rfl

theorem mem_shifts {ns ms : List Tree} {p q : Pos} :
    (p, q) ∈ shifts ns ms ↔ p ≠ q ∧ ∃ n m, (n, m) ∈ ns.zip ms ∧ n.start = p ∧ m.start = q := by
  rw [shifts, List.mem_filter, List.zip_map, List.mem_map]
  simp [and_comm]

/-- Sites before and after a walk, with the positions that have changed. -/
structure Relocated (pure : Tree → Bool) (ns ms : List Tree) (moved : List (Pos × Pos)) : Prop where
  follows : List.Forall₂ (Follows pure) ns ms
  perm : (shifts ns ms).Perm moved

namespace Relocated
variable {ns ms ns' ms' : List Tree} {moved moved' : List (Pos × Pos)}

private theorem nil : Relocated pure [] [] [] :=
  ⟨.nil, .nil⟩

private theorem append (h : Relocated pure ns ms moved) (h' : Relocated pure ns' ms' moved') :
    Relocated pure (ns ++ ns') (ms ++ ms') (moved ++ moved') := by
  refine ⟨List.rel_append h.follows h'.follows, ?_⟩
  rw [shifts_append h.follows.length_eq]
  exact h.perm.append h'.perm

private theorem of_alike (h : List.Forall₂ (Alike pure) ns ms) : Relocated pure ns ms [] := by
  induction h with
  | nil => exact nil
  | @cons n m ns ms hn _ ih =>
    refine ⟨.cons ⟨hn.kind, hn.callsPure, Or.inl hn.start⟩ ih.follows, ?_⟩
    have hkeep : shifts (n :: ns) (m :: ms) = shifts ns ms := by simp [shifts, hn.start]
    exact hkeep ▸ ih.perm

end Relocated

private theorem forall₂_split {R : Tree → Tree → Prop} {ns ms ms' : List Tree} {m : Tree}
    (h : List.Forall₂ R ns (ms ++ m :: ms')) : ∃ before n after, ns = before ++ n :: after ∧
      List.Forall₂ R before ms ∧ R n m ∧ List.Forall₂ R after ms' := by
  induction ms generalizing ns with
  | nil =>
    obtain ⟨n, after, hn, hafter, rfl⟩ := List.forall₂_cons_right_iff.mp h
    exact ⟨[], n, after, rfl, .nil, hn, hafter⟩
  | cons m' ms ih =>
    obtain ⟨n', rest, hn', hrest, rfl⟩ := List.forall₂_cons_right_iff.mp h
    obtain ⟨before, n, after, rfl, hbefore, hn, hafter⟩ := ih hrest
    exact ⟨n' :: before, n, after, rfl, .cons hn' hbefore, hn, hafter⟩

private theorem follows_alike {ns ms ms' : List Tree} (h : List.Forall₂ (Follows pure) ns ms)
    (h' : List.Forall₂ (Alike pure) ms ms') : List.Forall₂ (Follows pure) ns ms' := by
  induction h' generalizing ns with
  | nil => exact h
  | cons hm _ ih =>
    obtain ⟨n, ns, hn, hns, rfl⟩ := List.forall₂_cons_right_iff.mp h
    exact .cons (hn.trans_alike hm) (ih hns)

private theorem start_alike {ms ms' : List Tree} (h : List.Forall₂ (Alike pure) ms ms') :
    ms'.map start = ms.map start := by
  induction h with
  | nil => rfl
  | cons hm _ ih => rw [List.map_cons, List.map_cons, ih, hm.start]

/-- What has been moved is a pure call. -/
theorem Relocated.called {ns ms : List Tree} {moved : List (Pos × Pos)} (h : Relocated pure ns ms moved) {p : Pos}
    (hp : p ∈ moved.map Prod.fst) : ∃ n ∈ ns, n.start = p ∧ n.callsPure pure = true := by
  obtain ⟨⟨p, q⟩, hmem, rfl⟩ := List.mem_map.mp hp
  obtain ⟨hne, n, m, hz, rfl, rfl⟩ := mem_shifts.mp (h.perm.symm.subset hmem)
  exact ⟨n, (List.of_mem_zip hz).1, rfl, (List.forall₂_zip h.follows hz).start.resolve_left hne.symm⟩

/-- One more call is moved, and it was in its place before. -/
theorem Relocated.move {ns ms rest rest' : List Tree} {h : Tree} {q : Pos} {moved : List (Pos × Pos)}
    (hr : Relocated pure ns (ms ++ h :: rest) moved) (hrest : List.Forall₂ (Alike pure) rest rest')
    (hpure : h.callsPure pure = true) (hq : h.start ≠ q) (hfree : h.start ∉ moved.map Prod.snd) :
    Relocated pure ns (ms ++ h.movedTo q :: rest') (moved ++ [(h.start, q)]) := by
  obtain ⟨before, n, after, rfl, hbefore, hn, hafter⟩ := forall₂_split hr.follows
  obtain ⟨kind, span, fields, -, rfl⟩ := isCall_of_callsPure hpure
  generalize hh : Tree.node kind span fields = h at *
  have hstart' : (h.movedTo q).start = q := by rw [← hh]; rfl
  have hcall' : (h.movedTo q).callsPure pure = h.callsPure pure := by rw [← hh]; rfl
  have hkind' : (h.movedTo q).kind? = h.kind? := by rw [← hh]; rfl
  have hsplit (t : Tree) (ts : List Tree) : shifts (before ++ n :: after) (ms ++ t :: ts) =
      shifts before ms ++ (shifts [n] [t] ++ shifts after ts) := by
    have hone : [n].length = [t].length := rfl
    rw [shifts_append hbefore.length_eq]
    exact congrArg (shifts before ms ++ ·) (shifts_append hone after ts)
  have hperm := hr.perm
  rw [hsplit] at hperm
  have hstart : n.start = h.start := by
    by_contra hne
    have hmem : (n.start, h.start) ∈ moved := hperm.subset (by simp [shifts, hne])
    exact hfree (List.mem_map_of_mem hmem)
  have hkept : shifts [n] [h] = [] := by simp [shifts, hstart]
  have hmoved : shifts [n] [h.movedTo q] = [(h.start, q)] := by simp [shifts, hstart, hstart', hq]
  have hafter' : shifts after rest' = shifts after rest := by rw [shifts, start_alike hrest, shifts]
  refine ⟨List.rel_append hbefore (.cons ⟨hkind'.trans hn.kind, hcall'.trans hn.callsPure, ?_⟩
    (follows_alike hafter hrest)), ?_⟩
  · exact Or.inr (hn.callsPure.symm.trans hpure)
  · rw [hkept, List.nil_append] at hperm
    rw [hsplit, hmoved, hafter', List.singleton_append]
    exact List.perm_middle.trans ((hperm.cons _).trans (List.perm_append_singleton _ _).symm)

/-- How wrapping the call that a tree begins with changes the sites: the call is moved, and what is behind it is as
it was. -/
def WrapsSite (pure : Tree → Bool) (q : Pos) (h : Tree) (ns ms : List Tree) : Prop :=
  ∃ before after after', ns = before ++ h :: after ∧ ms = before ++ h.movedTo q :: after' ∧
    List.Forall₂ (Alike pure) after after'

private theorem WrapsSite.append {q : Pos} {h : Tree} {ns ms ns' ms' : List Tree} (hw : WrapsSite pure q h ns ms)
    (h' : List.Forall₂ (Alike pure) ns' ms') : WrapsSite pure q h (ns ++ ns') (ms ++ ms') := by
  obtain ⟨before, after, after', rfl, rfl, hafter⟩ := hw
  exact ⟨before, after ++ ns', after' ++ ms', by simp, by simp, List.rel_append hafter h'⟩

private theorem WrapsSite.append_left {q : Pos} {h : Tree} {ns ms : List Tree} (hw : WrapsSite pure q h ns ms)
    (ns' : List Tree) : WrapsSite pure q h (ns' ++ ns) (ns' ++ ms) := by
  obtain ⟨before, after, after', rfl, rfl, hafter⟩ := hw
  exact ⟨ns' ++ before, after, after', by simp, by simp, hafter⟩

private theorem alike_of_operand {kind : Kind} {f : Field} (hf : operand? kind = some f) (span : Option Span)
    (fields fields' : List (Field × Tree)) : Alike pure (.node kind span fields) (.node kind span fields') := by
  have hcall : kind ≠ .call ∧ kind ≠ .newExpression := by
    constructor <;> rintro rfl <;> simp +decide [operand?] at hf
  exact ⟨rfl, by cases span <;> rfl, by simp [callsPure, callee?, hcall]⟩

mutual

private theorem sites_wrapAt (pure : Tree → Bool) (q : Pos) {h : Tree} :
    ∀ t, head? t = some h → WrapsSite pure q h t.sites (wrapAt q t).sites
  | .node kind span fields, hh => by
    rw [head?] at hh
    rw [wrapAt]
    split at hh
    next hk =>
      cases hh
      have hsite := Kind.isSite_of_call hk
      have hnode := Kind.not_type_of_call hk
      have hparen : Kind.isType .paren = false ∧ Kind.isSite .paren = false := by decide
      rw [if_pos hk, wrap, sites_node hparen.1, sites_node hnode, sitesOfFields_cons, sites_node hnode]
      refine ⟨sitesOfFields fields, [], [], ?_, ?_, .nil⟩
      · rw [if_pos hsite]
      · simp [hsite, hparen.2, sitesOfFields, reachedOfFields, movedTo]
    next hk =>
      split at hh
      next f hf =>
        have hnode := Kind.not_type_of_operand hf
        rw [if_neg hk, sites_node hnode, sites_node hnode]
        refine (sites_wrapAtOf pure q f fields hh).append ?_
        split
        · exact .cons (alike_of_operand hf span _ _) .nil
        · exact .nil
      next => simp at hh
  | .null, hh | .bool _, hh | .number _ _, hh | .text _, hh | .range _, hh | .list _, hh => by simp [head?] at hh

private theorem sites_wrapAtOf (pure : Tree → Bool) (q : Pos) (f : Field) {h : Tree} :
    ∀ fields, headOf? f fields = some h →
      WrapsSite pure q h (sitesOfFields fields) (sitesOfFields (wrapAtOf q f fields))
  | [], hh => by simp [headOf?] at hh
  | (g, t) :: rest, hh => by
    rw [headOf?] at hh
    rw [wrapAtOf]
    split at hh
    next hg =>
      rw [if_pos hg, sitesOfFields_cons, sitesOfFields_cons]
      exact (sites_wrapAt pure q t hh).append (List.forall₂_same.mpr fun n _ => Alike.refl n)
    next hg =>
      rw [if_neg hg, sitesOfFields_cons, sitesOfFields_cons]
      exact (sites_wrapAtOf pure q f rest hh).append_left t.sites

end

end Tree

/-- Whether a visit moves a pure call only, and only from a position in the text to one of the fresh positions that
begin with `c`. -/
def Visit.MovesPure (pure : Tree → Bool) (c : Pos) (v : Visit) : Prop :=
  v.change pure = .release →
    v.start < c ∧ c ≤ v.before.fresh ∧ ∀ h, v.node.front? = some h → h.callsPure pure = true

namespace Marking
variable {pure : Tree → Bool} {c : Pos}

/-- The positions that visits move a mark from, each with the fresh position that it moves to. -/
def moves (pure : Tree → Bool) (vs : List Visit) : List (Pos × Pos) :=
  (vs.filter fun v => v.change pure = .release).map fun v => (v.start, v.before.fresh)

theorem moves_append (vs ws : List Visit) : moves pure (vs ++ ws) = moves pure vs ++ moves pure ws := by
  simp [moves]

theorem map_snd_moves (vs : List Visit) : (moves pure vs).map Prod.snd = taken pure vs := by
  simp [moves, taken, Function.comp_def]

theorem mem_moves {vs : List Visit} {p q : Pos} :
    (p, q) ∈ moves pure vs ↔ ∃ v ∈ vs, v.change pure = .release ∧ v.start = p ∧ v.before.fresh = q := by
  simp [moves, and_assoc]

private theorem fresh_moves {vs : List Visit} (h : ∀ v ∈ vs, v.MovesPure pure c) :
    ∀ q ∈ (moves pure vs).map Prod.snd, c ≤ q := by
  intro q hq
  obtain ⟨⟨p, _⟩, hmem, rfl⟩ := List.mem_map.mp hq
  obtain ⟨v, hv, hchange, -, rfl⟩ := mem_moves.mp hmem
  exact (h v hv hchange).2.1

/-- A visit moves the call that it wraps and no other site. -/
theorem relocated_visit {ns : List Tree} {vs : List Visit} {v : Visit}
    (hr : Relocated pure ns (sitesOfFields v.fields) (moves pure vs)) (hvs : ∀ w ∈ vs ++ [v], w.MovesPure pure c) :
    Relocated pure ns (sitesOfFields (v.fieldsAfter pure)) (moves pure (vs ++ [v])) := by
  obtain ⟨hvs, hv⟩ := List.forall_mem_append.mp hvs
  rw [moves_append]
  by_cases hchange : v.change pure = .release
  · obtain ⟨hstart, hfresh, hpure⟩ := hv v List.mem_cons_self hchange
    obtain ⟨h, hfront, hh, -⟩ := Visit.release_iff.mp hchange
    obtain ⟨f, hf, hhead⟩ := Visit.front?_eq_some.mp hfront
    have hafter : v.fieldsAfter pure = wrapAtOf v.before.fresh f v.fields := by simp [Visit.fieldsAfter, hchange, hf]
    have hmoves : moves pure [v] = [(h.start, v.before.fresh)] := by simp [moves, hchange, hh]
    obtain ⟨before, after, after', hbefore, hmoved, hrest⟩ := sites_wrapAtOf pure v.before.fresh f v.fields hhead
    have hlt : h.start < v.before.fresh := Nat.lt_of_lt_of_le (hh ▸ hstart) hfresh
    rw [hafter, hmoved, hmoves]
    rw [hbefore] at hr
    refine hr.move hrest (hpure h hfront) (Nat.ne_of_lt hlt) fun hmem => ?_
    exact Nat.not_lt.mpr (fresh_moves hvs _ hmem) (hh ▸ hstart)
  · have hmoves : moves pure [v] = [] := by simp [moves, hchange]
    rcases v.fieldsAfter_eq pure with hafter | ⟨_, _, hrelease, _⟩
    · rwa [hafter, hmoves, List.append_nil]
    · exact absurd hrelease hchange

mutual

/-- A walk keeps the sites in their order and in their places, apart from the pure calls that its visits move. -/
theorem relocated_walk (hp : Nominal pure) : ∀ (t : Tree) (s : Marking),
    (∀ v ∈ visits pure t s, v.MovesPure pure c) →
    Relocated pure t.sites (walk pure t s).1.sites (moves pure (visits pure t s))
  | .list items, s, h => relocated_items hp items s h
  | .node kind span fields, s, h => by
    cases hk : kind.isType with
    | true =>
      rw [walk_type hk, visits, hk, if_pos rfl]
      exact .of_alike (List.forall₂_same.mpr fun n _ => Alike.refl n)
    | false =>
      rw [visits, hk, if_neg (by decide)] at h ⊢
      have hfields := relocated_fields hp fields s (List.forall_mem_append.mp h).1
      have hnode := alike_walk hp hk span fields s
      have hrest := relocated_visit (v := visitOf pure kind span fields s) hfields h
      rw [walk_node hp hk] at hnode ⊢
      rw [sites_node hk, sites_node hk, ← List.append_nil (moves pure _)]
      refine hrest.append (.of_alike ?_)
      split
      · exact .cons hnode .nil
      · exact .nil
  | .null, _, _ | .bool _, _, _ | .number _ _, _, _ | .text _, _, _ | .range _, _, _ => .nil

theorem relocated_items (hp : Nominal pure) : ∀ (items : List Tree) (s : Marking),
    (∀ v ∈ visitsOfItems pure items s, v.MovesPure pure c) →
    Relocated pure (sitesOfItems items) (sitesOfItems (walkItems pure items s).1)
      (moves pure (visitsOfItems pure items s))
  | [], _, _ => .nil
  | t :: rest, s, h => by
    rw [visitsOfItems] at h ⊢
    obtain ⟨ht, hrest⟩ := List.forall_mem_append.mp h
    rw [walkItems, sitesOfItems_cons, sitesOfItems_cons, moves_append]
    exact (relocated_walk hp t s ht).append (relocated_items hp rest _ hrest)

theorem relocated_fields (hp : Nominal pure) : ∀ (fields : List (Field × Tree)) (s : Marking),
    (∀ v ∈ visitsOfFields pure fields s, v.MovesPure pure c) →
    Relocated pure (sitesOfFields fields) (sitesOfFields (walkFields pure fields s).1)
      (moves pure (visitsOfFields pure fields s))
  | [], _, _ => .nil
  | (f, t) :: rest, s, h => by
    rw [visitsOfFields] at h ⊢
    obtain ⟨ht, hrest⟩ := List.forall_mem_append.mp h
    rw [walkFields, sitesOfFields_cons, sitesOfFields_cons, moves_append]
    exact (relocated_walk hp t s ht).append (relocated_fields hp rest _ hrest)

end

end Marking
end PureCalls
