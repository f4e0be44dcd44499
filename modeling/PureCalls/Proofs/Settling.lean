import PureCalls.Proofs.Exactness
import PureCalls.Proofs.Parentheses

/-! What a walk makes of a tree. Where no two pure calls share a place, the walk puts each pure call that it moves into
parentheses, at the position that it moves to, and does nothing else. -/
namespace PureCalls
open PureCalls.Tree Marking
namespace Tree
variable {pure : Tree → Bool}

/-- The position that a pure call has been moved to. -/
def movedBy (pure : Tree → Bool) (moved : List (Pos × Pos)) (n : Tree) : Option Pos :=
  if n.callsPure pure then moved.lookup n.start else none

private theorem movedBy_append (moved moved' : List (Pos × Pos)) (n : Tree) :
    movedBy pure (moved ++ moved') n = (movedBy pure moved n).or (movedBy pure moved' n) := by
  unfold movedBy
  split
  · exact List.lookup_append
  · rfl

theorem movedBy_eq_some {moved : List (Pos × Pos)} {n : Tree} {q : Pos} (h : movedBy pure moved n = some q) :
    n.callsPure pure = true ∧ (n.start, q) ∈ moved := by
  unfold movedBy at h
  split at h
  next hn =>
    obtain ⟨before, after, rfl, -⟩ := List.lookup_eq_some_iff.mp h
    exact ⟨hn, by simp⟩
  next => cases h

theorem movedBy_isSome_iff {moved : List (Pos × Pos)} {n : Tree} :
    (movedBy pure moved n).isSome = true ↔ n.callsPure pure = true ∧ n.start ∈ moved.map Prod.fst := by
  unfold movedBy
  split
  next hn => simp [hn, List.lookup_isSome_iff]
  next hn => simp [hn]

theorem movedBy_onlyCalls (pure : Tree → Bool) (moved : List (Pos × Pos)) : OnlyCalls (movedBy pure moved) := by
  intro n hn
  obtain ⟨kind, span, fields, hk, rfl⟩ := isCall_of_callsPure (movedBy_isSome_iff.mp hn).1
  exact hk

/-- Whether no two pure calls start at one place where marks can be put. -/
def PureApart (pure : Tree → Bool) (ns : List Tree) : Prop :=
  ns.Pairwise fun n m => n.callsPure pure = true → m.callsPure pure = true → n.start = m.start →
    n.start = .dummy ∨ n.start = .reserved

/-- A call stays if nothing is moved but pure calls that start elsewhere. -/
theorem movedBy_eq_none {ns ms : List Tree} {moved : List (Pos × Pos)} {n : Tree} (hr : Relocated pure ns ms moved)
    (hplaces : ∀ p ∈ moved.map Prod.fst, p ≠ .dummy ∧ p ≠ .reserved)
    (h : ∀ m ∈ ns, m.callsPure pure = true → n.callsPure pure = true → m.start = n.start →
      m.start = .dummy ∨ m.start = .reserved) : movedBy pure moved n = none := by
  by_contra hne
  obtain ⟨hn, hmem⟩ := movedBy_isSome_iff.mp (Option.isSome_iff_ne_none.mpr hne)
  obtain ⟨m, hm, hstart, hpure⟩ := hr.called hmem
  obtain ⟨hdummy, hreserved⟩ := hplaces _ hmem
  rcases h m hm hpure hn hstart with h0 | h0
  · exact hdummy (hstart ▸ h0)
  · exact hreserved (hstart ▸ h0)

end Tree

namespace Placed
variable {pure : Tree → Bool} {c : Pos} {program : Tree}

theorem pureApart (hp : Nominal pure) (h : Placed c program) : PureApart pure program.reached := by
  refine (List.pairwise_filter.mp h.shared).imp fun {n m} hshared hn hm hstart => ?_
  rcases hshared (isSite_of_callsPure hn) (isSite_of_callsPure hm) hstart with h0 | h0 | hbegins
  · exact Or.inl h0
  · exact Or.inr h0
  · exact absurd hbegins (Callee.not_begins_or hp hn hm)

end Placed

namespace Marking
variable {pure : Tree → Bool} {c : Pos}

/-- Whether the visits move pure calls only, and away from places where marks can be put. -/
def Settles (pure : Tree → Bool) (c : Pos) (vs : List Visit) : Prop :=
  ∀ v ∈ vs, v.MovesPure pure c ∧ (v.change pure = .release → v.start ≠ .dummy ∧ v.start ≠ .reserved)

private theorem Settles.append_iff {vs ws : List Visit} :
    Settles pure c (vs ++ ws) ↔ Settles pure c vs ∧ Settles pure c ws :=
  List.forall_mem_append

private theorem Settles.movesPure {vs : List Visit} (h : Settles pure c vs) : ∀ v ∈ vs, v.MovesPure pure c :=
  fun v hv => (h v hv).1

private theorem Settles.places {vs : List Visit} (h : Settles pure c vs) :
    ∀ p ∈ (moves pure vs).map Prod.fst, p ≠ .dummy ∧ p ≠ .reserved := by
  intro p hp
  obtain ⟨⟨p, q⟩, hmem, rfl⟩ := List.mem_map.mp hp
  obtain ⟨v, hv, hchange, rfl, -⟩ := mem_moves.mp hmem
  exact (h v hv).2 hchange

/-- A visit that moves a call puts it into parentheses, and any other visit nothing. -/
private theorem fieldsAfter_parenthesize (hp : Nominal pure) {fields : List (Field × Tree)} {vs : List Visit}
    {v : Visit} (hv : v.fields = parenthesizeFields (movedBy pure (moves pure vs)) fields)
    (hapart : PureApart pure (reachedOfFields fields)) (hs : Settles pure c (vs ++ [v])) :
    v.fieldsAfter pure = parenthesizeFields (movedBy pure (moves pure (vs ++ [v]))) fields := by
  have hcalls := movedBy_onlyCalls pure (moves pure vs)
  rw [moves_append]
  by_cases hchange : v.change pure = .release
  · obtain ⟨hmoves, hplace⟩ := (Settles.append_iff.mp hs).2 v List.mem_cons_self
    obtain ⟨-, -, hpure⟩ := hmoves hchange
    obtain ⟨hdummy, hreserved⟩ := hplace hchange
    obtain ⟨h, hfront, hstart, -⟩ := Visit.release_iff.mp hchange
    obtain ⟨f, hf, hhead⟩ := Visit.front?_eq_some.mp hfront
    have hafter : v.fieldsAfter pure = wrapAtOf v.before.fresh f v.fields := by simp [Visit.fieldsAfter, hchange, hf]
    have hmoved : moves pure [v] = [(v.start, v.before.fresh)] := by simp [moves, hchange]
    have hcall := hpure h hfront
    rw [hv] at hhead
    obtain ⟨n, -, hnone, -, rfl⟩ := headOf?_parenthesizeFields hhead
    -- The call in front has not been moved, and no other pure call stands where it does.
    have hlookup : (moves pure vs).lookup v.start = none := by
      have hn : movedBy pure (moves pure vs) n = (moves pure vs).lookup v.start := by
        rw [movedBy, ← callsPure_settle hp hcalls, if_pos hcall, hstart, start_settle hnone]
      exact hn.symm.trans hnone
    have hmore : OneMore (movedBy pure (moves pure vs)) (movedBy pure (moves pure vs ++ moves pure [v]))
        (fun n => n.callsPure pure = true ∧ n.start = v.start) v.before.fresh := by
      refine ⟨fun n hn => ?_, fun n hn => ?_, fun n hn => ?_, fun n hn hs => ?_⟩
      · simp [movedBy, hn.1, hn.2, List.lookup_append, hlookup, hmoved]
      · rw [movedBy_append, hmoved, Option.or_eq_left_of_none]
        unfold movedBy
        split
        next hcall' => exact List.lookup_eq_none_iff.mpr (by simpa [hcall'] using hn)
        next => rfl
      · obtain ⟨kind, span, fields, hk, rfl⟩ := isCall_of_callsPure hn.1
        exact hk
      · rwa [callsPure_settle hp hcalls, start_settle hn] at hs
    rw [hafter, hv]
    refine wrapAtOf_parenthesizeFields hmore hhead ⟨hcall, hstart.symm⟩ (hapart.imp fun {n m} hnm hn hm => ?_)
    rcases hnm hn.1 hm.1 (hn.2.trans hm.2.symm) with h0 | h0
    · exact hdummy (hn.2.symm.trans h0)
    · exact hreserved (hn.2.symm.trans h0)
  · have hnone : moves pure [v] = [] := by simp [moves, hchange]
    rcases v.fieldsAfter_eq pure with hafter | ⟨_, _, hrelease, _⟩
    · rw [hafter, hv, hnone, List.append_nil]
    · exact absurd hrelease hchange

/-- Calls elsewhere are not moved by what moves the sites of some nodes. -/
private theorem movedBy_between {ns ms : List Tree} {vs : List Visit} {rs : List Tree} (hs : Settles pure c vs)
    (hr : Relocated pure (ns.filter isSite) ms (moves pure vs))
    (h : ∀ m ∈ ns, ∀ n ∈ rs, m.callsPure pure = true → n.callsPure pure = true → m.start = n.start →
      m.start = .dummy ∨ m.start = .reserved) : ∀ n ∈ rs, movedBy pure (moves pure vs) n = none :=
  fun n hn => movedBy_eq_none hr hs.places fun m hm => h m (List.mem_of_mem_filter hm) n hn

mutual

/-- A walk puts each call that it moves into parentheses, at the position that it moves to, and does nothing else. -/
theorem walk_eq_parenthesize (hp : Nominal pure) : ∀ (t : Tree) (s : Marking),
    PureApart pure t.reached → Settles pure c (visits pure t s) →
      (walk pure t s).1 = parenthesize (movedBy pure (moves pure (visits pure t s))) t
  | .list items, s, hapart, hs => by
    rw [walk, parenthesize]
    exact congrArg Tree.list (walkItems_eq_parenthesize hp items s hapart hs)
  | .node kind span fields, s, hapart, hs => by
    cases hk : kind.isType with
    | true => rw [walk_type hk, parenthesize_type hk]
    | false =>
      rw [reached, hk, if_neg (by decide)] at hapart
      obtain ⟨hfields, -, hnode⟩ := List.pairwise_append.mp hapart
      rw [visits, hk, if_neg (by decide)] at hs ⊢
      obtain ⟨hvs, hv⟩ := Settles.append_iff.mp hs
      have hrest := walkFields_eq_parenthesize hp fields s hfields hvs
      have hafter := fieldsAfter_parenthesize hp (v := visitOf pure kind span fields s) hrest hfields hs
      have halike : Alike pure (.node kind span fields) (visitOf pure kind span fields s).node :=
        VisitedBy.alike hp ⟨kind, span, fields, s, hk, rfl, rfl⟩
      have hstays : movedBy pure (moves pure (visitsOfFields pure fields s)) (.node kind span fields) = none :=
        movedBy_between hvs (relocated_fields hp fields s hvs.movesPure) hnode _ List.mem_cons_self
      have hnot : movedBy pure (moves pure [visitOf pure kind span fields s]) (.node kind span fields) = none := by
        by_contra hne
        obtain ⟨hcall, hmem⟩ := movedBy_isSome_iff.mp (Option.isSome_iff_ne_none.mpr hne)
        by_cases hchange : (visitOf pure kind span fields s).change pure = .release
        · rw [← halike.callsPure, Visit.callsPure_of_release hp hchange] at hcall
          cases hcall
        · simp [moves, hchange] at hmem
      rw [walk_node hp hk, parenthesize_node hk, hafter]
      rw [moves_append, movedBy_append, hstays, hnot]
      rfl
  | .null, _, _, _ | .bool _, _, _, _ | .number _ _, _, _, _ | .text _, _, _, _ | .range _, _, _, _ => rfl

private theorem walkItems_eq_parenthesize (hp : Nominal pure) : ∀ (items : List Tree) (s : Marking),
    PureApart pure (reachedOfItems items) → Settles pure c (visitsOfItems pure items s) →
      (walkItems pure items s).1 = parenthesizeItems (movedBy pure (moves pure (visitsOfItems pure items s))) items
  | [], _, _, _ => rfl
  | t :: rest, s, hapart, hs => by
    obtain ⟨hat, harest, hbetween⟩ := List.pairwise_append.mp hapart
    rw [visitsOfItems] at hs ⊢
    obtain ⟨hst, hsrest⟩ := Settles.append_iff.mp hs
    have ht := movedBy_between hsrest (relocated_items hp rest _ hsrest.movesPure)
      fun m hm n hn hmcall hncall hstart => hstart ▸ hbetween n hn m hm hncall hmcall hstart.symm
    have hrest := movedBy_between hst (relocated_walk hp t s hst.movesPure) hbetween
    rw [moves_append, parenthesizeItems]
    refine congrArg₂ List.cons ?_ ?_
    · refine (walk_eq_parenthesize hp t s hat hst).trans (parenthesize_congr t fun n hn => ?_)
      rw [movedBy_append, ht n hn, Option.or_none]
    · refine (walkItems_eq_parenthesize hp rest _ harest hsrest).trans (parenthesizeItems_congr rest fun n hn => ?_)
      rw [movedBy_append, hrest n hn, Option.none_or]

private theorem walkFields_eq_parenthesize (hp : Nominal pure) : ∀ (fields : List (Field × Tree)) (s : Marking),
    PureApart pure (reachedOfFields fields) → Settles pure c (visitsOfFields pure fields s) →
      (walkFields pure fields s).1 =
        parenthesizeFields (movedBy pure (moves pure (visitsOfFields pure fields s))) fields
  | [], _, _, _ => rfl
  | (f, t) :: rest, s, hapart, hs => by
    obtain ⟨hat, harest, hbetween⟩ := List.pairwise_append.mp hapart
    rw [visitsOfFields] at hs ⊢
    obtain ⟨hst, hsrest⟩ := Settles.append_iff.mp hs
    have ht := movedBy_between hsrest (relocated_fields hp rest _ hsrest.movesPure)
      fun m hm n hn hmcall hncall hstart => hstart ▸ hbetween n hn m hm hncall hmcall hstart.symm
    have hrest := movedBy_between hst (relocated_walk hp t s hst.movesPure) hbetween
    rw [moves_append, parenthesizeFields]
    refine congrArg₂ (fun t rest => (f, t) :: rest) ?_ ?_
    · refine (walk_eq_parenthesize hp t s hat hst).trans (parenthesize_congr t fun n hn => ?_)
      rw [movedBy_append, ht n hn, Option.or_none]
    · refine (walkFields_eq_parenthesize hp rest _ harest hsrest).trans (parenthesizeFields_congr rest fun n hn => ?_)
      rw [movedBy_append, hrest n hn, Option.none_or]

end

end Marking
end PureCalls
