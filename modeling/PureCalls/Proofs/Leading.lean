import PureCalls.Proofs.Unchanged

/-! Expressions that begin with one another. Each is smaller than the one around it and left before it, and a walk
still finds the call in front of an expression when nothing that it stops at stands in between. -/
namespace PureCalls
open PureCalls.Tree Marking

theorem Kind.not_type_of_operand {kind : Kind} {f : Field} (h : operand? kind = some f) : kind.isType = false := by
  unfold operand? at h
  split at h
  next hk => exact hk ▸ rfl
  split at h
  next hk => exact hk ▸ rfl
  split at h
  next hk => exact hk ▸ rfl
  split at h
  next hk =>
    simp only [Bool.or_eq_true, decide_eq_true_eq] at hk
    rcases hk with (((hk | hk) | hk) | hk) | hk <;> exact hk ▸ rfl
  next => cases h

namespace Tree

/-- Whether a tree is a node that a walk enters. -/
def isEntered (t : Tree) : Bool :=
  t.kind?.any fun kind => !kind.isType

theorem isEntered_of_site {t : Tree} (h : t.isSite = true) : t.isEntered = true := by
  cases t with
  | node kind span fields =>
    simp only [isSite, kind?, Option.any_some, Kind.isSite, Bool.or_eq_true, decide_eq_true_eq] at h
    rcases h with ((rfl | rfl) | rfl) | rfl <;> rfl
  | _ => cases h

private theorem mem_reached {t : Tree} (h : t.isEntered = true) : t ∈ t.reached := by
  cases t with
  | node kind span fields =>
    have hk : kind.isType = false := by simpa [isEntered, kind?] using h
    simp [reached, hk]
  | _ => cases h

private theorem reached_lookup (f : Field) (fields : List (Field × Tree)) :
    (lookup f fields).reached ⊆ reachedOfFields fields := by
  induction fields with
  | nil => exact List.nil_subset _
  | cons entry fields ih =>
    obtain ⟨g, t⟩ := entry
    rw [lookup_cons, reachedOfFields]
    split
    · exact List.subset_append_left _ _
    · exact List.subset_append_of_subset_right _ ih

private theorem sizeOf_lookup_le (f : Field) (fields : List (Field × Tree)) : sizeOf (lookup f fields) ≤ sizeOf fields := by
  induction fields with
  | nil => simp
  | cons entry fields ih =>
    obtain ⟨g, t⟩ := entry
    rw [lookup_cons]
    split <;> simp only [List.cons.sizeOf_spec, Prod.mk.sizeOf_spec] <;> omega

/-- What an expression begins with is the value of one of its fields, or stands inside the base of a chain. -/
theorem leads_cases {t u : Tree} (h : t.LeadsTo u) : ∃ kind span fields, t = .node kind span fields ∧
    kind.isType = false ∧
      ((∃ f, u = lookup f fields ∧ kind ≠ .optionalChain ∧
          (opening? kind fields = some f ∨ t.isSite = false ∧ operand? kind = some f)) ∨
        kind = .optionalChain ∧ ∃ k span' fields' f, lookup .base fields = .node k span' fields' ∧
          (k = .member ∨ k = .optionalCall) ∧ operand? k = some f ∧ u = lookup f fields') := by
  cases t with
  | node kind span fields =>
    refine ⟨kind, span, fields, rfl, ?_⟩
    rw [LeadsTo, leading?] at h
    split at h
    next hk =>
      subst hk
      split at h
      next he => exact ⟨rfl, Or.inl ⟨.callee, by simpa [eq_comm] using h, by decide, Or.inl (by simp [opening?, he])⟩⟩
      next => simp at h
    split at h
    next hk =>
      subst hk
      exact ⟨rfl, Or.inl ⟨.tag, by simpa [eq_comm] using h, by decide, Or.inl (by simp +decide [opening?])⟩⟩
    split at h
    next hk =>
      subst hk
      refine ⟨rfl, Or.inr ⟨rfl, ?_⟩⟩
      unfold chained? at h
      split at h
      next hb =>
        cases hbase : lookup .base fields with
        | node k span' fields' =>
          rw [hbase] at h hb
          obtain ⟨f, hf, hu⟩ := Option.map_eq_some_iff.mp h
          exact ⟨k, span', fields', f, rfl, by simpa [isKind, kind?] using hb, hf, hu.symm⟩
        | _ => simp [hbase, operandOf?] at h
      next => simp at h
    split at h
    next => simp at h
    next hcall htag hchain hopt =>
      obtain ⟨f, hf, hu⟩ := Option.map_eq_some_iff.mp h
      have hnew : kind ≠ .newExpression := by
        rintro rfl
        simp +decide [operand?] at hf
      refine ⟨Kind.not_type_of_operand hf, Or.inl ⟨f, hu.symm, hchain, Or.inr ⟨?_, hf⟩⟩⟩
      simp [isSite, kind?, Kind.isSite, hcall, hnew, hchain, htag]
  | _ => cases h

private theorem sizeOf_leads {t u : Tree} (h : t.LeadsTo u) : sizeOf u < sizeOf t := by
  obtain ⟨kind, span, fields, rfl, -, ⟨f, rfl, -⟩ | ⟨-, k, span', fields', f, hbase, -, -, rfl⟩⟩ := leads_cases h
  · have hle := sizeOf_lookup_le f fields
    simp only [Tree.node.sizeOf_spec]
    omega
  · have hle := sizeOf_lookup_le f fields'
    have hle' := sizeOf_lookup_le .base fields
    rw [hbase] at hle'
    simp only [Tree.node.sizeOf_spec] at hle' ⊢
    omega

private theorem BeginsWith.sizeOf_lt {t u : Tree} (h : t.BeginsWith u) : sizeOf u < sizeOf t := by
  induction h with
  | single h => exact sizeOf_leads h
  | tail _ h ih => exact Nat.lt_trans (sizeOf_leads h) ih

theorem not_beginsWith_self (t : Tree) : ¬ t.BeginsWith t :=
  fun h => Nat.lt_irrefl _ h.sizeOf_lt

theorem isEntered_of_leads {t u : Tree} (h : t.LeadsTo u) : t.isEntered = true := by
  obtain ⟨kind, span, fields, rfl, hk, -⟩ := leads_cases h
  simp [isEntered, kind?, hk]

private theorem leads_mem {kind : Kind} {span : Option Span} {fields : List (Field × Tree)} {u : Tree}
    (h : (Tree.node kind span fields).LeadsTo u) (hu : u.isEntered = true) : u ∈ reachedOfFields fields := by
  obtain ⟨_, _, _, heq, -, ⟨f, rfl, -⟩ | ⟨-, k, span', fields', f, hbase, -, hf, rfl⟩⟩ := leads_cases h
  · cases heq
    exact reached_lookup f fields (mem_reached hu)
  · cases heq
    apply reached_lookup .base fields
    rw [hbase, reached, Kind.not_type_of_operand hf, if_neg (by decide)]
    exact List.mem_append_left _ (reached_lookup f fields' (mem_reached hu))

/-- Whether each node of a list comes behind the one that it begins with. -/
def LeftInside (ns : List Tree) : Prop :=
  ∀ before n after, ns = before ++ n :: after → ∀ u, n.LeadsTo u → u.isEntered = true → u ∈ before

private theorem LeftInside.append_of {ns ms : List Tree} (h : LeftInside ns)
    (h' : ∀ before n after, ms = before ++ n :: after → ∀ u, n.LeadsTo u → u.isEntered = true → u ∈ ns ++ before) :
    LeftInside (ns ++ ms) := by
  intro before n after heq u hu hentered
  rcases List.append_eq_append_iff.mp heq with ⟨rest, rfl, hms⟩ | ⟨rest, hns, hrest⟩
  · exact h' rest n after hms u hu hentered
  · cases rest with
    | nil =>
      have hmem := h' [] n after hrest.symm u hu hentered
      rwa [List.append_nil, hns, List.append_nil] at hmem
    | cons m rest =>
      obtain ⟨rfl, -⟩ := List.cons.inj hrest
      exact h before n rest hns u hu hentered

private theorem LeftInside.append {ns ms : List Tree} (h : LeftInside ns) (h' : LeftInside ms) : LeftInside (ns ++ ms) :=
  h.append_of fun before n after heq u hu hentered => List.mem_append_right _ (h' before n after heq u hu hentered)

private theorem LeftInside.concat {ns : List Tree} {n : Tree} (h : LeftInside ns)
    (hn : ∀ u, n.LeadsTo u → u.isEntered = true → u ∈ ns) : LeftInside (ns ++ [n]) := by
  refine h.append_of fun before m after heq u hu hentered => ?_
  cases before with
  | nil =>
    obtain ⟨rfl, -⟩ := List.cons.inj heq
    exact List.mem_append_left _ (hn u hu hentered)
  | cons m' before => simp at heq

mutual

/-- A walk leaves what an expression begins with before the expression. -/
theorem leftInside_reached : ∀ t : Tree, LeftInside t.reached
  | .list items => leftInside_items items
  | .node kind span fields => by
    rw [reached]
    split
    · simp [LeftInside]
    · exact (leftInside_fields fields).concat fun u hu hentered => leads_mem hu hentered
  | .null | .bool _ | .number _ _ | .text _ | .range _ => by simp [LeftInside, reached]

private theorem leftInside_items : ∀ items, LeftInside (reachedOfItems items)
  | [] => by simp [LeftInside, reachedOfItems]
  | t :: rest => (leftInside_reached t).append (leftInside_items rest)

private theorem leftInside_fields : ∀ fields, LeftInside (reachedOfFields fields)
  | [] => by simp [LeftInside, reachedOfFields]
  | (_, t) :: rest => (leftInside_reached t).append (leftInside_fields rest)

end

theorem LeftInside.beginsWith {ns before after : List Tree} {n u : Tree} (h : LeftInside ns)
    (hns : ns = before ++ n :: after) (hu : n.BeginsWith u) (hentered : u.isEntered = true) : u ∈ before := by
  induction hu with
  | single hu => exact h before n after hns _ hu hentered
  | @tail m u _ hu ih =>
    obtain ⟨before', rest, rfl⟩ := List.append_of_mem (ih (isEntered_of_leads hu))
    refine List.mem_append_left _ (h before' m (rest ++ n :: after) ?_ _ hu hentered)
    rw [hns, List.append_assoc, List.cons_append]

theorem isCall_of_callsPure {pure : Tree → Bool} {t : Tree} (h : t.callsPure pure = true) :
    ∃ kind span fields, (kind = .call || kind = .newExpression) = true ∧ t = .node kind span fields := by
  cases t with
  | node kind span fields =>
    refine ⟨kind, span, fields, ?_, rfl⟩
    by_contra hk
    have hnot : kind ≠ .call ∧ kind ≠ .newExpression := by simpa using hk
    simp [callsPure, callee?, hnot] at h
  | _ => cases h

theorem isSite_of_callsPure {pure : Tree → Bool} {t : Tree} (h : t.callsPure pure = true) : t.isSite = true := by
  obtain ⟨kind, span, fields, hk, rfl⟩ := isCall_of_callsPure h
  exact Kind.isSite_of_call hk

/-- What is reached with a site is reached with what the site begins with. -/
theorem mem_sites_of_beginsWith {program n m : Tree} (hn : n ∈ program.sites) (hnm : n.BeginsWith m)
    (hm : m.isSite = true) : m ∈ program.sites := by
  obtain ⟨before, after, hsplit⟩ := List.append_of_mem (List.mem_of_mem_filter hn)
  have hmem := (leftInside_reached program).beginsWith hsplit hnm (isEntered_of_site hm)
  exact List.mem_filter.mpr ⟨hsplit ▸ List.mem_append_left _ hmem, hm⟩

theorem opening?_of_site {kind : Kind} {span : Option Span} {fields : List (Field × Tree)} {f : Field}
    (h : opening? kind fields = some f) : (Tree.node kind span fields).isSite = true := by
  rcases Visit.opening_cases h with ⟨rfl, -⟩ | ⟨rfl, -⟩ | ⟨rfl, -⟩ <;> rfl

end Tree

namespace Callee
variable {pure : Tree → Bool}

/-- Nothing that a walk stops at stands in front of a pure call. -/
theorem not_beginsWith_site (hp : Nominal pure) {t u : Tree} (h : t.callsPure pure = true) (hu : u.isSite = true) :
    ¬ t.BeginsWith u := by
  intro hbegins
  obtain ⟨callee, hcallee, hrest⟩ := Relation.TransGen.head'_iff.mp hbegins
  obtain ⟨kind, span, fields, rfl, -, ⟨f, rfl, -, hf⟩ | ⟨rfl, -⟩⟩ := leads_cases hcallee
  · obtain hopening | ⟨hsite, -⟩ := hf
    · rcases Visit.opening_cases hopening with ⟨rfl, rfl, he⟩ | ⟨rfl, -⟩ | ⟨rfl, -⟩
      · have hpure : pure (lookup .callee fields) = true := by simpa [callsPure, callee?, he] using h
        rw [chain_not_site (hp.isSome hpure) hrest] at hu
        cases hu
      · simp +decide [callsPure, callee?] at h
      · simp +decide [callsPure, callee?] at h
    · rw [isSite_of_callsPure h] at hsite
      cases hsite
  · simp +decide [callsPure, callee?] at h

/-- Of two pure calls none begins with the other. -/
theorem not_begins_or (hp : Nominal pure) {t u : Tree} (ht : t.callsPure pure = true) (hu : u.callsPure pure = true) :
    ¬ (t.BeginsWith u ∨ u.BeginsWith t) := by
  rintro (htu | hut)
  · exact not_beginsWith_site hp ht (isSite_of_callsPure hu) htu
  · exact not_beginsWith_site hp hu (isSite_of_callsPure ht) hut

end Callee

namespace Marking
variable {pure : Tree → Bool}

private theorem walk_isSite_false (hp : Nominal pure) {kind : Kind} {span : Option Span} {fields : List (Field × Tree)}
    (hk : kind.isType = false) (h : (Tree.node kind span fields).isSite = false) (s : Marking) :
    (walk pure (.node kind span fields) s).1 = .node kind span (walkFields pure fields s).1 := by
  rw [walk_node hp hk]
  rcases (visitOf pure kind span fields s).fieldsAfter_eq pure with hf | ⟨f, hf, -⟩
  · rw [hf]
    rfl
  · have hsite : (visitOf pure kind span fields s).node.isSite = true := opening?_of_site hf
    exact absurd (h.symm.trans hsite) (by decide)

private theorem head?_walk_operand (hp : Nominal pure) {kind : Kind} {f : Field} (hf : operand? kind = some f)
    (hsite : kind.isSite = false) (span : Option Span) (fields : List (Field × Tree)) (s : Marking) :
    ∃ s', head? (walk pure (.node kind span fields) s).1 = head? (walk pure (lookup f fields) s').1 := by
  have hnot : ¬ (kind = .call || kind = .newExpression) = true := by
    intro hcall
    rw [Kind.isSite_of_call hcall] at hsite
    cases hsite
  obtain ⟨s', hlookup⟩ := lookup_walkFields pure fields s f
  refine ⟨s', ?_⟩
  rw [walk_isSite_false hp (Kind.not_type_of_operand hf) hsite, head?, if_neg hnot, hf]
  exact (headOf?_eq f _).trans (congrArg head? hlookup)

/-- A walk keeps a call in front of an expression in sight, if it stops nowhere in between. -/
theorem head?_walk (hp : Nominal pure) {t m : Tree} (h : Relation.ReflTransGen LeadsTo t m)
    (hplain : ∀ x, Relation.ReflTransGen LeadsTo t x → x.BeginsWith m → x.isSite = false)
    (hm : m.callsPure pure = true) (s : Marking) : ∃ s', head? (walk pure t s).1 = some (walk pure m s').1 := by
  induction h using Relation.ReflTransGen.head_induction_on generalizing s with
  | refl =>
    obtain ⟨kind, span, fields, hk, rfl⟩ := isCall_of_callsPure hm
    refine ⟨s, ?_⟩
    rw [walk_node hp (Kind.not_type_of_call hk), head?, if_pos hk]
  | @head t u hlead hrest ih =>
    have hsite : t.isSite = false := hplain t .refl (Relation.TransGen.head'_iff.mpr ⟨u, hlead, hrest⟩)
    obtain ⟨kind, span, fields, rfl, -, ⟨f, rfl, -, hf⟩ | ⟨rfl, -⟩⟩ := leads_cases hlead
    · obtain hopening | ⟨-, hoperand⟩ := hf
      · rw [opening?_of_site hopening] at hsite
        cases hsite
      · obtain ⟨s₁, hwalk⟩ := head?_walk_operand hp hoperand hsite span fields s
        obtain ⟨s₂, hhead⟩ := ih (fun x hx => hplain x (hx.head hlead)) s₁
        exact ⟨s₂, hwalk.trans hhead⟩
    · cases hsite

private theorem opening?_walkFields (hp : Nominal pure) (kind : Kind) (fields : List (Field × Tree)) (s : Marking) :
    opening? kind (walkFields pure fields s).1 = opening? kind fields := by
  have hw := Walked.of_lookup pure fields s .callee
  simp only [opening?, hasExpressionCallee, isKind, hw.kind hp]
  rfl

/-- When a walk leaves a site, the pure call that the site begins with stands in front of it. -/
theorem front?_visited (hp : Nominal pure) {n m : Tree} {v : Visit} (hv : VisitedBy pure n v) (hn : n.isSite = true)
    (h : n.BeginsWith m) (hplain : ∀ x, n.BeginsWith x → x.BeginsWith m → x.isSite = false)
    (hm : m.callsPure pure = true) : ∃ s, v.node.front? = some (walk pure m s).1 := by
  obtain ⟨kind, span, fields, s, -, rfl, rfl⟩ := hv
  obtain ⟨u, hlead, hrest⟩ := Relation.TransGen.head'_iff.mp h
  have hplain' (x : Tree) (hx : Relation.ReflTransGen LeadsTo u x) : x.BeginsWith m → x.isSite = false :=
    hplain x (Relation.TransGen.head'_iff.mpr ⟨u, hlead, hx⟩)
  have hfront {f : Field} (hf : opening? kind fields = some f) : ∃ s', (visitOf pure kind span fields s).node.front? =
      head? (walk pure (lookup f fields) s').1 := by
    obtain ⟨s', hlookup⟩ := lookup_walkFields pure fields s f
    refine ⟨s', ?_⟩
    simp only [Visit.node, visitOf, front?, opening?_walkFields hp, hf, Option.bind_some, headOf?_eq, hlookup]
  obtain ⟨_, _, _, heq, -, ⟨f, rfl, -, hf⟩ | ⟨rfl, k, span', fields', f, hbase, hk, hf, rfl⟩⟩ := leads_cases hlead
  · cases heq
    obtain hopening | ⟨hsite, -⟩ := hf
    · obtain ⟨s₁, hfront⟩ := hfront hopening
      obtain ⟨s₂, hhead⟩ := head?_walk hp hrest hplain' hm s₁
      exact ⟨s₂, hfront.trans hhead⟩
    · rw [hn] at hsite
      cases hsite
  · cases heq
    obtain ⟨s₁, hfront⟩ := hfront (f := .base) (by simp +decide [opening?])
    have hksite : k.isSite = false := by rcases hk with rfl | rfl <;> rfl
    rw [hbase] at hfront
    obtain ⟨s₂, hwalk⟩ := head?_walk_operand hp hf hksite span' fields' s₁
    obtain ⟨s₃, hhead⟩ := head?_walk hp hrest hplain' hm s₂
    exact ⟨s₃, hfront.trans (hwalk.trans hhead)⟩

end Marking
end PureCalls
