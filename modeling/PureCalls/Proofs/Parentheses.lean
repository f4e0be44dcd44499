import PureCalls.Proofs.Relocation

/-! Trees in which chosen calls are put into parentheses, each at a position of its own. What they spell, which sites
they have and what their expressions begin with is read off the tree without the parentheses. -/
namespace PureCalls
open PureCalls.Tree Marking
namespace Tree

/-- Whether a tree is a call or a `new` expression. -/
def isCall (t : Tree) : Bool :=
  t.kind?.any fun k => k = .call || k = .newExpression

mutual

/-- The tree with some of the nodes that a walk reaches in parentheses. Such a node stands inside at the position that
`place` gives it, and the parentheses stand where it stood. -/
def parenthesize (place : Tree → Option Pos) : Tree → Tree
  | .list items => .list (parenthesizeItems place items)
  | .node kind span fields =>
    if kind.isType then .node kind span fields
    else
      match place (.node kind span fields) with
      | some q => wrap kind span (parenthesizeFields place fields) q
      | none => .node kind span (parenthesizeFields place fields)
  | t => t

def parenthesizeItems (place : Tree → Option Pos) : List Tree → List Tree
  | [] => []
  | t :: rest => parenthesize place t :: parenthesizeItems place rest

def parenthesizeFields (place : Tree → Option Pos) : List (Field × Tree) → List (Field × Tree)
  | [] => []
  | (f, t) :: rest => (f, parenthesize place t) :: parenthesizeFields place rest

end

/-- A node at its position, with what is inside it in parentheses. -/
def settle (place : Tree → Option Pos) : Tree → Tree
  | .node kind span fields =>
    .node kind (((place (.node kind span fields)).map fun q => ⟨q, q⟩).or span) (parenthesizeFields place fields)
  | t => t

/-- Whether only calls are given positions. -/
def OnlyCalls (place : Tree → Option Pos) : Prop :=
  ∀ n, (place n).isSome = true → n.isCall = true

variable {place other : Tree → Option Pos}

theorem parenthesize_node {kind : Kind} {span : Option Span} {fields : List (Field × Tree)} (hk : kind.isType = false)
    (h : place (.node kind span fields) = none) :
    parenthesize place (.node kind span fields) = .node kind span (parenthesizeFields place fields) := by
  rw [parenthesize, hk, if_neg (by decide), h]

theorem parenthesize_placed {kind : Kind} {span : Option Span} {fields : List (Field × Tree)} {q : Pos}
    (hk : kind.isType = false) (h : place (.node kind span fields) = some q) :
    parenthesize place (.node kind span fields) = wrap kind span (parenthesizeFields place fields) q := by
  rw [parenthesize, hk, if_neg (by decide), h]

theorem parenthesize_type {kind : Kind} (hk : kind.isType = true) (span : Option Span)
    (fields : List (Field × Tree)) : parenthesize place (.node kind span fields) = .node kind span fields := by
  rw [parenthesize, hk, if_pos rfl]

private theorem OnlyCalls.kind_of_placed (h : OnlyCalls place) {kind : Kind} {span : Option Span} {fields : List (Field × Tree)}
    {q : Pos} (hq : place (.node kind span fields) = some q) : (kind = .call || kind = .newExpression) = true :=
  h _ (Option.isSome_iff_exists.mpr ⟨q, hq⟩)

theorem OnlyCalls.eq_none (h : OnlyCalls place) {n : Tree} (hn : n.isCall = false) : place n = none := by
  by_contra hs
  rw [h n (Option.isSome_iff_ne_none.mpr hs)] at hn
  cases hn

mutual

theorem parenthesize_congr : ∀ t : Tree, (∀ n ∈ t.reached, place n = other n) →
    parenthesize place t = parenthesize other t
  | .list items, h => by rw [parenthesize, parenthesize, parenthesizeItems_congr items h]
  | .node kind span fields, h => by
    cases hk : kind.isType with
    | true => rw [parenthesize_type hk, parenthesize_type hk]
    | false =>
      rw [reached, hk, if_neg (by decide)] at h
      obtain ⟨hfields, hnode⟩ := List.forall_mem_append.mp h
      rw [parenthesize, parenthesize, hnode _ List.mem_cons_self, parenthesizeFields_congr fields hfields]
  | .null, _ | .bool _, _ | .number _ _, _ | .text _, _ | .range _, _ => rfl

theorem parenthesizeItems_congr : ∀ items : List Tree, (∀ n ∈ reachedOfItems items, place n = other n) →
    parenthesizeItems place items = parenthesizeItems other items
  | [], _ => rfl
  | t :: rest, h => by
    obtain ⟨ht, hrest⟩ := List.forall_mem_append.mp h
    rw [parenthesizeItems, parenthesizeItems, parenthesize_congr t ht, parenthesizeItems_congr rest hrest]

theorem parenthesizeFields_congr : ∀ fields : List (Field × Tree), (∀ n ∈ reachedOfFields fields, place n = other n) →
    parenthesizeFields place fields = parenthesizeFields other fields
  | [], _ => rfl
  | (f, t) :: rest, h => by
    obtain ⟨ht, hrest⟩ := List.forall_mem_append.mp h
    rw [parenthesizeFields, parenthesizeFields, parenthesize_congr t ht, parenthesizeFields_congr rest hrest]

end

mutual

/-- A tree in which nothing is given a position stays as it is. -/
theorem parenthesize_none : ∀ t : Tree, parenthesize (fun _ => none) t = t
  | .list items => by rw [parenthesize, parenthesizeItems_none items]
  | .node kind span fields => by
    rw [parenthesize, parenthesizeFields_none fields, ite_self]
  | .null | .bool _ | .number _ _ | .text _ | .range _ => rfl

private theorem parenthesizeItems_none : ∀ items : List Tree, parenthesizeItems (fun _ => none) items = items
  | [] => rfl
  | t :: rest => by rw [parenthesizeItems, parenthesize_none t, parenthesizeItems_none rest]

private theorem parenthesizeFields_none : ∀ fields : List (Field × Tree), parenthesizeFields (fun _ => none) fields = fields
  | [] => rfl
  | (f, t) :: rest => by rw [parenthesizeFields, parenthesize_none t, parenthesizeFields_none rest]

end

private theorem lookup_parenthesizeFields (place : Tree → Option Pos) (f : Field) (fields : List (Field × Tree)) :
    lookup f (parenthesizeFields place fields) = parenthesize place (lookup f fields) := by
  induction fields with
  | nil => rfl
  | cons entry fields ih =>
    obtain ⟨g, t⟩ := entry
    rw [parenthesizeFields, lookup_cons, lookup_cons, ih]
    split <;> rfl

private theorem text?_parenthesize (place : Tree → Option Pos) (t : Tree) : (parenthesize place t).text? = t.text? := by
  cases t with
  | node kind span fields =>
    rw [parenthesize]
    split
    · rfl
    · split <;> rfl
  | _ => rfl

private theorem integer?_parenthesize (place : Tree → Option Pos) (t : Tree) :
    (parenthesize place t).integer? = t.integer? := by
  cases t with
  | node kind span fields =>
    rw [parenthesize]
    split
    · rfl
    · split <;> rfl
  | _ => rfl

private theorem isKind_parenthesize (hcalls : OnlyCalls place) {kind : Kind} (h : kind ≠ .call) (h' : kind ≠ .newExpression)
    (h'' : kind ≠ .paren) (t : Tree) : (parenthesize place t).isKind kind = t.isKind kind := by
  cases t with
  | node k span fields =>
    rw [parenthesize]
    split
    next => rfl
    next =>
      split
      next q hq =>
        rcases Kind.call_cases (hcalls.kind_of_placed hq) with rfl | rfl
        · simp [isKind, kind?, wrap, h.symm, h''.symm]
        · simp [isKind, kind?, wrap, h'.symm, h''.symm]
      next => rfl
  | _ => rfl

private theorem propertyName?_parenthesize (hcalls : OnlyCalls place) (t : Tree) :
    Callee.propertyName? (parenthesize place t) = Callee.propertyName? t := by
  cases t with
  | node kind span fields =>
    cases hk : kind.isType with
    | true => rw [parenthesize_type hk]
    | false =>
      cases hq : place (.node kind span fields) with
      | some q =>
        rw [parenthesize_placed hk hq, wrap, Callee.propertyName?_node, Callee.propertyName?_node]
        rcases Kind.call_cases (hcalls.kind_of_placed hq) with rfl | rfl <;> rfl
      | none =>
        rw [parenthesize_node hk hq, Callee.propertyName?_node, Callee.propertyName?_node,
          lookup_parenthesizeFields, text?_parenthesize]
  | _ => rfl

/-- Calls spell nothing, in parentheses or not, so a tree spells the same with parentheses around calls. -/
theorem ofTree_parenthesize (hcalls : OnlyCalls place) (t : Tree) :
    Callee.ofTree (parenthesize place t) = Callee.ofTree t := by
  induction t using induction_lookup with
  | leaf t h => cases t <;> first | rfl | simp [kind?] at h
  | node kind span fields ih =>
    cases hk : kind.isType with
    | true => rw [parenthesize_type hk]
    | false =>
      cases hq : place (.node kind span fields) with
      | some q =>
        have hcall := hcalls.kind_of_placed hq
        rw [parenthesize_placed hk hq, wrap, Callee.ofTree_paren, Callee.ofTree_call hcall]
        exact Callee.ofTree_call hcall _ _
      | none =>
        rw [parenthesize_node hk hq]
        by_cases hi : kind = .identifier
        · subst hi
          simp only [Callee.ofTree, if_true, binding?_node, lookup_parenthesizeFields, text?_parenthesize,
            integer?_parenthesize]
        by_cases hparen : kind = .paren
        · subst hparen
          rw [Callee.ofTree_paren, Callee.ofTree_paren, lookup_parenthesizeFields, ih]
        by_cases hm : kind = .member
        · subst hm
          rw [Callee.ofTree_member, Callee.ofTree_member, lookup_parenthesizeFields, lookup_parenthesizeFields,
            propertyName?_parenthesize hcalls, ih]
        · rw [Callee.ofTree_other hi hparen hm, Callee.ofTree_other hi hparen hm]

private theorem hasExpressionCallee_parenthesize (hcalls : OnlyCalls place) (fields : List (Field × Tree)) :
    hasExpressionCallee (parenthesizeFields place fields) = hasExpressionCallee fields := by
  simp only [hasExpressionCallee, lookup_parenthesizeFields]
  rw [isKind_parenthesize hcalls (by decide) (by decide) (by decide),
    isKind_parenthesize hcalls (by decide) (by decide) (by decide)]

theorem callsPure_settle {pure : Tree → Bool} (hp : Nominal pure) (hcalls : OnlyCalls place) (n : Tree) :
    (settle place n).callsPure pure = n.callsPure pure := by
  cases n with
  | node kind span fields =>
    have hpure : pure (lookup .callee (parenthesizeFields place fields)) = pure (lookup .callee fields) := by
      rw [lookup_parenthesizeFields]
      exact hp.congr (ofTree_parenthesize hcalls _)
    simp only [settle, callsPure, callee?, hasExpressionCallee_parenthesize hcalls]
    split
    · exact hpure
    · rfl
  | _ => rfl

theorem kind_settle (place : Tree → Option Pos) (n : Tree) : (settle place n).kind? = n.kind? := by
  cases n <;> rfl

theorem start_settle {n : Tree} (h : place n = none) : (settle place n).start = n.start := by
  cases n with
  | node kind span fields => rw [settle, h, Option.map_none, Option.none_or]; cases span <;> rfl
  | _ => rfl

theorem start_settle_placed {n : Tree} {q : Pos} (hn : n.isCall = true) (h : place n = some q) :
    (settle place n).start = q := by
  cases n with
  | node kind span fields => rw [settle, h]; rfl
  | _ => cases hn

theorem isSite_of_isCall {n : Tree} (h : n.isCall = true) : n.isSite = true := by
  cases n with
  | node kind span fields => exact Kind.isSite_of_call h
  | _ => cases h

theorem filterMap_sites (hcalls : OnlyCalls place) (t : Tree) :
    t.sites.filterMap place = t.reached.filterMap place := by
  rw [sites, List.filterMap_filter]
  refine List.filterMap_congr fun n _ => ?_
  split
  · rfl
  next hsite =>
    refine (hcalls.eq_none ?_).symm
    by_contra hcall
    exact hsite (isSite_of_isCall (Bool.not_eq_false _ ▸ hcall))

mutual

/-- Parentheses keep the sites and their order. -/
theorem sites_parenthesize (hcalls : OnlyCalls place) : ∀ t : Tree,
    (parenthesize place t).sites = t.sites.map (settle place)
  | .list items => sitesOfItems_parenthesize hcalls items
  | .node kind span fields => by
    have hfields := sitesOfFields_parenthesize hcalls fields
    cases hk : kind.isType with
    | true => simp [parenthesize_type hk, sites, reached, hk]
    | false =>
      have hsettle : settle place (.node kind span fields) = .node kind
          (((place (.node kind span fields)).map fun q => ⟨q, q⟩).or span) (parenthesizeFields place fields) := rfl
      cases hq : place (.node kind span fields) with
      | some q =>
        have hsite := Kind.isSite_of_call (hcalls.kind_of_placed hq)
        have hparen : Kind.isType .paren = false ∧ Kind.isSite .paren = false := by decide
        rw [hq] at hsettle
        rw [parenthesize_placed hk hq, wrap, sites_node hparen.1, hparen.2, sitesOfFields_cons, sites_node hk,
          sites_node hk, hsite, if_pos rfl, if_pos rfl, List.map_append, List.map_singleton, hsettle, hfields]
        simp [sitesOfFields, reachedOfFields]
      | none =>
        rw [hq] at hsettle
        rw [parenthesize_node hk hq, sites_node hk, sites_node hk, List.map_append, hfields]
        congr 1
        split
        · rw [List.map_singleton, hsettle]; rfl
        · rfl
  | .null | .bool _ | .number _ _ | .text _ | .range _ => rfl

private theorem sitesOfItems_parenthesize (hcalls : OnlyCalls place) : ∀ items : List Tree,
    sitesOfItems (parenthesizeItems place items) = (sitesOfItems items).map (settle place)
  | [] => rfl
  | t :: rest => by
    rw [parenthesizeItems, sitesOfItems_cons, sitesOfItems_cons, List.map_append, sites_parenthesize hcalls t,
      sitesOfItems_parenthesize hcalls rest]

private theorem sitesOfFields_parenthesize (hcalls : OnlyCalls place) : ∀ fields : List (Field × Tree),
    sitesOfFields (parenthesizeFields place fields) = (sitesOfFields fields).map (settle place)
  | [] => rfl
  | (f, t) :: rest => by
    rw [parenthesizeFields, sitesOfFields_cons, sitesOfFields_cons, List.map_append, sites_parenthesize hcalls t,
      sitesOfFields_parenthesize hcalls rest]

end

/-- Whether a position is one where a node of a list starts, or that one of the nodes reached is given. -/
def StartsAmong (place : Tree → Option Pos) (nodes reached : List Tree) (p : Pos) : Prop :=
  (∃ n ∈ nodes, p = n.start) ∨ ∃ n ∈ reached, place n = some p

private theorem StartsAmong.mono {ns ns' rs rs' : List Tree} {p : Pos} (h : StartsAmong place ns rs p) (hn : ns ⊆ ns')
    (hr : rs ⊆ rs') : StartsAmong place ns' rs' p := by
  rcases h with ⟨n, hmem, hp⟩ | ⟨n, hmem, hp⟩
  · exact Or.inl ⟨n, hn hmem, hp⟩
  · exact Or.inr ⟨n, hr hmem, hp⟩

mutual

/-- All nodes start where nodes started before, or where they are put. -/
theorem nodes_parenthesize : ∀ t : Tree, ∀ m ∈ (parenthesize place t).nodes,
    StartsAmong place t.nodes t.reached m.start
  | .list items => nodesOfItems_parenthesize items
  | .node kind span fields => by
    have hfields := nodesOfFields_parenthesize fields
    have hspan (fields' : List (Field × Tree)) :
        (Tree.node kind span fields').start = (Tree.node kind span fields).start := by
      cases span <;> rfl
    intro m hm
    cases hk : kind.isType with
    | true =>
      rw [parenthesize_type hk] at hm
      exact Or.inl ⟨m, hm, rfl⟩
    | false =>
      have hin {p : Pos} (h : StartsAmong place (nodesOfFields fields) (reachedOfFields fields) p) :
          StartsAmong place (Tree.node kind span fields).nodes (Tree.node kind span fields).reached p := by
        rw [nodes, reached, hk, if_neg (by decide)]
        exact h.mono (List.subset_append_left _ _) (List.subset_append_left _ _)
      have hself : Tree.node kind span fields ∈ (Tree.node kind span fields).nodes := by simp [nodes]
      have hself' : Tree.node kind span fields ∈ (Tree.node kind span fields).reached := by simp [reached, hk]
      cases hq : place (.node kind span fields) with
      | some q =>
        rw [parenthesize_placed hk hq, wrap] at hm
        simp only [nodes, nodesOfFields, List.append_nil, List.append_assoc, List.mem_append,
          List.mem_singleton] at hm
        rcases hm with hm | rfl | rfl
        · exact hin (hfields m hm)
        · exact Or.inr ⟨_, hself', hq⟩
        · refine Or.inl ⟨_, hself, ?_⟩
          cases span <;> rfl
      | none =>
        rw [parenthesize_node hk hq, nodes, List.mem_append, List.mem_singleton] at hm
        rcases hm with hm | rfl
        · exact hin (hfields m hm)
        · exact Or.inl ⟨_, hself, hspan _⟩
  | .null | .bool _ | .number _ _ | .text _ | .range _ => by simp [parenthesize, nodes]

private theorem nodesOfItems_parenthesize : ∀ items : List Tree, ∀ m ∈ nodesOfItems (parenthesizeItems place items),
    StartsAmong place (nodesOfItems items) (reachedOfItems items) m.start
  | [] => by simp [parenthesizeItems, nodesOfItems]
  | t :: rest => by
    rw [parenthesizeItems, nodesOfItems, nodesOfItems, reachedOfItems]
    intro m hm
    rcases List.mem_append.mp hm with hm | hm
    · exact (nodes_parenthesize t m hm).mono (List.subset_append_left _ _) (List.subset_append_left _ _)
    · exact (nodesOfItems_parenthesize rest m hm).mono (List.subset_append_right _ _) (List.subset_append_right _ _)

private theorem nodesOfFields_parenthesize : ∀ fields : List (Field × Tree),
    ∀ m ∈ nodesOfFields (parenthesizeFields place fields),
      StartsAmong place (nodesOfFields fields) (reachedOfFields fields) m.start
  | [] => by simp [parenthesizeFields, nodesOfFields]
  | (f, t) :: rest => by
    rw [parenthesizeFields, nodesOfFields, nodesOfFields, reachedOfFields]
    intro m hm
    rcases List.mem_append.mp hm with hm | hm
    · exact (nodes_parenthesize t m hm).mono (List.subset_append_left _ _) (List.subset_append_left _ _)
    · exact (nodesOfFields_parenthesize rest m hm).mono (List.subset_append_right _ _) (List.subset_append_right _ _)

end

theorem head?_type {kind : Kind} (hk : kind.isType = true) (span : Option Span) (fields : List (Field × Tree)) :
    head? (.node kind span fields) = none := by
  rw [head?, if_neg fun hc => by simp [Kind.not_type_of_call hc] at hk]
  cases hf : operand? kind with
  | none => rfl
  | some f => simp [Kind.not_type_of_operand hf] at hk

mutual

/-- A call in parentheses is not in sight, so the call that is found is one that has kept its place. -/
theorem head?_parenthesize : ∀ {t h : Tree}, head? (parenthesize place t) = some h →
    ∃ n ∈ t.reached, place n = none ∧ n.isCall = true ∧ h = settle place n
  | .node kind span fields, h, hh => by
    cases hk : kind.isType with
    | true =>
      rw [parenthesize_type hk, head?_type hk] at hh
      cases hh
    | false =>
      cases hq : place (.node kind span fields) with
      | some q =>
        rw [parenthesize_placed hk hq, wrap, head?, if_neg (by decide)] at hh
        cases hh
      | none =>
        rw [parenthesize_node hk hq, head?] at hh
        split at hh
        next hc =>
          cases hh
          exact ⟨_, by simp [reached, hk], hq, hc, by rw [settle, hq]; rfl⟩
        next =>
          split at hh
          next f hf =>
            obtain ⟨n, hn, hrest⟩ := headOf?_parenthesizeFields hh
            exact ⟨n, by simp [reached, hk, hn], hrest⟩
          next => cases hh
  | .null, _, hh | .bool _, _, hh | .number _ _, _, hh | .text _, _, hh | .range _, _, hh | .list _, _, hh => by
    cases hh

theorem headOf?_parenthesizeFields : ∀ {fields : List (Field × Tree)} {f : Field} {h : Tree},
    headOf? f (parenthesizeFields place fields) = some h →
      ∃ n ∈ reachedOfFields fields, place n = none ∧ n.isCall = true ∧ h = settle place n
  | [], _, _, hh => by cases hh
  | (g, t) :: rest, f, h, hh => by
    rw [parenthesizeFields, headOf?] at hh
    split at hh
    · obtain ⟨n, hn, hrest⟩ := head?_parenthesize hh
      exact ⟨n, List.mem_append_left _ hn, hrest⟩
    · obtain ⟨n, hn, hrest⟩ := headOf?_parenthesizeFields hh
      exact ⟨n, List.mem_append_right _ hn, hrest⟩

end

/-- Whether positions are those of `place` and one more, for the calls that `chosen` stands for. -/
structure OneMore (place other : Tree → Option Pos) (chosen : Tree → Prop) (q : Pos) : Prop where
  given (n : Tree) (h : chosen n) : other n = some q
  rest (n : Tree) (h : ¬ chosen n) : other n = place n
  isCall (n : Tree) (h : chosen n) : n.isCall = true
  settled (n : Tree) (h : place n = none) (hs : chosen (settle place n)) : chosen n

section OneMore
variable {chosen : Tree → Prop} {q : Pos}

private theorem OneMore.mem_of_head (ho : OneMore place other chosen q) {t h : Tree}
    (hh : head? (parenthesize place t) = some h) (hc : chosen h) : ∃ n ∈ t.reached, chosen n := by
  obtain ⟨n, hn, hnone, -, rfl⟩ := head?_parenthesize hh
  exact ⟨n, hn, ho.settled n hnone hc⟩

private theorem OneMore.fields_eq (ho : OneMore place other chosen q) {fields : List (Field × Tree)}
    (h : ∀ n ∈ reachedOfFields fields, ¬ chosen n) :
    parenthesizeFields other fields = parenthesizeFields place fields :=
  parenthesizeFields_congr fields fun n hn => ho.rest n (h n hn)

mutual

/-- Putting the call in front into parentheses gives one more position, if no other call has it. -/
theorem wrapAt_parenthesize (ho : OneMore place other chosen q) : ∀ {t h : Tree},
    head? (parenthesize place t) = some h → chosen h → t.reached.Pairwise (fun n m => chosen n → ¬ chosen m) →
      wrapAt q (parenthesize place t) = parenthesize other t
  | .node kind span fields, h, hh, hc, hone => by
    cases hk : kind.isType with
    | true =>
      rw [parenthesize_type hk, head?_type hk] at hh
      cases hh
    | false =>
      rw [reached, hk, if_neg (by decide)] at hone
      obtain ⟨hfields, -, hnode⟩ := List.pairwise_append.mp hone
      cases hq : place (.node kind span fields) with
      | some q' =>
        rw [parenthesize_placed hk hq, wrap, head?, if_neg (by decide)] at hh
        cases hh
      | none =>
        rw [parenthesize_node hk hq, head?] at hh
        rw [parenthesize_node hk hq, wrapAt]
        split at hh
        next hcall =>
          cases hh
          have hchosen : chosen (.node kind span fields) := ho.settled _ hq (by rw [settle, hq]; exact hc)
          rw [if_pos hcall, parenthesize_placed hk (ho.given _ hchosen),
            ho.fields_eq fun n hn hn' => hnode n hn _ List.mem_cons_self hn' hchosen]
        next hcall =>
          rw [if_neg hcall]
          have hnot : ¬ chosen (.node kind span fields) := fun h => hcall (ho.isCall _ h)
          rw [parenthesize_node hk ((ho.rest _ hnot).trans hq)]
          split at hh
          next f hf => exact congrArg (Tree.node kind span) (wrapAtOf_parenthesizeFields ho hh hc hfields)
          next => cases hh
  | .null, _, hh, _, _ | .bool _, _, hh, _, _ | .number _ _, _, hh, _, _ | .text _, _, hh, _, _
  | .range _, _, hh, _, _ | .list _, _, hh, _, _ => by cases hh

theorem wrapAtOf_parenthesizeFields (ho : OneMore place other chosen q) : ∀ {fields : List (Field × Tree)} {f : Field}
    {h : Tree}, headOf? f (parenthesizeFields place fields) = some h → chosen h →
      (reachedOfFields fields).Pairwise (fun n m => chosen n → ¬ chosen m) →
        wrapAtOf q f (parenthesizeFields place fields) = parenthesizeFields other fields
  | [], _, _, hh, _, _ => by cases hh
  | (g, t) :: rest, f, h, hh, hc, hone => by
    obtain ⟨ht, hrest, hbetween⟩ := List.pairwise_append.mp hone
    rw [parenthesizeFields, headOf?] at hh
    rw [parenthesizeFields, wrapAtOf, parenthesizeFields]
    split at hh
    next hg =>
      obtain ⟨n, hn, hchosen⟩ := ho.mem_of_head hh hc
      rw [if_pos hg, wrapAt_parenthesize ho hh hc ht, ho.fields_eq fun m hm hm' => hbetween n hn m hm hchosen hm']
    next hg =>
      obtain ⟨n, hn, hnone, -, rfl⟩ := headOf?_parenthesizeFields hh
      have hchosen := ho.settled n hnone hc
      rw [if_neg hg, wrapAtOf_parenthesizeFields ho hh hc hrest,
        parenthesize_congr t fun m hm => ho.rest m fun hm' => hbetween m hm n hn hm' hchosen]

end

end OneMore

private theorem operandOf?_parenthesize (hcalls : OnlyCalls place) {t : Tree} (h : t.isCall = false) :
    (parenthesize place t).operandOf? = t.operandOf?.map (parenthesize place) := by
  cases t with
  | node kind span fields =>
    cases hk : kind.isType with
    | true =>
      rw [parenthesize_type hk, operandOf?]
      cases hf : operand? kind with
      | none => rfl
      | some f => simp [Kind.not_type_of_operand hf] at hk
    | false =>
      rw [parenthesize_node hk (hcalls.eq_none h), operandOf?, operandOf?, Option.map_map]
      simp only [lookup_parenthesizeFields, Function.comp_def]
  | _ => rfl

/-- What stands inside a call, and so what it begins with, does not depend on where the call is put. -/
theorem leading?_settle (hcalls : OnlyCalls place) (n : Tree) :
    (settle place n).leading? = n.leading?.map (parenthesize place) := by
  cases n with
  | node kind span fields =>
    simp only [settle, leading?, hasExpressionCallee_parenthesize hcalls, lookup_parenthesizeFields]
    split
    · split <;> rfl
    split
    · rfl
    split
    · have hmember : (parenthesize place (lookup .base fields)).isKind .member = (lookup .base fields).isKind .member :=
        isKind_parenthesize hcalls (by decide) (by decide) (by decide) _
      have hcall : (parenthesize place (lookup .base fields)).isKind .optionalCall =
          (lookup .base fields).isKind .optionalCall :=
        isKind_parenthesize hcalls (by decide) (by decide) (by decide) _
      rw [chained?, chained?, hmember, hcall]
      split
      next h =>
        refine operandOf?_parenthesize hcalls ?_
        cases hb : lookup .base fields with
        | node k span' fields' =>
          have hk : k = .member ∨ k = .optionalCall := by simpa [isKind, kind?, hb] using h
          rcases hk with rfl | rfl <;> rfl
        | _ => rfl
      next => rfl
    split
    · rfl
    · rw [operandOf?, operandOf?, Option.map_map]
      simp only [lookup_parenthesizeFields, Function.comp_def]
  | _ => rfl

theorem parenthesize_eq_settle {n : Tree} (hn : n.isEntered = true) (h : place n = none) :
    parenthesize place n = settle place n := by
  cases n with
  | node kind span fields =>
    have hk : kind.isType = false := by simpa [isEntered, kind?] using hn
    rw [parenthesize_node hk h, settle, h]
    rfl
  | _ => cases hn

/-- Sites are seen through parentheses in their places only. -/
theorem site_of_parenthesize {t : Tree} (h : (parenthesize place t).isSite = true) :
    place t = none ∧ t.isSite = true ∧ parenthesize place t = settle place t := by
  cases t with
  | node kind span fields =>
    cases hk : kind.isType with
    | true =>
      rw [parenthesize_type hk] at h
      simpa [isEntered, kind?, hk] using isEntered_of_site h
    | false =>
      cases hq : place (.node kind span fields) with
      | some q =>
        rw [parenthesize_placed hk hq] at h
        cases h
      | none =>
        rw [parenthesize_node hk hq] at h
        exact ⟨rfl, h, parenthesize_eq_settle (by simp [isEntered, kind?, hk]) hq⟩
  | _ => cases h

/-- In parentheses a call begins with nothing that a walk looks at. -/
theorem leads_parenthesize (hcalls : OnlyCalls place) {t u : Tree} :
    (parenthesize place t).LeadsTo u ↔ place t = none ∧ ∃ v, t.LeadsTo v ∧ u = parenthesize place v := by
  cases hq : place t with
  | some q =>
    cases t with
    | node kind span fields =>
      have hk := Kind.not_type_of_call (hcalls.kind_of_placed hq)
      simp +decide [LeadsTo, parenthesize_placed hk hq, wrap, leading?, operandOf?, operand?]
    | _ => cases hcalls _ (Option.isSome_iff_exists.mpr ⟨q, hq⟩)
  | none =>
    cases hentered : t.isEntered with
    | true =>
      rw [LeadsTo, parenthesize_eq_settle hentered hq, leading?_settle hcalls, Option.map_eq_some_iff]
      simp [LeadsTo, eq_comm]
    | false =>
      have hnone (v : Tree) : ¬ t.LeadsTo v := fun h => by simp [isEntered_of_leads h] at hentered
      have hsame : parenthesize place t = t ∨ ∃ items, t = .list items := by
        cases t with
        | node kind span fields => exact Or.inl (parenthesize_type (by simpa [isEntered, kind?] using hentered) _ _)
        | list items => exact Or.inr ⟨items, rfl⟩
        | _ => exact Or.inl rfl
      rcases hsame with hsame | ⟨items, rfl⟩
      · rw [hsame]
        simp [hnone]
      · simp [LeadsTo, parenthesize, leading?]

theorem beginsWith_of_settle (hcalls : OnlyCalls place) {n u : Tree} (h : (settle place n).BeginsWith u) :
    ∃ m, n.BeginsWith m ∧ u = parenthesize place m := by
  induction h with
  | single h =>
    rw [LeadsTo, leading?_settle hcalls] at h
    obtain ⟨m, hm, rfl⟩ := Option.map_eq_some_iff.mp h
    exact ⟨m, .single hm, rfl⟩
  | tail _ h ih =>
    obtain ⟨m, hm, rfl⟩ := ih
    obtain ⟨-, v, hv, rfl⟩ := (leads_parenthesize hcalls).mp h
    exact ⟨v, hm.tail hv, rfl⟩

theorem beginsWith_settle (hcalls : OnlyCalls place) {n m : Tree} (h : n.BeginsWith m)
    (hbetween : ∀ x, n.BeginsWith x → x.BeginsWith m → place x = none) :
    (settle place n).BeginsWith (parenthesize place m) := by
  have hlead {n u : Tree} (h : n.LeadsTo u) : (settle place n).LeadsTo (parenthesize place u) := by
    rw [LeadsTo, leading?_settle hcalls, h, Option.map_some]
  induction h with
  | single h => exact .single (hlead h)
  | @tail u m hu hm ih =>
    refine .tail (ih fun x hx hxu => hbetween x hx (hxu.tail hm)) ?_
    exact (leads_parenthesize hcalls).mpr ⟨hbetween u hu (.single hm), m, hm, rfl⟩

mutual

/-- Parentheses that are put in after others, never around the same call, are put in at once. -/
theorem parenthesize_parenthesize (hother : OnlyCalls other) : ∀ t : Tree,
    (∀ n ∈ t.reached, (place n).isSome → other (settle place n) = none) →
      parenthesize other (parenthesize place t) =
        parenthesize (fun n => (place n).or (other (settle place n))) t
  | .list items, h => by
    rw [parenthesize, parenthesize, parenthesize, parenthesizeItems_parenthesizeItems hother items h]
  | .node kind span fields, h => by
    cases hk : kind.isType with
    | true => rw [parenthesize_type hk, parenthesize_type hk, parenthesize_type hk]
    | false =>
      rw [reached, hk, if_neg (by decide)] at h
      obtain ⟨hfields, hnode⟩ := List.forall_mem_append.mp h
      have hrest := parenthesizeFields_parenthesizeFields hother fields hfields
      cases hq : place (.node kind span fields) with
      | some q =>
        have hparen : Kind.isType .paren = false := by decide
        have hout : other (wrap kind span (parenthesizeFields place fields) q) = none := hother.eq_none rfl
        have hin : other (.node kind (some ⟨q, q⟩) (parenthesizeFields place fields)) = none := by
          have hsettled := hnode _ List.mem_cons_self (by rw [hq]; rfl)
          rwa [settle, hq] at hsettled
        rw [parenthesize_placed hk hq, wrap, parenthesize_node hparen hout, parenthesizeFields, parenthesizeFields,
          parenthesize_node hk hin, hrest, parenthesize_placed hk (by rw [hq]; rfl), wrap]
      | none =>
        have hsettle : settle place (.node kind span fields) = .node kind span (parenthesizeFields place fields) := by
          rw [settle, hq]
          rfl
        have hor : (place (.node kind span fields)).or (other (settle place (.node kind span fields))) =
            other (.node kind span (parenthesizeFields place fields)) := by rw [hq, Option.none_or, hsettle]
        rw [parenthesize_node hk hq, parenthesize, parenthesize, hrest, hor, hk, if_neg (by decide), if_neg (by decide)]
  | .null, _ | .bool _, _ | .number _ _, _ | .text _, _ | .range _, _ => rfl

private theorem parenthesizeItems_parenthesizeItems (hother : OnlyCalls other) : ∀ items : List Tree,
    (∀ n ∈ reachedOfItems items, (place n).isSome → other (settle place n) = none) →
      parenthesizeItems other (parenthesizeItems place items) =
        parenthesizeItems (fun n => (place n).or (other (settle place n))) items
  | [], _ => rfl
  | t :: rest, h => by
    obtain ⟨ht, hrest⟩ := List.forall_mem_append.mp h
    rw [parenthesizeItems, parenthesizeItems, parenthesizeItems, parenthesize_parenthesize hother t ht,
      parenthesizeItems_parenthesizeItems hother rest hrest]

private theorem parenthesizeFields_parenthesizeFields (hother : OnlyCalls other) : ∀ fields : List (Field × Tree),
    (∀ n ∈ reachedOfFields fields, (place n).isSome → other (settle place n) = none) →
      parenthesizeFields other (parenthesizeFields place fields) =
        parenthesizeFields (fun n => (place n).or (other (settle place n))) fields
  | [], _ => rfl
  | (f, t) :: rest, h => by
    obtain ⟨ht, hrest⟩ := List.forall_mem_append.mp h
    rw [parenthesizeFields, parenthesizeFields, parenthesizeFields, parenthesize_parenthesize hother t ht,
      parenthesizeFields_parenthesizeFields hother rest hrest]

end

end Tree
end PureCalls
