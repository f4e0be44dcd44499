import PureCalls.Proofs.Items
import PureCalls.Proofs.Renaming

/-! Modules with their items in another order. The imports are the same in any order, as long as no two of them introduce
one binding, and a walk over items that share no place does the same with each of them wherever it comes. So the order
counts for the numbers of the fresh positions and for nothing else. -/
namespace PureCalls
open PureCalls.Tree Marking

namespace Imports

private theorem addSpecifier_eq_append (source : Option String) (imports : Imports) (specifier : Tree) :
    addSpecifier source imports specifier = addSpecifier source [] specifier ++ imports := by
  unfold addSpecifier
  split <;> rfl

private theorem foldl_addSpecifier_eq_append (source : Option String) (imports : Imports) (specifiers : List Tree) :
    specifiers.foldl (addSpecifier source) imports = specifiers.foldl (addSpecifier source) [] ++ imports := by
  induction specifiers generalizing imports with
  | nil => rfl
  | cons specifier rest ih =>
    rw [List.foldl_cons, List.foldl_cons, ih, ih (addSpecifier source [] specifier), addSpecifier_eq_append,
      List.append_assoc]

private theorem addItem_eq_append (imports : Imports) (item : Tree) : addItem imports item = addItem [] item ++ imports := by
  unfold addItem
  split
  · exact foldl_addSpecifier_eq_append _ _ _
  · rfl

private theorem foldl_addItem_perm (imports : Imports) (items : List Tree) :
    (items.foldl addItem imports).Perm (items.flatMap (addItem []) ++ imports) := by
  induction items generalizing imports with
  | nil => exact .refl _
  | cons item rest ih =>
    rw [List.foldl_cons, List.flatMap_cons, List.append_assoc]
    refine (ih _).trans ?_
    rw [addItem_eq_append]
    exact List.perm_append_comm_assoc _ _ _

private theorem find?_eq_some_iff {imports : Imports} (h : (imports.map Prod.fst).Nodup) {b : Binding} {i : Import} :
    imports.find? b = some i ↔ (b, i) ∈ imports := by
  induction imports with
  | nil => simp [find?]
  | cons entry rest ih =>
    obtain ⟨b', i'⟩ := entry
    rw [List.map_cons, List.nodup_cons] at h
    rw [find?, List.mem_cons, Prod.mk.injEq]
    split
    next hb =>
      subst hb
      have hnot : (b', i) ∉ rest := fun hmem => h.1 (List.mem_map.mpr ⟨_, hmem, rfl⟩)
      simp [hnot, eq_comm]
    next hb =>
      rw [ih h.2]
      simp [Ne.symm hb]

/-- In which order the imports stand does not count if no two of them introduce one binding. -/
theorem find?_perm {imports imports' : Imports} (h : imports'.Perm imports) (hnodup : (imports.map Prod.fst).Nodup)
    (b : Binding) : imports'.find? b = imports.find? b := by
  have hnodup' : (imports'.map Prod.fst).Nodup := (h.map Prod.fst).nodup_iff.mpr hnodup
  refine Option.ext fun i => ?_
  rw [find?_eq_some_iff hnodup', find?_eq_some_iff hnodup, h.mem_iff]

private theorem isPure_perm (w : Whitelist) {imports imports' : Imports} (h : imports'.Perm imports)
    (hnodup : (imports.map Prod.fst).Nodup) : isPure w imports' = isPure w imports := by
  funext t
  unfold isPure
  simp only [Callee.isAllowed, refersTo, find?_perm h hnodup]

end Imports

/-- Two stores with the same marks more than a third one, which has no comments at the fresh positions, differ in the
order of these positions only. -/
theorem Comments.Gains.renumbered {initial store store' : Comments} {marked : List Pos} {c : Pos} {k : Nat}
    {σ : Pos → Pos} (h : initial.Gains store marked c k) (h' : initial.Gains store' marked c k)
    (hσ : Set.BijOn σ {q | Pos.within c k q} {q | Pos.within c k q})
    (hclear : ∀ q, Pos.within c k q = true → initial.get q = []) : store.Renumbered (Pos.within c k) σ store' := by
  have hfresh {store : Comments} (h : initial.Gains store marked c k) {q : Pos} (hq : Pos.within c k q = true) :
      store.get q = [Comment.marker] := by
    rw [h q, if_pos (Or.inr hq), hclear q hq, List.nil_append]
  exact ⟨fun q hq => (hfresh h' (hσ.mapsTo hq)).trans (hfresh h hq).symm, fun p _ => (h' p).trans (h p).symm⟩

/-- The module with the items. Besides them a module has nothing but leaves. -/
def Tree.module (span : Option Span) (items : List Tree) (leaves : List (Field × Tree)) : Tree :=
  .node .moduleProgram span ((.body, .list items) :: leaves)

namespace Marking
variable {pure : Tree → Bool} {leaves : List (Field × Tree)}

private theorem walkFields_leaves (pure : Tree → Bool) (h : ∀ e ∈ leaves, e.2.isLeaf = true) (s : Marking) :
    walkFields pure leaves s = (leaves, s) ∧ visitsOfFields pure leaves s = [] := by
  induction leaves with
  | nil => exact ⟨rfl, rfl⟩
  | cons e rest ih =>
    obtain ⟨f, t⟩ := e
    obtain ⟨ht, hrest⟩ := List.forall_mem_cons.mp h
    have hvisits : visits pure t s = [] := by cases t <;> first | rfl | cases ht
    simp only [walkFields, visitsOfFields, walk_of_leaf ht, hvisits, ih hrest]
    exact ⟨trivial, rfl⟩

/-- A walk over a module is one over its items. -/
theorem walk_module (hp : Nominal pure) (span : Option Span) (items : List Tree)
    (h : ∀ e ∈ leaves, e.2.isLeaf = true) (s : Marking) :
    walk pure (.module span items leaves) s =
        (.module span (walkItems pure items s).1 leaves, (walkItems pure items s).2) ∧
      taken pure (visits pure (.module span items leaves) s) = taken pure (visitsOfItems pure items s) := by
  obtain ⟨hwalk, hvisits⟩ := walkFields_leaves pure h (walkItems pure items s).2
  constructor
  · rw [Tree.module, walk, if_neg (by decide)]
    simp only [walkFields, walk, hwalk]
    exact visit_of_not_site rfl span _
  · have hmodule (v : Visit) (hv : v.kind = .moduleProgram) : taken pure [v] = [] :=
      Visit.taken_of_not_site hp (by rw [Visit.node, hv]; rfl)
    rw [Tree.module, visits, if_neg (by decide), taken_append, hmodule _ rfl, List.append_nil, visitsOfFields, visits,
      walk]
    simp only [hvisits, List.append_nil]

variable {comments : Comments} {c : Pos} {items items' : List Tree} {σ : Pos → Pos}

/-- An item whose block of fresh positions is moved is left the same but for these positions. -/
theorem output_moved (hp : Nominal pure) {x y : Tree × Pos} {k : Nat} (hc : .firstFresh ≤ c) (hk : c + k ≤ .reserved)
    (htext : x.1.InText) (hσ : Set.BijOn σ {q | Pos.within c k q} {q | Pos.within c k q})
    (h : Pos.Moves (width pure comments c) c k σ x y) :
    output pure comments y.1 y.2 = (output pure comments x.1 x.2).renumber (Pos.within c k) σ := by
  obtain ⟨_, a⟩ := x
  obtain ⟨t, b⟩ := y
  obtain ⟨rfl, ⟨hca, hak⟩, ⟨hcb, hbk⟩, hshift⟩ := h
  have hcw : c + width pure comments c t ≤ .reserved := (Nat.add_le_add_right hca _).trans (hak.trans hk)
  have hwidth : width pure comments a t = width pure comments c t :=
    (width_shifted hp htext hc (hc.trans hca) hcw (hak.trans hk) fun _ _ _ _ => rfl).1
  have hmoves : ∀ q, a ≤ q → q < a + width pure comments c t → Pos.within c k q = true ∧ σ q + a = q + b :=
    fun q hq hlt => ⟨Pos.within_iff.mpr ⟨hca.trans hq, hlt.trans_le hak⟩, hshift q hq hlt⟩
  have hlow : ∀ q, Pos.within c k q = true → .firstFresh ≤ q ∧ .firstFresh ≤ σ q := fun q hq =>
    ⟨hc.trans (Pos.within_iff.mp hq).1, hc.trans (Pos.within_iff.mp (hσ.mapsTo hq)).1⟩
  obtain ⟨-, houtput, -⟩ := walk_shifted hp htext (hc.trans hca) (hc.trans hcb) hwidth (hak.trans hk) (hbk.trans hk)
    (fun _ _ _ _ => rfl) (htext.free hc hk) hmoves hlow
  exact houtput

/-- Two walks over the same items in different orders do the same with each item. -/
theorem Each.perm (hp : Nominal pure) (hc : .firstFresh ≤ c) (hperm : items'.Perm items) (htext : ∀ t ∈ items, t.InText)
    (hclear : ∀ q, .firstFresh ≤ q → comments.get q = []) {k : Nat}
    (hk : Pos.extent (width pure comments c) items = k) (h : Each pure comments c items 0 ⟨comments, [], c⟩)
    (h' : Each pure comments c items' 0 ⟨comments, [], c⟩) :
    ∃ σ, Set.BijOn σ {q | Pos.within c k q} {q | Pos.within c k q} ∧
      (items'.zip (walkItems pure items' ⟨comments, [], c⟩).1).Perm
        ((items.zip (walkItems pure items ⟨comments, [], c⟩).1).map (Prod.map id (renumber (Pos.within c k) σ))) ∧
      (walkItems pure items ⟨comments, [], c⟩).2.comments.Renumbered (Pos.within c k) σ
        (walkItems pure items' ⟨comments, [], c⟩).2.comments := by
  subst hk
  have hrearranges : ∃ σ, Pos.Rearranges (width pure comments c) c σ items items' := Pos.exists_rearranges hperm.symm c
  obtain ⟨σ, hσ, moved, hlay, hmoves⟩ := hrearranges
  refine ⟨σ, hσ, ?_, ?_⟩
  · let pair (x : Tree × Pos) : Tree × Tree := (x.1, output pure comments x.1 x.2)
    have hpairs {items : List Tree} (h : Each pure comments c items 0 ⟨comments, [], c⟩) :
        items.zip (walkItems pure items ⟨comments, [], c⟩).1 = (Pos.lay (width pure comments c) c items).map pair := by
      rw [h.outputs, ← List.zip_map', Pos.map_fst_lay]
      rfl
    have htext' : ∀ x ∈ Pos.lay (width pure comments c) c items, x.1.InText := by
      intro x hx
      have hmem := List.mem_map_of_mem (f := Prod.fst) hx
      rw [Pos.map_fst_lay] at hmem
      exact htext x.1 hmem
    have hk : c + Pos.extent (width pure comments c) items ≤ .reserved := Nat.zero_add (Pos.extent _ items) ▸ h.bound
    have hmoved : (Pos.lay (width pure comments c) c items).map
        (Prod.map id (renumber (Pos.within c (Pos.extent (width pure comments c) items)) σ) ∘ pair) = moved.map pair := by
      rw [← List.forall₂_eq_eq_eq, List.forall₂_map_left_iff, List.forall₂_map_right_iff]
      refine ((List.forall₂_and_left _ _).mpr ⟨htext', hmoves⟩).imp fun x y ⟨ht, hm⟩ => ?_
      exact Prod.ext hm.same.symm (output_moved hp hc hk ht hσ hm).symm
    rw [hpairs h, hpairs h', List.map_map, hmoved]
    exact hlay.map pair
  · have hsame : Pos.extent (width pure comments c) items' = Pos.extent (width pure comments c) items :=
      Pos.extent_perm hperm
    have hgains := h.passed.gains
    have hgains' := h'.passed.gains
    rw [Nat.zero_add] at hgains hgains'
    rw [hsame] at hgains'
    refine hgains.renumbered (hgains'.of_mem_iff fun p => ?_) hσ fun q hq => hclear q (hc.trans (Pos.within_iff.mp hq).1)
    rw [h.marked, h'.marked, (hperm.flatMap_right _).mem_iff]

end Marking

namespace Annotator
open PureCalls.Tree (module)
variable {w : Whitelist} {span : Option Span} {leaves : List (Field × Tree)} {comments : Comments} {c : Pos}
  {items items' : List Tree}

private theorem inText_of_mem {t : Tree} (h : (module span items leaves).InText) (ht : t ∈ items) : t.InText := by
  have hbody : t ∈ ((module span items leaves).field .body).items := ht
  exact fun n hn => h n (nodes_field _ .body (nodes_of_mem_items hbody hn))

private theorem ofModule_perm (span : Option Span) (leaves : List (Field × Tree)) (h : items'.Perm items) :
    (Imports.ofModule (module span items' leaves)).Perm (Imports.ofModule (module span items leaves)) := by
  have hitems (items : List Tree) : (Imports.ofModule (module span items leaves)).Perm
      (items.flatMap (Imports.addItem []) ++ []) := Imports.foldl_addItem_perm [] items
  exact (hitems items').trans (((h.flatMap_right _).append_right _).trans (hitems items).symm)

/-- A run over a module is a walk over its items. -/
theorem visit_module {pure : Tree → Bool} (hw : walks w (module span items leaves) = true)
    (hpure : verdict w (module span items leaves) = pure) (hleaves : ∀ e ∈ leaves, e.2.isLeaf = true)
    (comments : Comments) (c : Pos) :
    visit w (module span items leaves) (start comments c) =
        (module span (walkItems pure items ⟨comments, [], c⟩).1 leaves,
          start (walkItems pure items ⟨comments, [], c⟩).2.comments (walkItems pure items ⟨comments, [], c⟩).2.fresh) ∧
      takes w (module span items leaves) (start comments c) =
        (taken pure (visitsOfItems pure items ⟨comments, [], c⟩)).length := by
  subst hpure
  obtain ⟨hwalk, htaken⟩ := walk_module (verdict_nominal w (module span items leaves)) span items hleaves ⟨comments, [], c⟩
  constructor
  · rw [visit_of_walks hw]
    simp only [start, hwalk]
  · rw [takes, visits_of_walks hw, htaken]

/-- What a run leaves of a module whose items stand in another order: the same of each item, in that order, and the same
comments, but for the numbers of the fresh positions. -/
structure Reordered (items items' outputs outputs' : List Tree) (store store' : Comments) (c : Pos) (k : Nat)
    (σ : Pos → Pos) : Prop where
  length : outputs.length = items.length
  length' : outputs'.length = items'.length
  bijective : Set.BijOn σ {q | Pos.within c k q} {q | Pos.within c k q}
  outputs : (items'.zip outputs').Perm ((items.zip outputs).map (Prod.map id (renumber (Pos.within c k) σ)))
  comments : store.Renumbered (Pos.within c k) σ store'

private theorem Reordered.refl (h : items'.Perm items) (store : Comments) (c : Pos) (k : Nat) :
    Reordered items items' items items' store store c k id where
  length := rfl
  length' := rfl
  bijective := Set.bijOn_id _
  outputs := by
    have hid : Prod.map id (renumber (Pos.within c k) id) = (id : Tree × Tree → Tree × Tree) :=
      funext fun pair => congrArg (Prod.mk pair.1) (renumber_id pair.2)
    have hzip (items : List Tree) : items.zip items = items.map fun t => (t, t) := by rw [← List.zip_map', List.map_id']
    rw [hid, List.map_id, hzip, hzip]
    exact h.map _
  comments := ⟨fun _ _ => rfl, fun _ _ => rfl⟩

private theorem walks_perm (w : Whitelist) (span : Option Span) (leaves : List (Field × Tree)) (h : items'.Perm items) :
    walks w (module span items' leaves) = walks w (module span items leaves) := by
  have himports := ofModule_perm span leaves h
  have hempty : (Imports.ofModule (module span items' leaves)).isEmpty =
      (Imports.ofModule (module span items leaves)).isEmpty := by
    rw [Bool.eq_iff_iff, List.isEmpty_iff_length_eq_zero, List.isEmpty_iff_length_eq_zero, himports.length_eq]
  rw [walks, walks, hempty]
  rfl

/-- The order of the items of a module does not count, as long as no two imports introduce one binding and no two items
have sites at one place. With its items in any other order, imports behind their uses included, a run leaves the same of
each item and the same comments, and it takes as many fresh positions. Only these are dealt out in another order. -/
theorem items_reordered (w : Whitelist) (span : Option Span) (leaves : List (Field × Tree)) (items items' : List Tree)
    (comments : Comments) (c : Pos) :
    let program := module span items leaves
    let k := takes w program (start comments c)
    let run := visit w program (start comments c)
    let run' := visit w (module span items' leaves) (start comments c)
    items'.Perm items → (∀ e ∈ leaves, e.2.isLeaf = true) → program.InText → items.Pairwise SitesApart →
      ((Imports.ofModule program).map Prod.fst).Nodup → .firstFresh ≤ c →
      (∀ p, .firstFresh ≤ p → comments.get p = []) → c + k ≤ .reserved →
      ∃ outputs outputs' σ, run.1 = module span outputs leaves ∧ run'.1 = module span outputs' leaves ∧
        Reordered items items' outputs outputs' run.2.marking.comments run'.2.marking.comments c k σ ∧
        run'.2.marking.fresh = run.2.marking.fresh := by
  intro program k run run' hperm hleaves htext hapart hnodup hc hclear hk
  have hwalks := walks_perm w span leaves hperm
  cases hw : walks w program with
  | false =>
    have hrun : run = (program, start comments c) := visit_of_not_walks hw comments c
    have hrun' : run' = (module span items' leaves, start comments c) := visit_of_not_walks (hwalks.trans hw) comments c
    rw [hrun, hrun']
    exact ⟨items, items', id, rfl, rfl, .refl hperm comments c k, rfl⟩
  | true =>
    have hp := verdict_nominal w program
    have hverdict : verdict w (module span items' leaves) = verdict w program :=
      Imports.isPure_perm w (ofModule_perm span leaves hperm) hnodup
    obtain ⟨hrun, htakes⟩ := visit_module hw rfl hleaves comments c
    obtain ⟨hrun', -⟩ := visit_module (hwalks.trans hw) hverdict hleaves comments c
    have htext' : ∀ t ∈ items, t.InText := fun t ht => inText_of_mem htext ht
    have heach : Each (verdict w program) comments c items 0 ⟨comments, [], c⟩ :=
      (Passed.start comments c items).each hp hc htext' hapart (Or.inl (by rwa [Nat.zero_add, ← htakes]))
    have hextent : Pos.extent (width (verdict w program) comments c) items = k := heach.count.symm.trans htakes.symm
    have heach' : Each (verdict w program) comments c items' 0 ⟨comments, [], c⟩ := by
      refine (Passed.start comments c items').each hp hc (fun t ht => htext' t (hperm.mem_iff.mp ht))
        ((hperm.pairwise_iff SitesApart.symm).mpr hapart) (Or.inr ?_)
      rw [Pos.extent_perm hperm]
      exact heach.bound
    obtain ⟨σ, hσ, houtputs, hcomments⟩ := heach.perm hp hc hperm htext' hclear hextent heach'
    have hlength (items : List Tree) : (walkItems (verdict w program) items ⟨comments, [], c⟩).1.length = items.length :=
      (Walked.ofItems items _).length_eq.symm
    simp only [run, run']
    rw [hrun, hrun']
    refine ⟨_, _, σ, rfl, rfl, ⟨hlength items, hlength items', hσ, houtputs, hcomments⟩, ?_⟩
    have hfresh := heach'.passed.fresh
    rw [Pos.extent_perm hperm] at hfresh
    exact hfresh.trans heach.passed.fresh.symm

/-- The items of the program `import { f } from "m"; f(f()).g(); f(f()).g();`. -/
def chainedTwice : List Tree :=
  (chained.field .body).items ++ ((chained.renumber (fun _ => true) (· + 40)).field .body).items.drop 1

/-- The import and the two chains of calls the other way round. -/
theorem items_reordered_chained :
    let run := visit .calledF (module (some ⟨1, 76⟩) chainedTwice []) (start {} .firstFresh)
    let run' := visit .calledF (module (some ⟨1, 76⟩) chainedTwice.reverse []) (start {} .firstFresh)
    ∃ outputs outputs' σ, run.1 = module (some ⟨1, 76⟩) outputs [] ∧ run'.1 = module (some ⟨1, 76⟩) outputs' [] ∧
      Reordered chainedTwice chainedTwice.reverse outputs outputs' run.2.marking.comments run'.2.marking.comments
        .firstFresh 2 σ ∧
      run'.2.marking.fresh = run.2.marking.fresh := by
  intro run run'
  have hk : takes .calledF (module (some ⟨1, 76⟩) chainedTwice []) (start {} .firstFresh) = 2 := by decide +kernel
  rw [← hk]
  exact items_reordered .calledF (some ⟨1, 76⟩) [] chainedTwice chainedTwice.reverse {} .firstFresh
    chainedTwice.reverse_perm (by simp) (by decide +kernel) (by decide +kernel) (by decide +kernel) le_rfl
    (fun _ _ => rfl) (by decide +kernel)

end Annotator
end PureCalls
