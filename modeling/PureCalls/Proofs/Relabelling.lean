import Mathlib.Logic.Equiv.Basic
import PureCalls.Proofs.Translation

/-! Runs over a program that stands elsewhere. The places in front of the fresh positions can get any other numbers, as
long as no two become one and nothing comes to stand where no text is: a run then leaves the same, at the new places. -/
namespace PureCalls
open PureCalls.Tree Marking

namespace Tree

mutual

/-- The tree with both ends of every span moved. -/
def relabel (place : Pos → Pos) : Tree → Tree
  | .range span => .range (span.move place)
  | .list items => .list (relabelItems place items)
  | .node kind span fields => .node kind (span.map (Span.move place)) (relabelFields place fields)
  | t => t

def relabelItems (place : Pos → Pos) : List Tree → List Tree
  | [] => []
  | t :: rest => relabel place t :: relabelItems place rest

def relabelFields (place : Pos → Pos) : List (Field × Tree) → List (Field × Tree)
  | [] => []
  | (f, t) :: rest => (f, relabel place t) :: relabelFields place rest

end

variable {place : Pos → Pos}

private theorem relabelItems_eq (items : List Tree) : relabelItems place items = items.map (relabel place) := by
  induction items with
  | nil => rfl
  | cons t rest ih => rw [relabelItems, ih, List.map_cons]

private theorem relabelFields_eq (fields : List (Field × Tree)) :
    relabelFields place fields = fields.map (Prod.map id (relabel place)) := by
  induction fields with
  | nil => rfl
  | cons entry rest ih => rw [relabelFields, ih, List.map_cons, Prod.map_apply, id_eq]

private theorem kind?_relabel (t : Tree) : (relabel place t).kind? = t.kind? := by
  cases t <;> rfl

private theorem text?_relabel (t : Tree) : (relabel place t).text? = t.text? := by
  cases t <;> rfl

private theorem integer?_relabel (t : Tree) : (relabel place t).integer? = t.integer? := by
  cases t <;> rfl

private theorem isNull_relabel (t : Tree) : (relabel place t).isNull = t.isNull := by
  cases t <;> rfl

private theorem items_relabel (t : Tree) : (relabel place t).items = t.items.map (relabel place) := by
  cases t with
  | list items => exact relabelItems_eq items
  | _ => rfl

private theorem lookup_relabelFields (f : Field) (fields : List (Field × Tree)) :
    lookup f (relabelFields place fields) = relabel place (lookup f fields) := by
  rw [relabelFields_eq]
  exact lookup_map_of_null rfl f fields

private theorem field_relabel (t : Tree) (f : Field) : (relabel place t).field f = relabel place (t.field f) := by
  cases t with
  | node kind span fields => exact lookup_relabelFields f fields
  | _ => rfl

private theorem flag_relabel (t : Tree) (f : Field) : (relabel place t).flag f = t.flag f := by
  rw [flag, flag, field_relabel]
  cases t.field f <;> rfl

private theorem binding?_relabel (t : Tree) : (relabel place t).binding? = t.binding? := by
  cases t with
  | node kind span fields =>
    rw [relabel, binding?_node, binding?_node, lookup_relabelFields, lookup_relabelFields, text?_relabel,
      integer?_relabel]
  | _ => rfl

private theorem propertyName?_relabel (t : Tree) : Callee.propertyName? (relabel place t) = Callee.propertyName? t := by
  cases t with
  | node kind span fields =>
    rw [relabel, Callee.propertyName?_node, Callee.propertyName?_node, lookup_relabelFields, text?_relabel]
  | _ => rfl

private theorem ofTree_relabel (t : Tree) : Callee.ofTree (relabel place t) = Callee.ofTree t := by
  induction t using induction_lookup with
  | leaf t h => cases t <;> first | rfl | cases h
  | node kind span fields ih =>
    have hbinding : (relabel place (.node kind span fields)).binding? = _ := binding?_relabel _
    rw [relabel] at hbinding ⊢
    by_cases hi : kind = .identifier
    · simp only [Callee.ofTree, hi, if_true] at hbinding ⊢
      rw [hbinding]
    by_cases hparen : kind = .paren
    · subst hparen
      rw [Callee.ofTree_paren, Callee.ofTree_paren, lookup_relabelFields, ih]
    by_cases hm : kind = .member
    · subst hm
      rw [Callee.ofTree_member, Callee.ofTree_member, lookup_relabelFields, lookup_relabelFields,
        propertyName?_relabel, ih]
    · rw [Callee.ofTree_other hi hparen hm, Callee.ofTree_other hi hparen hm]

private theorem callsPure_relabel {pure : Tree → Bool} (hp : Nominal pure) (t : Tree) :
    (relabel place t).callsPure pure = t.callsPure pure := by
  cases t with
  | node kind span fields =>
    have hcallee : hasExpressionCallee (relabelFields place fields) = hasExpressionCallee fields := by
      simp only [hasExpressionCallee, isKind, lookup_relabelFields, kind?_relabel]
    simp only [relabel, callsPure, callee?, hcallee]
    split
    · rw [lookup_relabelFields]
      exact hp.congr (ofTree_relabel _)
    · rfl
  | _ => rfl

end Tree

namespace Imports
variable {place : Pos → Pos}

private theorem exportedName?_relabel (t : Tree) : exportedName? (t.relabel place) = exportedName? t := by
  simp only [exportedName?, kind?_relabel, flag_relabel, field_relabel, isNull_relabel, text?_relabel]

private theorem addSpecifier_relabel (source : Option String) (imports : Imports) (t : Tree) :
    addSpecifier source imports (t.relabel place) = addSpecifier source imports t := by
  rw [addSpecifier, field_relabel, binding?_relabel, exportedName?_relabel]
  rfl

private theorem addItem_relabel (imports : Imports) (t : Tree) : addItem imports (t.relabel place) = addItem imports t := by
  simp only [addItem, isKind, kind?_relabel, flag_relabel, field_relabel, text?_relabel, items_relabel,
    List.foldl_map, addSpecifier_relabel]
  rfl

/-- A module imports the same wherever it stands. -/
theorem ofModule_relabel (t : Tree) : ofModule (t.relabel place) = ofModule t := by
  simp only [ofModule, field_relabel, items_relabel, List.foldl_map, addItem_relabel]

end Imports

/-- A map of the places in front of the fresh positions that keeps them apart and in front, with the place where no
text is in its own. All further positions stay. -/
structure Pos.Relabels (place : Pos → Pos) : Prop where
  dummy : place .dummy = .dummy
  below {p : Pos} (h : p < .firstFresh) : place p < .firstFresh
  apart {p q : Pos} (hp : p < .firstFresh) (hq : q < .firstFresh) (h : place p = place q) : p = q
  stays {p : Pos} (h : .firstFresh ≤ p) : place p = p

private theorem Pos.Relabels.injective {place : Pos → Pos} (h : Pos.Relabels place) : Function.Injective place := by
  intro p q he
  rcases Nat.lt_or_ge p Pos.firstFresh with hp | hp <;> rcases Nat.lt_or_ge q Pos.firstFresh with hq | hq
  · exact h.apart hp hq he
  · rw [h.stays hq] at he
    exact absurd (he ▸ h.below hp) (Nat.not_lt.mpr hq)
  · rw [h.stays hp] at he
    exact absurd (he ▸ h.below hq) (Nat.not_lt.mpr hp)
  · rwa [h.stays hp, h.stays hq] at he

/-- Two places in front of the fresh positions can be exchanged, if text stands at both. -/
theorem Pos.relabels_swap {a b : Pos} (ha : a ≠ .dummy) (hb : b ≠ .dummy) (ha' : a < .firstFresh)
    (hb' : b < .firstFresh) : Pos.Relabels (Equiv.swap a b) where
  dummy := Equiv.swap_apply_of_ne_of_ne ha.symm hb.symm
  below {p} hp := by
    rw [Equiv.swap_apply_def]
    split
    · exact hb'
    · split
      · exact ha'
      · exact hp
  apart _ _ h := (Equiv.swap a b).injective h
  stays {p} hp := Equiv.swap_apply_of_ne_of_ne (fun h => Nat.not_lt.mpr hp (h ▸ ha')) fun h => Nat.not_lt.mpr hp (h ▸ hb')

/-- The translation that moves all spans. -/
def Translation.relabelling {place : Pos → Pos} (h : Pos.Relabels place) : Translation where
  tree := relabel place
  fields _ := relabelFields place
  place := place
  tree_node _ _ _ := rfl
  kind?_tree := kind?_relabel
  tree_list items := congrArg Tree.list (relabelItems_eq items)
  isLeaf_tree t := by cases t <;> rfl
  tree_null := rfl
  fields_passage _ := relabelFields_eq
  place_injective := h.injective
  place_dummy := h.dummy

/-- Whether the comments of one store stand in another one at the moved places, and nothing else there. -/
structure Comments.Relabelled (place : Pos → Pos) (store store' : Comments) : Prop where
  moved (p : Pos) : store'.get (place p) = store.get p
  others {q : Pos} (h : ∀ p, place p ≠ q) : store'.get q = []

private theorem Comments.get_single (p q : Pos) (cs : List Comment) :
    Comments.get ⟨[(p, cs)]⟩ q = if q = p then cs else [] := by
  rw [show Comments.get ⟨[(p, cs)]⟩ q = if p = q then cs else [] from rfl]
  exact if_congr eq_comm rfl rfl

namespace Comments.Relabelled
variable {place : Pos → Pos} {store store' : Comments}

private theorem set (hplace : Function.Injective place) (h : store.Relabelled place store') (p : Pos) (cs : List Comment) :
    (store.set p cs).Relabelled place (store'.set (place p) cs) where
  moved q := by
    rw [get_set, get_set, h.moved]
    exact if_congr hplace.eq_iff rfl rfl
  others hq := by
    rw [get_set, if_neg (hq p).symm]
    exact h.others hq

private theorem append (hplace : Function.Injective place) (h : store.Relabelled place store') (p : Pos) (cs : List Comment) :
    (store.append p cs).Relabelled place (store'.append (place p) cs) := by
  rw [Comments.append, Comments.append, h.moved]
  exact h.set hplace p _

private theorem moveMarker (hplace : Function.Injective place) (h : store.Relabelled place store') (p q : Pos) :
    (store.moveMarker p q).Relabelled place (store'.moveMarker (place p) (place q)) := by
  unfold Comments.moveMarker
  rw [h.moved]
  split
  · exact h
  · exact ((h.set hplace p []).append hplace q _).append hplace p _

private theorem accepts (hplace : Pos.Relabels place) (h : store.Relabelled place store') (p : Pos) :
    store'.accepts (place p) = store.accepts p := by
  have hdummy : place p = .dummy ↔ p = .dummy := by
    rw [← hplace.injective.eq_iff (a := p), hplace.dummy]
  have hreserved : place p = .reserved ↔ p = .reserved := by
    rw [← hplace.injective.eq_iff (a := p), hplace.stays (p := .reserved) (by decide)]
  simp only [Comments.accepts, isMarked, h.moved, hdummy, hreserved]

end Comments.Relabelled

/-- Whether one marking is another one at the moved places. -/
structure Marking.Relabelled (place : Pos → Pos) (s s' : Marking) : Prop where
  comments : s.comments.Relabelled place s'.comments
  marked (p : Pos) : place p ∈ s'.marked ↔ p ∈ s.marked
  fresh : s'.fresh = s.fresh

namespace Marking.Relabelled
variable {place : Pos → Pos} {s s' : Marking}

private theorem mark (hplace : Pos.Relabels place) (h : s.Relabelled place s') (p : Pos) :
    (s.apply p .mark).Relabelled place (s'.apply (place p) .mark) where
  comments := h.comments.append hplace.injective p _
  marked q := by
    simp only [apply, List.mem_insert_iff, h.marked, hplace.injective.eq_iff]
  fresh := h.fresh

private theorem release (hplace : Pos.Relabels place) (h : s.Relabelled place s') (hfresh : .firstFresh ≤ s.fresh) (p : Pos) :
    (s.apply p .release).Relabelled place (s'.apply (place p) .release) where
  comments := by
    rw [apply, apply, Marking.release, Marking.release, h.fresh]
    simpa only [hplace.stays hfresh] using h.comments.moveMarker hplace.injective p s.fresh
  marked q := by
    simp only [apply, Marking.release, List.mem_filter, h.marked, decide_eq_true_eq, ne_eq, hplace.injective.eq_iff]
  fresh := congrArg Pos.next h.fresh

end Marking.Relabelled

/-- A walk over a relabelled program keeps the marking relabelled, as long as its fresh positions are fresh. -/
theorem Pos.Relabels.keeps {place : Pos → Pos} (hplace : Pos.Relabels place) {pure : Tree → Bool} (hp : Nominal pure)
    (nodes : List Tree) :
    (Translation.relabelling hplace).Keeps pure pure nodes (.firstFresh ≤ ·) (Marking.Relabelled place) where
  callsPure _ := callsPure_relabel hp _
  marked h := h.marked
  accepts h := h.comments.accepts hplace
  fresh h := h.fresh
  stays h := hplace.stays h
  mark h := h.mark hplace
  release h ht := h.release hplace ht

/-- Walks over a tree and over the relabelled one go together. -/
theorem Pos.Relabels.walk {place : Pos → Pos} (hplace : Pos.Relabels place) {pure : Tree → Bool} (hp : Nominal pure)
    (t : Tree) {s s' : Marking} (hs : s.Relabelled place s')
    (ht : ∀ q ∈ taken pure (visits pure t s), .firstFresh ≤ q) :
    Carried (relabel place) (Marking.Relabelled place) (walk pure t s) (walk pure (t.relabel place) s') := by
  have hkeeps := hplace.keeps hp t.reached
  refine Translation.Keeps.walk_along hp hp (fun _ : Unit => hkeeps) ?_ t () s s' hs (List.Subset.refl _) ht
  intro _ kind span fs _ _ hfs
  have hfields : (Translation.relabelling hplace).fields kind = List.map (Prod.map id (relabel place)) :=
    funext relabelFields_eq
  rw [hfields]
  exact Translation.Keeps.fields_along (fun _ => relabel place) fun e he => hfs e he ()

namespace Annotator

private theorem walks_relabel (w : Whitelist) (program : Tree) (place : Pos → Pos) :
    walks w (program.relabel place) = walks w program := by
  rw [walks, walks, isKind, kind?_relabel, Imports.ofModule_relabel]
  rfl

/-- A run does not depend on where the program stands, only on which of its places are the same. At other places, with
the comments there too, a run over the program leaves the program and the comments that it leaves here at those places,
and it takes the same fresh positions. -/
theorem positions_relabelled (w : Whitelist) (program : Tree) {comments comments' : Comments} {c : Pos}
    {place : Pos → Pos} (hplace : Pos.Relabels place) (hcomments : comments.Relabelled place comments')
    (hc : .firstFresh ≤ c) (hk : c + takes w program (start comments c) ≤ .reserved) :
    let run := visit w program (start comments c)
    let run' := visit w (program.relabel place) (start comments' c)
    run'.1 = run.1.relabel place ∧ run.2.marking.comments.Relabelled place run'.2.marking.comments ∧
      run'.2.marking.fresh = run.2.marking.fresh := by
  intro run run'
  have hverdict : verdict w (program.relabel place) = verdict w program := by
    rw [verdict, verdict, Imports.ofModule_relabel]
  cases hwalks : walks w program with
  | false =>
    have hwalks' : walks w (program.relabel place) = false := (walks_relabel w program place).trans hwalks
    simp only [run, run', visit_of_not_walks hwalks, visit_of_not_walks hwalks']
    exact ⟨trivial, hcomments, rfl⟩
  | true =>
    have hwalks' : walks w (program.relabel place) = true := (walks_relabel w program place).trans hwalks
    have htaken : ∀ q ∈ taken (verdict w program) (Marking.visits (verdict w program) program ⟨comments, [], c⟩),
        Pos.firstFresh ≤ q := by
      intro q hq
      rw [← visits_of_walks hwalks comments c,
        (taken_visits w program comments (Nat.le_trans hk (by decide))).1] at hq
      exact Nat.le_trans hc (List.mem_range'_1.mp hq).1
    have hs : Marking.Relabelled place ⟨comments, [], c⟩ ⟨comments', [], c⟩ := ⟨hcomments, by simp, rfl⟩
    have hcarried := hplace.walk (verdict_nominal w program) program hs htaken
    simp only [run, run', visit_of_walks hwalks, visit_of_walks hwalks', hverdict]
    exact ⟨hcarried.left, hcarried.marking.comments, hcarried.marking.fresh⟩

/-- The two calls of `f` change places, and the comment in front of the first one goes with it. -/
theorem positions_relabelled_chained :
    let place := Equiv.swap (25 : Pos) 27
    let comments : Comments := ⟨[(25, [⟨.line, " first"⟩])]⟩
    let comments' : Comments := ⟨[(27, [⟨.line, " first"⟩])]⟩
    let run := visit .calledF .chained (start comments .firstFresh)
    let run' := visit .calledF (Tree.chained.relabel place) (start comments' .firstFresh)
    comments.Relabelled place comments' ∧ run'.1 = run.1.relabel place ∧
      run'.2.marking.comments.get 25 = [Comment.marker] := by
  intro place comments comments' run run'
  have hplace : Pos.Relabels place := Pos.relabels_swap (by decide) (by decide) (by decide) (by decide)
  have hcomments : comments.Relabelled place comments' := by
    refine ⟨fun p => ?_, fun {q} hq => ?_⟩
    · simp only [comments, comments', place, Comments.get_single, Equiv.swap_apply_eq_iff, Equiv.swap_apply_right]
    · have hne : (27 : Pos) ≠ q := fun h => hq 25 ((Equiv.swap_apply_left 25 27).trans h)
      simp only [comments', Comments.get_single, if_neg hne.symm]
  obtain ⟨hprogram, hmoved, -⟩ :=
    positions_relabelled .calledF .chained hplace hcomments (c := .firstFresh) (Nat.le_refl _) (by decide +kernel)
  refine ⟨hcomments, hprogram, ?_⟩
  have hplaced := hmoved.moved 27
  rw [Equiv.swap_apply_right] at hplaced
  exact hplaced.trans (by decide +kernel)

end Annotator
end PureCalls
