import PureCalls.Tree

/-! Comments, and stores that keep a list of comments at each position. -/
namespace PureCalls

inductive CommentKind where
  | block
  | line
  deriving DecidableEq, Repr, Inhabited

/-- A comment without the signs that open and close it. -/
structure Comment where
  kind : CommentKind
  text : String
  deriving DecidableEq, Repr, Inhabited

namespace Comment

/-- The text that marks a call as pure. -/
def markerText : String := "#__PURE__"

/-- The comment that marks a call as pure. -/
def marker : Comment := ⟨.block, markerText⟩

private def occursIn (word : List Char) : List Char → Bool
  | [] => word.isEmpty
  | c :: rest => word.isPrefixOf (c :: rest) || occursIn word rest

/-- Whether a comment is read as a mark of purity, in either of its two spellings. -/
def isMark (c : Comment) : Bool :=
  occursIn "#__PURE__".toList c.text.toList || occursIn "@__PURE__".toList c.text.toList

@[simp] theorem isMark_marker : marker.isMark = true := by
  decide

end Comment

/-- Comments by position. A position without comments has no entry, and entries are in the order of their
positions. -/
structure Comments where
  entries : List (Pos × List Comment) := []
  deriving Repr, Inhabited

namespace Comments

private def find (p : Pos) : List (Pos × List Comment) → List Comment
  | [] => []
  | (q, cs) :: rest => if q = p then cs else find p rest

/-- The comments at a position, oldest first. -/
def get (store : Comments) (p : Pos) : List Comment :=
  find p store.entries

private def insert (p : Pos) (cs : List Comment) : List (Pos × List Comment) → List (Pos × List Comment)
  | [] => [(p, cs)]
  | (q, ds) :: rest => if p < q then (p, cs) :: (q, ds) :: rest else (q, ds) :: insert p cs rest

/-- Puts a list in place of all comments at a position. -/
def set (store : Comments) (p : Pos) (cs : List Comment) : Comments :=
  let others := store.entries.filter fun entry => entry.1 ≠ p
  ⟨if cs.isEmpty then others else insert p cs others⟩

/-- Adds comments behind those at a position. -/
def append (store : Comments) (p : Pos) (cs : List Comment) : Comments :=
  store.set p (store.get p ++ cs)

/-- Whether a comment at a position marks what starts there as pure. -/
def isMarked (store : Comments) (p : Pos) : Bool :=
  (store.get p).any Comment.isMark

theorem isMarked_of_get {store : Comments} {p : Pos} {cs : List Comment}
    (h : store.get p = cs ++ [Comment.marker]) : store.isMarked p = true := by
  simp [isMarked, h]

theorem isMarked_congr {store other : Comments} {p : Pos} (h : store.get p = other.get p) :
    store.isMarked p = other.isMarked p := by
  simp only [isMarked, h]

private theorem find_filter {p q : Pos} (h : q ≠ p) (l : List (Pos × List Comment)) :
    find q (l.filter fun entry => entry.1 ≠ p) = find q l := by
  induction l with
  | nil => rfl
  | cons entry l ih =>
    by_cases hp : entry.1 = p
    · rw [List.filter_cons_of_neg (by simpa using hp), ih, find, if_neg fun he => h (he.symm.trans hp)]
    · rw [List.filter_cons_of_pos (by simpa using hp), find, find, ih]

private theorem find_insert {p q : Pos} (cs : List Comment) (l : List (Pos × List Comment))
    (h : ∀ entry ∈ l, entry.1 ≠ p) :
    find q (insert p cs l) = if q = p then cs else find q l := by
  induction l with
  | nil => simp only [insert, find, eq_comm]
  | cons entry l ih =>
    have hp := h entry List.mem_cons_self
    have hl := ih fun e he => h e (List.mem_cons_of_mem _ he)
    unfold insert
    split
    · simp only [find, eq_comm]
    · simp only [find, hl]
      by_cases hq : entry.1 = q
      · simp [hq, show q ≠ p from hq ▸ hp]
      · simp [hq]

private theorem find_eq_nil {p : Pos} (l : List (Pos × List Comment)) (h : ∀ entry ∈ l, entry.1 ≠ p) :
    find p l = [] := by
  induction l with
  | nil => rfl
  | cons entry l ih =>
    rw [find, if_neg (h entry List.mem_cons_self)]
    exact ih fun e he => h e (List.mem_cons_of_mem _ he)

theorem get_eq_nil {store : Comments} {p : Pos} (h : p ∉ store.entries.map Prod.fst) : store.get p = [] :=
  find_eq_nil _ fun _ he hp => h (hp ▸ List.mem_map_of_mem he)

@[simp] theorem get_set (store : Comments) (p q : Pos) (cs : List Comment) :
    (store.set p cs).get q = if q = p then cs else store.get q := by
  have hothers : ∀ entry ∈ store.entries.filter fun entry => entry.1 ≠ p, entry.1 ≠ p := by
    intro entry he
    simpa using (List.mem_filter.mp he).2
  unfold set get
  dsimp only
  split
  · by_cases hq : q = p
    · subst hq
      simp_all [find_eq_nil]
    · rw [if_neg hq]
      exact find_filter hq _
  · rw [find_insert cs _ hothers]
    by_cases hq : q = p
    · simp [hq]
    · rw [if_neg hq, if_neg hq]
      exact find_filter hq _

@[simp] theorem get_append (store : Comments) (p q : Pos) (cs : List Comment) :
    (store.append p cs).get q = if q = p then store.get p ++ cs else store.get q :=
  get_set store p q _

/-- The list without its last comment that reads exactly `#__PURE__`, if there is one. -/
def dropLastMarker : List Comment → Option (List Comment)
  | [] => none
  | c :: rest =>
    match dropLastMarker rest with
    | some rest => some (c :: rest)
    | none => if c.text = Comment.markerText then some rest else none

theorem dropLastMarker_append (cs : List Comment) :
    dropLastMarker (cs ++ [Comment.marker]) = some cs := by
  induction cs with
  | nil => rfl
  | cons c cs ih => simp only [List.cons_append, dropLastMarker, ih]

/-- Takes the last marker at `source` away and puts one at `target`. All other comments stay, and nothing happens
where there is no marker to move. -/
def moveMarker (store : Comments) (source target : Pos) : Comments :=
  match dropLastMarker (store.get source) with
  | none => store
  | some others => ((store.set source []).append target [Comment.marker]).append source others

/-- A marker at the end of its list is the one that moves. -/
theorem get_moveMarker {store : Comments} {source target : Pos} {cs : List Comment}
    (h : store.get source = cs ++ [Comment.marker]) (hne : source ≠ target) (q : Pos) :
    (store.moveMarker source target).get q =
      if q = source then cs else if q = target then store.get target ++ [Comment.marker] else store.get q := by
  unfold moveMarker
  rw [h, dropLastMarker_append]
  by_cases hs : q = source
  · simp [hs, hne]
  · by_cases ht : q = target <;> simp [hs, ht, hne.symm]

end Comments
end PureCalls
