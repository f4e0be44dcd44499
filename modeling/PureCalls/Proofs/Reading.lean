import Mathlib.Data.List.Forall2
import PureCalls.Proofs.Spelling

/-! How JSON lists, records and values are spelled, and that their readers read just that. -/
namespace PureCalls.Json

variable {α : Type} {item : Reader α} {spells : List Char → α → List Char → Prop}

/-- What leads to an element: blanks to the first one, and a comma between blanks to one behind another. -/
inductive Lead : Bool → List Char → List Char → Prop
  | first {cs rest} (h : Blanks cs rest) : Lead true cs rest
  | next {cs mid rest} (hcomma : Blanks cs (',' :: mid)) (h : Blanks mid rest) : Lead false cs rest

/-- Elements up to the sign that closes them, either from the first one on or behind another. -/
inductive Series {α : Type} (close : Char) (spells : List Char → α → List Char → Prop) :
    Bool → List Char → List α → List Char → Prop
  | nil {first cs rest} (h : Blanks cs (close :: rest)) : Series close spells first cs [] rest
  | cons {first cs start x mid xs rest} (hlead : Lead first cs start) (hx : spells start x mid)
      (h : Series close spells false mid xs rest) : Series close spells first cs (x :: xs) rest

/-- A field of a record: its key, a colon between blanks, and its value. -/
inductive Field {α : Type} (spells : List Char → α → List Char → Prop) : List Char → String × α → List Char → Prop
  | mk {cs key after mid start x rest} (hkey : Quoted cs key after) (hcolon : Blanks after (':' :: mid))
      (hblanks : Blanks mid start) (hx : spells start x rest) : Field spells ('"' :: cs) (String.ofList key, x) rest

/-- A text spells a value, and what is left stands behind it. -/
inductive Spelled : List Char → Value → List Char → Prop
  | null {rest} : Spelled ('n' :: 'u' :: 'l' :: 'l' :: rest) .null rest
  | yes {rest} : Spelled ('t' :: 'r' :: 'u' :: 'e' :: rest) (.bool true) rest
  | no {rest} : Spelled ('f' :: 'a' :: 'l' :: 's' :: 'e' :: rest) (.bool false) rest
  | number {cs digits integer fraction power rest} (h : IsNumber digits integer fraction power)
      (hcs : cs = digits ++ rest) : Spelled cs (.number (String.ofList digits)) rest
  | text {cs text rest} (h : Quoted cs text rest) : Spelled ('"' :: cs) (.text (String.ofList text)) rest
  | list {cs items rest} (h : Series ']' Spelled true cs items rest) : Spelled ('[' :: cs) (.list items) rest
  | record {cs fields rest} (h : Series '}' (Field Spelled) true cs fields rest) :
      Spelled ('{' :: cs) (.record fields) rest

/-- A value with at most so many lists and records inside one another, in which each number is as `digits` says. -/
inductive Value.Nested (digits : List Char → Prop) : (depth : Nat) → Value → Prop
  | null {depth} : Nested digits depth .null
  | bool {depth b} : Nested digits depth (.bool b)
  | number {depth literal} (h : digits literal.toList) : Nested digits depth (.number literal)
  | text {depth text} : Nested digits depth (.text text)
  | list {depth items} (h : ∀ v ∈ items, Nested digits depth v) : Nested digits (depth + 1) (.list items)
  | record {depth fields} (h : ∀ field ∈ fields, Nested digits depth field.2) :
      Nested digits (depth + 1) (.record fields)

theorem Value.Nested.imp {digits digits' : List Char → Prop} (hi : ∀ cs, digits cs → digits' cs) {depth : Nat}
    {v : Value} (h : v.Nested digits depth) : v.Nested digits' depth := by
  induction h with
  | null => exact .null
  | bool => exact .bool
  | number h => exact .number (hi _ h)
  | text => exact .text
  | list _ ih => exact .list ih
  | record _ ih => exact .record ih

/-- A text spells a value that is nested at most so deep and in which no number is too large. -/
def SpelledWithin (depth : Nat) (start : List Char) (v : Value) (rest : List Char) : Prop :=
  Spelled start v rest ∧ v.Nested IsFinite depth

/-- A reader reads what is spelled in some way, and nothing else. -/
structure Reads (item : Reader α) (spells : List Char → α → List Char → Prop) : Prop where
  sound {cs x rest} (h : item cs = .ok (x, rest)) : ∃ start, Blanks cs start ∧ spells start x rest
  complete {cs start x rest} (hblanks : Blanks cs start) (h : spells start x rest) (hrest : Follows rest) :
    item cs = .ok (x, rest)
  starts {start x rest} (h : spells start x rest) : ∃ c cs, start = c :: cs ∧ isBlank c = false ∧ c ≠ ']'
  length_le {start x rest} (h : spells start x rest) : rest.length ≤ start.length

theorem Blanks.trans {cs mid rest : List Char} (h : Blanks cs mid) (h' : Blanks mid rest) : Blanks cs rest := by
  induction h with
  | none => exact h'
  | some hc _ ih => exact .some hc (ih h')

theorem follows_nil : Follows [] :=
  fun _ h => nomatch h

theorem Blanks.follows {cs rest : List Char} (h : Blanks cs rest) (hrest : Follows rest) : Follows cs := by
  cases h with
  | none => exact hrest
  | @some c _ _ hc _ =>
    intro d hd
    cases hd
    simp only [isBlank, Bool.or_eq_true, decide_eq_true_eq] at hc
    obtain ((rfl | rfl) | rfl) | rfl := hc <;> decide

private theorem Quoted.length_lt {cs text rest : List Char} (h : Quoted cs text rest) : rest.length < cs.length := by
  induction h with
  | close => exact Nat.lt_succ_self _
  | plain _ _ _ _ ih => exact Nat.lt_succ_of_lt ih
  | escape hc _ ih =>
    have := readEscape_length (readEscape_eq_ok.mpr hc)
    simp only [List.length_cons]
    omega

/-- Behind an element stands a comma or the sign that closes the elements. -/
theorem Series.follows {close : Char} {cs rest : List Char} {xs : List α} (h : Series close spells false cs xs rest)
    (hclose : close = ']' ∨ close = '}') : Follows cs := by
  cases h with
  | nil h =>
    apply h.follows
    intro c hc
    cases hc
    obtain rfl | rfl := hclose <;> decide
  | cons hlead =>
    obtain ⟨⟩ | ⟨hcomma, -⟩ := hlead
    apply hcomma.follows
    intro c hc
    cases hc
    decide

private theorem Lead.length_le {first : Bool} {cs rest : List Char} (h : Lead first cs rest) : rest.length ≤ cs.length := by
  cases h with
  | first h => exact h.length_le
  | next hcomma h => exact h.length_le.trans (Nat.le_of_succ_le hcomma.length_le)

private theorem Series.length_lt {close : Char} {first : Bool} {cs rest : List Char} {xs : List α}
    (hle : ∀ {start x rest}, spells start x rest → rest.length ≤ start.length)
    (h : Series close spells first cs xs rest) : rest.length < cs.length := by
  induction h with
  | nil h => exact h.length_le
  | cons hlead hx _ ih => exact ih.trans_le ((hle hx).trans hlead.length_le)

private theorem readMoreItems_sound (hitem : Reads item spells) {n : Nat} {cs rest : List Char} {xs : List α}
    (h : readMoreItems item n cs = .ok (xs, rest)) : Series ']' spells false cs xs rest := by
  induction n generalizing cs xs with
  | zero => cases h
  | succ n ih =>
    have hblanks := blanks_skipBlanks cs
    rw [readMoreItems] at h
    split at h
    · cases h
    next heq =>
      cases h
      exact .nil (heq ▸ hblanks)
    next mid heq =>
      split at h
      · cases h
      · cases h
      · obtain ⟨⟨x, after⟩, hx, hmore⟩ := bind_eq_ok.mp h
        obtain ⟨⟨xs', last⟩, hxs, hlast⟩ := bind_eq_ok.mp hmore
        cases hlast
        obtain ⟨start, hstart, hx⟩ := hitem.sound hx
        exact .cons (.next (heq ▸ hblanks) ((blanks_skipBlanks mid).trans hstart)) hx (ih hxs)
    · cases h

theorem readItems_sound (hitem : Reads item spells) {cs rest : List Char} {xs : List α}
    (h : readItems item cs = .ok (xs, rest)) : Series ']' spells true cs xs rest := by
  have hblanks := blanks_skipBlanks cs
  unfold readItems at h
  split at h
  · cases h
  next heq =>
    cases h
    exact .nil (heq ▸ hblanks)
  · obtain ⟨⟨x, after⟩, hx, hmore⟩ := bind_eq_ok.mp h
    obtain ⟨⟨xs', last⟩, hxs, hlast⟩ := bind_eq_ok.mp hmore
    cases hlast
    obtain ⟨start, hstart, hx⟩ := hitem.sound hx
    exact .cons (.first (hblanks.trans hstart)) hx (readMoreItems_sound hitem hxs)

private theorem readMoreItems_complete (hitem : Reads item spells) {n : Nat} {cs rest : List Char} {xs : List α}
    (h : Series ']' spells false cs xs rest) (hn : cs.length < n) : readMoreItems item n cs = .ok (xs, rest) := by
  induction n generalizing cs xs with
  | zero => omega
  | succ n ih =>
    rw [readMoreItems]
    cases h with
    | nil h =>
      rw [h.skipBlanks_cons (by decide)]
      rfl
    | @cons _ _ start x mid xs _ hlead hx h =>
      obtain ⟨⟩ | @⟨_, after, _, hcomma, hblanks⟩ := hlead
      obtain ⟨c, cs', rfl, hc, hclose⟩ := hitem.starts hx
      -- At least the comma is taken, so what bounds the rest goes down with it.
      have hlength : mid.length < n := by
        have := hitem.length_le hx
        have := hblanks.length_le
        have := hcomma.length_le
        simp only [List.length_cons] at *
        omega
      rw [hcomma.skipBlanks_cons (by decide)]
      simp only [hblanks.skipBlanks_cons hc]
      split
      next heq => cases heq
      next heq =>
        cases heq
        exact absurd rfl hclose
      next =>
        refine bind_eq_ok.mpr ⟨_, hitem.complete .none hx (h.follows (.inl rfl)), ?_⟩
        exact bind_eq_ok.mpr ⟨_, ih h hlength, rfl⟩

theorem readItems_complete (hitem : Reads item spells) {cs rest : List Char} {xs : List α}
    (h : Series ']' spells true cs xs rest) : readItems item cs = .ok (xs, rest) := by
  unfold readItems
  cases h with
  | nil h =>
    rw [h.skipBlanks_cons (by decide)]
    rfl
  | cons hlead hx h =>
    obtain ⟨hblanks⟩ | ⟨⟩ := hlead
    obtain ⟨c, cs', rfl, hc, hclose⟩ := hitem.starts hx
    rw [hblanks.skipBlanks_cons hc]
    split
    next heq => cases heq
    next heq =>
      cases heq
      exact absurd rfl hclose
    next =>
      refine bind_eq_ok.mpr ⟨_, hitem.complete .none hx (h.follows (.inl rfl)), ?_⟩
      exact bind_eq_ok.mpr ⟨_, readMoreItems_complete hitem h (Nat.lt_succ_self _), rfl⟩

theorem readColon_eq_ok {cs rest : List Char} : readColon cs = .ok ((), rest) ↔ Blanks cs (':' :: rest) := by
  constructor
  · intro h
    have hblanks := blanks_skipBlanks cs
    unfold readColon at h
    split at h
    · cases h
    next heq =>
      cases h
      exact heq ▸ hblanks
    · cases h
  · intro h
    rw [readColon, h.skipBlanks_cons (by decide)]
    rfl

theorem readField_sound (hitem : Reads item spells) {cs rest : List Char} {field : String × α}
    (h : readField item cs = .ok (field, rest)) : Field spells ('"' :: cs) field rest := by
  obtain ⟨⟨key, after⟩, hkey, hread⟩ := bind_eq_ok.mp h
  obtain ⟨⟨_, mid⟩, hcolon, hvalue⟩ := bind_eq_ok.mp hread
  obtain ⟨⟨x, last⟩, hx, hlast⟩ := bind_eq_ok.mp hvalue
  cases hlast
  obtain ⟨start, hstart, hx⟩ := hitem.sound hx
  exact .mk (readText_eq_ok.mp hkey) (readColon_eq_ok.mp hcolon) hstart hx

private theorem readField_complete (hitem : Reads item spells) {cs rest : List Char} {field : String × α}
    (h : Field spells ('"' :: cs) field rest) (hrest : Follows rest) : readField item cs = .ok (field, rest) := by
  obtain ⟨hkey, hcolon, hblanks, hx⟩ := h
  refine bind_eq_ok.mpr ⟨_, readText_eq_ok.mpr hkey, ?_⟩
  refine bind_eq_ok.mpr ⟨_, readColon_eq_ok.mpr hcolon, ?_⟩
  exact bind_eq_ok.mpr ⟨_, hitem.complete hblanks hx hrest, rfl⟩

theorem Field.length_lt {start rest : List Char} {field : String × α}
    (hle : ∀ {start x rest}, spells start x rest → rest.length ≤ start.length) (h : Field spells start field rest) :
    rest.length < start.length := by
  obtain ⟨hkey, hcolon, hblanks, hx⟩ := h
  have := hkey.length_lt
  have := hcolon.length_le
  have := hblanks.length_le
  have := hle hx
  simp only [List.length_cons] at *
  omega

private theorem readMoreFields_sound (hitem : Reads item spells) {n : Nat} {cs rest : List Char} {fields : List (String × α)}
    (h : readMoreFields item n cs = .ok (fields, rest)) : Series '}' (Field spells) false cs fields rest := by
  induction n generalizing cs fields with
  | zero => cases h
  | succ n ih =>
    have hblanks := blanks_skipBlanks cs
    rw [readMoreFields] at h
    split at h
    · cases h
    next heq =>
      cases h
      exact .nil (heq ▸ hblanks)
    next mid heq =>
      have hmid := blanks_skipBlanks mid
      split at h
      · cases h
      next hquote =>
        obtain ⟨⟨field, after⟩, hfield, hmore⟩ := bind_eq_ok.mp h
        obtain ⟨⟨fields', last⟩, hfields, hlast⟩ := bind_eq_ok.mp hmore
        cases hlast
        exact .cons (.next (heq ▸ hblanks) (hquote ▸ hmid)) (readField_sound hitem hfield) (ih hfields)
      · cases h
    · cases h

theorem readFields_sound (hitem : Reads item spells) {cs rest : List Char} {fields : List (String × α)}
    (h : readFields item cs = .ok (fields, rest)) : Series '}' (Field spells) true cs fields rest := by
  have hblanks := blanks_skipBlanks cs
  unfold readFields at h
  split at h
  · cases h
  next heq =>
    cases h
    exact .nil (heq ▸ hblanks)
  next heq =>
    obtain ⟨⟨field, after⟩, hfield, hmore⟩ := bind_eq_ok.mp h
    obtain ⟨⟨fields', last⟩, hfields, hlast⟩ := bind_eq_ok.mp hmore
    cases hlast
    exact .cons (.first (heq ▸ hblanks)) (readField_sound hitem hfield) (readMoreFields_sound hitem hfields)
  · cases h

private theorem readMoreFields_complete (hitem : Reads item spells) {n : Nat} {cs rest : List Char} {fields : List (String × α)}
    (h : Series '}' (Field spells) false cs fields rest) (hn : cs.length < n) :
    readMoreFields item n cs = .ok (fields, rest) := by
  induction n generalizing cs fields with
  | zero => omega
  | succ n ih =>
    rw [readMoreFields]
    cases h with
    | nil h =>
      rw [h.skipBlanks_cons (by decide)]
      rfl
    | @cons _ _ start x mid xs _ hlead hx h =>
      obtain ⟨⟩ | @⟨_, after, _, hcomma, hblanks⟩ := hlead
      have hlength : mid.length < n := by
        have := hx.length_lt hitem.length_le
        have := hblanks.length_le
        have := hcomma.length_le
        simp only [List.length_cons] at *
        omega
      obtain ⟨hkey⟩ := id hx
      rw [hcomma.skipBlanks_cons (by decide)]
      simp only [hblanks.skipBlanks_cons (show isBlank '"' = false by decide)]
      refine bind_eq_ok.mpr ⟨_, readField_complete hitem hx (h.follows (.inr rfl)), ?_⟩
      exact bind_eq_ok.mpr ⟨_, ih h hlength, rfl⟩

theorem readFields_complete (hitem : Reads item spells) {cs rest : List Char} {fields : List (String × α)}
    (h : Series '}' (Field spells) true cs fields rest) : readFields item cs = .ok (fields, rest) := by
  unfold readFields
  cases h with
  | nil h =>
    rw [h.skipBlanks_cons (by decide)]
    rfl
  | cons hlead hx h =>
    obtain ⟨hblanks⟩ | ⟨⟩ := hlead
    obtain ⟨hkey⟩ := id hx
    rw [hblanks.skipBlanks_cons (by decide)]
    refine bind_eq_ok.mpr ⟨_, readField_complete hitem hx (h.follows (.inr rfl)), ?_⟩
    exact bind_eq_ok.mpr ⟨_, readMoreFields_complete hitem h (Nat.lt_succ_self _), rfl⟩

/-- Elements of which each stands in a relation to a spelled one. -/
theorem series_rel_iff {β : Type} {R : α → β → Prop} {close : Char} {first : Bool} {cs rest : List Char} {ys : List β} :
    Series close (fun start y rest => ∃ x, spells start x rest ∧ R x y) first cs ys rest ↔
      ∃ xs, Series close spells first cs xs rest ∧ List.Forall₂ R xs ys := by
  constructor
  · intro h
    induction h with
    | nil h => exact ⟨[], .nil h, .nil⟩
    | cons hlead hx _ ih =>
      obtain ⟨x, hx, hR⟩ := hx
      obtain ⟨xs, hxs, hall⟩ := ih
      exact ⟨x :: xs, .cons hlead hx hxs, .cons hR hall⟩
  · rintro ⟨xs, h, hall⟩
    induction h generalizing ys with
    | nil h =>
      cases hall
      exact .nil h
    | cons hlead hx _ ih =>
      cases hall with
      | cons hR hall => exact .cons hlead ⟨_, hx, hR⟩ (ih hall)

private theorem field_rel_iff {β : Type} {R : α → β → Prop} {cs rest : List Char} {field : String × β} :
    Field (fun start y rest => ∃ x, spells start x rest ∧ R x y) cs field rest ↔
      ∃ f, Field spells cs f rest ∧ f.1 = field.1 ∧ R f.2 field.2 := by
  constructor
  · rintro ⟨hkey, hcolon, hblanks, x, hx, hR⟩
    exact ⟨_, .mk hkey hcolon hblanks hx, rfl, hR⟩
  · rintro ⟨f, ⟨hkey, hcolon, hblanks, hx⟩, hname, hR⟩
    obtain ⟨name, y⟩ := field
    cases hname
    exact .mk hkey hcolon hblanks ⟨_, hx, hR⟩

theorem fields_rel_iff {β : Type} {R : α → β → Prop} {first : Bool} {cs rest : List Char} {fields : List (String × β)} :
    Series '}' (Field fun start y rest => ∃ x, spells start x rest ∧ R x y) first cs fields rest ↔
      ∃ fs, Series '}' (Field spells) first cs fs rest ∧
        List.Forall₂ (fun f field => f.1 = field.1 ∧ R f.2 field.2) fs fields := by
  have hfield : (Field fun start y rest => ∃ x, spells start x rest ∧ R x y) =
      fun start field rest => ∃ f, Field spells start f rest ∧ f.1 = field.1 ∧ R f.2 field.2 := by
    funext start field rest
    exact propext field_rel_iff
  rw [hfield, series_rel_iff]

/-- Elements that are spelled and have a property are elements that are spelled, of which each has the property. -/
theorem series_and_iff {P : α → Prop} {close : Char} {first : Bool} {cs rest : List Char} {xs : List α} :
    Series close (fun start x rest => spells start x rest ∧ P x) first cs xs rest ↔
      Series close spells first cs xs rest ∧ ∀ x ∈ xs, P x := by
  have hself : (fun start x rest => spells start x rest ∧ P x) =
      fun start y rest => ∃ x, spells start x rest ∧ P x ∧ x = y := by
    simp only [exists_eq_right_right]
  rw [hself, series_rel_iff]
  simp only [List.forall₂_and_left, List.forall₂_eq_eq_eq, exists_eq_right_right]

private theorem field_and_iff {P : α → Prop} {cs rest : List Char} {field : String × α} :
    Field (fun start x rest => spells start x rest ∧ P x) cs field rest ↔ Field spells cs field rest ∧ P field.2 := by
  constructor
  · rintro ⟨hkey, hcolon, hblanks, hx, hP⟩
    exact ⟨.mk hkey hcolon hblanks hx, hP⟩
  · rintro ⟨⟨hkey, hcolon, hblanks, hx⟩, hP⟩
    exact .mk hkey hcolon hblanks ⟨hx, hP⟩

private theorem fields_and_iff {P : α → Prop} {first : Bool} {cs rest : List Char} {fields : List (String × α)} :
    Series '}' (Field fun start x rest => spells start x rest ∧ P x) first cs fields rest ↔
      Series '}' (Field spells) first cs fields rest ∧ ∀ field ∈ fields, P field.2 := by
  have hfield : (Field fun start x rest => spells start x rest ∧ P x) =
      fun start field rest => Field spells start field rest ∧ P field.2 := by
    funext start field rest
    exact propext field_and_iff
  rw [hfield, series_and_iff]

theorem spelledWithin_list {depth : Nat} {cs rest : List Char} {items : List Value} :
    SpelledWithin (depth + 1) ('[' :: cs) (.list items) rest ↔ Series ']' (SpelledWithin depth) true cs items rest := by
  unfold SpelledWithin
  rw [series_and_iff]
  constructor
  · rintro ⟨h, hfits⟩
    cases hfits with
    | list hfits =>
    cases h with
    | list h => exact ⟨h, hfits⟩
  · rintro ⟨h, hfits⟩
    exact ⟨.list h, .list hfits⟩

theorem spelledWithin_record {depth : Nat} {cs rest : List Char} {fields : List (String × Value)} :
    SpelledWithin (depth + 1) ('{' :: cs) (.record fields) rest ↔
      Series '}' (Field (SpelledWithin depth)) true cs fields rest := by
  unfold SpelledWithin
  rw [fields_and_iff]
  constructor
  · rintro ⟨h, hfits⟩
    cases hfits with
    | record hfits =>
    cases h with
    | record h => exact ⟨h, hfits⟩
  · rintro ⟨h, hfits⟩
    exact ⟨.record h, .record hfits⟩

theorem IsNumber.starts {digits integer fraction : List Char} {power : Int}
    (h : IsNumber digits integer fraction power) : ∃ c ds, digits = c :: ds ∧ isNumberStart c = true := by
  obtain ⟨rfl | rfl, hinteger, -, -⟩ := h
  · obtain ⟨d, ds, rfl⟩ := List.exists_cons_of_ne_nil hinteger.1.1
    exact ⟨d, _, rfl, by simp [isNumberStart, hinteger.1.2 d List.mem_cons_self]⟩
  · exact ⟨'-', _, rfl, rfl⟩

theorem ne_of_isNumberStart {c d : Char} (hc : isNumberStart c = true) (hd : isNumberStart d = false) : c ≠ d := by
  rintro rfl
  rw [hc] at hd
  cases hd

/-- The first character of a value tells a list and a record from the others. -/
theorem Spelled.starts {start rest : List Char} {v : Value} (h : Spelled start v rest) :
    ∃ c cs, start = c :: cs ∧ isBlank c = false ∧ c ≠ ']' ∧ (c = '[' → ∃ items, v = .list items) ∧
      (c = '{' → ∃ fields, v = .record fields) := by
  cases h with
  | number h hcs =>
    obtain ⟨c, ds, rfl, hc⟩ := h.starts
    have hne {d : Char} (hd : isNumberStart d = false) : c ≠ d := ne_of_isNumberStart hc hd
    refine ⟨c, _, hcs, ?_, hne rfl, fun h => absurd h (hne rfl), fun h => absurd h (hne rfl)⟩
    simp [isBlank, hne (show isNumberStart ' ' = false from rfl), hne (show isNumberStart '\n' = false from rfl),
      hne (show isNumberStart '\t' = false from rfl), hne (show isNumberStart '\r' = false from rfl)]
  | list => exact ⟨_, _, rfl, rfl, by decide, fun _ => ⟨_, rfl⟩, fun h => absurd h (by decide)⟩
  | record => exact ⟨_, _, rfl, rfl, by decide, fun h => absurd h (by decide), fun _ => ⟨_, rfl⟩⟩
  | _ => exact ⟨_, _, rfl, rfl, by decide, fun h => absurd h (by decide), fun h => absurd h (by decide)⟩

private theorem readScalar_sound {depth : Nat} {cs rest : List Char} {v : Value} (h : readScalar cs = .ok (v, rest)) :
    SpelledWithin depth cs v rest := by
  unfold readScalar at h
  split at h
  · cases h
  · obtain ⟨⟨_, mid⟩, hword, h⟩ := bind_eq_ok.mp h
    cases h
    exact ⟨readWord_eq_ok.mp hword ▸ .null, .null⟩
  · obtain ⟨⟨_, mid⟩, hword, h⟩ := bind_eq_ok.mp h
    cases h
    exact ⟨readWord_eq_ok.mp hword ▸ .yes, .bool⟩
  · obtain ⟨⟨_, mid⟩, hword, h⟩ := bind_eq_ok.mp h
    cases h
    exact ⟨readWord_eq_ok.mp hword ▸ .no, .bool⟩
  · obtain ⟨⟨text, mid⟩, htext, h⟩ := bind_eq_ok.mp h
    cases h
    exact ⟨.text (readText_eq_ok.mp htext), .text⟩
  · split at h
    · obtain ⟨⟨literal, mid⟩, hnumber, h⟩ := bind_eq_ok.mp h
      cases h
      obtain ⟨digits, hfinite, hcs, rfl⟩ := readNumber_sound hnumber
      obtain ⟨_, _, _, hdigits, -⟩ := id hfinite
      exact ⟨.number hdigits hcs, .number (by rwa [String.toList_ofList])⟩
    · cases h

private theorem readScalar_complete {depth : Nat} {cs rest : List Char} {v : Value} (h : SpelledWithin depth cs v rest)
    (hlist : ∀ items, v ≠ .list items) (hrecord : ∀ fields, v ≠ .record fields) (hrest : Follows rest) :
    readScalar cs = .ok (v, rest) := by
  obtain ⟨hspelled, hfits⟩ := h
  cases hspelled with
  | null => exact bind_eq_ok.mpr ⟨_, readWord_eq_ok.mpr rfl, rfl⟩
  | yes => exact bind_eq_ok.mpr ⟨_, readWord_eq_ok.mpr rfl, rfl⟩
  | no => exact bind_eq_ok.mpr ⟨_, readWord_eq_ok.mpr rfl, rfl⟩
  | text h => exact bind_eq_ok.mpr ⟨_, readText_eq_ok.mpr h, rfl⟩
  | list => exact absurd rfl (hlist _)
  | record => exact absurd rfl (hrecord _)
  | number hdigits hcs =>
    cases hfits with
    | number hfinite =>
    rw [String.toList_ofList] at hfinite
    have hnumber := readNumber_complete hfinite hrest
    obtain ⟨c, ds, rfl, hc⟩ := hdigits.starts
    have hne {d : Char} (hd : isNumberStart d = false) : c ≠ d := ne_of_isNumberStart hc hd
    rw [hcs, List.cons_append] at *
    rw [readScalar, if_pos hc]
    · exact bind_eq_ok.mpr ⟨_, hnumber, rfl⟩
    all_goals exact hne rfl

theorem readValue_of_scalar {depth : Nat} {cs cs' : List Char} {c : Char} (h : skipBlanks cs = c :: cs')
    (hlist : c ≠ '[') (hrecord : c ≠ '{') : readValue depth cs = readScalar (c :: cs') := by
  cases depth <;>
  · rw [readValue, h]
    split
    next heq => exact absurd (List.cons.inj heq).1 hlist
    next heq => exact absurd (List.cons.inj heq).1 hrecord
    next => rfl

theorem SpelledWithin.starts {depth : Nat} {start rest : List Char} {v : Value} (h : SpelledWithin depth start v rest) :
    ∃ c cs, start = c :: cs ∧ isBlank c = false ∧ c ≠ ']' := by
  obtain ⟨c, cs, hstart, hc, hclose, -⟩ := h.1.starts
  exact ⟨c, cs, hstart, hc, hclose⟩

/-- A value that is neither a list nor a record is read at any depth. -/
theorem readValue_complete_scalar {depth : Nat} {cs start rest : List Char} {v : Value} (hblanks : Blanks cs start)
    (h : SpelledWithin depth start v rest) (hlist : ∀ items, v ≠ .list items) (hrecord : ∀ fields, v ≠ .record fields)
    (hrest : Follows rest) : readValue depth cs = .ok (v, rest) := by
  obtain ⟨c, cs', rfl, hc, -, hopenList, hopenRecord⟩ := h.1.starts
  rw [readValue_of_scalar (hblanks.skipBlanks_cons hc) (fun hc => ?_) (fun hc => ?_)]
  · exact readScalar_complete h hlist hrecord hrest
  · obtain ⟨items, hv⟩ := hopenList hc
    exact hlist items hv
  · obtain ⟨fields, hv⟩ := hopenRecord hc
    exact hrecord fields hv

private theorem length_le_of_scalar {depth : Nat} {start rest : List Char} {v : Value} (h : SpelledWithin depth start v rest)
    (hlist : ∀ items, v ≠ .list items) (hrecord : ∀ fields, v ≠ .record fields) : rest.length ≤ start.length := by
  obtain ⟨hspelled, -⟩ := h
  cases hspelled with
  | null | yes | no =>
    simp only [List.length_cons]
    omega
  | number _ hcs => simp only [hcs, List.length_append, Nat.le_add_left]
  | text h => exact Nat.le_succ_of_le h.length_lt.le
  | list => exact absurd rfl (hlist _)
  | record => exact absurd rfl (hrecord _)

private theorem reads_readValue_zero : Reads (readValue 0) (SpelledWithin 0) := by
  have hno {start rest : List Char} {v : Value} (h : SpelledWithin 0 start v rest) :
      (∀ items, v ≠ .list items) ∧ ∀ fields, v ≠ .record fields := by
    obtain ⟨-, hfits⟩ := h
    constructor <;> rintro _ rfl <;> cases hfits
  refine ⟨fun {cs v rest} h => ?_, fun hblanks h hrest => ?_, SpelledWithin.starts, fun h => ?_⟩
  · rw [readValue] at h
    split at h
    · cases h
    · cases h
    · exact ⟨_, blanks_skipBlanks cs, readScalar_sound h⟩
  · exact readValue_complete_scalar hblanks h (hno h).1 (hno h).2 hrest
  · exact length_le_of_scalar h (hno h).1 (hno h).2

/-- The values inside a list or a record are read with one level less. -/
theorem Reads.readValue_succ {depth : Nat} (hvalue : Reads (readValue depth) (SpelledWithin depth)) :
    Reads (readValue (depth + 1)) (SpelledWithin (depth + 1)) := by
  refine ⟨fun {cs v rest} h => ?_, fun {cs start v rest} hblanks h hrest => ?_, SpelledWithin.starts,
    fun {start v rest} h => ?_⟩
  · have hblanks := blanks_skipBlanks cs
    rw [readValue] at h
    split at h
    next heq =>
      obtain ⟨⟨items, last⟩, hitems, hlast⟩ := bind_eq_ok.mp h
      cases hlast
      exact ⟨_, heq ▸ hblanks, spelledWithin_list.mpr (readItems_sound hvalue hitems)⟩
    next heq =>
      obtain ⟨⟨fields, last⟩, hfields, hlast⟩ := bind_eq_ok.mp h
      cases hlast
      exact ⟨_, heq ▸ hblanks, spelledWithin_record.mpr (readFields_sound hvalue hfields)⟩
    next => exact ⟨_, hblanks, readScalar_sound h⟩
  · cases h.1 with
    | list =>
      rw [readValue, hblanks.skipBlanks_cons (by decide)]
      exact bind_eq_ok.mpr ⟨_, readItems_complete hvalue (spelledWithin_list.mp h), rfl⟩
    | record =>
      rw [readValue, hblanks.skipBlanks_cons (by decide)]
      exact bind_eq_ok.mpr ⟨_, readFields_complete hvalue (spelledWithin_record.mp h), rfl⟩
    | _ => exact readValue_complete_scalar hblanks h (by rintro _ ⟨⟩) (by rintro _ ⟨⟩) hrest
  · cases h.1 with
    | list =>
      have hlt := (spelledWithin_list.mp h).length_lt hvalue.length_le
      exact Nat.le_succ_of_le hlt.le
    | record =>
      have hlt := (spelledWithin_record.mp h).length_lt fun hfield => (hfield.length_lt hvalue.length_le).le
      exact Nat.le_succ_of_le hlt.le
    | _ => exact length_le_of_scalar h (by rintro _ ⟨⟩) (by rintro _ ⟨⟩)

/-- A value is read exactly if it is spelled and fits. -/
theorem reads_readValue (depth : Nat) : Reads (readValue depth) (SpelledWithin depth) := by
  induction depth with
  | zero => exact reads_readValue_zero
  | succ depth ih => exact ih.readValue_succ

end PureCalls.Json
