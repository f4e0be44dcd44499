import PureCalls.Proofs.Reading

/-! A text spells one value at most, however large the numbers in it are. -/
namespace PureCalls.Json

variable {α : Type} {spells : List Char → α → List Char → Prop}

/-- Where a value is spelled, no other one is, and what is left behind it is the same. -/
def Alone (spells : List Char → α → List Char → Prop) (x : α) : Prop :=
  ∀ ⦃start rest y rest'⦄, spells start x rest → Follows rest → spells start y rest' → Follows rest' →
    x = y ∧ rest = rest'

private theorem IsNumber.unique {digits digits' integer integer' fraction fraction' rest rest' : List Char} {power power' : Int}
    (h : IsNumber digits integer fraction power) (h' : IsNumber digits' integer' fraction' power')
    (hcs : digits ++ rest = digits' ++ rest') (hrest : Follows rest) (hrest' : Follows rest') :
    digits = digits' ∧ rest = rest' ∧ integer = integer' ∧ fraction = fraction' ∧ power = power' := by
  obtain ⟨mid, left, hinteger, hfraction, hpower⟩ := h.read hrest
  obtain ⟨mid', left', hinteger', hfraction', hpower'⟩ := h'.read hrest'
  rw [hcs] at hinteger
  obtain ⟨rfl, rfl⟩ := Prod.mk.inj (Except.ok.inj (hinteger.symm.trans hinteger'))
  obtain ⟨rfl, rfl⟩ := Prod.mk.inj (Except.ok.inj (hfraction.symm.trans hfraction'))
  obtain ⟨rfl, rfl⟩ := Prod.mk.inj (Except.ok.inj (hpower.symm.trans hpower'))
  exact ⟨List.append_cancel_right hcs, rfl, rfl, rfl, rfl⟩

/-- What is said of a number by its digits and its power of ten is said of those that it is written with. -/
theorem IsNumber.exists_iff {digits integer fraction : List Char} {power : Int}
    (h : IsNumber digits integer fraction power) {P : List Char → List Char → Int → Prop} :
    (∃ integer' fraction' power', IsNumber digits integer' fraction' power' ∧ P integer' fraction' power') ↔
      P integer fraction power := by
  constructor
  · rintro ⟨integer', fraction', power', h', hP⟩
    obtain ⟨-, -, rfl, rfl, rfl⟩ := h.unique h' rfl follows_nil follows_nil
    exact hP
  · intro hP
    exact ⟨integer, fraction, power, h, hP⟩

/-- The first character tells a number from any other value. -/
private theorem IsNumber.absurd {digits integer fraction cs rest : List Char} {power : Int} {c : Char} {p : Prop}
    (h : IsNumber digits integer fraction power) (hcs : c :: cs = digits ++ rest) (hc : isNumberStart c = false) :
    p := by
  obtain ⟨d, ds, rfl, hd⟩ := h.starts
  obtain ⟨rfl, -⟩ := List.cons.inj hcs
  rw [hd] at hc
  cases hc

private theorem Quoted.unique {cs text text' rest rest' : List Char} (h : Quoted cs text rest)
    (h' : Quoted cs text' rest') : text = text' ∧ rest = rest' :=
  Prod.mk.inj (Except.ok.inj ((readText_eq_ok.mpr h).symm.trans (readText_eq_ok.mpr h')))

theorem Blanks.unique {c d : Char} {cs rest rest' : List Char} (h : Blanks cs (c :: rest))
    (hc : isBlank c = false) (h' : Blanks cs (d :: rest')) (hd : isBlank d = false) : c = d ∧ rest = rest' :=
  List.cons.inj ((h.skipBlanks_cons hc).symm.trans (h'.skipBlanks_cons hd))

private theorem Lead.unique {first : Bool} {c d : Char} {cs start start' : List Char} (h : Lead first cs (c :: start))
    (hc : isBlank c = false) (h' : Lead first cs (d :: start')) (hd : isBlank d = false) :
    c :: start = d :: start' := by
  cases h with
  | first h =>
    obtain ⟨h'⟩ | ⟨⟩ := h'
    obtain ⟨rfl, rfl⟩ := h.unique hc h' hd
    rfl
  | next hcomma h =>
    obtain ⟨⟩ | ⟨hcomma', h'⟩ := h'
    obtain ⟨-, rfl⟩ := hcomma.unique rfl hcomma' rfl
    obtain ⟨rfl, rfl⟩ := h.unique hc h' hd
    rfl

/-- What leads to an element does not lead to the sign behind the last one. -/
private theorem Lead.not_close {first : Bool} {c close : Char} {cs start rest : List Char}
    (h : Lead first cs (c :: start)) (hc : isBlank c = false) (hne : c ≠ close)
    (hclose : close = ']' ∨ close = '}') : ¬ Blanks cs (close :: rest) := by
  have hblank : isBlank close = false := by obtain rfl | rfl := hclose <;> rfl
  intro hend
  cases h with
  | first h => exact hne (h.unique hc hend hblank).1
  | next hcomma _ =>
    obtain ⟨rfl, -⟩ := hcomma.unique rfl hend hblank
    simp at hclose

section
variable {close : Char} (hclose : close = ']' ∨ close = '}')
  (hstarts : ∀ {start x rest}, spells start x rest → ∃ c cs, start = c :: cs ∧ isBlank c = false ∧ c ≠ close)
include hclose hstarts

private theorem Series.unique {first : Bool} {cs rest rest' : List Char} {xs ys : List α}
    (h : Series close spells first cs xs rest) (hxs : ∀ x ∈ xs, Alone spells x)
    (h' : Series close spells first cs ys rest') : xs = ys ∧ rest = rest' := by
  have hblank : isBlank close = false := by obtain rfl | rfl := hclose <;> rfl
  induction h generalizing ys with
  | nil hend =>
    cases h' with
    | nil hend' => exact ⟨rfl, (hend.unique hblank hend' hblank).2⟩
    | cons hlead hy =>
      obtain ⟨d, _, rfl, hd, hne⟩ := hstarts hy
      exact absurd hend (hlead.not_close hd hne hclose)
  | cons hlead hx h ih =>
    obtain ⟨c, _, rfl, hc, hne⟩ := hstarts hx
    cases h' with
    | nil hend => exact absurd hend (hlead.not_close hc hne hclose)
    | cons hlead' hy h' =>
      obtain ⟨d, _, rfl, hd, -⟩ := hstarts hy
      obtain ⟨hx', hxs⟩ := List.forall_mem_cons.mp hxs
      rw [← hlead.unique hc hlead' hd] at hy
      obtain ⟨rfl, rfl⟩ := hx' hx (h.follows hclose) hy (h'.follows hclose)
      obtain ⟨rfl, rfl⟩ := ih hxs h'
      exact ⟨rfl, rfl⟩

end

private theorem Alone.field (hstarts : ∀ {start x rest}, spells start x rest → ∃ c cs, start = c :: cs ∧ isBlank c = false)
    {field : String × α} (h : Alone spells field.2) : Alone (Field spells) field := by
  intro start rest field' rest' hfield hrest hfield' hrest'
  obtain ⟨hkey, hcolon, hblanks, hx⟩ := hfield
  obtain ⟨hkey', hcolon', hblanks', hy⟩ := hfield'
  obtain ⟨rfl, rfl⟩ := hkey.unique hkey'
  obtain ⟨-, rfl⟩ := hcolon.unique rfl hcolon' rfl
  obtain ⟨c, _, rfl, hc⟩ := hstarts hx
  obtain ⟨d, _, rfl, hd⟩ := hstarts hy
  obtain ⟨rfl, rfl⟩ := hblanks.unique hc hblanks' hd
  obtain ⟨rfl, rfl⟩ := h hx hrest hy hrest'
  exact ⟨rfl, rfl⟩

theorem Value.Nested.alone {digits : List Char → Prop} {depth : Nat} {v : Value} (hv : v.Nested digits depth) :
    Alone Spelled v := by
  induction hv with
  | null =>
    intro start rest w rest' h _ h' _
    cases h
    cases h' with
    | null => exact ⟨rfl, rfl⟩
    | number hnumber hcs => exact hnumber.absurd hcs rfl
  | bool =>
    intro start rest w rest' h _ h' _
    cases h with
    | yes =>
      cases h' with
      | yes => exact ⟨rfl, rfl⟩
      | number hnumber hcs => exact hnumber.absurd hcs rfl
    | no =>
      cases h' with
      | no => exact ⟨rfl, rfl⟩
      | number hnumber hcs => exact hnumber.absurd hcs rfl
  | number =>
    intro start rest w rest' h hrest h' hrest'
    cases h with
    | number hnumber hcs =>
    cases h' with
    | number hnumber' hcs' =>
      obtain ⟨rfl, rfl, -⟩ := hnumber.unique hnumber' (hcs.symm.trans hcs') hrest hrest'
      exact ⟨rfl, rfl⟩
    | _ => exact hnumber.absurd hcs rfl
  | text =>
    intro start rest w rest' h _ h' _
    cases h with
    | text htext =>
    cases h' with
    | text htext' =>
      obtain ⟨rfl, rfl⟩ := htext.unique htext'
      exact ⟨rfl, rfl⟩
    | number hnumber hcs => exact hnumber.absurd hcs rfl
  | list _ ih =>
    intro start rest w rest' h _ h' _
    cases h with
    | list hitems =>
    cases h' with
    | list hitems' =>
      have hstarts {start rest : List Char} {v : Value} (h : Spelled start v rest) :
          ∃ c cs, start = c :: cs ∧ isBlank c = false ∧ c ≠ ']' := by
        obtain ⟨c, cs, hstart, hc, hclose, -⟩ := h.starts
        exact ⟨c, cs, hstart, hc, hclose⟩
      obtain ⟨rfl, rfl⟩ := Series.unique (.inl rfl) hstarts hitems ih hitems'
      exact ⟨rfl, rfl⟩
    | number hnumber hcs => exact hnumber.absurd hcs rfl
  | record _ ih =>
    intro start rest w rest' h _ h' _
    cases h with
    | record hfields =>
    cases h' with
    | record hfields' =>
      have hfield {start rest : List Char} {field : String × Value} (h : Field Spelled start field rest) :
          ∃ c cs, start = c :: cs ∧ isBlank c = false ∧ c ≠ '}' := by
        obtain ⟨_⟩ := h
        exact ⟨_, _, rfl, rfl, by decide⟩
      have hstarts {start rest : List Char} {v : Value} (h : Spelled start v rest) :
          ∃ c cs, start = c :: cs ∧ isBlank c = false := by
        obtain ⟨c, cs, hstart, hc, -⟩ := h.starts
        exact ⟨c, cs, hstart, hc⟩
      obtain ⟨rfl, rfl⟩ := Series.unique (.inr rfl) hfield hfields (fun field hmem => (ih field hmem).field hstarts)
        hfields'
      exact ⟨rfl, rfl⟩
    | number hnumber hcs => exact hnumber.absurd hcs rfl

end PureCalls.Json
