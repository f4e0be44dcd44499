import Mathlib.Data.List.TakeDrop
import Mathlib.Data.List.TakeWhile
import PureCalls.Options

/-! How JSON strings and numbers are spelled, and that their readers read just that. Each relation leads from what is
left of a text in front of something to what is left behind it. -/
namespace PureCalls.Json

inductive Blanks : List Char → List Char → Prop
  | none {cs} : Blanks cs cs
  | some {c cs rest} (hc : isBlank c = true) (h : Blanks cs rest) : Blanks (c :: cs) rest

theorem blanks_skipBlanks (cs : List Char) : Blanks cs (skipBlanks cs) := by
  induction cs with
  | nil => exact .none
  | cons c cs ih =>
    rw [skipBlanks, List.dropWhile_cons]
    split
    next hc => exact .some hc ih
    next => exact .none

theorem skipBlanks_of_not_blank {c : Char} (hc : isBlank c = false) (cs : List Char) :
    skipBlanks (c :: cs) = c :: cs := by
  rw [skipBlanks, List.dropWhile_cons_of_neg (by simp [hc])]

theorem Blanks.skipBlanks_eq {cs rest : List Char} (h : Blanks cs rest) : skipBlanks cs = skipBlanks rest := by
  induction h with
  | none => rfl
  | some hc _ ih => rw [← ih, skipBlanks, skipBlanks, List.dropWhile_cons_of_pos hc]

theorem Blanks.skipBlanks_cons {c : Char} {cs rest : List Char} (h : Blanks cs (c :: rest)) (hc : isBlank c = false) :
    skipBlanks cs = c :: rest := by
  rw [h.skipBlanks_eq, skipBlanks_of_not_blank hc]

theorem Blanks.length_le {cs rest : List Char} (h : Blanks cs rest) : rest.length ≤ cs.length := by
  induction h with
  | none => exact Nat.le_refl _
  | some _ _ ih => exact Nat.le_succ_of_le ih

theorem readWord_eq_ok {word cs rest : List Char} : readWord word cs = .ok ((), rest) ↔ cs = word ++ rest := by
  induction word generalizing cs with
  | nil => simp [readWord]
  | cons w word ih =>
    cases cs with
    | nil => simp [readWord]
    | cons c cs =>
      rw [readWord]
      split
      next hc => simp [ih, hc]
      next hc => simp [hc]

theorem bind_eq_ok {ε α β : Type} {x : Except ε α} {f : α → Except ε β} {y : β} :
    x >>= f = .ok y ↔ ∃ a, x = .ok a ∧ f a = .ok y := by
  cases x <;> simp [bind, Except.bind]

/-- Four hexadecimal digits, with their value. -/
inductive HexUnit : List Char → Nat → List Char → Prop
  | mk {a b c d p q r s rest} (ha : hexValue? a = some p) (hb : hexValue? b = some q) (hc : hexValue? c = some r)
      (hd : hexValue? d = some s) : HexUnit (a :: b :: c :: d :: rest) (((p * 16 + q) * 16 + r) * 16 + s) rest

/-- What may stand behind a backslash, with the character that it stands for. -/
inductive Escape : List Char → Char → List Char → Prop
  | quote {rest} : Escape ('"' :: rest) '"' rest
  | backslash {rest} : Escape ('\\' :: rest) '\\' rest
  | slash {rest} : Escape ('/' :: rest) '/' rest
  | backspace {rest} : Escape ('b' :: rest) '\x08' rest
  | formFeed {rest} : Escape ('f' :: rest) '\x0c' rest
  | newline {rest} : Escape ('n' :: rest) '\n' rest
  | carriageReturn {rest} : Escape ('r' :: rest) '\r' rest
  | tab {rest} : Escape ('t' :: rest) '\t' rest
  | unit {cs n rest} (hn : HexUnit cs n rest) (hlead : isLeadSurrogate n = false)
      (htrail : isTrailSurrogate n = false) : Escape ('u' :: cs) (Char.ofNat n) rest
  | pair {cs n mid m rest} (hn : HexUnit cs n ('\\' :: 'u' :: mid)) (hlead : isLeadSurrogate n = true)
      (hm : HexUnit mid m rest) (htrail : isTrailSurrogate m = true) :
      Escape ('u' :: cs) (Char.ofNat (0x10000 + (n - 0xD800) * 0x400 + (m - 0xDC00))) rest

/-- What may stand behind a quote, up to the quote that closes the string, with the characters that it stands for. -/
inductive Quoted : List Char → List Char → List Char → Prop
  | close {rest} : Quoted ('"' :: rest) [] rest
  | plain {c cs text rest} (hc : ' ' ≤ c) (hquote : c ≠ '"') (hbackslash : c ≠ '\\') (h : Quoted cs text rest) :
      Quoted (c :: cs) (c :: text) rest
  | escape {c cs mid text rest} (hc : Escape cs c mid) (h : Quoted mid text rest) : Quoted ('\\' :: cs) (c :: text) rest

theorem Quoted.of_plain {cs : List Char} (h : cs.all fun c => ' ' ≤ c ∧ c ≠ '"' ∧ c ≠ '\\') (rest : List Char) :
    Quoted (cs ++ '"' :: rest) cs rest := by
  induction cs with
  | nil => exact .close
  | cons c cs ih =>
    rw [List.all_cons, Bool.and_eq_true, decide_eq_true_eq] at h
    obtain ⟨⟨hc, hquote, hbackslash⟩, hcs⟩ := h
    exact .plain hc hquote hbackslash (ih hcs)

theorem readUnit_eq_ok {cs rest : List Char} {n : Nat} : readUnit cs = .ok (n, rest) ↔ HexUnit cs n rest := by
  constructor
  · intro h
    unfold readUnit at h
    split at h
    · cases h
    · split at h
      · split at h
        next ha hb hc hd =>
          cases h
          exact .mk ha hb hc hd
        next => cases h
      · cases h
  · rintro (@⟨a, b, c, d, _, _, _, _, rest, ha, hb, hc, hd⟩)
    have hsize : ¬ ((a :: b :: c :: d :: rest).take 4).foldl (fun n c => n + c.utf8Size) 0 < 4 := by
      have := a.utf8Size_pos
      have := b.utf8Size_pos
      have := c.utf8Size_pos
      have := d.utf8Size_pos
      simp only [List.take_succ_cons, List.take_zero, List.foldl_cons, List.foldl_nil]
      omega
    rw [readUnit, if_neg hsize]
    simp only [ha, hb, hc, hd]

/-- A trail is no lead. -/
theorem isTrailSurrogate_of_lead {n : Nat} (h : isLeadSurrogate n = true) : isTrailSurrogate n = false := by
  simp only [isLeadSurrogate, isTrailSurrogate, Bool.and_eq_true, decide_eq_true_eq, Bool.and_eq_false_iff,
    decide_eq_false_iff_not] at *
  omega

private theorem readUnits_eq_ok {cs rest : List Char} {c : Char} :
    readUnits cs = .ok (c, rest) ↔ Escape ('u' :: cs) c rest := by
  constructor
  · intro h
    obtain ⟨⟨n, mid⟩, hn, h⟩ := bind_eq_ok.mp h
    rw [readUnit_eq_ok] at hn
    dsimp only at h
    split at h
    · cases h
    next htrail =>
      split at h
      next hlead =>
        split at h
        · cases h
        · cases h
        · obtain ⟨⟨m, final⟩, hm, h⟩ := bind_eq_ok.mp h
          rw [readUnit_eq_ok] at hm
          dsimp only at h
          split at h
          next hm' =>
            obtain ⟨rfl, rfl⟩ := Prod.mk.inj (Except.ok.inj h)
            exact .pair hn hlead hm hm'
          next => cases h
        · cases h
      next hlead =>
        cases h
        exact .unit hn (by simpa using hlead) (by simpa using htrail)
  · intro h
    cases h with
    | unit hn hlead htrail =>
      refine bind_eq_ok.mpr ⟨_, readUnit_eq_ok.mpr hn, ?_⟩
      dsimp only
      rw [if_neg (by simp [htrail]), if_neg (by simp [hlead])]
      rfl
    | pair hn hlead hm htrail =>
      refine bind_eq_ok.mpr ⟨_, readUnit_eq_ok.mpr hn, ?_⟩
      dsimp only
      rw [if_neg (by simp [isTrailSurrogate_of_lead hlead]), if_pos hlead]
      exact bind_eq_ok.mpr ⟨_, readUnit_eq_ok.mpr hm, if_pos htrail⟩

theorem readEscape_eq_ok {cs rest : List Char} {c : Char} : readEscape cs = .ok (c, rest) ↔ Escape cs c rest := by
  constructor
  · intro h
    unfold readEscape at h
    split at h
    · cases h
    · exact readUnits_eq_ok.mp h
    · split at h <;> cases h <;> constructor
  · intro h
    cases h with
    | unit hn hlead htrail => exact readUnits_eq_ok.mpr (.unit hn hlead htrail)
    | pair hn hlead hm htrail => exact readUnits_eq_ok.mpr (.pair hn hlead hm htrail)
    | _ => rfl

theorem readText_eq_ok {cs text rest : List Char} : readText cs = .ok (text, rest) ↔ Quoted cs text rest := by
  constructor
  · intro h
    fun_induction readText cs generalizing text rest with
    | case1 => cases h
    | case2 =>
      cases h
      exact .close
    | case3 => cases h
    | case4 cs c mid hc _ fault hfault ih => cases h
    | case5 cs c mid hc _ text' rest' hread ih =>
      cases h
      exact .escape (readEscape_eq_ok.mp hc) (ih hread)
    | case6 => cases h
    | case7 => cases h
    | case8 c cs hquote hbackslash hc text' rest' hread ih =>
      cases h
      exact .plain (Char.not_lt.mp hc) hquote hbackslash (ih hread)
  · intro h
    induction h with
    | close => rw [readText]
    | plain hc hquote hbackslash h ih =>
      rw [readText, if_neg (Char.not_lt.mpr hc), ih]
      · exact hquote
      · exact hbackslash
    | escape hc h ih =>
      rw [readText]
      split
      next hfault => rw [readEscape_eq_ok.mpr hc] at hfault; cases hfault
      next hread =>
        rw [readEscape_eq_ok.mpr hc] at hread
        cases hread
        rw [ih]

def Digits (ds : List Char) : Prop :=
  ds ≠ [] ∧ ∀ c ∈ ds, c.isDigit = true

/-- The digits in front of the point, without a zero to no purpose. -/
def Integer (ds : List Char) : Prop :=
  Digits ds ∧ (ds.head? = some '0' → ds.length = 1)

/-- The point with the digits behind it, or nothing, and those digits. -/
inductive Fraction : List Char → List Char → Prop
  | none : Fraction [] []
  | some {ds} (h : Digits ds) : Fraction ('.' :: ds) ds

/-- The power of ten, or nothing, with its value. -/
inductive Power : List Char → Int → Prop
  | none : Power [] 0
  | unsigned {e ds} (he : e = 'e' ∨ e = 'E') (h : Digits ds) : Power (e :: ds) (powerOf ds)
  | plus {e ds} (he : e = 'e' ∨ e = 'E') (h : Digits ds) : Power (e :: '+' :: ds) (powerOf ds)
  | minus {e ds} (he : e = 'e' ∨ e = 'E') (h : Digits ds) : Power (e :: '-' :: ds) (-(powerOf ds : Int))

/-- How a number is written, with its digits in front of the point, those behind it, and its power of ten. -/
inductive IsNumber : List Char → List Char → List Char → Int → Prop
  | mk {sign integer point fraction e power} (hsign : sign = [] ∨ sign = ['-']) (hinteger : Integer integer)
      (hpoint : Fraction point fraction) (he : Power e power) :
      IsNumber (sign ++ (integer ++ (point ++ e))) integer fraction power

theorem Integer.of_all {d : Char} {ds : List Char} (hd : d ≠ '0') (h : (d :: ds).all Char.isDigit = true) :
    Integer (d :: ds) :=
  ⟨⟨List.cons_ne_nil d ds, List.all_eq_true.mp h⟩, fun hzero => absurd (Option.some.inj hzero) hd⟩

theorem IsNumber.of_power {e : Char} {ds es : List Char} (hds : Integer ds) (hes : (e :: es).all Char.isDigit = true) :
    IsNumber (ds ++ 'e' :: e :: es) ds [] (powerOf (e :: es)) :=
  .mk (.inl rfl) hds .none (.unsigned (.inl rfl) ⟨List.cons_ne_nil e es, List.all_eq_true.mp hes⟩)

/-- How a number is written that is not refused as too large. -/
def IsFinite (digits : List Char) : Prop :=
  ∃ integer fraction power, IsNumber digits integer fraction power ∧
    (Scaled.ofDigits integer fraction power).isFinite = true

/-- What stands behind digits and is none. -/
def NoDigit (rest : List Char) : Prop :=
  ∀ c ∈ rest.head?, c.isDigit = false

/-- What may stand behind a number: it does not continue one. -/
def Follows (rest : List Char) : Prop :=
  ∀ c ∈ rest.head?, c.isDigit = false ∧ c ≠ '.' ∧ c ≠ 'e' ∧ c ≠ 'E'

private theorem Follows.noDigit {rest : List Char} (h : Follows rest) : NoDigit rest :=
  fun c hc => (h c hc).1

private theorem span_eq_of_digits {ds rest : List Char} (hds : ∀ c ∈ ds, c.isDigit = true) (hrest : NoDigit rest) :
    (ds ++ rest).span Char.isDigit = (ds, rest) := by
  have hhead : ∀ c ∈ rest.head?, ¬ c.isDigit = true := fun c hc => by simp [hrest c hc]
  rw [List.span_eq_takeWhile_dropWhile, List.takeWhile_append_of_pos hds, List.dropWhile_append_of_pos hds]
  cases rest with
  | nil => simp
  | cons c rest =>
    rw [List.takeWhile_cons_of_neg (hhead c rfl), List.dropWhile_cons_of_neg (hhead c rfl), List.append_nil]

theorem readDigits_eq_ok {cs ds rest : List Char} :
    readDigits cs = .ok (ds, rest) ↔ Digits ds ∧ cs = ds ++ rest ∧ NoDigit rest := by
  constructor
  · intro h
    unfold readDigits at h
    split at h
    · cases h
    next c cs =>
      split at h
      next hc =>
        rw [List.span_eq_takeWhile_dropWhile] at h
        obtain ⟨rfl, rfl⟩ := Prod.mk.inj (Except.ok.inj h)
        refine ⟨⟨?_, fun d hd => List.mem_takeWhile_imp hd⟩, List.takeWhile_append_dropWhile.symm, fun d hd => ?_⟩
        · rw [List.takeWhile_cons_of_pos hc]
          exact List.cons_ne_nil _ _
        · have hhead := List.head?_dropWhile_not Char.isDigit (c :: cs)
          rw [hd] at hhead
          simpa using hhead
      next => cases h
  · rintro ⟨⟨hne, hds⟩, rfl, hrest⟩
    obtain ⟨d, ds, rfl⟩ := List.exists_cons_of_ne_nil hne
    rw [List.cons_append, readDigits, if_pos (hds d List.mem_cons_self), ← List.cons_append,
      span_eq_of_digits hds hrest]

theorem readInteger_eq_ok {cs ds rest : List Char} :
    readInteger cs = .ok (ds, rest) ↔ Integer ds ∧ cs = ds ++ rest ∧ NoDigit rest := by
  constructor
  · intro h
    obtain ⟨⟨digits, mid⟩, hdigits, h⟩ := bind_eq_ok.mp h
    obtain ⟨hds, hcs, hrest⟩ := readDigits_eq_ok.mp hdigits
    dsimp only at h
    split at h
    · cases h
    next hzero =>
      cases h
      refine ⟨⟨hds, fun hhead => ?_⟩, hcs, hrest⟩
      have hpos := List.length_pos_iff.mpr hds.1
      have hle : ¬ ds.length > 1 := fun hlength => hzero ⟨hhead, hlength⟩
      omega
  · rintro ⟨⟨hds, hzero⟩, hcs, hrest⟩
    refine bind_eq_ok.mpr ⟨_, readDigits_eq_ok.mpr ⟨hds, hcs, hrest⟩, ?_⟩
    dsimp only
    rw [if_neg (fun h => by have := hzero h.1; omega)]
    rfl

private theorem readFraction_sound {cs ds rest : List Char} (h : readFraction cs = .ok (ds, rest)) :
    ∃ point, Fraction point ds ∧ cs = point ++ rest := by
  unfold readFraction at h
  split at h
  · obtain ⟨hds, rfl, -⟩ := readDigits_eq_ok.mp h
    exact ⟨_, .some hds, rfl⟩
  · cases h
    exact ⟨[], .none, rfl⟩

private theorem readFraction_complete {point ds rest : List Char} (h : Fraction point ds) (hrest : NoDigit rest)
    (hpoint : ∀ c ∈ rest.head?, c ≠ '.') : readFraction (point ++ rest) = .ok (ds, rest) := by
  cases h with
  | none =>
    rw [List.nil_append]
    unfold readFraction
    split
    · exact absurd rfl (hpoint _ rfl)
    · rfl
  | some h => exact readDigits_eq_ok.mpr ⟨h, rfl, hrest⟩

private theorem readPower_sound {cs rest : List Char} {power : Int} (h : readPower cs = .ok (power, rest)) :
    ∃ e, Power e power ∧ cs = e ++ rest := by
  unfold readPower at h
  split at h
  next c cs =>
    split at h
    next he =>
      split at h
      all_goals
        obtain ⟨⟨ds, final⟩, hread, hpower⟩ := bind_eq_ok.mp h
        obtain ⟨hds, rfl, -⟩ := readDigits_eq_ok.mp hread
        cases hpower
      · exact ⟨_, .minus he hds, rfl⟩
      · exact ⟨_, .plus he hds, rfl⟩
      · exact ⟨_, .unsigned he hds, rfl⟩
    next =>
      cases h
      exact ⟨[], .none, rfl⟩
  · cases h
    exact ⟨[], .none, rfl⟩

private theorem readPower_complete {e rest : List Char} {power : Int} (h : Power e power) (hrest : Follows rest) :
    readPower (e ++ rest) = .ok (power, rest) := by
  have hread {ds : List Char} (hds : Digits ds) : readDigits (ds ++ rest) = .ok (ds, rest) :=
    readDigits_eq_ok.mpr ⟨hds, rfl, hrest.noDigit⟩
  cases h with
  | none =>
    cases rest with
    | nil => rfl
    | cons c rest =>
      obtain ⟨-, -, he, hE⟩ := hrest c rfl
      exact if_neg (by simp [he, hE])
  | unsigned he hds =>
    obtain ⟨d, ds, rfl⟩ := List.exists_cons_of_ne_nil hds.1
    have hd : d.isDigit = true := hds.2 d List.mem_cons_self
    refine (if_pos he).trans ?_
    split
    next heq =>
      cases heq
      exact absurd hd (by decide)
    next heq =>
      cases heq
      exact absurd hd (by decide)
    next => exact bind_eq_ok.mpr ⟨_, hread hds, rfl⟩
  | plus he hds => exact (if_pos he).trans (bind_eq_ok.mpr ⟨_, hread hds, rfl⟩)
  | minus he hds => exact (if_pos he).trans (bind_eq_ok.mpr ⟨_, hread hds, rfl⟩)

private theorem noDigit_append_power {e rest : List Char} {power : Int} (h : Power e power) (hrest : Follows rest) :
    NoDigit (e ++ rest) ∧ ∀ c ∈ (e ++ rest).head?, c ≠ '.' := by
  cases h with
  | none => exact ⟨hrest.noDigit, fun c hc => (hrest c hc).2.1⟩
  | unsigned he | plus he | minus he =>
    refine ⟨fun c hc => ?_, fun c hc => ?_⟩ <;> cases hc <;> rcases he with rfl | rfl <;> decide

private theorem noDigit_append_fraction {point fraction rest : List Char} (h : Fraction point fraction) (hrest : NoDigit rest) :
    NoDigit (point ++ rest) := by
  cases h with
  | none => exact hrest
  | some =>
    intro c hc
    cases hc
    decide

theorem take_length_sub (front rest : List Char) :
    (front ++ rest).take ((front ++ rest).length - rest.length) = front := by
  rw [List.length_append, Nat.add_sub_cancel, List.take_left]

/-- What is left of a number behind its sign. -/
def unsigned (cs : List Char) : List Char :=
  match cs with
  | '-' :: rest => rest
  | _ => cs

/-- What is read is a number that is not too large. -/
theorem readNumber_sound {cs rest : List Char} {literal : String} (h : readNumber cs = .ok (literal, rest)) :
    ∃ digits, IsFinite digits ∧ cs = digits ++ rest ∧ literal = String.ofList digits := by
  obtain ⟨⟨integer, mid⟩, hinteger, hread⟩ := bind_eq_ok.mp h
  obtain ⟨⟨fraction, mid'⟩, hfraction, hread'⟩ := bind_eq_ok.mp hread
  obtain ⟨⟨power, final⟩, hpower, hfinal⟩ := bind_eq_ok.mp hread'
  obtain ⟨hinteger, hunsigned, -⟩ := readInteger_eq_ok.mp hinteger
  obtain ⟨point, hpoint, hmid⟩ := readFraction_sound hfraction
  obtain ⟨e, he, hmid'⟩ := readPower_sound hpower
  dsimp only at hunsigned hmid hmid' hfinal
  rw [hmid, hmid'] at hunsigned
  have hsign : ∃ sign, (sign = [] ∨ sign = ['-']) ∧ cs = sign ++ (integer ++ (point ++ (e ++ final))) := by
    split at hunsigned
    next => exact ⟨['-'], .inr rfl, by rw [← hunsigned]; rfl⟩
    next => exact ⟨[], .inl rfl, hunsigned⟩
  obtain ⟨sign, hsign, hcs⟩ := hsign
  split at hfinal
  next hfinite =>
    obtain ⟨rfl, rfl⟩ := Prod.mk.inj (Except.ok.inj hfinal)
    have hcs' : cs = (sign ++ (integer ++ (point ++ e))) ++ final := by simp only [hcs, List.append_assoc]
    refine ⟨_, ⟨_, _, _, .mk hsign hinteger hpoint he, hfinite⟩, hcs', ?_⟩
    rw [hcs', take_length_sub]
  next => cases hfinal

/-- The parts of a number are read one behind the other. -/
theorem IsNumber.read {digits integer fraction rest : List Char} {power : Int}
    (h : IsNumber digits integer fraction power) (hrest : Follows rest) : ∃ mid mid',
      readInteger (unsigned (digits ++ rest)) = .ok (integer, mid) ∧ readFraction mid = .ok (fraction, mid') ∧
        readPower mid' = .ok (power, rest) := by
  obtain @⟨sign, integer, point, fraction, e, power, hsign, hinteger, hpoint, he⟩ := h
  obtain ⟨hpower, hdot⟩ := noDigit_append_power he hrest
  have hunsigned : unsigned (sign ++ (integer ++ (point ++ (e ++ rest)))) = integer ++ (point ++ (e ++ rest)) := by
    obtain rfl | rfl := hsign
    · obtain ⟨d, ds, rfl⟩ := List.exists_cons_of_ne_nil hinteger.1.1
      rw [List.nil_append]
      unfold unsigned
      split
      next heq =>
        cases heq
        exact absurd (hinteger.1.2 '-' List.mem_cons_self) (by decide)
      next => rfl
    · rfl
  have hread : readInteger (integer ++ (point ++ (e ++ rest))) = .ok (integer, point ++ (e ++ rest)) :=
    readInteger_eq_ok.mpr ⟨hinteger, rfl, noDigit_append_fraction hpoint hpower⟩
  refine ⟨_, _, ?_, readFraction_complete hpoint hpower hdot, readPower_complete he hrest⟩
  simp only [List.append_assoc, hunsigned, hread]

/-- Every number that is not too large is read in whole. -/
theorem readNumber_complete {digits rest : List Char} (h : IsFinite digits) (hrest : Follows rest) :
    readNumber (digits ++ rest) = .ok (String.ofList digits, rest) := by
  obtain ⟨integer, fraction, power, h, hfinite⟩ := h
  obtain ⟨mid, mid', hinteger, hfraction, hpower⟩ := h.read hrest
  refine bind_eq_ok.mpr ⟨_, hinteger, ?_⟩
  refine bind_eq_ok.mpr ⟨_, hfraction, ?_⟩
  refine bind_eq_ok.mpr ⟨_, hpower, ?_⟩
  refine (if_pos hfinite).trans ?_
  rw [take_length_sub]
  rfl

end PureCalls.Json
