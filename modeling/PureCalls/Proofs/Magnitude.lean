import Mathlib.Algebra.Order.Field.Rat
import Mathlib.Algebra.Order.Field.Power
import Mathlib.Tactic.Linarith
import Mathlib.Tactic.Positivity
import Mathlib.Tactic.FieldSimp
import Mathlib.Tactic.Ring
import PureCalls.Proofs.Spelling

/-! Which numbers are too large for a double. The digits that are dropped and the three roundings move the limit by less
than one part in 2⁵¹, so but for the numbers next to the limit one is refused exactly if it is beyond the doubles. -/
namespace PureCalls.Json

/-- The number that digits before and behind the point stand for, times a power of ten. -/
def magnitude (integer fraction : List Char) (power : Int) : ℚ :=
  powerOf (integer ++ fraction) * 10 ^ (power - fraction.length)

theorem magnitude_natCast (integer : List Char) (power : Nat) :
    magnitude integer [] power = ((powerOf integer * 10 ^ power : Nat) : ℚ) := by
  simp [magnitude]

private theorem digit_le {c : Char} (hc : c.isDigit = true) : Scaled.digit c ≤ 9 := by
  have hle : c.toNat ≤ '9'.toNat := by
    simp only [Char.isDigit, Bool.and_eq_true, decide_eq_true_eq] at hc
    exact hc.2
  change c.toNat - '0'.toNat ≤ 9
  have h9 : '9'.toNat = 57 := rfl
  have h0 : '0'.toNat = 48 := rfl
  omega

private theorem foldl_digits (n : Nat) (ds : List Char) :
    ds.foldl (fun n c => 10 * n + (c.toNat - '0'.toNat)) n = n * 10 ^ ds.length + powerOf ds := by
  induction ds generalizing n with
  | nil => simp [powerOf]
  | cons c ds ih =>
    rw [powerOf, List.foldl_cons, List.foldl_cons, ih, ih (10 * 0 + _), List.length_cons]
    ring

private theorem powerOf_cons (c : Char) (ds : List Char) :
    powerOf (c :: ds) = Scaled.digit c * 10 ^ ds.length + powerOf ds := by
  rw [powerOf, List.foldl_cons, foldl_digits, Nat.mul_zero, Nat.zero_add, Scaled.digit]

private theorem powerOf_append (ds es : List Char) : powerOf (ds ++ es) = powerOf ds * 10 ^ es.length + powerOf es := by
  rw [powerOf, List.foldl_append, foldl_digits]
  rfl

private theorem powerOf_lt {ds : List Char} (h : ∀ c ∈ ds, c.isDigit = true) : powerOf ds < 10 ^ ds.length := by
  induction ds with
  | nil => decide
  | cons c ds ih =>
    obtain ⟨hc, hds⟩ := List.forall_mem_cons.mp h
    have hdigit : Scaled.digit c * 10 ^ ds.length ≤ 9 * 10 ^ ds.length := Nat.mul_le_mul_right _ (digit_le hc)
    rw [powerOf_cons, List.length_cons, pow_succ]
    have := ih hds
    omega

namespace Scaled

/-- The number that is kept. -/
def value (s : Scaled) : ℚ :=
  s.significand * 10 ^ s.exponent

/-- A number has the digits that are kept, and possibly more behind them. -/
def Begins (s : Scaled) (x : ℚ) : Prop :=
  s.value ≤ x ∧ x < s.value + 10 ^ s.exponent

/-- There is no room for a further digit. -/
def Full (s : Scaled) : Prop :=
  2 ^ 64 ≤ 10 * s.significand + 9

private theorem not_fits {n : Nat} {c : Char} (hc : c.isDigit = true) (h : ¬ fits (10 * n + digit c) = true) :
    2 ^ 64 ≤ 10 * n + 9 := by
  have hle := digit_le hc
  have hpow : Nat.pow 2 64 ≤ 10 * n + digit c := by simpa [fits] using h
  change 2 ^ 64 ≤ 10 * n + digit c at hpow
  omega

private theorem lt_of_fits {n : Nat} (h : fits n = true) : n < 2 ^ 64 := by
  simpa [fits] using h

private theorem ofInteger_begins {n : Nat} {cs : List Char} (hcs : ∀ c ∈ cs, c.isDigit = true) (hn : n < 2 ^ 64) :
    ∃ m k : Nat, ofInteger n cs = ⟨m, k⟩ ∧ m < 2 ^ 64 ∧ m * 10 ^ k ≤ n * 10 ^ cs.length + powerOf cs ∧
      n * 10 ^ cs.length + powerOf cs < (m + 1) * 10 ^ k ∧ (k = 0 ∨ 2 ^ 64 ≤ 10 * m + 9) := by
  induction cs generalizing n with
  | nil => exact ⟨n, 0, rfl, hn, by simp [powerOf], by simp [powerOf], .inl rfl⟩
  | cons c cs ih =>
    obtain ⟨hc, hcs'⟩ := List.forall_mem_cons.mp hcs
    rw [ofInteger]
    split
    next hfits =>
      obtain ⟨m, k, hm, hlt, hle, hgt, hfull⟩ := ih hcs' (lt_of_fits hfits)
      have hsum : n * 10 ^ (c :: cs).length + powerOf (c :: cs) = (10 * n + digit c) * 10 ^ cs.length + powerOf cs := by
        rw [powerOf_cons, List.length_cons]
        ring
      rw [hsum]
      exact ⟨m, k, hm, hlt, hle, hgt, hfull⟩
    next hfits =>
      have hrest := powerOf_lt hcs
      rw [List.length_cons] at hrest ⊢
      refine ⟨n, cs.length + 1, rfl, hn, Nat.le_add_right _ _, ?_, .inr (not_fits hc hfits)⟩
      rw [Nat.add_mul, Nat.one_mul]
      exact Nat.add_lt_add_left hrest _

private theorem ten_zpow_pos (e : Int) : (0 : ℚ) < 10 ^ e :=
  zpow_pos (by norm_num) e

private theorem pow_mul_zpow_sub (n : Nat) (e : Int) : (10 : ℚ) ^ n * 10 ^ (e - n) = 10 ^ e := by
  rw [← zpow_natCast, ← zpow_add₀ (by norm_num), add_sub_cancel]

/-- The digits of a fraction come to less than one unit of the last digit in front of them. -/
theorem fraction_lt {ds : List Char} (h : ∀ c ∈ ds, c.isDigit = true) (e : Int) :
    (powerOf ds : ℚ) * 10 ^ (e - ds.length) < 10 ^ e := by
  have hlt : (powerOf ds : ℚ) < 10 ^ ds.length := by exact_mod_cast powerOf_lt h
  calc (powerOf ds : ℚ) * 10 ^ (e - ds.length)
      < 10 ^ ds.length * 10 ^ (e - ds.length) := mul_lt_mul_of_pos_right hlt (ten_zpow_pos _)
    _ = 10 ^ e := pow_mul_zpow_sub ds.length e

/-- Adding the digits of a fraction refines a number, and leaves out some of them only if there is no room. -/
theorem addFraction_begins {s : Scaled} {cs : List Char} (hcs : ∀ c ∈ cs, c.isDigit = true)
    (hs : s.significand < 2 ^ 64) :
    (addFraction s cs).significand < 2 ^ 64 ∧
    (addFraction s cs).Begins (s.value + powerOf cs * 10 ^ (s.exponent - cs.length)) ∧
    ((addFraction s cs).value = s.value + powerOf cs * 10 ^ (s.exponent - cs.length) ∨ (addFraction s cs).Full) ∧
    s.value ≤ (addFraction s cs).value ∧
    (addFraction s cs).value + 10 ^ (addFraction s cs).exponent ≤ s.value + 10 ^ s.exponent := by
  -- The interval that the kept digits leave open shrinks with every digit, and the exact number stays inside.
  induction cs generalizing s with
  | nil =>
    have hpos := ten_zpow_pos s.exponent
    have hzero : s.value + powerOf [] * 10 ^ (s.exponent - ([] : List Char).length) = s.value := by simp [powerOf]
    rw [hzero, addFraction]
    exact ⟨hs, ⟨le_rfl, by linarith⟩, .inl rfl, le_rfl, le_rfl⟩
  | cons c cs ih =>
    obtain ⟨hc, hcs'⟩ := List.forall_mem_cons.mp hcs
    rw [addFraction]
    split
    next hfits =>
      obtain ⟨hlt, hbegins, hexact, hle, hge⟩ :=
        ih (s := ⟨10 * s.significand + digit c, s.exponent - 1⟩) hcs' (lt_of_fits hfits)
      have hunit : (10 : ℚ) ^ s.exponent = 10 * 10 ^ (s.exponent - 1) := by
        rw [← zpow_one_add₀ (by norm_num), add_sub_cancel]
      have hpos := ten_zpow_pos (s.exponent - 1)
      have hvalue : (⟨10 * s.significand + digit c, s.exponent - 1⟩ : Scaled).value =
          s.value + digit c * 10 ^ (s.exponent - 1) := by
        simp only [value, hunit, Nat.cast_add, Nat.cast_mul, Nat.cast_ofNat]
        ring
      have hx : (⟨10 * s.significand + digit c, s.exponent - 1⟩ : Scaled).value +
          powerOf cs * 10 ^ (s.exponent - 1 - cs.length) =
          s.value + powerOf (c :: cs) * 10 ^ (s.exponent - (c :: cs).length) := by
        have hexponent : s.exponent - ((c :: cs).length : Int) = s.exponent - 1 - cs.length := by
          rw [List.length_cons]
          omega
        rw [hvalue, hexponent, powerOf_cons, Nat.cast_add, Nat.cast_mul, Nat.cast_pow, Nat.cast_ofNat, add_mul,
          mul_assoc, pow_mul_zpow_sub, add_assoc]
      rw [hx] at hbegins hexact
      refine ⟨hlt, hbegins, hexact, ?_, ?_⟩
      · refine le_trans ?_ hle
        rw [hvalue]
        have : (0 : ℚ) ≤ digit c * 10 ^ (s.exponent - 1) := by positivity
        linarith
      · refine hge.trans ?_
        rw [hvalue, hunit]
        have hdigit : (digit c : ℚ) ≤ 9 := by exact_mod_cast digit_le hc
        nlinarith
    next hfits =>
      have hrest := fraction_lt hcs s.exponent
      have hnonneg : (0 : ℚ) ≤ powerOf (c :: cs) * 10 ^ (s.exponent - (c :: cs).length) := by positivity
      exact ⟨hs, ⟨by linarith, by linarith⟩, .inr (not_fits hc hfits), le_rfl, le_rfl⟩

/-- A number that is kept in full begins the exact one, and the digits that are left out are behind the eighteenth. -/
theorem Full.close {s : Scaled} {x y : ℚ} (hfull : s.Full) (hx : s.Begins x) (hy : s.Begins y) :
    |y - x| * 2 ^ 60 ≤ x := by
  have hpos := ten_zpow_pos s.exponent
  have hsignificand : (2 : ℚ) ^ 60 ≤ s.significand := by
    have : 2 ^ 60 ≤ s.significand := by
      have := hfull
      unfold Full at this
      omega
    exact_mod_cast this
  have hvalue : 2 ^ 60 * 10 ^ s.exponent ≤ s.value := mul_le_mul_of_nonneg_right hsignificand hpos.le
  have hdifference : |y - x| ≤ 10 ^ s.exponent := by
    rw [abs_le]
    constructor <;> linarith [hx.1, hx.2, hy.1, hy.2]
  calc |y - x| * 2 ^ 60 ≤ 10 ^ s.exponent * 2 ^ 60 := by gcongr
    _ = 2 ^ 60 * 10 ^ s.exponent := mul_comm _ _
    _ ≤ x := hvalue.trans hx.1

private theorem begins_value (s : Scaled) : s.Begins s.value :=
  ⟨le_rfl, lt_add_of_pos_right _ (ten_zpow_pos _)⟩

private theorem value_shift (s : Scaled) (power : Int) :
    (⟨s.significand, s.exponent + power⟩ : Scaled).value = s.value * 10 ^ power := by
  rw [value, value, zpow_add₀ (by norm_num), mul_assoc]

private theorem magnitude_shift (integer fraction : List Char) (power : Int) : magnitude integer fraction power =
    (powerOf integer + powerOf fraction * 10 ^ (0 - (fraction.length : Int))) * 10 ^ power := by
  have hshift : (10 : ℚ) ^ fraction.length * 10 ^ (0 - (fraction.length : Int)) = 1 := pow_mul_zpow_sub _ 0
  rw [magnitude, powerOf_append, show power - (fraction.length : Int) = (0 - fraction.length) + power by omega,
    zpow_add₀ (by norm_num), Nat.cast_add, Nat.cast_mul, Nat.cast_pow, Nat.cast_ofNat, ← mul_assoc, add_mul, mul_assoc,
    hshift, mul_one]

/-- What is kept of the digits of a number is the number, but for its digits behind the eighteenth. -/
theorem close_digits {integer fraction : List Char} (hinteger : ∀ c ∈ integer, c.isDigit = true)
    (hfraction : ∀ c ∈ fraction, c.isDigit = true) :
    |(addFraction (ofInteger 0 integer) fraction).value -
        (powerOf integer + powerOf fraction * 10 ^ (0 - (fraction.length : Int)))| * 2 ^ 60 ≤
      powerOf integer + powerOf fraction * 10 ^ (0 - (fraction.length : Int)) := by
  obtain ⟨m, k, hkept, hlt, hle, hgt, hfull⟩ := ofInteger_begins hinteger (show 0 < 2 ^ 64 by decide)
  obtain ⟨-, hbegins, hexact, hlow, hhigh⟩ := addFraction_begins (s := ⟨m, k⟩) hfraction hlt
  rw [Nat.zero_mul, Nat.zero_add] at hle hgt
  rw [hkept]
  have hnonneg : (0 : ℚ) ≤ powerOf fraction * 10 ^ (0 - (fraction.length : Int)) := by positivity
  obtain rfl | hfull := hfull
  · -- The integer is kept whole, and the fraction as far as there is room.
    have hm : m = powerOf integer := by omega
    have hx : (⟨m, ((0 : Nat) : Int)⟩ : Scaled).value = powerOf integer := by simp [value, hm]
    rw [hx] at hbegins hexact
    obtain heq | hfull := hexact
    · rw [show (addFraction ⟨m, ((0 : Nat) : Int)⟩ fraction).value = _ from heq]
      simp only [Nat.cast_zero, sub_self, abs_zero, zero_mul]
      positivity
    · exact hfull.close hbegins (begins_value _)
  · -- Digits of the integer are left out: the number and what is kept of it lie within one unit of the last digit.
    have hvalue : (⟨m, k⟩ : Scaled).value = m * 10 ^ k := by rw [value, zpow_natCast]
    have hle' : (m : ℚ) * 10 ^ k ≤ powerOf integer := by exact_mod_cast hle
    have hgt' : (powerOf integer : ℚ) + 1 ≤ (m + 1) * 10 ^ k := by exact_mod_cast hgt
    have hfraction' : (powerOf fraction : ℚ) * 10 ^ (0 - (fraction.length : Int)) < 1 := fraction_lt hfraction 0
    have hpos := ten_zpow_pos (addFraction ⟨m, k⟩ fraction).exponent
    refine Full.close (s := ⟨m, k⟩) hfull ⟨?_, ?_⟩ ⟨hlow, ?_⟩
    · rw [hvalue]
      linarith
    · rw [hvalue, zpow_natCast]
      linarith
    · linarith

private theorem close_ofDigits {integer fraction : List Char} (hinteger : ∀ c ∈ integer, c.isDigit = true)
    (hfraction : ∀ c ∈ fraction, c.isDigit = true) (power : Int) :
    |(ofDigits integer fraction power).value - magnitude integer fraction power| * 2 ^ 60 ≤
      magnitude integer fraction power := by
  have hpos := ten_zpow_pos power
  rw [ofDigits, value_shift, magnitude_shift, ← sub_mul, abs_mul, abs_of_pos hpos, mul_right_comm]
  exact mul_le_mul_of_nonneg_right (close_digits hinteger hfraction) hpos.le

private theorem significand_ofDigits_lt {integer fraction : List Char} (hinteger : ∀ c ∈ integer, c.isDigit = true)
    (hfraction : ∀ c ∈ fraction, c.isDigit = true) (power : Int) :
    (ofDigits integer fraction power).significand < 2 ^ 64 := by
  obtain ⟨m, k, hkept, hlt, -⟩ := ofInteger_begins hinteger (show 0 < 2 ^ 64 by decide)
  obtain ⟨hsignificand, -⟩ := addFraction_begins (s := ⟨m, k⟩) hfraction hlt
  rw [← hkept] at hsignificand
  exact hsignificand

end Scaled

/-- A multiple of a unit that is chosen by whether at least half a unit is lost is at most half a unit away. -/
theorem close_multiple {n unit : Nat} {up : Bool} (hup : up = true → unit ≤ 2 * (n % unit))
    (hdown : up = false → 2 * (n % unit) ≤ unit) (hpos : 0 < unit) :
    |(((if up then n / unit + 1 else n / unit) * unit : Nat) : ℚ) - n| * 2 ≤ unit := by
  have hn : (n : ℚ) = unit * (n / unit : Nat) + (n % unit : Nat) := by exact_mod_cast (Nat.div_add_mod n unit).symm
  have hmod : ((n % unit : Nat) : ℚ) ≤ unit := by exact_mod_cast (Nat.mod_lt n hpos).le
  cases up with
  | true =>
    have hhalf : (unit : ℚ) ≤ 2 * (n % unit : Nat) := by exact_mod_cast hup rfl
    have hdifference : (((n / unit + 1) * unit : Nat) : ℚ) - n = unit - (n % unit : Nat) := by
      rw [hn, Nat.cast_mul, Nat.cast_add, Nat.cast_one]
      ring
    rw [if_pos rfl, hdifference, abs_of_nonneg (by linarith)]
    linarith
  | false =>
    have hhalf : 2 * ((n % unit : Nat) : ℚ) ≤ unit := by exact_mod_cast hdown rfl
    have hdifference : ((n / unit * unit : Nat) : ℚ) - n = -((n % unit : Nat) : ℚ) := by
      rw [hn, Nat.cast_mul]
      ring
    rw [if_neg Bool.false_ne_true, hdifference, abs_neg, Nat.abs_cast]
    linarith

private theorem roundToDouble_eq {n : Nat} (hn : ¬ n.log2 < 53) : ∃ up : Bool,
    (up = true → 2 ^ (n.log2 - 52) ≤ 2 * (n % 2 ^ (n.log2 - 52))) ∧
    (up = false → 2 * (n % 2 ^ (n.log2 - 52)) ≤ 2 ^ (n.log2 - 52)) ∧
    roundToDouble n = (if up then n / 2 ^ (n.log2 - 52) + 1 else n / 2 ^ (n.log2 - 52)) * 2 ^ (n.log2 - 52) := by
  refine ⟨_, fun hup => ?_, fun hdown => ?_, if_neg hn⟩
  · obtain hmore | hhalf := (Bool.or_eq_true _ _).mp hup
    · exact (of_decide_eq_true hmore).le
    · exact (of_decide_eq_true ((Bool.and_eq_true _ _).mp hhalf).1).ge
  · exact Nat.le_of_not_lt (of_decide_eq_false (Bool.or_eq_false_iff.mp hdown).1)

/-- Rounding moves a number by at most half a unit of its 53rd binary digit. -/
theorem close_roundToDouble (n : Nat) : |(roundToDouble n : ℚ) - n| * 2 ^ 53 ≤ n := by
  by_cases hsmall : n.log2 < 53
  · rw [show roundToDouble n = n from if_pos hsmall, sub_self, abs_zero, zero_mul]
    exact n.cast_nonneg
  · obtain ⟨up, hup, hdown, heq⟩ := roundToDouble_eq hsmall
    have hn : n ≠ 0 := by
      rintro rfl
      exact hsmall (by decide)
    have hle : 2 ^ (n.log2 - 52) * 2 ^ 52 ≤ n := by
      rw [← pow_add, Nat.sub_add_cancel (by omega)]
      exact Nat.log2_self_le hn
    have hhalf := close_multiple hup hdown (Nat.two_pow_pos _)
    rw [← heq] at hhalf
    have hle' : ((2 ^ (n.log2 - 52) : Nat) : ℚ) * 2 ^ 52 ≤ n := by exact_mod_cast hle
    linarith

private theorem roundToDouble_le (n : Nat) : (roundToDouble n : ℚ) ≤ n * (1 + 1 / 2 ^ 53) := by
  have hclose := close_roundToDouble n
  have hle := le_abs_self ((roundToDouble n : ℚ) - n)
  linarith

private theorem le_roundToDouble (n : Nat) : (n : ℚ) * (1 - 1 / 2 ^ 53) ≤ roundToDouble n := by
  have hclose := close_roundToDouble n
  have hle := neg_abs_le ((roundToDouble n : ℚ) - n)
  linarith

/-- No double reaches this number. -/
def limit : ℚ :=
  2 ^ 1024

/-- The largest double. -/
def largest : ℚ :=
  (2 ^ 53 - 1) * 2 ^ 971

theorem cast_le_largest {n : Nat} : (n : ℚ) ≤ largest ↔ n ≤ (2 ^ 53 - 1) * 2 ^ 971 := by
  have hcast : largest = (((2 ^ 53 - 1) * 2 ^ 971 : Nat) : ℚ) := by
    rw [largest, Nat.cast_mul, Nat.cast_pow, Nat.cast_sub (by decide), Nat.cast_pow]
    rfl
  rw [hcast, Nat.cast_le]

private theorem cast_lt_two_pow {n k : Nat} : (n : ℚ) < 2 ^ k ↔ n < 2 ^ k := by
  rw [← Nat.cast_ofNat, ← Nat.cast_pow, Nat.cast_lt]

theorem limit_lt : limit < 10 ^ 309 := by
  calc limit = 2 * (2 ^ 93) ^ 11 := by rw [limit, ← pow_mul, ← pow_succ']
    _ < 10 * (10 ^ 28) ^ 11 := by gcongr <;> norm_num
    _ = 10 ^ 309 := by rw [← pow_mul, ← pow_succ']

theorem limit_pos : 0 < limit := by
  rw [limit]
  positivity

theorem lt_limit : 2 ^ 64 < limit := by
  rw [limit]
  exact pow_lt_pow_right₀ (by norm_num) (by norm_num)

namespace Scaled

/-- The double that a number is taken for: the power of ten is rounded first, then the product. -/
def product (s : Scaled) : Nat :=
  roundToDouble (roundToDouble s.significand * roundToDouble (10 ^ s.exponent.toNat))

private theorem isFinite_iff {s : Scaled} : s.isFinite = true ↔
    s.significand = 0 ∨ s.exponent < 0 ∨ s.exponent ≤ 308 ∧ (s.product : ℚ) < limit := by
  simp only [isFinite, product, limit, cast_lt_two_pow, Nat.pow_eq, Bool.or_eq_true, Bool.and_eq_true,
    decide_eq_true_eq, or_assoc, -Nat.reducePow]

private theorem value_of_nonneg {s : Scaled} (h : 0 ≤ s.exponent) :
    s.value = (s.significand : ℚ) * (10 ^ s.exponent.toNat : Nat) := by
  rw [value, Nat.cast_pow, Nat.cast_ofNat, ← zpow_natCast, Int.toNat_of_nonneg h]

/-- Three roundings raise a number little. -/
theorem product_le {s : Scaled} (h : 0 ≤ s.exponent) : (s.product : ℚ) ≤ s.value * (1 + 1 / 2 ^ 53) ^ 3 := by
  have hsignificand := roundToDouble_le s.significand
  have hpower := roundToDouble_le (10 ^ s.exponent.toNat)
  have hproduct := roundToDouble_le (roundToDouble s.significand * roundToDouble (10 ^ s.exponent.toNat))
  rw [Nat.cast_mul] at hproduct
  rw [value_of_nonneg h]
  calc (s.product : ℚ)
      ≤ (roundToDouble s.significand : ℚ) * (roundToDouble (10 ^ s.exponent.toNat) : ℚ) * (1 + 1 / 2 ^ 53) := hproduct
    _ ≤ ((s.significand : ℚ) * (1 + 1 / 2 ^ 53)) * (((10 ^ s.exponent.toNat : Nat) : ℚ) * (1 + 1 / 2 ^ 53)) *
        (1 + 1 / 2 ^ 53) := by gcongr
    _ = (s.significand : ℚ) * ((10 ^ s.exponent.toNat : Nat) : ℚ) * (1 + 1 / 2 ^ 53) ^ 3 := by ring

/-- Three roundings lower a number little. -/
theorem le_product {s : Scaled} (h : 0 ≤ s.exponent) : s.value * (1 - 1 / 2 ^ 53) ^ 3 ≤ (s.product : ℚ) := by
  have hsignificand := le_roundToDouble s.significand
  have hpower := le_roundToDouble (10 ^ s.exponent.toNat)
  have hproduct := le_roundToDouble (roundToDouble s.significand * roundToDouble (10 ^ s.exponent.toNat))
  have hunit : (0 : ℚ) ≤ 1 - 1 / 2 ^ 53 := by norm_num
  rw [Nat.cast_mul] at hproduct
  rw [value_of_nonneg h]
  calc (s.significand : ℚ) * ((10 ^ s.exponent.toNat : Nat) : ℚ) * (1 - 1 / 2 ^ 53) ^ 3
      = ((s.significand : ℚ) * (1 - 1 / 2 ^ 53)) * (((10 ^ s.exponent.toNat : Nat) : ℚ) * (1 - 1 / 2 ^ 53)) *
        (1 - 1 / 2 ^ 53) := by ring
    _ ≤ (roundToDouble s.significand : ℚ) * (roundToDouble (10 ^ s.exponent.toNat) : ℚ) * (1 - 1 / 2 ^ 53) := by gcongr
    _ ≤ (s.product : ℚ) := hproduct

private theorem isFinite_of_lt {s : Scaled} (h : s.value * (1 + 1 / 2 ^ 53) ^ 3 < limit) : s.isFinite = true := by
  rw [isFinite_iff]
  by_cases hzero : s.significand = 0
  · exact .inl hzero
  by_cases hexponent : s.exponent < 0
  · exact .inr (.inl hexponent)
  have hnonneg := Int.not_lt.mp hexponent
  refine .inr (.inr ⟨?_, (product_le hnonneg).trans_lt h⟩)
  by_contra hlarge
  have hpower : 10 ^ 309 ≤ ((10 ^ s.exponent.toNat : Nat) : ℚ) := by
    rw [Nat.cast_pow, Nat.cast_ofNat]
    exact pow_le_pow_right₀ (by norm_num) (by omega)
  have hone : (1 : ℚ) ≤ s.significand := by exact_mod_cast Nat.one_le_iff_ne_zero.mpr hzero
  have hfactor : (1 : ℚ) ≤ (1 + 1 / 2 ^ 53) ^ 3 := by norm_num
  have hvalue : limit < s.value := by
    calc limit < 10 ^ 309 := limit_lt
      _ ≤ ((10 ^ s.exponent.toNat : Nat) : ℚ) := hpower
      _ ≤ (s.significand : ℚ) * ((10 ^ s.exponent.toNat : Nat) : ℚ) := le_mul_of_one_le_left (by positivity) hone
      _ = s.value := (value_of_nonneg hnonneg).symm
  have hpos : 0 < s.value := limit_pos.trans hvalue
  exact absurd h (not_lt.mpr (hvalue.le.trans (le_mul_of_one_le_right hpos.le hfactor)))

private theorem lt_of_isFinite {s : Scaled} (hs : s.significand < 2 ^ 64) (h : s.isFinite = true) :
    s.value * (1 - 1 / 2 ^ 53) ^ 3 < limit := by
  have hfactor : (1 - 1 / 2 ^ 53 : ℚ) ^ 3 ≤ 1 := by norm_num
  have hnonneg : 0 ≤ s.value := mul_nonneg s.significand.cast_nonneg (ten_zpow_pos _).le
  have hsmall (hvalue : s.value ≤ s.significand) : s.value * (1 - 1 / 2 ^ 53) ^ 3 < limit := by
    have hs' : (s.significand : ℚ) < 2 ^ 64 := by exact_mod_cast hs
    calc s.value * (1 - 1 / 2 ^ 53) ^ 3 ≤ s.value := mul_le_of_le_one_right hnonneg hfactor
      _ ≤ (s.significand : ℚ) := hvalue
      _ < 2 ^ 64 := hs'
      _ < limit := lt_limit
  obtain hzero | hexponent | ⟨-, hproduct⟩ := isFinite_iff.mp h
  · exact hsmall (by rw [value, hzero, Nat.cast_zero, zero_mul])
  · refine hsmall (mul_le_of_le_one_right s.significand.cast_nonneg ?_)
    exact zpow_le_one_of_nonpos₀ (by norm_num) hexponent.le
  · by_cases hexponent : s.exponent < 0
    · refine hsmall (mul_le_of_le_one_right s.significand.cast_nonneg ?_)
      exact zpow_le_one_of_nonpos₀ (by norm_num) hexponent.le
    · exact (le_product (Int.not_lt.mp hexponent)).trans_lt hproduct

end Scaled

variable {integer fraction : List Char} {power : Int}

private theorem isFinite_of_magnitude_le (hinteger : ∀ c ∈ integer, c.isDigit = true)
    (hfraction : ∀ c ∈ fraction, c.isDigit = true)
    (h : magnitude integer fraction power ≤ limit * (1 - 1 / 2 ^ 51)) :
    (Scaled.ofDigits integer fraction power).isFinite = true := by
  have hclose := Scaled.close_ofDigits hinteger hfraction power
  have hle := le_abs_self ((Scaled.ofDigits integer fraction power).value - magnitude integer fraction power)
  apply Scaled.isFinite_of_lt
  have hvalue : (Scaled.ofDigits integer fraction power).value ≤ limit * ((1 - 1 / 2 ^ 51) * (1 + 1 / 2 ^ 60)) := by
    linarith
  calc (Scaled.ofDigits integer fraction power).value * (1 + 1 / 2 ^ 53) ^ 3
      ≤ limit * ((1 - 1 / 2 ^ 51) * (1 + 1 / 2 ^ 60)) * (1 + 1 / 2 ^ 53) ^ 3 := by gcongr
    _ = limit * ((1 - 1 / 2 ^ 51) * (1 + 1 / 2 ^ 60) * (1 + 1 / 2 ^ 53) ^ 3) := mul_assoc _ _ _
    _ < limit := mul_lt_of_lt_one_right limit_pos (by norm_num)

private theorem magnitude_lt_of_isFinite (hinteger : ∀ c ∈ integer, c.isDigit = true)
    (hfraction : ∀ c ∈ fraction, c.isDigit = true)
    (h : (Scaled.ofDigits integer fraction power).isFinite = true) :
    magnitude integer fraction power < limit * (1 + 1 / 2 ^ 51) := by
  have hclose := Scaled.close_ofDigits hinteger hfraction power
  have hle := neg_abs_le ((Scaled.ofDigits integer fraction power).value - magnitude integer fraction power)
  have hlt := Scaled.lt_of_isFinite (Scaled.significand_ofDigits_lt hinteger hfraction power) h
  by_contra hge
  have hvalue : limit * ((1 + 1 / 2 ^ 51) * (1 - 1 / 2 ^ 60)) ≤ (Scaled.ofDigits integer fraction power).value := by
    linarith
  have hfactor : (0 : ℚ) ≤ (1 - 1 / 2 ^ 53) ^ 3 := by norm_num
  have hlimit : limit ≤ (Scaled.ofDigits integer fraction power).value * (1 - 1 / 2 ^ 53) ^ 3 := by
    calc limit ≤ limit * ((1 + 1 / 2 ^ 51) * (1 - 1 / 2 ^ 60) * (1 - 1 / 2 ^ 53) ^ 3) :=
          le_mul_of_one_le_right limit_pos.le (by norm_num)
      _ = limit * ((1 + 1 / 2 ^ 51) * (1 - 1 / 2 ^ 60)) * (1 - 1 / 2 ^ 53) ^ 3 := (mul_assoc _ _ _).symm
      _ ≤ (Scaled.ofDigits integer fraction power).value * (1 - 1 / 2 ^ 53) ^ 3 :=
          mul_le_mul_of_nonneg_right hvalue hfactor
  exact absurd hlt (not_lt.mpr hlimit)

/-- How a number is written whose size, its sign left aside, is as wanted. -/
def OfSize (size : ℚ → Prop) (digits : List Char) : Prop :=
  ∃ integer fraction power, IsNumber digits integer fraction power ∧ size (magnitude integer fraction power)

variable {digits : List Char}

private theorem IsNumber.isDigit (h : IsNumber digits integer fraction power) :
    (∀ c ∈ integer, c.isDigit = true) ∧ ∀ c ∈ fraction, c.isDigit = true := by
  obtain ⟨-, hinteger, hpoint, -⟩ := h
  refine ⟨hinteger.1.2, ?_⟩
  cases hpoint with
  | none => exact List.forall_mem_nil _
  | some hfraction => exact hfraction.2

/-- A number below the limit of the doubles by one part in 2⁵¹ or more is not too large. -/
theorem OfSize.isFinite (h : OfSize (· ≤ limit * (1 - 1 / 2 ^ 51)) digits) : IsFinite digits := by
  obtain ⟨integer, fraction, power, hnumber, hsize⟩ := h
  exact ⟨integer, fraction, power, hnumber, isFinite_of_magnitude_le hnumber.isDigit.1 hnumber.isDigit.2 hsize⟩

/-- A number above the limit of the doubles by one part in 2⁵¹ or more is too large. -/
theorem IsFinite.ofSize (h : IsFinite digits) : OfSize (· < limit * (1 + 1 / 2 ^ 51)) digits := by
  obtain ⟨integer, fraction, power, hnumber, hfinite⟩ := h
  exact ⟨integer, fraction, power, hnumber, magnitude_lt_of_isFinite hnumber.isDigit.1 hnumber.isDigit.2 hfinite⟩

end PureCalls.Json
