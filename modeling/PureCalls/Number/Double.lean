/-! Numbers with 53 binary digits: the nearest one to a fraction, and the decimals that are nearest to it in turn. -/
namespace PureCalls.Number

/-- The number `significand * 2 ^ exponent`, with at most 53 binary digits. -/
structure Double where
  significand : Nat
  exponent : Int
  deriving DecidableEq, Repr, Inhabited

/-- The number `digits * 10 ^ exponent`. -/
structure Decimal where
  digits : Nat
  exponent : Int
  deriving DecidableEq, Repr, Inhabited

namespace Double

/-- The smallest exponent. -/
def leastExponent : Int := -1074

/-- The quotient as a whole number, rounded to the nearest and, halfway, to the even one. -/
private def roundedQuotient (numerator denominator : Nat) : Nat :=
  let kept := numerator / denominator
  let lost := 2 * (numerator % denominator)
  if lost > denominator || (lost = denominator && kept % 2 = 1) then kept + 1 else kept

/-- The double nearest to a fraction that is not negative. No bound is set to its exponent from above. -/
def nearest (numerator denominator : Nat) : Double :=
  if numerator = 0 then ⟨0, 0⟩
  else
    let guess : Int := numerator.log2 - denominator.log2 - 52
    let scaled (e : Int) : Nat × Nat := (numerator * Nat.pow 2 (-e).toNat, denominator * Nat.pow 2 e.toNat)
    let exponent := if (scaled guess).1 / (scaled guess).2 < Nat.pow 2 52 then guess - 1 else guess
    let exponent := max exponent leastExponent
    let significand := roundedQuotient (scaled exponent).1 (scaled exponent).2
    if significand = Nat.pow 2 53 then ⟨Nat.pow 2 52, exponent + 1⟩ else ⟨significand, exponent⟩

/-- Whether the number is too large to be one. -/
def isInfinite (x : Double) : Bool :=
  x.exponent > 971

/-- The whole number that the double is, if it is one. -/
def whole? (x : Double) : Option Nat :=
  if 0 ≤ x.exponent then some (x.significand * Nat.pow 2 x.exponent.toNat)
  else
    let unit := Nat.pow 2 (-x.exponent).toNat
    if x.significand % unit = 0 then some (x.significand / unit) else none

/-- Compares `a * 10 ^ i` with `b * 2 ^ j`. -/
private def compareScaled (a : Nat) (i : Int) (b : Nat) (j : Int) : Ordering :=
  compare (a * Nat.pow 10 i.toNat * Nat.pow 2 (-j).toNat) (b * Nat.pow 2 j.toNat * Nat.pow 10 (-i).toNat)

/-- Whether the double is the one nearest to a decimal. -/
def readsBack (x : Double) (d : Decimal) : Bool :=
  let narrow := x.significand = Nat.pow 2 52 && x.exponent > leastExponent
  let low := if narrow then 4 * x.significand - 1 else 4 * x.significand - 2
  let high := 4 * x.significand + 2
  let withEnds := x.significand % 2 = 0
  let above := compareScaled d.digits d.exponent low (x.exponent - 2)
  let below := compareScaled d.digits d.exponent high (x.exponent - 2)
  (above = .gt || (withEnds && above = .eq)) && (below = .lt || (withEnds && below = .eq))

/-- The least power of ten above the number, by its exponent. -/
private def scale (x : Double) : Int :=
  let guess : Int := (x.significand.log2 + x.exponent) * 30103 / 100000 - 1
  let above (k : Int) : Bool := compareScaled 1 k x.significand x.exponent = .gt
  if above guess then guess else if above (guess + 1) then guess + 1 else if above (guess + 2) then guess + 2
  else guess + 3

/-- The decimal with the given number of digits that reads back, the nearer one of two. -/
private def withDigits (x : Double) (scale : Int) (count : Nat) : Option Decimal :=
  let unit := scale - count
  let numerator := x.significand * Nat.pow 2 x.exponent.toNat * Nat.pow 10 (-unit).toNat
  let denominator := Nat.pow 2 (-x.exponent).toNat * Nat.pow 10 unit.toNat
  let low := numerator / denominator
  let nearer := if 2 * (numerator % denominator) > denominator then [low + 1, low] else [low, low + 1]
  (nearer.map fun digits => (⟨digits, unit⟩ : Decimal)).find? x.readsBack

/-- The shortest decimal that reads back, and among the shortest the nearest one. -/
def shortest (x : Double) : Decimal :=
  if x.significand = 0 then ⟨0, 0⟩
  else
    match (List.range 17).findSome? fun n => withDigits x (scale x) (n + 1) with
    | some d => d
    | none => ⟨x.significand * Nat.pow 5 (-x.exponent).toNat * Nat.pow 2 x.exponent.toNat, min x.exponent 0⟩

end Double

/-- The digits of a decimal in their places around the point, without superfluous zeros. -/
def Decimal.positional (d : Decimal) : String :=
  let digits := (toString d.digits).toList
  if 0 ≤ d.exponent then String.ofList (digits ++ List.replicate (if d.digits = 0 then 0 else d.exponent.toNat) '0')
  else
    let places := (-d.exponent).toNat
    let padded := List.replicate (places + 1 - digits.length) '0' ++ digits
    let whole := padded.take (padded.length - places)
    let fraction := ((padded.drop (padded.length - places)).reverse.dropWhile (· = '0')).reverse
    String.ofList (if fraction.isEmpty then whole else whole ++ '.' :: fraction)

end PureCalls.Number
