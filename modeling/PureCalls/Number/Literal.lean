import PureCalls.Number.Double
import PureCalls.Text.Characters

/-! Numbers as source text spells them, and their shortest spelling. -/
namespace PureCalls.Number
open Text

/-- The number that digits of a base spell. -/
def ofDigits (base : Nat) (digits : List Char) : Nat :=
  digits.foldl (fun n c => base * n + (digitValue? c).getD 0) 0

private def withoutSeparators (raw : String) : List Char :=
  raw.toList.filter (· ≠ '_')

/-- The whole number that a literal spells in a base that its first characters name. -/
private def inBase? : List Char → Option Nat
  | '0' :: mark :: digits =>
    if mark = 'x' || mark = 'X' then some (ofDigits 16 digits)
    else if mark = 'o' || mark = 'O' then some (ofDigits 8 digits)
    else if mark = 'b' || mark = 'B' then some (ofDigits 2 digits)
    else if (mark :: digits).all (isDigitOf 8) then some (ofDigits 8 (mark :: digits))
    else none
  | _ => none

private def signedPower : List Char → Int
  | '-' :: digits => -(ofDigits 10 digits : Int)
  | '+' :: digits => ofDigits 10 digits
  | digits => ofDigits 10 digits

/-- The decimal that a literal spells with a point or a power of ten. -/
private def decimal (cs : List Char) : Decimal :=
  let (mantissa, power) := cs.span fun c => c ≠ 'e' && c ≠ 'E'
  let (whole, fraction) := mantissa.span (· ≠ '.')
  let fraction := fraction.drop 1
  ⟨ofDigits 10 (whole ++ fraction), signedPower (power.drop 1) - fraction.length⟩

/-- The largest power of ten that is looked at. Numbers beyond it are too large or too small for a double. -/
private def largestPower : Int := 100000

/-- The double that a literal spells. -/
def doubleOf (raw : String) : Double :=
  let cs := withoutSeparators raw
  match inBase? cs with
  | some n => .nearest n 1
  | none =>
    let d := decimal cs
    let exponent := max (-largestPower) (min largestPower d.exponent)
    .nearest (d.digits * Nat.pow 10 exponent.toNat) (Nat.pow 10 (-exponent).toNat)

private def hexadecimal (n : Nat) : String :=
  "0x" ++ String.ofList (Nat.toDigits 16 n)

/-- The whole numbers that are written in base sixteen. They have no zeros that a power of ten could stand for. -/
private def prefersBaseSixteen (n : Nat) : Bool :=
  10000000 ≤ n && n ≤ Nat.pow 2 64 && n % 1000 ≠ 0

private def shortened (text : List Char) : String :=
  match text with
  | '0' :: '.' :: fraction =>
    let zeros := (fraction.takeWhile (· = '0')).length
    if zeros > 2 then String.ofList (fraction.drop zeros) ++ "e-" ++ toString fraction.length
    else String.ofList ('.' :: fraction)
  | text =>
    let zeros := (text.reverse.takeWhile (· = '0')).length
    if zeros > 2 then String.ofList (text.take (text.length - zeros)) ++ "e" ++ toString zeros
    else String.ofList text

/-- The number of a literal in few characters. One beyond all doubles stays as it is. -/
def shortText (raw : String) : String :=
  let x := doubleOf raw
  if x.isInfinite then raw
  else
    match x.whole? with
    | some n => if prefersBaseSixteen n then hexadecimal n else shortened x.shortest.positional.toList
    | none => shortened x.shortest.positional.toList

/-- The whole number of a literal that ends in `n`, in few characters. -/
def shortBigText (raw : String) : String :=
  let cs := withoutSeparators (String.ofList raw.toList.dropLast)
  let n := (inBase? cs).getD (ofDigits 10 cs)
  (if n ≥ 10000000000000000 then hexadecimal n else toString n) ++ "n"

/-- Whether a point behind the number would belong to the number. -/
def takesPoint (text : String) (written : Bool) : Bool :=
  let cs := text.toList
  if written then cs.all Char.isDigit && !(cs.length > 1 && cs.head? = some '0')
  else !cs.any fun c => c = '.' || c = 'e' || c = 'x'

end PureCalls.Number
