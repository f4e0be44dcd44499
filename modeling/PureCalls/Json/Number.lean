import PureCalls.Json.Value

/-! JSON numbers. Their value is of no use here, but one too large for a double is refused. -/
namespace PureCalls.Json

/-- The nearest number with 53 binary digits; of two that are equally near, the one whose last digit is even. -/
def roundToDouble (n : Nat) : Nat :=
  if n.log2 < 53 then n
  else
    let unit := Nat.pow 2 (n.log2 - 52)
    let kept := n / unit
    let lost := 2 * (n % unit)
    let up := lost > unit || (lost = unit && kept % 2 = 1)
    (if up then kept + 1 else kept) * unit

/-- The digits of a number as an integer and a power of ten. Digits that do not fit in 64 bits are dropped. -/
structure Scaled where
  significand : Nat
  exponent : Int
  deriving Repr

namespace Scaled

def digit (c : Char) : Nat :=
  c.toNat - '0'.toNat

def fits (n : Nat) : Bool :=
  n < Nat.pow 2 64

def ofInteger (n : Nat) : List Char → Scaled
  | [] => ⟨n, 0⟩
  | c :: rest =>
    let m := 10 * n + digit c
    if fits m then ofInteger m rest else ⟨n, rest.length + 1⟩

def addFraction (s : Scaled) : List Char → Scaled
  | [] => s
  | c :: rest =>
    let m := 10 * s.significand + digit c
    if fits m then addFraction ⟨m, s.exponent - 1⟩ rest else s

/-- The number written with these digits before and behind the point, times the given power of ten. -/
def ofDigits (integer fraction : List Char) (power : Int) : Scaled :=
  let s := addFraction (ofInteger 0 integer) fraction
  ⟨s.significand, s.exponent + power⟩

/-- Whether the double nearest to the number is finite. The power of ten is rounded first, then the product. -/
def isFinite (s : Scaled) : Bool :=
  s.significand = 0 || s.exponent < 0 ||
    (s.exponent ≤ 308 &&
      roundToDouble (roundToDouble s.significand * roundToDouble (Nat.pow 10 s.exponent.toNat)) < Nat.pow 2 1024)

end Scaled

/-- The digits at the front of a text, at least one. -/
def readDigits (cs : List Char) : Except Fault (List Char × List Char) :=
  match cs with
  | [] => .error .unfinished
  | c :: _ => if c.isDigit then .ok (cs.span Char.isDigit) else .error .malformed

def readInteger (cs : List Char) : Except Fault (List Char × List Char) := do
  let (digits, rest) ← readDigits cs
  if digits.head? = some '0' ∧ digits.length > 1 then .error .malformed
  return (digits, rest)

def readFraction (cs : List Char) : Except Fault (List Char × List Char) :=
  match cs with
  | '.' :: rest => readDigits rest
  | _ => .ok ([], cs)

def powerOf (digits : List Char) : Nat :=
  digits.foldl (fun n c => 10 * n + (c.toNat - '0'.toNat)) 0

def readPower (cs : List Char) : Except Fault (Int × List Char) :=
  match cs with
  | c :: rest =>
    if c = 'e' ∨ c = 'E' then do
      match rest with
      | '-' :: rest => let (digits, rest) ← readDigits rest; return (-(powerOf digits : Int), rest)
      | '+' :: rest => let (digits, rest) ← readDigits rest; return (powerOf digits, rest)
      | _ => let (digits, rest) ← readDigits rest; return (powerOf digits, rest)
    else .ok (0, cs)
  | [] => .ok (0, cs)

/-- Reads a number that starts with a minus sign or a digit. -/
def readNumber (cs : List Char) : Except Fault (String × List Char) := do
  let unsigned := match cs with
    | '-' :: rest => rest
    | _ => cs
  let (integer, rest) ← readInteger unsigned
  let (fraction, rest) ← readFraction rest
  let (power, rest) ← readPower rest
  if (Scaled.ofDigits integer fraction power).isFinite then
    return (String.ofList (cs.take (cs.length - rest.length)), rest)
  else .error .malformed

end PureCalls.Json
