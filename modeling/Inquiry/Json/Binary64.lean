/-!
# Json.Binary64 — floating-point numbers of sixty-four bits

The finite numbers of the binary interchange format with a significand of fifty-three bits, in
exact arithmetic on natural numbers.

* `ofRatio` rounds a quotient of natural numbers to the nearest such number, ties to even.
* `mul` and `div` are the correctly rounded operations on magnitudes.
* `scaled` applies a power of ten to a significand in steps that stay within the range.
-/

namespace Inquiry
namespace Json

/-- The number `±significand · 2 ^ exponent`. Numbers in normal form have a significand below
`2 ^ 53` and an exponent of at least `-1074`, and either the significand is at least `2 ^ 52` or the
exponent is `-1074`. -/
structure Binary64 where
  negative : Bool
  significand : Nat
  exponent : Int
  deriving DecidableEq, Repr

namespace Binary64

/-- Zero, of either sign. -/
def zero (negative : Bool) : Binary64 := ⟨negative, 0, -1074⟩

/-- The least exponent of the format. -/
def minExponent : Int := -1074

/-- The greatest exponent of the format. -/
def maxExponent : Int := 971

/-- `num / den · 2 ^ shift` as a quotient of natural numbers. -/
def shifted (num den : Nat) (shift : Int) : Nat × Nat :=
  if 0 ≤ shift then (num * Nat.pow 2 shift.toNat, den) else (num, den * Nat.pow 2 (-shift).toNat)

/-- The exponent of the greatest power of two that is at most `num / den`, both positive. -/
def binaryOrder (num den : Nat) : Int :=
  let guess : Int := (num.log2 : Int) - den.log2
  -- The guess is right or one too great.
  let (p, q) := shifted num den (-guess)
  if q ≤ p then guess else guess - 1

/-- The quotient rounded to the nearest natural number, a half to the even one. -/
def roundHalfEven (num den : Nat) : Nat :=
  let whole := num / den
  let rest := num % den
  if 2 * rest < den then whole
  else if den < 2 * rest then whole + 1
  else whole + whole % 2

/-- The number nearest to `num / den`; none if that is out of range. -/
def ofRatio (negative : Bool) (num den : Nat) : Option Binary64 :=
  if num = 0 then some (zero negative)
  else
    let exponent := max (binaryOrder num den - 52) minExponent
    let (p, q) := shifted num den (-exponent)
    let significand := roundHalfEven p q
    -- Rounding up to the next power of two takes the exponent along.
    let (significand, exponent) :=
      if significand = Nat.pow 2 53 then (Nat.pow 2 52, exponent + 1) else (significand, exponent)
    if maxExponent < exponent then none else some ⟨negative, significand, exponent⟩

/-- The magnitude as a quotient of natural numbers. -/
def ratio (x : Binary64) : Nat × Nat :=
  shifted x.significand 1 x.exponent

/-- The rounded product of two magnitudes. -/
def mul (x y : Binary64) : Option Binary64 :=
  let (a, b) := x.ratio
  let (c, d) := y.ratio
  ofRatio false (a * c) (b * d)

/-- The rounded quotient of two magnitudes, the second not zero. -/
def div (x y : Binary64) : Option Binary64 :=
  let (a, b) := x.ratio
  let (c, d) := y.ratio
  ofRatio false (a * d) (b * c)

/-- The greatest decimal exponent whose power of ten is in range. -/
def greatestPower : Nat := 308

/-- The rounded power `10 ^ k`. -/
def powerOfTen (k : Nat) : Option Binary64 := ofRatio false (Nat.pow 10 k) 1

/-- Applies a power of ten that is itself in range. -/
def timesPower (x : Binary64) (exponent : Int) : Option Binary64 :=
  match powerOfTen exponent.natAbs with
  | none => none
  | some power => if 0 ≤ exponent then x.mul power else x.div power

/-- Divides by the greatest power of ten so many times, or until nothing is left. -/
def lowered : Nat → Binary64 → Option Binary64
  | 0, x => some x
  | steps + 1, x =>
    if x.significand = 0 then some x else (x.timesPower (-greatestPower)).bind (lowered steps)

/-- Applies the power `10 ^ exponent` to a magnitude. A negative power beyond the range is taken in
steps of `10 ^ -308`; a positive one is out of range, except for zero. -/
def scaled (x : Binary64) (exponent : Int) : Option Binary64 :=
  if exponent.natAbs ≤ greatestPower then x.timesPower exponent
  else if x.significand = 0 then some x
  else if 0 ≤ exponent then none
  else
    let steps := (exponent.natAbs - 1) / greatestPower
    (x.lowered steps).bind (·.timesPower (exponent + greatestPower * steps))

/-- The number written `significand · 10 ^ exponent`, the significand rounded first. -/
def ofDecimal (negative : Bool) (significand : Nat) (exponent : Int) : Option Binary64 :=
  match ofRatio false significand 1 with
  | none => none
  | some x => (x.scaled exponent).map fun y => { y with negative := negative }

end Binary64
end Json
end Inquiry
