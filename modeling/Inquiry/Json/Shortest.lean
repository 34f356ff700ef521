import Inquiry.Json.Binary64

/-!
# Json.Shortest — the shortest decimal text of a floating-point number

A floating-point number is written with the fewest significant digits that read back as it, and of
those decimals the nearest to it, a tie going to the even digit.

* `shortest` chooses the digits: at each length it tries the two neighbours of the value on the
  decimal grid of that length.
* `layout` is the way the digits are set: positional for decimal exponents from -5 to 15, scientific
  with a signed exponent elsewhere, and always with a point or an exponent.
-/

namespace Inquiry
namespace Json

/-- How the digits of a number are set. -/
structure DecimalLayout where
  /-- The least decimal exponent written without an exponent part. -/
  leastPositional : Int
  /-- The greatest decimal exponent written without an exponent part. -/
  greatestPositional : Int
  deriving Repr

namespace Binary64

/-- Positional from `0.00001` up to sixteen digits before the point. -/
def layout : DecimalLayout := ⟨-5, 15⟩

/-- The reals that round to `x`, as numerators over a common denominator: the lower end, the value,
the upper end, the denominator, and whether the ends belong. -/
structure RoundingInterval where
  low : Nat
  value : Nat
  high : Nat
  den : Nat
  closed : Bool
  deriving Repr

/-- The interval of `x`. Below a power of two the spacing halves, so that the lower end is nearer. -/
def roundingInterval (x : Binary64) : RoundingInterval :=
  let (num, den) := shifted 1 4 x.exponent
  let m := x.significand
  let below := if m = Nat.pow 2 52 ∧ minExponent < x.exponent then 1 else 2
  ⟨(4 * m - below) * num, 4 * m * num, (4 * m + 2) * num, den, m % 2 == 0⟩

/-- Whether `num / den` rounds to the number whose interval is given. -/
def RoundingInterval.holds (i : RoundingInterval) (num den : Nat) : Bool :=
  if i.closed then
    i.low * den ≤ num * i.den && num * i.den ≤ i.high * den
  else
    i.low * den < num * i.den && num * i.den < i.high * den

/-- The greatest `p` with `10 ^ p ≤ num / den`, both positive. -/
def decimalOrder (num den : Nat) : Int :=
  let below (p : Int) : Bool :=
    if 0 ≤ p then Nat.pow 10 p.toNat * den ≤ num else den ≤ num * Nat.pow 10 (-p).toNat
  let guess : Int := (((num.log2 : Int) - den.log2) * 1233) / 4096
  if below (guess + 1) then guess + 1
  else if below guess then guess
  else guess - 1

/-- The multiple of `10 ^ unit` with the given coefficient, as a quotient. -/
def onGrid (coefficient : Nat) (unit : Int) : Nat × Nat :=
  if 0 ≤ unit then (coefficient * Nat.pow 10 unit.toNat, 1) else (coefficient, Nat.pow 10 (-unit).toNat)

/-- The coefficient on the grid of `10 ^ unit` that reads back as the number and is nearest to it,
if one of its two neighbours there does. -/
def gridChoice? (i : RoundingInterval) (unit : Int) : Option Nat :=
  let (num, den) := if 0 ≤ unit then (i.value, i.den * Nat.pow 10 unit.toNat)
    else (i.value * Nat.pow 10 (-unit).toNat, i.den)
  let lower := num / den
  let reads (k : Nat) : Bool := let (a, b) := onGrid k unit; i.holds a b
  match reads lower, reads (lower + 1) with
  | true, true =>
    -- Both neighbours read back: the nearer one counts, and in the middle the even one.
    let rest := num % den
    if 2 * rest < den then some lower
    else if den < 2 * rest then some (lower + 1)
    else some (lower + lower % 2)
  | true, false => some lower
  | false, true => some (lower + 1)
  | false, false => none

/-- The shortest decimal `k · 10 ^ unit` of a number that is not zero; seventeen digits always do. -/
def shortest (x : Binary64) : Nat × Int :=
  let i := x.roundingInterval
  let order := decimalOrder i.value i.den
  let units := (List.range 17).map fun (n : Nat) => order - Int.ofNat n
  -- The coarsest grid comes first.
  match units.findSome? fun unit => (gridChoice? i unit).map (·, unit) with
  | some choice => choice
  | none => (i.value / i.den, 0)

/-- A natural number without its trailing zeros, and how many there were; `fuel` bounds them. -/
def dropZeros : Nat → Nat → Nat × Nat
  | 0, n => (n, 0)
  | fuel + 1, n =>
    if n ≠ 0 ∧ n % 10 = 0 then
      let (m, k) := dropZeros fuel (n / 10)
      (m, k + 1)
    else (n, 0)

/-- The text of the decimal `k · 10 ^ unit`, with `k` not zero and without trailing zeros. -/
def decimalText (k : Nat) (unit : Int) : String :=
  let digits := (toString k).toList
  let order : Int := unit + digits.length - 1
  if layout.leastPositional ≤ order ∧ order ≤ layout.greatestPositional then
    if 0 ≤ unit then
      String.ofList (digits ++ List.replicate unit.toNat '0' ++ ['.', '0'])
    else if 0 ≤ order then
      String.ofList (digits.take (order.toNat + 1) ++ ['.'] ++ digits.drop (order.toNat + 1))
    else
      String.ofList (['0', '.'] ++ List.replicate ((-order).toNat - 1) '0' ++ digits)
  else
    let fraction := match digits with
      | d :: e :: rest => d :: '.' :: e :: rest
      | short => short
    let sign := if 0 ≤ order then "+" else "-"
    String.ofList fraction ++ "e" ++ sign ++ toString order.natAbs

/-- The text of a number, with its sign. -/
def text (x : Binary64) : String :=
  let sign := if x.negative then "-" else ""
  if x.significand = 0 then sign ++ "0.0"
  else
    let (k, unit) := x.shortest
    let (k, zeros) := dropZeros 20 k
    sign ++ decimalText k (unit + zeros)

end Binary64
end Json
end Inquiry
