import Inquiry.Calendar.Instant
import Inquiry.Text.Blank

/-!
# Calendar.Timestamp — instants as text

Instants are written in Universal Time as `YYYY-MM-DDTHH:MM:SS`, a fraction of three, six or nine
digits if there is one, and `Z`; a year outside 0 to 9999 carries its sign.

Reading is more lenient: the date and the time are separated by `T`, `t` or one space, every number
may have fewer digits and blank characters before it, a signed year may have more than four digits,
and the time is followed by `Z`, by `UTC` or by an offset in hours and minutes.
-/

namespace Inquiry
namespace Calendar

/-! ## Writing -/

/-- A number in decimal with at least `width` digits. -/
def padded (width n : Nat) : String :=
  let digits := (toString n).toList
  String.ofList (List.replicate (width - digits.length) '0' ++ digits)

/-- A year: four digits, or a sign and at least four digits. -/
def yearText (year : Int) : String :=
  if 0 ≤ year ∧ year ≤ 9999 then padded 4 year.natAbs
  else (if year < 0 then "-" else "+") ++ padded 4 year.natAbs

/-- A fraction of a second in nanoseconds, in as few groups of three digits as hold it. -/
def fractionText (nanosecond : Nat) : String :=
  if nanosecond = 0 then ""
  else if nanosecond % 1000000 = 0 then "." ++ padded 3 (nanosecond / 1000000)
  else if nanosecond % 1000 = 0 then "." ++ padded 6 (nanosecond / 1000)
  else "." ++ padded 9 nanosecond

/-- The text of an instant. -/
def Instant.text (t : Instant) : String :=
  let d := t.date
  let s := t.secondOfDay
  let leap := if 1000000000 ≤ t.nanosecond then 1 else 0
  yearText d.year ++ "-" ++ padded 2 (d.month + 1) ++ "-" ++ padded 2 d.day ++ "T"
    ++ padded 2 (s / 3600) ++ ":" ++ padded 2 (s / 60 % 60) ++ ":" ++ padded 2 (s % 60 + leap)
    ++ fractionText (t.nanosecond % 1000000000) ++ "Z"

/-! ## Reading -/

namespace Timestamp

/-- A text without its leading blank characters. -/
def skipBlank (cs : List Char) : List Char := cs.dropWhile Text.isBlank

/-- Whether a character is a decimal digit. -/
def isDigit (c : Char) : Bool := '0' ≤ c && c ≤ '9'

/-- The value of a list of decimal digits. -/
def valueOf (digits : List Char) : Nat := digits.foldl (fun n c => n * 10 + (c.toNat - 48)) 0

/-- Reads a number of at least one and at most `width` digits. -/
def number (width : Nat) (cs : List Char) : Option (Nat × List Char) :=
  let digits := (cs.take width).takeWhile isDigit
  if digits.isEmpty then none else some (valueOf digits, cs.drop digits.length)

/-- Reads a year: up to four digits, or a sign and any number of digits. -/
def year (cs : List Char) : Option (Int × List Char) :=
  match cs with
  | '-' :: rest => (number rest.length rest).map fun (n, rest) => (-(n : Int), rest)
  | '+' :: rest => (number rest.length rest).map fun (n, rest) => ((n : Int), rest)
  | cs => (number 4 cs).map fun (n, rest) => ((n : Int), rest)

/-- Reads a character between numbers, blank characters before it passed over. -/
def separator (c : Char) (cs : List Char) : Option (List Char) :=
  match skipBlank cs with
  | d :: rest => if d == c then some rest else none
  | [] => none

/-- Reads a fraction of a second in nanoseconds, if there is one; digits beyond the ninth are passed
over. -/
def fraction : List Char → Option (Nat × List Char)
  | '.' :: rest =>
    let digits := (rest.take 9).takeWhile isDigit
    if digits.isEmpty then none
    else some (valueOf digits * Nat.pow 10 (9 - digits.length), rest.dropWhile isDigit)
  | cs => some (0, cs)

/-- Reads the distance from Universal Time in seconds. -/
def offset (cs : List Char) : Option (Int × List Char) :=
  match cs with
  | 'Z' :: rest => some (0, rest)
  | 'z' :: rest => some (0, rest)
  | sign :: h₁ :: h₂ :: rest =>
    if Text.equalsIgnoringCase (String.ofList [sign, h₁, h₂]) "UTC" then some (0, rest)
    else
      let negative := sign == '-' || sign.toNat == 0x2212
      if !(negative || sign == '+') || !(isDigit h₁ && isDigit h₂) then none
      else
        match rest.dropWhile fun c => c == ':' || Text.isBlank c with
        | m₁ :: m₂ :: rest =>
          -- Minutes may not be left out, and there are sixty of them.
          if isDigit m₁ && isDigit m₂ && valueOf [m₁, m₂] < 60 then
            let seconds : Int := valueOf [h₁, h₂] * 3600 + valueOf [m₁, m₂] * 60
            some (if negative then -seconds else seconds, rest)
          else none
        | _ => none
  | _ => none

/-- The number of seconds up to a local time of day, and the nanoseconds after them. The sixtieth
second follows the last one. -/
def timeOfDay? (hour minute second nanosecond : Nat) : Option (Int × Nat) :=
  if hour < 24 ∧ minute < 60 ∧ second ≤ 60 then
    let leap := second = 60
    some (hour * 3600 + minute * 60 + (if leap then 59 else second : Nat),
      if leap then nanosecond + 1000000000 else nanosecond)
  else none

/-- The instant with the given local date and time and distance from Universal Time. -/
def assemble? (date : Date) (time : Int × Nat) (offset : Int) : Option Instant := do
  if !date.isValid || daySeconds ≤ offset.natAbs then none
  else
    let (second, nanosecond) := time
    -- The local time has to be in range as well as the instant.
    let there ← Instant.of? (date.toDay * daySeconds + second) nanosecond
    Instant.of? (there.second - offset) nanosecond

end Timestamp

open Timestamp in
/-- The instant that a text names. -/
def Instant.read? (s : String) : Option Instant := do
  let (y, cs) ← year (skipBlank s.toList)
  let cs ← separator '-' cs
  let (month, cs) ← number 2 (skipBlank cs)
  let cs ← separator '-' cs
  let (day, cs) ← number 2 (skipBlank cs)
  let cs ← match cs with
    | c :: rest => if c == 'T' || c == 't' || c == ' ' then some rest else none
    | [] => none
  let (hour, cs) ← number 2 (skipBlank cs)
  let cs ← separator ':' cs
  let (minute, cs) ← number 2 (skipBlank cs)
  let cs ← separator ':' cs
  let (second, cs) ← number 2 (skipBlank cs)
  let (nanosecond, cs) ← fraction cs
  let (away, cs) ← offset (skipBlank cs)
  if !(skipBlank cs).isEmpty || month = 0 then none
  else
    let time ← timeOfDay? hour minute second nanosecond
    assemble? ⟨y, month - 1, day⟩ time away

end Calendar
end Inquiry
