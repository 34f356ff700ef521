import Inquiry.Text.CaseTable

/-!
# Text.LowerCase — full lower-casing

Lower-casing character by character, with the two exceptions that the full case mapping makes.

* The capital I with a dot above becomes two characters.
* The capital sigma at the end of a word becomes the final sigma: `isFinalSigma` says where that is.
-/

namespace Inquiry
namespace Text

/-- Whether a character is cased: has a lower-case, upper-case or title-case form. -/
def isCased (c : Char) : Bool :=
  casedSpans.any (·.holds c.toNat)

/-- Whether a character is passed over when the letters around a sigma are sought. -/
def isCaseIgnorable (c : Char) : Bool :=
  ignorableSpans.any (·.holds c.toNat)

/-- The lower-case form of one character outside any context. -/
def lowerChar (c : Char) : List Char :=
  let n := c.toNat
  if n < 0x80 then
    [if 0x41 ≤ n ∧ n ≤ 0x5A then Char.ofNat (n + 32) else c]
  else if n = 0x130 then
    ['i', Char.ofNat 0x307]
  else
    match lowerSpans.findSome? (·.image? n) with
    | some m => [Char.ofNat m]
    | none => [c]

/-- Whether the first character that is not case-ignorable is cased. -/
def meetsCased (cs : List Char) : Bool :=
  match cs.dropWhile isCaseIgnorable with
  | c :: _ => isCased c
  | [] => false

/-- A sigma ends a word if a cased character comes before it and none after it, case-ignorable
characters passed over. `before` holds the text in front of it, its last character first. -/
def isFinalSigma (before after : List Char) : Bool :=
  meetsCased before && !meetsCased after

/-- Lower-cases `cs`, the text in front of which is `before`, its last character first. -/
def lowerFrom (before : List Char) : List Char → List Char
  | [] => []
  | c :: cs =>
    -- The capital sigma is the only letter whose form depends on its neighbours.
    let image := if c.toNat = 0x3A3 then
        [Char.ofNat (if isFinalSigma before cs then 0x3C2 else 0x3C3)]
      else lowerChar c
    image ++ lowerFrom (c :: before) cs

/-- The full lower-case form of a text. -/
def lower (s : String) : String :=
  String.ofList (lowerFrom [] s.toList)

end Text
end Inquiry
