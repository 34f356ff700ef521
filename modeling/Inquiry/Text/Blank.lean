/-!
# Text.Blank — white space, trimming and the case of ASCII letters

The characters that separate words, and what is left of a text once they are taken off its ends.

* `isBlank` is the property White_Space of the Unicode character database.
* `trim` removes blank characters from both ends, `IsBlankText` holds of texts that it empties.
* `equalsIgnoringCase` compares two texts with ASCII letters folded, and nothing else.
-/

namespace Inquiry
namespace Text

/-- The twenty-five characters with the property White_Space. -/
def isBlank (c : Char) : Bool :=
  let n := c.toNat
  (9 ≤ n && n ≤ 13) || n == 0x20 || n == 0x85 || n == 0xA0 || n == 0x1680
    || (0x2000 ≤ n && n ≤ 0x200A) || n == 0x2028 || n == 0x2029 || n == 0x202F
    || n == 0x205F || n == 0x3000

/-- A list of characters without the blank ones at its ends. -/
def trimChars (cs : List Char) : List Char :=
  ((cs.dropWhile isBlank).reverse.dropWhile isBlank).reverse

/-- A text without the blank characters at its ends. -/
def trim (s : String) : String :=
  String.ofList (trimChars s.toList)

/-- Whether a text has no character that is not blank. -/
def isBlankText (s : String) : Bool :=
  s.toList.all isBlank

/-- The lower-case form of an ASCII letter; every other character is its own. -/
def foldAscii (c : Char) : Char :=
  if 'A' ≤ c ∧ c ≤ 'Z' then Char.ofNat (c.toNat + 32) else c

/-- Whether two texts are the same up to the case of ASCII letters. -/
def equalsIgnoringCase (s t : String) : Bool :=
  s.toList.map foldAscii == t.toList.map foldAscii

end Text
end Inquiry
