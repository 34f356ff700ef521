import Inquiry.Json.Value
import Inquiry.Json.Shortest

/-!
# Json.Writer — from documents to text

Documents are written without white space. In strings the quote, the backslash and the control
characters below the space are escaped, the common ones by a letter, and nothing else is.
-/

namespace Inquiry
namespace Json

/-- The text of a number: an integer in decimal, a floating-point number by its shortest digits. -/
def Number.text : Number → String
  | .integer n => toString n
  | .float x => x.text

namespace Writer

/-- A digit of a hexadecimal number. -/
def hexDigit (n : Nat) : Char :=
  if n < 10 then Char.ofNat (48 + n) else Char.ofNat (87 + n)

/-- A character inside a string. -/
def escaped (c : Char) : List Char :=
  match c with
  | '"' => ['\\', '"']
  | '\\' => ['\\', '\\']
  | '\n' => ['\\', 'n']
  | '\r' => ['\\', 'r']
  | '\t' => ['\\', 't']
  | c =>
    if c.toNat = 8 then ['\\', 'b']
    else if c.toNat = 12 then ['\\', 'f']
    else if c.toNat < 0x20 then
      ['\\', 'u', '0', '0', hexDigit (c.toNat / 16), hexDigit (c.toNat % 16)]
    else [c]

/-- A string with its quotes. -/
def quoted (s : String) : String :=
  s.foldl (fun out c => (escaped c).foldl String.push out) "\"" ++ "\""

end Writer

namespace Value

mutual

/-- Appends the text of a document. -/
def writeOnto (out : String) : Value → String
  | .null => out ++ "null"
  | .bool true => out ++ "true"
  | .bool false => out ++ "false"
  | .number n => out ++ n.text
  | .string s => out ++ Writer.quoted s
  | .array [] => out ++ "[]"
  | .array (v :: rest) => writeItemsOnto (writeOnto (out ++ "[") v) rest
  | .object [] => out ++ "\x7b\x7d"
  | .object ((k, v) :: rest) =>
    writeMembersOnto (writeOnto (out ++ "\x7b" ++ Writer.quoted k ++ ":") v) rest

/-- Appends the rest of the items of an array and its end. -/
def writeItemsOnto (out : String) : List Value → String
  | [] => out ++ "]"
  | v :: rest => writeItemsOnto (writeOnto (out ++ ",") v) rest

/-- Appends the rest of the members of an object and its end. -/
def writeMembersOnto (out : String) : List (String × Value) → String
  | [] => out ++ "\x7d"
  | (k, v) :: rest => writeMembersOnto (writeOnto (out ++ "," ++ Writer.quoted k ++ ":") v) rest

end

/-- The text of a document. -/
def write (v : Value) : String := v.writeOnto ""

end Value
end Json
end Inquiry
