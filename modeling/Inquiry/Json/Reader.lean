import Inquiry.Json.Draft

/-!
# Json.Reader — from text to documents

Strict reading: white space is space, tab, line feed and carriage return; no comment, no trailing
comma, no control character inside a string, no lone surrogate. Containers nest at most `maxDepth`
deep.

* `draftFirst` reads the first draft of a text and returns what follows it: all that the grammar asks.
* `readFirst` reads the first document of a text and returns what follows it.
* `read?` reads a text that is one document and white space, `readSelected?` one of which only a part
  has to be more than a draft.

The reader keeps the open containers on a stack, so that no depth of nesting is too great for it.
-/

namespace Inquiry
namespace Json
namespace Reader

/-- White space between tokens. -/
def isSpace (c : Char) : Bool := c == ' ' || c == '\t' || c == '\n' || c == '\r'

/-- A text without its leading white space. -/
def skipSpace (cs : List Char) : List Char := cs.dropWhile isSpace

/-- The value of a hexadecimal digit. -/
def hexDigit? (c : Char) : Option Nat :=
  if '0' ≤ c ∧ c ≤ '9' then some (c.toNat - 48)
  else if 'a' ≤ c ∧ c ≤ 'f' then some (c.toNat - 87)
  else if 'A' ≤ c ∧ c ≤ 'F' then some (c.toNat - 55)
  else none

/-- The value of four hexadecimal digits. -/
def hexQuad? (a b c d : Char) : Option Nat := do
  let a ← hexDigit? a
  let b ← hexDigit? b
  let c ← hexDigit? c
  let d ← hexDigit? d
  pure (((a * 16 + b) * 16 + c) * 16 + d)

/-- The character that a letter after a backslash stands for. -/
def escape? : Char → Option Char
  | '"' => some '"'
  | '\\' => some '\\'
  | '/' => some '/'
  | 'b' => some (Char.ofNat 8)
  | 'f' => some (Char.ofNat 12)
  | 'n' => some '\n'
  | 'r' => some '\r'
  | 't' => some '\t'
  | _ => none

/-- A piece of a string: a character, or a code unit given by its number. -/
inductive Piece where
  | char (c : Char)
  | unit (n : Nat)
  deriving DecidableEq, Repr

/-- Whether a code unit is the first half of a surrogate pair. -/
def isHighHalf (n : Nat) : Bool := 0xD800 ≤ n && n < 0xDC00

/-- Whether a code unit is the second half of a surrogate pair. -/
def isLowHalf (n : Nat) : Bool := 0xDC00 ≤ n && n ≤ 0xDFFF

/-- The character of a surrogate pair. -/
def joinHalves (high low : Nat) : Char :=
  Char.ofNat (0x10000 + (high - 0xD800) * 0x400 + (low - 0xDC00))

/-- The text of the pieces that follow `done`, the characters so far, the last first. A half of a
surrogate pair counts only beside its other half. -/
def textOfPieces? (done : List Char) : List Piece → Option String
  | [] => some (String.ofList done.reverse)
  | .char c :: rest => textOfPieces? (c :: done) rest
  | .unit n :: rest =>
    if isHighHalf n then
      match rest with
      | .unit low :: rest =>
        if isLowHalf low then textOfPieces? (joinHalves n low :: done) rest else none
      | _ => none
    else if isLowHalf n then none
    else textOfPieces? (Char.ofNat n :: done) rest

/-- Reads the rest of a string whose opening quote is behind. `done` holds the pieces so far, the last
first. -/
def stringRest (done : List Piece) : List Char → Option (List Piece × List Char)
  | '"' :: rest => some (done.reverse, rest)
  | '\\' :: 'u' :: a :: b :: c :: d :: rest =>
    match hexQuad? a b c d with
    | none => none
    | some n => stringRest (.unit n :: done) rest
  | '\\' :: c :: rest =>
    match escape? c with
    | none => none
    | some e => stringRest (.char e :: done) rest
  | c :: rest => if c.toNat < 0x20 then none else stringRest (.char c :: done) rest
  | [] => none

/-- Reads the rest of a string: its text, if it has one, and what follows. -/
def textRest (cs : List Char) : Option (Option String × List Char) :=
  (stringRest [] cs).map fun (pieces, rest) => (textOfPieces? [] pieces, rest)

/-- Whether a character is a decimal digit. -/
def isDigit (c : Char) : Bool := '0' ≤ c && c ≤ '9'

/-- The value of a decimal digit. -/
def digit (c : Char) : Nat := c.toNat - 48

/-- The bound of a significand: sixty-four bits. -/
def significandBound : Nat := Nat.pow 2 64

/-- The bound of a written exponent: thirty-one bits. -/
def exponentBound : Nat := Nat.pow 2 31

/-- Digits taken into a significand while it stays below its bound: the significand, and the digits
from the first that does not fit. -/
def gather (significand : Nat) : List Char → Nat × List Char
  | [] => (significand, [])
  | c :: rest =>
    let next := significand * 10 + digit c
    if next < significandBound then gather next rest else (significand, c :: rest)

/-- An exponent as written: its value, or how it leaves the range. -/
inductive Exponent where
  | value (e : Int)
  | tooLarge (negative : Bool)
  deriving Repr

/-- The exponent with the given digits. -/
def exponentOf (negative : Bool) (digits : List Char) : Exponent :=
  let e := digits.foldl (fun n c => n * 10 + digit c) 0
  if e < exponentBound then .value (if negative then -(e : Int) else e) else .tooLarge negative

/-- A sum of exponents, kept within thirty-two bits. -/
def addExponents (a b : Int) : Int := max (-(exponentBound : Int)) (min (exponentBound - 1) (a + b))

/-- The number with the digits `whole` before the point, `fraction` after it, and an exponent.
Digits beyond sixty-four bits count only for their place. -/
def numberOf (negative : Bool) (whole fraction : List Char) (exponent : Option Exponent)
    (hasFraction : Bool) : Option Number :=
  let (significand, extra) := gather 0 whole
  if extra.isEmpty && !hasFraction && exponent.isNone then
    if !negative then some (.integer significand)
    -- Minus zero, and what is below the least integer, are no integers.
    else if significand ≠ 0 ∧ significand ≤ Nat.pow 2 63 then some (.integer (-(significand : Int)))
    else (Binary64.ofDecimal true significand 0).map .float
  else
    -- Digits of the fraction go on where those before the point stopped.
    let (significand, unread) := gather significand fraction
    let place : Int := extra.length - (fraction.length - unread.length : Nat)
    match exponent with
    | none => (Binary64.ofDecimal negative significand place).map .float
    | some (.value e) => (Binary64.ofDecimal negative significand (addExponents place e)).map .float
    | some (.tooLarge down) =>
      if significand = 0 ∨ down then some (.float (Binary64.zero negative)) else none

/-- Reads the exponent part of a number, if there is one. -/
def exponentPart : List Char → Option (Option Exponent × List Char)
  | c :: rest =>
    if c == 'e' || c == 'E' then
      let (negative, rest) := match rest with
        | '+' :: rest => (false, rest)
        | '-' :: rest => (true, rest)
        | rest => (false, rest)
      let digits := rest.takeWhile isDigit
      if digits.isEmpty then none
      else some (some (exponentOf negative digits), rest.dropWhile isDigit)
    else some (none, c :: rest)
  | [] => some (none, [])

/-- Reads a number whose sign is behind: its value, unless that is out of range, and what follows. -/
def unsignedNumber (negative : Bool) (cs : List Char) : Option (Option Number × List Char) :=
  let whole := cs.takeWhile isDigit
  let rest := cs.dropWhile isDigit
  if whole.isEmpty || (whole.head? == some '0' && whole.length != 1) then none
  else
    match rest with
    | '.' :: rest =>
      let fraction := rest.takeWhile isDigit
      if fraction.isEmpty then none
      else
        (exponentPart (rest.dropWhile isDigit)).map fun (exponent, rest) =>
          (numberOf negative whole fraction exponent true, rest)
    | rest =>
      (exponentPart rest).map fun (exponent, rest) =>
        (numberOf negative whole [] exponent false, rest)

/-- Reads a draft that is neither a container nor preceded by white space. -/
def scalar : List Char → Option (Draft × List Char)
  | 'n' :: 'u' :: 'l' :: 'l' :: rest => some (.null, rest)
  | 't' :: 'r' :: 'u' :: 'e' :: rest => some (.bool true, rest)
  | 'f' :: 'a' :: 'l' :: 's' :: 'e' :: rest => some (.bool false, rest)
  | '"' :: rest => (textRest rest).map fun (s, rest) => (.string s, rest)
  | '-' :: rest => (unsignedNumber true rest).map fun (n, rest) => (.number n, rest)
  | cs => (unsignedNumber false cs).map fun (n, rest) => (.number n, rest)

/-- Reads the name of a member and the colon after it. -/
def memberName (cs : List Char) : Option (Option String × List Char) :=
  match skipSpace cs with
  | '"' :: rest =>
    match textRest rest with
    | none => none
    | some (name, rest) =>
      match skipSpace rest with
      | ':' :: rest => some (name, rest)
      | _ => none
  | _ => none

/-- A container whose end is not reached: what it holds so far, the last first, and for an object the
name of the member being read. -/
inductive Frame where
  | array (done : List Draft)
  | object (done : List (Option String × Draft)) (name : Option String)

/-- What is to be read next. -/
inductive Goal where
  /-- A draft. -/
  | draft
  /-- What follows the given draft in the innermost container. -/
  | after (d : Draft)

/-- Reads on from a goal until the outermost draft is complete. Every step but the last takes at
least one character or turns `draft` into `after`, which bounds the number of steps. -/
def run : Nat → Goal → List Frame → List Char → Option (Draft × List Char)
  | 0, _, _, _ => none
  | steps + 1, .draft, stack, cs =>
    match skipSpace cs with
    | '[' :: rest =>
      match skipSpace rest with
      | ']' :: rest => run steps (.after (.array [])) stack rest
      | rest => run steps .draft (.array [] :: stack) rest
    | '{' :: rest =>
      match skipSpace rest with
      | '}' :: rest => run steps (.after (.object [])) stack rest
      | rest =>
        match memberName rest with
        | none => none
        | some (name, rest) => run steps .draft (.object [] name :: stack) rest
    | cs =>
      match scalar cs with
      | none => none
      | some (d, rest) => run steps (.after d) stack rest
  | _ + 1, .after d, [], cs => some (d, cs)
  | steps + 1, .after d, .array done :: stack, cs =>
    match skipSpace cs with
    | ',' :: rest => run steps .draft (.array (d :: done) :: stack) rest
    | ']' :: rest => run steps (.after (.array (d :: done).reverse)) stack rest
    | _ => none
  | steps + 1, .after d, .object done name :: stack, cs =>
    match skipSpace cs with
    | ',' :: rest =>
      match memberName rest with
      | none => none
      | some (next, rest) => run steps .draft (.object ((name, d) :: done) next :: stack) rest
    | '}' :: rest => run steps (.after (.object ((name, d) :: done).reverse)) stack rest
    | _ => none

/-- The first draft of a text, and what follows it. -/
def draftFirst (s : String) : Option (Draft × List Char) :=
  let cs := s.toList
  run (2 * cs.length + 2) .draft [] cs

/-- The first document of a text, and what follows it. -/
def readFirst (s : String) : Option (Value × List Char) := do
  let (d, rest) ← draftFirst s
  pure (← d.value?, rest)

/-- The draft that a text is. -/
def draft? (s : String) : Option Draft :=
  match draftFirst s with
  | some (d, rest) => if (skipSpace rest).isEmpty then some d else none
  | none => none

/-- The document that a text is. -/
def read? (s : String) : Option Value := (draft? s).bind Draft.value?

/-- The document that a selection makes of the draft that a text is. -/
def readSelected? (select : Draft → Draft) (s : String) : Option Value :=
  (draft? s).bind fun d => (select d).value?

end Reader
end Json
end Inquiry
