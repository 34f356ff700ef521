import Inquiry.Filter.Syntax
import Inquiry.Text.Blank

/-!
# Filter.Scan — the tokens of a filter expression

A token is a text in double quotes, in which a backslash takes the next character as it is, or else a
longest run of characters that are neither blank nor double quotes.

`Scan` is where the scanner stands between two characters, and `Scan.step` takes one character further;
a step completes at most one token.
-/

namespace Inquiry

/-- Where the scanner stands. The characters of an unfinished token are listed the last first, and a
quoted text comes with the offset of its opening quote. -/
inductive Scan where
  | between
  | word (done : List Char)
  | quoted (start : Nat) (done : List Char)
  | escaped (start : Nat) (done : List Char)
  deriving DecidableEq, Repr

namespace Scan

/-- The word with the given characters, the last first. -/
def wordToken (done : List Char) : Token := .word (String.ofList done.reverse)

/-- The quoted text with the given characters, the last first. -/
def quotedToken (done : List Char) : Token := .quoted (String.ofList done.reverse)

/-- Takes the character at an offset: the token that it completes, and where the scanner stands
then. -/
def step (offset : Nat) (c : Char) : Scan → Option Token × Scan
  | between =>
    if Text.isBlank c then (none, between)
    else if c = '"' then (none, quoted offset [])
    else (none, word [c])
  | word done =>
    if Text.isBlank c then (some (wordToken done), between)
    else if c = '"' then (some (wordToken done), quoted offset [])
    else (none, word (c :: done))
  | quoted start done =>
    if c = '\\' then (none, escaped start done)
    else if c = '"' then (some (quotedToken done), between)
    else (none, quoted start (c :: done))
  | escaped start done => (none, quoted start (c :: done))

/-- The token that the end of the expression completes; a quoted text needs its closing quote. -/
def finish : Scan → Except FilterError (List Token)
  | between => .ok []
  | word done => .ok [wordToken done]
  | quoted start _ => .error (.unterminatedString start)
  | escaped start _ => .error (.unterminatedString start)

/-- The tokens of the rest of an expression, the first character of which is at an offset. -/
def tokensFrom (s : Scan) (offset : Nat) : List Char → Except FilterError (List Token)
  | [] => s.finish
  | c :: cs =>
    match s.step offset c with
    | (token, s) => (tokensFrom s (offset + c.utf8Size) cs).map (token.toList ++ ·)

end Scan

/-- The tokens of an expression. -/
def Filter.tokens (expr : String) : Except FilterError (List Token) :=
  Scan.tokensFrom .between 0 expr.toList

end Inquiry
