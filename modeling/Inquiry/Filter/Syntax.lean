/-!
# Filter.Syntax — filters and what can be wrong with them

A filter is a list of clauses, all of which a document has to satisfy. A clause states something about
the value at a path: that it is there, that it contains a text, or that its text is a given one.

* `Clause` and `Filter`, as they are after reading.
* `Token`, the words and quoted texts of a filter expression.
* `FilterError`, why an expression is no filter.
-/

namespace Inquiry

/-- What a filter states about the value at a path. The text that a value has to contain is kept in
lower case. -/
inductive Clause where
  | present (path : String)
  | contains (path needle : String)
  | equals (path text : String)
  deriving DecidableEq, Repr

/-- A conjunction of clauses. -/
structure Filter where
  clauses : List Clause
  deriving DecidableEq, Repr

/-- A part of a filter expression. -/
inductive Token where
  | word (text : String)
  | quoted (text : String)
  deriving DecidableEq, Repr

/-- The text of a token, without the quotes. -/
def Token.text : Token → String
  | word text => text
  | quoted text => text

/-- What an expression should have gone on with. -/
inductive Expected where
  | fieldPath
  | operator
  | operatorWord
  | quotedString
  | conjunction
  deriving DecidableEq, Repr

/-- The words for what should have come. -/
def Expected.words : Expected → String
  | fieldPath => "field path"
  | operator => "operator"
  | operatorWord => "exists, contains or =="
  | quotedString => "quoted string"
  | conjunction => "and"

/-- Why an expression is no filter. The place of a string is its offset in UTF-8. -/
inductive FilterError where
  | empty
  | unterminatedString (offset : Nat)
  | unexpectedToken (token : String) (expected : Expected)
  | unexpectedEnd (expected : Expected)
  deriving DecidableEq, Repr

/-- The message for an expression that is no filter. -/
def FilterError.message : FilterError → String
  | empty => "Empty filter expression"
  | unterminatedString offset => "Unterminated string starting at offset " ++ toString offset
  | unexpectedToken token expected =>
    "Unexpected token '" ++ token ++ "', expected " ++ expected.words
  | unexpectedEnd expected => "Unexpected end of filter, expected " ++ expected.words

end Inquiry
