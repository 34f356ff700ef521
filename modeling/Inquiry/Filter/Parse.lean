import Inquiry.Filter.Scan
import Inquiry.Text.LowerCase

/-!
# Filter.Parse — from tokens to filters

A filter expression is one or more clauses joined by `and`. A clause is a word, the path, followed by
`exists`, by `contains` and a quoted text, or by `==` and a quoted text. The words `exists`, `contains`
and `and` may be in any ASCII case, and may be paths as well.

* `parseClause` reads one clause from the front of a list of tokens.
* `Filter.parse` reads a whole expression.
-/

namespace Inquiry
namespace Filter

/-- Reads the quoted text after an operator. -/
def operand : List Token → Except FilterError (String × List Token)
  | .quoted text :: rest => .ok (text, rest)
  | .word text :: _ => .error (.unexpectedToken text .quotedString)
  | [] => .error (.unexpectedEnd .quotedString)

/-- Reads a clause whose path is behind. -/
def afterPath (path : String) : List Token → Except FilterError (Clause × List Token)
  | [] => .error (.unexpectedEnd .operator)
  | .quoted text :: _ => .error (.unexpectedToken text .operatorWord)
  | .word op :: rest =>
    if Text.equalsIgnoringCase op "exists" then .ok (.present path, rest)
    else if Text.equalsIgnoringCase op "contains" then
      (operand rest).map fun (text, rest) => (.contains path (Text.lower text), rest)
    else if op = "==" then (operand rest).map fun (text, rest) => (.equals path text, rest)
    else .error (.unexpectedToken op .operatorWord)

theorem operand_length {tokens rest : List Token} {text : String}
    (h : operand tokens = .ok (text, rest)) : rest.length < tokens.length := by
  match tokens with
  | [] => simp [operand] at h
  | .word _ :: _ => simp [operand] at h
  | .quoted _ :: _ =>
    simp only [operand, Except.ok.injEq, Prod.mk.injEq] at h
    simp [h.2]

theorem afterPath_length {path : String} {tokens rest : List Token} {clause : Clause}
    (h : afterPath path tokens = .ok (clause, rest)) : rest.length < tokens.length := by
  match tokens with
  | [] => simp [afterPath] at h
  | .quoted _ :: _ => simp [afterPath] at h
  | .word op :: tail =>
    simp only [afterPath] at h
    split at h
    · simp only [Except.ok.injEq, Prod.mk.injEq] at h
      simp [h.2]
    · split at h
      · cases ho : operand tail with
        | error e => simp [ho, Except.map] at h
        | ok p =>
          simp only [ho, Except.map, Except.ok.injEq, Prod.mk.injEq] at h
          have := operand_length ho
          simp only [← h.2, List.length_cons]
          omega
      · split at h
        · cases ho : operand tail with
          | error e => simp [ho, Except.map] at h
          | ok p =>
            simp only [ho, Except.map, Except.ok.injEq, Prod.mk.injEq] at h
            have := operand_length ho
            simp only [← h.2, List.length_cons]
            omega
        · simp at h

/-- Reads clauses joined by `and` up to the end. `first` tells whether none is behind. -/
def parseClauses (first : Bool) : List Token → Except FilterError (List Clause)
  | [] => .error (if first then .empty else .unexpectedEnd .fieldPath)
  | .quoted text :: _ => .error (.unexpectedToken text .fieldPath)
  | .word path :: tokens =>
    match _h : afterPath path tokens with
    | .error e => .error e
    | .ok (clause, []) => .ok [clause]
    | .ok (_, .quoted text :: _) => .error (.unexpectedToken text .conjunction)
    | .ok (clause, .word text :: rest) =>
      if Text.equalsIgnoringCase text "and" then (parseClauses false rest).map (clause :: ·)
      else .error (.unexpectedToken text .conjunction)
termination_by tokens => tokens.length
decreasing_by
  have := afterPath_length (by assumption)
  simp only [List.length_cons] at *
  omega

/-- Reads a filter expression. -/
def parse (expr : String) : Except FilterError Filter :=
  match tokens expr with
  | .error e => .error e
  | .ok ts => (parseClauses true ts).map Filter.mk

end Filter
end Inquiry
