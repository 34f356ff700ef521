import Inquiry.Filter.Match
import Inquiry.Proofs.Filter.Clauses

/-!
# Proofs.Filter.Conjunction — filters joined by `and`

At the end of an expression that can be read, the scanner is not inside a quoted text, and a blank character ends
the last word. So what is written behind it is read as if it stood alone.

* `Lexes.append`, `Joined.append`: the tokens and the clauses of two expressions, one behind the other.
* `parse_and`: two expressions joined by `and` are read as the clauses of both.
* `conjunction_admits`: what is joined admits the documents that both expressions admit.
* `parse_clause`: a clause that has been written is read; `equation` asks for one value at a path.
-/

namespace Inquiry
namespace Filter

variable {c : Char} {cs cs' : List Char} {ts ts' : List Token} {clauses clauses' : List Clause} {word : String}

/-- An expression, a blank character and another expression have the tokens of both. -/
theorem Lexes.append (h : Lexes cs ts) (hblank : Text.isBlank c = true) (h' : Lexes cs' ts') :
    Lexes (cs ++ c :: cs') (ts ++ ts') := by
  induction h with
  | nil => exact .blank hblank h'
  | blank hfirst _ ih => exact .blank hfirst ih
  | @word run rest ts hne hrun hrest _ ih =>
    -- A word that the end of the expression has ended is ended by the blank character.
    have hlongest : ∀ d ∈ (rest ++ c :: cs').head?, ¬ InWord d := by
      cases rest with
      | nil => simp [InWord, hblank]
      | cons d rest => exact hrest
    simpa using Lexes.word hne hrun hlongest ih
  | quoted hescapes _ ih => simpa using Lexes.quoted hescapes ih

/-- Clauses, `and` and further clauses are the clauses of both. -/
theorem Joined.append (h : Joined ts clauses) (hword : Spells word "and") (h' : Joined ts' clauses') :
    Joined (ts ++ .word word :: ts') (clauses ++ clauses') := by
  induction h with
  | last hspelled => exact .next hspelled hword h'
  | next hspelled hfirst _ ih => simpa using Joined.next hspelled hfirst ih

/-- Two expressions joined by `and` are read as the clauses of both. -/
theorem parse_and {expr expr' : String} {f f' : Filter} (h : parse expr = .ok f) (h' : parse expr' = .ok f') :
    parse (expr ++ " and " ++ expr') = .ok ⟨f.clauses ++ f'.clauses⟩ := by
  obtain ⟨ts, htokens, hclauses⟩ := parse_eq_ok.1 h
  obtain ⟨ts', htokens', hclauses'⟩ := parse_eq_ok.1 h'
  obtain ⟨written, hjoined, hread⟩ := parseClauses_eq_ok.1 hclauses
  obtain ⟨written', hjoined', hread'⟩ := parseClauses_eq_ok.1 hclauses'
  have hspace : Text.isBlank ' ' = true := rfl
  have hand : Spells "and" "and" := by decide
  have hword : Writable (.word "and") := (by decide : IsPath "and")
  have hbehind : Lexes ("and".toList ++ ' ' :: expr'.toList) (.word "and" :: ts') :=
    lexes_lexeme hword (by simp [InWord, hspace]) (.blank hspace (tokens_eq_ok.1 htokens'))
  have hchars : (expr ++ " and " ++ expr').toList =
      expr.toList ++ ' ' :: ("and".toList ++ ' ' :: expr'.toList) := by simp
  refine parse_eq_ok.2 ⟨ts ++ .word "and" :: ts', ?_, ?_⟩
  · rw [tokens_eq_ok, hchars]
    exact (tokens_eq_ok.1 htokens).append hspace hbehind
  · refine parseClauses_eq_ok.2 ⟨written ++ written', hjoined.append hand hjoined', ?_⟩
    rw [List.map_append, hread, hread']

theorem admits_append {doc : Json.Value} :
    Filter.admits ⟨clauses ++ clauses'⟩ doc = (Filter.admits ⟨clauses⟩ doc && Filter.admits ⟨clauses'⟩ doc) :=
  List.all_append

/-- Joining expressions by `and` is conjunction: what comes of it is a filter, which admits the documents that both
admit. -/
theorem conjunction_admits {expr expr' : String} {f f' : Filter} (h : parse expr = .ok f)
    (h' : parse expr' = .ok f') :
    ∃ g, parse (expr ++ " and " ++ expr') = .ok g ∧
      ∀ doc, g.admits doc = true ↔ f.admits doc = true ∧ f'.admits doc = true := by
  refine ⟨_, parse_and h h', fun doc => ?_⟩
  rw [admits_append, Bool.and_eq_true]

/-- The first expression ends behind a backslash and a quote, and the second one starts with a path that is called as
the keyword is. -/
theorem conjunction_admits_keyword :
    ∃ f f' g, parse "say == \"\\\"and\\\\\"" = .ok f ∧ parse "and EXISTS" = .ok f' ∧
      parse ("say == \"\\\"and\\\\\"" ++ " and " ++ "and EXISTS") = .ok g ∧
      g.admits (.object [("and", .bool false), ("say", .string "\"and\\")]) = true ∧
      g.admits (.object [("and", .null), ("say", .string "\"and\\")]) = false := by
  have hsay : parse "say == \"\\\"and\\\\\"" = .ok ⟨[.equals "say" "\"and\\"]⟩ := by decide +kernel
  have hand : parse "and EXISTS" = .ok ⟨[.present "and"]⟩ := by decide +kernel
  obtain ⟨g, hparse, hadmits⟩ := conjunction_admits hsay hand
  refine ⟨_, _, g, hsay, hand, hparse, (hadmits _).2 (by decide +kernel), ?_⟩
  rw [Bool.eq_false_iff, ne_eq, hadmits]
  decide +kernel

/-! ## A single clause -/

/-- A clause with a quoted text, written with single blanks between its tokens. -/
theorem parse_clause {path op text expr : String} {written : Clause}
    (h : Spelled [.word path, .word op, .quoted text] written) (hpath : IsPath path)
    (hexpr : expr.toList = path.toList ++ ' ' :: (op.toList ++ ' ' :: lexeme (.quoted text))) :
    parse expr = .ok ⟨[written.lowered]⟩ := by
  have hspaced : Spaced [.word path, .word op, .quoted text] expr.toList := by
    rw [hexpr]
    exact Spaced.last.blank.blank
  have hown : IsPath written.path := by cases h <;> exact hpath
  refine parse_eq_ok.2 ⟨_, tokens_eq_ok.2 (lexes_of_spaced hspaced (h.writable hown)), ?_⟩
  exact parseClauses_eq_ok.2 ⟨_, .last h, rfl⟩

/-- The expression that asks for a value at a path. -/
def equation (path value : String) : String :=
  path ++ " == \"" ++ String.ofList (escape value.toList) ++ "\""

theorem parse_equation {path : String} (h : IsPath path) (value : String) :
    parse (equation path value) = .ok ⟨[.equals path value]⟩ :=
  parse_clause .equals h (by simp [equation, lexeme])

end Filter
end Inquiry
