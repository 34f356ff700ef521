import Inquiry.Corpus.Analyze

/-!
# Corpus.Sample — a corpus for demonstrations

A hundred and twenty interactions, one every five hours from 2024-01-01 on, by forty authors, about
three brands. Three of five authors are male, and there are four age groups.
-/

namespace Inquiry
namespace Corpus

/-- The brands that the sample mentions in turn. -/
def sampleBrand (n : Nat) : String :=
  match n % 3 with
  | 0 => "ford"
  | 1 => "honda"
  | _ => "toyota"

/-- The age groups of the sample. -/
def sampleAge (n : Nat) : String :=
  match n / 5 % 4 with
  | 0 => "18-24"
  | 1 => "25-34"
  | 2 => "35-44"
  | _ => "45-54"

/-- The gender of the author of an interaction of the sample. -/
def sampleGender (n : Nat) : String := if n % 5 < 3 then "male" else "female"

/-- An interaction of the sample. -/
def sampleInteraction (n : Nat) : Interaction where
  createdAt := .ofSecond (1704067200 + 5 * 3600 * n)
  author := "author-" ++ toString (n % 40)
  fields := .object [("fb", .object
    [("content", .string ("Thinking about a new " ++ sampleBrand n ++ " this year")),
      ("parent", .object [("author", .object
        [("age", .string (sampleAge n)), ("gender", .string (sampleGender n))])])])]

/-- The interactions of the sample. -/
def sampleInteractions : List Interaction := (List.range 120).map sampleInteraction

/-- The sample, in which nothing is withheld. -/
def sample : Corpus := ⟨sampleInteractions, 0⟩

end Corpus
end Inquiry
