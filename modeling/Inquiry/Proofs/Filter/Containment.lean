import Inquiry.Proofs.Filter.Conjunction
import Inquiry.Proofs.Text.LowerCase

/-!
# Proofs.Filter.Containment — texts that contain others

A value contains a text if the text occurs in its own, or in that of a value inside it, with both in lower case.
As lower-casing goes by what stands around a letter, a text that occurs as it is may not occur in lower case: of
the texts that can be asked for, those are found wherever they occur that are settled, and no others.

* `Value.HoldsText`: the texts of a value; `valueContains_iff`: what the search finds among them.
* `containment`: the expression that asks for a text at a path.
* `containment_finds_iff`: which texts are found in every document in which they occur.
* `containment_misses_sigma`: a text that is not found where it occurs.
-/

namespace Inquiry

open Json (Value)

/-! ## The texts of a value -/

/-- A text is that of a scalar, or of a value inside an array. -/
inductive Json.Value.HoldsText (text : String) : Value → Prop where
  | scalar {v : Value} (own : v.scalarText? = some text) : HoldsText text v
  | item {items : List Value} {v : Value} (mem : v ∈ items) (inside : HoldsText text v) :
      HoldsText text (.array items)

namespace Text

theorem occursIn_iff {needle cs : List Char} : occursIn needle cs = true ↔ needle <:+: cs := by
  induction cs with
  | nil => rw [occursIn, List.isEmpty_iff, List.infix_nil]
  | cons c cs ih => rw [occursIn, Bool.or_eq_true, ih, List.isPrefixOf_iff_prefix, List.infix_cons_iff]

theorem toList_lower (text : String) : (lower text).toList = lowerFrom [] text.toList := String.toList_ofList

end Text

namespace Filter

variable {needle path : String}

/-! ## What the search finds -/

theorem valueContains_of_scalar {v : Value} (h : ∀ items, v ≠ .array items) : valueContains needle v = true ↔
    ∃ text, v.HoldsText text ∧ needle.toList <:+: (Text.lower text).toList := by
  have hholds : ∀ text, v.HoldsText text ↔ v.scalarText? = some text := by
    refine fun text => ⟨fun hholds => ?_, .scalar⟩
    cases hholds with
    | scalar hown => exact hown
    | item => exact absurd rfl (h _)
  rw [valueContains]
  · cases htext : v.scalarText? <;> simp [hholds, htext, Text.occursIn_iff]
  · exact h

mutual

/-- A text is found if it occurs in a text of the value, in lower case. -/
theorem valueContains_iff : ∀ v : Value, valueContains needle v = true ↔
    ∃ text, v.HoldsText text ∧ needle.toList <:+: (Text.lower text).toList
  | .array items => by
    rw [valueContains, anyContains_iff items]
    constructor
    · rintro ⟨v, hmem, text, hholds, hinfix⟩
      exact ⟨text, .item hmem hholds, hinfix⟩
    · rintro ⟨text, hholds, hinfix⟩
      cases hholds with
      | scalar hown => cases hown
      | item hmem hinside => exact ⟨_, hmem, text, hinside, hinfix⟩
  | .null => valueContains_of_scalar nofun
  | .bool _ => valueContains_of_scalar nofun
  | .number _ => valueContains_of_scalar nofun
  | .string _ => valueContains_of_scalar nofun
  | .object _ => valueContains_of_scalar nofun

theorem anyContains_iff : ∀ items : List Value, anyContains needle items = true ↔
    ∃ v ∈ items, ∃ text, v.HoldsText text ∧ needle.toList <:+: (Text.lower text).toList
  | [] => by simp [anyContains]
  | v :: rest => by
    rw [anyContains, Bool.or_eq_true, valueContains_iff v, anyContains_iff rest]
    simp only [List.mem_cons, exists_eq_or_imp]

end

/-! ## Asking for a text -/

/-- The expression that asks for a text at a path. -/
def containment (path needle : String) : String :=
  path ++ " contains \"" ++ String.ofList (escape needle.toList) ++ "\""

theorem parse_containment (h : IsPath path) (needle : String) :
    parse (containment path needle) = .ok ⟨[.contains path (Text.lower needle)]⟩ := by
  have hspelled : Spelled [.word path, .word "contains", .quoted needle] (.contains path needle) :=
    .contains (by decide)
  exact parse_clause hspelled h (by simp [containment, lexeme])

/-- The value at a path of a document has a text in which another occurs, with the same characters. -/
def Occurs (needle path : String) (doc : Value) : Prop :=
  ∃ v text, doc.lookup? path = some v ∧ v.HoldsText text ∧ needle.toList <:+: text.toList

theorem admits_containment {doc : Value} : Filter.admits ⟨[.contains path (Text.lower needle)]⟩ doc = true ↔
    ∃ v text, doc.lookup? path = some v ∧ v.HoldsText text ∧
      (Text.lower needle).toList <:+: (Text.lower text).toList := by
  rw [admits, List.all_cons, List.all_nil, Bool.and_true, Clause.holds]
  cases doc.lookup? path with
  | none => simp
  | some v => simp [valueContains_iff]

/-! ## Documents with one value -/

/-- A document in which a list of names leads to a value. -/
def nested (v : Value) : List String → Value
  | [] => v
  | name :: rest => .object [(name, nested v rest)]

theorem follow?_nested (v : Value) (names : List String) : (nested v names).follow? names = some v := by
  induction names with
  | nil => rfl
  | cons name rest ih => simp [nested, Value.follow?, Value.member?, Keyed.find?, ih]

/-- A document with a text at a path, and nothing else. -/
def documentOf (path text : String) : Value :=
  nested (.string text) ((Json.pathSegments path.toList).map String.ofList)

theorem lookup?_documentOf (path text : String) : (documentOf path text).lookup? path = some (.string text) :=
  follow?_nested _ _

theorem holdsText_string {text text' : String} : (Value.string text').HoldsText text ↔ text' = text := by
  constructor
  · intro h
    cases h with
    | scalar own => exact Option.some.inj own
  · rintro rfl
    exact .scalar rfl

/-- An expression that asks for a text at a path can be read, and admits every document in which the text occurs
there exactly if no capital sigma in the text owes its lower-case form to what stands around the text. -/
theorem containment_finds_iff (hpath : path ≠ "" ∧ ∀ char ∈ path.toList, Text.isBlank char = false ∧ char ≠ '"')
    (needle : String) :
    ∃ f, parse (containment path needle) = .ok f ∧
      ((∀ doc, Occurs needle path doc → f.admits doc = true) ↔ Text.isSettled needle = true) := by
  refine ⟨_, parse_containment hpath needle, fun hfinds => ?_, fun hsettled doc hoccurs => ?_⟩
  · by_contra hopen
    obtain ⟨text, hinfix, hmissed⟩ := Text.exists_not_infix (Bool.eq_false_iff.2 hopen)
    let doc := documentOf path (String.ofList text)
    have hvalue : doc.lookup? path = some (.string (String.ofList text)) := lookup?_documentOf path _
    have hoccurs : Occurs needle path doc :=
      ⟨_, _, hvalue, .scalar rfl, by rwa [String.toList_ofList]⟩
    obtain ⟨v, text', hv, hholds, hlower⟩ := admits_containment.1 (hfinds doc hoccurs)
    obtain rfl := Option.some.inj (hvalue.symm.trans hv)
    obtain rfl := holdsText_string.1 hholds
    rw [Text.toList_lower, Text.toList_lower, String.toList_ofList] at hlower
    exact hmissed hlower
  · obtain ⟨v, text, hv, hholds, hinfix⟩ := hoccurs
    refine admits_containment.2 ⟨v, text, hv, hholds, ?_⟩
    rw [Text.toList_lower, Text.toList_lower]
    exact Text.lowerFrom_infix hsettled hinfix

/-- A sigma between two letters is settled, and the text is found in arrays as well. -/
theorem containment_finds_middle :
    ∃ f, parse (containment "t" "ΑΣ.Α") = .ok f ∧
      f.admits (.object [("t", .array [.null, .string "ΜΑΣ.ΑΣ"])]) = true := by
  have hpath : IsPath "t" := by decide
  obtain ⟨f, hparse, hfinds⟩ := containment_finds_iff hpath "ΑΣ.Α"
  refine ⟨f, hparse, hfinds.2 (by decide +kernel) _ ⟨_, "ΜΑΣ.ΑΣ", rfl, ?_, ?_⟩⟩
  · exact .item (List.mem_cons_of_mem _ List.mem_cons_self) (.scalar rfl)
  · exact ⟨"Μ".toList, "Σ".toList, by decide⟩

/-- A text that ends with a capital sigma is not found where a letter follows. -/
theorem containment_misses_sigma :
    Occurs "ΑΣ" "t" (.object [("t", .string "ΑΣΑ")]) ∧
      ∃ f, parse "t contains \"ΑΣ\"" = .ok f ∧ f.admits (.object [("t", .string "ΑΣΑ")]) = false := by
  refine ⟨⟨_, "ΑΣΑ", rfl, .scalar rfl, ⟨[], "Α".toList, by decide⟩⟩, ⟨[.contains "t" "ας"]⟩, ?_, ?_⟩
  · decide +kernel
  · decide +kernel

end Filter
end Inquiry
