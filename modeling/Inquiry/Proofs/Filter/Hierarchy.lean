import Inquiry.Proofs.Filter.Containment

/-!
# Proofs.Filter.Hierarchy — clauses of which one entails the other

The three forms of clauses look at the value at a path in different ways: whether it has exactly a text, whether a
text occurs in lower case in its own or in one inside it, and whether it is there and not null. Each of them asks for
no less than the next one.

* `Clause.holds_equals`, `Clause.holds_contains`, `Clause.holds_present`: what the forms state of the value.
* `Clause.Entails`: the documents that satisfy one clause satisfy another; `Filter.admits_of_entails`.
* `Filter.clause_hierarchy`: equality entails containment, and containment entails presence.
-/

namespace Inquiry

open Json (Value)

variable {doc : Value} {path text needle : String}

/-- Null has no text, in whatever way its texts are sought. -/
theorem Json.Value.HoldsText.isNull_eq_false {v : Value} (h : v.HoldsText text) : v.isNull = false := by
  cases h with
  | item => rfl
  | scalar own =>
    cases v with
    | null => cases own
    | _ => rfl

namespace Clause

/-! ## What clauses state of a value -/

theorem holds_equals : (Clause.equals path text).holds doc = true ↔
    ∃ v, doc.lookup? path = some v ∧ v.scalarText? = some text := by
  rw [holds, beq_iff_eq, Option.bind_eq_some_iff]

theorem holds_contains : (Clause.contains path needle).holds doc = true ↔
    ∃ v, doc.lookup? path = some v ∧ ∃ text, v.HoldsText text ∧ needle.toList <:+: (Text.lower text).toList := by
  rw [holds]
  cases doc.lookup? path with
  | none => simp
  | some v => simp [Filter.valueContains_iff]

theorem holds_present : (Clause.present path).holds doc = true ↔
    ∃ v, doc.lookup? path = some v ∧ v.isNull = false := by
  rw [holds]
  cases doc.lookup? path with
  | none => simp
  | some v => simp

/-! ## Entailment -/

/-- The documents that satisfy one clause satisfy another. -/
def Entails (c d : Clause) : Prop := ∀ doc, c.holds doc = true → d.holds doc = true

/-- A text that is the whole of another occurs in it, in lower case as well. -/
theorem equals_entails_contains (path text : String) :
    (Clause.equals path text).Entails (.contains path (Text.lower text)) := by
  intro doc h
  obtain ⟨v, hv, htext⟩ := holds_equals.1 h
  exact holds_contains.2 ⟨v, hv, text, .scalar htext, List.infix_rfl⟩

/-- A value that contains a text, be it the empty one, is not null. -/
theorem contains_entails_present (path needle : String) :
    (Clause.contains path needle).Entails (.present path) := by
  intro doc h
  obtain ⟨v, hv, text, hholds, -⟩ := holds_contains.1 h
  exact holds_present.2 ⟨v, hv, hholds.isNull_eq_false⟩

end Clause

namespace Filter

/-- A filter admits no less if clauses are replaced by clauses that they entail. -/
theorem admits_of_entails {cs ds : List Clause} (h : List.Forall₂ Clause.Entails cs ds)
    (hadmits : admits ⟨cs⟩ doc = true) : admits ⟨ds⟩ doc = true := by
  induction h with
  | nil => rfl
  | cons hentails _ ih =>
    simp only [admits, List.all_cons, Bool.and_eq_true] at hadmits ih ⊢
    exact ⟨hentails doc hadmits.1, ih hadmits.2⟩

/-- Of the clauses for one path and one text, equality entails containment, and containment entails presence: so say
the clauses, for every document, and so do the expressions that have been written for them, for every path that can
stand in an expression. -/
theorem clause_hierarchy (path text : String) :
    ((Clause.equals path text).Entails (Clause.contains path text).lowered ∧
      (Clause.contains path text).lowered.Entails (.present path)) ∧
    ∀ exact part whatever : String, IsPath path → Rendered [.equals path text] exact →
      Rendered [.contains path text] part → Rendered [.present path] whatever →
      ∃ f g h, parse exact = .ok f ∧ parse part = .ok g ∧ parse whatever = .ok h ∧
        ∀ doc, (f.admits doc = true → g.admits doc = true) ∧ (g.admits doc = true → h.admits doc = true) := by
  have hequals := Clause.equals_entails_contains path text
  have hcontains := Clause.contains_entails_present path (Text.lower text)
  refine ⟨⟨hequals, hcontains⟩, fun exact part whatever hpath hexact hpart hwhatever => ?_⟩
  refine ⟨_, _, _, parse_rendered hexact (List.forall_mem_singleton.2 hpath),
    parse_rendered hpart (List.forall_mem_singleton.2 hpath),
    parse_rendered hwhatever (List.forall_mem_singleton.2 hpath), fun doc => ⟨fun h => ?_, fun h => ?_⟩⟩
  · exact admits_of_entails (.cons hequals .nil) h
  · exact admits_of_entails (.cons hcontains .nil) h

/-- The clauses with keywords in capital letters, for a path inside an object: what has the text alone has it as a
part, and what has it inside an array is not null. -/
theorem clause_hierarchy_nested :
    ∃ f g h, parse "a.b == \"Σ\"" = .ok f ∧ parse "a.b CONTAINS \"Σ\"" = .ok g ∧ parse "a.b EXISTS" = .ok h ∧
      (f.admits (nested (.string "Σ") ["a", "b"]) = true ∧ g.admits (nested (.string "Σ") ["a", "b"]) = true) ∧
      g.admits (nested (.array [.null, .array [.string "σΣ."]]) ["a", "b"]) = true ∧
      h.admits (nested (.array [.null, .array [.string "σΣ."]]) ["a", "b"]) = true := by
  have hexact : Rendered [.equals "a.b" "Σ"] "a.b == \"Σ\"" := ⟨_, .last .equals, Spaced.last.blank.blank⟩
  have hcontains : Spells "CONTAINS" "contains" := by decide
  have hexists : Spells "EXISTS" "exists" := by decide
  have hpart : Rendered [.contains "a.b" "Σ"] "a.b CONTAINS \"Σ\"" :=
    ⟨_, .last (.contains hcontains), Spaced.last.blank.blank⟩
  have hwhatever : Rendered [.present "a.b"] "a.b EXISTS" := ⟨_, .last (.present hexists), Spaced.last.blank⟩
  obtain ⟨f, g, h, hf, hg, hh, hadmits⟩ :=
    (clause_hierarchy "a.b" "Σ").2 _ _ _ (by decide) hexact hpart hwhatever
  have hwhole : f.admits (nested (.string "Σ") ["a", "b"]) = true := by
    obtain rfl : f = ⟨[.equals "a.b" "Σ"]⟩ := by
      have hparse : parse "a.b == \"Σ\"" = .ok ⟨[.equals "a.b" "Σ"]⟩ := by decide +kernel
      exact Except.ok.inj (hf.symm.trans hparse)
    decide +kernel
  have hinside : g.admits (nested (.array [.null, .array [.string "σΣ."]]) ["a", "b"]) = true := by
    obtain rfl : g = ⟨[.contains "a.b" "σ"]⟩ := by
      have hparse : parse "a.b CONTAINS \"Σ\"" = .ok ⟨[.contains "a.b" "σ"]⟩ := by decide +kernel
      exact Except.ok.inj (hg.symm.trans hparse)
    decide +kernel
  exact ⟨f, g, h, hf, hg, hh, ⟨hwhole, (hadmits _).1 hwhole⟩, hinside, (hadmits _).2 hinside⟩

end Filter
end Inquiry
