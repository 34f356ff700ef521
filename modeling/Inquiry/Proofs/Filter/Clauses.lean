import Inquiry.Filter.Parse
import Inquiry.Proofs.Filter.Tokens
import Mathlib.Data.Char

/-!
# Proofs.Filter.Clauses — expressions and the filters that they spell

* `Spells`: a word is a keyword, each of its letters in either case.
* `Spelled`, `Joined`: the tokens of a clause, and of clauses with `and` between them.
* `parseClauses_eq_ok`: the parser accepts these tokens and no others, and answers with the clauses.
* `Spaced`, `Rendered`: an expression that has been written for clauses.
* `parse_spelled`: an expression is accepted exactly if its tokens are those of clauses, and an expression that
  has been written for clauses gives them back.
-/

namespace Inquiry

/-- A clause with the text that a value has to contain in lower case. -/
def Clause.lowered : Clause → Clause
  | .contains path text => .contains path (Text.lower text)
  | c => c

/-- The path of a clause. -/
def Clause.path : Clause → String
  | .present path => path
  | .contains path _ => path
  | .equals path _ => path

namespace Filter

/-! ## Keywords -/

/-- A word is a keyword, which has small letters, with each letter small or capital. -/
def Spells (word keyword : String) : Prop := word.toList.map Char.toLower = keyword.toList

instance (word keyword : String) : Decidable (Spells word keyword) := inferInstanceAs (Decidable (_ = _))

theorem foldAscii_eq_toLower (c : Char) : Text.foldAscii c = c.toLower := by
  by_cases h : 'A' ≤ c ∧ c ≤ 'Z'
  · have hle : c.val.toNat ≤ 90 := h.2
    have hval : c.toLower.val = c.val + 32 := congrArg Char.val (dif_pos h)
    have hlower : c.toLower.toNat = c.toNat + 32 := by
      refine (congrArg UInt32.toNat hval).trans ((UInt32.toNat_add c.val 32).trans (Nat.mod_eq_of_lt ?_))
      change c.val.toNat + 32 < 2 ^ 32
      omega
    rw [Text.foldAscii, if_pos h, ← hlower, Char.ofNat_toNat]
  · have hlower : c.toLower = c := dif_neg h
    rw [Text.foldAscii, if_neg h, hlower]

theorem equalsIgnoringCase_iff {word keyword : String} (h : keyword.toList.map Char.toLower = keyword.toList) :
    Text.equalsIgnoringCase word keyword = true ↔ Spells word keyword := by
  have hfold : Text.foldAscii = Char.toLower := funext foldAscii_eq_toLower
  rw [Text.equalsIgnoringCase, hfold, h, beq_iff_eq, Spells]

variable {ts rest : List Token} {path op word text : String} {c : Clause} {cs : List Clause}

theorem equalsIgnoringCase_exists : Text.equalsIgnoringCase op "exists" = true ↔ Spells op "exists" :=
  equalsIgnoringCase_iff (by decide)

theorem equalsIgnoringCase_contains : Text.equalsIgnoringCase op "contains" = true ↔ Spells op "contains" :=
  equalsIgnoringCase_iff (by decide)

theorem equalsIgnoringCase_and : Text.equalsIgnoringCase word "and" = true ↔ Spells word "and" :=
  equalsIgnoringCase_iff (by decide)

/-! ## Clauses and their tokens -/

/-- The tokens of a clause: its path, a word for what it states, and a quoted text. -/
inductive Spelled : List Token → Clause → Prop where
  | present {path op : String} (keyword : Spells op "exists") : Spelled [.word path, .word op] (.present path)
  | contains {path op text : String} (keyword : Spells op "contains") :
      Spelled [.word path, .word op, .quoted text] (.contains path text)
  | equals {path text : String} : Spelled [.word path, .word "==", .quoted text] (.equals path text)

/-- The tokens of one or more clauses with `and` between them. -/
inductive Joined : List Token → List Clause → Prop where
  | last {ts : List Token} {c : Clause} (clause : Spelled ts c) : Joined ts [c]
  | next {ts rest : List Token} {c : Clause} {cs : List Clause} {word : String} (clause : Spelled ts c)
      (keyword : Spells word "and") (behind : Joined rest cs) : Joined (ts ++ .word word :: rest) (c :: cs)

theorem operand_map_eq_ok {f : String → Clause} :
    ((operand ts).map fun p => (f p.1, p.2)) = .ok (c, rest) ↔
      ∃ text, ts = .quoted text :: rest ∧ f text = c := by
  match ts with
  | [] => simp [operand, Except.map]
  | .word _ :: _ => simp [operand, Except.map]
  | .quoted _ :: _ => simp [operand, Except.map, and_comm]

/-- Behind its path, a clause is read as it is spelled. -/
theorem afterPath_eq_ok : afterPath path ts = .ok (c, rest) ↔
    ∃ front written, ts = front ++ rest ∧ Spelled (.word path :: front) written ∧ written.lowered = c := by
  constructor
  · intro h
    match ts with
    | [] => cases h
    | .quoted _ :: _ => cases h
    | .word op :: ts =>
      simp only [afterPath] at h
      split_ifs at h with hexists hcontains hequals
      · cases h
        exact ⟨[.word op], .present path, rfl, .present (equalsIgnoringCase_exists.1 hexists), rfl⟩
      · obtain ⟨text, rfl, rfl⟩ := (operand_map_eq_ok (f := fun text => .contains path (Text.lower text))).1 h
        exact ⟨[.word op, .quoted text], .contains path text, rfl,
          .contains (equalsIgnoringCase_contains.1 hcontains), rfl⟩
      · obtain ⟨text, rfl, rfl⟩ := (operand_map_eq_ok (f := .equals path)).1 h
        subst hequals
        exact ⟨[.word "==", .quoted text], .equals path text, rfl, .equals, rfl⟩
  · rintro ⟨front, written, rfl, hspelled, rfl⟩
    cases hspelled with
    | present hop => simp [afterPath, equalsIgnoringCase_exists.2 hop, Clause.lowered]
    | @contains _ op _ hop =>
      have hexists : ¬ Text.equalsIgnoringCase op "exists" = true := by
        rw [equalsIgnoringCase_exists]
        exact fun h => absurd (h.symm.trans hop) (by decide)
      simp [afterPath, hexists, equalsIgnoringCase_contains.2 hop, operand, Except.map, Clause.lowered]
    | equals =>
      have hexists : Text.equalsIgnoringCase "==" "exists" = false := by decide
      have hcontains : Text.equalsIgnoringCase "==" "contains" = false := by decide
      simp [afterPath, hexists, hcontains, operand, Except.map, Clause.lowered]

theorem Spelled.starts_with_path (h : Spelled ts c) : ∃ front, ts = .word c.path :: front := by
  cases h <;> exact ⟨_, rfl⟩

theorem parseClauses_last {first : Bool} (h : afterPath path ts = .ok (c, [])) :
    parseClauses first (.word path :: ts) = .ok [c] := by
  rw [parseClauses]
  split <;> simp_all

theorem parseClauses_next {first : Bool} (h : afterPath path ts = .ok (c, .word word :: rest))
    (hword : Spells word "and") :
    parseClauses first (.word path :: ts) = (parseClauses false rest).map (c :: ·) := by
  have hand := equalsIgnoringCase_and.2 hword
  rw [parseClauses]
  split <;> simp_all

/-- Clauses are read as they are spelled. -/
theorem parseClauses_eq_ok {first : Bool} {clauses : List Clause} : parseClauses first ts = .ok clauses ↔
    ∃ written, Joined ts written ∧ written.map Clause.lowered = clauses := by
  constructor
  · intro h
    fun_induction parseClauses first ts generalizing clauses with
    | case1 => cases h
    | case2 => cases h
    | case3 => cases h
    | case4 first path ts c hclause =>
      cases h
      obtain ⟨front, written, rfl, hspelled, rfl⟩ := afterPath_eq_ok.1 hclause
      rw [List.append_nil]
      exact ⟨[written], .last hspelled, rfl⟩
    | case5 => cases h
    | case6 first path ts c word rest hclause hword ih =>
      obtain ⟨front, written, rfl, hspelled, rfl⟩ := afterPath_eq_ok.1 hclause
      cases hrest : parseClauses false rest with
      | error e =>
        rw [hrest] at h
        cases h
      | ok behind =>
        rw [hrest] at h
        cases h
        obtain ⟨others, hjoined, rfl⟩ := ih hrest
        exact ⟨written :: others, .next hspelled (equalsIgnoringCase_and.1 hword) hjoined, rfl⟩
    | case7 => cases h
  · rintro ⟨written, hjoined, rfl⟩
    induction hjoined generalizing first with
    | @last ts c hspelled =>
      obtain ⟨front, rfl⟩ := hspelled.starts_with_path
      exact parseClauses_last (afterPath_eq_ok.2 ⟨front, c, (List.append_nil front).symm, hspelled, rfl⟩)
    | @next ts rest c cs word hspelled hword hbehind ih =>
      obtain ⟨front, rfl⟩ := hspelled.starts_with_path
      have hclause : afterPath c.path (front ++ .word word :: rest) = .ok (c.lowered, .word word :: rest) :=
        afterPath_eq_ok.2 ⟨front, c, rfl, hspelled, rfl⟩
      rw [List.cons_append, parseClauses_next hclause hword, ih]
      rfl

/-! ## Rendering clauses -/

/-- The characters of a text between its quotes: a backslash stands in front of quotes and backslashes. -/
def escape (text : List Char) : List Char :=
  text.flatMap fun c => if c = '"' ∨ c = '\\' then ['\\', c] else [c]

/-- The characters of a token. -/
def lexeme : Token → List Char
  | .word text => text.toList
  | .quoted text => '"' :: (escape text.toList ++ ['"'])

/-- Tokens written one after the other, with one or more blank characters between them. -/
inductive Spaced : List Token → List Char → Prop where
  | last {t : Token} : Spaced [t] (lexeme t)
  | next {t : Token} {ts : List Token} {gap chars : List Char} (nonempty : gap ≠ [])
      (blank : ∀ c ∈ gap, Text.isBlank c = true) (behind : Spaced ts chars) :
      Spaced (t :: ts) (lexeme t ++ (gap ++ chars))

/-- An expression that has been written for clauses, with blank characters between the tokens. -/
def Rendered (clauses : List Clause) (expr : String) : Prop :=
  ∃ ts, Joined ts clauses ∧ Spaced ts expr.toList

/-- Whether a path can stand in an expression. -/
def IsPath (path : String) : Prop := path ≠ "" ∧ ∀ c ∈ path.toList, InWord c

instance (path : String) : Decidable (IsPath path) :=
  decidable_of_iff (path ≠ "" ∧ path.toList.all (fun c => !Text.isBlank c && c != '"') = true)
    (by simp [IsPath, InWord])

/-- Whether a token can be written: a quoted text always, and a word if it can be a path. -/
def Writable : Token → Prop
  | .word text => IsPath text
  | .quoted _ => True

theorem escapes_escape (text : List Char) : Escapes (escape text) text := by
  induction text with
  | nil => exact .nil
  | cons c text ih =>
    by_cases h : c = '"' ∨ c = '\\'
    · simpa [escape, h] using Escapes.escaped (c := c) ih
    · obtain ⟨hquote, hbackslash⟩ := not_or.1 h
      simpa [escape, h] using Escapes.plain hquote hbackslash ih

/-- A letter is part of a word in both cases. -/
theorem inWord_of_toLower {c : Char} (h : InWord c.toLower) : InWord c := by
  by_cases hcapital : 'A' ≤ c ∧ c ≤ 'Z'
  · have hbounds : 65 ≤ c.toNat ∧ c.toNat ≤ 90 := hcapital
    refine ⟨?_, ?_⟩
    · simp only [Text.isBlank, Bool.or_eq_false_iff, Bool.and_eq_false_iff, decide_eq_false_iff_not,
        beq_eq_false_iff_ne]
      omega
    · rintro rfl
      exact absurd hbounds (by decide)
  · rwa [← foldAscii_eq_toLower, Text.foldAscii, if_neg hcapital] at h

/-- A word that spells a keyword can be written if the keyword can. -/
theorem isPath_of_spells {keyword : String} (h : Spells word keyword) (hkeyword : IsPath keyword) :
    IsPath word := by
  refine ⟨?_, fun c hc => inWord_of_toLower (hkeyword.2 _ ?_)⟩
  · rintro rfl
    exact hkeyword.1 (String.toList_eq_nil_iff.1 h.symm)
  · rw [← h]
    exact List.mem_map_of_mem hc

theorem Spelled.writable (h : Spelled ts c) (hpath : IsPath c.path) : ∀ t ∈ ts, Writable t := by
  cases h with
  | present hop =>
    simpa [Writable] using ⟨hpath, isPath_of_spells hop (by decide)⟩
  | contains hop =>
    simpa [Writable] using ⟨hpath, isPath_of_spells hop (by decide)⟩
  | equals =>
    simpa [Writable] using ⟨hpath, (by decide : IsPath "==")⟩

theorem Joined.writable (h : Joined ts cs) (hpaths : ∀ c ∈ cs, IsPath c.path) : ∀ t ∈ ts, Writable t := by
  induction h with
  | last hspelled => exact hspelled.writable (hpaths _ List.mem_cons_self)
  | next hspelled hword _ ih =>
    obtain ⟨hpath, hpaths⟩ := List.forall_mem_cons.1 hpaths
    have hand : Writable (.word _) := isPath_of_spells hword (by decide)
    rw [List.forall_mem_append, List.forall_mem_cons]
    exact ⟨hspelled.writable hpath, hand, ih hpaths⟩

/-- A token that is followed by something that is no part of a word is read as it is written. -/
theorem lexes_lexeme {t : Token} {rest : List Char} (ht : Writable t) (hrest : ∀ c ∈ rest.head?, ¬ InWord c)
    (hbehind : Lexes rest ts) : Lexes (lexeme t ++ rest) (t :: ts) := by
  cases t with
  | word text =>
    have hne : text.toList ≠ [] := mt String.toList_eq_nil_iff.1 ht.1
    simpa [lexeme] using Lexes.word hne ht.2 hrest hbehind
  | quoted text => simpa [lexeme] using Lexes.quoted (escapes_escape text.toList) hbehind

theorem lexes_gap {gap chars : List Char} (hgap : ∀ c ∈ gap, Text.isBlank c = true) (h : Lexes chars ts) :
    Lexes (gap ++ chars) ts := by
  induction gap with
  | nil => exact h
  | cons c gap ih =>
    obtain ⟨hc, hgap⟩ := List.forall_mem_cons.1 hgap
    exact .blank hc (ih hgap)

/-- Tokens with blank characters between them are read as they are written. -/
theorem lexes_of_spaced {chars : List Char} (h : Spaced ts chars) (hts : ∀ t ∈ ts, Writable t) :
    Lexes chars ts := by
  induction h with
  | @last t =>
    rw [← (lexeme t).append_nil]
    exact lexes_lexeme (hts t List.mem_cons_self) (by simp) .nil
  | @next t ts gap chars hne hgap hbehind ih =>
    obtain ⟨ht, hts⟩ := List.forall_mem_cons.1 hts
    refine lexes_lexeme ht ?_ (lexes_gap hgap (ih hts))
    cases gap with
    | nil => exact absurd rfl hne
    | cons c gap =>
      -- The gap starts with a blank character, which is no part of a word.
      have hc : Text.isBlank c = true := hgap c List.mem_cons_self
      simp [InWord, hc]

theorem Joined.ne_nil (h : Joined ts cs) : ts ≠ [] := by
  cases h with
  | last hspelled =>
    obtain ⟨front, rfl⟩ := hspelled.starts_with_path
    exact List.cons_ne_nil _ front
  | next => simp

theorem exists_joined (h : cs ≠ []) : ∃ ts, Joined ts cs := by
  have hkeyword : Spells "exists" "exists" ∧ Spells "contains" "contains" ∧ Spells "and" "and" := by decide
  have hspelled : ∀ c : Clause, ∃ ts, Spelled ts c := by
    rintro (path | ⟨path, text⟩ | ⟨path, text⟩)
    · exact ⟨_, .present hkeyword.1⟩
    · exact ⟨_, .contains hkeyword.2.1⟩
    · exact ⟨_, .equals⟩
  induction cs with
  | nil => exact absurd rfl h
  | cons c cs ih =>
    obtain ⟨ts, hts⟩ := hspelled c
    cases cs with
    | nil => exact ⟨ts, .last hts⟩
    | cons d cs =>
      obtain ⟨rest, hrest⟩ := ih (List.cons_ne_nil d cs)
      exact ⟨_, .next hts hkeyword.2.2 hrest⟩

theorem Spaced.blank {t : Token} {chars : List Char} (h : Spaced ts chars) :
    Spaced (t :: ts) (lexeme t ++ ([' '] ++ chars)) :=
  .next (List.cons_ne_nil _ _) (List.forall_mem_singleton.2 rfl) h

theorem exists_spaced (h : ts ≠ []) : ∃ chars, Spaced ts chars := by
  induction ts with
  | nil => exact absurd rfl h
  | cons t ts ih =>
    cases ts with
    | nil => exact ⟨_, .last⟩
    | cons u ts =>
      obtain ⟨chars, hchars⟩ := ih (List.cons_ne_nil u ts)
      exact ⟨_, hchars.blank⟩

/-- Clauses can be written. -/
theorem exists_rendered (h : cs ≠ []) : ∃ expr, Rendered cs expr := by
  obtain ⟨ts, hts⟩ := exists_joined h
  obtain ⟨chars, hchars⟩ := exists_spaced hts.ne_nil
  exact ⟨String.ofList chars, ts, hts, String.toList_ofList ▸ hchars⟩

theorem parse_eq_ok {expr : String} {f : Filter} : parse expr = .ok f ↔
    ∃ ts, tokens expr = .ok ts ∧ parseClauses true ts = .ok f.clauses := by
  obtain ⟨clauses⟩ := f
  rw [parse]
  cases tokens expr with
  | error e => simp
  | ok ts => cases hclauses : parseClauses true ts <;> simp [hclauses, Except.map]

/-- An expression that has been written for clauses is read as these. -/
theorem parse_rendered {expr : String} (h : Rendered cs expr) (hpaths : ∀ c ∈ cs, IsPath c.path) :
    parse expr = .ok ⟨cs.map Clause.lowered⟩ := by
  obtain ⟨ts, hjoined, hspaced⟩ := h
  have hlexes : Lexes expr.toList ts := lexes_of_spaced hspaced (hjoined.writable hpaths)
  exact parse_eq_ok.2 ⟨ts, tokens_eq_ok.2 hlexes, parseClauses_eq_ok.2 ⟨cs, hjoined, rfl⟩⟩

/-- An expression is accepted exactly if its tokens are those of one or more clauses, which are then the
clauses of the filter with the texts that have to be contained in lower case; and every list of clauses whose
paths are words can be written, and is what any expression that has been written for it is read as. -/
theorem parse_spelled :
    (∀ (expr : String) (f : Filter), parse expr = .ok f ↔
      ∃ ts clauses, Lexes expr.toList ts ∧ Joined ts clauses ∧ f = ⟨clauses.map Clause.lowered⟩) ∧
    ∀ clauses : List Clause, clauses ≠ [] →
      (∀ c ∈ clauses, c.path ≠ "" ∧ ∀ char ∈ c.path.toList, Text.isBlank char = false ∧ char ≠ '"') →
      (∃ expr, Rendered clauses expr) ∧
        ∀ expr, Rendered clauses expr → parse expr = .ok ⟨clauses.map Clause.lowered⟩ := by
  have hparse : ∀ (expr : String) (f : Filter), parse expr = .ok f ↔
      ∃ ts clauses, Lexes expr.toList ts ∧ Joined ts clauses ∧ f = ⟨clauses.map Clause.lowered⟩ := by
    intro expr f
    simp only [parse_eq_ok, tokens_eq_ok, parseClauses_eq_ok]
    constructor
    · rintro ⟨ts, hlexes, clauses, hjoined, hread⟩
      exact ⟨ts, clauses, hlexes, hjoined, by rw [hread]⟩
    · rintro ⟨ts, clauses, hlexes, hjoined, rfl⟩
      exact ⟨ts, hlexes, clauses, hjoined, rfl⟩
  refine ⟨hparse, fun clauses hne hpaths => ⟨exists_rendered hne, ?_⟩⟩
  rintro expr ⟨ts, hjoined, hspaced⟩
  exact (hparse expr _).2 ⟨ts, clauses, lexes_of_spaced hspaced (hjoined.writable hpaths), hjoined, rfl⟩

/-- Clauses with keywords for paths, and with quotes and backslashes in their texts. -/
def keywordClauses : List Clause :=
  [.present "and", .contains "exists" "say \"Hi\"", .equals "a\\b" "and \\"]

/-- Their tokens, with capital letters in keywords. -/
def keywordTokens : List Token :=
  [.word "and", .word "EXISTS", .word "And", .word "exists", .word "contains", .quoted "say \"Hi\"",
    .word "AND", .word "a\\b", .word "==", .quoted "and \\"]

/-- Keywords are paths as well, and quotes and backslashes are part of a text. -/
theorem parse_spelled_keywords :
    parse "and EXISTS And exists contains \"say \\\"Hi\\\"\" AND a\\b == \"and \\\\\"" =
      .ok ⟨[.present "and", .contains "exists" "say \"hi\"", .equals "a\\b" "and \\"]⟩ := by
  have hjoined : Joined keywordTokens keywordClauses :=
    .next (.present (by decide)) (by decide) (.next (.contains (by decide)) (by decide) (.last .equals))
  have hspaced : Spaced keywordTokens
      "and EXISTS And exists contains \"say \\\"Hi\\\"\" AND a\\b == \"and \\\\\"".toList :=
    Spaced.last.blank.blank.blank.blank.blank.blank.blank.blank.blank
  have hpaths : ∀ c ∈ keywordClauses, IsPath c.path := by decide
  exact (parse_spelled.2 keywordClauses (List.cons_ne_nil _ _) hpaths).2 _ ⟨keywordTokens, hjoined, hspaced⟩

end Filter
end Inquiry
