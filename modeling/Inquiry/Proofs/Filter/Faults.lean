import Inquiry.Proofs.Filter.Conjunction
import Mathlib.Data.String.Basic

/-!
# Proofs.Filter.Faults — what the errors of expressions tell

An expression is no filter for one of three reasons: it ends too early, it has a token that nothing behind it can
mend, or it has a quote that is never closed. The scanner looks at all of the expression before the parser looks at
any of it, so that the last reason is given whatever else is wrong.

* `Unclosed`: no quote among these characters closes a text; `OpenAt`: the place of a quote that is never closed.
* `tokensFrom_append`: the scanner reads what stands behind finished tokens as if it stood alone.
* `tokens_eq_error`: an expression has no tokens exactly if a quote is never closed.
* `Foretells`: what an error says of the tokens that may follow; `parseClauses_foretells`.
* `parse_error_tells`: which expressions can be gone on with, by the error.
-/

namespace Inquiry
namespace Filter

variable {c : Char} {cs rest done : List Char} {ts us : List Token} {start offset : Nat} {path : String}
  {e : FilterError}

/-! ## Quotes that are never closed -/

/-- No quote among the characters behind an opening quote closes the text: each has a backslash in front that takes
it as it is. -/
def Unclosed (cs : List Char) : Prop :=
  ∀ body text rest, Escapes body text → cs ≠ body ++ '"' :: rest

theorem unclosed_nil : Unclosed [] := by
  intro body text rest _
  simp

theorem not_unclosed_quote : ¬ Unclosed ('"' :: cs) := fun h => h [] [] cs .nil rfl

theorem unclosed_plain (hquote : c ≠ '"') (hbackslash : c ≠ '\\') : Unclosed (c :: cs) ↔ Unclosed cs := by
  constructor
  · rintro h body text rest hescapes rfl
    exact h (c :: body) (c :: text) rest (.plain hquote hbackslash hescapes) rfl
  · rintro h body text rest hescapes hcs
    cases hescapes with
    | nil => exact hquote (List.cons.inj hcs).1
    | plain _ _ hbehind => exact h _ _ rest hbehind (List.cons.inj hcs).2
    | escaped => exact hbackslash (List.cons.inj hcs).1

/-- A backslash takes the next character, if there is one, whatever it is. -/
theorem unclosed_backslash : Unclosed ('\\' :: cs) ↔ Unclosed cs.tail := by
  constructor
  · intro h
    cases cs with
    | nil => exact unclosed_nil
    | cons c cs =>
      rintro body text rest hescapes rfl
      exact h ('\\' :: c :: body) (c :: text) rest (.escaped hescapes) rfl
  · rintro h body text rest hescapes hcs
    cases hescapes with
    | nil => simp at hcs
    | plain _ hbackslash _ => exact hbackslash (List.cons.inj hcs).1.symm
    | escaped hbehind => exact h _ _ rest hbehind (congrArg List.tail (List.cons.inj hcs).2)

/-- The scanner stands in a quoted text that started at an offset and is never closed. -/
def Unended (start : Nat) : Scan → List Char → Prop
  | .quoted start' _, cs => start' = start ∧ Unclosed cs
  | .escaped start' _, cs => start' = start ∧ Unclosed cs.tail
  | _, _ => False

theorem tokensFrom_of_unended {s : Scan} (h : Unended start s cs) :
    Scan.tokensFrom s offset cs = .error (.unterminatedString start) := by
  -- The states of a quoted text are not left, since no character closes it.
  induction cs generalizing s offset with
  | nil =>
    cases s with
    | between => exact h.elim
    | word => exact h.elim
    | quoted => exact congrArg (Except.error ∘ FilterError.unterminatedString) h.1
    | escaped => exact congrArg (Except.error ∘ FilterError.unterminatedString) h.1
  | cons c cs ih =>
    cases s with
    | between => exact h.elim
    | word => exact h.elim
    | escaped start' done =>
      rw [tokensFrom_of_step rfl]
      exact ih h
    | quoted start' done =>
      obtain ⟨rfl, h⟩ := h
      by_cases hbackslash : c = '\\'
      · subst hbackslash
        rw [tokensFrom_of_step rfl]
        exact ih ⟨rfl, unclosed_backslash.1 h⟩
      by_cases hquote : c = '"'
      · subst hquote
        exact absurd h not_unclosed_quote
      · have hstep : Scan.step offset c (.quoted start' done) = (none, .quoted start' (c :: done)) := by
          simp [Scan.step, hquote, hbackslash]
        rw [tokensFrom_of_step hstep]
        exact ih ⟨rfl, (unclosed_plain hquote hbackslash).1 h⟩

/-! ## Behind finished tokens -/

/-- The scanner reads what stands behind finished tokens as if it stood alone, unless it is part of a word. -/
theorem tokensFrom_append {s : Scan} (h : Scan.tokensFrom s offset cs = .ok ts)
    (hrest : ∀ c ∈ rest.head?, ¬ InWord c) : Scan.tokensFrom s offset (cs ++ rest) =
      (Scan.tokensFrom .between (offset + String.utf8Len cs) rest).map (ts ++ ·) := by
  induction cs generalizing s offset ts with
  | nil =>
    cases s with
    | between =>
      obtain rfl : [] = ts := Except.ok.inj h
      cases hbehind : Scan.tokensFrom .between offset rest <;> simp [hbehind, Except.map]
    | word done =>
      obtain rfl : [Scan.wordToken done] = ts := Except.ok.inj h
      cases rest with
      | nil => rfl
      | cons c rest =>
        -- The character ends the word, and the scanner goes on as it does between two tokens.
        have hstep : Scan.step offset c (.word done) =
            (some (Scan.wordToken done), (Scan.step offset c .between).2) ∧
              (Scan.step offset c .between).1 = none := by
          by_cases hblank : Text.isBlank c = true
          · simp [Scan.step, hblank]
          · obtain rfl : c = '"' := by simpa [InWord, hblank] using hrest
            simp [Scan.step, hblank]
        simp only [List.nil_append, String.utf8Len_nil, Nat.add_zero, Scan.tokensFrom, hstep]
        cases Scan.tokensFrom (Scan.step offset c .between).2 (offset + c.utf8Size) rest <;> rfl
    | quoted => cases h
    | escaped => cases h
  | cons c cs ih =>
    obtain ⟨others, hothers, rfl⟩ := tokensFrom_cons.1 h
    have hoffset : offset + String.utf8Len (c :: cs) = offset + c.utf8Size + String.utf8Len cs := by
      rw [String.utf8Len_cons]
      omega
    simp only [List.cons_append, Scan.tokensFrom, ih hothers, hoffset]
    cases Scan.tokensFrom .between (offset + c.utf8Size + String.utf8Len cs) rest <;> simp [Except.map]

/-! ## Expressions without tokens -/

/-- Where the scanner stands, it comes to a quote at an offset that is never closed, or has passed it. -/
def Breaks (start : Nat) (s : Scan) (offset : Nat) (cs : List Char) : Prop :=
  Unended start s cs ∨ ∃ front rest ts, cs = front ++ '"' :: rest ∧ start = offset + String.utf8Len front ∧
    Continues s front ts ∧ Unclosed rest

theorem Breaks.of_step {s : Scan} (h : Breaks start (s.step offset c).2 (offset + c.utf8Size) cs) :
    Breaks start s offset (c :: cs) := by
  rcases h with hunended | ⟨front, rest, ts, rfl, rfl, hcontinues, hunclosed⟩
  · -- The character opens the text, or is part of it.
    cases s with
    | between =>
      by_cases hblank : Text.isBlank c = true
      · simp [Scan.step, hblank, Unended] at hunended
      by_cases hquote : c = '"'
      · subst hquote
        obtain ⟨rfl, hunclosed⟩ := hunended
        exact .inr ⟨[], cs, [], rfl, rfl, .nil, hunclosed⟩
      · simp [Scan.step, hblank, hquote, Unended] at hunended
    | word done =>
      by_cases hblank : Text.isBlank c = true
      · simp [Scan.step, hblank, Unended] at hunended
      by_cases hquote : c = '"'
      · subst hquote
        obtain ⟨rfl, hunclosed⟩ := hunended
        exact .inr ⟨[], cs, _, rfl, rfl, .word_ends (by simp) .nil, hunclosed⟩
      · simp [Scan.step, hblank, hquote, Unended] at hunended
    | quoted start' done =>
      by_cases hbackslash : c = '\\'
      · subst hbackslash
        exact .inl ⟨hunended.1, unclosed_backslash.2 hunended.2⟩
      by_cases hquote : c = '"'
      · subst hquote
        exact hunended.elim
      · simp only [Scan.step, hbackslash, hquote, if_false] at hunended
        exact .inl ⟨hunended.1, (unclosed_plain hquote hbackslash).2 hunended.2⟩
    | escaped start' done => exact .inl hunended
  · refine .inr ⟨c :: front, rest, _, rfl, ?_, continues_of_step hcontinues, hunclosed⟩
    rw [String.utf8Len_cons]
    omega

/-- The scanner fails only where a quote is never closed. -/
theorem breaks_of_tokensFrom {s : Scan} (h : Scan.tokensFrom s offset cs = .error e) :
    ∃ start, e = .unterminatedString start ∧ Breaks start s offset cs := by
  induction cs generalizing s offset with
  | nil =>
    cases s with
    | between => cases h
    | word => cases h
    | quoted start done =>
      cases h
      exact ⟨start, rfl, .inl ⟨rfl, unclosed_nil⟩⟩
    | escaped start done =>
      cases h
      exact ⟨start, rfl, .inl ⟨rfl, unclosed_nil⟩⟩
  | cons c cs ih =>
    have hbehind : Scan.tokensFrom (s.step offset c).2 (offset + c.utf8Size) cs = .error e := by
      simp only [Scan.tokensFrom] at h
      cases hothers : Scan.tokensFrom (s.step offset c).2 (offset + c.utf8Size) cs with
      | error e' => simpa [hothers, Except.map] using h
      | ok others => simp [hothers, Except.map] at h
    obtain ⟨start, rfl, hbreaks⟩ := ih hbehind
    exact ⟨start, rfl, hbreaks.of_step⟩

/-- At an offset in UTF-8 an expression has a quote that is never closed, behind a part that has tokens. -/
def OpenAt (expr : String) (offset : Nat) : Prop :=
  ∃ front rest : String, expr = front ++ "\"" ++ rest ∧ front.utf8ByteSize = offset ∧
    (∃ ts, tokens front = .ok ts) ∧ Unclosed rest.toList

/-- An expression has no tokens exactly if a quote is never closed; the error tells where it stands. -/
theorem tokens_eq_error {expr : String} :
    tokens expr = .error e ↔ ∃ offset, e = .unterminatedString offset ∧ OpenAt expr offset := by
  constructor
  · intro h
    obtain ⟨start, rfl, hbreaks⟩ := breaks_of_tokensFrom h
    obtain hunended | ⟨front, rest, ts, hexpr, rfl, hcontinues, hunclosed⟩ := hbreaks
    · exact hunended.elim
    · refine ⟨_, rfl, .ofList front, .ofList rest, ?_, ?_, ⟨ts, ?_⟩, ?_⟩
      · rw [← String.toList_inj]
        simpa using hexpr
      · rw [String.utf8ByteSize_ofList, Nat.zero_add]
      · rw [tokens_eq_ok, String.toList_ofList]
        exact hcontinues
      · rwa [String.toList_ofList]
  · rintro ⟨_, rfl, front, rest, rfl, rfl, ⟨ts, hfront⟩, hunclosed⟩
    have hquote : ∀ c ∈ ('"' :: rest.toList).head?, ¬ InWord c := by simp [InWord]
    have hchars : (front ++ "\"" ++ rest).toList = front.toList ++ '"' :: rest.toList := by simp
    have hunended : Unended front.utf8ByteSize (.quoted front.utf8ByteSize []) rest.toList := ⟨rfl, hunclosed⟩
    rw [tokens, hchars, tokensFrom_append hfront hquote, Nat.zero_add, String.utf8Len_toList,
      tokensFrom_of_step rfl, tokensFrom_of_unended hunended]
    rfl

/-! ## What errors say of the tokens that may follow -/

/-- What an error says of the tokens that may follow: where the tokens have come to an end, some that can be written
are read, and where one of them is wrong, all fail. -/
def Foretells (reads fails : List Token → Prop) : FilterError → Prop
  | .empty => ∃ us, us ≠ [] ∧ (∀ t ∈ us, Writable t) ∧ reads us
  | .unexpectedEnd _ => ∃ us, us ≠ [] ∧ (∀ t ∈ us, Writable t) ∧ reads us
  | .unexpectedToken _ _ => ∀ us, fails us
  | .unterminatedString _ => False

theorem Foretells.imp {reads fails reads' fails' : List Token → Prop} (h : Foretells reads fails e)
    (hreads : ∀ us, reads us → reads' us) (hfails : ∀ us, fails us → fails' us) : Foretells reads' fails' e := by
  cases e with
  | empty =>
    obtain ⟨us, hne, hus, hread⟩ := h
    exact ⟨us, hne, hus, hreads us hread⟩
  | unexpectedEnd =>
    obtain ⟨us, hne, hus, hread⟩ := h
    exact ⟨us, hne, hus, hreads us hread⟩
  | unexpectedToken => exact fun us => hfails us (h us)
  | unterminatedString => exact h

theorem operand_foretells (h : operand ts = .error e) :
    Foretells (fun us => ∃ text, operand (ts ++ us) = .ok (text, []))
      (fun us => operand (ts ++ us) = .error e) e := by
  match ts with
  | [] =>
    cases h
    exact ⟨[.quoted ""], List.cons_ne_nil _ _, by simp [Writable], "", rfl⟩
  | .word text :: ts =>
    cases h
    exact fun us => rfl
  | .quoted text :: ts => cases h

/-- Behind an operator that takes a text, a clause fails as its text does. -/
theorem operand_map_foretells {f : String × List Token → Clause × List Token}
    (hf : ∀ text, ∃ c, f (text, []) = (c, [])) (h : (operand ts).map f = .error e) :
    Foretells (fun us => ∃ c, (operand (ts ++ us)).map f = .ok (c, []))
      (fun us => (operand (ts ++ us)).map f = .error e) e := by
  cases hoperand : operand ts with
  | ok p => simp [hoperand, Except.map] at h
  | error e' =>
    obtain rfl : e' = e := by simpa [hoperand, Except.map] using h
    refine (operand_foretells hoperand).imp ?_ ?_
    · rintro us ⟨text, hread⟩
      obtain ⟨c, hc⟩ := hf text
      exact ⟨c, by rw [hread, ← hc]; rfl⟩
    · intro us hfail
      rw [hfail]
      rfl

theorem afterPath_foretells (h : afterPath path ts = .error e) :
    Foretells (fun us => ∃ c, afterPath path (ts ++ us) = .ok (c, []))
      (fun us => afterPath path (ts ++ us) = .error e) e := by
  match ts with
  | [] =>
    cases h
    have hword : Writable (.word "exists") := (by decide : IsPath "exists")
    exact ⟨[.word "exists"], List.cons_ne_nil _ _, by simpa using hword, .present path, rfl⟩
  | .quoted text :: ts =>
    cases h
    exact fun us => rfl
  | .word op :: ts =>
    simp only [afterPath] at h
    simp only [List.cons_append, afterPath]
    split_ifs at h ⊢
    · exact operand_map_foretells (fun text => ⟨_, rfl⟩) h
    · exact operand_map_foretells (fun text => ⟨_, rfl⟩) h
    · cases h
      exact fun us => rfl

theorem afterPath_append {c : Clause} {others : List Token} (h : afterPath path ts = .ok (c, others))
    (us : List Token) : afterPath path (ts ++ us) = .ok (c, others ++ us) := by
  obtain ⟨front, written, rfl, hspelled, hc⟩ := afterPath_eq_ok.1 h
  exact afterPath_eq_ok.2 ⟨front, written, List.append_assoc .., hspelled, hc⟩

theorem parseClauses_fault {first : Bool} (h : afterPath path ts = .error e) :
    parseClauses first (.word path :: ts) = .error e := by
  rw [parseClauses]
  split <;> simp_all

/-- Behind a clause there is `and`, or nothing. -/
theorem parseClauses_unjoined {first : Bool} {c : Clause} {t : Token} {others : List Token}
    (h : afterPath path ts = .ok (c, t :: others)) (ht : ∀ word, t = .word word → ¬ Spells word "and") :
    parseClauses first (.word path :: ts) = .error (.unexpectedToken t.text .conjunction) := by
  cases t with
  | quoted text =>
    rw [parseClauses]
    split <;> simp_all [Token.text]
  | word word =>
    have hand := mt equalsIgnoringCase_and.1 (ht word rfl)
    rw [parseClauses]
    split <;> simp_all [Token.text]

theorem parseClauses_foretells {first : Bool} (h : parseClauses first ts = .error e) :
    Foretells (fun us => ∃ clauses, parseClauses first (ts ++ us) = .ok clauses)
      (fun us => parseClauses first (ts ++ us) = .error e) e := by
  fun_induction parseClauses first ts with
  | case1 first =>
    -- No token is left: a clause completes the expression, be it the first one or not.
    have hpath : Writable (.word "a") := (by decide : IsPath "a")
    have hword : Writable (.word "exists") := (by decide : IsPath "exists")
    have hread : ∃ clauses, parseClauses first [.word "a", .word "exists"] = .ok clauses :=
      ⟨_, parseClauses_last (c := .present "a") rfl⟩
    cases h
    cases first with
    | true => exact ⟨_, List.cons_ne_nil _ _, by simpa using ⟨hpath, hword⟩, hread⟩
    | false => exact ⟨_, List.cons_ne_nil _ _, by simpa using ⟨hpath, hword⟩, hread⟩
  | case2 =>
    cases h
    intro us
    rw [List.cons_append, parseClauses]
  | case3 first path ts e' hclause =>
    obtain rfl : e' = e := Except.error.inj h
    refine (afterPath_foretells hclause).imp ?_ fun us hfail => parseClauses_fault hfail
    rintro us ⟨c, hread⟩
    exact ⟨[c], parseClauses_last hread⟩
  | case4 => cases h
  | case5 first path ts c text others hclause =>
    -- A quoted text behind a clause is no `and`, even if it reads so.
    cases h
    exact fun us => parseClauses_unjoined (afterPath_append hclause us) (by simp)
  | case6 first path ts c word others hclause hword ih =>
    -- What holds of the clauses behind `and` holds with this clause in front.
    have hnext : ∀ us, parseClauses first (.word path :: (ts ++ us)) =
        (parseClauses false (others ++ us)).map (c :: ·) :=
      fun us => parseClauses_next (afterPath_append hclause us) (equalsIgnoringCase_and.1 hword)
    cases hothers : parseClauses false others with
    | ok clauses => simp [hothers, Except.map] at h
    | error e' =>
      obtain rfl : e' = e := by simpa [hothers, Except.map] using h
      refine (ih hothers).imp ?_ ?_
      · rintro us ⟨clauses, hread⟩
        exact ⟨c :: clauses, by rw [List.cons_append, hnext, hread]; rfl⟩
      · intro us hfail
        rw [List.cons_append, hnext, hfail]
        rfl
  | case7 first path ts c word others hclause hword =>
    cases h
    have hunjoined : ∀ word', Token.word word = .word word' → ¬ Spells word' "and" :=
      fun word' heq => Token.word.inj heq ▸ mt equalsIgnoringCase_and.2 hword
    exact fun us => parseClauses_unjoined (afterPath_append hclause us) hunjoined

/-! ## Expressions that can be gone on with -/

/-- A text starts with a blank character. -/
def StartsBlank (text : String) : Prop := ∃ c ∈ text.toList.head?, Text.isBlank c = true

/-- Some text that starts with a blank character completes an expression to one that is read. -/
def Viable (expr : String) : Prop := ∃ suffix, StartsBlank suffix ∧ ∃ f, parse (expr ++ suffix) = .ok f

/-- The parser fails where the scanner does, or else at the tokens. -/
theorem parse_eq_error {expr : String} : parse expr = .error e ↔
    tokens expr = .error e ∨ ∃ ts, tokens expr = .ok ts ∧ parseClauses true ts = .error e := by
  rw [parse]
  cases tokens expr with
  | error e' => simp
  | ok ts => cases hclauses : parseClauses true ts <;> simp [hclauses, Except.map]

theorem viable_of_tokens {expr : String} (htokens : tokens expr = .ok ts)
    (h : ∃ us, us ≠ [] ∧ (∀ t ∈ us, Writable t) ∧ ∃ clauses, parseClauses true (ts ++ us) = .ok clauses) :
    Viable expr := by
  obtain ⟨us, hne, hus, clauses, hread⟩ := h
  obtain ⟨chars, hspaced⟩ := exists_spaced hne
  refine ⟨.ofList (' ' :: chars), ⟨' ', by simp, rfl⟩, ⟨clauses⟩, parse_eq_ok.2 ⟨ts ++ us, ?_, hread⟩⟩
  rw [tokens_eq_ok, String.toList_append, String.toList_ofList]
  exact (tokens_eq_ok.1 htokens).append rfl (lexes_of_spaced hspaced hus)

theorem not_viable_of_tokens {expr : String} (htokens : tokens expr = .ok ts)
    (h : ∀ us, parseClauses true (ts ++ us) = .error e) : ¬ Viable expr := by
  rintro ⟨suffix, ⟨c, hc, hblank⟩, f, hparse⟩
  obtain ⟨vs, hvs, hread⟩ := parse_eq_ok.1 hparse
  have hsuffix : ∀ c ∈ suffix.toList.head?, ¬ InWord c := by
    intro d hd
    obtain rfl : c = d := Option.some.inj (hc.symm.trans hd)
    simp [InWord, hblank]
  rw [tokens, String.toList_append, tokensFrom_append htokens hsuffix] at hvs
  -- What stands behind the tokens only adds to them.
  cases hbehind : Scan.tokensFrom .between (0 + String.utf8Len expr.toList) suffix.toList with
  | error e' =>
    rw [hbehind] at hvs
    cases hvs
  | ok us =>
    rw [hbehind] at hvs
    obtain rfl : ts ++ us = vs := Except.ok.inj hvs
    rw [h us] at hread
    cases hread

/-- An error comes from a quote that is never closed, or else says what may follow the tokens. -/
theorem parse_foretells {expr : String} (h : parse expr = .error e) :
    (∃ offset, e = .unterminatedString offset ∧ OpenAt expr offset) ∨
      ∃ ts, tokens expr = .ok ts ∧ Foretells (fun us => ∃ clauses, parseClauses true (ts ++ us) = .ok clauses)
        (fun us => parseClauses true (ts ++ us) = .error e) e := by
  obtain hopen | ⟨ts, hts, hfault⟩ := parse_eq_error.1 h
  · exact .inl (tokens_eq_error.1 hopen)
  · exact .inr ⟨ts, hts, parseClauses_foretells hfault⟩

/-- What the error of an expression tells. One that is empty or comes to an end too early can be completed to one that
is read; one with an unexpected token cannot, with whatever blank characters the rest may start. A string is reported
as unterminated exactly if a quote is never closed, whatever else is wrong with the expression, and at the offset in
UTF-8 at which this quote stands behind a part that has tokens. -/
theorem parse_error_tells (expr : String) :
    (parse expr = .error .empty → Viable expr) ∧
    (∀ expected, parse expr = .error (.unexpectedEnd expected) → Viable expr) ∧
    (∀ token expected, parse expr = .error (.unexpectedToken token expected) → ¬ Viable expr) ∧
    ∀ offset, parse expr = .error (.unterminatedString offset) ↔ OpenAt expr offset := by
  refine ⟨fun h => ?_, fun expected h => ?_, fun token expected h => ?_, fun offset => ⟨fun h => ?_, fun h => ?_⟩⟩
  · obtain ⟨_, he, -⟩ | ⟨ts, hts, hcompleted⟩ := parse_foretells h
    · cases he
    · exact viable_of_tokens hts hcompleted
  · obtain ⟨_, he, -⟩ | ⟨ts, hts, hcompleted⟩ := parse_foretells h
    · cases he
    · exact viable_of_tokens hts hcompleted
  · obtain ⟨_, he, -⟩ | ⟨ts, hts, hfails⟩ := parse_foretells h
    · cases he
    · exact not_viable_of_tokens hts hfails
  · obtain ⟨_, he, hopen⟩ | ⟨ts, -, himpossible⟩ := parse_foretells h
    · cases he
      exact hopen
    · exact himpossible.elim
  · exact parse_eq_error.2 (.inl (tokens_eq_error.2 ⟨offset, rfl, h⟩))

/-- One expression for each error: only blank characters, an end behind `and`, a word that is no operator, and an open
string behind such a word, which a backslash at the end and a quote behind a backslash do not close. -/
theorem parse_error_tells_each :
    Viable " \t" ∧ Viable "a == \"x\" and" ∧ ¬ Viable "é matches \"x\"" ∧
      parse "é matches \"x\\\"\\" = .error (.unterminatedString 11) := by
  refine ⟨(parse_error_tells _).1 (by decide +kernel), (parse_error_tells _).2.1 .fieldPath (by decide +kernel),
    (parse_error_tells _).2.2.1 "matches" .operatorWord (by decide +kernel), ?_⟩
  have hunclosed : Unclosed "x\\\"\\".toList :=
    (unclosed_plain (by decide) (by decide)).2 (unclosed_backslash.2 (unclosed_backslash.2 unclosed_nil))
  exact ((parse_error_tells _).2.2.2 11).2 ⟨"é matches ", "x\\\"\\", by decide, by decide, ⟨_, rfl⟩, hunclosed⟩

end Filter
end Inquiry
