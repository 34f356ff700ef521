import Inquiry.Filter.Scan
import Mathlib.Data.List.Basic

/-!
# Proofs.Filter.Tokens — which tokens an expression has

The scanner takes one character after the other; that a word is a longest run, and that a quoted text ends at
the first quote without a backslash, is said here of the expression as a whole.

* `Escapes`: what stands between the quotes, and the text that it stands for.
* `Lexes`: the characters of an expression and its tokens.
* `Continues`: what is still to come where the scanner stands in the middle of a token.
* `tokens_eq_ok`: the scanner finds these tokens and no others.
-/

namespace Inquiry
namespace Filter

/-- Whether a character can be part of a word. -/
def InWord (c : Char) : Prop := Text.isBlank c = false ∧ c ≠ '"'

/-- What stands between the quotes of a text: a backslash in front of a character takes it as it is, and a
character without one is neither a quote nor a backslash. -/
inductive Escapes : List Char → List Char → Prop where
  | nil : Escapes [] []
  | plain {c : Char} {body text : List Char} (noQuote : c ≠ '"') (noBackslash : c ≠ '\\')
      (behind : Escapes body text) : Escapes (c :: body) (c :: text)
  | escaped {c : Char} {body text : List Char} (behind : Escapes body text) :
      Escapes ('\\' :: c :: body) (c :: text)

/-- The characters of an expression and its tokens: quoted texts, and longest runs of the characters of
words. -/
inductive Lexes : List Char → List Token → Prop where
  | nil : Lexes [] []
  | blank {c : Char} {cs : List Char} {ts : List Token} (blank : Text.isBlank c = true) (behind : Lexes cs ts) :
      Lexes (c :: cs) ts
  | word {run rest : List Char} {ts : List Token} (nonempty : run ≠ []) (inWord : ∀ c ∈ run, InWord c)
      (longest : ∀ c ∈ rest.head?, ¬ InWord c) (behind : Lexes rest ts) :
      Lexes (run ++ rest) (.word (String.ofList run) :: ts)
  | quoted {body text rest : List Char} {ts : List Token} (escapes : Escapes body text)
      (behind : Lexes rest ts) :
      Lexes ('"' :: (body ++ '"' :: rest)) (.quoted (String.ofList text) :: ts)

/-! ## Where the scanner stands -/

/-- The tokens that are still to come where the scanner stands, the unfinished one first. -/
def Continues : Scan → List Char → List Token → Prop
  | .between, cs, ts => Lexes cs ts
  | .word done, cs, ts => ∃ run rest others, cs = run ++ rest ∧ (∀ c ∈ run, InWord c) ∧
      (∀ c ∈ rest.head?, ¬ InWord c) ∧ Lexes rest others ∧
        ts = .word (String.ofList (done.reverse ++ run)) :: others
  | .quoted _ done, cs, ts => ∃ body text rest others, cs = body ++ '"' :: rest ∧ Escapes body text ∧
      Lexes rest others ∧ ts = .quoted (String.ofList (done.reverse ++ text)) :: others
  | .escaped _ done, cs, ts => ∃ c body text rest others, cs = c :: (body ++ '"' :: rest) ∧ Escapes body text ∧
      Lexes rest others ∧ ts = .quoted (String.ofList (done.reverse ++ c :: text)) :: others

variable {c : Char} {cs done : List Char} {ts : List Token} {start offset : Nat}

/-- Where a word ends, the scanner is between two tokens. -/
theorem Continues.word_ends (h : ∀ c ∈ cs.head?, ¬ InWord c) (hbehind : Lexes cs ts) :
    Continues (.word done) cs (Scan.wordToken done :: ts) :=
  ⟨[], cs, ts, rfl, nofun, h, hbehind, by rw [List.append_nil, Scan.wordToken]⟩

theorem Continues.word_goesOn (hc : InWord c) (h : Continues (.word (c :: done)) cs ts) :
    Continues (.word done) (c :: cs) ts := by
  obtain ⟨run, rest, others, rfl, hrun, hrest, hbehind, rfl⟩ := h
  refine ⟨c :: run, rest, others, rfl, List.forall_mem_cons.2 ⟨hc, hrun⟩, hrest, hbehind, ?_⟩
  rw [List.reverse_cons, List.append_assoc, List.singleton_append]

/-- The first character of a word opens it. -/
theorem Lexes.of_word (hc : InWord c) (h : Continues (.word [c]) cs ts) : Lexes (c :: cs) ts := by
  obtain ⟨run, rest, others, rfl, hrun, hrest, hbehind, rfl⟩ := h
  exact .word (List.cons_ne_nil c run) (List.forall_mem_cons.2 ⟨hc, hrun⟩) hrest hbehind

/-- A quote opens a text. -/
theorem Lexes.of_quoted (h : Continues (.quoted start []) cs ts) : Lexes ('"' :: cs) ts := by
  obtain ⟨body, text, rest, others, rfl, hescapes, hbehind, rfl⟩ := h
  exact .quoted hescapes hbehind

theorem Continues.quoted_goesOn (hquote : c ≠ '"') (hbackslash : c ≠ '\\')
    (h : Continues (.quoted start (c :: done)) cs ts) : Continues (.quoted start done) (c :: cs) ts := by
  obtain ⟨body, text, rest, others, rfl, hescapes, hbehind, rfl⟩ := h
  refine ⟨c :: body, c :: text, rest, others, rfl, .plain hquote hbackslash hescapes, hbehind, ?_⟩
  rw [List.reverse_cons, List.append_assoc, List.singleton_append]

theorem Continues.quoted_escapes (h : Continues (.escaped start done) cs ts) :
    Continues (.quoted start done) ('\\' :: cs) ts := by
  obtain ⟨c, body, text, rest, others, rfl, hescapes, hbehind, rfl⟩ := h
  exact ⟨'\\' :: c :: body, c :: text, rest, others, rfl, .escaped hescapes, hbehind, rfl⟩

theorem Continues.escaped_goesOn (h : Continues (.quoted start (c :: done)) cs ts) :
    Continues (.escaped start done) (c :: cs) ts := by
  obtain ⟨body, text, rest, others, rfl, hescapes, hbehind, rfl⟩ := h
  refine ⟨c, body, text, rest, others, rfl, hescapes, hbehind, ?_⟩
  rw [List.reverse_cons, List.append_assoc, List.singleton_append]

/-! ## The scanner finds the tokens of the expression -/

theorem step_between (hc : InWord c) : Scan.step offset c .between = (none, .word [c]) := by
  simp [Scan.step, hc.1, hc.2]

theorem step_word (hc : InWord c) : Scan.step offset c (.word done) = (none, .word (c :: done)) := by
  simp [Scan.step, hc.1, hc.2]

/-- What the scanner does with one character agrees with the tokens that are to come. -/
theorem continues_of_step {s : Scan} (h : Continues (s.step offset c).2 cs ts) :
    Continues s (c :: cs) ((s.step offset c).1.toList ++ ts) := by
  -- Between tokens and inside a word, a character is blank, a quote, or part of a word.
  cases s with
  | between =>
    by_cases hblank : Text.isBlank c = true
    · simp only [Scan.step, hblank, if_true] at h ⊢
      exact .blank hblank h
    by_cases hquote : c = '"'
    · subst hquote
      exact Lexes.of_quoted h
    · have hc : InWord c := ⟨Bool.eq_false_iff.2 hblank, hquote⟩
      rw [step_between hc] at h ⊢
      exact Lexes.of_word hc h
  | word done =>
    by_cases hblank : Text.isBlank c = true
    · simp only [Scan.step, hblank, if_true] at h ⊢
      exact .word_ends (by simp [InWord, hblank]) (.blank hblank h)
    by_cases hquote : c = '"'
    · subst hquote
      exact .word_ends (by simp [InWord]) (Lexes.of_quoted h)
    · have hc : InWord c := ⟨Bool.eq_false_iff.2 hblank, hquote⟩
      rw [step_word hc] at h ⊢
      exact h.word_goesOn hc
  -- Inside a quoted text, a character escapes the next one, closes the text, or is part of it.
  | quoted start done =>
    by_cases hbackslash : c = '\\'
    · subst hbackslash
      exact Continues.quoted_escapes h
    by_cases hquote : c = '"'
    · subst hquote
      exact ⟨[], [], cs, ts, rfl, .nil, h, by simp [Scan.step, Scan.quotedToken]⟩
    · simp only [Scan.step, hbackslash, hquote, if_false] at h ⊢
      exact h.quoted_goesOn hquote hbackslash
  | escaped start done => exact h.escaped_goesOn

theorem tokensFrom_cons {s : Scan} : Scan.tokensFrom s offset (c :: cs) = .ok ts ↔
    ∃ others, Scan.tokensFrom (s.step offset c).2 (offset + c.utf8Size) cs = .ok others ∧
      ts = (s.step offset c).1.toList ++ others := by
  simp only [Scan.tokensFrom]
  cases Scan.tokensFrom (s.step offset c).2 (offset + c.utf8Size) cs with
  | error e => simp [Except.map]
  | ok others => simp [Except.map, eq_comm]

/-- The scanner finds only what is to come. -/
theorem continues_of_tokensFrom {s : Scan} (h : Scan.tokensFrom s offset cs = .ok ts) : Continues s cs ts := by
  induction cs generalizing s offset ts with
  | nil =>
    cases s with
    | between =>
      cases h
      exact .nil
    | word done =>
      cases h
      exact .word_ends nofun .nil
    | quoted => cases h
    | escaped => cases h
  | cons c cs ih =>
    obtain ⟨others, hothers, rfl⟩ := tokensFrom_cons.1 h
    exact continues_of_step (ih hothers)

/-- A step that completes no token only takes the scanner further. -/
theorem tokensFrom_of_step {s s' : Scan} (h : s.step offset c = (none, s')) :
    Scan.tokensFrom s offset (c :: cs) = Scan.tokensFrom s' (offset + c.utf8Size) cs := by
  simp only [Scan.tokensFrom, h]
  cases Scan.tokensFrom s' (offset + c.utf8Size) cs <;> rfl

/-- Inside a word the scanner goes on to where it ends. -/
theorem tokensFrom_word {run rest : List Char} (hrun : ∀ c ∈ run, InWord c)
    (hrest : ∀ c ∈ rest.head?, ¬ InWord c)
    (hbehind : ∀ offset, Scan.tokensFrom .between offset rest = .ok ts) :
    Scan.tokensFrom (.word done) offset (run ++ rest) = .ok (Scan.wordToken (run.reverse ++ done) :: ts) := by
  induction run generalizing done offset with
  | nil =>
    cases rest with
    | nil =>
      obtain rfl : [] = ts := Except.ok.inj (hbehind 0)
      rfl
    | cons c rest =>
      -- The step is that between two tokens, with the word put in front of what it completes.
      obtain ⟨others, hothers, rfl⟩ := tokensFrom_cons.1 (hbehind offset)
      refine tokensFrom_cons.2 ⟨others, ?_⟩
      by_cases hblank : Text.isBlank c = true
      · simp_all [Scan.step]
      · obtain rfl : c = '"' := by simpa [InWord, hblank] using hrest
        simp_all [Scan.step]
  | cons c run ih =>
    obtain ⟨hc, hrun⟩ := List.forall_mem_cons.1 hrun
    rw [List.cons_append, tokensFrom_of_step (step_word hc), ih hrun, List.reverse_cons, List.append_assoc,
      List.singleton_append]

/-- Inside a quoted text the scanner goes on to the closing quote. -/
theorem tokensFrom_quoted {body text rest : List Char} (hescapes : Escapes body text)
    (hbehind : ∀ offset, Scan.tokensFrom .between offset rest = .ok ts) :
    Scan.tokensFrom (.quoted start done) offset (body ++ '"' :: rest) =
      .ok (Scan.quotedToken (text.reverse ++ done) :: ts) := by
  induction hescapes generalizing done offset with
  | nil => exact tokensFrom_cons.2 ⟨ts, hbehind _, rfl⟩
  | @plain c _ text hquote hbackslash _ ih =>
    have hstep : Scan.step offset c (.quoted start done) = (none, .quoted start (c :: done)) := by
      simp [Scan.step, hquote, hbackslash]
    rw [List.cons_append, tokensFrom_of_step hstep, ih, List.reverse_cons, List.append_assoc,
      List.singleton_append]
  | escaped _ ih =>
    rw [List.cons_append, List.cons_append, tokensFrom_of_step rfl, tokensFrom_of_step rfl, ih,
      List.reverse_cons, List.append_assoc, List.singleton_append]

/-- The scanner finds all that is to come. -/
theorem tokensFrom_of_lexes (h : Lexes cs ts) (offset : Nat) : Scan.tokensFrom .between offset cs = .ok ts := by
  induction h generalizing offset with
  | nil => rfl
  | @blank c _ _ hblank _ ih =>
    have hstep : Scan.step offset c .between = (none, .between) := if_pos hblank
    rw [tokensFrom_of_step hstep, ih]
  | @word run rest ts hne hrun hrest _ ih =>
    cases run with
    | nil => exact absurd rfl hne
    | cons c run =>
      obtain ⟨hc, hrun⟩ := List.forall_mem_cons.1 hrun
      rw [List.cons_append, tokensFrom_of_step (step_between hc), tokensFrom_word hrun hrest ih]
      simp [Scan.wordToken]
  | quoted hescapes _ ih =>
    rw [tokensFrom_of_step rfl, tokensFrom_quoted hescapes ih]
    simp [Scan.quotedToken]

/-- The scanner finds the tokens that the characters of an expression form. -/
theorem tokens_eq_ok {expr : String} : tokens expr = .ok ts ↔ Lexes expr.toList ts :=
  ⟨fun h => continues_of_tokensFrom h, fun h => tokensFrom_of_lexes h 0⟩

end Filter
end Inquiry
