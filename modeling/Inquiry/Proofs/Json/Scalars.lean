import Inquiry.Json.Reader
import Inquiry.Json.Writer
import Mathlib.Data.String.Basic

/-!
# Proofs.Json.Scalars — strings and integers are read as they are written

* `Writer.quotedChars`: the characters of a string; `Reader.textRest_quoted` reads them back.
* `Number.Exact`: an integer of sixty-four bits; `Reader.unsignedNumber_digits` reads its digits back, up to
  where they end.
-/

namespace Inquiry
namespace Json

/-! ## Strings -/

namespace Writer

/-- The characters of a string, with its quotes. -/
def quotedChars (s : String) : List Char := '"' :: (s.toList.flatMap escaped ++ ['"'])

theorem toList_foldl_push (s : String) (cs : List Char) : (cs.foldl String.push s).toList = s.toList ++ cs := by
  induction cs generalizing s with
  | nil => simp
  | cons c cs ih => rw [List.foldl_cons, ih, String.toList_push, List.append_assoc, List.singleton_append]

theorem toList_quoted (s : String) : (quoted s).toList = quotedChars s := by
  have hfold : ∀ (out : String) (cs : List Char),
      (cs.foldl (fun out c => (escaped c).foldl String.push out) out).toList =
        out.toList ++ cs.flatMap escaped := by
    intro out cs
    induction cs generalizing out with
    | nil => simp
    | cons c cs ih => rw [List.foldl_cons, ih, toList_foldl_push, List.flatMap_cons, List.append_assoc]
  rw [quoted, String.toList_append, String.foldl_eq_foldl_toList, hfold]
  rfl

end Writer

namespace Reader

open Writer

/-- What a character may be read as: itself, or its number if it is a control character. -/
inductive Stands : Piece → Char → Prop where
  | char (c : Char) : Stands (.char c) c
  | unit {c : Char} (control : c.toNat < 0x20) : Stands (.unit c.toNat) c

theorem hexDigit?_hexDigit : ∀ n < 16, hexDigit? (Writer.hexDigit n) = some n := by decide

theorem hexQuad?_control {n : Nat} (h : n < 0x20) :
    hexQuad? '0' '0' (Writer.hexDigit (n / 16)) (Writer.hexDigit (n % 16)) = some n := by
  have hzero : hexDigit? '0' = some 0 := rfl
  simp only [hexQuad?, hzero, hexDigit?_hexDigit (n / 16) (by omega), hexDigit?_hexDigit (n % 16) (by omega)]
  exact congrArg some (by omega)

/-- How a character is escaped that is no quote, no backslash and none of the common white space. -/
theorem escaped_other {c : Char} (h : ¬ (c = '"' ∨ c = '\\' ∨ c = '\n' ∨ c = '\r' ∨ c = '\t')) :
    escaped c = if c.toNat = 8 then ['\\', 'b'] else if c.toNat = 12 then ['\\', 'f']
      else if c.toNat < 0x20 then
        ['\\', 'u', '0', '0', Writer.hexDigit (c.toNat / 16), Writer.hexDigit (c.toNat % 16)]
      else [c] := by
  unfold escaped
  split <;> simp_all

/-- A character is read as it is escaped. -/
theorem stringRest_escaped (c : Char) : ∃ p, Stands p c ∧ ∀ done rest,
    stringRest done (escaped c ++ rest) = stringRest (p :: done) rest := by
  -- The characters that have a letter of their own, or stand for themselves behind a backslash, come first.
  by_cases hletter : c = '"' ∨ c = '\\' ∨ c = '\n' ∨ c = '\r' ∨ c = '\t'
  · refine ⟨.char c, .char c, fun done rest => ?_⟩
    rcases hletter with rfl | rfl | rfl | rfl | rfl <;> rfl
  · have hescaped := escaped_other hletter
    split_ifs at hescaped with hback hfeed hcontrol
    · obtain rfl : c = Char.ofNat 8 := by rw [← hback, Char.ofNat_toNat]
      exact ⟨.char (Char.ofNat 8), .char _, fun done rest => rfl⟩
    · obtain rfl : c = Char.ofNat 12 := by rw [← hfeed, Char.ofNat_toNat]
      exact ⟨.char (Char.ofNat 12), .char _, fun done rest => rfl⟩
    · refine ⟨.unit c.toNat, .unit hcontrol, fun done rest => ?_⟩
      rw [hescaped]
      simp [stringRest, hexQuad?_control hcontrol]
    · refine ⟨.char c, .char c, fun done rest => ?_⟩
      rw [hescaped, List.singleton_append, stringRest.eq_def]
      split <;> simp_all

/-- Pieces that characters may be read as make up their text. -/
theorem textOfPieces?_eq {ps : List Piece} {cs : List Char} (h : List.Forall₂ Stands ps cs) (done : List Char) :
    textOfPieces? done ps = some (String.ofList (done.reverse ++ cs)) := by
  induction h generalizing done with
  | nil => rw [textOfPieces?, List.append_nil]
  | @cons p c ps cs hpiece _ ih =>
    have hbehind : textOfPieces? (c :: done) ps = some (String.ofList (done.reverse ++ c :: cs)) := by
      rw [ih, List.reverse_cons, List.append_assoc, List.singleton_append]
    cases hpiece with
    | char => rw [textOfPieces?, hbehind]
    | unit hcontrol =>
      have hhigh : isHighHalf c.toNat = false :=
        Bool.and_eq_false_imp.2 fun h => absurd (of_decide_eq_true h) (by omega)
      have hlow : isLowHalf c.toNat = false :=
        Bool.and_eq_false_imp.2 fun h => absurd (of_decide_eq_true h) (by omega)
      rw [textOfPieces?.eq_def]
      simp only [hhigh, hlow, Bool.false_eq_true, if_false, Char.ofNat_toNat, hbehind]

theorem stringRest_flatMap (cs rest : List Char) : ∃ ps, List.Forall₂ Stands ps cs ∧ ∀ done,
    stringRest done (cs.flatMap escaped ++ '"' :: rest) = some (done.reverse ++ ps, rest) := by
  induction cs with
  | nil => exact ⟨[], .nil, fun done => by simp [stringRest]⟩
  | cons c cs ih =>
    obtain ⟨ps, hps, hread⟩ := ih
    obtain ⟨p, hp, hstep⟩ := stringRest_escaped c
    refine ⟨p :: ps, .cons hp hps, fun done => ?_⟩
    rw [List.flatMap_cons, List.append_assoc, hstep, hread, List.reverse_cons, List.append_assoc,
      List.singleton_append]

/-- A string is read back from between its quotes. -/
theorem textRest_quoted (s : String) (rest : List Char) :
    textRest (s.toList.flatMap escaped ++ '"' :: rest) = some (some s, rest) := by
  obtain ⟨ps, hps, hread⟩ := stringRest_flatMap s.toList rest
  have htext : textOfPieces? [] ps = some s := by
    rw [textOfPieces?_eq hps, List.reverse_nil, List.nil_append, String.ofList_toList]
  rw [textRest, hread, Option.map_some, List.reverse_nil, List.nil_append]
  exact congrArg (fun text => some (text, rest)) htext

/-! ## Integers -/

/-- Whether a number could not go on with these characters. -/
def EndsNumber (rest : List Char) : Prop := ∀ c ∈ rest.head?, isDigit c = false ∧ c ≠ '.' ∧ c ≠ 'e' ∧ c ≠ 'E'

theorem isDigit_toDigits {n : Nat} {c : Char} (h : c ∈ Nat.toDigits 10 n) : isDigit c = true :=
  Nat.isDigit_of_mem_toDigits (by decide) (by decide) h

theorem le_ofDigitChars (cs : List Char) (start : Nat) : start ≤ Nat.ofDigitChars 10 cs start := by
  induction cs generalizing start with
  | nil => rw [Nat.ofDigitChars_nil]
  | cons c cs ih =>
    have hbehind := ih (10 * start + (c.toNat - '0'.toNat))
    rw [Nat.ofDigitChars_cons]
    omega

/-- Digits are taken in as long as they fit. -/
theorem gather_ofDigitChars {cs : List Char} {start : Nat}
    (h : Nat.ofDigitChars 10 cs start < significandBound) :
    gather start cs = (Nat.ofDigitChars 10 cs start, []) := by
  induction cs generalizing start with
  | nil => rw [gather, Nat.ofDigitChars_nil]
  | cons c cs ih =>
    have hnext : 10 * start + (c.toNat - '0'.toNat) = start * 10 + digit c := by rw [Nat.mul_comm]; rfl
    rw [Nat.ofDigitChars_cons, hnext] at h ⊢
    have hfits : start * 10 + digit c < significandBound := (le_ofDigitChars cs _).trans_lt h
    rw [gather]
    exact (if_pos hfits).trans (ih h)

theorem gather_toDigits {n : Nat} (h : n < significandBound) : gather 0 (Nat.toDigits 10 n) = (n, []) := by
  rw [gather_ofDigitChars (by rwa [Nat.ofDigitChars_ten_toDigits]), Nat.ofDigitChars_ten_toDigits]

/-- Only zero starts with a zero. -/
theorem eq_zero_of_head?_toDigits {n : Nat} (h : (Nat.toDigits 10 n).head? = some '0') : n = 0 := by
  induction n using Nat.strongRecOn with
  | ind n ih =>
    by_cases hsmall : n < 10
    · rw [Nat.toDigits_of_lt_base hsmall] at h
      exact Nat.digitChar_eq_zero.1 (Option.some.inj h)
    · rw [Nat.toDigits_of_base_le (by decide) (by omega),
        List.head?_append_of_ne_nil _ Nat.toDigits_ne_nil] at h
      have hzero := ih (n / 10) (by omega) h
      omega

theorem exponentPart_of_endsNumber {rest : List Char} (h : EndsNumber rest) :
    exponentPart rest = some (none, rest) := by
  cases rest with
  | nil => rfl
  | cons c rest =>
    obtain ⟨-, -, he, hE⟩ := h c rfl
    simp [exponentPart, he, hE]

/-- Digits are read up to where they end. -/
theorem unsignedNumber_toDigits (negative : Bool) (n : Nat) {rest : List Char} (hrest : EndsNumber rest) :
    unsignedNumber negative (Nat.toDigits 10 n ++ rest) =
      some (numberOf negative (Nat.toDigits 10 n) [] none false, rest) := by
  have htake : rest.takeWhile isDigit = [] ∧ rest.dropWhile isDigit = rest := by
    cases rest with
    | nil => exact ⟨rfl, rfl⟩
    | cons c rest => simp [(hrest c rfl).1]
  have hwhole : (Nat.toDigits 10 n ++ rest).takeWhile isDigit = Nat.toDigits 10 n := by
    rw [List.takeWhile_append_of_pos fun c hc => isDigit_toDigits hc, htake.1, List.append_nil]
  have hbehind : (Nat.toDigits 10 n ++ rest).dropWhile isDigit = rest := by
    rw [List.dropWhile_append_of_pos fun c hc => isDigit_toDigits hc, htake.2]
  -- A first zero stands alone.
  have hfirst : (Nat.toDigits 10 n).head? = some '0' → (Nat.toDigits 10 n).length = 1 := by
    intro hhead
    rw [eq_zero_of_head?_toDigits hhead, Nat.toDigits_zero]
    rfl
  have hplain : ((Nat.toDigits 10 n).isEmpty ||
      (Nat.toDigits 10 n).head? == some '0' && (Nat.toDigits 10 n).length != 1) = false := by
    simpa [Nat.toDigits_ne_nil] using hfirst
  simp only [unsignedNumber, hwhole, hbehind, hplain]
  cases rest with
  | nil => rfl
  | cons c rest =>
    have hpoint : c ≠ '.' := (hrest c rfl).2.1
    simp [exponentPart_of_endsNumber hrest, hpoint]

/-- The integer of digits without a sign. -/
theorem numberOf_toDigits {n : Nat} (h : n < significandBound) :
    numberOf false (Nat.toDigits 10 n) [] none false = some (.integer n) := by
  simp [numberOf, gather_toDigits h]

/-- The integer of digits behind a sign. -/
theorem numberOf_toDigits_negative {n : Nat} (hpos : n ≠ 0) (h : n ≤ 2 ^ 63) :
    numberOf true (Nat.toDigits 10 n) [] none false = some (.integer (-n)) := by
  have hfits : n < significandBound := h.trans_lt (by decide)
  have hbound : n ≤ Nat.pow 2 63 := h
  simp [numberOf, gather_toDigits hfits, hpos, hbound]

end Reader

/-- Whether a number is an integer of sixty-four bits, with a sign or without. -/
def Number.Exact : Number → Prop
  | .integer n => -(Nat.pow 2 63 : Int) ≤ n ∧ n < (Nat.pow 2 64 : Int)
  | .float _ => False

namespace Reader

theorem scalar_of_isDigit {c : Char} {cs : List Char} (h : isDigit c = true) :
    scalar (c :: cs) = (unsignedNumber false (c :: cs)).map fun (n, rest) => (.number n, rest) := by
  rw [scalar.eq_def]
  split <;> simp_all [isDigit]

/-- The characters of an integer: its digits, with the sign in front of them if it is negative. -/
theorem toList_text_integer (n : Int) : (Number.integer n).text.toList =
    if 0 ≤ n then Nat.toDigits 10 n.toNat else '-' :: Nat.toDigits 10 (-n).toNat := by
  rw [Number.text, Int.toString_eq_repr, Int.repr_eq_if]
  split_ifs
  · rw [Nat.repr_eq_ofList_toDigits, String.toList_ofList]
  · rw [Nat.repr_eq_ofList_toDigits, String.toList_append]
    exact congrArg ('-' :: ·) String.toList_ofList

theorem exists_text_eq_cons {n : Number} (hexact : n.Exact) :
    ∃ c cs, n.text.toList = c :: cs ∧ (isDigit c = true ∨ c = '-') := by
  cases n with
  | float x => exact hexact.elim
  | integer n =>
    rw [toList_text_integer]
    split_ifs
    · obtain ⟨c, cs, hdigits⟩ := List.exists_cons_of_ne_nil (Nat.toDigits_ne_nil (n := n.toNat) (b := 10))
      exact ⟨c, cs, hdigits, .inl (isDigit_toDigits (hdigits ▸ List.mem_cons_self))⟩
    · exact ⟨_, _, rfl, .inr rfl⟩

/-- An integer is read back, up to where it ends. -/
theorem scalar_number {n : Number} {rest : List Char} (hexact : n.Exact) (hrest : EndsNumber rest) :
    scalar (n.text.toList ++ rest) = some (.number (some n), rest) := by
  cases n with
  | float x => exact hexact.elim
  | integer n =>
    obtain ⟨hlow, hhigh⟩ := hexact
    rw [toList_text_integer]
    split_ifs with hsign
    · have hfits : n.toNat < significandBound := (Int.toNat_lt hsign).2 hhigh
      have hnumber := unsignedNumber_toDigits false n.toNat hrest
      rw [numberOf_toDigits hfits, Int.toNat_of_nonneg hsign] at hnumber
      obtain ⟨c, cs, hdigits⟩ := List.exists_cons_of_ne_nil (Nat.toDigits_ne_nil (n := n.toNat) (b := 10))
      have hmem : c ∈ Nat.toDigits 10 n.toNat := hdigits ▸ List.mem_cons_self
      rw [hdigits, List.cons_append] at hnumber ⊢
      rw [scalar_of_isDigit (isDigit_toDigits hmem), hnumber]
      rfl
    · have hnumber := unsignedNumber_toDigits true (-n).toNat hrest
      have hvalue : -((-n).toNat : Int) = n := by omega
      have hbound : (-n).toNat ≤ 2 ^ 63 := Int.toNat_le.2 (Int.neg_le_of_neg_le hlow)
      rw [numberOf_toDigits_negative (by omega) hbound, hvalue] at hnumber
      rw [List.cons_append, scalar, hnumber]
      rfl

end Reader
end Json
end Inquiry
