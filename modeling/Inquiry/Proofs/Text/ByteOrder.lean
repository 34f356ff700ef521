import Mathlib.Tactic.SplitIfs

/-!
# Proofs.Text.ByteOrder — the order of texts

Texts are in the order of their code points. That is the order of their bytes in UTF-8, in which a greater
code point has a greater first byte, or the same first byte and greater ones behind it.

* `Text.encode_lt`: the bytes of two code points differ in their order, whatever follows them.
* `Text.lt_iff_bytes_lt`: a text is in front of another if its bytes are.
-/

namespace Inquiry
namespace Text

open String (utf8EncodeChar)

/-- The bytes of a text in UTF-8. -/
def bytes (s : String) : List UInt8 := s.toUTF8.data.toList

theorem bytes_eq (s : String) : bytes s = s.toList.flatMap utf8EncodeChar := by
  have hbytes : s.toUTF8 = s.toList.utf8Encode := by
    rw [String.toUTF8_eq_toByteArray, ← String.toByteArray_ofList, String.ofList_toList]
  rw [bytes, hbytes]
  exact List.toList_data_toByteArray

theorem cons_byte_lt_iff {m n : Nat} (hm : m < 256) (hn : n < 256) {xs ys : List UInt8} :
    UInt8.ofNat m :: xs < UInt8.ofNat n :: ys ↔ m < n ∨ m = n ∧ xs < ys := by
  rw [List.cons_lt_cons_iff, UInt8.ofNat_lt_iff_lt hm hn, ← UInt8.toNat_inj, UInt8.toNat_ofNat_of_lt' hm,
    UInt8.toNat_ofNat_of_lt' hn]

/-- The lesser of two numbers has the lesser quotient, or the same quotient and the lesser remainder. -/
theorem div_lt_or_mod_lt {m n b : Nat} (h : m < n) : m / b < n / b ∨ m / b = n / b ∧ m % b < n % b := by
  rcases Nat.lt_or_eq_of_le (Nat.div_le_div_right (c := b) (Nat.le_of_lt h)) with hlt | heq
  · exact .inl hlt
  · refine .inr ⟨heq, ?_⟩
    have hm := Nat.div_add_mod m b
    have hn := Nat.div_add_mod n b
    rw [heq] at hm
    omega

/-- A longer form starts with a greater byte; forms of one length compare as the digits of the code points. -/
theorem encode_lt {c d : Char} (h : c < d) (xs ys : List UInt8) :
    utf8EncodeChar c ++ xs < utf8EncodeChar d ++ ys := by
  have hlt : c.val.toNat < d.val.toNat := h
  have hd : d.val.toNat < 1114112 := by
    rcases d.valid with h | h
    · omega
    · omega
  -- Each byte holds a digit to the base 64.
  have hdigits : ∀ n, n / 4096 = n / 64 / 64 ∧ n / 262144 = n / 64 / 64 / 64 := by omega
  simp only [String.utf8EncodeChar, hdigits]
  generalize c.val.toNat = m at *
  generalize d.val.toNat = n at *
  have hlast := div_lt_or_mod_lt (b := 64) hlt
  split_ifs
  all_goals
    simp (disch := omega) only [List.cons_append, List.nil_append, cons_byte_lt_iff]
    omega

theorem flatMap_encode_lt {cs ds : List Char} (h : cs < ds) :
    cs.flatMap utf8EncodeChar < ds.flatMap utf8EncodeChar := by
  induction h with
  | @nil d ds =>
    have hne : (d :: ds).flatMap utf8EncodeChar ≠ [] := by
      rw [List.flatMap_cons]
      exact List.append_ne_nil_of_left_ne_nil String.utf8EncodeChar_ne_nil _
    cases henc : (d :: ds).flatMap utf8EncodeChar with
    | nil => exact absurd henc hne
    | cons _ _ => exact .nil
  | rel hlt =>
    rw [List.flatMap_cons, List.flatMap_cons]
    exact encode_lt hlt _ _
  | cons _ ih =>
    rw [List.flatMap_cons, List.flatMap_cons]
    exact List.append_left_lt ih

/-- A text is in front of another if its bytes are. -/
theorem lt_iff_bytes_lt {s t : String} : s < t ↔ bytes s < bytes t := by
  have hmono : ∀ {s t : String}, s < t → bytes s < bytes t := by
    intro s t h
    rw [bytes_eq, bytes_eq]
    exact flatMap_encode_lt h
  refine ⟨hmono, fun hbytes => Decidable.byContradiction fun hnot => ?_⟩
  by_cases heq : s = t
  · exact List.lt_irrefl _ (heq ▸ hbytes)
  · have hts : t < s := by
      apply Decidable.byContradiction
      intro hnot'
      exact heq (String.le_antisymm (String.not_lt.1 hnot') (String.not_lt.1 hnot))
    exact List.lt_irrefl _ (List.lt_trans hbytes (hmono hts))

end Text
end Inquiry
