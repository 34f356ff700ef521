import Inquiry.Text.LowerCase
import Mathlib.Data.List.Infix

/-!
# Proofs.Text.LowerCase — lower-casing a part of a text

The lower-case form of a text is not made of the forms of its parts: a capital sigma at the end of a part may be
the end of a word there, and in the middle of one in the whole. All other letters keep their forms.

* `lowerWithin` is what becomes of a part of a text; `lowerFrom_append` takes a text apart.
* `isSettled`: no capital sigma of a part owes its form to what stands around the part.
* `lowerFrom_infix`: a settled part has the same form everywhere.
* `exists_not_infix`: what is not settled has another form next to some letter.
-/

namespace Inquiry
namespace Text

variable {c : Char} {before after cs text : List Char}

/-! ## What stands around a letter -/

/-- Whether a character is the capital sigma. -/
def isSigma (c : Char) : Bool := c.toNat == 0x3A3

/-- Whether a text has no character that is not passed over. -/
def isPassedOver (cs : List Char) : Bool := cs.all isCaseIgnorable

theorem meetsCased_cons :
    meetsCased (c :: cs) = if isCaseIgnorable c = true then meetsCased cs else isCased c := by
  by_cases h : isCaseIgnorable c = true <;> simp [meetsCased, h]

/-- The first letter of a text decides, if it has one. -/
theorem meetsCased_append :
    meetsCased (cs ++ after) = if isPassedOver cs = true then meetsCased after else meetsCased cs := by
  induction cs with
  | nil => simp [isPassedOver]
  | cons c cs ih =>
    rw [List.cons_append, meetsCased_cons, meetsCased_cons, ih]
    by_cases h : isCaseIgnorable c = true <;> simp [isPassedOver, h]

theorem meetsCased_of_isPassedOver (h : isPassedOver cs = true) : meetsCased cs = false := by
  have hnone : meetsCased (cs ++ []) = _ := meetsCased_append
  rw [List.append_nil, if_pos h] at hnone
  exact hnone

/-- Whether a sigma has the same form whatever else stands around it: a cased letter follows, or the letters on
both sides are there, or the one in front is there and not cased. -/
def isSettledSigma (before after : List Char) : Bool :=
  meetsCased after || (!isPassedOver before && (!meetsCased before || !isPassedOver after))

theorem isFinalSigma_append (h : isSettledSigma before after = true) (front back : List Char) :
    isFinalSigma (before ++ front) (after ++ back) = isFinalSigma before after := by
  simp only [isFinalSigma, meetsCased_append]
  cases hafter : isPassedOver after <;> cases hbefore : isPassedOver before <;>
    cases hfollows : meetsCased after <;> cases hprecedes : meetsCased before <;>
    simp_all [isSettledSigma, meetsCased_of_isPassedOver]

/-! ## Parts of a text -/

/-- The lower-case form of a character between two texts, the first of them with its last character first. -/
def image (before after : List Char) (c : Char) : List Char :=
  if isSigma c then [Char.ofNat (if isFinalSigma before after then 0x3C2 else 0x3C3)] else lowerChar c

/-- What becomes of a part of a text, with a text in front, its last character first, and one behind. -/
def lowerWithin (before after : List Char) : List Char → List Char
  | [] => []
  | c :: cs => image before (cs ++ after) c ++ lowerWithin (c :: before) after cs

theorem lowerFrom_cons : lowerFrom before (c :: cs) = image before cs c ++ lowerFrom (c :: before) cs := by
  simp only [lowerFrom, image, isSigma, beq_iff_eq]

/-- The lower-case form of a text, part by part. -/
theorem lowerFrom_append :
    lowerFrom before (cs ++ after) = lowerWithin before after cs ++ lowerFrom (cs.reverse ++ before) after := by
  induction cs generalizing before with
  | nil => rfl
  | cons c cs ih =>
    rw [List.cons_append, lowerFrom_cons, ih, lowerWithin, List.reverse_cons, List.append_assoc, List.append_assoc]
    rfl

theorem lowerWithin_nil : lowerWithin before [] cs = lowerFrom before cs := by
  have hsplit : lowerFrom before (cs ++ []) = _ := lowerFrom_append
  rw [List.append_nil, lowerFrom, List.append_nil] at hsplit
  exact hsplit.symm

/-- Whether no capital sigma of a part owes its form to what stands around the part, the beginning of which is
`before`, its last character first. -/
def settledFrom (before : List Char) : List Char → Bool
  | [] => true
  | c :: cs => (!isSigma c || isSettledSigma before cs) && settledFrom (c :: before) cs

/-- Whether no capital sigma of a text owes its form to what stands around the text. -/
def isSettled (text : String) : Bool := settledFrom [] text.toList

theorem lowerWithin_of_settled (h : settledFrom before cs = true) (front back : List Char) :
    lowerWithin (before ++ front) back cs = lowerFrom before cs := by
  induction cs generalizing before with
  | nil => rfl
  | cons c cs ih =>
    simp only [settledFrom, Bool.and_eq_true, Bool.or_eq_true, Bool.not_eq_true'] at h
    have himage : image (before ++ front) (cs ++ back) c = image before cs c := by
      rcases h.1 with hother | hsettled
      · simp [image, hother]
      · simp only [image, isFinalSigma_append hsettled]
    rw [lowerWithin, lowerFrom_cons, himage, ← List.cons_append, ih h.2]

/-- A part without unsettled sigmas has the same lower-case form wherever it stands. -/
theorem lowerFrom_infix (hsettled : settledFrom [] cs = true) (h : cs <:+: text) :
    lowerFrom [] cs <:+: lowerFrom [] text := by
  obtain ⟨front, back, rfl⟩ := h
  rw [List.append_assoc, lowerFrom_append, lowerFrom_append, List.append_nil]
  have hsame := lowerWithin_of_settled hsettled front.reverse back
  rw [List.nil_append] at hsame
  rw [hsame, ← List.append_assoc]
  exact List.infix_append _ _ _

/-! ## Parts that are not settled -/

/-- A sigma is not settled if a cased letter in front would make it the end of a word, or one behind would make it
the middle of one. -/
theorem not_settled_cases (h : isSettledSigma before after = false) :
    (isPassedOver before = true ∧ meetsCased after = false) ∨
      (meetsCased before = true ∧ isPassedOver after = true) := by
  cases hbefore : isPassedOver before <;> cases hafter : isPassedOver after <;>
    cases hfollows : meetsCased after <;> cases hprecedes : meetsCased before <;>
    simp_all [isSettledSigma]

theorem exists_of_not_settled (h : settledFrom before cs = false) :
    ∃ front c back, cs = front ++ c :: back ∧ isSigma c = true ∧
      isSettledSigma (front.reverse ++ before) back = false := by
  induction cs generalizing before with
  | nil => cases h
  | cons c cs ih =>
    simp only [settledFrom, Bool.and_eq_false_iff, Bool.or_eq_false_iff, Bool.not_eq_false'] at h
    rcases h with hfirst | hrest
    · exact ⟨[], c, cs, rfl, hfirst⟩
    · obtain ⟨front, d, back, rfl, hd⟩ := ih hrest
      exact ⟨c :: front, d, back, rfl, by simpa using hd⟩

theorem lowerWithin_append {back : List Char} : lowerWithin before after (cs ++ back) =
    lowerWithin before (back ++ after) cs ++ lowerWithin (cs.reverse ++ before) after back := by
  induction cs generalizing before with
  | nil => rfl
  | cons c cs ih => simp [lowerWithin, ih]

section Counting

variable {x : Char} {before' after' : List Char}

theorem count_lowerWithin_le (cs front : List Char)
    (h : ∀ front back c, (image (front ++ before') (back ++ after') c).count x ≤
      (image (front ++ before) (back ++ after) c).count x) (back : List Char) :
    (lowerWithin (front ++ before') (back ++ after') cs).count x ≤
      (lowerWithin (front ++ before) (back ++ after) cs).count x := by
  induction cs generalizing front with
  | nil => exact Nat.le_refl _
  | cons c cs ih =>
    simp only [lowerWithin, List.count_append]
    have hfirst := h front (cs ++ back) c
    have hrest := ih (c :: front)
    simp only [List.append_assoc, List.cons_append] at hfirst hrest ⊢
    exact Nat.add_le_add hfirst hrest

/-- A letter of the lower-case form gets rarer when that happens at one place and nowhere the opposite. -/
theorem count_lowerWithin_lt {front back : List Char}
    (h : ∀ front back c, (image (front ++ before') (back ++ after') c).count x ≤
      (image (front ++ before) (back ++ after) c).count x)
    (hlt : (image (front.reverse ++ before') (back ++ after') c).count x <
      (image (front.reverse ++ before) (back ++ after) c).count x) :
    (lowerWithin before' after' (front ++ c :: back)).count x <
      (lowerWithin before after (front ++ c :: back)).count x := by
  have hfront := count_lowerWithin_le front [] h (c :: back)
  have hback := count_lowerWithin_le back (c :: front.reverse) h []
  simp only [lowerWithin_append, lowerWithin, List.count_append]
  simp only [List.nil_append, List.cons_append] at hfront hback ⊢
  omega

end Counting

theorem meetsCased_A (h : isPassedOver cs = true) : meetsCased (cs ++ ['A']) = true := by
  have hA : meetsCased ['A'] = true := by decide +kernel
  rw [meetsCased_append, if_pos h, hA]

/-- A cased letter in front makes more sigmas the end of a word. -/
theorem isFinalSigma_front (h : isFinalSigma before after = true) :
    isFinalSigma (before ++ ['A']) after = true := by
  simp only [isFinalSigma, Bool.and_eq_true] at h ⊢
  refine ⟨?_, h.2⟩
  cases hbefore : isPassedOver before with
  | true => exact meetsCased_A hbefore
  | false => simpa [meetsCased_append, hbefore] using h.1

/-- A cased letter behind makes fewer sigmas the end of a word. -/
theorem isFinalSigma_behind (h : isFinalSigma before (after ++ ['A']) = true) :
    isFinalSigma before after = true := by
  simp only [isFinalSigma, Bool.and_eq_true, Bool.not_eq_true'] at h ⊢
  refine ⟨h.1, ?_⟩
  cases hafter : isPassedOver after with
  | true => exact meetsCased_of_isPassedOver hafter
  | false => simpa [meetsCased_append, hafter] using h.2

/-- The small sigma in the middle of a word. -/
def middleSigma : Char := Char.ofNat 0x3C3

/-- The small sigma at the end of a word. -/
def finalSigma : Char := Char.ofNat 0x3C2

theorem count_image (h : isSigma c = true) :
    (image before after c).count middleSigma = (if isFinalSigma before after then 0 else 1) ∧
    (image before after c).count finalSigma = (if isFinalSigma before after then 1 else 0) := by
  rw [image, if_pos h]
  cases isFinalSigma before after <;> decide

theorem image_of_not_sigma (h : isSigma c = false) : image before after c = lowerChar c := by
  simp [image, h]

theorem count_image_front (before after : List Char) (c : Char) :
    (image (before ++ ['A']) after c).count middleSigma ≤ (image before after c).count middleSigma := by
  cases hc : isSigma c with
  | false => simp only [image_of_not_sigma hc, Nat.le_refl]
  | true =>
    rw [(count_image hc).1, (count_image hc).1]
    cases hfinal : isFinalSigma before after with
    | true => simp [isFinalSigma_front hfinal]
    | false => split <;> simp

theorem count_image_behind (before after : List Char) (c : Char) :
    (image before (after ++ ['A']) c).count finalSigma ≤ (image before after c).count finalSigma := by
  cases hc : isSigma c with
  | false => simp only [image_of_not_sigma hc, Nat.le_refl]
  | true =>
    rw [(count_image hc).2, (count_image hc).2]
    cases hfinal : isFinalSigma before (after ++ ['A']) with
    | true => simp [isFinalSigma_behind hfinal]
    | false => simp

/-- With a letter in front, a sigma may end a word that was in the middle of none. -/
theorem count_front_lt {front back : List Char} (hsigma : isSigma c = true)
    (hpassed : isPassedOver front.reverse = true) (hnone : meetsCased back = false) :
    (lowerFrom [] ('A' :: (front ++ c :: back))).count middleSigma <
      (lowerFrom [] (front ++ c :: back)).count middleSigma := by
  have htext : lowerFrom [] ('A' :: (front ++ c :: back)) = 'a' :: lowerWithin ['A'] [] (front ++ c :: back) :=
    lowerFrom_cons.trans (congrArg ('a' :: ·) lowerWithin_nil.symm)
  rw [htext, ← lowerWithin_nil, List.count_cons_of_ne (by decide)]
  refine count_lowerWithin_lt (fun before after d => ?_) ?_
  · simpa using count_image_front before after d
  · have hfinal : isFinalSigma (front.reverse ++ ['A']) back = true := by
      simp [isFinalSigma, meetsCased_A hpassed, hnone]
    have hmiddle : isFinalSigma front.reverse back = false := by
      simp [isFinalSigma, meetsCased_of_isPassedOver hpassed]
    simp [(count_image hsigma).1, hfinal, hmiddle]

/-- With a letter behind, a sigma may be in the middle of a word that was at the end of one. -/
theorem count_behind_lt {front back : List Char} (hsigma : isSigma c = true)
    (hcased : meetsCased front.reverse = true) (hpassed : isPassedOver back = true) :
    (lowerFrom [] (front ++ c :: back ++ ['A'])).count finalSigma <
      (lowerFrom [] (front ++ c :: back)).count finalSigma := by
  have htext : lowerFrom [] (front ++ c :: back ++ ['A']) =
      lowerWithin [] ['A'] (front ++ c :: back) ++ ['a'] := lowerFrom_append
  rw [htext, ← lowerWithin_nil, List.count_append, List.count_cons_of_ne (by decide), List.count_nil, Nat.add_zero]
  refine count_lowerWithin_lt (fun before after d => ?_) ?_
  · simpa using count_image_behind before after d
  · have hmiddle : isFinalSigma front.reverse (back ++ ['A']) = false := by
      simp [isFinalSigma, meetsCased_A hpassed]
    have hfinal : isFinalSigma front.reverse back = true := by
      simp [isFinalSigma, hcased, meetsCased_of_isPassedOver hpassed]
    simp [(count_image hsigma).2, hfinal, hmiddle]

/-- A part that is not settled has another form next to some letter. -/
theorem exists_not_infix (h : settledFrom [] cs = false) :
    ∃ text, cs <:+: text ∧ ¬ lowerFrom [] cs <:+: lowerFrom [] text := by
  have hrarer : ∀ {text : List Char} (x : Char), (lowerFrom [] text).count x < (lowerFrom [] cs).count x →
      ¬ lowerFrom [] cs <:+: lowerFrom [] text :=
    fun x hlt hoccurs => Nat.not_le_of_lt hlt (hoccurs.sublist.count_le x)
  obtain ⟨front, c, back, rfl, hsigma, hopen⟩ := exists_of_not_settled h
  rw [List.append_nil] at hopen
  rcases not_settled_cases hopen with ⟨hpassed, hnone⟩ | ⟨hcased, hpassed⟩
  · exact ⟨_, (List.suffix_cons 'A' _).isInfix, hrarer _ (count_front_lt hsigma hpassed hnone)⟩
  · exact ⟨_, (List.prefix_append _ ['A']).isInfix, hrarer _ (count_behind_lt hsigma hcased hpassed)⟩

end Text
end Inquiry
