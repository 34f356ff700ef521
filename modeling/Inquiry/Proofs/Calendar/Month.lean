import Inquiry.Calendar.Instant
import Mathlib.Algebra.Order.Ring.Int
import Mathlib.Order.Monotone.Basic

/-!
# Proofs.Calendar.Month — the months that days lie in

Years and months are cut out of the days without gaps, however far from 1970: every day lies in exactly one
month, and the first day of that month is the last day up to it that starts a month.

* `yearOfDay_spec`, `monthOfDay_spec`, `ofDay_spec`: the year and the month that are found for a day are those
  that it lies in.
* `monthStart_le_iff`: a month starts at or before a day exactly if it is no later than the month of the day.
* `toDay_ofDay`, `ofDay_toDay`: every day has a date, and every valid date is that of its day.
-/

namespace Inquiry
namespace Calendar

/-! ## Years -/

theorem isLeap_iff {year : Int} : isLeap year = true ↔ year % 4 = 0 ∧ (year % 100 ≠ 0 ∨ year % 400 = 0) := by
  simp [isLeap]

/-- A year is as long as its twelve months. -/
theorem daysBeforeYear_succ (year : Int) :
    daysBeforeYear (year + 1) = daysBeforeYear year + daysBeforeMonth (isLeap year) 12 := by
  by_cases hleap : isLeap year = true
  · have hrule := isLeap_iff.1 hleap
    simp only [daysBeforeYear, daysBeforeMonth, hleap]
    simp
    omega
  · have hrule := mt isLeap_iff.2 hleap
    simp only [daysBeforeYear, daysBeforeMonth, hleap]
    simp
    omega

theorem yearOfDay_spec (day : Int) :
    daysBeforeYear (yearOfDay day) ≤ day ∧ day < daysBeforeYear (yearOfDay day + 1) := by
  -- The guess by the mean length of a year is off by one year at most.
  have hlow : daysBeforeYear (day * 400 / 146097 - 1) ≤ day := by
    simp only [daysBeforeYear]
    omega
  have hhigh : day < daysBeforeYear (day * 400 / 146097 + 2) := by
    simp only [daysBeforeYear]
    omega
  unfold yearOfDay
  dsimp only
  split
  · rename_i hearlier
    rw [Int.sub_add_cancel]
    exact ⟨hlow, hearlier⟩
  · split
    · rename_i hlater
      rw [Int.add_assoc]
      exact ⟨hlater, hhigh⟩
    · omega

/-! ## Months of a year -/

theorem daysBeforeMonth_zero (leap : Bool) : daysBeforeMonth leap 0 = 0 := by
  cases leap <;> rfl

theorem daysBeforeMonth_lt (leap : Bool) :
    ∀ month < 12, daysBeforeMonth leap month < daysBeforeMonth leap (month + 1) := by
  cases leap <;> decide

theorem daysBeforeMonth_mono (leap : Bool) : Monotone (daysBeforeMonth leap) := by
  apply monotone_nat_of_le_succ
  intro month
  by_cases h : month < 12
  · exact Nat.le_of_lt (daysBeforeMonth_lt leap month h)
  · -- There are no days behind the twelfth month.
    obtain ⟨k, rfl⟩ := Nat.exists_eq_add_of_le' (Nat.le_of_not_lt h)
    simp [daysBeforeMonth]

/-- Among rising bounds, the number of those that are not above a value is the place of the value. -/
theorem countP_range_spec {f : Nat → Nat} (hf : Monotone f) {n x : Nat} (hlow : f 0 ≤ x) (hhigh : x < f (n + 1)) :
    let k := (List.range n).countP fun m => f (m + 1) ≤ x
    k ≤ n ∧ f k ≤ x ∧ x < f (k + 1) := by
  induction n with
  | zero => exact ⟨Nat.le_refl _, hlow, hhigh⟩
  | succ n ih =>
    rw [List.range_succ, List.countP_append]
    by_cases hle : f (n + 1) ≤ x
    · -- If the last bound is not above the value, none is.
      have hall : (List.range n).countP (fun m => f (m + 1) ≤ x) = n := by
        have hiff := List.countP_eq_length (p := fun m => decide (f (m + 1) ≤ x)) (l := List.range n)
        rw [List.length_range] at hiff
        apply hiff.2
        intro m hm
        have hm : m < n := List.mem_range.1 hm
        exact decide_eq_true ((hf (by omega)).trans hle)
      simp [hall, hle, hhigh]
    · obtain ⟨hk, hplace⟩ := ih (Nat.lt_of_not_le hle)
      simp only [List.countP_singleton, hle, decide_false, Bool.false_eq_true, if_false, Nat.add_zero]
      exact ⟨Nat.le_succ_of_le hk, hplace⟩

theorem monthOfDay_spec {leap : Bool} {day : Nat} (h : day < daysBeforeMonth leap 12) :
    monthOfDay leap day < 12 ∧ daysBeforeMonth leap (monthOfDay leap day) ≤ day ∧
      day < daysBeforeMonth leap (monthOfDay leap day + 1) := by
  have hzero : daysBeforeMonth leap 0 ≤ day := by
    rw [daysBeforeMonth_zero]
    exact Nat.zero_le day
  obtain ⟨hle, hplace⟩ := countP_range_spec (daysBeforeMonth_mono leap) (n := 11) hzero h
  exact ⟨Nat.lt_succ_of_le hle, hplace⟩

/-! ## Dates -/

theorem ofDay_spec (day : Int) :
    (Date.ofDay day).month < 12 ∧
      daysBeforeYear (Date.ofDay day).year + daysBeforeMonth (isLeap (Date.ofDay day).year) (Date.ofDay day).month
        ≤ day + epochDay ∧
      day + epochDay < daysBeforeYear (Date.ofDay day).year +
        daysBeforeMonth (isLeap (Date.ofDay day).year) ((Date.ofDay day).month + 1) := by
  obtain ⟨hfrom, hto⟩ := yearOfDay_spec (day + epochDay)
  rw [daysBeforeYear_succ] at hto
  simp only [Date.ofDay]
  generalize yearOfDay (day + epochDay) = year at *
  have hday : (day + epochDay - daysBeforeYear year).toNat < daysBeforeMonth (isLeap year) 12 := by omega
  obtain ⟨hmonth, hlow, hhigh⟩ := monthOfDay_spec hday
  refine ⟨hmonth, ?_, ?_⟩ <;> omega

theorem toDay_ofDay (day : Int) : (Date.ofDay day).toDay = day := by
  obtain ⟨-, hlow, -⟩ := ofDay_spec day
  simp only [Date.ofDay, Date.toDay] at hlow ⊢
  omega

/-! ## Months counted from January of the year 0 -/

/-- The month that a day lies in. -/
def monthOf (day : Int) : Int := (Date.ofDay day).year * 12 + (Date.ofDay day).month

/-- The first day of a month, given by its year; the thirteenth month is the first of the next year. -/
theorem monthStart_eq (year : Int) {month : Nat} (h : month ≤ 12) :
    monthStart (year * 12 + month) = daysBeforeYear year + daysBeforeMonth (isLeap year) month - epochDay := by
  by_cases hlast : month = 12
  · subst hlast
    have hyear : (year * 12 + (12 : Nat)) / 12 = year + 1 := by omega
    have hmonth : ((year * 12 + (12 : Nat)) % 12).toNat = 0 := by omega
    rw [monthStart, hyear, hmonth, Date.toDay]
    simp only [daysBeforeYear_succ, daysBeforeMonth_zero]
    omega
  · have hyear : (year * 12 + month) / 12 = year := by omega
    have hmonth : ((year * 12 + month) % 12).toNat = month := by omega
    rw [monthStart, hyear, hmonth, Date.toDay]
    dsimp only
    omega

theorem monthStart_lt_succ (month : Int) : monthStart month < monthStart (month + 1) := by
  obtain ⟨year, k, hk, rfl⟩ : ∃ (year : Int) (k : Nat), k < 12 ∧ month = year * 12 + k :=
    ⟨month / 12, (month % 12).toNat, by omega, by omega⟩
  have hnext : year * 12 + (k : Int) + 1 = year * 12 + (k + 1 : Nat) := by omega
  have hlt := daysBeforeMonth_lt (isLeap year) k hk
  rw [hnext, monthStart_eq year (by omega), monthStart_eq year (by omega)]
  omega

theorem monthStart_lt_monthStart {month month' : Int} : monthStart month < monthStart month' ↔ month < month' :=
  (strictMono_int_of_lt_succ monthStart_lt_succ).lt_iff_lt

theorem monthStart_le_monthStart {month month' : Int} : monthStart month ≤ monthStart month' ↔ month ≤ month' :=
  (strictMono_int_of_lt_succ monthStart_lt_succ).le_iff_le

theorem monthOf_spec (day : Int) : monthStart (monthOf day) ≤ day ∧ day < monthStart (monthOf day + 1) := by
  obtain ⟨hmonth, hlow, hhigh⟩ := ofDay_spec day
  have hnext : monthOf day + 1 = (Date.ofDay day).year * 12 + ((Date.ofDay day).month + 1 : Nat) := by
    simp only [monthOf]
    omega
  rw [hnext, monthOf, monthStart_eq _ hmonth.le, monthStart_eq _ (Nat.lt_iff_add_one_le.1 hmonth)]
  omega

/-- A month starts at or before a day exactly if it is no later than the month of the day. -/
theorem monthStart_le_iff {month day : Int} : monthStart month ≤ day ↔ month ≤ monthOf day := by
  obtain ⟨hlow, hhigh⟩ := monthOf_spec day
  constructor
  · intro h
    exact Int.lt_add_one_iff.1 (monthStart_lt_monthStart.1 (h.trans_lt hhigh))
  · intro h
    exact (monthStart_le_monthStart.2 h).trans hlow

theorem monthOf_eq {month day : Int} (hlow : monthStart month ≤ day) (hhigh : day < monthStart (month + 1)) :
    monthOf day = month := by
  apply le_antisymm
  · by_contra hlt
    exact absurd (monthStart_le_iff.2 (not_le.1 hlt)) (not_le.2 hhigh)
  · exact monthStart_le_iff.1 hlow

theorem monthOf_monthStart (month : Int) : monthOf (monthStart month) = month :=
  monthOf_eq le_rfl (monthStart_lt_succ month)

theorem ofDay_toDay {d : Date} (h : d.isValid = true) : Date.ofDay d.toDay = d := by
  simp only [Date.isValid, Bool.and_eq_true, decide_eq_true_eq] at h
  obtain ⟨⟨hmonth, hpos⟩, hday⟩ := h
  rw [daysInMonth] at hday
  have hto := toDay_ofDay d.toDay
  have hfound := (ofDay_spec d.toDay).1
  have hmonthOf : monthOf d.toDay = d.year * 12 + d.month := by
    have hnext : d.year * 12 + (d.month : Int) + 1 = d.year * 12 + (d.month + 1 : Nat) := by omega
    apply monthOf_eq
    · rw [monthStart_eq _ hmonth.le, Date.toDay]
      omega
    · rw [hnext, monthStart_eq _ (Nat.lt_iff_add_one_le.1 hmonth), Date.toDay]
      omega
  -- The number of a month determines its year and its place in the year, and then the day is the same too.
  rw [monthOf] at hmonthOf
  generalize Date.ofDay d.toDay = found at *
  obtain ⟨year, month, day⟩ := found
  obtain ⟨year', month', day'⟩ := d
  obtain rfl : year = year' := by dsimp only at *; omega
  obtain rfl : month = month' := by dsimp only at *; omega
  simp only [Date.toDay] at hto
  congr
  omega

/-- The first day of a month has the date that it should have. -/
theorem ofDay_monthStart (month : Int) :
    Date.ofDay (monthStart month) = ⟨month / 12, (month % 12).toNat, 1⟩ := by
  have hlt : (month % 12).toNat < 12 := by omega
  have hdays := daysBeforeMonth_lt (isLeap (month / 12)) _ hlt
  apply ofDay_toDay
  simp only [Date.isValid, Bool.and_eq_true, decide_eq_true_eq]
  rw [daysInMonth]
  omega

/-- The last day of February of the year 0, and the day after it. -/
example : Date.ofDay (monthStart 2 - 1) = ⟨0, 1, 29⟩ ∧ Date.ofDay (monthStart 2) = ⟨0, 2, 1⟩ := by decide

end Calendar
end Inquiry
