import Inquiry.Proofs.Corpus.Narrowing
import Inquiry.Proofs.Corpus.Partition

/-!
# Proofs.Corpus.Safety — when analyses fail, and that their arithmetic does not

The starts of buckets are integers here. A machine computes them in words of sixty-four bits, with a year of
thirty-two, and must not leave these on the way: spans are of thirty-two bits, instants are half a million years
apart, and the span of a context is not checked by anybody.

* `Checked`: arithmetic of words that has no result where a machine would wrap around, cut off or trap.
* `Interval.bucketStart64?`: the start of a bucket, computed so; `Interval.bucketStart64?_eq`: no step fails, and the
  result is the start.
* `Spec.FilterFails`, `Spec.Spanless`: the reasons that an analysis may fail for.
* `Corpus.analyze_safe`: an analysis fails for these and no others.
-/

namespace Inquiry

/-! ## Arithmetic of words -/

namespace Checked

/-- The word of sixty-four bits that an integer is, if it is one. -/
def word? (n : Int) : Option Int64 :=
  if -2 ^ 63 ≤ n ∧ n < 2 ^ 63 then some (.ofInt n) else none

/-- The sum of two words. -/
def add? (a b : Int64) : Option Int64 := word? (a.toInt + b.toInt)

/-- The difference of two words. -/
def sub? (a b : Int64) : Option Int64 := word? (a.toInt - b.toInt)

/-- The product of two words. -/
def mul? (a b : Int64) : Option Int64 := word? (a.toInt * b.toInt)

/-- The quotient of two words, rounded so that the remainder is not negative. There is none by zero. -/
def div? (a b : Int64) : Option Int64 := if b = 0 then none else word? (a.toInt / b.toInt)

/-- The remainder of two words that is not negative. There is none by zero. -/
def mod? (a b : Int64) : Option Int64 := if b = 0 then none else word? (a.toInt % b.toInt)

/-- The year of thirty-two bits that a word is, if it is one. -/
def year? (a : Int64) : Option Int32 :=
  if -2 ^ 31 ≤ a.toInt ∧ a.toInt < 2 ^ 31 then some (.ofInt a.toInt) else none

/-- The month from 1 to 12 that follows so many months of a year, if it is one. -/
def month? (a : Int64) : Option Nat :=
  if 1 ≤ a.toInt + 1 ∧ a.toInt + 1 ≤ 12 then some (a.toInt + 1).toNat else none

variable {a b : Int64} {n : Int}

theorem word?_eq (hlow : -2 ^ 63 ≤ n) (hhigh : n < 2 ^ 63) : ∃ w, word? n = some w ∧ w.toInt = n :=
  ⟨.ofInt n, if_pos ⟨hlow, hhigh⟩, Int64.toInt_ofInt_of_le hlow hhigh⟩

theorem ne_zero_of_toInt (h : 0 < b.toInt) : b ≠ 0 := by
  rintro rfl
  exact absurd h (by decide)

theorem div?_eq (h : 0 < b.toInt) : ∃ w, div? a b = some w ∧ w.toInt = a.toInt / b.toInt := by
  -- A quotient by a positive number is between zero and the dividend, or minus one.
  have habs := Int.natAbs_ediv_le_natAbs a.toInt b.toInt
  have hsign := Int.ediv_nonneg_iff_of_pos (a := a.toInt) h
  have hlow := a.le_toInt
  have hhigh := a.toInt_lt
  rw [div?, if_neg (ne_zero_of_toInt h)]
  exact word?_eq (by omega) (by omega)

theorem mod?_eq (h : 0 < b.toInt) : ∃ w, mod? a b = some w ∧ w.toInt = a.toInt % b.toInt := by
  have hlow := Int.emod_nonneg a.toInt h.ne'
  have hlt := Int.emod_lt_of_pos a.toInt h
  have hhigh := b.toInt_lt
  rw [mod?, if_neg (ne_zero_of_toInt h)]
  exact word?_eq (by omega) (by omega)

theorem year?_eq (hlow : -2 ^ 31 ≤ a.toInt) (hhigh : a.toInt < 2 ^ 31) :
    ∃ year, year? a = some year ∧ year.toInt = a.toInt :=
  ⟨.ofInt a.toInt, if_pos ⟨hlow, hhigh⟩, Int32.toInt_ofInt_of_le hlow hhigh⟩

theorem month?_eq (hlow : 0 ≤ a.toInt) (hhigh : a.toInt < 12) :
    ∃ month, month? a = some month ∧ month - 1 = a.toInt.toNat :=
  ⟨(a.toInt + 1).toNat, if_pos (by omega), by omega⟩

end Checked

namespace Interval

open Calendar
open Checked (word? add? sub? mul? div? mod? year? month? word?_eq div?_eq mod?_eq year?_eq month?_eq)

variable {interval : Interval} {span : UInt32} {t : Instant}

/-! ## Starts of buckets -/

/-- The start of a bucket of so many units of some seconds each, in words. -/
def secondsStart? (seconds units origin second : Int64) : Option Int64 := do
  let width ← mul? seconds units
  let since ← sub? second origin
  let index ← div? since width
  let start ← mul? index width
  add? start origin

/-- The first second of a month of a year, the months being counted from 1, if it is that of an instant. -/
def monthSecond? (year : Int32) (month : Nat) : Option Int :=
  let second := Date.toDay ⟨year.toInt, month - 1, 1⟩ * daySeconds
  if firstSecond ≤ second ∧ second ≤ lastSecond then some second else none

/-- The start of a bucket of so many months, in words, for a second of a month that is counted from 0. -/
def monthsStart? (units year month second : Int64) : Option Int64 := do
  let january ← mul? year 12
  let number ← add? january month
  let index ← div? number units
  let start ← mul? index units
  let year ← year? (← div? start 12)
  let month ← month? (← mod? start 12)
  word? ((monthSecond? year month).getD second.toInt)

/-- The start of the bucket that an instant lies in, in words. -/
def bucketStart64? (interval : Interval) (span : UInt32) (t : Instant) : Option Int64 := do
  let units ← word? (units span)
  let second ← word? t.second
  match interval.seconds? with
  | some seconds => secondsStart? (← word? seconds) units (← word? interval.origin) second
  | none => monthsStart? units (← word? t.date.year) (← word? t.date.month) second

theorem secondsStart?_eq (seconds units origin second : Int64)
    (hseconds : 0 < seconds.toInt ∧ seconds.toInt ≤ 604800)
    (hunits : 0 < units.toInt ∧ units.toInt ≤ 4294967295) (horigin : 0 ≤ origin.toInt ∧ origin.toInt ≤ 345600)
    (hsecond : firstSecond ≤ second.toInt ∧ second.toInt ≤ lastSecond) :
    ∃ start, secondsStart? seconds units origin second = some start ∧
      start.toInt = (second.toInt - origin.toInt) / (seconds.toInt * units.toInt) * (seconds.toInt * units.toInt) +
        origin.toInt := by
  rw [firstSecond, lastSecond] at hsecond
  -- The width is below two to the fifty-two, and the start is no farther than that from the instant.
  have hpos : 0 < seconds.toInt * units.toInt := Int.mul_pos hseconds.1 hunits.1
  have hle : seconds.toInt * units.toInt ≤ 604800 * 4294967295 :=
    Int.mul_le_mul hseconds.2 hunits.2 hunits.1.le (by decide)
  have hbounds := floor_bounds hpos second.toInt origin.toInt
  obtain ⟨width, hmul, hwidth⟩ := word?_eq (n := seconds.toInt * units.toInt) (by omega) (by omega)
  obtain ⟨since, hsub, hsince⟩ := word?_eq (n := second.toInt - origin.toInt) (by omega) (by omega)
  rw [← hwidth, ← hsince] at hbounds ⊢
  obtain ⟨index, hdiv, hindex⟩ := div?_eq (a := since) (b := width) (by omega)
  rw [← hindex] at hbounds ⊢
  obtain ⟨start, hmul', hstart⟩ := word?_eq (n := index.toInt * width.toInt) (by omega) (by omega)
  rw [← hstart] at hbounds ⊢
  obtain ⟨sum, hadd, hsum⟩ := word?_eq (n := start.toInt + origin.toInt) (by omega) (by omega)
  refine ⟨sum, ?_, hsum⟩
  simp only [secondsStart?, mul?, sub?, add?, hmul, hsub, hdiv, hmul', hadd, Option.bind_eq_bind, Option.bind_some]

theorem monthsStart?_eq (units year month second : Int64)
    (hunits : 0 < units.toInt ∧ units.toInt ≤ 4294967295)
    (hyear : -262143 ≤ year.toInt ∧ year.toInt ≤ 262142) (hmonth : 0 ≤ month.toInt ∧ month.toInt < 12) :
    ∃ start, monthsStart? units year month second = some start ∧
      start.toInt =
        let bucket := monthStart ((year.toInt * 12 + month.toInt) / units.toInt * units.toInt) * daySeconds
        if firstSecond ≤ bucket ∧ bucket ≤ lastSecond then bucket else second.toInt := by
  have htwelve : (12 : Int64).toInt = 12 := rfl
  obtain ⟨january, hmul, hjanuary⟩ := word?_eq (n := year.toInt * 12) (by omega) (by omega)
  obtain ⟨number, hadd, hnumber⟩ := word?_eq (n := january.toInt + month.toInt) (by omega) (by omega)
  obtain ⟨index, hdiv, hindex⟩ := div?_eq (a := number) hunits.1
  -- The start is less than a bucket before the month, so that its year is within thirty-two bits.
  have hle := Int.ediv_mul_le number.toInt hunits.1.ne'
  have hlt := Int.lt_ediv_add_one_mul_self number.toInt hunits.1
  rw [Int.add_mul, Int.one_mul] at hlt
  rw [← hindex] at hle hlt
  obtain ⟨start, hmul', hstart⟩ := word?_eq (n := index.toInt * units.toInt) (by omega) (by omega)
  obtain ⟨quotient, hdiv', hquotient⟩ := div?_eq (a := start) (b := 12) (by decide)
  obtain ⟨remainder, hmod, hremainder⟩ := mod?_eq (a := start) (b := 12) (by decide)
  rw [htwelve] at hquotient hremainder
  obtain ⟨year', hyear?, hyear'⟩ := year?_eq (a := quotient) (by omega) (by omega)
  obtain ⟨month', hmonth?, hmonth'⟩ := month?_eq (a := remainder) (by omega) (by omega)
  have hsame : Date.toDay ⟨year'.toInt, month' - 1, 1⟩ = monthStart start.toInt := by
    rw [hyear', hmonth', hquotient, hremainder, monthStart]
  have hvalue : (monthSecond? year' month').getD second.toInt =
      if firstSecond ≤ monthStart start.toInt * daySeconds ∧ monthStart start.toInt * daySeconds ≤ lastSecond then
        monthStart start.toInt * daySeconds else second.toInt := by
    rw [monthSecond?, hsame]
    split <;> rfl
  have hrange : -2 ^ 63 ≤ (monthSecond? year' month').getD second.toInt ∧
      (monthSecond? year' month').getD second.toInt < 2 ^ 63 := by
    rw [hvalue]
    split
    · rename_i hin
      rw [firstSecond, lastSecond] at hin
      omega
    · exact ⟨second.le_toInt, second.toInt_lt⟩
  obtain ⟨result, hword, hresult⟩ := word?_eq hrange.1 hrange.2
  refine ⟨result, ?_, ?_⟩
  · simp only [monthsStart?, mul?, add?, htwelve, hmul, hadd, hdiv, hmul', hdiv', hmod, hyear?, hmonth?, hword,
      Option.bind_eq_bind, Option.bind_some]
  · rw [hresult, hvalue, hstart, hindex, hnumber, hjanuary]

/-- No month of an instant is before the first year or behind the last one. -/
theorem year_bounds (t : Instant) : -262143 ≤ t.date.year ∧ t.date.year ≤ 262142 := by
  have hfirst := t.first_le
  have hlast := t.le_last
  have hstart : monthStart (-262143 * 12) * daySeconds = firstSecond := by decide
  have hend : monthStart (262143 * 12) * daySeconds = lastSecond + 1 := by decide
  have hfrom : -262143 * 12 ≤ monthOf (t.second / daySeconds) := monthStart_mul_le_iff.1 (hstart ▸ hfirst)
  have hto : ¬ 262143 * 12 ≤ monthOf (t.second / daySeconds) := by
    rw [← monthStart_mul_le_iff, hend]
    omega
  have hmonth : t.date.month < 12 := (ofDay_spec _).1
  have hnumber : monthOf (t.second / daySeconds) = t.date.year * 12 + t.date.month := rfl
  omega

theorem origin_bounds (interval : Interval) : 0 ≤ interval.origin ∧ interval.origin ≤ 345600 := by
  cases interval <;> decide

/-- No step of the computation in words fails, for whatever interval and span, and it gives the start of the
bucket. -/
theorem bucketStart64?_eq (interval : Interval) (span : UInt32) (t : Instant) :
    interval.bucketStart64? span t = some (.ofInt (interval.bucketStart span t)) := by
  suffices h : ∃ start, interval.bucketStart64? span t = some start ∧
      start.toInt = interval.bucketStart span t by
    obtain ⟨start, hstart, htoInt⟩ := h
    rw [hstart, ← htoInt, Int64.ofInt_toInt]
  have hunits := units_bounds span
  have hfirst := t.first_le
  have hlast := t.le_last
  rw [firstSecond] at hfirst
  rw [lastSecond] at hlast
  obtain ⟨u, hu, hunits'⟩ := word?_eq (n := units span) (by omega) (by omega)
  obtain ⟨s, hs, hsecond⟩ := word?_eq (n := t.second) (by omega) (by omega)
  have hsecond' : firstSecond ≤ s.toInt ∧ s.toInt ≤ lastSecond := by
    rw [hsecond]
    exact ⟨t.first_le, t.le_last⟩
  cases hseconds : interval.seconds? with
  | some seconds =>
    have hwidth := seconds_bounds hseconds
    have horigin := origin_bounds interval
    obtain ⟨w, hw, hwidth'⟩ := word?_eq (n := seconds) (by omega) (by omega)
    obtain ⟨o, ho, horigin'⟩ := word?_eq (n := interval.origin) (by omega) (by omega)
    obtain ⟨start, hstart, htoInt⟩ := secondsStart?_eq w u o s (by omega) (by omega) (by omega) hsecond'
    refine ⟨start, ?_, ?_⟩
    · simp only [bucketStart64?, hu, hs, hseconds, hw, ho, hstart, Option.bind_eq_bind, Option.bind_some]
    · rw [htoInt, hsecond, horigin', hwidth', hunits', bucketStart, hseconds]
  | none =>
    have hyear := year_bounds t
    have hmonth : t.date.month < 12 := (ofDay_spec _).1
    obtain ⟨y, hy, hyear'⟩ := word?_eq (n := t.date.year) (by omega) (by omega)
    obtain ⟨m, hm, hmonth'⟩ := word?_eq (n := t.date.month) (by omega) (by omega)
    obtain ⟨start, hstart, htoInt⟩ := monthsStart?_eq u y m s (by omega) (by omega) (by omega)
    refine ⟨start, ?_, ?_⟩
    · simp only [bucketStart64?, hu, hs, hseconds, hy, hm, hstart, Option.bind_eq_bind, Option.bind_some]
    · rw [htoInt, hsecond, hyear', hmonth', hunits', bucketStart, hseconds]
      rfl

end Interval

/-! ## Failures -/

namespace Spec

/-- A specification has a filter that cannot be read. -/
def FilterFails (spec : Spec) (fault : FilterError) : Prop :=
  ∃ expr, spec.filter = some expr ∧ Filter.parse expr = .error fault

/-- A specification asks for a time series with buckets of no length. -/
def Spanless (spec : Spec) : Prop := ∃ interval, spec.parameters = .timeSeries interval 0

end Spec

namespace Corpus

variable {c : Corpus} {spec : Spec} {context : Option Result} {fault : FilterError} {e : BackendError}

theorem filterOf_eq_error :
    filterOf spec = .error e ↔ ∃ fault, spec.FilterFails fault ∧ e = .invalidRequest fault.message := by
  rw [filterOf]
  cases hfilter : spec.filter with
  | none => simp [Spec.FilterFails, hfilter]
  | some expr => cases hparse : Filter.parse expr <;> simp [Spec.FilterFails, hfilter, hparse, eq_comm]

theorem exists_filterOf (h : ∀ fault, ¬ spec.FilterFails fault) : ∃ filter, filterOf spec = .ok filter := by
  cases hfilter : filterOf spec with
  | error e =>
    obtain ⟨fault, hfault, -⟩ := filterOf_eq_error.1 hfilter
    exact absurd hfault (h fault)
  | ok filter => exact ⟨filter, rfl⟩

/-- A filter that cannot be read is reported before anything else is looked at. -/
theorem analyze_of_filterFails (h : spec.FilterFails fault) :
    c.analyze spec context = .error (.invalidRequest fault.message) := by
  have hfilter : filterOf spec = .error (.invalidRequest fault.message) := filterOf_eq_error.2 ⟨fault, h, rfl⟩
  rw [analyze, select, hfilter]
  rfl

theorem analyze_isOk : (∃ r, c.analyze spec context = .ok r) ↔
    (∀ fault, ¬ spec.FilterFails fault) ∧ ¬ spec.Spanless := by
  constructor
  · rintro ⟨r, hr⟩
    obtain ⟨filter, hfilter, hspan, -⟩ := analyze_eq_ok.1 hr
    refine ⟨fun fault hfault => ?_, fun ⟨interval, hparameters⟩ => hspan interval hparameters⟩
    cases hfilter.symm.trans (filterOf_eq_error.2 ⟨fault, hfault, rfl⟩)
  · rintro ⟨hreadable, hspan⟩
    obtain ⟨filter, hfilter⟩ := exists_filterOf hreadable
    exact ⟨_, analyze_eq_ok.2 ⟨filter, hfilter, fun interval hparameters => hspan ⟨interval, hparameters⟩, rfl⟩⟩

theorem analyze_of_spanless (hreadable : ∀ fault, ¬ spec.FilterFails fault) (h : spec.Spanless) :
    c.analyze spec context = .error (.invalidRequest "span must be at least 1") := by
  obtain ⟨interval, hparameters⟩ := h
  obtain ⟨filter, hfilter⟩ := exists_filterOf hreadable
  simp [analyze, select_eq hfilter, hparameters]

/-- An analysis fails exactly if its filter cannot be read, which is reported first and of an empty corpus as well, or
if it asks for buckets of no length itself; any other is answered, in whatever context. The starts of buckets that it
computes on the way, for the interval and the span of the request or of the context, can be computed in words of
sixty-four bits: no step leaves these or divides by zero, no year is cut off, and no month is out of its range. -/
theorem analyze_safe (c : Corpus) (spec : Spec) (context : Option Result) :
    ((∃ e, c.analyze spec context = .error e) ↔ (∃ fault, spec.FilterFails fault) ∨ spec.Spanless) ∧
    (∀ fault, spec.FilterFails fault → c.analyze spec context = .error (.invalidRequest fault.message)) ∧
    ((∀ fault, ¬ spec.FilterFails fault) → spec.Spanless →
      c.analyze spec context = .error (.invalidRequest "span must be at least 1")) ∧
    ((∃ r, c.analyze spec context = .ok r) ↔ (∀ fault, ¬ spec.FilterFails fault) ∧ ¬ spec.Spanless) ∧
    ∀ (interval : Interval) (span : UInt32) (t : Calendar.Instant),
      interval.bucketStart64? span t = some (.ofInt (interval.bucketStart span t)) ∧
        (Int64.ofInt (interval.bucketStart span t)).toInt = interval.bucketStart span t := by
  have hfails : (∃ e, c.analyze spec context = .error e) ↔ ¬ ∃ r, c.analyze spec context = .ok r := by
    cases c.analyze spec context <;> simp
  -- There is no third outcome beside an error and a result.
  refine ⟨?_, fun fault => analyze_of_filterFails, analyze_of_spanless, analyze_isOk,
    fun interval span t => ⟨interval.bucketStart64?_eq span t, interval.toInt_bucketStart span t⟩⟩
  rw [hfails, analyze_isOk, Classical.not_and_iff_not_or_not, Classical.not_forall]
  simp only [Classical.not_not]

/-- A context whose buckets have no length, with a record of another kind. -/
def lengthless : Result := ⟨.timeSeries, .timeSeries .month 0, [.frequency "ford" 2 2], .empty⟩

/-- The filter is reported before the span, in an empty corpus; the span of a context does no harm. -/
theorem analyze_safe_lengthless :
    Corpus.empty.analyze ⟨.freqDist, none, some "a exists and", .timeSeries .day 0⟩ (some lengthless) =
      .error (.invalidRequest "Unexpected end of filter, expected field path") ∧
    posts.analyze ⟨.timeSeries, none, none, .timeSeries .week 0⟩ none =
      .error (.invalidRequest "span must be at least 1") ∧
    ∃ r, posts.analyze everyDay (some lengthless) = .ok r := by
  have hparse : Filter.parse "a exists and" = .error (.unexpectedEnd .fieldPath) := by decide +kernel
  obtain ⟨-, hfilter, -⟩ := analyze_safe Corpus.empty ⟨.freqDist, none, some "a exists and", .timeSeries .day 0⟩
    (some lengthless)
  obtain ⟨-, -, hspan, -⟩ := analyze_safe posts ⟨.timeSeries, none, none, .timeSeries .week 0⟩ none
  obtain ⟨-, -, -, hanswer, -⟩ := analyze_safe posts everyDay (some lengthless)
  refine ⟨hfilter _ ⟨_, rfl, hparse⟩, hspan (fun fault hfault => ?_) ⟨.week, rfl⟩,
    hanswer.2 ⟨fun fault hfault => ?_, fun hspanless => ?_⟩⟩
  · obtain ⟨expr, hexpr, -⟩ := hfault
    cases hexpr
  · obtain ⟨expr, hexpr, -⟩ := hfault
    cases hexpr
  · obtain ⟨interval, hparameters⟩ := hspanless
    simp [everyDay] at hparameters

end Corpus
end Inquiry
