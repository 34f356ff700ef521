import Inquiry.Proofs.Calendar.Month
import Inquiry.Proofs.Corpus.Bucket
import Mathlib.Order.Bounds.Basic

/-!
# Proofs.Corpus.Partition — buckets partition time

The starts of buckets are marks on the line of seconds, and an instant is in the bucket of the last mark up to
it. What is said of buckets follows from that: the last mark is monotone, it is the same for all seconds up to
the next mark, and it is its own last mark.

* `Interval.IsStart`: a second at which a bucket starts; `Interval.lastStart`: the last of them up to a second.
* `Interval.lastStart_isGreatest`: it is the last one indeed.
* `Interval.bucketStart_eq`: the bucket of an instant starts there, unless that is before all instants.
* `Interval.bucketStart_partitions`: the laws of buckets, for all intervals, spans and instants.
-/

namespace Inquiry
namespace Interval

open Calendar

variable {interval : Interval} {span : UInt32}

/-! ## Starts -/

/-- A second at which a bucket starts: the length of a bucket from the origin on, over and over, or the midnight
before the first day of every so manieth month. -/
def IsStart (interval : Interval) (span : UInt32) (second : Int) : Prop :=
  match interval.seconds? with
  | some seconds => (seconds * units span : Int) ∣ second - interval.origin
  | none => ∃ month : Int, (units span : Int) ∣ month ∧ second = monthStart month * daySeconds

/-- The last second up to a given one at which a bucket starts, whether or not it is that of an instant. -/
def lastStart (interval : Interval) (span : UInt32) (second : Int) : Int :=
  match interval.seconds? with
  | some seconds =>
    (second - interval.origin) / (seconds * units span) * (seconds * units span) + interval.origin
  | none => monthStart (monthBucket span (monthOf (second / daySeconds))) * daySeconds

theorem daySeconds_pos : 0 < daySeconds := by decide

theorem units_eq (h : span ≠ 0) : units span = span.toNat := by
  have hne : span.toNat ≠ 0 := fun hzero => h (UInt32.toNat_inj.1 hzero)
  exact Nat.max_eq_left (Nat.one_le_iff_ne_zero.2 hne)

theorem units_pos (span : UInt32) : (0 : Int) < units span := Int.natCast_pos.2 (units_bounds span).1

theorem width_pos (span : UInt32) {seconds : Nat} (h : interval.seconds? = some seconds) :
    (0 : Int) < seconds * units span :=
  Int.mul_pos (Int.natCast_pos.2 (seconds_bounds h).1) (units_pos span)

/-- A month starts at or before a second exactly if it is no later than the month of the second. -/
theorem monthStart_mul_le_iff {month second : Int} :
    monthStart month * daySeconds ≤ second ↔ month ≤ monthOf (second / daySeconds) := by
  rw [← Int.le_ediv_iff_mul_le daySeconds_pos]
  exact monthStart_le_iff

theorem monthBucket_le (span : UInt32) (month : Int) : monthBucket span month ≤ month :=
  Int.ediv_mul_le month (units_pos span).ne'

theorem lt_monthBucket_add (span : UInt32) (month : Int) : month < monthBucket span month + units span := by
  have hlt := Int.lt_ediv_add_one_mul_self month (units_pos span)
  rw [Int.add_mul, Int.one_mul] at hlt
  exact hlt

theorem le_monthBucket {start month : Int} (hstart : (units span : Int) ∣ start) (h : start ≤ month) :
    start ≤ monthBucket span month := by
  obtain ⟨k, rfl⟩ := hstart
  rw [Int.mul_comm] at h ⊢
  exact Int.mul_le_mul_of_nonneg_right ((Int.le_ediv_iff_mul_le (units_pos span)).2 h) (units_pos span).le

/-- Among the starts up to a second the last one is the greatest. -/
theorem lastStart_isGreatest (interval : Interval) (span : UInt32) (second : Int) :
    IsGreatest {start | IsStart interval span start ∧ start ≤ second} (lastStart interval span second) := by
  unfold IsStart lastStart
  cases hseconds : interval.seconds? with
  | some seconds =>
    have hwidth := width_pos span hseconds
    refine ⟨⟨?_, (floor_bounds hwidth second interval.origin).2⟩, ?_⟩
    · dsimp only
      rw [Int.add_sub_cancel]
      exact Int.dvd_mul_left ..
    · rintro start ⟨⟨k, hk⟩, hle⟩
      -- A start is a number of widths after the origin, and no greater number fits in.
      have hfits : k ≤ (second - interval.origin) / (seconds * units span) := by
        apply (Int.le_ediv_iff_mul_le hwidth).2
        rw [Int.mul_comm, ← hk]
        omega
      have hmul := Int.mul_le_mul_of_nonneg_right hfits hwidth.le
      rw [Int.mul_comm, ← hk] at hmul
      dsimp only
      omega
  | none =>
    refine ⟨⟨⟨_, Int.dvd_mul_left .., rfl⟩, ?_⟩, ?_⟩
    · exact monthStart_mul_le_iff.2 (monthBucket_le span _)
    · rintro start ⟨⟨month, hmonth, rfl⟩, hle⟩
      have hbucket := le_monthBucket hmonth (monthStart_mul_le_iff.1 hle)
      exact Int.mul_le_mul_of_nonneg_right (monthStart_le_monthStart.2 hbucket) daySeconds_pos.le

theorem lastStart_isStart (interval : Interval) (span : UInt32) (second : Int) :
    IsStart interval span (lastStart interval span second) :=
  (lastStart_isGreatest interval span second).1.1

theorem lastStart_le (interval : Interval) (span : UInt32) (second : Int) :
    lastStart interval span second ≤ second :=
  (lastStart_isGreatest interval span second).1.2

theorem le_lastStart {start second : Int} (hstart : IsStart interval span start) (hle : start ≤ second) :
    start ≤ lastStart interval span second :=
  (lastStart_isGreatest interval span second).2 ⟨hstart, hle⟩

theorem lastStart_mono {second later : Int} (h : second ≤ later) :
    lastStart interval span second ≤ lastStart interval span later :=
  le_lastStart (lastStart_isStart interval span second) ((lastStart_le interval span second).trans h)

theorem lastStart_of_isStart {start : Int} (h : IsStart interval span start) :
    lastStart interval span start = start :=
  le_antisymm (lastStart_le interval span start) (le_lastStart h le_rfl)

/-! ## The start of the next bucket -/

/-- The start of the bucket that follows the one with the given start. -/
def nextStart (interval : Interval) (span : UInt32) (start : Int) : Int :=
  match interval.seconds? with
  | some seconds => start + seconds * units span
  | none => monthStart (monthOf (start / daySeconds) + units span) * daySeconds

theorem monthOf_start (month : Int) : monthOf (monthStart month * daySeconds / daySeconds) = month := by
  rw [Int.mul_ediv_cancel _ daySeconds_pos.ne']
  exact monthOf_monthStart month

theorem lt_nextStart (interval : Interval) (span : UInt32) (second : Int) :
    second < nextStart interval span (lastStart interval span second) := by
  unfold nextStart lastStart
  cases hseconds : interval.seconds? with
  | some seconds =>
    have hbounds := floor_bounds (width_pos span hseconds) second interval.origin
    dsimp only
    omega
  | none =>
    -- The month of the second is none of the next bucket.
    dsimp only
    rw [monthOf_start]
    apply lt_of_not_ge
    intro hle
    exact absurd (monthStart_mul_le_iff.1 hle) (not_le.2 (lt_monthBucket_add span _))

theorem nextStart_le {start later : Int} (hstart : IsStart interval span start)
    (hlater : IsStart interval span later) (hlt : start < later) : nextStart interval span start ≤ later := by
  unfold nextStart
  unfold IsStart at hstart hlater
  cases hseconds : interval.seconds? with
  | some seconds =>
    rw [hseconds] at hstart hlater
    -- Two starts are some widths apart, and at least one.
    have hapart : (seconds * units span : Int) ∣ later - start := by
      have hsub := Int.dvd_sub hlater hstart
      rwa [sub_sub_sub_cancel_right] at hsub
    have hle := Int.le_of_dvd (by omega) hapart
    dsimp only
    omega
  | none =>
    rw [hseconds] at hstart hlater
    obtain ⟨month, hmonth, rfl⟩ := hstart
    obtain ⟨month', hmonth', rfl⟩ := hlater
    have hmonths : month < month' :=
      monthStart_lt_monthStart.1 (lt_of_mul_lt_mul_right hlt daySeconds_pos.le)
    have hle := Int.le_of_dvd (by omega) (Int.dvd_sub hmonth' hmonth)
    dsimp only
    rw [monthOf_start]
    exact Int.mul_le_mul_of_nonneg_right (monthStart_le_monthStart.2 (by omega)) daySeconds_pos.le

/-- A bucket has the seconds from its start to the next one. -/
theorem lastStart_eq_iff {start : Int} (hstart : IsStart interval span start) (second : Int) :
    lastStart interval span second = start ↔ start ≤ second ∧ second < nextStart interval span start := by
  constructor
  · rintro rfl
    exact ⟨lastStart_le interval span second, lt_nextStart interval span second⟩
  · rintro ⟨hle, hlt⟩
    apply le_antisymm
    · -- A later start would be the next one, or one behind it.
      by_contra hlater
      have hnext := nextStart_le hstart (lastStart_isStart interval span second) (not_le.1 hlater)
      exact absurd (hnext.trans (lastStart_le interval span second)) (not_le.2 hlt)
    · exact le_lastStart hstart hle

/-! ## The buckets of instants -/

theorem lastStart_of_month (span : UInt32) (h : interval.seconds? = none) (t : Instant) :
    lastStart interval span t.second = monthStart (monthBucket span t.month) * daySeconds := by
  rw [lastStart, h]
  rfl

/-- The bucket of an instant starts at the last start, unless it is one of months that starts before all
instants: then the instant has its own second for a bucket. -/
theorem bucketStart_eq (t : Instant) : interval.bucketStart span t =
    if interval.seconds? = none ∧ lastStart interval span t.second < firstSecond then t.second
    else lastStart interval span t.second := by
  cases hseconds : interval.seconds? with
  | some seconds =>
    simp only [bucketStart, lastStart, hseconds]
    rfl
  | none =>
    have hle := (lastStart_le interval span t.second).trans t.le_last
    rw [lastStart_of_month span hseconds] at hle ⊢
    simp only [bucketStart, hseconds, true_and]
    by_cases hbefore : monthStart (monthBucket span t.month) * daySeconds < firstSecond
    · rw [if_pos hbefore, if_neg fun hin => absurd hin.1 (not_le.2 hbefore)]
    · rw [if_neg hbefore, if_pos ⟨not_lt.1 hbefore, hle⟩]

theorem bucketStart_eq_lastStart {t : Instant}
    (h : interval.seconds? = none → firstSecond ≤ lastStart interval span t.second) :
    interval.bucketStart span t = lastStart interval span t.second := by
  rw [bucketStart_eq, if_neg]
  rintro ⟨hnone, hlt⟩
  exact absurd (h hnone) (not_le.2 hlt)

theorem bucketStart_le (t : Instant) : interval.bucketStart span t ≤ t.second := by
  rw [bucketStart_eq]
  split
  · exact le_rfl
  · exact lastStart_le interval span t.second

theorem bucketStart_mono {t later : Instant} (h : t.second ≤ later.second) :
    interval.bucketStart span t ≤ interval.bucketStart span later := by
  rw [bucketStart_eq (t := later)]
  split
  · exact (bucketStart_le t).trans h
  · rename_i hin
    rw [bucketStart_eq]
    split
    · rename_i hbefore
      -- A bucket that starts among the instants starts behind those that have none.
      by_contra hlater
      have hstart := le_lastStart (lastStart_isStart interval span later.second) (Int.le_of_lt (not_le.1 hlater))
      exact hin ⟨hbefore.1, hstart.trans_lt hbefore.2⟩
    · exact lastStart_mono h

theorem bucketStart_congr {t t' : Instant}
    (h : lastStart interval span t'.second = lastStart interval span t.second)
    (hin : interval.seconds? = none → firstSecond ≤ lastStart interval span t.second) :
    interval.bucketStart span t' = interval.bucketStart span t := by
  rw [bucketStart_eq_lastStart hin, bucketStart_eq_lastStart (h ▸ hin), h]

/-- The instant at the start of a bucket is in the bucket. -/
theorem bucketStart_again {t t' : Instant} (h : t'.second = interval.bucketStart span t) :
    interval.bucketStart span t' = interval.bucketStart span t := by
  rw [bucketStart_eq] at h
  split at h
  · -- An instant that has its own second for a bucket.
    rw [bucketStart_eq, bucketStart_eq, h]
  · rename_i hin
    rw [bucketStart_eq_lastStart fun hnone => not_lt.1 fun hlt => hin ⟨hnone, hlt⟩, bucketStart_eq_lastStart, h]
    · exact lastStart_of_isStart (lastStart_isStart interval span t.second)
    · intro _
      rw [h, lastStart_of_isStart (lastStart_isStart interval span t.second), ← h]
      exact t'.first_le

/-! ## The laws of buckets -/

/-- The first month that has instants: January of the year -262143. -/
def firstMonth : Int := -262143 * 12

theorem firstSecond_eq : firstSecond = monthStart firstMonth * daySeconds := by decide

theorem firstSecond_le_iff {month : Int} : firstSecond ≤ monthStart month * daySeconds ↔ firstMonth ≤ month := by
  rw [firstSecond_eq, Int.mul_le_mul_right daySeconds_pos]
  exact monthStart_le_monthStart

/-- The day of the week of a day, Monday being 0: 1970-01-01 was a Thursday. -/
def weekday (day : Int) : Int := (day + 3) % 7

/-- Buckets are of one length, and start that often after an origin. -/
def HaveLength (interval : Interval) (span : UInt32) (width origin : Int) : Prop :=
  ∀ t : Instant, let start := interval.bucketStart span t
    start ≤ t.second ∧ t.second < start + width ∧ width ∣ start - origin ∧
      ∀ t' : Instant, start ≤ t'.second → t'.second < start + width → interval.bucketStart span t' = start

/-- Buckets are of so many months, counted from January of the year 0, and start at the midnight before the first
day of their first month; but if there are no instants yet in that month, every second is by itself. -/
def HaveMonths (interval : Interval) (span : UInt32) (count : Int) : Prop :=
  ∀ t : Instant, let start := interval.bucketStart span t
    ∃ month, (count ∣ month ∧ month ≤ t.month ∧ t.month < month + count) ∧
      if month < firstMonth then start = t.second
      else (∃ first : Instant, first.second = start ∧ first.secondOfDay = 0 ∧ first.date.day = 1 ∧
          first.month = month) ∧
        ∀ t' : Instant, month ≤ t'.month → t'.month < month + count → interval.bucketStart span t' = start

/-- Buckets of an interval and a span partition time. Fractions of seconds do not matter to them. -/
structure Partitions (interval : Interval) (span : UInt32) : Prop where
  fixed : ∀ seconds, interval.seconds? = some seconds →
    interval.HaveLength span (seconds * span.toNat) (if interval = .week then 4 * 86400 else 0)
  /-- Weeks start on Mondays at midnight. -/
  weeks : interval = .week → ∀ t : Instant,
    interval.bucketStart span t % daySeconds = 0 ∧ weekday (interval.bucketStart span t / daySeconds) = 0
  months : interval.seconds? = none → interval.HaveMonths span span.toNat
  le : ∀ t : Instant, interval.bucketStart span t ≤ t.second
  mono : ∀ t later : Instant, t.second ≤ later.second → interval.bucketStart span t ≤ interval.bucketStart span later
  /-- The start of a bucket is in the bucket. -/
  again : ∀ t t' : Instant, t'.second = interval.bucketStart span t →
    interval.bucketStart span t' = interval.bucketStart span t

theorem bucketStart_of_seconds {seconds : Nat} (h : interval.seconds? = some seconds) (t : Instant) :
    interval.bucketStart span t = lastStart interval span t.second :=
  bucketStart_eq_lastStart fun hnone => by rw [h] at hnone; cases hnone

theorem bucketStart_isStart {seconds : Nat} (h : interval.seconds? = some seconds) (t : Instant) :
    IsStart interval span (interval.bucketStart span t) := by
  rw [bucketStart_of_seconds h]
  exact lastStart_isStart interval span t.second

theorem haveLength (hspan : span ≠ 0) {seconds : Nat} (h : interval.seconds? = some seconds) :
    interval.HaveLength span (seconds * span.toNat) (if interval = .week then 4 * 86400 else 0) := by
  intro t start
  have hstart : IsStart interval span start := bucketStart_isStart h t
  have hnext : nextStart interval span start = start + seconds * span.toNat := by
    rw [nextStart, h, units_eq hspan]
  have hwithin := (lastStart_eq_iff hstart t.second).1 (bucketStart_of_seconds h t).symm
  rw [hnext] at hwithin
  refine ⟨hwithin.1, hwithin.2, ?_, fun t' hle hlt => ?_⟩
  · have horigin : (if interval = .week then 4 * 86400 else 0) = interval.origin := by
      cases interval <;> rfl
    rw [IsStart, h, units_eq hspan] at hstart
    rw [horigin]
    exact hstart
  · rw [bucketStart_of_seconds h]
    exact (lastStart_eq_iff hstart _).2 ⟨hle, hnext ▸ hlt⟩

/-- A bucket of weeks starts some weeks after the first Monday of 1970. -/
theorem monday_of_week (t : Instant) : Interval.week.bucketStart span t % daySeconds = 0 ∧
    weekday (Interval.week.bucketStart span t / daySeconds) = 0 := by
  have hstart : IsStart .week span (Interval.week.bucketStart span t) := bucketStart_isStart rfl t
  obtain ⟨k, hk⟩ := hstart
  generalize Interval.week.bucketStart span t = start at hk ⊢
  have hweeks : start = 4 * 86400 + 604800 * (units span * k) := by
    rw [← Int.mul_assoc]
    exact Int.sub_eq_iff_eq_add'.1 hk
  simp only [weekday, daySeconds]
  omega

/-- The bucket of months whose first month has instants starts with an instant. -/
theorem exists_first (h : interval.seconds? = none) {t : Instant} (hmonth : firstMonth ≤ monthBucket span t.month) :
    ∃ first : Instant, first.second = interval.bucketStart span t ∧ first.secondOfDay = 0 ∧ first.date.day = 1 ∧
      first.month = monthBucket span t.month := by
  have hstart := lastStart_of_month span h t
  have hfirst := firstSecond_le_iff.2 hmonth
  have hlast := (lastStart_le interval span t.second).trans t.le_last
  rw [hstart] at hlast
  have hday : monthStart (monthBucket span t.month) * daySeconds / daySeconds =
      monthStart (monthBucket span t.month) := Int.mul_ediv_cancel _ daySeconds_pos.ne'
  refine ⟨⟨monthStart (monthBucket span t.month) * daySeconds, 0, hfirst, hlast⟩, ?_, ?_, ?_, ?_⟩
  · rw [bucketStart_eq_lastStart fun _ => hstart ▸ hfirst, hstart]
  · rw [Instant.secondOfDay, Int.mul_emod_left]
    rfl
  · rw [Instant.date, hday, ofDay_monthStart]
  · exact monthOf_start _

/-- Months from the first of a bucket up to that of the next are in the bucket. -/
theorem monthBucket_eq {first month : Int} (hfirst : (units span : Int) ∣ first) (hle : first ≤ month)
    (hlt : month < first + units span) : monthBucket span month = first := by
  apply le_antisymm
  · by_contra hlater
    have hdvd : (units span : Int) ∣ monthBucket span month - first :=
      Int.dvd_sub (Int.dvd_mul_left ..) hfirst
    have hapart := Int.le_of_dvd (by omega) hdvd
    have hbucket := monthBucket_le span month
    omega
  · exact le_monthBucket hfirst hle

theorem haveMonths (hspan : span ≠ 0) (h : interval.seconds? = none) : interval.HaveMonths span span.toNat := by
  intro t start
  have hlt := lt_monthBucket_add span t.month
  have hdvd : (units span : Int) ∣ monthBucket span t.month := Int.dvd_mul_left ..
  rw [← units_eq hspan]
  refine ⟨monthBucket span t.month, ⟨hdvd, monthBucket_le span t.month, hlt⟩, ?_⟩
  have hlast := lastStart_of_month span h t
  split
  · rename_i hbefore
    have hearly : lastStart interval span t.second < firstSecond := by
      rw [hlast]
      exact not_le.1 fun hle => absurd (firstSecond_le_iff.1 hle) (not_le.2 hbefore)
    exact (bucketStart_eq t).trans (if_pos ⟨h, hearly⟩)
  · rename_i hin
    have hfirst : firstMonth ≤ monthBucket span t.month := not_lt.1 hin
    refine ⟨exists_first h hfirst, fun t' hle hlt' => ?_⟩
    apply bucketStart_congr
    · rw [lastStart_of_month span h, hlast, monthBucket_eq hdvd hle hlt']
    · intro _
      rw [hlast]
      exact firstSecond_le_iff.2 hfirst

/-- For every interval, every span of at least one and all instants, buckets partition time. -/
theorem bucketStart_partitions (interval : Interval) (hspan : span ≠ 0) : Partitions interval span where
  fixed _ h := haveLength hspan h
  weeks := by
    rintro rfl t
    exact monday_of_week t
  months h := haveMonths hspan h
  le := bucketStart_le
  mono _ _ h := bucketStart_mono h
  again _ _ h := bucketStart_again h

/-- The last second of 1969 is in the bucket of the five months from August on. -/
theorem bucketStart_partitions_months : (5 : UInt32) ≠ 0 ∧ Partitions .month 5 ∧
    Interval.month.bucketStart 5 (.ofSecond (-1)) = -153 * 86400 :=
  ⟨by decide, bucketStart_partitions .month (by decide), by decide +kernel⟩

/-- The last second before the year 0: its bucket of months would start before all instants. -/
example : Interval.month.bucketStart 4294967295 (.ofSecond (-62167219201)) = -62167219201 := by decide +kernel

end Interval
end Inquiry
