import Inquiry.Corpus.Bucket

/-!
# Proofs.Corpus.Bucket — the starts of buckets

* `Interval.floor_bounds`: a bucket of so many seconds starts at its instants or less than its length before.
* `Interval.bucketStart_bounds`: the range that the starts of all buckets are in.
* `Interval.toInt_bucketStart`: every start is a number of 64 bits, so that a record tells it exactly.
-/

namespace Inquiry
namespace Interval

open Calendar

theorem seconds_bounds {interval : Interval} {seconds : Nat} (h : interval.seconds? = some seconds) :
    0 < seconds ∧ seconds ≤ 604800 := by
  cases interval <;> cases h <;> decide

theorem units_bounds (span : UInt32) : 0 < units span ∧ units span ≤ 4294967295 :=
  ⟨Nat.lt_of_lt_of_le Nat.one_pos (Nat.le_max_right ..),
    Nat.max_le.2 ⟨Nat.le_of_lt_succ span.toNat_lt, by decide⟩⟩

/-- The start of a bucket of so many seconds. -/
theorem floor_bounds {width : Int} (hwidth : 0 < width) (second origin : Int) :
    second - width < (second - origin) / width * width + origin ∧
      (second - origin) / width * width + origin ≤ second := by
  have hle := Int.ediv_mul_le (second - origin) (Int.ne_of_gt hwidth)
  have hlt := Int.lt_ediv_add_one_mul_self (second - origin) hwidth
  rw [Int.add_mul, Int.one_mul] at hlt
  omega

/-- No start is farther in front of the first second that has an instant than the longest bucket of weeks is
long. -/
theorem bucketStart_bounds (interval : Interval) (span : UInt32) (t : Instant) :
    firstSecond - 604800 * 4294967295 ≤ interval.bucketStart span t ∧ interval.bucketStart span t ≤ lastSecond := by
  have hfirst := t.first_le
  have hlast := t.le_last
  unfold bucketStart
  split
  · rename_i seconds hseconds
    obtain ⟨hpos, hle⟩ := seconds_bounds hseconds
    obtain ⟨hunits, hunits_le⟩ := units_bounds span
    have hwidth : seconds * units span ≤ 604800 * 4294967295 := Nat.mul_le_mul hle hunits_le
    have hbounds := floor_bounds (Int.natCast_pos.2 (Nat.mul_pos hpos hunits)) t.second interval.origin
    rw [Int.natCast_mul] at hbounds
    dsimp only
    omega
  · -- A month that starts before all instants is replaced.
    dsimp only
    split
    · omega
    · omega

/-- A start is not changed by taking 64 bits of it. -/
theorem toInt_bucketStart (interval : Interval) (span : UInt32) (t : Instant) :
    (Int64.ofInt (interval.bucketStart span t)).toInt = interval.bucketStart span t := by
  obtain ⟨hle, hlast⟩ := bucketStart_bounds interval span t
  rw [firstSecond] at hle
  rw [lastSecond] at hlast
  apply Int64.toInt_ofInt_of_le
  · omega
  · omega

end Interval
end Inquiry
