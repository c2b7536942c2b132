import RatioTap.Lib.LinearPeriodic

/-!
# The peak gain of a filter

How large the sums of products of a row of coefficients with samples of bounded size become:
at most the sum of the absolute values of the row times the bound, in every partial sum too
(`abs_zipWith_mul_sum_le`), and as large as that on samples with the signs of the coefficients.
For a resampling chain such samples are lined up with one branch of the filter
(`resample_alignedWith`).
-/

namespace PeakGain

open Finset Upfirdn

variable {R : Type*} [CommRing R] [LinearOrder R] {B : R}

/-- The sum of the absolute values of a row. -/
def absSum (row : List R) : R := (row.map fun a => |a|).sum

@[simp] lemma absSum_nil : absSum ([] : List R) = 0 := rfl

@[simp] lemma absSum_cons (a : R) (row : List R) : absSum (a :: row) = |a| + absSum row := rfl

@[simp] lemma absSum_reverse (row : List R) : absSum row.reverse = absSum row := by
  simp [absSum, List.map_reverse, List.sum_reverse]

variable [IsStrictOrderedRing R]

lemma absSum_nonneg (row : List R) : 0 ≤ absSum row := by
  induction row with
  | nil => exact le_rfl
  | cons a row ih => exact add_nonneg (abs_nonneg a) ih

/-- Each partial sum of products is bounded by the whole row. -/
lemma abs_zipWith_mul_sum_le (hB : 0 ≤ B) (row : List R) {samples : List R}
    (h : ∀ x ∈ samples, |x| ≤ B) (m : ℕ) :
    |(List.zipWith (· * ·) (row.take m) (samples.take m)).sum| ≤ absSum row * B := by
  induction row generalizing samples m with
  | nil => simp
  | cons a row ih =>
      have hnonneg := mul_nonneg (absSum_nonneg (a :: row)) hB
      cases samples with
      | nil => simpa using hnonneg
      | cons x samples =>
          cases m with
          | zero => simpa using hnonneg
          | succ m =>
              have hx : |a * x| ≤ |a| * B := by
                rw [abs_mul]
                exact mul_le_mul_of_nonneg_left (h x List.mem_cons_self) (abs_nonneg a)
              have hrest := ih (fun y hy => h y (List.mem_cons_of_mem x hy)) m
              calc |(List.zipWith (· * ·) ((a :: row).take (m + 1))
                    ((x :: samples).take (m + 1))).sum|
                  = |a * x + (List.zipWith (· * ·) (row.take m) (samples.take m)).sum| := by
                    simp
                _ ≤ |a * x| + |(List.zipWith (· * ·) (row.take m) (samples.take m)).sum| :=
                    abs_add_le _ _
                _ ≤ |a| * B + absSum row * B := add_le_add hx hrest
                _ = absSum (a :: row) * B := by rw [absSum_cons, add_mul]

/-- Samples of size `B` with the signs of the branch `ph` of `h` that is met at sample `q`. -/
def alignedWith (L : ℕ) (h : ℕ → R) (B : R) (ph q : ℕ) : ℕ → R :=
  fun j => if 0 ≤ h ((q - j) * L + ph) then B else -B

lemma abs_alignedWith (hB : 0 ≤ B) (L : ℕ) (h : ℕ → R) (ph q j : ℕ) :
    |alignedWith L h B ph q j| = B := by
  rw [alignedWith]
  split
  · exact abs_of_nonneg hB
  · rw [abs_neg, abs_of_nonneg hB]

/-- On samples lined up with its branch an output is as large as it can be. -/
lemma resample_alignedWith {L M T n : ℕ} (hL : 0 < L) (h : ℕ → R) (hT : T ≤ n * M / L + 1) :
    resample L M (L * T) h (alignedWith L h B (n * M % L) (n * M / L)) n
      = (∑ t ∈ range T, |h (t * L + n * M % L)|) * B := by
  rw [resample, decimate, fir_zeroStuff_eq_branch hL, sum_mul]
  refine sum_congr rfl fun t ht => ?_
  have hle : t ≤ n * M / L := by
    rw [mem_range] at ht
    omega
  rw [before_of_le hle, alignedWith, Nat.sub_sub_self hle]
  split
  · next hsign => rw [abs_of_nonneg hsign]
  · next hsign => rw [abs_of_neg (not_le.1 hsign), mul_neg, neg_mul]

end PeakGain
