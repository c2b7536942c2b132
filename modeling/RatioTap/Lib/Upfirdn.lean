import Mathlib

/-!
# Rational resampling

The textbook chain that changes a sampling rate by `L / M`: stuff `L - 1` zeros behind every
sample, run the result through a filter with finite impulse response, keep every `M`-th
sample.  Signals are functions on `ℕ` and zero before their start.

Most of the products of the chain are with stuffed zeros.  `decimate_fir_zeroStuff` lists
the others by the sample of the input they use, and `fir_zeroStuff_eq_branch` by the
coefficient: output `i` of the filter only sees the branch of the coefficients that are
`i` modulo `L`.
-/

namespace Upfirdn

open Finset

variable {R : Type*} [CommSemiring R]

/-- Stuff `L - 1` zeros behind every sample. -/
def zeroStuff (L : ℕ) (x : ℕ → R) : ℕ → R := fun i => if L ∣ i then x (i / L) else 0

/-- The sample `a` before time `i`, zero before the start. -/
def before (x : ℕ → R) (i a : ℕ) : R := if a ≤ i then x (i - a) else 0

/-- The filter with the first `N` coefficients of `h`. -/
def fir (N : ℕ) (h x : ℕ → R) : ℕ → R := fun i => ∑ a ∈ range N, h a * before x i a

/-- Keep every `M`-th sample. -/
def decimate (M : ℕ) (x : ℕ → R) : ℕ → R := fun n => x (n * M)

variable {L M N T i j : ℕ} {h x : ℕ → R}

lemma before_of_le (hj : j ≤ i) : before x i j = x (i - j) := if_pos hj

lemma before_of_lt (hj : i < j) : before x i j = 0 := if_neg (by omega)

/-- Where the filter meets a sample of the input. -/
lemma before_zeroStuff_mul (hL : 0 < L) (hj : j * L ≤ i) :
    before (zeroStuff L x) i (i - j * L) = x j := by
  rw [before_of_le (Nat.sub_le _ _), Nat.sub_sub_self hj, zeroStuff,
    if_pos (Nat.dvd_mul_left L j), Nat.mul_div_cancel j hL]

/-- Everywhere else it meets a zero. -/
lemma before_zeroStuff_eq_zero {a : ℕ} (h : ∀ j, j * L ≤ i → a ≠ i - j * L) :
    before (zeroStuff L x) i a = 0 := by
  rcases Nat.lt_or_ge i a with ha | ha
  · exact before_of_lt ha
  · rw [before_of_le ha, zeroStuff, if_neg]
    rintro ⟨j, hj⟩
    have hj' : i - a = j * L := by rw [hj, Nat.mul_comm]
    exact h j (by omega) (by omega)

/-- The chain, as a sum over the samples of an input that is zero from `X` on. -/
theorem decimate_fir_zeroStuff (hL : 0 < L) {X : ℕ} (hx : ∀ j, X ≤ j → x j = 0) (n : ℕ) :
    decimate M (fir N h (zeroStuff L x)) n
      = ∑ j ∈ range X with j * L ≤ n * M ∧ n * M - j * L < N, x j * h (n * M - j * L) := by
  rw [decimate, fir]
  symm
  refine sum_of_injOn (fun j => n * M - j * L) ?_ ?_ ?_ ?_
  · intro i hi j hj hij
    rw [mem_coe, mem_filter] at hi hj
    dsimp only at hij
    have hmul : i * L = j * L := by omega
    exact Nat.eq_of_mul_eq_mul_right hL hmul
  · intro j hj
    rw [mem_coe, mem_filter] at hj
    rw [mem_coe, mem_range]
    exact hj.2.2
  · intro a ha hout
    rw [mem_range] at ha
    rw [mul_eq_zero_of_right]
    by_cases hj : ∃ j, j * L ≤ n * M ∧ a = n * M - j * L
    · -- a sample past the end of the input
      obtain ⟨j, hj, rfl⟩ := hj
      rw [before_zeroStuff_mul hL hj]
      refine hx j (Nat.le_of_not_lt fun hjX => hout ⟨j, ?_, rfl⟩)
      rw [mem_coe, mem_filter, mem_range]
      exact ⟨hjX, hj, ha⟩
    · exact before_zeroStuff_eq_zero fun j hle heq => hj ⟨j, hle, heq⟩
  · intro j hj
    rw [mem_filter] at hj
    rw [before_zeroStuff_mul hL hj.2.1, mul_comm]

/-- The filter on stuffed input, as a sum over the coefficients of one branch. -/
theorem fir_zeroStuff_eq_branch (hL : 0 < L) (i : ℕ) :
    fir (L * T) h (zeroStuff L x) i
      = ∑ t ∈ range T, h (t * L + i % L) * before x (i / L) t := by
  symm
  have hmod := Nat.mod_lt i hL
  have hdiv := Nat.div_add_mod' i L
  refine sum_of_injOn (fun t => t * L + i % L) ?_ ?_ ?_ ?_
  · intro s _ t _ hst
    dsimp only at hst
    have hmul : s * L = t * L := by omega
    exact Nat.eq_of_mul_eq_mul_right hL hmul
  · intro t ht
    simp only [coe_range, Set.mem_Iio] at ht ⊢
    have hle := Nat.mul_le_mul_right L (Nat.succ_le_of_lt ht)
    rw [Nat.succ_mul] at hle
    rw [Nat.mul_comm L T]
    omega
  · intro a ha hout
    rw [mem_range] at ha
    refine mul_eq_zero_of_right _ (before_zeroStuff_eq_zero fun j hj heq => hout ?_)
    -- `a` is `i` modulo `L`, so it is in the branch
    have hjq : j ≤ i / L := (Nat.le_div_iff_mul_le hL).2 hj
    have hmul : i / L * L = (i / L - j) * L + j * L := by
      rw [← Nat.add_mul, Nat.sub_add_cancel hjq]
    have hin : (i / L - j) * L + i % L = a := by omega
    refine ⟨i / L - j, ?_, hin⟩
    rw [coe_range, Set.mem_Iio]
    by_contra hT
    have hle := Nat.mul_le_mul_left L (Nat.le_of_not_lt hT)
    rw [Nat.mul_comm L (i / L - j)] at hle
    omega
  · intro t _
    congr 1
    rcases Nat.lt_or_ge (i / L) t with ht | ht
    · have hle := Nat.mul_le_mul_right L (Nat.succ_le_of_lt ht)
      rw [Nat.succ_mul] at hle
      rw [before_of_lt ht, before_of_lt (by omega)]
    · have hmul : i / L * L = (i / L - t) * L + t * L := by
        rw [← Nat.add_mul, Nat.sub_add_cancel ht]
      have ha : t * L + i % L = i - (i / L - t) * L := by omega
      rw [before_of_le ht, ha, before_zeroStuff_mul hL (by omega)]

end Upfirdn
