import RatioTap.Lib.Upfirdn

/-!
# Resampling as a linear periodic system

The chain of `Upfirdn` as one operator on signals, `resample`.  It is linear, and a delay by a
whole period of `M` input samples delays its output by `L` samples (`resample_delay`).  What it
makes of a unit sample is a subsequence of the filter (`resample_impulse`); when `L` and `M`
have no common factor, the unit samples of one period read every coefficient exactly once
(`existsUnique_read`), so that the operator determines the filter (`resample_injective`).
-/

namespace Upfirdn

open Finset

variable {R : Type*} [CommSemiring R] {L M N : ℕ} {h x y : ℕ → R}

/-- The chain: stuff zeros, filter with the first `N` coefficients of `h`, keep every `M`-th. -/
def resample (L M N : ℕ) (h x : ℕ → R) : ℕ → R := decimate M (fir N h (zeroStuff L x))

/-- The signal `q` samples later, zero before. -/
def delay (q : ℕ) (x : ℕ → R) : ℕ → R := fun j => if j < q then 0 else x (j - q)

/-- The unit sample at `j`. -/
def impulse (j : ℕ) : ℕ → R := fun i => if i = j then 1 else 0

lemma resample_apply (n : ℕ) :
    resample L M N h x n = ∑ a ∈ range N, h a * before (zeroStuff L x) (n * M) a := rfl

/-- A resampled sample only depends on the samples up to the one under it. -/
lemma resample_congr {n : ℕ} (hxy : ∀ j ≤ n * M / L, x j = y j) :
    resample L M N h x n = resample L M N h y n := by
  rw [resample_apply, resample_apply]
  refine sum_congr rfl fun a _ => ?_
  congr 1
  unfold before
  split
  · unfold zeroStuff
    split
    · exact hxy _ (Nat.div_le_div_right (Nat.sub_le _ _))
    · rfl
  · rfl

/-- Once the last of `X` samples is behind the filter, nothing comes out any more. -/
lemma resample_eq_zero (hL : 0 < L) {X n : ℕ} (hx : ∀ j, X ≤ j → x j = 0)
    (hn : (X - 1) * L + N ≤ n * M) : resample L M N h x n = 0 := by
  rw [resample, decimate_fir_zeroStuff hL hx, filter_false_of_mem, sum_empty]
  rintro j hj ⟨-, hlt⟩
  have hle : j * L ≤ (X - 1) * L := Nat.mul_le_mul_right L (by rw [mem_range] at hj; omega)
  omega

/-! ### Linearity -/

lemma before_add (i a : ℕ) : before (x + y) i a = before x i a + before y i a := by
  unfold before
  split <;> simp

lemma before_smul (c : R) (i a : ℕ) : before (c • x) i a = c * before x i a := by
  unfold before
  split <;> simp

lemma zeroStuff_add : zeroStuff L (x + y) = zeroStuff L x + zeroStuff L y := by
  ext i
  simp only [zeroStuff, Pi.add_apply]
  split <;> simp

lemma zeroStuff_smul (c : R) : zeroStuff L (c • x) = c • zeroStuff L x := by
  ext i
  simp only [zeroStuff, Pi.smul_apply, smul_eq_mul]
  split <;> simp

theorem resample_add : resample L M N h (x + y) = resample L M N h x + resample L M N h y := by
  ext n
  simp only [resample_apply, zeroStuff_add, before_add, Pi.add_apply, mul_add, sum_add_distrib]

theorem resample_smul (c : R) : resample L M N h (c • x) = c • resample L M N h x := by
  ext n
  simp only [resample_apply, zeroStuff_smul, before_smul, Pi.smul_apply, smul_eq_mul, mul_sum]
  exact sum_congr rfl fun a _ => mul_left_comm _ _ _

/-! ### Delay by whole periods -/

lemma zeroStuff_delay (hL : 0 < L) (q : ℕ) :
    zeroStuff L (delay q x) = delay (q * L) (zeroStuff L x) := by
  ext i
  simp only [zeroStuff, delay]
  by_cases hi : i < q * L
  · have hdiv : i / L < q := Nat.div_lt_of_lt_mul (by rwa [Nat.mul_comm])
    simp [hi, hdiv]
  · have hdiv : ¬ i / L < q := by
      rw [Nat.not_lt, Nat.le_div_iff_mul_le hL]
      omega
    rw [if_neg hi, if_neg hdiv]
    have hsub : (i - q * L) / L = i / L - q := by
      rw [Nat.mul_comm q L]
      exact Nat.sub_mul_div i L q
    have hdvd : L ∣ i - q * L ↔ L ∣ i :=
      (Nat.dvd_sub_iff_left (by omega) (Nat.dvd_mul_left L q))
    rw [hsub]
    exact (if_congr hdvd rfl rfl).symm

lemma before_delay (q i a : ℕ) : before (delay q x) (i + q) a = before x i a := by
  unfold before delay
  by_cases ha : a ≤ i
  · rw [if_pos (by omega), if_pos ha, if_neg (by omega)]
    congr 1
    omega
  · rw [if_neg ha]
    split
    · rw [if_pos (by omega)]
    · rfl

lemma resample_delay_add (hL : 0 < L) (q n : ℕ) :
    resample L M N h (delay (q * M) x) (q * L + n) = resample L M N h x n := by
  simp only [resample_apply]
  refine sum_congr rfl fun a _ => ?_
  rw [zeroStuff_delay hL, show (q * L + n) * M = n * M + q * M * L by ring, before_delay]

/-- `q` periods of `M` samples in are `q` periods of `L` samples out. -/
theorem resample_delay (hL : 0 < L) (hM : 0 < M) (q : ℕ) :
    resample L M N h (delay (q * M) x) = delay (q * L) (resample L M N h x) := by
  ext n
  rcases Nat.lt_or_ge n (q * L) with hn | hn
  · -- nothing but the silence has come in yet
    have hzero : ∀ j ≤ n * M / L, delay (q * M) x j = (0 : ℕ → R) j := by
      intro j hj
      have hlt : n * M / L < q * M := by
        rw [Nat.div_lt_iff_lt_mul hL, Nat.mul_right_comm]
        exact Nat.mul_lt_mul_of_pos_right hn hM
      exact if_pos (hj.trans_lt hlt)
    have hnone : resample L M N h (0 : ℕ → R) = 0 := by
      have hsmul := resample_smul (L := L) (M := M) (N := N) (h := h) (x := (0 : ℕ → R)) 0
      rwa [zero_smul, zero_smul] at hsmul
    rw [resample_congr hzero, hnone, delay, if_pos hn]
    rfl
  · obtain ⟨i, rfl⟩ := Nat.exists_eq_add_of_le hn
    rw [resample_delay_add hL, delay, if_neg (by omega), Nat.add_sub_cancel_left]

/-! ### The response to a unit sample -/

lemma zeroStuff_impulse (hL : 0 < L) (j : ℕ) :
    zeroStuff L (impulse j : ℕ → R) = impulse (j * L) := by
  ext i
  simp only [zeroStuff, impulse]
  by_cases hi : i = j * L
  · subst hi
    simp [Nat.mul_div_cancel j hL]
  · rw [if_neg hi]
    split
    · next hdvd =>
      rw [if_neg]
      rintro rfl
      exact hi (Nat.div_mul_cancel hdvd).symm
    · rfl

/-- A unit sample at `j` gives every `M`-th coefficient from `j * L` before the first on. -/
theorem resample_impulse (hL : 0 < L) (j n : ℕ) :
    resample L M N h (impulse j) n
      = if j * L ≤ n * M ∧ n * M - j * L < N then h (n * M - j * L) else 0 := by
  rw [resample_apply, zeroStuff_impulse hL]
  have hterm (a : ℕ) : h a * before (impulse (j * L)) (n * M) a
      = if a = n * M - j * L ∧ j * L ≤ n * M then h a else 0 := by
    unfold before impulse
    split
    · by_cases hj : n * M - a = j * L
      · rw [if_pos hj, if_pos (by omega), mul_one]
      · rw [if_neg hj, if_neg (by omega), mul_zero]
    · rw [if_neg (by omega), mul_zero]
  simp only [hterm]
  by_cases hj : j * L ≤ n * M
  · simp only [hj, and_true, true_and, sum_ite_eq' (range N) (n * M - j * L) h, mem_range]
  · simp [hj]

/-- With no common factor of `L` and `M`, each coefficient is read by one unit sample of a
period, and at one output. -/
theorem existsUnique_read (hM : 0 < M) (hcop : Nat.Coprime L M) (i : ℕ) :
    ∃! p : ℕ × ℕ, p.1 < M ∧ p.2 * M = p.1 * L + i := by
  have hne : NeZero M := ⟨hM.ne'⟩
  -- the period has one sample in the residue class of the coefficient
  let j := (-(i : ZMod M) * (L : ZMod M)⁻¹).val
  have hj : j < M := ZMod.val_lt _
  have hdvd : M ∣ j * L + i := by
    rw [← ZMod.natCast_eq_zero_iff]
    have hcast : ((j : ℕ) : ZMod M) = -(i : ZMod M) * (L : ZMod M)⁻¹ := ZMod.natCast_zmod_val _
    have hinv : (L : ZMod M)⁻¹ * L = 1 := by
      rw [mul_comm]
      exact ZMod.coe_mul_inv_eq_one L hcop
    rw [Nat.cast_add, Nat.cast_mul, hcast, mul_assoc, hinv, mul_one, neg_add_cancel]
  refine ⟨(j, (j * L + i) / M), ⟨hj, Nat.div_mul_cancel hdvd⟩, ?_⟩
  rintro ⟨j', n'⟩ ⟨hj', hn'⟩
  dsimp only at hj' hn'
  have hmod : j' * L ≡ j * L [MOD M] := by
    refine Nat.ModEq.add_right_cancel' i ?_
    have h0 : j' * L + i ≡ 0 [MOD M] := (Nat.modEq_zero_iff_dvd).2 ⟨n', by rw [← hn', Nat.mul_comm]⟩
    exact h0.trans ((Nat.modEq_zero_iff_dvd).2 hdvd).symm
  have heq : j' = j :=
    (hmod.cancel_right_of_coprime ((Nat.gcd_comm M L).trans hcop)).eq_of_lt_of_lt hj' hj
  rw [Prod.mk.injEq, heq]
  refine ⟨rfl, ?_⟩
  rw [← heq, ← hn', Nat.mul_div_cancel n' hM]

/-- The unit samples of one period tell two filters apart. -/
theorem resample_injective (hL : 0 < L) (hM : 0 < M) (hcop : Nat.Coprime L M) {h' : ℕ → R}
    (heq : ∀ j < M, resample L M N h (impulse j) = resample L M N h' (impulse j)) :
    ∀ i < N, h i = h' i := by
  intro i hi
  obtain ⟨⟨j, n⟩, ⟨hj, hn⟩, -⟩ := existsUnique_read hM hcop i
  dsimp only at hj hn
  have hread := congrFun (heq j hj) n
  rw [resample_impulse hL, resample_impulse hL] at hread
  have hsub : n * M - j * L = i := by omega
  have hin : j * L ≤ n * M ∧ n * M - j * L < N := ⟨by omega, by omega⟩
  rwa [if_pos hin, if_pos hin, hsub] at hread

end Upfirdn
