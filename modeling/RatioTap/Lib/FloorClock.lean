import Mathlib

/-!
# Floor clocks

A clock that has made `⌊n * M / L⌋` ticks by step `n`: the integer skeleton of every
process that is driven at one rate and consumes at another, when the two rates stand in
the exact ratio `M : L`.  `tick` is the count itself, `gap` the number of ticks between two
consecutive steps, and `due x` the first step by which `x` ticks have been made.

The two counts are adjoint (`lt_due_iff`), the gaps repeat with period `L` and add up to
the ticks (`tick_succ`, `gap_mod`), and the number of steps that `y` further ticks allow
never differs from `y * L / M` by a whole step (`due_add_le`, `le_due_add`).
-/

namespace FloorClock

/-- The ticks made by step `n`. -/
def tick (L M n : ℕ) : ℕ := n * M / L

/-- The ticks made between step `n` and the next one. -/
def gap (L M n : ℕ) : ℕ := tick L M (n + 1) - tick L M n

/-- The first step by which `x` ticks have been made. -/
def due (L M x : ℕ) : ℕ := x * L ⌈/⌉ M

variable {L M : ℕ}

@[simp] lemma tick_zero : tick L M 0 = 0 := by simp [tick]

lemma tick_mono {m n : ℕ} (h : m ≤ n) : tick L M m ≤ tick L M n :=
  Nat.div_le_div_right (Nat.mul_le_mul_right M h)

lemma tick_succ (n : ℕ) : tick L M (n + 1) = tick L M n + gap L M n := by
  have := tick_mono (L := L) (M := M) (Nat.le_succ n)
  simp only [gap, Nat.succ_eq_add_one] at this ⊢
  omega

/-- The gaps telescope: over any stretch of steps they add up to the ticks made. -/
lemma tick_add (m n : ℕ) :
    tick L M (m + n) = tick L M m + ∑ i ∈ Finset.range n, gap L M (m + i) := by
  induction n with
  | zero => simp
  | succ n ih => rw [← Nat.add_assoc, tick_succ, ih, Finset.sum_range_succ, Nat.add_assoc]

/-! ### Steps and ticks are adjoint -/

lemma due_le_iff (hL : 0 < L) (hM : 0 < M) {x n : ℕ} : due L M x ≤ n ↔ x ≤ tick L M n := by
  rw [due, ceilDiv_le_iff_le_mul hM, tick, Nat.le_div_iff_mul_le hL, Nat.mul_comm n M]

lemma lt_due_iff (hL : 0 < L) (hM : 0 < M) {x n : ℕ} : n < due L M x ↔ tick L M n < x := by
  rw [← not_le, due_le_iff hL hM, not_le]

lemma lt_due_iff_mul (hL : 0 < L) (hM : 0 < M) {x n : ℕ} : n < due L M x ↔ n * M < x * L := by
  rw [lt_due_iff hL hM, tick, Nat.div_lt_iff_lt_mul hL]

lemma due_mono (hL : 0 < L) (hM : 0 < M) {x y : ℕ} (h : x ≤ y) : due L M x ≤ due L M y := by
  rw [due_le_iff hL hM]
  exact h.trans ((due_le_iff hL hM).1 le_rfl)

/-- The first step with `x` ticks is the one step that has them and has no predecessor
with them. -/
lemma due_eq_of (hL : 0 < L) (hM : 0 < M) {x n : ℕ} (hle : x ≤ tick L M n)
    (hlt : n = 0 ∨ tick L M (n - 1) < x) : due L M x = n := by
  have h1 : due L M x ≤ n := (due_le_iff hL hM).2 hle
  rcases hlt with rfl | hlt
  · omega
  · have h2 := (lt_due_iff hL hM).2 hlt
    omega

/-- The closed form of `due`, with the division rounded down. -/
lemma due_eq_div (hM : 0 < M) {x : ℕ} (hx : 0 < x * L) : due L M x = (x * L - 1) / M + 1 := by
  rw [due, Nat.ceilDiv_eq_add_pred_div, show x * L + M - 1 = x * L - 1 + M by omega,
    Nat.add_div_right _ hM]

/-! ### Periodicity -/

lemma tick_add_period (hL : 0 < L) (q r : ℕ) :
    tick L M (q * L + r) = q * M + tick L M r := by
  rw [tick, tick, show (q * L + r) * M = r * M + L * (q * M) by ring,
    Nat.add_mul_div_left _ _ hL, Nat.add_comm]

/-- The ticks of a stretch only depend on where in the period it starts. -/
lemma tick_add_mod (hL : 0 < L) (n r : ℕ) :
    tick L M (n + r) + tick L M (n % L) = tick L M n + tick L M (n % L + r) := by
  have hfar := tick_add_period (M := M) hL (n / L) (n % L + r)
  have hnear := tick_add_period (M := M) hL (n / L) (n % L)
  rw [← Nat.add_assoc, Nat.div_add_mod'] at hfar
  rw [Nat.div_add_mod'] at hnear
  omega

lemma gap_mod (hL : 0 < L) (n : ℕ) : gap L M (n % L) = gap L M n := by
  have h := tick_add_mod (M := M) hL n 1
  have hmod := tick_mono (L := L) (M := M) (Nat.le_succ (n % L))
  rw [Nat.succ_eq_add_one] at hmod
  simp only [gap]
  omega

/-- Stepping a cyclic cursor by compare-and-wrap is stepping it modulo the period. -/
lemma succ_mod_eq (hL : 0 < L) (n : ℕ) :
    (if n % L + 1 = L then 0 else n % L + 1) = (n + 1) % L := by
  have hlt := Nat.mod_lt n hL
  rw [← Nat.mod_add_mod n L 1]
  split
  · next h => rw [h, Nat.mod_self]
  · next h => exact (Nat.mod_eq_of_lt (by omega)).symm

/-! ### Phases

A step also has a phase, the remainder of the division that its ticks are the quotient of. -/

lemma phase_injOn (hcop : Nat.Coprime L M) (m : ℕ) :
    Set.InjOn (fun i => (m + i) * M % L) (Finset.range L) := by
  intro i hi j hj hij
  rw [Finset.mem_coe, Finset.mem_range] at hi hj
  have hmod : m + i ≡ m + j [MOD L] := Nat.ModEq.cancel_right_of_coprime hcop hij
  exact (Nat.ModEq.add_left_cancel' m hmod).eq_of_lt_of_lt hi hj

/-- Any `L` steps in a row have every phase once. -/
theorem image_phase (hL : 0 < L) (hcop : Nat.Coprime L M) (m : ℕ) :
    (Finset.range L).image (fun i => (m + i) * M % L) = Finset.range L := by
  refine Finset.eq_of_subset_of_card_le ?_ ?_
  · intro ph hph
    obtain ⟨i, -, rfl⟩ := Finset.mem_image.1 hph
    exact Finset.mem_range.2 (Nat.mod_lt _ hL)
  · rw [Finset.card_image_of_injOn (phase_injOn hcop m)]

lemma add_tick_le (m n : ℕ) : tick L M m + tick L M n ≤ tick L M (m + n) := by
  simp only [tick, Nat.add_mul]
  exact Nat.div_add_div_le_add_div

lemma tick_add_le (hL : 0 < L) (m n : ℕ) :
    tick L M (m + n) ≤ tick L M m + tick L M n + 1 := by
  simp only [tick, Nat.add_mul]
  rw [Nat.add_div hL]
  split <;> omega

lemma gap_le (hL : 0 < L) (n : ℕ) : gap L M n ≤ M / L + 1 := by
  have h := tick_add_le (M := M) hL n 1
  rw [tick_succ] at h
  simpa [tick, Nat.add_assoc] using h

lemma le_gap (n : ℕ) : M / L ≤ gap L M n := by
  have h := add_tick_le (L := L) (M := M) n 1
  rw [tick_succ n] at h
  have h1 : tick L M 1 = M / L := by simp [tick]
  omega

/-- When the clock is at least half as fast as the steps, it never misses two in a row. -/
lemma tick_lt_tick_add_two (hL : 0 < L) (h : L ≤ 2 * M) (n : ℕ) :
    tick L M n < tick L M (n + 2) := by
  have h1 : 1 ≤ tick L M 2 := by
    rw [tick, Nat.le_div_iff_mul_le hL]
    omega
  have h2 := add_tick_le (L := L) (M := M) n 2
  omega

/-- A further `n` steps make at most `⌈n * M / L⌉` ticks. -/
lemma tick_add_le_ceilDiv (hL : 0 < L) (m n : ℕ) :
    tick L M (m + n) ≤ tick L M m + n * M ⌈/⌉ L := by
  have hceil : n * M ≤ L * (n * M ⌈/⌉ L) := (ceilDiv_le_iff_le_mul hL).1 le_rfl
  rw [tick, tick, Nat.add_mul, ← Nat.add_mul_div_left _ _ hL]
  exact Nat.div_le_div_right (Nat.add_le_add_left hceil _)

/-- Before the last of `n` steps fewer ticks have been made than `n` steps may take. -/
lemma tick_lt_ceilDiv (hL : 0 < L) (hM : 0 < M) {n : ℕ} (hn : 0 < n) :
    tick L M (n - 1) < n * M ⌈/⌉ L := by
  refine (lt_due_iff hM hL).2 ?_
  rw [tick, Nat.div_lt_iff_lt_mul hM]
  exact (Nat.div_mul_le_self _ _).trans_lt (Nat.mul_lt_mul_of_pos_right (by omega) hM)

/-- A further `y` ticks take at most `⌈y * L / M⌉` steps. -/
lemma due_add_le (hL : 0 < L) (hM : 0 < M) (x y : ℕ) :
    due L M (x + y) ≤ due L M x + y * L ⌈/⌉ M := by
  change _ ≤ due L M x + due L M y
  rw [due_le_iff hL hM]
  have hx := (due_le_iff hL hM).1 (le_refl (due L M x))
  have hy := (due_le_iff hL hM).1 (le_refl (due L M y))
  have := add_tick_le (L := L) (M := M) (due L M x) (due L M y)
  omega

/-- A further `y` ticks take at least `⌊y * L / M⌋` steps. -/
lemma le_due_add (hL : 0 < L) (hM : 0 < M) (x y : ℕ) :
    due L M x + y * L / M ≤ due L M (x + y) := by
  have hy : y * L / M * M ≤ y * L := Nat.div_mul_le_self _ _
  rcases Nat.eq_zero_or_pos (due L M x) with h0 | hpos
  · rw [h0, Nat.zero_add, due]
    exact (Nat.div_le_div_right (Nat.mul_le_mul_right L (Nat.le_add_left y x))).trans
      (floorDiv_le_ceilDiv (a := M) (b := (x + y) * L))
  · -- the step before `due x` has too few ticks, and `⌊y * L / M⌋` later ones still do
    have hx := (lt_due_iff_mul hL hM).1 (show due L M x - 1 < due L M x by omega)
    have hlt : due L M x - 1 + y * L / M < due L M (x + y) := by
      rw [lt_due_iff_mul hL hM, Nat.add_mul, Nat.add_mul]
      omega
    omega

/-- The two roundings are at most one apart. -/
lemma ceilDiv_le_div_add_one (hM : 0 < M) (x : ℕ) : x ⌈/⌉ M ≤ x / M + 1 := by
  rw [ceilDiv_le_iff_le_mul hM]
  exact (Nat.lt_mul_div_succ x hM).le

/-- A further `y` ticks take `⌊y * L / M⌋` or `⌈y * L / M⌉` steps. -/
lemma due_add_eq (hL : 0 < L) (hM : 0 < M) (x y : ℕ) :
    due L M (x + y) = due L M x + y * L / M ∨ due L M (x + y) = due L M x + y * L ⌈/⌉ M := by
  have hle := due_add_le hL hM x y
  have hge := le_due_add hL hM x y
  have hone := ceilDiv_le_div_add_one hM (y * L)
  omega

/-! ### There and back -/

/-- What rounding up adds. -/
lemma ceilDiv_mul (hM : 0 < M) (a : ℕ) : a ⌈/⌉ M * M = a + (M - a % M) % M := by
  have hsplit := Nat.div_add_mod a M
  have hmod := Nat.mod_lt a hM
  rw [Nat.ceilDiv_eq_add_pred_div]
  rcases Nat.eq_zero_or_pos (a % M) with h0 | hpos
  · have hceil : (a + M - 1) / M = a / M := by
      rw [show a + M - 1 = M * (a / M) + (M - 1) by omega, Nat.mul_add_div hM,
        Nat.div_eq_of_lt (show M - 1 < M by omega), Nat.add_zero]
    rw [hceil, h0, Nat.sub_zero, Nat.mod_self, Nat.mul_comm]
    omega
  · have hceil : (a + M - 1) / M = a / M + 1 := by
      rw [show a + M - 1 = M * (a / M + 1) + (a % M - 1) by rw [Nat.mul_succ]; omega,
        Nat.mul_add_div hM, Nat.div_eq_of_lt (show a % M - 1 < M by omega), Nat.add_zero]
    rw [hceil, Nat.mod_eq_of_lt (by omega : M - a % M < M), Nat.succ_mul, Nat.mul_comm]
    omega

/-- The steps that `x` ticks take are, counted as ticks of a clock at the inverse ratio, `x` steps
and the remainder of the last one. -/
lemma due_due (hL : 0 < L) (hM : 0 < M) (x : ℕ) :
    due M L (due L M x) = x + (M - x * L % M) % M ⌈/⌉ L := by
  rw [due, due, ceilDiv_mul hM, Nat.ceilDiv_eq_add_pred_div, Nat.ceilDiv_eq_add_pred_div,
    show ∀ r, x * L + r + L - 1 = r + L - 1 + x * L by intro r; omega, Nat.add_mul_div_right _ _ hL,
    Nat.add_comm]

end FloorClock
