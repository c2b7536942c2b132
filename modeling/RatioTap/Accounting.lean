import RatioTap.Converter

/-!
# Exact accounting

`frames_needed` and `outputs_for` solve the floor clock for the number of inputs and for the
number of outputs.  On 64-bit words no step of either wraps for up to `2 ^ 56` frames, so
both have the values they have in exact arithmetic; and for a converter that stands at
output `n` after `x` input frames these values are read off the clock (`framesNeeded_at`,
`outputsFor_at`).
-/

namespace RatioTap

/-- Every intermediate value of the accounting stays below this bound. -/
lemma Covers.fits {A : Word} {n : ℕ} (h : Covers A n) : A.Fits (160 * (n + 162)) := by
  cases A with
  | exact => trivial
  | bits w =>
      obtain ⟨hw, hn⟩ := h
      have hpow : 2 ^ 64 ≤ 2 ^ w := Nat.pow_le_pow_right (by decide) hw
      refine lt_of_lt_of_le ?_ hpow
      omega

lemma Covers.mono {A : Word} {m n : ℕ} (h : Covers A n) (hmn : m ≤ n) : Covers A m := by
  cases A with
  | exact => trivial
  | bits w => exact ⟨h.1, hmn.trans h.2⟩

lemma Covers.of_le {n : ℕ} (h : n ≤ 2 ^ 56) : Covers (.bits 64) n := ⟨le_rfl, h⟩

section Closed

variable {A : Word} {D : Direction} {pos n : ℕ}

lemma mul_decimation_le (D : Direction) (n : ℕ) : n * D.kDecimation ≤ 160 * n := by
  rw [Nat.mul_comm]
  exact Nat.mul_le_mul_right n D.kDecimation_le

lemma mul_phases_le (D : Direction) (n : ℕ) : D.kPhases * n ≤ 160 * n :=
  Nat.mul_le_mul_right n D.kPhases_le

/-- The clock position below which the cursor stands, one product below the next tick. -/
lemma mul_decimation_lt (D : Direction) (n : ℕ) :
    n * D.kDecimation < D.kPhases * (D.tick n + 1) := by
  rw [Direction.tick, FloorClock.tick, Nat.mul_add_one]
  exact Nat.lt_mul_div_succ _ D.kPhases_pos

lemma tick_lt_of_lt {D : Direction} {pos : ℕ} (h : pos < D.kPhases) :
    D.tick pos < D.kDecimation := by
  refine Nat.div_lt_of_lt_mul ?_
  rw [Nat.mul_comm D.kPhases, Nat.mul_comm pos]
  exact Nat.mul_lt_mul_of_pos_left h D.kDecimation_pos

lemma tick_le (D : Direction) (n : ℕ) : D.tick n ≤ 160 * n :=
  (Nat.div_le_self _ _).trans (mul_decimation_le D n)

/-- The quotient of `outputs_for` is not below the cursor subtracted from it. -/
lemma le_quotient (D : Direction) (pos a : ℕ) :
    pos ≤ (D.kPhases * (D.tick pos + a + 1) - 1) / D.kDecimation := by
  rw [Nat.le_div_iff_mul_le D.kDecimation_pos]
  have h1 := mul_decimation_lt D pos
  have h2 := Nat.mul_le_mul_left D.kPhases
    (show D.tick pos + 1 ≤ D.tick pos + a + 1 by omega)
  omega

/-- `frames_needed<D>` is the difference of two ticks. -/
theorem framesNeeded_eq (h : A.Fits (160 * (n + 162))) (hpos : pos < D.kPhases) :
    framesNeeded A D pos n = D.tick (pos + n) - D.tick pos := by
  have hp160 := D.kPhases_le
  have hsum : A.Fits (pos + n) := h.mono (by omega)
  have hmul : A.Fits ((pos + n) * D.kDecimation) :=
    h.mono ((mul_decimation_le D _).trans (by omega))
  have hmul0 : A.Fits (pos * D.kDecimation) :=
    h.mono ((mul_decimation_le D _).trans (by omega))
  simp only [framesNeeded, Nat.mod_eq_of_lt hpos]
  rw [Word.add_eq hsum, Word.mul_eq hmul, Word.mul_eq hmul0]
  exact Word.sub_eq (hmul.mono (Nat.div_le_self _ _)) (D.tick_mono (Nat.le_add_right pos n))

end Closed

namespace Converter

variable {A : Word} {D : Direction} {S K : Type} {s : Converter D S K} {n : ℕ}

/-- `frames_needed` in exact arithmetic. -/
theorem framesNeeded_closed (h : A.Fits (160 * (n + 162))) (hpos : s.mPos < D.kPhases)
    (hpend : s.mPending ≤ 2) :
    s.framesNeeded A n
      = if n = 0 then 0 else s.mPending + (D.tick (s.mPos + (n - 1)) - D.tick s.mPos) := by
  unfold framesNeeded
  rcases Nat.eq_zero_or_pos n with rfl | hn
  · rfl
  · have hp160 := D.kPhases_le
    have hsub : A.sub n 1 = n - 1 := Word.sub_eq (h.mono (by omega)) hn
    have htick := tick_le D (s.mPos + (n - 1))
    rw [if_neg (by omega), if_neg (by omega), hsub,
      RatioTap.framesNeeded_eq (h.mono (by omega)) hpos]
    exact Word.add_eq (h.mono (by omega))

lemma outputsFor_fits (s : Converter D S K) (n : ℕ) : A.Fits (s.outputsFor A n) := by
  unfold outputsFor
  split
  · exact (Word.fits_wrap 0).mono (Nat.zero_le _)
  · exact Word.fits_wrap _

/-- `outputs_for` in exact arithmetic. -/
theorem outputsFor_closed (h : A.Fits (160 * (n + 162))) (hpos : s.mPos < D.kPhases) :
    s.outputsFor A n
      = if n < s.mPending then 0
        else (D.kPhases * (D.tick s.mPos + (n - s.mPending) + 1) - 1) / D.kDecimation - s.mPos
          + 1 := by
  unfold outputsFor
  split
  · rfl
  · next hn =>
    have hp160 := D.kPhases_le
    have hm160 := D.kDecimation_le
    have htick := tick_lt_of_lt hpos
    have hprod := mul_phases_le D (D.tick s.mPos + (n - s.mPending) + 1)
    have hbase : A.mul s.mPos D.kDecimation / D.kPhases = D.tick s.mPos := by
      rw [Word.mul_eq (h.mono ((mul_decimation_le D _).trans (by omega)))]
      rfl
    have ha : A.sub n s.mPending = n - s.mPending := Word.sub_eq (h.mono (by omega)) (by omega)
    have hsum : A.add (D.tick s.mPos) (n - s.mPending) = D.tick s.mPos + (n - s.mPending) :=
      Word.add_eq (h.mono (by omega))
    have hsum1 : A.add (D.tick s.mPos + (n - s.mPending)) 1
        = D.tick s.mPos + (n - s.mPending) + 1 := Word.add_eq (h.mono (by omega))
    dsimp only
    rw [hbase, ha, hsum, hsum1]
    have hle := le_quotient D s.mPos (n - s.mPending)
    have hquot := Nat.div_le_self
      (D.kPhases * (D.tick s.mPos + (n - s.mPending) + 1) - 1) D.kDecimation
    have hpos1 := Nat.mul_pos D.kPhases_pos
      (show 0 < D.tick s.mPos + (n - s.mPending) + 1 by omega)
    rw [Word.mul_eq (h.mono (by omega)), Word.sub_eq (h.mono (by omega)) hpos1,
      Word.sub_eq (h.mono (by omega)) hle]
    exact Word.add_eq (h.mono (by omega))

end Converter

/-! ### Standing at an output -/

/-- A converter may stand before output `n` after `x` input frames: the earlier outputs had
the input they need, and nothing was taken in beyond what output `n` needs. -/
structure Standing (D : Direction) (x n : ℕ) : Prop where
  le : x ≤ D.tick n + 1
  lt : n = 0 ∨ D.tick (n - 1) < x

/-- The input frames that output `n` still waits for. -/
def gapLeft (D : Direction) (x n : ℕ) : ℕ := D.tick n + 1 - x

@[simp] lemma gapLeft_zero (D : Direction) : gapLeft D 0 0 = 1 := by simp [gapLeft]

lemma gapLeft_add (D : Direction) (x n q : ℕ) :
    gapLeft D (x + q) n = gapLeft D x n - q := (Nat.sub_sub _ _ _).symm

/-- Output `n` waits exactly when it is not due. -/
lemma gapLeft_ne_zero_iff {D : Direction} {x n : ℕ} : gapLeft D x n ≠ 0 ↔ D.due x ≤ n := by
  rw [D.due_le_iff, gapLeft]
  omega

namespace Standing

variable {D : Direction} {x y n : ℕ}

lemma add_gapLeft (h : Standing D x n) : x + gapLeft D x n = D.tick n + 1 :=
  Nat.add_sub_of_le h.le

/-- More input frames, up to the last one that output `n` waits for. -/
lemma mono (h : Standing D x n) (hxy : x ≤ y) (hy : y ≤ D.tick n + 1) : Standing D y n :=
  ⟨hy, h.lt.imp_right fun h => h.trans_le hxy⟩

lemma zero (D : Direction) : Standing D 0 0 := ⟨Nat.zero_le _, .inl rfl⟩

/-- One more input frame, while output `n` waits for one. -/
lemma feed (h : Standing D x n) (hgap : gapLeft D x n ≠ 0) : Standing D (x + 1) n := by
  have := h.add_gapLeft
  exact h.mono (Nat.le_succ x) (by omega)

/-- Output `n`, once it waits for nothing. -/
lemma emit (h : Standing D x n) (hgap : gapLeft D x n = 0) : Standing D x (n + 1) := by
  have hmono := D.tick_mono (Nat.le_succ n)
  rw [Nat.succ_eq_add_one] at hmono
  simp only [gapLeft] at hgap
  exact ⟨h.le.trans (by omega), .inr (by rw [Nat.add_sub_cancel]; omega)⟩

/-- After an output, the next one waits for the advance of the schedule. -/
lemma gapLeft_emit (h : Standing D x n) (hgap : gapLeft D x n = 0) :
    gapLeft D x (n + 1) = D.gap n := by
  have hle := h.le
  simp only [gapLeft] at hgap ⊢
  rw [D.tick_succ]
  omega

lemma gapLeft_le (h : Standing D x n) : gapLeft D x n ≤ D.maxAdvance := by
  rcases h.lt with rfl | hlt
  · have : 1 ≤ D.maxAdvance := by cases D <;> decide
    simp only [gapLeft, D.tick_zero]
    omega
  · rcases Nat.eq_zero_or_pos n with rfl | hn
    · have : 1 ≤ D.maxAdvance := by cases D <;> decide
      simp only [gapLeft, D.tick_zero]
      omega
    · have hgap := D.gap_le_maxAdvance (n - 1)
      have hsucc := D.tick_succ (n - 1)
      rw [Nat.sub_add_cancel hn] at hsucc
      simp only [gapLeft]
      omega

/-- A gap fits its 32-bit member. -/
lemma gapLeft_lt (h : Standing D x n) : gapLeft D x n < 2 ^ 32 :=
  (h.gapLeft_le.trans D.maxAdvance_le).trans_lt (by decide)

lemma le_due (h : Standing D x n) : n ≤ D.due x := by
  by_contra hlt
  have hx := D.due_le_iff.1 (show D.due x ≤ n - 1 by omega)
  rcases h.lt with rfl | h <;> omega

/-- More input frames make no fewer outputs due. -/
lemma le_due_add (h : Standing D x n) (y : ℕ) : n ≤ D.due (x + y) :=
  h.le_due.trans (D.due_mono (Nat.le_add_right x y))

/-- While output `n` waits, exactly the outputs before it are due. -/
lemma due_eq (h : Standing D x n) (hgap : gapLeft D x n ≠ 0) : D.due x = n :=
  le_antisymm (gapLeft_ne_zero_iff.1 hgap) h.le_due

end Standing

/-- A converter that stands at an output between two calls: the gap before it is empty only
behind an output with a zero advance. -/
structure Resting (D : Direction) (x n : ℕ) : Prop extends Standing D x n where
  free : gapLeft D x n = 0 → 0 < n ∧ x = D.tick (n - 1) + 1

namespace Resting

variable {D : Direction} {x n : ℕ}

lemma zero (D : Direction) : Resting D 0 0 where
  toStanding := Standing.zero D
  free h := by simp [gapLeft] at h

lemma of_gapLeft_ne_zero (hst : Standing D x n) (h : gapLeft D x n ≠ 0) : Resting D x n :=
  ⟨hst, fun h0 => absurd h0 h⟩

/-- Where all outputs that are due have been emitted. -/
lemma due (D : Direction) (x : ℕ) : Resting D x (D.due x) := by
  have hle : x ≤ D.tick (D.due x) := D.due_le_iff.1 le_rfl
  refine of_gapLeft_ne_zero ⟨hle.trans (Nat.le_succ _), ?_⟩ (gapLeft_ne_zero_iff.2 le_rfl)
  rcases Nat.eq_zero_or_pos (D.due x) with h | h
  · exact .inl h
  · exact .inr (D.lt_due_iff.1 (by omega))

/-- The advance before a free output is zero. -/
lemma gap_eq_zero (h : Resting D x n) (h0 : gapLeft D x n = 0) : D.gap (n - 1) = 0 := by
  obtain ⟨hn, hx⟩ := h.free h0
  have hsucc := D.tick_succ (n - 1)
  have hadd := h.add_gapLeft
  rw [Nat.sub_add_cancel hn] at hsucc
  omega

/-- Exactly one output is due and not yet emitted where the gap is empty. -/
lemma due_eq_succ (h : Resting D x n) (h0 : gapLeft D x n = 0) : D.due x = n + 1 := by
  obtain ⟨hn, hx⟩ := h.free h0
  have hgap := h.gap_eq_zero h0
  have hadd := h.add_gapLeft
  -- the advance after a free output is not zero, so the next output has to wait
  have htwo := D.tick_lt_tick_add_two (n - 1)
  have hsucc := D.tick_succ (n - 1)
  rw [Nat.sub_add_cancel hn] at htwo hsucc
  refine Direction.due_eq_of (by omega) (.inr ?_)
  rw [Nat.add_sub_cancel]
  omega

end Resting

namespace Converter

variable {A : Word} {D : Direction} {S K : Type} {s : Converter D S K} {x n m : ℕ}

/-- The converter's cursors are those of a converter standing at output `n`. -/
structure At (s : Converter D S K) (x n : ℕ) : Prop where
  standing : Standing D x n
  pos_eq : s.mPos = n % D.kPhases
  pending_eq : s.mPending = gapLeft D x n

lemma At.pos_lt (h : s.At x n) : s.mPos < D.kPhases := by
  rw [h.pos_eq]
  exact Nat.mod_lt n D.kPhases_pos

lemma At.pending_le (h : s.At x n) : s.mPending ≤ D.maxAdvance := by
  rw [h.pending_eq]
  exact h.standing.gapLeft_le

/-- The tick of a later output, read from the cursor. -/
lemma At.tick_add (h : s.At x n) (j : ℕ) :
    D.tick (n + j) = n / D.kPhases * D.kDecimation + D.tick (s.mPos + j) := by
  rw [h.pos_eq]
  conv_lhs => rw [← Nat.div_add_mod' n D.kPhases, Nat.add_assoc]
  exact D.tick_add_period _ _

/-- The input needed for `m` more outputs is what lies before the tick of the last one. -/
theorem framesNeeded_at (hfits : A.Fits (160 * (m + 162))) (h : s.At x n) :
    s.framesNeeded A m = if m = 0 then 0 else gapLeft D x (n + (m - 1)) := by
  rw [framesNeeded_closed hfits h.pos_lt (h.pending_le.trans D.maxAdvance_le), h.pending_eq]
  refine if_congr Iff.rfl rfl ?_
  have h0 := h.tick_add 0
  have hj := h.tick_add (m - 1)
  have hle := h.standing.le
  have hmono := D.tick_mono (Nat.le_add_right s.mPos (m - 1))
  simp only [Nat.add_zero] at h0
  simp only [gapLeft]
  omega

/-- On 64-bit words the need of up to `2 ^ 56` outputs is exact. -/
lemma At.framesNeeded_bits (h : s.At x n) (hm : m ≤ 2 ^ 56) :
    s.framesNeeded (.bits 64) m = s.framesNeeded .exact m := by
  rw [framesNeeded_at (Covers.of_le hm).fits h, framesNeeded_at (A := .exact) trivial h]

/-- The outputs that `m` more input frames allow are the ones that become due. -/
theorem outputsFor_at (hfits : A.Fits (160 * (m + 162))) (h : s.At x n) :
    s.outputsFor A m = D.due (x + m) - n := by
  rw [outputsFor_closed hfits h.pos_lt, h.pending_eq]
  have hst := h.standing
  split
  · next hm =>
    have hdue : D.due (x + m) = n := by
      simp only [gapLeft] at hm
      exact Direction.due_eq_of (by omega) (hst.lt.imp_right fun h => by omega)
    rw [hdue, Nat.sub_self]
  · next hm =>
    -- both quotients are of the same product, `n / L` superblocks apart
    obtain ⟨q, hq⟩ : ∃ q, q = n / D.kPhases := ⟨_, rfl⟩
    have h0 := h.tick_add 0
    simp only [Nat.add_zero, ← hq] at h0
    have hn : n = q * D.kPhases + s.mPos := by rw [h.pos_eq, hq, Nat.div_add_mod']
    have hle := hst.le
    simp only [gapLeft] at hm ⊢
    have hx : x + m = q * D.kDecimation + (D.tick s.mPos + (m - (D.tick n + 1 - x)) + 1) := by
      omega
    rw [Direction.due_eq_div (by omega), hx]
    have hquot := le_quotient D s.mPos (m - (D.tick n + 1 - x))
    generalize D.tick s.mPos + (m - (D.tick n + 1 - x)) = b at hquot ⊢
    have hprod : (q * D.kDecimation + (b + 1)) * D.kPhases - 1
        = D.kPhases * (b + 1) - 1 + q * D.kPhases * D.kDecimation := by
      have hpos : 0 < D.kPhases * (b + 1) := Nat.mul_pos D.kPhases_pos (Nat.succ_pos b)
      have : (q * D.kDecimation + (b + 1)) * D.kPhases
          = D.kPhases * (b + 1) + q * D.kPhases * D.kDecimation := by ring
      omega
    rw [hprod, Nat.add_mul_div_right _ _ D.kDecimation_pos, hn]
    omega

end Converter

end RatioTap
