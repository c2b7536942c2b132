import RatioTap.Stream

/-!
# The cursor on the schedule

The cursor that `emit` and `process_walk` move over the schedule: it steps by comparing and
wrapping (`nextPos`), and never computes a remainder or a quotient.  From any position, over
any number of steps and across any number of superblocks, the advances it meets add up to the
closed form of the input need (`schedule_never_drifts`): the narrowed table of one period
stands for the whole floor clock.
-/

namespace RatioTap

open Converter

variable {A : Word} {D : Direction} {pos n : ℕ}

/-- The cursor after `i` outputs. -/
lemma nextPos_iterate (hpos : pos < D.kPhases) (i : ℕ) :
    (nextPos D)^[i] pos = (pos + i) % D.kPhases := by
  induction i with
  | zero => exact (Nat.mod_eq_of_lt hpos).symm
  | succ i ih => rw [Function.iterate_succ_apply', ih, nextPos_mod, Nat.add_assoc]

/-- The entry that the cursor meets after `i` outputs. -/
lemma kSchedule_iterate (hpos : pos < D.kPhases) (i : ℕ) :
    kSchedule D ((nextPos D)^[i] pos)
      = ⟨(pos + i) * D.kDecimation % D.kPhases, D.gap (pos + i)⟩ := by
  rw [nextPos_iterate hpos, kSchedule_mod]

/-- The advances met over `out` outputs telescope. -/
lemma tick_add_sum_advance (hpos : pos < D.kPhases) (out : ℕ) :
    D.tick pos + ∑ i ∈ Finset.range out, (kSchedule D ((nextPos D)^[i] pos)).advance
      = D.tick (pos + out) := by
  have htick := FloorClock.tick_add (L := D.kPhases) (M := D.kDecimation) pos out
  simp only [kSchedule_iterate hpos]
  exact htick.symm

/-- The closed form only depends on where the cursor stands, not on how often it wrapped. -/
lemma framesNeeded_mod (h : Covers A n) :
    framesNeeded A D (pos % D.kPhases) n = D.tick (pos + n) - D.tick pos := by
  have hperiod := D.tick_add_mod pos n
  have hmono := D.tick_mono (Nat.le_add_right (pos % D.kPhases) n)
  rw [framesNeeded_eq h.fits (Nat.mod_lt _ D.kPhases_pos)]
  omega

/-- The schedule never drifts.  A cursor that starts anywhere in the superblock and steps by
comparing and wrapping meets advances that add up to `frames_needed`, for any number of
outputs that the arithmetic covers; it meets the phases of the exact ratio; and the needs of
consecutive stretches add up. -/
theorem schedule_never_drifts (hpos : pos < D.kPhases) :
    (∀ out, Covers A out →
      ∑ i ∈ Finset.range out, (kSchedule D ((nextPos D)^[i] pos)).advance
          = framesNeeded A D pos out ∧
        framesNeeded A D pos out
          = (pos + out) * D.kDecimation / D.kPhases - pos * D.kDecimation / D.kPhases) ∧
    (∀ i, (kSchedule D ((nextPos D)^[i] pos)).phase
      = (pos + i) * D.kDecimation % D.kPhases) ∧
    ∀ a b, Covers A (a + b) →
      framesNeeded A D pos (a + b)
        = framesNeeded A D pos a + framesNeeded A D ((pos + a) % D.kPhases) b := by
  refine ⟨?_, ?_, ?_⟩
  · intro out hout
    have hsum := tick_add_sum_advance hpos out
    rw [framesNeeded_eq hout.fits hpos]
    exact ⟨by omega, rfl⟩
  · intro i
    rw [kSchedule_iterate hpos]
  · intro a b hab
    -- differences of one monotone count, the second one taken a whole number of periods later
    have hfirst := D.tick_mono (Nat.le_add_right pos a)
    have hsecond := D.tick_mono (Nat.le_add_right (pos + a) b)
    rw [framesNeeded_eq hab.fits hpos, framesNeeded_eq (hab.mono (Nat.le_add_right a b)).fits hpos,
      framesNeeded_mod (hab.mono (Nat.le_add_left b a)), ← Nat.add_assoc]
    omega

/-- Down, from the last position of the superblock and over `2 ^ 56` outputs. -/
theorem schedule_never_drifts_down :
    ∑ i ∈ Finset.range (2 ^ 56), (kSchedule .downTo44k1 ((nextPos .downTo44k1)^[i] 146)).advance
      = framesNeeded (.bits 64) .downTo44k1 146 (2 ^ 56) :=
  ((schedule_never_drifts (by decide)).1 _ (Covers.of_le le_rfl)).1

end RatioTap
