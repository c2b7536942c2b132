import RatioTap.Lib.PeakGain
import RatioTap.LinearResponse

/-!
# Headroom

How wide the accumulator of an output has to be.  On samples of size at most `B` no output is
larger than `B` times the sum of the absolute values of its row, and neither is any partial sum
on the way.  The bound is met by some stream at every phase, so the rows of the table settle
exactly which bounds all runs keep (`headroom`).  A mirrored row has the coefficients of the
stored one, so that the stored rows are enough.
-/

namespace RatioTap

open Upfirdn Converter PeakGain PhaseTable

variable {R : Type} [CommRing R] [LinearOrder R] {D : Direction} {A : Word}
  {tb : PhaseTable D R} {B G : R} {c n ph : ℕ}

/-- The row that a phase is served with has the coefficients of a stored row. -/
lemma absSum_fullRow (tb : PhaseTable D R) (ph : ℕ) :
    absSum (tb.fullRow ph) = absSum ((tb.storedRow ph).take tb.mTaps) := by
  rw [fullRow]
  cases isMirrored D ph with
  | true => rw [if_pos rfl, absSum_reverse]
  | false => rw [if_neg Bool.false_ne_true]

/-- The rows below `k_stored` are all there are. -/
lemma absSum_fullRow_storedIndex (tb : PhaseTable D R) (hph : ph < D.kPhases) :
    absSum (tb.fullRow (storedIndex D ph)) = absSum (tb.fullRow ph) := by
  have hself : storedIndex D (storedIndex D ph) = storedIndex D ph := if_pos (storedIndex_lt hph)
  rw [absSum_fullRow, absSum_fullRow, storedRow, storedRow, hself]

lemma PhaseTable.Complete.absSum_fullRow_eq (h : tb.Complete) (hph : ph < D.kPhases) :
    absSum (tb.fullRow ph)
      = ∑ t ∈ Finset.range tb.mTaps, |signal tb.response (t * D.kPhases + ph)| := by
  rw [h.fullRow_eq hph, branchRow, ← Finset.sum_range_reflect, absSum, List.map_map]
  rfl

variable [IsStrictOrderedRing R]

/-- Every sample of a window is silence, or has been appended. -/
lemma abs_newest_le {xs : List (List R)} (hB : 0 ≤ B) (hn : D.tick n < xs.length)
    (hxs : ∀ j < xs.length, |(channel (.exact R) c xs).getD j 0| ≤ B) :
    ∀ x ∈ newest (.exact R) tb c (xs.take (D.tick n + 1)), |x| ≤ B := by
  intro x hx
  rw [newest_take _ _ hn] at hx
  obtain ⟨i, hi, rfl⟩ := List.mem_map.1 hx
  rw [List.mem_range] at hi
  split
  · exact abs_zero.trans_le hB
  · exact hxs _ (by omega)

/-- Each phase has an output whose window lies within the stream. -/
lemma Direction.exists_phase (D : Direction) (T : ℕ) (hph : ph < D.kPhases) :
    ∃ n, n * D.kDecimation % D.kPhases = ph ∧ T ≤ D.tick n := by
  have hmem : ph ∈ (Finset.range D.kPhases).image
      fun i => (T * D.kPhases + i) * D.kDecimation % D.kPhases := by
    rw [FloorClock.image_phase D.kPhases_pos D.coprime]
    exact Finset.mem_range.2 hph
  obtain ⟨i, -, hi⟩ := Finset.mem_image.1 hmem
  refine ⟨T * D.kPhases + i, hi, ?_⟩
  rw [D.tick_add_period]
  exact (Nat.le_mul_of_pos_right T D.kDecimation_pos).trans (Nat.le_add_right _ _)

/-- The stream that makes the output of a phase as large as it can be. -/
lemma exists_peak (hA : Covers A 1) (htb : tb.Complete) (hT : 0 < tb.mTaps) (hB : 0 ≤ B)
    (hph : ph < D.kPhases) :
    ∃ d : Drive A (.exact R) tb, d.channels = 1 ∧ (∀ j < d.fed.length, |d.fedAt 0 j| ≤ B) ∧
      ∃ n < d.outs.length, d.outAt 0 n = absSum (tb.fullRow ph) * B := by
  obtain ⟨n, hphase, hin⟩ := D.exists_phase tb.mTaps hph
  let x := alignedWith D.kPhases (signal tb.response) B ph (D.tick n)
  let d : Drive A (.exact R) tb :=
    .ofFrames hA one_ne_zero (fun j _ => x j) (D.tick n + 1) (fun _ => 0) _ _
  have hfed (j : ℕ) (hj : j < D.tick n + 1) : d.fedAt 0 j = x j :=
    Drive.fedAt_ofFrames _ _ _ _ _ hT one_pos hj
  have hlen : d.fed.length = D.tick n + 1 := Drive.length_fed_ofFrames _ _ _ _ _ hT
  have hcount : d.outs.length = D.due (D.tick n + 1) := Drive.length_outs_ofFrames _ _ _ _ _ hT
  have hn : n < d.outs.length := hcount ▸ D.lt_due_iff.2 (Nat.lt_succ_self _)
  refine ⟨d, rfl, ?_, n, hn, ?_⟩
  · intro j hj
    rw [hfed j (hlen ▸ hj)]
    exact (abs_alignedWith hB _ _ _ _ _).le
  · have hpeak := resample_alignedWith (B := B) D.kPhases_pos (signal tb.response)
      (M := D.kDecimation) (T := tb.mTaps) (n := n) (Nat.le_succ_of_le hin)
    rw [hphase, ← htb.absSum_fullRow_eq hph] at hpeak
    rw [d.outAt_eq_chain htb hT one_pos hn, ← hpeak]
    exact resample_congr fun j hj => hfed j (Nat.lt_succ_of_le hj)

/-- Headroom.  All runs on samples of size at most `B` keep their outputs within `G` exactly
when the absolute sum of every stored row, times `B`, does.  Then every partial sum of every
output does so too: the sum of the first `m` products of the row served and the window. -/
theorem headroom (hA : Covers A 1) (htb : tb.Complete) (hT : 0 < tb.mTaps) (hB : 0 ≤ B) :
    let Bounded (d : Drive A (.exact R) tb) (c : ℕ) : Prop :=
      c < d.channels ∧ ∀ j < d.fed.length, |d.fedAt c j| ≤ B
    let Fits : Prop := ∀ r < kStored D, absSum ((tb.storedRow r).take tb.mTaps) * B ≤ G
    ((∀ d c, Bounded d c → ∀ n < d.outs.length, |d.outAt c n| ≤ G) ↔ Fits) ∧
    (Fits → ∀ d c, Bounded d c → ∀ n < d.outs.length, ∀ m,
      |dot ((tb.fullRow (n * D.kDecimation % D.kPhases)).take m)
        ((newest (.exact R) tb c (d.fed.take (D.tick n + 1))).take m)| ≤ G) := by
  intro Bounded Fits
  have hpartial (hfits : Fits) (d : Drive A (.exact R) tb) (c : ℕ) (hd : Bounded d c) (n : ℕ)
      (hn : n < d.outs.length) (m : ℕ) :
      |dot ((tb.fullRow (n * D.kDecimation % D.kPhases)).take m)
        ((newest (.exact R) tb c (d.fed.take (D.tick n + 1))).take m)| ≤ G := by
    have hph := Nat.mod_lt (n * D.kDecimation) D.kPhases_pos
    refine (abs_zipWith_mul_sum_le hB _ (abs_newest_le hB (d.tick_lt hT hn) hd.2) m).trans ?_
    rw [← absSum_fullRow_storedIndex tb hph, absSum_fullRow]
    exact hfits _ (storedIndex_lt hph)
  refine ⟨⟨?_, ?_⟩, hpartial⟩
  · intro hall r hr
    have hph : r < D.kPhases := lt_of_lt_kStored hr
    obtain ⟨d, hC, hfed, n, hn, hpeak⟩ := exists_peak hA htb hT hB hph
    rw [← absSum_fullRow, ← hpeak]
    exact (le_abs_self _).trans (hall d 0 ⟨hC ▸ one_pos, hfed⟩ n hn)
  · intro hfits d c hd n hn
    have hrow : (tb.fullRow (n * D.kDecimation % D.kPhases)).length = tb.mTaps :=
      htb.length_fullRow (Nat.mod_lt _ D.kPhases_pos)
    have hwin : (newest (.exact R) tb c (d.fed.take (D.tick n + 1))).length = tb.mTaps := by
      rw [newest_take _ _ (d.tick_lt hT hn), List.length_map, List.length_range]
    have h := hpartial hfits d c hd n hn tb.mTaps
    rw [List.take_of_length_le hrow.le, List.take_of_length_le hwin.le] at h
    rwa [d.outAt_eq hT hd.1 hn, outSample_eq (Kernels.exact_exactDots R)]

/-- A moving sum of four samples of 16 bits. -/
theorem headroom_box :
    let D : Direction := .downTo44k1
    ∀ (d : Drive (.bits 64) (.exact ℤ) (.box D 4)) (c : ℕ),
      (c < d.channels ∧ ∀ j < d.fed.length, |d.fedAt c j| ≤ 2 ^ 15) →
        ∀ n < d.outs.length, |d.outAt c n| ≤ 2 ^ 17 := by
  intro D
  have htb : (box D 4).Complete := complete_ofPrototype (fun _ => rfl) 4 _
  refine (headroom (Covers.of_le (by decide)) htb four_pos (by norm_num)).1.2 ?_
  intro r hr
  have hrow : ((box D 4).storedRow r).take (box D 4).mTaps = List.replicate 4 1 := by
    refine (take_storedRow (fun _ _ => length_branchRow _ _ _) (lt_of_lt_kStored hr)).trans ?_
    exact branchRow_replicate 4 1 (lt_of_lt_kStored (storedIndex_lt (lt_of_lt_kStored hr)))
  rw [hrow]
  decide

end RatioTap
