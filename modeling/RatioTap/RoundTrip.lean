import RatioTap.Clock
import RatioTap.LinearResponse

/-!
# There and back

A converter in one direction and one in the other behind it.  In exact arithmetic the two are one
chain behind the other, however each is called, and whole superblocks of silence in front of the
stream come out again as as many frames of silence, with everything else unchanged behind them.
`x` frames come back as `x` frames and at most two more, and as exactly `x` of them where `x` is a
number of superblocks (`round_trip`).
-/

namespace RatioTap

open Upfirdn Converter

namespace Direction

/-- The other direction. -/
def opposite : Direction → Direction
  | upTo48k => downTo44k1
  | downTo44k1 => upTo48k

@[simp] lemma kPhases_opposite (D : Direction) : D.opposite.kPhases = D.kDecimation := by
  cases D <;> rfl

@[simp] lemma kDecimation_opposite (D : Direction) : D.opposite.kDecimation = D.kPhases := by
  cases D <;> rfl

/-- The frames that come back beyond the `x` frames of a stream: the part of a superblock that
its last output opens, counted in outputs of the other direction. -/
def surplus (D : Direction) (x : ℕ) : ℕ :=
  (D.kDecimation - x * D.kPhases % D.kDecimation) % D.kDecimation ⌈/⌉ D.kPhases

/-- The frames of a round trip of `x` frames. -/
lemma due_opposite_due (D : Direction) (x : ℕ) : D.opposite.due (D.due x) = x + D.surplus x := by
  rw [due, kPhases_opposite, kDecimation_opposite]
  exact FloorClock.due_due D.kPhases_pos D.kDecimation_pos x

/-- There are two of them at the most. -/
lemma surplus_le (D : Direction) (x : ℕ) : D.surplus x ≤ 2 := by
  have hmod := Nat.mod_lt (D.kDecimation - x * D.kPhases % D.kDecimation) D.kDecimation_pos
  rw [surplus, ceilDiv_le_iff_le_mul D.kPhases_pos]
  refine hmod.le.trans ?_
  cases D <;> decide

/-- There are none after whole superblocks, and only then. -/
lemma surplus_eq_zero_iff (D : Direction) (x : ℕ) : D.surplus x = 0 ↔ D.kDecimation ∣ x := by
  have hmod := Nat.mod_lt (x * D.kPhases) D.kDecimation_pos
  have hdvd : x * D.kPhases % D.kDecimation = 0 ↔ D.kDecimation ∣ x := by
    rw [← Nat.dvd_iff_mod_eq_zero]
    exact Nat.Coprime.dvd_mul_right D.coprime.symm
  rw [← hdvd, surplus, ← Nat.le_zero, ceilDiv_le_iff_le_mul D.kPhases_pos, Nat.mul_zero,
    Nat.le_zero]
  constructor
  · intro h0
    by_contra hne
    rw [Nat.mod_eq_of_lt (by omega)] at h0
    omega
  · intro h0
    rw [h0, Nat.sub_zero, Nat.mod_self]

end Direction

variable {A : Word} {D : Direction} {R : Type} [CommRing R] {tb : PhaseTable D R}
  {tb' : PhaseTable D.opposite R} {c n : ℕ}

/-- A converter, and one in the other direction that has been given the first of what it
emitted. -/
structure RoundTrip (A : Word) (tb : PhaseTable D R) (tb' : PhaseTable D.opposite R) where
  there : Drive A (.exact R) tb
  back : Drive A (.exact R) tb'
  fed_back : back.fed <+: there.outs

/-- One chain behind the other. -/
def roundTripChain (tb : PhaseTable D R) (tb' : PhaseTable D.opposite R) (x : ℕ → R) : ℕ → R :=
  chain D.opposite tb'.mTaps tb'.response (chain D tb.mTaps tb.response x)

/-- A superblock of the first direction comes out as one of the other, and that as itself. -/
lemma roundTripChain_delay (q : ℕ) (x : ℕ → R) :
    roundTripChain tb tb' (delay (q * D.kDecimation) x)
      = delay (q * D.kDecimation) (roundTripChain tb tb' x) := by
  have hthere : chain D tb.mTaps tb.response (delay (q * D.kDecimation) x)
      = delay (q * D.opposite.kDecimation) (chain D tb.mTaps tb.response x) := by
    rw [D.kDecimation_opposite]
    exact resample_delay D.kPhases_pos D.kDecimation_pos q
  rw [roundTripChain, hthere, ← D.kPhases_opposite]
  exact resample_delay D.opposite.kPhases_pos D.opposite.kDecimation_pos q

namespace RoundTrip

variable (r : RoundTrip A tb tb')

/-- What the second converter is given is what the first one emitted. -/
lemma fedAt_back {j : ℕ} (hj : j < r.back.fed.length) :
    r.back.fedAt c j = r.there.outAt c j := by
  obtain ⟨rest, hrest⟩ := r.fed_back
  have hjc : j < (channel (.exact R) c r.back.fed).length := by rwa [length_channel]
  have happend : channel (.exact R) c (r.back.fed ++ rest)
      = channel (.exact R) c r.back.fed ++ channel (.exact R) c rest := List.map_append
  rw [Drive.fedAt, Drive.outAt, ← hrest, happend, List.getD_append _ _ _ _ hjc]

lemma outAt_back (htb : tb.Complete) (htb' : tb'.Complete) (hT : 0 < tb.mTaps)
    (hT' : 0 < tb'.mTaps) (hc : c < r.there.channels) (hc' : c < r.back.channels)
    (hn : n < r.back.outs.length) :
    r.back.outAt c n = roundTripChain tb tb' (r.there.fedAt c) n := by
  rw [r.back.outAt_eq_chain htb' hT' hc' hn]
  refine resample_congr fun j hj => ?_
  -- the frames under the output have come in, so the first converter had emitted them
  have hjfed : j < r.back.fed.length := hj.trans_lt (r.back.tick_lt hT' hn)
  rw [r.fedAt_back hjfed]
  exact r.there.outAt_eq_chain htb hT hc (hjfed.trans_le r.fed_back.length_le)

/-- What has come back is at most what the frames given make. -/
lemma length_outs_back_le (hT : 0 < tb.mTaps) (hT' : 0 < tb'.mTaps) :
    r.back.outs.length ≤ r.there.fed.length + D.surplus r.there.fed.length := by
  have hthere : r.there.outs.length ≤ D.due r.there.fed.length :=
    (r.there.described hT).resting.le_due
  have hback : r.back.outs.length ≤ D.opposite.due r.back.fed.length :=
    (r.back.described hT').resting.le_due
  rw [← D.due_opposite_due]
  exact hback.trans (D.opposite.due_mono (r.fed_back.length_le.trans hthere))

/-- Nothing is left between the two converters, and neither of them has an output free. -/
def Drained : Prop :=
  r.back.fed = r.there.outs ∧ r.there.session.conv.mPending ≠ 0 ∧
    r.back.session.conv.mPending ≠ 0

/-- All that the frames given make has come back. -/
lemma length_outs_back (hT : 0 < tb.mTaps) (hT' : 0 < tb'.mTaps) (h : r.Drained) :
    r.back.outs.length = r.there.fed.length + D.surplus r.there.fed.length := by
  obtain ⟨hfed, hthere, hback⟩ := h
  have hd := r.there.described hT
  have hd' := r.back.described hT'
  rw [hd.mPending_eq] at hthere
  rw [hd'.mPending_eq] at hback
  have hcount : D.due r.there.fed.length = r.there.outs.length := hd.resting.due_eq hthere
  have hcount' : D.opposite.due r.back.fed.length = r.back.outs.length :=
    hd'.resting.due_eq hback
  rw [← D.due_opposite_due, hcount, ← hfed, hcount']

/-- A converter, and one behind it that is given all of its outputs, one by one. -/
def ofDrive (hA : Covers A 1) (hT : 0 < tb.mTaps) (hT' : 0 < tb'.mTaps)
    (d : Drive A (.exact R) tb) : RoundTrip A tb tb' where
  there := d
  back := .ofFrames hA d.channels_ne_zero (fun j c => d.outAt c j) d.outs.length (fun _ => 0) _ _
  fed_back := by rw [Drive.fed_ofFrames _ _ _ _ _ hT', d.frames_outAt hT]

lemma drained_ofDrive (hA : Covers A 1) (hT : 0 < tb.mTaps) (hT' : 0 < tb'.mTaps)
    (d : Drive A (.exact R) tb) (h : d.session.conv.mPending ≠ 0) :
    (ofDrive hA hT hT' d : RoundTrip A tb tb').Drained := by
  have hC := d.channels_ne_zero
  refine ⟨?_, h, Drive.pending_ofFrames hA hC _ _ _ hT'⟩
  exact (Drive.fed_ofFrames hA hC _ _ _ hT').trans (d.frames_outAt hT)

end RoundTrip

/-- There and back.  The first converter has been given frames in any calls, and the second one,
in any calls too, a beginning of what the first one emitted.  Then what comes back is one chain
behind the other of what was given; it is at most as many frames as were given and
`surplus` more, which are two at most, and none exactly where whole superblocks were given; and
it is as many as that where nothing is left between.  Another two converters with the same
tables, given whole superblocks of silence first, give the same back as much later. -/
theorem round_trip (htb : tb.Complete) (htb' : tb'.Complete) (hT : 0 < tb.mTaps)
    (hT' : 0 < tb'.mTaps) (r : RoundTrip A tb tb') (hc : c < r.there.channels)
    (hc' : c < r.back.channels) :
    let x := r.there.fed.length
    (∀ n < r.back.outs.length, r.back.outAt c n = chain D.opposite tb'.mTaps tb'.response
      (chain D tb.mTaps tb.response (r.there.fedAt c)) n) ∧
    r.back.outs.length ≤ x + D.surplus x ∧ D.surplus x ≤ 2 ∧
    (D.surplus x = 0 ↔ D.kDecimation ∣ x) ∧
    (r.Drained → r.back.outs.length = x + D.surplus x) ∧
    ∀ (q : ℕ) (s : RoundTrip A tb tb'), c < s.there.channels → c < s.back.channels →
      channel (.exact R) c s.there.fed
        = List.replicate (q * D.kDecimation) 0 ++ channel (.exact R) c r.there.fed →
      (∀ n < q * D.kDecimation, n < s.back.outs.length → s.back.outAt c n = 0) ∧
        ∀ n < r.back.outs.length, q * D.kDecimation + n < s.back.outs.length →
          s.back.outAt c (q * D.kDecimation + n) = r.back.outAt c n := by
  intro x
  refine ⟨fun n hn => r.outAt_back htb htb' hT hT' hc hc' hn, r.length_outs_back_le hT hT',
    D.surplus_le x, D.surplus_eq_zero_iff x, r.length_outs_back hT hT', ?_⟩
  intro q s hs hs' hfed
  have hdelay : s.there.fedAt c = delay (q * D.kDecimation) (r.there.fedAt c) := by
    ext j
    rw [Drive.fedAt, hfed, delay]
    split
    · next hj => rw [List.getD_append _ _ _ _ (by simpa using hj), List.getD_replicate _ hj]
    · next hj =>
      rw [List.getD_append_right _ _ _ _ (by simpa using hj), List.length_replicate]
      rfl
  have hout (n : ℕ) (hn : n < s.back.outs.length) : s.back.outAt c n
      = delay (q * D.kDecimation) (roundTripChain tb tb' (r.there.fedAt c)) n := by
    rw [s.outAt_back htb htb' hT hT' hs hs' hn, hdelay, roundTripChain_delay]
  constructor
  · intro n hn hns
    rw [hout n hns, delay, if_pos hn]
  · intro n hn hns
    rw [hout _ hns, r.outAt_back htb htb' hT hT' hc hc' hn, delay, if_neg (by omega),
      Nat.add_sub_cancel_left]

/-- Three frames up to 48 kHz, and what comes of them down again. -/
theorem round_trip_box :
    let D : Direction := .upTo48k
    let tb : PhaseTable D ℤ := .box D 4
    let tb' : PhaseTable D.opposite ℤ := .box D.opposite 4
    let hA : Covers (.bits 64) 1 := Covers.of_le (by decide)
    let d : Drive (.bits 64) (.exact ℤ) tb :=
      .ofFrames hA one_ne_zero (fun j _ => (j : ℤ) + 1) 3 (fun _ => 0) _ _
    let r : RoundTrip (.bits 64) tb tb' := .ofDrive hA four_pos four_pos d
    r.back.outs.length = d.fed.length + D.surplus d.fed.length ∧ ∀ n < r.back.outs.length,
      r.back.outAt 0 n
        = chain D.opposite 4 tb'.response (chain D 4 tb.response (d.fedAt 0)) n := by
  intro D tb tb' hA d r
  have htb : tb.Complete := PhaseTable.complete_ofPrototype (fun _ => rfl) 4 _
  have htb' : tb'.Complete := PhaseTable.complete_ofPrototype (fun _ => rfl) 4 _
  obtain ⟨houtAt, -, -, -, hcount, -⟩ :=
    round_trip htb htb' four_pos four_pos r one_pos one_pos
  exact ⟨hcount (RoundTrip.drained_ofDrive hA four_pos four_pos d
    (Drive.pending_ofFrames hA one_ne_zero _ 3 _ four_pos)), houtAt⟩

end RatioTap
