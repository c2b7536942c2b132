import RatioTap.Agreement
import RatioTap.Drive

/-!
# Superblocks

The schedule repeats every `L` outputs, over `M` input frames.  A converter that is given whole
superblocks of silence first therefore emits what it would have emitted without them, `L`
outputs later for each, and from then on cannot be told from a converter that was not
(`superblock_shift`).  This needs nothing of the kernels but that they are functions.
-/

namespace RatioTap

open Converter

variable {A : Word} {D : Direction} {S K : Type} {k : Kernels S K} {tb : PhaseTable D K}
  {c c' n q : ℕ} {xs : List (List S)}

/-- After whole superblocks the cursors stand where they began. -/
lemma sameCursors_superblock (D : Direction) (q : ℕ) :
    SameCursors D 0 (q * D.kDecimation) 0 (q * D.kPhases) where
  pos := by rw [Nat.zero_mod, Nat.mul_mod_left]
  gap := by
    have htick := D.tick_add_period q 0
    rw [Nat.add_zero, D.tick_zero, Nat.add_zero] at htick
    rw [gapLeft, gapLeft, htick, D.tick_zero]
    omega

lemma standing_superblock (D : Direction) (q : ℕ) :
    Standing D (q * D.kDecimation) (q * D.kPhases) := by
  have htick := D.tick_add_period q 0
  rw [Nat.add_zero, D.tick_zero, Nat.add_zero] at htick
  refine ⟨by omega, ?_⟩
  rcases Nat.eq_zero_or_pos q with rfl | hq
  · exact .inl (Nat.zero_mul _)
  · right
    have hpos : 0 < q * D.kPhases := Nat.mul_pos hq D.kPhases_pos
    have hdue : q * D.kPhases - 1 < D.due (q * D.kDecimation) := by
      refine (FloorClock.lt_due_iff_mul D.kPhases_pos D.kDecimation_pos).2 ?_
      rw [Nat.mul_right_comm]
      exact Nat.mul_lt_mul_of_pos_right (by omega) D.kDecimation_pos
    exact D.lt_due_iff.1 hdue

/-- Silent frames leave the window of a channel silent. -/
lemma newest_of_silent (h : channel k c xs = List.replicate n k.silence) :
    newest k tb c xs = List.replicate tb.mTaps k.silence := by
  rw [newest, h, List.replicate_append_replicate, List.rtake, List.length_replicate,
    List.drop_replicate]
  congr 1
  omega

/-- A converter given whole superblocks of silence stands like a fresh one. -/
lemma alike_superblock {xs' : List (List S)}
    (h : channel k c' xs' = List.replicate (q * D.kDecimation) k.silence) :
    Alike k tb c c' [] xs' 0 (q * D.kPhases) where
  toSameCursors := by
    have hlen : xs'.length = q * D.kDecimation := by
      rw [← length_channel (k := k) (c := c'), h, List.length_replicate]
    rw [hlen]
    exact sameCursors_superblock D q
  window := by
    rw [newest_of_silent h, newest_of_silent (n := 0)]
    rfl

/-- Superblocks of silence.  Channel `c'` of one converter is fed `q * M` frames of silence and
then what channel `c` of another one is fed, in whichever calls.  Then its first `q * L` outputs
are the response to silence, and after them come the outputs of the other, in full.  Once both
have emitted as many of these, calls that feed the two channels the same samples return and
write the same on both. -/
theorem superblock_shift (hT : 0 < tb.mTaps) (d d' : Drive A k tb) (hc : c < d.channels)
    (hc' : c' < d'.channels)
    (hfed : channel k c' d'.fed
      = List.replicate (q * D.kDecimation) k.silence ++ channel k c d.fed) :
    (∀ n < q * D.kPhases, n < d'.outs.length → d'.outAt c' n
      = dotPhase k tb (n * D.kDecimation % D.kPhases) (List.replicate tb.mTaps k.silence)) ∧
    (∀ n < d.outs.length, q * D.kPhases + n < d'.outs.length →
      d'.outAt c' (q * D.kPhases + n) = d.outAt c n) ∧
    (d'.outs.length = q * D.kPhases + d.outs.length → ∀ calls calls',
      List.Forall₂ (Call.Agree d.channels c d'.channels c') calls calls' →
      (∀ call ∈ calls, call.Admissible A) →
        List.Forall₂ (Report.Agree k c c') (d.session.conv.trace A k calls)
          (d'.session.conv.trace A k calls')) := by
  -- the stream of the second converter, at the end of the silence
  have hlen : d'.fed.length = q * D.kDecimation + d.fed.length := by
    rw [← length_channel (k := k) (c := c'), hfed, List.length_append, List.length_replicate,
      length_channel]
  have hsilent : channel k c' (d'.fed.take (q * D.kDecimation))
      = List.replicate (q * D.kDecimation) k.silence := by
    rw [channel, List.map_take, ← channel, hfed, List.take_left' List.length_replicate]
  have hrest : channel k c' (d'.fed.drop (q * D.kDecimation)) = channel k c d.fed := by
    rw [channel, List.map_drop, ← channel, hfed, List.drop_left' List.length_replicate]
  have hsplit := List.take_append_drop (q * D.kDecimation) d'.fed
  have hlen' : (d'.fed.take (q * D.kDecimation)).length = q * D.kDecimation := by
    rw [List.length_take]
    omega
  have halike : Alike k tb c c' [] (d'.fed.take (q * D.kDecimation)) 0 (q * D.kPhases) :=
    alike_superblock hsilent
  have hst : Standing D (d'.fed.take (q * D.kDecimation)).length (q * D.kPhases) := by
    rw [hlen']
    exact standing_superblock D q
  have hst₀ : Standing D ([] : List (List S)).length 0 := Standing.zero D
  refine ⟨?_, ?_, ?_⟩
  · intro n hn hn'
    have htick : D.tick n < q * D.kDecimation := by
      have hdue : n < D.due (q * D.kDecimation) := by
        refine (FloorClock.lt_due_iff_mul D.kPhases_pos D.kDecimation_pos).2 ?_
        rw [Nat.mul_right_comm]
        exact Nat.mul_lt_mul_of_pos_right hn D.kDecimation_pos
      exact D.lt_due_iff.1 hdue
    rw [d'.outAt_eq hT hc' hn', outSample]
    congr 1
    refine newest_of_silent (n := D.tick n + 1) ?_
    have htake : d'.fed.take (D.tick n + 1)
        = (d'.fed.take (q * D.kDecimation)).take (D.tick n + 1) := by
      rw [List.take_take, Nat.min_eq_left (by omega)]
    rw [htake, channel, List.map_take, ← channel, hsilent, List.take_replicate,
      Nat.min_eq_left (by omega)]
  · intro n hn hn'
    have h := halike.outSample hst₀ hst hrest.symm n
    rw [List.nil_append, Nat.zero_add, hsplit] at h
    rw [d'.outAt_eq hT hc' hn', d.outAt_eq hT hc hn, h]
  · intro hcount calls calls' hagree hcalls
    have hd := d.described hT
    have hd' := d'.described hT
    have h := halike.append hst₀ hst hrest.symm d.outs.length
    rw [List.nil_append, Nat.zero_add, hsplit, ← hcount] at h
    rw [hd.conv, hd'.conv]
    exact trace_alike hT hc hc' h hd.resting hd'.resting hagree hcalls

/-- One superblock of silence before two frames, going down. -/
theorem superblock_shift_one :
    let D : Direction := .downTo44k1
    let tb : PhaseTable D ℤ := .box D 4
    let d : Drive (.bits 64) (.exact ℤ) tb :=
      .ofFrames (Covers.of_le (by decide)) one_ne_zero (fun j _ => (j : ℤ) + 1) 2 (fun _ => 0) _ _
    let d' : Drive (.bits 64) (.exact ℤ) tb :=
      .ofFrames (Covers.of_le (by decide)) one_ne_zero
        (fun j _ => if j < 160 then 0 else (j : ℤ) - 159) 162 (fun _ => 0) _ _
    d'.outAt 0 (147 + 1) = d.outAt 0 1 := by
  intro D tb d d'
  have hfed : channel (.exact ℤ) 0 d'.fed
      = List.replicate (1 * D.kDecimation) 0 ++ channel (.exact ℤ) 0 d.fed := by
    rw [Drive.fed_ofFrames _ _ _ _ _ four_pos, Drive.fed_ofFrames _ _ _ _ _ four_pos]
    rfl
  have hn : 1 < d.outs.length := by
    rw [Drive.length_outs_ofFrames _ _ _ _ _ four_pos]
    decide
  have hn' : 1 * D.kPhases + 1 < d'.outs.length := by
    rw [Drive.length_outs_ofFrames _ _ _ _ _ four_pos]
    decide
  exact (superblock_shift four_pos d d' one_pos one_pos hfed).2.1 1 hn hn'

end RatioTap
