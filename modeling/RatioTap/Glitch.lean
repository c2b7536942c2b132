import RatioTap.Drive
import RatioTap.Flush

/-!
# Glitches

How far a damaged stretch of the input reaches.  Two streams that differ in the frames `a` to
`b - 1` only are converted alike but for the outputs whose window meets these frames, which are
`(b - a + T - 1) * L / M` in number, rounded down or up; and `T` frames later nothing is left of
the difference, and the two converters cannot be told apart any more (`glitch_contained`).
This needs nothing of the kernels but that they are functions.
-/

namespace RatioTap

open Converter

variable {A : Word} {D : Direction} {S K : Type} {k : Kernels S K} {tb : PhaseTable D K}
  {c c' a b : ℕ}

/-- A glitch.  Where channel `c` of one converter and channel `c'` of another one have been fed
the same but for the frames from `a` to `b - 1`, they have emitted the same before output
`⌈a * L / M⌉` and from `⌈(b + T - 1) * L / M⌉` on, in whichever calls.  Once they have been fed
`T` frames behind the glitch, and stand at one frame and one output, calls that feed the two
channels the same samples return and write the same on both. -/
theorem glitch_contained (hT : 0 < tb.mTaps) (d d' : Drive A k tb) (hc : c < d.channels)
    (hc' : c' < d'.channels) (hab : a ≤ b)
    (hfed : ∀ j, j < d.fed.length → j < d'.fed.length → j < a ∨ b ≤ j →
      d.fedAt c j = d'.fedAt c' j) :
    let L := D.kPhases
    let M := D.kDecimation
    let first := a * L ⌈/⌉ M
    let last := (b + tb.mTaps - 1) * L ⌈/⌉ M
    (∀ n, n < d.outs.length → n < d'.outs.length → n < first ∨ last ≤ n →
      d.outAt c n = d'.outAt c' n) ∧
    (last = first + (b - a + tb.mTaps - 1) * L / M ∨
      last = first + (b - a + tb.mTaps - 1) * L ⌈/⌉ M) ∧
    (b + tb.mTaps ≤ d.fed.length → d.fed.length = d'.fed.length →
      d.outs.length = d'.outs.length → ∀ calls calls',
        List.Forall₂ (Call.Agree d.channels c d'.channels c') calls calls' →
        (∀ call ∈ calls, call.Admissible A) →
          List.Forall₂ (Report.Agree k c c') (d.session.conv.trace A k calls)
            (d'.session.conv.trace A k calls')) := by
  intro L M first last
  refine ⟨?_, ?_, ?_⟩
  · intro n hn hn' hout
    have htick := d.tick_lt hT hn
    have htick' := d'.tick_lt hT hn'
    rw [d.outAt_eq hT hc hn, d'.outAt_eq hT hc' hn']
    refine outSample_of_inWindow htick htick' ?_
    rintro j ⟨hj, hin⟩
    refine hfed j (hj.trans_lt htick) (hj.trans_lt htick') ?_
    -- the window ends before the glitch, or starts behind it
    rcases hout with hbefore | hbehind
    · have hlt : D.tick n < a := D.lt_due_iff.1 hbefore
      omega
    · have hle : b + tb.mTaps - 1 ≤ D.tick n := D.due_le_iff.1 hbehind
      omega
  · have hsum : b + tb.mTaps - 1 = a + (b - a + tb.mTaps - 1) := by omega
    have hadd := FloorClock.due_add_eq D.kPhases_pos D.kDecimation_pos a (b - a + tb.mTaps - 1)
    rw [← hsum] at hadd
    exact hadd
  · intro hin hlen hcount calls calls' hagree hcalls
    have hd := d.described hT
    have hd' := d'.described hT
    have hwin : newest k tb c d.fed = newest k tb c' d'.fed := by
      have hlast : d.fed.length - 1 + 1 = d.fed.length := by omega
      have h : newest k tb c (d.fed.take (d.fed.length - 1 + 1))
          = newest k tb c' (d'.fed.take (d.fed.length - 1 + 1)) :=
        newest_congr (by omega) (by omega) fun j hj hj' =>
          hfed j (by omega) (by omega) (.inr (by omega))
      rwa [hlast, List.take_length, hlen, List.take_length] at h
    have halike : Alike k tb c c' d.fed d'.fed d.outs.length d'.outs.length := by
      refine ⟨⟨?_, ?_⟩, hwin⟩
      · rw [hcount]
      · rw [hcount, hlen]
    rw [hd.conv, hd'.conv]
    exact trace_alike hT hc hc' halike hd.resting hd'.resting hagree hcalls

/-- Ten frames going up, the fourth of them damaged. -/
theorem glitch_contained_box :
    let D : Direction := .upTo48k
    let d : Drive (.bits 64) (.exact ℤ) (.box D 4) :=
      .ofFrames (Covers.of_le (by decide)) one_ne_zero (fun j _ => (j : ℤ)) 10 (fun _ => 0) _ _
    let d' : Drive (.bits 64) (.exact ℤ) (.box D 4) :=
      .ofFrames (Covers.of_le (by decide)) one_ne_zero
        (fun j _ => if j = 3 then 100 else (j : ℤ)) 10 (fun _ => 0) _ _
    ∀ n, n < d.outs.length → n < d'.outs.length →
      n < 3 * D.kPhases ⌈/⌉ D.kDecimation ∨ (4 + 4 - 1) * D.kPhases ⌈/⌉ D.kDecimation ≤ n →
        d.outAt 0 n = d'.outAt 0 n := by
  intro D d d'
  have hlen : d.fed.length = 10 := Drive.length_fed_ofFrames _ _ _ _ _ four_pos
  refine (glitch_contained four_pos d d' one_pos one_pos (by decide) ?_).1
  intro j hj hj' hout
  rw [hlen] at hj
  rw [Drive.fedAt_ofFrames _ _ _ _ _ four_pos one_pos hj,
    Drive.fedAt_ofFrames _ _ _ _ _ four_pos one_pos hj, if_neg (by omega)]

end RatioTap
