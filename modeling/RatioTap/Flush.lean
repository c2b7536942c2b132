import RatioTap.Agreement
import RatioTap.FullTable

/-!
# Flushing

`flush` feeds one frame of silence per tap and writes what falls due.  That is enough and not
too much (`flush_drains`): every output with a frame of the stream in its window, which is all
that it depends on (`outSample_of_inWindow`), is written, the last one written has at most one
such frame left in its window, and no later one has any.  Two converters that stood alike
before the flush cannot be told apart after it, whatever they had been fed.
-/

namespace RatioTap

open Converter

variable {A : Word} {D : Direction} {S K : Type} {k : Kernels S K} {tb : PhaseTable D K}
  {C c c' T x n m p : ℕ} {xs ys : List (List S)}

/-- Input frame `j` lies in the window of output `n`: it is one of the `T` frames up to the one
the output waits for. -/
def InWindow (D : Direction) (T n j : ℕ) : Prop := j ≤ D.tick n ∧ D.tick n < j + T

/-- Windows are equal where the streams are the same under them. -/
lemma newest_congr {q : ℕ} (hq : q < xs.length) (hq' : q < ys.length)
    (h : ∀ j ≤ q, q < j + tb.mTaps →
      (channel k c xs).getD j k.silence = (channel k c' ys).getD j k.silence) :
    newest k tb c (xs.take (q + 1)) = newest k tb c' (ys.take (q + 1)) := by
  rw [newest_take k tb hq, newest_take k tb hq']
  apply List.map_congr_left
  intro i hi
  rw [List.mem_range] at hi
  split
  · rfl
  · exact h _ (by omega) (by omega)

/-- An output only depends on the frames in its window. -/
theorem outSample_of_inWindow (hn : D.tick n < xs.length) (hn' : D.tick n < ys.length)
    (h : ∀ j, InWindow D tb.mTaps n j →
      (channel k c xs).getD j k.silence = (channel k c' ys).getD j k.silence) :
    outSample k tb xs n c = outSample k tb ys n c' := by
  rw [outSample, outSample, newest_congr hn hn' fun j hj hlt => h j ⟨hj, hlt⟩]

/-! ### What the silence covers -/

/-- The outputs with a frame of the stream in their window are due once `T` more frames are
in. -/
lemma lt_due_of_inWindow {j : ℕ} (hj : j < x) (h : InWindow D T n j) : n < D.due (x + T) := by
  obtain ⟨-, hlt⟩ := h
  exact D.lt_due_iff.2 (by omega)

/-- The others have none of the stream in their window. -/
lemma not_inWindow_of_due_le {j : ℕ} (hn : D.due (x + T) ≤ n) (hj : j < x) :
    ¬ InWindow D T n j := by
  rintro ⟨-, hlt⟩
  have hle := D.due_le_iff.1 hn
  omega

/-- The last output that is due then has at most the last frame of the stream in its
window. -/
lemma eq_of_inWindow_last (hpos : 0 < D.due (x + T)) {i : ℕ} (hi : i < x)
    (h : InWindow D T (D.due (x + T) - 1) i) : i = x - 1 := by
  obtain ⟨-, hlt⟩ := h
  have hle := D.due_le_iff.1 (le_refl (D.due (x + T)))
  have hsucc := D.tick_succ (D.due (x + T) - 1)
  have hgap := (D.gap_le_maxAdvance (D.due (x + T) - 1)).trans D.maxAdvance_le
  rw [Nat.sub_add_cancel hpos] at hsucc
  omega

/-- Four more frames make an output due. -/
lemma Standing.lt_due_add (h : Standing D x n) (hT : 4 ≤ T) : n < D.due (x + T) := by
  have hdue := D.le_due_add x T
  have hrate : 1 ≤ T * D.kPhases / D.kDecimation := by
    rw [Nat.le_div_iff_mul_le D.kDecimation_pos]
    cases D <;> simp only [Direction.kPhases, Direction.kDecimation] <;> omega
  have := h.le_due
  omega

/-! ### What is left behind -/

lemma appendSilence_iterate (q : ℕ) :
    (appendSilence k)^[q] (after k tb C xs n p) = after k tb C (padded k C xs q) n p := by
  induction q with
  | zero => simp [padded]
  | succ q ih =>
      rw [Function.iterate_succ_apply', ih, appendSilence_after, padded_succ]

/-- Nothing but silence is left in the windows. -/
lemma newest_padded (c : ℕ) (xs : List (List S)) :
    newest k tb c (padded k C xs tb.mTaps) = List.replicate tb.mTaps k.silence := by
  rw [padded, newest_append, channel_silence]
  exact SlidingHistory.rtake_append_of_length _ List.length_replicate

namespace Session

/-- Without a reset the outputs are only added to. -/
lemma outs_isPrefix_run (σ : Session D S K) {calls : List (Call S)}
    (hreset : ∀ call ∈ calls, call ≠ .reset) : σ.outs <+: (σ.run A k calls).outs := by
  induction calls generalizing σ with
  | nil => exact List.prefix_rfl
  | cons call calls ih =>
      have hstep : σ.outs <+: (σ.step A k call).outs := by
        cases call with
        | reset => exact absurd rfl (hreset _ List.mem_cons_self)
        | process inp inFrames out => exact List.prefix_append _ _
        | pull out outFrames pop => exact List.prefix_append _ _
        | flush out => exact List.prefix_append _ _
      exact hstep.trans (ih _ fun d hd => hreset d (List.mem_cons_of_mem call hd))

end Session

/-- A flush of a described session. -/
lemma Session.Described.flush {σ : Session D S K} (h : σ.Described k tb C) (hT : 0 < tb.mTaps)
    (out : ℕ → S) :
    σ.conv.flush k out
      = { conv := after k tb C (padded k C σ.fed tb.mTaps) (D.due (σ.fed.length + tb.mTaps))
            (gapLeft D (σ.fed.length + tb.mTaps) (D.due (σ.fed.length + tb.mTaps)))
          out := FlatMemory.writeFrames out C (D.due (σ.fed.length + tb.mTaps) - σ.outs.length)
            fun i => outSample k tb (padded k C σ.fed tb.mTaps) (σ.outs.length + i)
          ret := D.due (σ.fed.length + tb.mTaps) - σ.outs.length } := by
  rw [h.conv]
  exact flush_after hT h.resting.toStanding out

/-- Two flushed converters with the same cursors write the same frames from then on. -/
lemma trace_flushed {xs' : List (List S)} {m' : ℕ} (hT : 0 < tb.mTaps) (hC : C ≠ 0)
    (hst : Standing D xs.length m) (hst' : Standing D xs'.length m')
    (h : SameCursors D xs.length xs'.length m m') {calls : List (Call S)}
    (hcalls : ∀ call ∈ calls, call.Admissible A) :
    List.Forall₂ Report.Same
      ((after k tb C (padded k C xs tb.mTaps) (D.due (xs.length + tb.mTaps))
        (gapLeft D (xs.length + tb.mTaps) (D.due (xs.length + tb.mTaps)))).trace A k calls)
      ((after k tb C (padded k C xs' tb.mTaps) (D.due (xs'.length + tb.mTaps))
        (gapLeft D (xs'.length + tb.mTaps) (D.due (xs'.length + tb.mTaps)))).trace A k calls) := by
  have hlen : (padded k C xs tb.mTaps).length = xs.length + tb.mTaps := length_padded
  have hlen' : (padded k C xs' tb.mTaps).length = xs'.length + tb.mTaps := length_padded
  have hcursors := h.due hst hst' tb.mTaps
  rw [← hlen, ← hlen'] at hcursors ⊢
  have halike (c : ℕ) : Alike k tb c c (padded k C xs tb.mTaps) (padded k C xs' tb.mTaps)
      (D.due (padded k C xs tb.mTaps).length) (D.due (padded k C xs' tb.mTaps).length) := by
    refine ⟨hcursors, ?_⟩
    rw [newest_padded, newest_padded]
  exact trace_same hT (Nat.pos_of_ne_zero hC) (fun c _ => halike c) (Resting.due D _)
    (Resting.due D _) (fun c _ => List.forall₂_same.2 fun call _ => Call.Agree.refl C c call)
    hcalls

/-- A flush drains a converter completely and tightly.  In every reachable state it appends
one frame of silence per tap and writes as many outputs as `flush_output_frames` announced, at
least one; every output with an earlier frame in its window has then been written; the last
one written has at most one; and the later ones, which are numbered from there on, have none.
Two reachable converters at the same position and gap are the same to every later caller once
both are flushed. -/
theorem flush_drains {s : Converter D S K} {calls : List (Call S)}
    (hs : Converter.make k tb C = .ok s) (hT : 4 ≤ tb.mTaps)
    (hcalls : ∀ call ∈ calls, call.Admissible A) (hA : Covers A tb.mTaps) (out : ℕ → S) :
    let σ := (Session.start s).run A k calls
    let r := σ.conv.flush k out
    let τ := σ.step A k (.flush out)
    (r.conv.mHist = ((appendSilence k)^[tb.mTaps] σ.conv).mHist ∧
      r.conv.mEnd = ((appendSilence k)^[tb.mTaps] σ.conv).mEnd) ∧
    (r.ret = σ.conv.flushOutputFrames A ∧
      σ.conv.flushOutputFrames A = σ.conv.outputsFor A tb.mTaps ∧
      τ.outs.length = σ.outs.length + r.ret ∧ 0 < r.ret) ∧
    (∀ n j, j < σ.fed.length → InWindow D tb.mTaps n j → n < τ.outs.length) ∧
    (∀ i j, i < σ.fed.length → j < σ.fed.length →
      InWindow D tb.mTaps (τ.outs.length - 1) i → InWindow D tb.mTaps (τ.outs.length - 1) j →
        i = j) ∧
    (∀ rest, (∀ call ∈ rest, call ≠ .reset) → τ.outs <+: (τ.run A k rest).outs) ∧
    (∀ n j, τ.outs.length ≤ n → j < σ.fed.length → ¬ InWindow D tb.mTaps n j) ∧
    ∀ (calls' : List (Call S)) (out' : ℕ → S), (∀ call ∈ calls', call.Admissible A) →
      let σ' := (Session.start s).run A k calls'
      σ'.conv.mPos = σ.conv.mPos → σ'.conv.mPending = σ.conv.mPending →
        ∀ rest, (∀ call ∈ rest, call.Admissible A) →
          List.Forall₂ Report.Same (r.conv.trace A k rest)
            ((σ'.conv.flush k out').conv.trace A k rest) := by
  intro σ r τ
  have hT0 : 0 < tb.mTaps := by omega
  have hσ : σ.Described k tb C := Session.described_run hs hT0 hcalls
  have hst := hσ.resting.toStanding
  have hr : r = _ := hσ.flush hT0 out
  have hlt := hst.lt_due_add hT
  have hlen : τ.outs.length = σ.outs.length + r.ret := by
    change (σ.outs ++ FlatMemory.framesFrom _ _ r.ret).length = _
    rw [List.length_append, FlatMemory.length_framesFrom]
  have hret : r.ret = D.due (σ.fed.length + tb.mTaps) - σ.outs.length := by rw [hr]
  have hdue : τ.outs.length = D.due (σ.fed.length + tb.mTaps) := by omega
  refine ⟨?_, ⟨?_, ?_, hlen, by omega⟩, ?_, ?_, ?_, ?_, ?_⟩
  · rw [hr, hσ.conv, appendSilence_iterate, after, after, length_padded]
    exact ⟨rfl, rfl⟩
  · have htaps : σ.conv.taps = tb.mTaps := by rw [hσ.conv, taps_after]
    rw [hret, flushOutputFrames, htaps, outputsFor_at hA.fits hσ.at]
  · rw [flushOutputFrames, hσ.conv, taps_after]
  · intro n j hj hn
    rw [hdue]
    exact lt_due_of_inWindow hj hn
  · intro i j hi hj hin hjn
    rw [hdue] at hin hjn
    -- both are the newest frame of the stream
    rw [eq_of_inWindow_last (by omega) hi hin, eq_of_inWindow_last (by omega) hj hjn]
  · intro rest hrest
    exact τ.outs_isPrefix_run hrest
  · intro n j hn hj
    rw [hdue] at hn
    exact not_inWindow_of_due_le hn hj
  · intro calls' out' hcalls' σ' hpos hpend rest hrest
    have hσ' : σ'.Described k tb C := Session.described_run hs hT0 hcalls'
    have hsame := hσ.sameCursors hσ' hpos hpend
    rw [hr, hσ'.flush hT0 out']
    exact trace_flushed hT0 (Converter.make_eq_ok hs).1 hst hσ'.resting.toStanding hsame hrest

/-- A stereo converter, flushed after five frames. -/
theorem flush_drains_stereo :
    let s := after (.exact ℤ) (.box .upTo48k 4) 2 [] 0 1
    let σ := (Session.start s).run (.bits 64) (.exact ℤ) [.process (fun i => i) 5 fun _ => 0]
    let r := σ.conv.flush (.exact ℤ) fun _ => 0
    r.ret = σ.conv.flushOutputFrames (.bits 64) ∧ 0 < r.ret := by
  intro s σ r
  have hs : Converter.make (.exact ℤ) (.box .upTo48k 4) 2 = .ok s := make_ok two_ne_zero
  have hcalls : ∀ call ∈ [Call.process (fun i => (i : ℤ)) 5 fun _ => 0],
      call.Admissible (.bits 64) := by simp [Call.Admissible, Covers]
  obtain ⟨-, ⟨hret, -, -, hpos⟩, -⟩ := flush_drains hs le_rfl hcalls
    (Covers.of_le (show 4 ≤ 2 ^ 56 by decide)) fun _ => 0
  exact ⟨hret, hpos⟩

end RatioTap
