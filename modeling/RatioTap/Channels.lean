import RatioTap.Agreement

/-!
# Channels

A converter treats its channels alike and apart: what comes out on one channel is a function
of what went in on it.  Two converters on one table may have any numbers of channels; if
channel `c` of the first and channel `c'` of the second are fed the same samples, by calls of
the same kinds and lengths, then the two channels get the same outputs.

Against a converter of one channel this says that every channel is converted as if it were
alone, and against a second converter of the same shape, that no other channel is heard on it
(`channel_independence`).  Which walk `process` dispatches to does not matter.
-/

namespace RatioTap

open Converter

variable {A : Word} {D : Direction} {S K : Type} {k : Kernels S K} {tb : PhaseTable D K}
  {C c : ℕ}

/-- Channel independence.  Run any calls on a converter of `C` channels.  A converter of one
channel that is driven by the same calls, with the samples of channel `c` alone, returns the
same counts and writes the samples of channel `c`; and so another converter of `C` channels
whose calls agree on channel `c`, whatever they do on the others. -/
theorem channel_independence {s : Converter D S K} {calls : List (Call S)}
    (hs : Converter.make k tb C = .ok s) (hT : 0 < tb.mTaps) (hc : c < C)
    (hcalls : ∀ call ∈ calls, call.Admissible A) :
    (∀ mono, Converter.make k tb 1 = .ok mono → ∀ calls',
      List.Forall₂ (Call.Agree C c 1 0) calls calls' →
        List.Forall₂ (Report.Agree k c 0) (s.trace A k calls) (mono.trace A k calls')) ∧
    ∀ calls', List.Forall₂ (Call.Agree C c C c) calls calls' →
      List.Forall₂ (Report.Agree k c c) (s.trace A k calls) (s.trace A k calls') := by
  have fresh {C₀ : ℕ} {t : Converter D S K} (ht : Converter.make k tb C₀ = .ok t) :
      t = after k tb C₀ [] 0 (gapLeft D ([] : List (List S)).length 0) := by
    rw [List.length_nil, gapLeft_zero]
    exact (make_eq_ok ht).2
  rw [fresh hs]
  constructor
  · intro mono hmono calls' h
    rw [fresh hmono]
    exact trace_alike hT hc one_pos (.of_channel rfl) (Resting.zero D) (Resting.zero D) h hcalls
  · intro calls' h
    exact trace_alike hT hc hc (.of_channel rfl) (Resting.zero D) (Resting.zero D) h hcalls

/-- The right channel of a stereo converter, through a block, a pull, a flush and a reset. -/
theorem channel_independence_stereo :
    let s := after (.exact ℤ) (.box .upTo48k 4) 2 [] 0 1
    let mono := after (.exact ℤ) (.box .upTo48k 4) 1 [] 0 1
    let pop (dst : ℕ → ℤ) : PopFn ℤ :=
      ⟨ℕ, 9, fun left want => (left - want, min left want, dst)⟩
    let stereo : ℕ → ℤ := fun i => i
    let right : ℕ → ℤ := fun i => 2 * i + 1
    List.Forall₂ (Report.Agree (.exact ℤ) 1 0)
      (s.trace (.bits 64) (.exact ℤ) [.process stereo 5 fun _ => 0,
        .pull (fun _ => 0) 12 (pop stereo), .flush fun _ => 0, .reset])
      (mono.trace (.bits 64) (.exact ℤ) [.process right 5 fun _ => 0,
        .pull (fun _ => 0) 12 (pop right), .flush fun _ => 0, .reset]) := by
  intro s mono pop stereo right
  have hs : Converter.make (.exact ℤ) (.box .upTo48k 4) 2 = .ok s := make_ok two_ne_zero
  have hmono : Converter.make (.exact ℤ) (.box .upTo48k 4) 1 = .ok mono := make_ok one_ne_zero
  have hsame (n : ℕ) : SameSamples 2 1 1 0 n stereo right := by
    intro i _
    simp only [stereo, right]
    omega
  have hpop : (pop stereo).Agree 2 1 1 0 (pop right) := by
    refine ⟨Eq, rfl, ?_⟩
    rintro a b rfl want
    exact ⟨rfl, rfl, hsame _⟩
  have hagree : List.Forall₂ (Call.Agree 2 1 1 0)
      [.process stereo 5 fun _ => 0, .pull (fun _ => 0) 12 (pop stereo), .flush fun _ => 0,
        .reset]
      [.process right 5 fun _ => 0, .pull (fun _ => 0) 12 (pop right), .flush fun _ => 0,
        .reset] :=
    .cons (.process _ _ (hsame 5)) <| .cons (.pull _ _ _ hpop) <| .cons (.flush _ _) <|
      .cons .reset .nil
  refine (channel_independence hs four_pos one_lt_two ?_).1 mono hmono _ hagree
  simp [Call.Admissible, Covers]

end RatioTap
