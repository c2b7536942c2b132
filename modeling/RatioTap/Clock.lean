import RatioTap.SessionStream

/-!
# The clock of a converter

However a converter is driven, its position, its pending gap and the two counters of its
stream stay on the floor clock of the ratio (`clock`): no run drifts.  What one block can
yield is then a matter of rounding (`outputsFor_bounds`), and on a converter that only
processes blocks, of nothing else (`block_outputs`).
-/

namespace RatioTap

namespace Session

variable {A : Word} {D : Direction} {S K : Type} {k : Kernels S K} {tb : PhaseTable D K} {C : ℕ}
  {σ : Session D S K} {s : Converter D S K} {calls : List (Call S)}

/-- An output that is free was reached with a zero advance, which only going up has. -/
lemma Described.up_of_pending_eq_zero (h : σ.Described k tb C) (h0 : σ.conv.mPending = 0) :
    D = .upTo48k := by
  rw [h.mPending_eq] at h0
  have hgap := h.resting.gap_eq_zero h0
  have hle := FloorClock.le_gap (L := D.kPhases) (M := D.kDecimation) (σ.outs.length - 1)
  cases D with
  | upTo48k => rfl
  | downTo44k1 =>
      have : 1 ≤ Direction.downTo44k1.gap (σ.outs.length - 1) := hle
      omega

/-- The clock invariant: the position is the number of outputs within the superblock, input
and pending gap together are one frame ahead of the clock, the gap is never longer than one
advance and empty only where an output of the up direction is free, and the outputs are all
that are due, or all but that free one. -/
theorem clock (hs : Converter.make k tb C = .ok s) (hT : 0 < tb.mTaps)
    (hcalls : ∀ call ∈ calls, call.Admissible A) :
    let σ := (start s).run A k calls
    σ.conv.mPos = σ.outs.length % D.kPhases ∧
      σ.fed.length + σ.conv.mPending = σ.outs.length * D.kDecimation / D.kPhases + 1 ∧
      (D = .upTo48k → σ.conv.mPending ≤ 1) ∧
      (D = .downTo44k1 → 1 ≤ σ.conv.mPending ∧ σ.conv.mPending ≤ 2) ∧
      ((∀ out n pop, calls.getLast? ≠ some (.pull out n pop)) → σ.conv.mPending ≠ 0) ∧
      (1 ≤ σ.conv.mPending → σ.outs.length = σ.fed.length * D.kPhases ⌈/⌉ D.kDecimation) ∧
      (σ.conv.mPending = 0 →
        σ.outs.length + 1 = σ.fed.length * D.kPhases ⌈/⌉ D.kDecimation) := by
  intro σ
  have h : σ.Described k tb C := described_run hs hT hcalls
  have hpend := h.mPending_eq
  refine ⟨h.at.pos_eq, ?_, ?_, ?_, pending_ne_zero hs hT hcalls, ?_, ?_⟩
  · rw [hpend]
    exact h.resting.add_gapLeft
  · rintro rfl
    exact h.at.pending_le
  · rintro rfl
    refine ⟨Nat.pos_of_ne_zero ?_, h.at.pending_le⟩
    intro h0
    exact absurd (h.up_of_pending_eq_zero h0) (by decide)
  · intro hpos
    exact (h.resting.due_eq (by omega)).symm
  · intro h0
    rw [hpend] at h0
    exact (h.resting.due_eq_succ h0).symm

/-- A block, some pulled outputs and a flush going down. -/
theorem clock_mixed :
    let D : Direction := .downTo44k1
    let s := Converter.after (.exact ℤ) (.box D 4) 1 [] 0 1
    let pop : PopFn ℤ := ⟨ℕ, 20, fun left want => (left - want, min left want, fun i => i)⟩
    let σ := (start s).run (.bits 64) (.exact ℤ)
      [.process (fun i => i) 7 fun _ => 0, .pull (fun _ => 0) 30 pop, .flush fun _ => 0]
    σ.fed.length + σ.conv.mPending = σ.outs.length * D.kDecimation / D.kPhases + 1 :=
  (clock (Converter.make_ok one_ne_zero) four_pos
    (by simp [Call.Admissible, Covers])).2.1

/-! ### Block bounds -/

/-- The outputs that a block yields, in any reachable state: `n * L / M` rounded down or up,
and one more at most where an output is free. -/
lemma Described.outputsFor_bounds (h : σ.Described k tb C) {n : ℕ} (hn : Covers A n) :
    n * D.kPhases / D.kDecimation ≤ σ.conv.outputsFor A n ∧
      σ.conv.outputsFor A n
        ≤ n * D.kPhases ⌈/⌉ D.kDecimation + if σ.conv.mPending = 0 then 1 else 0 := by
  rw [Converter.outputsFor_at hn.fits h.at]
  have hlow := D.le_due_add σ.fed.length n
  have hup := D.due_add_le σ.fed.length n
  have hle : σ.outs.length ≤ D.due σ.fed.length := h.resting.le_due
  rw [h.mPending_eq]
  by_cases h0 : gapLeft D σ.fed.length σ.outs.length = 0
  · have heq : D.due σ.fed.length = σ.outs.length + 1 := h.resting.due_eq_succ h0
    rw [if_pos h0]
    constructor <;> omega
  · have heq : D.due σ.fed.length = σ.outs.length := h.resting.due_eq h0
    rw [if_neg h0]
    constructor <;> omega

/-- Block output bounds.  In every reachable state a block of `n` frames yields `n * L / M`
outputs, rounded down or up, and one more at most where an output is free.  A converter that
only processes blocks has emitted exactly `⌈X * L / M⌉` outputs after `X` frames, so any
consecutive blocks of `n` frames in all yield `⌊n * L / M⌋` or `⌈n * L / M⌉`. -/
theorem block_outputs (hs : Converter.make k tb C = .ok s) (hT : 0 < tb.mTaps)
    (hcalls : ∀ call ∈ calls, call.Admissible A) :
    let σ := (start s).run A k calls
    (∀ n, Covers A n →
      n * D.kPhases / D.kDecimation ≤ σ.conv.outputsFor A n ∧
        σ.conv.outputsFor A n
          ≤ n * D.kPhases ⌈/⌉ D.kDecimation + if σ.conv.mPending = 0 then 1 else 0) ∧
    ((∀ call ∈ calls, call.IsProcess) →
      σ.outs.length = σ.fed.length * D.kPhases ⌈/⌉ D.kDecimation ∧
      ∀ before window rest, calls = before ++ window ++ rest →
        let n := (window.flatMap (Call.block C)).length
        let m := ((start s).run A k before).outs.length
        ((start s).run A k (before ++ window)).outs.length = m + n * D.kPhases / D.kDecimation ∨
          ((start s).run A k (before ++ window)).outs.length
            = m + n * D.kPhases ⌈/⌉ D.kDecimation) := by
  intro σ
  constructor
  · intro n hn
    exact (described_run hs hT hcalls).outputsFor_bounds hn
  intro hproc
  refine ⟨length_outs_of_process hs hT hcalls hproc, ?_⟩
  rintro before window rest rfl
  have hmem : ∀ c ∈ before, c ∈ before ++ window ++ rest := fun c hc =>
    List.mem_append_left _ (List.mem_append_left _ hc)
  have hmem' : ∀ c ∈ before ++ window, c ∈ before ++ window ++ rest := fun c hc =>
    List.mem_append_left _ hc
  dsimp only
  rw [length_outs_of_process hs hT (fun c hc => hcalls c (hmem' c hc))
      (fun c hc => hproc c (hmem' c hc)),
    length_outs_of_process hs hT (fun c hc => hcalls c (hmem c hc))
      (fun c hc => hproc c (hmem c hc)),
    run_append, (described_run hs hT fun c hc => hcalls c (hmem c hc)).fed_of_process hT
      (fun c hc => hcalls c (hmem' c (List.mem_append_right _ hc)))
      fun c hc => hproc c (hmem' c (List.mem_append_right _ hc)), List.length_append]
  exact FloorClock.due_add_eq D.kPhases_pos D.kDecimation_pos _ _

/-- Two blocks of 64 frames in a row going up. -/
theorem block_outputs_two :
    let D : Direction := .upTo48k
    let s := Converter.after (.exact ℤ) (.box D 4) 1 [] 0 1
    let block : Call ℤ := .process (fun i => i) 64 fun _ => 0
    let σ := (start s).run (.bits 64) (.exact ℤ) [block, block]
    σ.outs.length = σ.fed.length * D.kPhases ⌈/⌉ D.kDecimation := by
  intro D s block σ
  have hs : Converter.make (.exact ℤ) (.box D 4) 1 = .ok s := Converter.make_ok one_ne_zero
  have hcalls : ∀ call ∈ [block, block], call.Admissible (.bits 64) := by
    simp [block, Call.Admissible, Covers]
  have hproc : ∀ call ∈ [block, block], call.IsProcess := by simp [block, Call.IsProcess]
  exact ((block_outputs (k := .exact ℤ) hs four_pos hcalls).2 hproc).1

end Session

end RatioTap
