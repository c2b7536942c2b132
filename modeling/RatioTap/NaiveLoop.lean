import RatioTap.Clock

/-!
# The naive loop

The machine that the superblock walk of `process` replaces: it decides after every frame
whether an output is due, has no trip count, keeps its state in the members and goes through
`emit` and `append_frame`.  On every reachable converter `process`, and every instantiation
of the walk that it can dispatch to, does what this loop does, down to the last history cell
(`process_eq_naive`).
-/

namespace RatioTap

open FlatMemory

namespace Converter

variable {A : Word} {D : Direction} {S K : Type} {k : Kernels S K} {tb : PhaseTable D K} {C : ℕ}
  {xs : List (List S)} {m i j N : ℕ}

/-- `while m_pending = 0 do emit()`. -/
def drain (k : Kernels S K) (w : Written D S K) : Written D S K :=
  if w.conv.mPending = 0 then
    let e := w.conv.emit k w.out (w.ret * w.conv.mChannels)
    drain k { conv := e.1, out := e.2, ret := w.ret + 1 }
  else w
termination_by w.conv.emitRank
decreasing_by exact emitRank_emit ‹_› _ _

/-- The rest of the naive loop, with `left` input frames to go and `i` taken in: drain, and
if input remains append the next frame. -/
def naiveLoop (k : Kernels S K) (inp : ℕ → S) : (left i : ℕ) → Written D S K → Written D S K
  | 0, _, w => drain k w
  | left + 1, i, w =>
    let w := drain k w
    naiveLoop k inp left (i + 1)
      { w with conv := w.conv.takeFrame fun c => inp (i * w.conv.mChannels + c) }

/-- The naive loop over a block. -/
def processNaive (k : Kernels S K) (s : Converter D S K) (inp : ℕ → S) (inFrames : ℕ)
    (out : ℕ → S) : Written D S K :=
  naiveLoop k inp inFrames 0 { conv := s, out := out, ret := 0 }

/-! ### On streams -/

/-- The naive loop over a block of `N` frames, entered after the frames `xs` and `m` outputs,
when it has taken in `i` frames and written `j` outputs. -/
def naiveAt (k : Kernels S K) (tb : PhaseTable D K) (C : ℕ) (inp out : ℕ → S) (N : ℕ)
    (xs : List (List S)) (m i j : ℕ) : Written D S K where
  conv := after k tb C (xs ++ framesFrom inp C i) (m + j) (gapLeft D (xs.length + i) (m + j))
  out := writeFrames out C j fun r => outSample k tb (xs ++ framesFrom inp C N) (m + r)
  ret := j

variable (inp out : ℕ → S)

/-- Draining emits the outputs that are due. -/
lemma drain_at (hT : 0 < tb.mTaps) (hi : i ≤ N) (hst : Standing D (xs.length + i) (m + j)) :
    drain k (naiveAt k tb C inp out N xs m i j)
      = naiveAt k tb C inp out N xs m i (D.due (xs.length + i) - m) := by
  obtain ⟨todo, htodo⟩ : ∃ todo, todo = D.due (xs.length + i) - (m + j) := ⟨_, rfl⟩
  induction todo generalizing j with
  | zero =>
      have hne : gapLeft D (xs.length + i) (m + j) ≠ 0 := gapLeft_ne_zero_iff.2 (by omega)
      have hdue : D.due (xs.length + i) = m + j := hst.due_eq hne
      have hpend : (naiveAt k tb C inp out N xs m i j).conv.mPending ≠ 0 := hne
      rw [drain, if_neg hpend, hdue, Nat.add_sub_cancel_left]
  | succ todo ih =>
      have hzero : gapLeft D (xs.length + i) (m + j) = 0 := by
        rw [← not_ne_iff, gapLeft_ne_zero_iff]
        omega
      have hlen : (xs ++ framesFrom inp C i).length = xs.length + i := by simp
      have hst' : Standing D (xs.length + i) (m + (j + 1)) := hst.emit hzero
      have hpend : (naiveAt k tb C inp out N xs m i j).conv.mPending = 0 := hzero
      have hemit := emit_next (k := k) (C := C) (p := gapLeft D (xs.length + i) (m + j)) hT
        (hlen ▸ hst) (hlen ▸ hzero) (append_framesFrom_isPrefix xs inp hi) out
      rw [hlen] at hemit
      rw [← ih hst' (by omega), drain, if_pos hpend]
      dsimp only [naiveAt, channels_after]
      rw [hemit]

/-- The loop emits what is due before and after every frame of the block. -/
lemma naiveLoop_at (hT : 0 < tb.mTaps) {left : ℕ} (hleft : i + left = N)
    (hst : Standing D (xs.length + i) (m + j)) :
    naiveLoop k inp left i (naiveAt k tb C inp out N xs m i j)
      = naiveAt k tb C inp out N xs m N (D.due (xs.length + N) - m) := by
  induction left generalizing i j with
  | zero =>
      obtain rfl : i = N := hleft
      exact drain_at inp out hT le_rfl hst
  | succ left ih =>
      -- the outputs due before the next frame is taken in
      obtain ⟨j', hj'⟩ : ∃ j', j' = D.due (xs.length + i) - m := ⟨_, rfl⟩
      have hle : m + j ≤ D.due (xs.length + i) := hst.le_due
      have hrest : Resting D (xs.length + i) (m + j') := by
        rw [hj', Nat.add_sub_of_le (by omega)]
        exact Resting.due D _
      have hne : gapLeft D (xs.length + i) (m + j') ≠ 0 := gapLeft_ne_zero_iff.2 (by omega)
      have hst' : Standing D (xs.length + (i + 1)) (m + j') := hrest.toStanding.feed hne
      have htake : (after k tb C (xs ++ framesFrom inp C i) (m + j')
          (gapLeft D (xs.length + i) (m + j'))).takeFrame (fun c => inp (i * C + c))
          = after k tb C (xs ++ framesFrom inp C (i + 1)) (m + j')
              (gapLeft D (xs.length + (i + 1)) (m + j')) := by
        rw [takeFrame_after (Nat.pos_of_ne_zero hne) hrest.gapLeft_lt, List.append_assoc,
          ← Nat.add_assoc, gapLeft_add D (xs.length + i), framesFrom_succ]
        rfl
      rw [naiveLoop, drain_at inp out hT (by omega) hst, ← hj']
      dsimp only [naiveAt, channels_after]
      rw [htake]
      exact ih (by omega) hst'

/-- The naive loop does what `process` does to a converter described by its stream. -/
lemma processNaive_after (hT : 0 < tb.mTaps) (hN : Covers A N) (hst : Standing D xs.length m) :
    (after k tb C xs m (gapLeft D xs.length m)).processNaive k inp N out
      = (after k tb C xs m (gapLeft D xs.length m)).process A k inp N out := by
  have hentry : (⟨after k tb C xs m (gapLeft D xs.length m), out, 0⟩ : Written D S K)
      = naiveAt k tb C inp out N xs m 0 0 := by
    rw [naiveAt, framesFrom_zero, List.append_nil, writeFrames_zero]
    rfl
  have hdue : m + (D.due (xs.length + N) - m) = D.due (xs.length + N) :=
    Nat.add_sub_of_le (hst.le_due_add N)
  rw [processNaive, hentry, naiveLoop_at inp out hT (Nat.zero_add N) hst,
    process_after inp out hT hN hst, naiveAt, hdue]

end Converter

/-- The superblock walk refines the naive loop: on every reachable converter, `process` and
every instantiation of the walk that suits the converter write the same memory, return the
same count and leave the same state as the loop that goes frame by frame. -/
theorem process_eq_naive {A : Word} {D : Direction} {S K : Type} {k : Kernels S K}
    {tb : PhaseTable D K} {C : ℕ} {s : Converter D S K} {calls : List (Call S)}
    (hs : Converter.make k tb C = .ok s) (hT : 0 < tb.mTaps)
    (hcalls : ∀ call ∈ calls, call.Admissible A) {N : ℕ} (hN : Covers A N) (inp out : ℕ → S) :
    let t := ((Session.start s).run A k calls).conv
    t.process A k inp N out = t.processNaive k inp N out ∧
      ∀ CH T, t.Suits CH T → t.processWalk A k CH T inp N out = t.processNaive k inp N out := by
  intro t
  have h := Session.described_run hs hT hcalls
  have heq : t.process A k inp N out = t.processNaive k inp N out := by
    have ht : t = _ := h.conv
    rw [ht, Converter.processNaive_after inp out hT hN h.resting.toStanding]
  refine ⟨heq, ?_⟩
  intro CH T hsuits
  rw [Converter.processWalk_eq_generic hsuits, ← Converter.process_eq_generic, heq]

/-- A stereo block met with an output already due. -/
theorem process_eq_naive_stereo :
    let s := Converter.after (.exact ℤ) (.box .upTo48k 4) 2 [] 0 1
    let pop : PopFn ℤ := ⟨Unit, (), fun _ want => ((), want, fun i => i)⟩
    let t := ((Session.start s).run (.bits 64) (.exact ℤ) [.pull (fun _ => 0) 1 pop]).conv
    t.process (.bits 64) (.exact ℤ) (fun i => i) 5 (fun _ => 0)
      = t.processNaive (.exact ℤ) (fun i => i) 5 fun _ => 0 :=
  (process_eq_naive (Converter.make_ok two_ne_zero) four_pos (by simp [Call.Admissible])
    (Covers.of_le (by decide)) _ _).1

end RatioTap
