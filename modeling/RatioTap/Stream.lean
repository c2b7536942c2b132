import RatioTap.Accounting

/-!
# The converter as a function of its stream

What a converter is after the frames `xs` went in and `n` outputs came out: `after` gives
its whole state, down to the cells that hold nothing any more, and `outSample` the samples
it emits.  Neither depends on how the frames and the outputs were interleaved, nor on who
drove the converter: appending a frame and emitting an output are functions on these
descriptions (`appendFrame_after`, `emit_after`), and every driver is a sequence of the two.

Channel `c` of the history is the sliding history of the channel's own samples, and an
output reads the last `T` of them, with silence before the stream.
-/

namespace RatioTap

open FlatMemory SlidingHistory

namespace Converter

variable {D : Direction} {S K : Type}

/-- The samples of one channel. -/
def channel (k : Kernels S K) (c : ℕ) (xs : List (List S)) : List S :=
  xs.map fun f => f.getD c k.silence

/-- The delay line of one channel. -/
def history (k : Kernels S K) (tb : PhaseTable D K) (c : ℕ) (xs : List (List S)) : History S :=
  run tb.mTaps (tb.mTaps + kHistSlack) k.silence (channel k c xs)

/-- The delay lines of all channels. -/
def histories (k : Kernels S K) (tb : PhaseTable D K) (C : ℕ) (xs : List (List S)) :
    List (List S) :=
  (List.range C).map fun c => (history k tb c xs).buf

/-- The converter after the frames `xs` and `n` outputs, with a pending gap of `p`. -/
def after (k : Kernels S K) (tb : PhaseTable D K) (C : ℕ) (xs : List (List S)) (n p : ℕ) :
    Converter D S K where
  mTable := tb
  mChannels := C
  mHistCap := tb.mTaps + kHistSlack
  mHist := histories k tb C xs
  mEnd := finAfter tb.mTaps (tb.mTaps + kHistSlack) xs.length
  mPos := n % D.kPhases
  mPending := p

/-- The newest `T` samples of one channel, with silence before the stream. -/
def newest (k : Kernels S K) (tb : PhaseTable D K) (c : ℕ) (xs : List (List S)) : List S :=
  (List.replicate tb.mTaps k.silence ++ channel k c xs).rtake tb.mTaps

/-- The dot of one phase with a window: forward, or backward with the partner's row. -/
def dotPhase (k : Kernels S K) (tb : PhaseTable D K) (ph : ℕ) (win : List S) : S :=
  let row := (tb.storedRow ph).take tb.mTaps
  if PhaseTable.isMirrored D ph then k.dotRowReversed row win else k.dotRow row win

/-- Sample `c` of output `n` of the stream `xs`. -/
def outSample (k : Kernels S K) (tb : PhaseTable D K) (xs : List (List S)) (n c : ℕ) : S :=
  dotPhase k tb (n * D.kDecimation % D.kPhases) (newest k tb c (xs.take (D.tick n + 1)))

/-- Output `n` of the stream `xs`, as a frame of `C` samples. -/
def outFrame (k : Kernels S K) (tb : PhaseTable D K) (C : ℕ) (xs : List (List S)) (n : ℕ) :
    List S := (List.range C).map (outSample k tb xs n)

variable {k : Kernels S K} {tb : PhaseTable D K} {C : ℕ} {xs ys : List (List S)} {n p c : ℕ}

@[simp] lemma taps_after : (after k tb C xs n p).taps = tb.mTaps := rfl

@[simp] lemma channels_after : (after k tb C xs n p).mChannels = C := rfl

@[simp] lemma length_channel : (channel k c xs).length = xs.length := by simp [channel]

/-- The samples of an output frame. -/
lemma getD_outFrame (hc : c < C) (d : S) :
    (outFrame k tb C xs n).getD c d = outSample k tb xs n c := by
  simp [outFrame, hc]

@[simp] lemma length_histories : (histories k tb C xs).length = C := by simp [histories]

lemma getElem?_histories (hc : c < C) :
    (histories k tb C xs)[c]? = some (history k tb c xs).buf := by
  simp [histories, hc]

lemma fin_history : (history k tb c xs).fin
    = finAfter tb.mTaps (tb.mTaps + kHistSlack) xs.length := by
  rw [history, fin_run, length_channel]

lemma history_concat (f : List S) :
    history k tb c (xs ++ [f])
      = push tb.mTaps (tb.mTaps + kHistSlack) (history k tb c xs) (f.getD c k.silence) := by
  rw [history, channel, List.map_append, List.map_singleton, run_concat]
  rfl

lemma history_holds (hT : 0 < tb.mTaps) (c : ℕ) (xs : List (List S)) :
    Holds tb.mTaps (tb.mTaps + kHistSlack) (history k tb c xs)
      (List.replicate tb.mTaps k.silence ++ channel k c xs) :=
  Holds.run hT (Nat.le_add_right _ _) _ _

/-- Later frames do not change an output that has its input. -/
lemma outSample_append (h : D.tick n < xs.length) :
    outSample k tb (xs ++ ys) n = outSample k tb xs n := by
  ext c
  rw [outSample, outSample, List.take_append_of_le_length h]

lemma outSample_of_isPrefix (hpre : xs <+: ys) (h : D.tick n < xs.length) :
    outSample k tb ys n = outSample k tb xs n := by
  obtain ⟨zs, rfl⟩ := hpre
  exact outSample_append h

/-! ### Appending a frame -/

/-- Compaction, when it is due: the histories and the end index that the append then uses. -/
def makeRoom (taps cap : ℕ) (hist : List (List S)) (fin : ℕ) : List (List S) × ℕ :=
  if fin = cap then compact taps hist fin else (hist, fin)

lemma compactIfFull_eq (s : Converter D S K) :
    s.compactIfFull = { s with
      mHist := (makeRoom s.taps s.mHistCap s.mHist s.mEnd).1
      mEnd := (makeRoom s.taps s.mHistCap s.mHist s.mEnd).2 } := by
  unfold compactIfFull makeRoom
  split <;> rfl

/-- The histories after making room and storing a frame behind the end. -/
def storeFrame (taps cap C : ℕ) (hist : List (List S)) (fin : ℕ) (frame : ℕ → S) :
    List (List S) :=
  let moved := makeRoom taps cap hist fin
  forLt C (fun c hist => hist.modify c fun h => h.set moved.2 (frame c)) moved.1

/-- Making room does to every delay line what a push does first. -/
lemma getElem?_makeRoom (hc : c < C) {fin : ℕ} (hfin : (history k tb c xs).fin = fin) :
    let moved := makeRoom tb.mTaps (tb.mTaps + kHistSlack) (histories k tb C xs) fin
    ∃ h, moved.1[c]? = some h ∧ ∀ a, h.set moved.2 a
      = (push tb.mTaps (tb.mTaps + kHistSlack) (history k tb c xs) a).buf := by
  intro moved
  rcases eq_or_ne fin (tb.mTaps + kHistSlack) with hfull | hfull
  · have hmoved : moved = compact tb.mTaps (histories k tb C xs) fin := if_pos hfull
    refine ⟨(slide (tb.mTaps - 1) (history k tb c xs)).buf, ?_, ?_⟩
    · rw [hmoved, compact, List.getElem?_map, getElem?_histories hc, slide, hfin]
      rfl
    · intro a
      rw [hmoved, push, if_pos (by rw [hfin, hfull])]
      rfl
  · have hmoved : moved = (histories k tb C xs, fin) := if_neg hfull
    refine ⟨(history k tb c xs).buf, ?_, ?_⟩
    · rw [hmoved, getElem?_histories hc]
    · intro a
      rw [hmoved, push, if_neg (by rwa [hfin]), hfin]

lemma length_makeRoom (taps cap : ℕ) (hist : List (List S)) (fin : ℕ) :
    (makeRoom taps cap hist fin).1.length = hist.length := by
  unfold makeRoom
  split
  · simp [compact]
  · rfl

/-- Storing a frame pushes it onto every delay line. -/
lemma storeFrame_histories (frame : ℕ → S) :
    storeFrame tb.mTaps (tb.mTaps + kHistSlack) C (histories k tb C xs)
        (finAfter tb.mTaps (tb.mTaps + kHistSlack) xs.length) frame
      = histories k tb C (xs ++ [(List.range C).map frame]) := by
  rw [storeFrame, forLt_modify (f := fun c (h : List S) => h.set _ (frame c))]
  ext1 c
  rw [List.getElem?_mapIdx]
  rcases Nat.lt_or_ge c C with hc | hc
  · obtain ⟨h, hmoved, hpush⟩ := getElem?_makeRoom hc (fin_history (k := k))
    have hframe : ((List.range C).map frame).getD c k.silence = frame c := by simp [hc]
    rw [getElem?_histories hc, history_concat, hframe, hmoved, Option.map_some, if_pos hc, hpush]
  · rw [List.getElem?_eq_none (by rw [length_makeRoom, length_histories]; exact hc),
      List.getElem?_eq_none (by rw [length_histories]; exact hc)]
    rfl

/-- The end index after making room and storing. -/
lemma makeRoom_snd (taps cap : ℕ) (hist : List (List S)) (n : ℕ) :
    (makeRoom taps cap hist (finAfter taps cap n)).2 + 1 = finAfter taps cap (n + 1) := by
  rw [makeRoom, finAfter]
  split <;> rfl

/-- `append_frame` appends the frame to the stream. -/
theorem appendFrame_after (frame : ℕ → S) :
    (after k tb C xs n p).appendFrame frame
      = after k tb C (xs ++ [(List.range C).map frame]) n p := by
  rw [appendFrame, compactIfFull_eq]
  simp only [after, Converter.mk.injEq, true_and, and_true]
  refine ⟨storeFrame_histories frame, ?_⟩
  rw [List.length_append, List.length_singleton]
  exact makeRoom_snd _ _ _ _

/-- `append_silence` appends a silent frame. -/
theorem appendSilence_after :
    (after k tb C xs n p).appendSilence k
      = after k tb C (xs ++ [List.replicate C k.silence]) n p := by
  have h : (after k tb C xs n p).appendFrame (fun _ => k.silence) = _ := appendFrame_after _
  rw [List.map_const', List.length_range] at h
  exact h

/-! ### One output frame -/

/-- The window before the end of a delay line holds the newest samples of its channel. -/
lemma window_histories (hT : 0 < tb.mTaps) (hc : c < C) :
    (((histories k tb C xs).getD c []).drop
        (finAfter tb.mTaps (tb.mTaps + kHistSlack) xs.length - tb.mTaps)).take tb.mTaps
      = newest k tb c xs := by
  have h := (history_holds (k := k) hT c xs).window
  rw [fin_history] at h
  rw [newest, ← h, List.getD_eq_getElem?_getD, getElem?_histories hc]
  rfl

/-- The frame that is stored when the newest input is the one the output waits for. -/
lemma store_outSample (hT : 0 < tb.mTaps) (hx : xs.length = D.tick n + 1) (out : ℕ → S) (o : ℕ) :
    forLt C (fun c out => Function.update out (o + c)
        (dotPhase k tb (n * D.kDecimation % D.kPhases)
          ((((histories k tb C xs).getD c []).drop
            (finAfter tb.mTaps (tb.mTaps + kHistSlack) xs.length - tb.mTaps)).take tb.mTaps))) out
      = writeFrame out o C (outSample k tb xs n) := by
  rw [← forLt_update]
  refine forLt_congr (fun c hc => ?_) out
  funext out
  rw [window_histories hT hc, outSample, ← hx, List.take_length]

lemma nextPos_mod (D : Direction) (n : ℕ) :
    nextPos D (n % D.kPhases) = (n + 1) % D.kPhases :=
  FloorClock.succ_mod_eq D.kPhases_pos n

/-- `emit` writes the next output of the stream, when its input has just been completed. -/
theorem emit_after (hT : 0 < tb.mTaps) (hx : xs.length = D.tick n + 1) (out : ℕ → S) (o : ℕ) :
    (after k tb C xs n p).emit k out o
      = (after k tb C xs (n + 1) (D.gap n), writeFrame out o C (outSample k tb xs n)) := by
  have hpos : (after k tb C xs n p).mPos = n % D.kPhases := rfl
  rw [emit, hpos, kSchedule_mod, nextPos_mod]
  exact Prod.ext rfl (store_outSample hT hx out o)

/-- The output that waits for nothing, written behind the `n` outputs of the stream before
it.  The memory may be described by a longer stream. -/
theorem emit_next {m : ℕ} (hT : 0 < tb.mTaps) (hst : Standing D xs.length (m + n))
    (hgap : gapLeft D xs.length (m + n) = 0) (hpre : xs <+: ys) (out : ℕ → S) :
    (after k tb C xs (m + n) p).emit k
        (writeFrames out C n fun i => outSample k tb ys (m + i)) (n * C)
      = (after k tb C xs (m + (n + 1)) (gapLeft D xs.length (m + (n + 1))),
          writeFrames out C (n + 1) fun i => outSample k tb ys (m + i)) := by
  have hx : xs.length = D.tick (m + n) + 1 := by
    have := hst.add_gapLeft
    omega
  have hnext : gapLeft D xs.length (m + (n + 1)) = D.gap (m + n) := hst.gapLeft_emit hgap
  rw [emit_after hT hx, ← outSample_of_isPrefix hpre (by omega), hnext,
    writeFrame_writeFrames out C n fun i => outSample k tb ys (m + i)]
  rfl

/-! ### Construction and reset -/

/-- `reset` forgets the stream. -/
theorem reset_after (hT : 0 < tb.mTaps) :
    (after k tb C xs n p).reset k = after k tb C [] 0 1 := by
  simp only [reset, after, Converter.mk.injEq, true_and, Nat.zero_mod, and_true]
  refine ⟨?_, rfl⟩
  rw [histories, histories, List.map_map]
  apply List.map_congr_left
  intro c _
  have hlen := (history_holds (k := k) hT c xs).length_buf
  rw [Function.comp_apply, List.map_const', hlen]
  rfl

/-- A freshly constructed converter has an empty stream. -/
theorem make_ok (hC : C ≠ 0) : make k tb C = .ok (after k tb C [] 0 1) := by
  rw [make, if_neg hC]
  simp only [reset, after, Except.ok.injEq, Converter.mk.injEq, true_and, Nat.zero_mod, and_true]
  refine ⟨?_, rfl⟩
  rw [List.map_replicate, List.map_const', List.length_replicate]
  simp [histories, history, channel, init]

lemma make_eq_ok {s : Converter D S K} (h : make k tb C = .ok s) :
    C ≠ 0 ∧ s = after k tb C [] 0 1 := by
  by_cases hC : C = 0
  · rw [make, if_pos hC] at h
    cases h
  · rw [make_ok hC] at h
    exact ⟨hC, (Except.ok.inj h).symm⟩

end Converter

end RatioTap
