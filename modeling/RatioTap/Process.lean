import RatioTap.Converter

/-!
# Push: the superblock walk

`process` and the functions under it.  `processWalk` is written over the locals of the
source (`Walk`), with the channel shape `CH` and the dot length `T` as the parameters the
source stamps out: `CH` is 1, 2 or 0 for any channel count, and `T` is a canonical tap count
or 0 for the table's own.

No shape computes anything of its own: on a converter with as many channels as the shape
says, and as many taps as the dot length says, every instantiation is the generic one
(`processWalk_eq_generic`), so `process` is the generic walk whatever it dispatches to
(`process_eq_generic`).
-/

namespace RatioTap

open FlatMemory SlidingHistory

/-- The locals of `process_walk`, the histories it writes in place, and the output memory.
The pointers `src` and `out` are offsets into the caller's buffers. -/
structure Walk (S : Type) where
  hist : List (List S)
  src : ℕ
  dst : ℕ
  out : ℕ → S
  remain : ℕ
  fin : ℕ
  pos : ℕ
  pending : ℕ

namespace Converter

variable {D : Direction} {S K : Type}

/-- `dot_mirrored<T>(row, hist)`. -/
def dotMirrored (k : Kernels S K) (s : Converter D S K) (T : ℕ) (row : List K) (hist : List S) :
    S :=
  let taps := if T ≠ 0 then T else s.taps
  k.dotRowReversed (row.take taps) (hist.take taps)

/-- The `append` lambda of `process_walk`.  The hoisted pointers `h0` and `h1` are the first
two histories: compaction moves their cells in place. -/
def walkAppend (A : Word) (CH : ℕ) (s : Converter D S K) (inp : ℕ → S) (w : Walk S) : Walk S :=
  let ch := if CH ≠ 0 then CH else s.mChannels
  let moved := if w.fin = s.mHistCap then compact s.taps w.hist w.fin else (w.hist, w.fin)
  let fin := moved.2
  let hist := match CH with
    | 1 => moved.1.modify 0 fun h => h.set fin (inp w.src)
    | 2 => (moved.1.modify 0 fun h => h.set fin (inp w.src)).modify 1
        fun h => h.set fin (inp (w.src + 1))
    | _ => forLt ch (fun c hist => hist.modify c fun h => h.set fin (inp (w.src + c))) moved.1
  { w with hist := hist, src := w.src + ch, remain := A.sub w.remain 1, fin := fin + 1 }

/-- `--pending`. -/
def walkDecPending (A : Word) (w : Walk S) : Walk S := { w with pending := A.sub w.pending 1 }

/-- The body of the main loop after its inner loop: one output frame. -/
def walkEmit (k : Kernels S K) (CH T : ℕ) (s : Converter D S K) (w : Walk S) : Walk S :=
  let taps := if T ≠ 0 then T else s.taps
  let ch := if CH ≠ 0 then CH else s.mChannels
  let step := kSchedule D w.pos
  let row := s.mTable.storedRow step.phase
  let mir := PhaseTable.isMirrored D step.phase
  let newest := fun c => (w.hist.getD c []).drop (w.fin - taps)
  let dot := fun c => k.dotRow (row.take taps) ((newest c).take taps)
  let out := match CH with
    | 1 => Function.update w.out w.dst (if mir then dotMirrored k s T row (newest 0) else dot 0)
    | 2 =>
      if mir then
        Function.update (Function.update w.out w.dst (dotMirrored k s T row (newest 0)))
          (w.dst + 1) (dotMirrored k s T row (newest 1))
      else
        Function.update (Function.update w.out w.dst (dot 0)) (w.dst + 1) (dot 1)
    | _ => forLt ch
        (fun c out => Function.update out (w.dst + c)
          (if mir then dotMirrored k s T row (newest c) else dot c)) w.out
  { w with out := out, dst := w.dst + ch, pending := step.advance, pos := nextPos D w.pos }

/-- `while (pending != 0) { append(); --pending; }`. -/
def walkFill (A : Word) (CH : ℕ) (s : Converter D S K) (inp : ℕ → S) (w : Walk S) : Walk S :=
  if w.pending = 0 then w
  else walkFill A CH s inp (walkDecPending A (walkAppend A CH s inp w))
termination_by w.pending
decreasing_by exact Word.sub_one_lt ‹_›

/-- The main loop, with the given number of outputs to go. -/
def walkProduce (A : Word) (k : Kernels S K) (CH T : ℕ) (s : Converter D S K) (inp : ℕ → S) :
    ℕ → Walk S → Walk S
  | 0, w => w
  | n + 1, w => walkProduce A k CH T s inp n (walkEmit k CH T s (walkFill A CH s inp w))

/-- `while (remain != 0) { append(); --pending; }`. -/
def walkLeftover (A : Word) (CH : ℕ) (s : Converter D S K) (inp : ℕ → S) (w : Walk S) : Walk S :=
  if w.remain = 0 then w
  else walkLeftover A CH s inp (walkDecPending A (walkAppend A CH s inp w))
termination_by w.remain
decreasing_by exact Word.sub_one_lt ‹_›

/-- The locals at the entry of the walk. -/
def walkEntry (s : Converter D S K) (inFrames : ℕ) (out : ℕ → S) : Walk S :=
  { hist := s.mHist, src := 0, dst := 0, out := out, remain := inFrames, fin := s.mEnd,
    pos := s.mPos, pending := s.mPending }

/-- `process_walk<CH, T>(in, in_frames, out)`. -/
def processWalk (A : Word) (k : Kernels S K) (CH T : ℕ) (s : Converter D S K) (inp : ℕ → S)
    (inFrames : ℕ) (out : ℕ → S) : Written D S K :=
  let total := s.outputsFor A inFrames
  let w := walkLeftover A CH s inp
    (walkProduce A k CH T s inp total (walkEntry s inFrames out))
  { conv := { s with
      mHist := w.hist
      mEnd := w.fin
      mPos := w.pos % 2 ^ 32
      mPending := w.pending % 2 ^ 32 }
    out := w.out
    ret := total }

/-- `process_taps<T>(in, in_frames, out)`. -/
def processTaps (A : Word) (k : Kernels S K) (T : ℕ) (s : Converter D S K) (inp : ℕ → S)
    (inFrames : ℕ) (out : ℕ → S) : Written D S K :=
  if s.mChannels = 1 then processWalk A k 1 T s inp inFrames out
  else if s.mChannels = 2 then processWalk A k 2 T s inp inFrames out
  else processWalk A k 0 T s inp inFrames out

/-- `process(in, in_frames, out)`: one dispatch on the canonical tap counts. -/
def process (A : Word) (k : Kernels S K) (s : Converter D S K) (inp : ℕ → S) (inFrames : ℕ)
    (out : ℕ → S) : Written D S K :=
  if s.taps = Profile.economy.taps D then
    processTaps A k (Profile.economy.taps D) s inp inFrames out
  else if s.taps = Profile.superEconomy.taps D then
    processTaps A k (Profile.superEconomy.taps D) s inp inFrames out
  else if s.taps = Profile.balanced.taps D then
    processTaps A k (Profile.balanced.taps D) s inp inFrames out
  else if s.taps = Profile.transparent.taps D then
    processTaps A k (Profile.transparent.taps D) s inp inFrames out
  else
    processTaps A k 0 s inp inFrames out

/-! ### The instantiations agree -/

section Shapes

variable {A : Word} {k : Kernels S K} {CH T : ℕ} {s : Converter D S K}

/-- The shape and the dot length suit the converter. -/
def Suits (s : Converter D S K) (CH T : ℕ) : Prop :=
  (CH = 0 ∨ (CH = 1 ∨ CH = 2) ∧ s.mChannels = CH) ∧ (T = 0 ∨ s.taps = T)

lemma Suits.taps_eq (h : s.Suits CH T) : (if T ≠ 0 then T else s.taps) = s.taps := by
  rcases h.2 with rfl | hT
  · simp
  · rw [hT]
    exact ite_id T

lemma walkAppend_eq_generic (h : s.Suits CH T) (inp : ℕ → S) (w : Walk S) :
    walkAppend A CH s inp w = walkAppend A 0 s inp w := by
  rcases h.1 with rfl | ⟨rfl | rfl, hC⟩
  · rfl
  · simp [walkAppend, hC, forLt]
  · simp [walkAppend, hC, forLt]

lemma walkEmit_eq_generic (h : s.Suits CH T) (w : Walk S) :
    walkEmit k CH T s w = walkEmit k 0 0 s w := by
  have ht := h.taps_eq
  rcases h.1 with rfl | ⟨rfl | rfl, hC⟩
  · simp [walkEmit, dotMirrored, ht]
  · simp [walkEmit, dotMirrored, ht, hC, forLt]
  · cases hm : PhaseTable.isMirrored D (kSchedule D w.pos).phase <;>
      simp [walkEmit, dotMirrored, ht, hC, forLt, hm]

lemma walkFill_eq_generic (h : s.Suits CH T) (inp : ℕ → S) (w : Walk S) :
    walkFill A CH s inp w = walkFill A 0 s inp w := by
  induction w using walkFill.induct A CH s inp with
  | case1 w hw => rw [walkFill, if_pos hw, walkFill, if_pos hw]
  | case2 w hw ih =>
      rw [walkFill, if_neg hw, ih, walkAppend_eq_generic h, walkFill.eq_1 A 0 s inp w, if_neg hw]

lemma walkProduce_eq_generic (h : s.Suits CH T) (inp : ℕ → S) (n : ℕ) (w : Walk S) :
    walkProduce A k CH T s inp n w = walkProduce A k 0 0 s inp n w := by
  induction n generalizing w with
  | zero => rfl
  | succ n ih =>
      rw [walkProduce, walkProduce, walkFill_eq_generic h, walkEmit_eq_generic h, ih]

lemma walkLeftover_eq_generic (h : s.Suits CH T) (inp : ℕ → S) (w : Walk S) :
    walkLeftover A CH s inp w = walkLeftover A 0 s inp w := by
  induction w using walkLeftover.induct A CH s inp with
  | case1 w hw => rw [walkLeftover, if_pos hw, walkLeftover, if_pos hw]
  | case2 w hw ih =>
      rw [walkLeftover, if_neg hw, ih, walkAppend_eq_generic h, walkLeftover.eq_1 A 0 s inp w,
        if_neg hw]

/-- Every instantiation that suits the converter is the generic one. -/
theorem processWalk_eq_generic (h : s.Suits CH T) (inp : ℕ → S) (inFrames : ℕ) (out : ℕ → S) :
    processWalk A k CH T s inp inFrames out = processWalk A k 0 0 s inp inFrames out := by
  simp only [processWalk, walkProduce_eq_generic h, walkLeftover_eq_generic h]

lemma processTaps_eq_generic (hT : T = 0 ∨ s.taps = T) (inp : ℕ → S) (inFrames : ℕ)
    (out : ℕ → S) :
    processTaps A k T s inp inFrames out = processWalk A k 0 0 s inp inFrames out := by
  unfold processTaps
  split
  · next h => exact processWalk_eq_generic ⟨.inr ⟨.inl rfl, h⟩, hT⟩ inp inFrames out
  · split
    · next h => exact processWalk_eq_generic ⟨.inr ⟨.inr rfl, h⟩, hT⟩ inp inFrames out
    · exact processWalk_eq_generic ⟨.inl rfl, hT⟩ inp inFrames out

/-- Whatever `process` dispatches to, it is the generic walk. -/
theorem process_eq_generic (inp : ℕ → S) (inFrames : ℕ) (out : ℕ → S) :
    process A k s inp inFrames out = processWalk A k 0 0 s inp inFrames out := by
  unfold process
  split_ifs with h1 h2 h3 h4
  · exact processTaps_eq_generic (.inr h1) inp inFrames out
  · exact processTaps_eq_generic (.inr h2) inp inFrames out
  · exact processTaps_eq_generic (.inr h3) inp inFrames out
  · exact processTaps_eq_generic (.inr h4) inp inFrames out
  · exact processTaps_eq_generic (.inl rfl) inp inFrames out

end Shapes

end Converter

end RatioTap
