import RatioTap.Lib.SlidingHistory
import RatioTap.PhaseTable
import RatioTap.Schedule

/-!
# The converter

`converter.h`, function by function.  The converter's caller passes pointers to interleaved
samples; here an input pointer is the memory it points at, as a function of the offset, and
an output pointer is a memory that the call returns changed.  A pointer into one of the
converter's own vectors is the list of the cells from there on.

The dot kernels, the silent sample and the row quantizer belong to another library and stay
uninterpreted (`Kernels`).  The stream position arithmetic of the source is unsigned 64-bit,
and the functions that compute with block lengths take the arithmetic as a parameter: on
`Word.bits 64` they are the source's, and on `Word.exact` blocks of any length have their
exact counts.  The position and the pending gap are 32-bit members.
-/

namespace RatioTap

open FlatMemory SlidingHistory

/-- What `tap::dsp` supplies for one sample format: the silent sample, and the dot product
of a coefficient row with a window of as many samples, forward and tap-reversed. -/
structure Kernels (S K : Type) where
  /-- `sample_traits<S>::silence()`. -/
  silence : S
  /-- `dot_row<S>`. -/
  dotRow : List K → List S → S
  /-- `dot_row_reversed<S>`. -/
  dotRowReversed : List K → List S → S

/-- The kernels in exact arithmetic: silence is zero and the dots are sums of products. -/
def Kernels.exact (R : Type) [CommRing R] : Kernels R R where
  silence := 0
  dotRow row hist := (List.zipWith (· * ·) row hist).sum
  dotRowReversed row hist := (List.zipWith (· * ·) row.reverse hist).sum

/-- `k_hist_slack`. -/
def kHistSlack : ℕ := 64

/-- `k_pop_chunk`. -/
def kPopChunk : ℕ := 16

/-- The block lengths and frame counts that the accounting covers: any in exact arithmetic,
and up to `2 ^ 56` frames on words of 64 bits. -/
def Covers : Word → ℕ → Prop
  | .exact, _ => True
  | .bits w, n => 64 ≤ w ∧ n ≤ 2 ^ 56

/-- `--x` on a 32-bit member. -/
def dec32 (x : ℕ) : ℕ := (Word.bits 32).sub x 1

/-- `basic_converter<S, D>`.  The staging buffer of `pull` holds nothing between two pops
and is not part of the state; see `PopFn`. -/
structure Converter (D : Direction) (S K : Type) where
  /-- `m_table`. -/
  mTable : PhaseTable D K
  /-- `m_channels`. -/
  mChannels : ℕ
  /-- `m_hist_cap`. -/
  mHistCap : ℕ
  /-- `m_hist`: one delay line per channel. -/
  mHist : List (List S)
  /-- `m_end`. -/
  mEnd : ℕ
  /-- `m_pos`. -/
  mPos : ℕ
  /-- `m_pending`. -/
  mPending : ℕ

/-- What `process` and `flush` leave: the converter, the output memory and the value
returned. -/
structure Written (D : Direction) (S K : Type) where
  conv : Converter D S K
  out : ℕ → S
  ret : ℕ

namespace Converter

variable {D : Direction} {S K : Type}

/-- `taps()`. -/
def taps (s : Converter D S K) : ℕ := s.mTable.mTaps

/-- `window(c)`: a pointer to the newest `taps()` frames of the channel. -/
def window (s : Converter D S K) (c : ℕ) : List S := (s.mHist.getD c []).drop (s.mEnd - s.taps)

/-- The next schedule position. -/
def nextPos (D : Direction) (pos : ℕ) : ℕ := if pos + 1 = D.kPhases then 0 else pos + 1

/-! ### Construction and reset -/

/-- `reset()`. -/
def reset (k : Kernels S K) (s : Converter D S K) : Converter D S K :=
  { s with
    mHist := s.mHist.map fun h => h.map fun _ => k.silence
    mEnd := s.taps
    mPos := 0
    mPending := 1 }

/-- The constructor, given the table it designs. -/
def make (k : Kernels S K) (table : PhaseTable D K) (channels : ℕ) :
    Except String (Converter D S K) :=
  let histCap := table.mTaps + kHistSlack
  if channels = 0 then
    .error "tap::ratio::basic_converter: channels == 0"
  else
    .ok <| reset k
      { mTable := table
        mChannels := channels
        mHistCap := histCap
        mHist := List.replicate channels (List.replicate histCap k.silence)
        mEnd := 0
        mPos := 0
        mPending := 1 }

/-! ### Histories -/

/-- `compact(end)`: the histories moved in place, and the new end index. -/
def compact (taps : ℕ) (hist : List (List S)) (fin : ℕ) : List (List S) × ℕ :=
  let keep := taps - 1
  (hist.map fun h => memmove h 0 (fin - keep) keep, keep)

/-- `compact_if_full()`. -/
def compactIfFull (s : Converter D S K) : Converter D S K :=
  if s.mEnd = s.mHistCap then
    let moved := compact s.taps s.mHist s.mEnd
    { s with mHist := moved.1, mEnd := moved.2 }
  else s

/-- `append_frame(frame)`. -/
def appendFrame (s : Converter D S K) (frame : ℕ → S) : Converter D S K :=
  let s := s.compactIfFull
  { s with
    mHist := forLt s.mChannels (fun c hist => hist.modify c fun h => h.set s.mEnd (frame c)) s.mHist
    mEnd := s.mEnd + 1 }

/-- `append_silence()`. -/
def appendSilence (k : Kernels S K) (s : Converter D S K) : Converter D S K :=
  let s := s.compactIfFull
  { s with
    mHist := forLt s.mChannels (fun c hist => hist.modify c fun h => h.set s.mEnd k.silence) s.mHist
    mEnd := s.mEnd + 1 }

/-! ### One output frame -/

/-- `emit(out)`, with `out` pointing `o` samples into the output memory. -/
def emit (k : Kernels S K) (s : Converter D S K) (out : ℕ → S) (o : ℕ) :
    Converter D S K × (ℕ → S) :=
  let step := kSchedule D s.mPos
  let row := s.mTable.storedRow step.phase
  let mir := PhaseTable.isMirrored D step.phase
  let taps := s.taps
  let out := forLt s.mChannels
    (fun c out => Function.update out (o + c)
      (if mir then k.dotRowReversed (row.take taps) ((s.window c).take taps)
       else k.dotRow (row.take taps) ((s.window c).take taps))) out
  ({ s with mPending := step.advance, mPos := nextPos D s.mPos }, out)

/-! ### Accounting -/

/-- `frames_needed(out_frames)`. -/
def framesNeeded (A : Word) (s : Converter D S K) (out : ℕ) : ℕ :=
  if out = 0 then 0
  else A.add s.mPending (RatioTap.framesNeeded A D s.mPos (A.sub out 1))

/-- `outputs_for(in_frames)`. -/
def outputsFor (A : Word) (s : Converter D S K) (inFrames : ℕ) : ℕ :=
  if inFrames < s.mPending then 0
  else
    let l := D.kPhases
    let m := D.kDecimation
    let base := A.mul s.mPos m / l
    let a := A.sub inFrames s.mPending
    A.add (A.sub (A.sub (A.mul l (A.add (A.add base a) 1)) 1 / m) s.mPos) 1

/-- `flush_output_frames()`. -/
def flushOutputFrames (A : Word) (s : Converter D S K) : ℕ := s.outputsFor A s.taps

end Converter

end RatioTap
