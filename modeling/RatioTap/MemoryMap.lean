import RatioTap.Drive
import RatioTap.Lib.HistoryCells

/-!
# The memory of a converter

What a reachable converter holds, cell by cell.  The end of its histories goes round with a
period of 65 frames, and the histories hold the `T + 64` newest samples of each channel, at
places that depend on where in that period the end stands.  So the counters and these samples
are all there is: two converters that have them in common are the same (`memory_map`).
-/

namespace RatioTap

open Converter SlidingHistory

variable {A : Word} {D : Direction} {S K : Type} {k : Kernels S K} {tb : PhaseTable D K}
  {C c i m m' p : ℕ} {xs xs' : List (List S)}

/-- The `T + 64` newest samples of a channel, with silence before the stream. -/
def held (k : Kernels S K) (tb : PhaseTable D K) (c : ℕ) (xs : List (List S)) : List S :=
  recent (tb.mTaps + kHistSlack) k.silence (channel k c xs)

lemma mEnd_after (hT : 0 < tb.mTaps) :
    (Converter.after k tb C xs m p).mEnd = tb.mTaps + xs.length % (kHistSlack + 1) :=
  finAfter_eq hT kHistSlack xs.length

/-- The cells of the histories. -/
lemma getElem?_history (hT : 0 < tb.mTaps) (hi : i < tb.mTaps + kHistSlack) :
    (history k tb c xs).buf[i]? = some ((held k tb c xs).getD
      (cellIndex tb.mTaps kHistSlack (xs.length % (kHistSlack + 1)) i) k.silence) := by
  have h := getElem?_run hT k.silence (channel k c xs) hi
  rwa [length_channel] at h

/-- The samples held and the place of the end are all the histories depend on. -/
lemma histories_congr (hT : 0 < tb.mTaps)
    (hplace : xs.length % (kHistSlack + 1) = xs'.length % (kHistSlack + 1))
    (hheld : ∀ c < C, held k tb c xs = held k tb c xs') :
    histories k tb C xs = histories k tb C xs' := by
  apply List.map_congr_left
  intro c hc
  rw [List.mem_range] at hc
  ext1 i
  rcases Nat.lt_or_ge i (tb.mTaps + kHistSlack) with hi | hi
  · rw [getElem?_history hT hi, getElem?_history hT hi, hplace, hheld c hc]
  · rw [List.getElem?_eq_none, List.getElem?_eq_none]
    · exact (history_holds hT c xs').length_buf.trans_le hi
    · exact (history_holds hT c xs).length_buf.trans_le hi

/-- A converter is its histories and its counters. -/
lemma after_congr {p' : ℕ} (hhist : histories k tb C xs = histories k tb C xs')
    (hend : (Converter.after k tb C xs m p).mEnd = (Converter.after k tb C xs' m' p').mEnd)
    (hpos : (Converter.after k tb C xs m p).mPos = (Converter.after k tb C xs' m' p').mPos)
    (hpend : (Converter.after k tb C xs m p).mPending
      = (Converter.after k tb C xs' m' p').mPending) :
    Converter.after k tb C xs m p = Converter.after k tb C xs' m' p' := by
  simp only [Converter.after] at hend hpos hpend ⊢
  rw [hhist, hend, hpos, hpend]

/-- The memory map.  In every reachable state, `r = X % 65` frames after the histories slid
last, `m_end` is `T + r`; cell `i` of a channel holds, of its `T + 64` newest samples, number
`64 - r + i` before the end and number `i - r - 1` behind it; and any other state, reached with
the same table and as many channels in whichever calls, with the same `m_end`, `m_pos`,
`m_pending` and the same newest samples on every channel, is the same state. -/
theorem memory_map (hT : 0 < tb.mTaps) (d : Drive A k tb) :
    let r := d.fed.length % 65
    let newest (d : Drive A k tb) (c : ℕ) : List S :=
      (List.replicate (tb.mTaps + 64) k.silence ++ channel k c d.fed).rtake (tb.mTaps + 64)
    let s := d.session.conv
    s.mEnd = tb.mTaps + r ∧
    (∀ c < d.channels, ∀ i < tb.mTaps + 64, ∃ cells, s.mHist[c]? = some cells ∧
      cells[i]? = some ((newest d c).getD (if i < s.mEnd then 64 - r + i else i - r - 1)
        k.silence)) ∧
    ∀ d' : Drive A k tb, d'.channels = d.channels →
      (d'.session.conv.mEnd = s.mEnd ∧ d'.session.conv.mPos = s.mPos ∧
        d'.session.conv.mPending = s.mPending ∧ ∀ c < d.channels, newest d' c = newest d c) →
      d'.session.conv = s := by
  intro r newest s
  have hfin (d : Drive A k tb) : d.session.conv.mEnd = tb.mTaps + d.fed.length % 65 := by
    rw [(d.described hT).conv]
    exact mEnd_after hT
  refine ⟨hfin d, ?_, ?_⟩
  · intro c hc i hi
    refine ⟨(history k tb c d.fed).buf, ?_, ?_⟩
    · simp only [s]
      rw [(d.described hT).conv]
      exact getElem?_histories hc
    · rw [getElem?_history hT hi, hfin d]
      rfl
  · rintro d' hC ⟨hend, hpos, hpend, hheld⟩
    have hd := d.described hT
    have hd' := d'.described hT
    have hplace : d'.fed.length % 65 = d.fed.length % 65 := by
      rw [hfin d', hfin d] at hend
      exact Nat.add_left_cancel hend
    have hhist : histories k tb d.channels d'.fed = histories k tb d.channels d.fed :=
      histories_congr hT hplace hheld
    simp only [s] at hend hpos hpend ⊢
    rw [hd'.conv, hd.conv, hC] at hend hpos hpend ⊢
    exact after_congr hhist hend hpos hpend

/-- A stereo converter, where the histories have slid once, in blocks and frame by frame. -/
theorem memory_map_stereo :
    let D : Direction := .upTo48k
    let d : Drive (.bits 64) (.exact ℤ) (.box D 4) :=
      ⟨2, _, make_ok two_ne_zero, [.process (fun i => i) 60 fun _ => 0, .flush fun _ => 0,
        .process (fun i => i) 6 fun _ => 0], by simp [Call.Admissible, Covers]⟩
    d.session.conv.mEnd = 4 + d.fed.length % 65 := by
  intro D d
  exact (memory_map four_pos d).1

end RatioTap
