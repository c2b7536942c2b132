import RatioTap.Agreement
import RatioTap.WalkMachine

/-!
# The representation invariant of the histories

Every delay line has the capacity, and its end index lies between the taps and the capacity
(`Framed`).  Compaction leaves the end index one short of the taps, and the append that it
belongs to makes up for that, in the walk and in `append_frame` and `append_silence` alike; so
the invariant is a property of the moments at which a driver touches a history.  `Access` is
such a moment, `Call.Accesses` the moments of a call, driver by driver, and every one of them
stays within the buffers (`Call.Accesses.inRange`).

`history_invariant` puts this together with what the cells hold, and concludes that a
converter is known from its cursors and its windows.
-/

namespace RatioTap

open FlatMemory SlidingHistory Converter

variable {A : Word} {D : Direction} {S K : Type} {k : Kernels S K} {tb : PhaseTable D K}
  {C taps cap fin : ℕ} {hist : List (List S)}

/-- One delay line of `cap` cells per channel, and an end index that leaves a window before
it. -/
structure Framed (taps cap C : ℕ) (hist : List (List S)) (fin : ℕ) : Prop where
  length_hist : hist.length = C
  length : ∀ h ∈ hist, h.length = cap
  le_fin : taps ≤ fin
  fin_le : fin ≤ cap

/-! ### Accesses -/

/-- A moment at which a driver touches the histories, with the histories and the end index
then. -/
inductive Access (S : Type) where
  /-- Compaction when it is due, and the write of one sample per channel. -/
  | append (hist : List (List S)) (fin : ℕ)
  /-- The dots of one output, over the window of every channel. -/
  | dots (hist : List (List S)) (fin : ℕ)

/-- The access stays within the buffers.  Compaction moves `taps - 1` cells that end at the end
index to the front; the write goes to the end index that it leaves; and a dot reads the `taps`
cells before the end index. -/
def Access.InRange (taps cap C : ℕ) : Access S → Prop
  | .append hist fin =>
    (fin = cap → taps - 1 ≤ fin ∧ ∀ c < C, ∃ h, hist[c]? = some h ∧ fin ≤ h.length) ∧
      (makeRoom taps cap hist fin).2 < cap ∧
      ∀ c < C, ∃ h, (makeRoom taps cap hist fin).1[c]? = some h ∧
        (makeRoom taps cap hist fin).2 < h.length
  | .dots hist fin => taps ≤ fin ∧ ∀ c < C, ∃ h, hist[c]? = some h ∧ fin ≤ h.length

namespace Framed

lemma exists_channel (h : Framed taps cap C hist fin) {c : ℕ} (hc : c < C) :
    ∃ line, hist[c]? = some line ∧ line.length = cap := by
  have hlt : c < hist.length := h.length_hist.symm ▸ hc
  exact ⟨_, List.getElem?_eq_getElem hlt, h.length _ (List.getElem_mem hlt)⟩

lemma inRange_dots (h : Framed taps cap C hist fin) :
    (Access.dots hist fin).InRange taps cap C := by
  refine ⟨h.le_fin, ?_⟩
  intro c hc
  obtain ⟨line, hline, hlen⟩ := h.exists_channel hc
  exact ⟨line, hline, hlen.symm ▸ h.fin_le⟩

/-- A full history is compacted within itself, and there is a cell to write either way. -/
lemma inRange_append (h : Framed taps cap C hist fin) (hT : 0 < taps) :
    (Access.append hist fin).InRange taps cap C := by
  have hcap := h.le_fin.trans h.fin_le
  refine ⟨?_, ?_⟩
  · rintro rfl
    obtain ⟨hle, hread⟩ := h.inRange_dots
    exact ⟨by omega, hread⟩
  rcases eq_or_ne fin cap with hfull | hfull
  · rw [makeRoom, if_pos hfull, compact]
    refine ⟨by dsimp only; omega, ?_⟩
    intro c hc
    obtain ⟨line, hline, hlen⟩ := h.exists_channel hc
    refine ⟨_, by rw [List.getElem?_map, hline]; rfl, ?_⟩
    rw [length_memmove_zero (by omega), hlen]
    omega
  · have hlt := lt_of_le_of_ne h.fin_le hfull
    rw [makeRoom, if_neg hfull]
    refine ⟨hlt, ?_⟩
    intro c hc
    obtain ⟨line, hline, hlen⟩ := h.exists_channel hc
    exact ⟨line, hline, hlen.symm ▸ hlt⟩

end Framed

/-- The histories of a stream are framed. -/
lemma framed_histories (hT : 0 < tb.mTaps) (xs : List (List S)) :
    Framed tb.mTaps (tb.mTaps + kHistSlack) C (histories k tb C xs)
      (finAfter tb.mTaps (tb.mTaps + kHistSlack) xs.length) := by
  have hholds (c : ℕ) := history_holds (k := k) hT c xs
  refine ⟨length_histories, ?_, ?_, ?_⟩
  · rintro line hline
    obtain ⟨c, -, rfl⟩ := List.mem_map.1 hline
    exact (hholds c).length_buf
  · rw [← fin_history (k := k) (c := 0)]
    exact (hholds 0).le_fin
  · rw [← fin_history (k := k) (c := 0)]
    exact (hholds 0).fin_le

namespace Converter

/-- The converter holds the histories of some stream. -/
def OnStream (k : Kernels S K) (tb : PhaseTable D K) (C : ℕ) (s : Converter D S K) : Prop :=
  ∃ xs n p, s = after k tb C xs n p

/-- `append_frame` or `append_silence` is called. -/
def appendAccess (s : Converter D S K) : Access S := .append s.mHist s.mEnd

/-- `emit` is called. -/
def dotsAccess (s : Converter D S K) : Access S := .dots s.mHist s.mEnd

namespace OnStream

variable {s : Converter D S K}

lemma inRange_append (h : OnStream k tb C s) (hT : 0 < tb.mTaps) :
    s.appendAccess.InRange tb.mTaps (tb.mTaps + kHistSlack) C := by
  obtain ⟨xs, n, p, rfl⟩ := h
  exact (framed_histories hT xs).inRange_append hT

lemma inRange_dots (h : OnStream k tb C s) (hT : 0 < tb.mTaps) :
    s.dotsAccess.InRange tb.mTaps (tb.mTaps + kHistSlack) C := by
  obtain ⟨xs, n, p, rfl⟩ := h
  exact (framed_histories hT xs).inRange_dots

lemma takeFrames (h : OnStream k tb C s) (scratch : ℕ → S) (i : ℕ) :
    OnStream k tb C (s.takeFrames scratch i) := by
  refine forLt_induct (P := fun _ t => OnStream k tb C t) h ?_
  rintro j - t ⟨xs, n, p, rfl⟩
  rw [takeFrame, appendFrame_after]
  exact ⟨_, _, _, rfl⟩

lemma appendSilence (h : OnStream k tb C s) (p : ℕ) :
    OnStream k tb C { s.appendSilence k with mPending := p } := by
  obtain ⟨xs, n, q, rfl⟩ := h
  rw [appendSilence_after]
  exact ⟨_, _, _, rfl⟩

lemma emit (h : OnStream k tb C s) (out : ℕ → S) (o : ℕ) :
    OnStream k tb C (s.emit k out o).1 := by
  obtain ⟨xs, n, p, rfl⟩ := h
  have hpos : (after k tb C xs n p).mPos = n % D.kPhases := rfl
  rw [Converter.emit, hpos, nextPos_mod]
  exact ⟨xs, n + 1, _, rfl⟩

lemma popFill (h : OnStream k tb C s) (pop : PopFn S) :
    OnStream k tb C (s.popFill pop).conv := by
  induction s, pop using Converter.popFill.induct with
  | case1 s pop hp => rwa [popFill_zero hp]
  | case2 s pop hp pending want got hgot => rwa [popFill_dry rfl hp hgot]
  | case3 s pop hp pending want got hgot t ih =>
      rw [popFill_deliver rfl hp hgot]
      exact ih (h.takeFrames _ _)

lemma feedSilence (h : OnStream k tb C s) (zeros fed : ℕ) :
    OnStream k tb C (Converter.feedSilence k zeros s fed).1 := by
  induction s, fed using Converter.feedSilence.induct k zeros with
  | case1 s fed hfeed t ih =>
      rw [Converter.feedSilence, if_pos hfeed]
      exact ih (h.appendSilence _)
  | case2 s fed hfeed => rwa [Converter.feedSilence, if_neg hfeed]

end OnStream

/-! ### The accesses of the drivers -/

/-- The accesses of the gap-filling loop of `pull`: one append per frame taken in. -/
inductive FillAccess : Converter D S K → PopFn S → Access S → Prop
  | take {s : Converter D S K} {pop : PopFn S} {i : ℕ} (hp : s.mPending ≠ 0)
      (hi : i < min (pop.got (popWant s.mPending)) (popWant s.mPending)) :
      FillAccess s pop (s.takeFrames (pop.dst (popWant s.mPending)) i).appendAccess
  | rest {s : Converter D S K} {pop : PopFn S} {a : Access S} (hp : s.mPending ≠ 0)
      (hgot : pop.got (popWant s.mPending) ≠ 0)
      (h : FillAccess (s.takeFrames (pop.dst (popWant s.mPending))
        (min (pop.got (popWant s.mPending)) (popWant s.mPending)))
        (pop.next (popWant s.mPending)) a) :
      FillAccess s pop a

/-- The accesses of the loop over the outputs of `pull`. -/
inductive PullAccess (k : Kernels S K) :
    (todo n : ℕ) → Converter D S K → (ℕ → S) → PopFn S → Access S → Prop
  | fill {todo n : ℕ} {s : Converter D S K} {out : ℕ → S} {pop : PopFn S} {a : Access S}
      (h : FillAccess s pop a) : PullAccess k (todo + 1) n s out pop a
  | emit {todo n : ℕ} {s : Converter D S K} {out : ℕ → S} {pop : PopFn S}
      (hdry : (s.popFill pop).dry = false) :
      PullAccess k (todo + 1) n s out pop (s.popFill pop).conv.dotsAccess
  | rest {todo n : ℕ} {s : Converter D S K} {out : ℕ → S} {pop : PopFn S} {a : Access S}
      (hdry : (s.popFill pop).dry = false)
      (h : PullAccess k todo (n + 1)
        ((s.popFill pop).conv.emit k out (n * s.mChannels)).1
        ((s.popFill pop).conv.emit k out (n * s.mChannels)).2 (s.popFill pop).pop a) :
      PullAccess k (todo + 1) n s out pop a

/-- The accesses of the feeding loop of `flush`. -/
inductive FeedAccess (k : Kernels S K) (zeros : ℕ) : Converter D S K → ℕ → Access S → Prop
  | append {s : Converter D S K} {fed : ℕ} (hfeed : s.mPending ≠ 0 ∧ fed < zeros) :
      FeedAccess k zeros s fed s.appendAccess
  | rest {s : Converter D S K} {fed : ℕ} {a : Access S} (hfeed : s.mPending ≠ 0 ∧ fed < zeros)
      (h : FeedAccess k zeros
        { s.appendSilence k with mPending := dec32 (s.appendSilence k).mPending } (fed + 1) a) :
      FeedAccess k zeros s fed a

/-- The accesses of the loop of `flush`. -/
inductive FlushAccess (k : Kernels S K) (zeros : ℕ) :
    Converter D S K → (ℕ → S) → (fed produced : ℕ) → Access S → Prop
  | feed {s : Converter D S K} {out : ℕ → S} {fed produced : ℕ} {a : Access S}
      (h : FeedAccess k zeros s fed a) : FlushAccess k zeros s out fed produced a
  | emit {s : Converter D S K} {out : ℕ → S} {fed produced : ℕ}
      (hp : (feedSilence k zeros s fed).1.mPending = 0) :
      FlushAccess k zeros s out fed produced (feedSilence k zeros s fed).1.dotsAccess
  | rest {s : Converter D S K} {out : ℕ → S} {fed produced : ℕ} {a : Access S}
      (hp : (feedSilence k zeros s fed).1.mPending = 0)
      (h : FlushAccess k zeros
        ((feedSilence k zeros s fed).1.emit k out
          (produced * (feedSilence k zeros s fed).1.mChannels)).1
        ((feedSilence k zeros s fed).1.emit k out
          (produced * (feedSilence k zeros s fed).1.mChannels)).2
        (feedSilence k zeros s fed).2 (produced + 1) a) :
      FlushAccess k zeros s out fed produced a

section Drivers

variable {s : Converter D S K} {pop : PopFn S} {out : ℕ → S} {a : Access S}
  {todo n zeros fed produced : ℕ}

lemma FillAccess.inRange (h : FillAccess s pop a) (hT : 0 < tb.mTaps) (hs : OnStream k tb C s) :
    a.InRange tb.mTaps (tb.mTaps + kHistSlack) C := by
  induction h with
  | take hp hi => exact (hs.takeFrames _ _).inRange_append hT
  | rest hp hgot _ ih => exact ih (hs.takeFrames _ _)

lemma PullAccess.inRange (h : PullAccess k todo n s out pop a) (hT : 0 < tb.mTaps)
    (hs : OnStream k tb C s) : a.InRange tb.mTaps (tb.mTaps + kHistSlack) C := by
  induction h with
  | fill h => exact h.inRange hT hs
  | emit hdry => exact (hs.popFill _).inRange_dots hT
  | rest hdry _ ih => exact ih ((hs.popFill _).emit _ _)

lemma FeedAccess.inRange (h : FeedAccess k zeros s fed a) (hT : 0 < tb.mTaps)
    (hs : OnStream k tb C s) : a.InRange tb.mTaps (tb.mTaps + kHistSlack) C := by
  induction h with
  | append hfeed => exact hs.inRange_append hT
  | rest hfeed _ ih => exact ih (hs.appendSilence _)

lemma FlushAccess.inRange (h : FlushAccess k zeros s out fed produced a) (hT : 0 < tb.mTaps)
    (hs : OnStream k tb C s) : a.InRange tb.mTaps (tb.mTaps + kHistSlack) C := by
  induction h with
  | feed h => exact h.inRange hT hs
  | emit hp => exact (hs.feedSilence _ _).inRange_dots hT
  | rest hp _ ih => exact ih ((hs.feedSilence _ _).emit _ _)

end Drivers

end Converter

/-! ### The accesses of a call -/

/-- The access that the walk makes at a program point. -/
def WalkConfig.access (c : WalkConfig S) : Option (Access S) :=
  match c.point with
  | .gapAppend | .leftAppend => some (.append c.walk.hist c.walk.fin)
  | .emit => some (.dots c.walk.hist c.walk.fin)
  | _ => none

/-- The accesses of a call.  `process` steps through the walk of the shape and the dot length
that it dispatches to. -/
inductive Call.Accesses (A : Word) (k : Kernels S K) (s : Converter D S K) :
    Call S → Access S → Prop
  | process {inp out : ℕ → S} {N CH T n : ℕ} {a : Access S} (hsuits : s.Suits CH T)
      (h : ((s.walkStep A k CH T inp (s.outputsFor A N))^[n] (s.walkStart N out)).access
        = some a) :
      Accesses A k s (.process inp N out) a
  | pull {out : ℕ → S} {outFrames : ℕ} {pop : PopFn S} {a : Access S}
      (h : PullAccess k outFrames 0 s out pop a) : Accesses A k s (.pull out outFrames pop) a
  | flush {out : ℕ → S} {a : Access S} (h : FlushAccess k s.taps s out 0 0 a) :
      Accesses A k s (.flush out) a

/-- Wherever the walk is, its histories are framed. -/
lemma Converter.OnWalk.framed {inp out : ℕ → S} {N m total : ℕ} {xs : List (List S)}
    (hT : 0 < tb.mTaps) {c : WalkConfig S} (h : OnWalk k tb C inp out N xs m total c) :
    Framed tb.mTaps (tb.mTaps + kHistSlack) C c.walk.hist c.walk.fin := by
  obtain ⟨point, i, j, p, rfl⟩ : ∃ point i j p, c = configAt k tb C inp out N xs m point i j p := by
    cases h <;> exact ⟨_, _, _, _, rfl⟩
  have hframed := framed_histories (k := k) (C := C) hT (xs ++ framesFrom inp C i)
  rwa [List.length_append, length_framesFrom] at hframed

/-- Every access of a call stays within the buffers. -/
theorem Call.Accesses.inRange (hT : 0 < tb.mTaps) {xs : List (List S)} {m : ℕ}
    (hst : Standing D xs.length m) {call : Call S} (hcall : call.Admissible A) {a : Access S}
    (h : call.Accesses A k (after k tb C xs m (gapLeft D xs.length m)) a) :
    a.InRange tb.mTaps (tb.mTaps + kHistSlack) C := by
  have hon : OnStream k tb C (after k tb C xs m (gapLeft D xs.length m)) := ⟨_, _, _, rfl⟩
  cases h with
  | @process inp out N CH T n _ hsuits hmoment =>
      have hwalk : OnWalk k tb C inp out N xs m _ (_^[n] _) := .config hT hcall hst hsuits n
      have hframed := hwalk.framed hT
      -- of the program points only the appends and the emission touch the histories
      generalize (walkStep A k CH T _ inp _)^[n] _ = c at hmoment hframed
      unfold WalkConfig.access at hmoment
      split at hmoment
      · cases hmoment
        exact hframed.inRange_append hT
      · cases hmoment
        exact hframed.inRange_append hT
      · cases hmoment
        exact hframed.inRange_dots
      · cases hmoment
  | pull hmoment => exact hmoment.inRange hT hon
  | flush hmoment => exact hmoment.inRange hT hon

/-- The representation invariant of the histories.  In every reachable state every delay line
has `taps + 64` cells and the end index leaves a window before it; every access of every later
call stays within the buffers; and the window of a channel holds the newest samples of the
channel, with silence before the stream.  So a reachable converter with the same cursors and
the same windows writes the same frames, for all later calls that deliver the same frames,
wherever its histories end and whatever their other cells hold. -/
theorem history_invariant {s : Converter D S K} {calls : List (Call S)}
    (hs : Converter.make k tb C = .ok s) (hT : 0 < tb.mTaps)
    (hcalls : ∀ call ∈ calls, call.Admissible A) :
    let t := (Session.start s).run A k calls
    (t.conv.mHistCap = tb.mTaps + 64 ∧ t.conv.mHist.length = C ∧
      ∀ h ∈ t.conv.mHist, h.length = t.conv.mHistCap) ∧
    (tb.mTaps ≤ t.conv.mEnd ∧ t.conv.mEnd ≤ t.conv.mHistCap) ∧
    (∀ (call : Call S) (a : Access S), call.Admissible A → call.Accesses A k t.conv a →
      a.InRange tb.mTaps t.conv.mHistCap C) ∧
    (∀ c < C, (t.conv.window c).take tb.mTaps
      = (List.replicate tb.mTaps k.silence ++ channel k c t.fed).rtake tb.mTaps) ∧
    ∀ calls' : List (Call S), (∀ call ∈ calls', call.Admissible A) →
      let t' := (Session.start s).run A k calls'
      t'.conv.mPos = t.conv.mPos → t'.conv.mPending = t.conv.mPending →
        (∀ c < C, (t'.conv.window c).take tb.mTaps = (t.conv.window c).take tb.mTaps) →
          ∀ rest rest', (∀ call ∈ rest, call.Admissible A) →
            (∀ c < C, List.Forall₂ (Call.Agree C c C c) rest rest') →
              List.Forall₂ Report.Same (t.conv.trace A k rest) (t'.conv.trace A k rest') := by
  intro t
  have described {calls : List (Call S)} (hcalls : ∀ call ∈ calls, call.Admissible A) :
      ((Session.start s).run A k calls).Described k tb C := Session.described_run hs hT hcalls
  have hwindow {t : Session D S K} (ht : t.Described k tb C) {c : ℕ} (hc : c < C) :
      (t.conv.window c).take tb.mTaps = newest k tb c t.fed := by
    rw [ht.conv]
    exact window_histories hT hc
  have ht : t.Described k tb C := described hcalls
  have hframed : Framed tb.mTaps t.conv.mHistCap C t.conv.mHist t.conv.mEnd := by
    rw [ht.conv]
    exact framed_histories hT t.fed
  have hcap : t.conv.mHistCap = tb.mTaps + 64 := by
    rw [ht.conv]
    rfl
  refine ⟨⟨hcap, hframed.length_hist, hframed.length⟩, ⟨hframed.le_fin, hframed.fin_le⟩, ?_, ?_,
    ?_⟩
  · intro call a hcall ha
    rw [ht.conv] at ha
    rw [hcap]
    exact ha.inRange hT ht.resting.toStanding hcall
  · intro c hc
    exact hwindow ht hc
  · intro calls' hcalls' t' hpos hpend hwin rest rest' hrest hagree
    have ht' : t'.Described k tb C := described hcalls'
    have halike (c : ℕ) (hc : c < C) :
        Alike k tb c c t.fed t'.fed t.outs.length t'.outs.length := by
      refine ⟨ht.sameCursors ht' hpos hpend, ?_⟩
      rw [← hwindow ht hc, ← hwindow ht' hc, hwin c hc]
    rw [ht.conv, ht'.conv]
    exact trace_same hT (Nat.pos_of_ne_zero (Converter.make_eq_ok hs).1) halike ht.resting
      ht'.resting hagree hrest

/-- A stereo converter of 70 taps, where compaction moves a range onto itself, after a block of
a hundred frames. -/
theorem history_invariant_stereo :
    let s := after (.exact ℤ) (.box .upTo48k 70) 2 [] 0 1
    let t := (Session.start s).run (.bits 64) (.exact ℤ) [.process (fun i => i) 100 fun _ => 0]
    70 ≤ t.conv.mEnd ∧ t.conv.mEnd ≤ t.conv.mHistCap := by
  intro s t
  have hs : Converter.make (.exact ℤ) (.box .upTo48k 70) 2 = .ok s := make_ok two_ne_zero
  have hT : 0 < (PhaseTable.box .upTo48k 70).mTaps := by decide
  have hcalls : ∀ call ∈ [Call.process (fun i => (i : ℤ)) 100 fun _ => 0],
      call.Admissible (.bits 64) := by simp [Call.Admissible, Covers]
  exact (history_invariant hs hT hcalls).2.1

end RatioTap
