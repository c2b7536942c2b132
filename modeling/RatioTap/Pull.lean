import RatioTap.Converter

/-!
# Pull and flush

The two drivers that go frame by frame on the members: `pull`, which draws its input from a
callback, and `flush`, which feeds silence.

A callback is any state machine (`PopFn`): each call gets the number of frames asked for and
returns the number it claims to have delivered, which may be anything, and the samples its
destination then holds.  `pull` records its calls (`PopCall`).

Both loops end.  A round of the inner loop of `pull` consumes part of the pending gap, and a
round of `flush` consumes silence or is a free output, of which there are never two in a row
(`emitRank_emit`).
-/

namespace RatioTap

open FlatMemory

/-- A stateful `PopFn`: `pop(dst, max_frames)` returns the new state of the source, the
value returned and the contents of `dst` afterwards. -/
structure PopFn (S : Type) where
  State : Type
  state : State
  call : State → ℕ → State × ℕ × (ℕ → S)

namespace PopFn

variable {S : Type} (p : PopFn S)

/-- The source after it was asked for `want` frames. -/
def next (want : ℕ) : PopFn S := { p with state := (p.call p.state want).1 }

/-- The value returned. -/
def got (want : ℕ) : ℕ := (p.call p.state want).2.1

/-- What the destination holds. -/
def dst (want : ℕ) : ℕ → S := (p.call p.state want).2.2

end PopFn

/-- One call of the callback: `m_pending` when it was made, the number asked for, the number
returned, the samples in the destination, and `m_pending` when the delivery was taken in. -/
structure PopCall (S : Type) where
  pending : ℕ
  want : ℕ
  got : ℕ
  dst : ℕ → S
  after : ℕ

namespace PopCall

variable {S : Type}

/-- The number of frames taken in from one call. -/
def accepted (c : PopCall S) : ℕ := min c.got c.want

/-- The frames taken in from one call. -/
def frames (C : ℕ) (c : PopCall S) : List (List S) := framesFrom c.dst C c.accepted

end PopCall

/-- What the gap-filling loop of `pull` leaves: the converter, the source, the calls made,
and whether the source ran dry. -/
structure Filled (D : Direction) (S K : Type) where
  conv : Converter D S K
  pop : PopFn S
  calls : List (PopCall S)
  dry : Bool

/-- What `pull` leaves: `Written`, with the source and the calls made. -/
structure Pulled (D : Direction) (S K : Type) extends Written D S K where
  pop : PopFn S
  calls : List (PopCall S)

namespace Converter

variable {D : Direction} {S K : Type}

@[simp] lemma appendFrame_mPending (s : Converter D S K) (frame : ℕ → S) :
    (s.appendFrame frame).mPending = s.mPending := by
  simp only [appendFrame, compactIfFull]
  split <;> rfl

@[simp] lemma appendSilence_mPending (k : Kernels S K) (s : Converter D S K) :
    (s.appendSilence k).mPending = s.mPending := by
  simp only [appendSilence, compactIfFull]
  split <;> rfl

/-! ### Pull -/

/-- `append_frame(frame); --m_pending;`. -/
def takeFrame (s : Converter D S K) (frame : ℕ → S) : Converter D S K :=
  let s := s.appendFrame frame
  { s with mPending := dec32 s.mPending }

/-- Take in the first `n` frames of the scratch buffer. -/
def takeFrames (s : Converter D S K) (scratch : ℕ → S) (n : ℕ) : Converter D S K :=
  forLt n (fun i s => s.takeFrame fun c => scratch (i * s.mChannels + c)) s

lemma takeFrames_mPending (s : Converter D S K) (scratch : ℕ → S) (n : ℕ) :
    (s.takeFrames scratch n).mPending = dec32^[n] s.mPending :=
  forLt_induct (P := fun i (t : Converter D S K) => t.mPending = dec32^[i] s.mPending) rfl
    fun i _ t ht => by
      rw [Function.iterate_succ_apply', ← ht]
      simp [takeFrame]

lemma dec32_of_lt {x : ℕ} (hx : 0 < x) (hlt : x < 2 ^ 32) : dec32 x = x - 1 :=
  Word.sub_eq (A := .bits 32) hlt hx

lemma dec32_lt (x : ℕ) : dec32 x < 2 ^ 32 := Nat.mod_lt _ (by decide)

/-- No more decrements than the counter counts do not wrap. -/
lemma dec32_iterate {x n : ℕ} (hx : x < 2 ^ 32) (hn : n ≤ x) : dec32^[n] x = x - n := by
  induction n with
  | zero => rfl
  | succ n ih =>
      rw [Function.iterate_succ_apply', ih (by omega), dec32_of_lt (by omega) (by omega)]
      omega

lemma dec32_iterate_lt {x n : ℕ} (hn : 0 < n) (hnx : n ≤ x) : dec32^[n] x < x := by
  rcases Nat.lt_or_ge x (2 ^ 32) with hx | hx
  · rw [dec32_iterate hx hnx]
    omega
  · obtain ⟨n, rfl⟩ : ∃ m, n = m + 1 := ⟨n - 1, by omega⟩
    rw [Function.iterate_succ_apply']
    exact lt_of_lt_of_le (dec32_lt _) hx

/-- The number of frames asked for. -/
def popWant (pending : ℕ) : ℕ := if pending < kPopChunk then pending else kPopChunk

lemma popWant_le (pending : ℕ) : popWant pending ≤ pending := by
  unfold popWant
  split <;> omega

lemma popWant_pos {pending : ℕ} (h : pending ≠ 0) : 0 < popWant pending := by
  unfold popWant
  split
  · omega
  · decide

/-- `while (m_pending != 0) { … }` of `pull`.  A delivery of `got` frames is taken in for
`i < got && i < want`. -/
def popFill (s : Converter D S K) (pop : PopFn S) : Filled D S K :=
  if s.mPending = 0 then ⟨s, pop, [], false⟩
  else
    let pending := s.mPending
    let want := popWant pending
    let got := pop.got want
    if got = 0 then
      ⟨s, pop.next want, [⟨pending, want, got, pop.dst want, pending⟩], true⟩
    else
      let t := s.takeFrames (pop.dst want) (min got want)
      let r := popFill t (pop.next want)
      { r with calls := ⟨pending, want, got, pop.dst want, t.mPending⟩ :: r.calls }
termination_by s.mPending
decreasing_by
  rename_i hpending hgot
  rw [takeFrames_mPending]
  exact dec32_iterate_lt (Nat.lt_min.2 ⟨Nat.pos_of_ne_zero hgot, popWant_pos hpending⟩)
    ((min_le_right _ _).trans (popWant_le _))

section PopFill

variable {s : Converter D S K} {pop : PopFn S} {p : ℕ}

lemma popFill_zero (h : s.mPending = 0) : s.popFill pop = ⟨s, pop, [], false⟩ := by
  rw [popFill, if_pos h]

/-- The callback delivers nothing. -/
lemma popFill_dry (hp : p = s.mPending) (h0 : p ≠ 0) (hgot : pop.got (popWant p) = 0) :
    s.popFill pop
      = ⟨s, pop.next (popWant p), [⟨p, popWant p, 0, pop.dst (popWant p), p⟩], true⟩ := by
  rw [popFill, ← hp, if_neg h0]
  simp only [hgot, if_true]

/-- The callback delivers, and the loop goes round. -/
lemma popFill_deliver (hp : p = s.mPending) (h0 : p ≠ 0) (hgot : pop.got (popWant p) ≠ 0) :
    let want := popWant p
    let t := s.takeFrames (pop.dst want) (min (pop.got want) want)
    s.popFill pop
      = { t.popFill (pop.next want) with
          calls := ⟨p, want, pop.got want, pop.dst want, t.mPending⟩
            :: (t.popFill (pop.next want)).calls } := by
  rw [popFill, ← hp, if_neg h0]
  simp only [if_neg hgot]

end PopFill

/-- The loop over the outputs of `pull`, with `todo` outputs to go and `n` written. -/
def pullLoop (k : Kernels S K) :
    (todo n : ℕ) → Converter D S K → (ℕ → S) → PopFn S → Pulled D S K
  | 0, n, s, out, pop => { conv := s, out := out, ret := n, pop := pop, calls := [] }
  | todo + 1, n, s, out, pop =>
    let f := s.popFill pop
    if f.dry then { conv := f.conv, out := out, ret := n, pop := f.pop, calls := f.calls }
    else
      let e := f.conv.emit k out (n * s.mChannels)
      let r := pullLoop k todo (n + 1) e.1 e.2 f.pop
      { r with calls := f.calls ++ r.calls }

/-- `pull(out, out_frames, pop)`. -/
def pull (k : Kernels S K) (s : Converter D S K) (out : ℕ → S) (outFrames : ℕ) (pop : PopFn S) :
    Pulled D S K :=
  pullLoop k outFrames 0 s out pop

/-! ### Flush -/

/-- How many outputs are free at the least: none with a pending gap, two when the next
advance is zero as well. -/
def emitRank (s : Converter D S K) : ℕ :=
  if s.mPending ≠ 0 then 0 else if (kSchedule D s.mPos).advance ≠ 0 then 1 else 2

lemma emitRank_le (s : Converter D S K) : s.emitRank ≤ 2 := by
  unfold emitRank
  split_ifs <;> omega

lemma emitRank_eq_zero {s : Converter D S K} (h : s.mPending ≠ 0) : s.emitRank = 0 := if_pos h

/-- Two consecutive advances are never both zero, across the wrap of the cursor too. -/
lemma advance_nextPos_ne_zero {D : Direction} {pos : ℕ} (h : (kSchedule D pos).advance = 0) :
    (kSchedule D (nextPos D pos)).advance ≠ 0 := by
  rcases Nat.lt_or_ge pos D.kPhases with hpos | hpos
  · have hmod : nextPos D pos = (pos + 1) % D.kPhases := by
      have := FloorClock.succ_mod_eq D.kPhases_pos pos
      rwa [Nat.mod_eq_of_lt hpos] at this
    have hlt := D.tick_lt_tick_add_two pos
    rw [kSchedule_of_lt hpos] at h
    rw [hmod, kSchedule_mod]
    have h1 := D.tick_succ pos
    have h2 := D.tick_succ (pos + 1)
    change D.gap pos = 0 at h
    change D.gap (pos + 1) ≠ 0
    omega
  · -- a cursor outside the table reads no entry at all
    rw [kSchedule, List.getD_eq_default _ _ (by simpa [makeSchedule] using hpos)] at h
    exact absurd h (by decide)

/-- A free output leaves fewer free outputs. -/
lemma emitRank_emit {k : Kernels S K} {s : Converter D S K} (h : s.mPending = 0) (out : ℕ → S)
    (o : ℕ) : (s.emit k out o).1.emitRank < s.emitRank := by
  have hs : s.emitRank = if (kSchedule D s.mPos).advance ≠ 0 then 1 else 2 :=
    if_neg (not_not.2 h)
  rw [hs]
  split
  · next hadv =>
    rw [emitRank_eq_zero]
    · exact one_pos
    · exact hadv
  · next hadv =>
    rw [not_not] at hadv
    have hpend : (s.emit k out o).1.mPending = 0 := hadv
    have hpos : (s.emit k out o).1.mPos = nextPos D s.mPos := rfl
    rw [emitRank, if_neg (not_not.2 hpend), hpos, if_pos (advance_nextPos_ne_zero hadv)]
    exact one_lt_two

/-- `while (m_pending != 0 && fed < zeros) { append_silence(); ++fed; --m_pending; }`. -/
def feedSilence (k : Kernels S K) (zeros : ℕ) (s : Converter D S K) (fed : ℕ) :
    Converter D S K × ℕ :=
  if s.mPending ≠ 0 ∧ fed < zeros then
    let t := s.appendSilence k
    feedSilence k zeros { t with mPending := dec32 t.mPending } (fed + 1)
  else (s, fed)
termination_by zeros - fed

lemma le_feedSilence (k : Kernels S K) (zeros : ℕ) (s : Converter D S K) (fed : ℕ) :
    fed ≤ (feedSilence k zeros s fed).2 := by
  induction s, fed using feedSilence.induct k zeros with
  | case1 s fed h t ih =>
      rw [feedSilence, if_pos h]
      exact (Nat.le_succ fed).trans ih
  | case2 s fed h => rw [feedSilence, if_neg h]

/-- A round of `flush` that does not return makes progress. -/
lemma flush_progress {k : Kernels S K} {zeros fed : ℕ} {s : Converter D S K}
    (h : (feedSilence k zeros s fed).1.mPending = 0) (out : ℕ → S) (o : ℕ) :
    3 * (zeros - (feedSilence k zeros s fed).2)
        + ((feedSilence k zeros s fed).1.emit k out o).1.emitRank
      < 3 * (zeros - fed) + s.emitRank := by
  have hrank := emitRank_emit (k := k) h out o
  by_cases hfeed : s.mPending ≠ 0 ∧ fed < zeros
  · -- a round with a gap consumes silence
    have hlt : fed < (feedSilence k zeros s fed).2 := by
      rw [feedSilence, if_pos hfeed]
      exact le_feedSilence k zeros _ (fed + 1)
    have hle := emitRank_le (feedSilence k zeros s fed).1
    omega
  · -- a round without one is a free output
    have hr : feedSilence k zeros s fed = (s, fed) := by rw [feedSilence, if_neg hfeed]
    rw [hr] at hrank ⊢
    dsimp only at hrank ⊢
    omega

/-- `for (;;)` of `flush`. -/
def flushLoop (k : Kernels S K) (zeros : ℕ) (s : Converter D S K) (out : ℕ → S)
    (fed produced : ℕ) : Written D S K :=
  let r := feedSilence k zeros s fed
  if r.1.mPending ≠ 0 then { conv := r.1, out := out, ret := produced }
  else
    let e := r.1.emit k out (produced * r.1.mChannels)
    flushLoop k zeros e.1 e.2 r.2 (produced + 1)
termination_by 3 * (zeros - fed) + s.emitRank
decreasing_by exact flush_progress (not_not.1 ‹_›) _ _

/-- `flush(out)`. -/
def flush (k : Kernels S K) (s : Converter D S K) (out : ℕ → S) : Written D S K :=
  flushLoop k s.taps s out 0 0

end Converter

end RatioTap
