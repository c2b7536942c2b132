import RatioTap.Clock

/-!
# The walk, step by step

`process_walk` as a machine that goes from program point to program point (`walkStep`), with
the offsets it reads from the input and writes to the output on record.  The source guards
neither `append()` nor `--pending`; the invariant `OnWalk`, one clause per program point,
shows that no append meets an exhausted block and no decrement an empty gap, and that the
machine comes to its exit (`walk_in_bounds`).
-/

namespace RatioTap

open FlatMemory

/-- The program points of `process_walk` behind the set-up of its locals. -/
inductive WalkPoint where
  /-- `produced < total`. -/
  | forTest
  /-- `while (pending != 0)`. -/
  | gapTest
  /-- `append();` in the main loop. -/
  | gapAppend
  /-- `--pending;` in the main loop. -/
  | gapDec
  /-- The output frame, the new gap and position, `++produced`. -/
  | emit
  /-- `while (remain != 0)`. -/
  | leftTest
  /-- `append();` in the leftover loop. -/
  | leftAppend
  /-- `--pending;` in the leftover loop. -/
  | leftDec
  /-- Behind the leftover loop. -/
  | exit
deriving DecidableEq, Repr

/-- The machine: program point, trip counter, locals, and the offsets read and written so
far, in order. -/
structure WalkConfig (S : Type) where
  point : WalkPoint
  produced : ℕ
  walk : Walk S
  reads : List ℕ
  writes : List ℕ

namespace Converter

variable {A : Word} {D : Direction} {S K : Type} {k : Kernels S K} {tb : PhaseTable D K}
  {s : Converter D S K} {C CH T : ℕ} {inp out : ℕ → S} {xs : List (List S)}
  {m i j n p q N total : ℕ}

/-- The offsets of one frame: `p[0]`, `p[0]` and `p[1]`, or `p[c]` for every channel. -/
def frameOffsets (CH ch p : ℕ) : List ℕ :=
  match CH with
  | 1 => [p]
  | 2 => [p, p + 1]
  | _ => (List.range ch).map (p + ·)

/-- One step of `process_walk<CH, T>`. -/
def walkStep (A : Word) (k : Kernels S K) (CH T : ℕ) (s : Converter D S K) (inp : ℕ → S)
    (total : ℕ) (c : WalkConfig S) : WalkConfig S :=
  let ch := if CH ≠ 0 then CH else s.mChannels
  match c.point with
  | .forTest => { c with point := if c.produced < total then .gapTest else .leftTest }
  | .gapTest => { c with point := if c.walk.pending ≠ 0 then .gapAppend else .emit }
  | .gapAppend =>
    { c with
      point := .gapDec
      walk := walkAppend A CH s inp c.walk
      reads := c.reads ++ frameOffsets CH ch c.walk.src }
  | .gapDec => { c with point := .gapTest, walk := walkDecPending A c.walk }
  | .emit =>
    { c with
      point := .forTest
      produced := A.add c.produced 1
      walk := walkEmit k CH T s c.walk
      writes := c.writes ++ frameOffsets CH ch c.walk.dst }
  | .leftTest => { c with point := if c.walk.remain ≠ 0 then .leftAppend else .exit }
  | .leftAppend =>
    { c with
      point := .leftDec
      walk := walkAppend A CH s inp c.walk
      reads := c.reads ++ frameOffsets CH ch c.walk.src }
  | .leftDec => { c with point := .leftTest, walk := walkDecPending A c.walk }
  | .exit => c

/-- The machine at its start. -/
def walkStart (s : Converter D S K) (inFrames : ℕ) (out : ℕ → S) : WalkConfig S where
  point := .forTest
  produced := 0
  walk := walkEntry s inFrames out
  reads := []
  writes := []

/-- Every instantiation that suits the converter steps like the generic one. -/
lemma walkStep_eq_generic (h : s.Suits CH T) (inp : ℕ → S) (total : ℕ) :
    walkStep A k CH T s inp total = walkStep A k 0 0 s inp total := by
  have hoffsets (p : ℕ) : frameOffsets CH (if CH ≠ 0 then CH else s.mChannels) p
      = frameOffsets 0 s.mChannels p := by
    rcases h.1 with rfl | ⟨rfl | rfl, hC⟩
    · rfl
    · rw [hC]
      rfl
    · rw [hC]
      rfl
  ext1 c
  unfold walkStep
  simp only [hoffsets, walkAppend_eq_generic h, walkEmit_eq_generic h]
  rfl

/-! ### The invariant -/

/-- The machine at a program point, having read `i` frames of the block and written `j`
outputs. -/
def configAt (k : Kernels S K) (tb : PhaseTable D K) (C : ℕ) (inp out : ℕ → S) (N : ℕ)
    (xs : List (List S)) (m : ℕ) (point : WalkPoint) (i j p : ℕ) : WalkConfig S where
  point := point
  produced := j
  walk := walkAt k tb C inp out N xs m i j p
  reads := List.range (i * C)
  writes := List.range (j * C)

/-- Where the machine can be: in the main loop with outputs to go, the next of which is due
within the block, or in the leftover loop with the gap before the first output that is not. -/
inductive OnWalk (k : Kernels S K) (tb : PhaseTable D K) (C : ℕ) (inp out : ℕ → S) (N : ℕ)
    (xs : List (List S)) (m total : ℕ) : WalkConfig S → Prop
  | forTest {i j : ℕ} (hi : i ≤ N) (hj : j ≤ total) (hst : Standing D (xs.length + i) (m + j)) :
      OnWalk k tb C inp out N xs m total
        (configAt k tb C inp out N xs m .forTest i j (gapLeft D (xs.length + i) (m + j)))
  | gapTest {i j : ℕ} (hi : i ≤ N) (hj : j < total) (hst : Standing D (xs.length + i) (m + j)) :
      OnWalk k tb C inp out N xs m total
        (configAt k tb C inp out N xs m .gapTest i j (gapLeft D (xs.length + i) (m + j)))
  | gapAppend {i j : ℕ} (hi : i < N) (hj : j < total)
      (hst : Standing D (xs.length + i) (m + j)) (hp : gapLeft D (xs.length + i) (m + j) ≠ 0) :
      OnWalk k tb C inp out N xs m total
        (configAt k tb C inp out N xs m .gapAppend i j (gapLeft D (xs.length + i) (m + j)))
  | gapDec {i j : ℕ} (hi : i < N) (hj : j < total)
      (hst : Standing D (xs.length + i) (m + j)) (hp : gapLeft D (xs.length + i) (m + j) ≠ 0) :
      OnWalk k tb C inp out N xs m total
        (configAt k tb C inp out N xs m .gapDec (i + 1) j (gapLeft D (xs.length + i) (m + j)))
  | emit {i j : ℕ} (hi : i ≤ N) (hj : j < total) (hst : Standing D (xs.length + i) (m + j))
      (hp : gapLeft D (xs.length + i) (m + j) = 0) :
      OnWalk k tb C inp out N xs m total
        (configAt k tb C inp out N xs m .emit i j (gapLeft D (xs.length + i) (m + j)))
  | leftTest {i : ℕ} (hi : i ≤ N) (hst : Standing D (xs.length + i) (m + total)) :
      OnWalk k tb C inp out N xs m total
        (configAt k tb C inp out N xs m .leftTest i total
          (gapLeft D (xs.length + i) (m + total)))
  | leftAppend {i : ℕ} (hi : i < N) (hst : Standing D (xs.length + i) (m + total)) :
      OnWalk k tb C inp out N xs m total
        (configAt k tb C inp out N xs m .leftAppend i total
          (gapLeft D (xs.length + i) (m + total)))
  | leftDec {i : ℕ} (hi : i < N) (hst : Standing D (xs.length + i) (m + total)) :
      OnWalk k tb C inp out N xs m total
        (configAt k tb C inp out N xs m .leftDec (i + 1) total
          (gapLeft D (xs.length + i) (m + total)))
  | exit (hst : Standing D (xs.length + N) (m + total)) :
      OnWalk k tb C inp out N xs m total
        (configAt k tb C inp out N xs m .exit N total
          (gapLeft D (xs.length + N) (m + total)))

/-- The steps from a program point until a frame is read, an output is written or the exit
is reached, at the most. -/
def pointRank : WalkPoint → ℕ
  | .forTest | .gapDec | .leftDec => 3
  | .gapTest | .leftTest => 2
  | .gapAppend | .emit | .leftAppend => 1
  | .exit => 0

/-- How far the exit is. -/
def walkRank (total : ℕ) (c : WalkConfig S) : ℕ :=
  3 * c.walk.remain + 3 * (total - c.produced) + pointRank c.point

@[simp] lemma configAt_point (point : WalkPoint) :
    (configAt k tb C inp out N xs m point i j p).point = point := rfl

lemma walkRank_configAt (point : WalkPoint) :
    walkRank total (configAt k tb C inp out N xs m point i j p)
      = 3 * (N - i) + 3 * (total - j) + pointRank point := rfl

/-- A frame read outweighs the way to the next one. -/
lemma walkRank_append (hi : i < N) {point next : WalkPoint}
    (h : pointRank next < pointRank point + 3) :
    walkRank total (configAt k tb C inp out N xs m next (i + 1) j p)
      < walkRank total (configAt k tb C inp out N xs m point i j p) := by
  rw [walkRank_configAt, walkRank_configAt]
  omega

/-! ### Steps between the descriptions -/

lemma range_frameOffsets (C i : ℕ) :
    List.range (i * C) ++ frameOffsets 0 C (i * C) = List.range ((i + 1) * C) := by
  rw [Nat.succ_mul, List.range_add]
  rfl

section Steps

lemma walkStep_forTest :
    walkStep A k 0 0 (after k tb C xs n q) inp total
        (configAt k tb C inp out N xs m .forTest i j p)
      = configAt k tb C inp out N xs m (if j < total then .gapTest else .leftTest) i j p := rfl

lemma walkStep_gapTest :
    walkStep A k 0 0 (after k tb C xs n q) inp total
        (configAt k tb C inp out N xs m .gapTest i j p)
      = configAt k tb C inp out N xs m (if p ≠ 0 then .gapAppend else .emit) i j p := rfl

lemma walkStep_leftTest :
    walkStep A k 0 0 (after k tb C xs n q) inp total
        (configAt k tb C inp out N xs m .leftTest i j p)
      = configAt k tb C inp out N xs m (if N - i ≠ 0 then .leftAppend else .exit) i j p := rfl

/-- The append of either loop reads the next frame. -/
lemma configAt_append (hN : A.Fits N) (hi : i < N) (next : WalkPoint) :
    WalkConfig.mk next j
        (walkAppend A 0 (after k tb C xs n q) inp (walkAt k tb C inp out N xs m i j p))
        (List.range (i * C) ++ frameOffsets 0 C (i * C)) (List.range (j * C))
      = configAt k tb C inp out N xs m next (i + 1) j p := by
  rw [walkAppend_at hN hi, range_frameOffsets]
  rfl

lemma walkStep_gapAppend (hN : A.Fits N) (hi : i < N) :
    walkStep A k 0 0 (after k tb C xs n q) inp total
        (configAt k tb C inp out N xs m .gapAppend i j p)
      = configAt k tb C inp out N xs m .gapDec (i + 1) j p := configAt_append hN hi .gapDec

lemma walkStep_leftAppend (hN : A.Fits N) (hi : i < N) :
    walkStep A k 0 0 (after k tb C xs n q) inp total
        (configAt k tb C inp out N xs m .leftAppend i j p)
      = configAt k tb C inp out N xs m .leftDec (i + 1) j p := configAt_append hN hi .leftDec

/-- The decrement of either loop counts down. -/
lemma configAt_dec (hp : A.Fits p) (hpos : 0 < p) (next : WalkPoint) :
    WalkConfig.mk next j (walkDecPending A (walkAt k tb C inp out N xs m i j p))
        (List.range (i * C)) (List.range (j * C))
      = configAt k tb C inp out N xs m next i j (p - 1) := by
  rw [walkDecPending_at hp hpos]
  rfl

lemma walkStep_gapDec (hp : A.Fits p) (hpos : 0 < p) :
    walkStep A k 0 0 (after k tb C xs n q) inp total
        (configAt k tb C inp out N xs m .gapDec i j p)
      = configAt k tb C inp out N xs m .gapTest i j (p - 1) := configAt_dec hp hpos .gapTest

lemma walkStep_leftDec (hp : A.Fits p) (hpos : 0 < p) :
    walkStep A k 0 0 (after k tb C xs n q) inp total
        (configAt k tb C inp out N xs m .leftDec i j p)
      = configAt k tb C inp out N xs m .leftTest i j (p - 1) := configAt_dec hp hpos .leftTest

/-- The output is written behind the earlier ones. -/
lemma walkStep_emit (hT : 0 < tb.mTaps) (hi : i ≤ N)
    (hx : xs.length + i = D.tick (m + j) + 1) (hj : A.Fits (j + 1)) :
    walkStep A k 0 0 (after k tb C xs n q) inp total
        (configAt k tb C inp out N xs m .emit i j p)
      = configAt k tb C inp out N xs m .forTest i (j + 1) (D.gap (m + j)) := by
  change WalkConfig.mk .forTest (A.add j 1)
    (walkEmit k 0 0 _ (walkAt k tb C inp out N xs m i j p)) (List.range (i * C))
    (List.range (j * C) ++ frameOffsets 0 C (j * C)) = _
  rw [walkEmit_at hT hi hx, range_frameOffsets, Word.add_eq hj]
  rfl

end Steps

/-- In the leftover loop the gap outlasts the block. -/
lemma gapLeft_ne_zero_of_lt (htotal : m + total = D.due (xs.length + N)) (hi : i < N) :
    gapLeft D (xs.length + i) (m + total) ≠ 0 := by
  rw [gapLeft_ne_zero_iff, htotal]
  exact D.due_mono (by omega)

/-- A step of the machine keeps the invariant and comes closer to the exit. -/
theorem OnWalk.step (hT : 0 < tb.mTaps) (hA : Covers A N) (hfits : A.Fits total)
    (htotal : m + total = D.due (xs.length + N)) {c : WalkConfig S}
    (h : OnWalk k tb C inp out N xs m total c) :
    OnWalk k tb C inp out N xs m total (walkStep A k 0 0 (after k tb C xs n q) inp total c) ∧
      (c.point ≠ .exit →
        walkRank total (walkStep A k 0 0 (after k tb C xs n q) inp total c)
          < walkRank total c) := by
  have hN : A.Fits N := hA.fits.mono (by omega)
  have hgapFits {x y : ℕ} (hst : Standing D x y) : A.Fits (gapLeft D x y) :=
    hA.fits.mono ((hst.gapLeft_le.trans D.maxAdvance_le).trans (by omega))
  -- the frame a gap waits for is in the block
  have hroom {i j : ℕ} (hj : j < total) (hp : gapLeft D (xs.length + i) (m + j) ≠ 0)
      (hst : Standing D (xs.length + i) (m + j)) : i < N := by
    have htick := D.lt_due_iff.1 (show m + j < D.due (xs.length + N) by omega)
    have hadd := hst.add_gapLeft
    omega
  cases h with
  | @forTest i j hi hj hst =>
      rw [walkStep_forTest]
      by_cases hjt : j < total
      · rw [if_pos hjt]
        exact ⟨.gapTest hi hjt hst, fun _ => Nat.lt_succ_self _⟩
      · -- the last output is written, what is left of the block is read out
        obtain rfl : j = total := by omega
        rw [if_neg hjt]
        exact ⟨.leftTest hi hst, fun _ => Nat.lt_succ_self _⟩
  | @gapTest i j hi hj hst =>
      rw [walkStep_gapTest]
      by_cases hp : gapLeft D (xs.length + i) (m + j) = 0
      · rw [if_neg (not_not.2 hp)]
        exact ⟨.emit hi hj hst hp, fun _ => Nat.lt_succ_self _⟩
      · rw [if_pos hp]
        exact ⟨.gapAppend (hroom hj hp hst) hj hst hp, fun _ => Nat.lt_succ_self _⟩
  | @gapAppend i j hi hj hst hp =>
      rw [walkStep_gapAppend hN hi]
      exact ⟨.gapDec hi hj hst hp, fun _ => walkRank_append hi (by decide)⟩
  | @gapDec i j hi hj hst hp =>
      rw [walkStep_gapDec (hgapFits hst) (Nat.pos_of_ne_zero hp), ← gapLeft_add, Nat.add_assoc]
      exact ⟨.gapTest hi hj (hst.feed hp), fun _ => Nat.lt_succ_self _⟩
  | @emit i j hi hj hst hp =>
      have hadd := hst.add_gapLeft
      have hst' : Standing D (xs.length + i) (m + (j + 1)) := hst.emit hp
      rw [walkStep_emit hT hi (by omega) (hfits.mono hj), ← hst.gapLeft_emit hp]
      refine ⟨.forTest hi hj hst', fun _ => ?_⟩
      rw [Nat.add_assoc, walkRank_configAt, walkRank_configAt]
      simp only [pointRank]
      omega
  | @leftTest i hi hst =>
      rw [walkStep_leftTest]
      by_cases hiN : N - i = 0
      · obtain rfl : i = N := by omega
        rw [if_neg (not_not.2 hiN)]
        refine ⟨.exit hst, fun _ => ?_⟩
        rw [walkRank_configAt, walkRank_configAt]
        simp only [pointRank]
        omega
      · rw [if_pos hiN]
        exact ⟨.leftAppend (by omega) hst, fun _ => Nat.lt_succ_self _⟩
  | @leftAppend i hi hst =>
      rw [walkStep_leftAppend hN hi]
      exact ⟨.leftDec hi hst, fun _ => walkRank_append hi (by decide)⟩
  | @leftDec i hi hst =>
      -- no further output is due within the block
      have hp := gapLeft_ne_zero_of_lt htotal hi
      rw [walkStep_leftDec (hgapFits hst) (Nat.pos_of_ne_zero hp), ← gapLeft_add, Nat.add_assoc]
      exact ⟨.leftTest hi (hst.feed hp), fun _ => Nat.lt_succ_self _⟩
  | exit hst => exact ⟨.exit hst, fun h => absurd rfl h⟩

/-- The invariant holds after any number of steps. -/
lemma OnWalk.iterate (hT : 0 < tb.mTaps) (hA : Covers A N) (hfits : A.Fits total)
    (htotal : m + total = D.due (xs.length + N)) {c : WalkConfig S}
    (h : OnWalk k tb C inp out N xs m total c) (steps : ℕ) :
    OnWalk k tb C inp out N xs m total
      ((walkStep A k 0 0 (after k tb C xs n q) inp total)^[steps] c) := by
  induction steps with
  | zero => exact h
  | succ steps ih =>
      rw [Function.iterate_succ_apply']
      exact (ih.step hT hA hfits htotal).1

/-- The machine comes to its exit. -/
lemma OnWalk.exists_exit (hT : 0 < tb.mTaps) (hA : Covers A N) (hfits : A.Fits total)
    (htotal : m + total = D.due (xs.length + N)) {c : WalkConfig S}
    (h : OnWalk k tb C inp out N xs m total c) :
    ∃ steps, ((walkStep A k 0 0 (after k tb C xs n q) inp total)^[steps] c).point = .exit := by
  obtain ⟨r, hr⟩ : ∃ r, r = walkRank total c := ⟨_, rfl⟩
  induction r using Nat.strong_induction_on generalizing c with
  | _ r ih =>
      by_cases hexit : c.point = .exit
      · exact ⟨0, hexit⟩
      · obtain ⟨hnext, hless⟩ := h.step (n := n) (q := q) hT hA hfits htotal
        obtain ⟨steps, hsteps⟩ := ih _ (hr ▸ hless hexit) hnext rfl
        exact ⟨steps + 1, hsteps⟩

/-- At an append a frame remains, and at a decrement a frame is pending. -/
lemma OnWalk.guarded (htotal : m + total = D.due (xs.length + N)) {c : WalkConfig S}
    (h : OnWalk k tb C inp out N xs m total c) :
    (c.point = .gapAppend ∨ c.point = .leftAppend → 1 ≤ c.walk.remain) ∧
      (c.point = .gapDec ∨ c.point = .leftDec → 1 ≤ c.walk.pending) := by
  cases h with
  | gapAppend hi hj hst hp => exact ⟨fun _ => Nat.sub_pos_of_lt hi, by simp⟩
  | leftAppend hi hst => exact ⟨fun _ => Nat.sub_pos_of_lt hi, by simp⟩
  | gapDec hi hj hst hp => exact ⟨by simp, fun _ => Nat.pos_of_ne_zero hp⟩
  | leftDec hi hst =>
      exact ⟨by simp, fun _ => Nat.pos_of_ne_zero (gapLeft_ne_zero_of_lt htotal hi)⟩
  | _ => exact ⟨by simp, by simp⟩

/-- At the exit the block is read and the outputs are written, and the next output waits. -/
lemma OnWalk.at_exit (htotal : m + total = D.due (xs.length + N)) {c : WalkConfig S}
    (h : OnWalk k tb C inp out N xs m total c) (hexit : c.point = .exit) :
    c = configAt k tb C inp out N xs m .exit N total
        (gapLeft D (xs.length + N) (D.due (xs.length + N))) := by
  cases h with
  | exit hst => rw [htotal]
  | _ => simp at hexit

/-- The machine starts on the walk. -/
lemma OnWalk.start (hst : Standing D xs.length m) :
    OnWalk k tb C inp out N xs m total
      (walkStart (after k tb C xs m (gapLeft D xs.length m)) N out) := by
  have hstart : walkStart (after k tb C xs m (gapLeft D xs.length m)) N out
      = configAt k tb C inp out N xs m .forTest 0 0 (gapLeft D xs.length m) := by
    rw [walkStart, walkEntry_after inp out]
    simp [configAt]
  rw [hstart]
  exact .forTest (Nat.zero_le N) (Nat.zero_le total) hst

/-- Whatever the instantiation, the machine is on the walk after any number of steps. -/
lemma OnWalk.config (hT : 0 < tb.mTaps) (hN : Covers A N) (hst : Standing D xs.length m)
    (hsuits : (after k tb C xs m (gapLeft D xs.length m)).Suits CH T) (steps : ℕ) :
    let s := after k tb C xs m (gapLeft D xs.length m)
    OnWalk k tb C inp out N xs m (s.outputsFor A N)
      ((walkStep A k CH T s inp (s.outputsFor A N))^[steps] (s.walkStart N out)) := by
  intro s
  have htotal : s.outputsFor A N = D.due (xs.length + N) - m :=
    outputsFor_at hN.fits ⟨hst, rfl, rfl⟩
  have hdue : m + s.outputsFor A N = D.due (xs.length + N) := by
    rw [htotal]
    exact Nat.add_sub_of_le (hst.le_due_add N)
  rw [walkStep_eq_generic hsuits]
  exact (OnWalk.start hst).iterate hT hN (outputsFor_fits _ N) hdue steps

/-- What the machine leaves at its exit is what `process_walk` returns. -/
lemma processWalk_at_exit (hT : 0 < tb.mTaps) (hA : Covers A N) (hst : Standing D xs.length m)
    (htotal : total = D.due (xs.length + N) - m) :
    let s := after k tb C xs m (gapLeft D xs.length m)
    let w := (configAt k tb C inp out N xs m .exit N total
      (gapLeft D (xs.length + N) (D.due (xs.length + N)))).walk
    s.processWalk A k 0 0 inp N out
      = { conv := { s with
            mHist := w.hist
            mEnd := w.fin
            mPos := w.pos % 2 ^ 32
            mPending := w.pending % 2 ^ 32 }
          out := w.out
          ret := total } := by
  intro s w
  have hcount : s.outputsFor A N = total := by
    rw [htotal]
    exact outputsFor_at hA.fits ⟨hst, rfl, rfl⟩
  have hwalk := walk_after (k := k) (C := C) inp out hT hA hst
  rw [← htotal] at hwalk
  rw [processWalk, hcount]
  simp only [s, hwalk]
  rfl

end Converter

/-- The unchecked walk stays within its buffers and its counters.  From every reachable
converter, whatever the instantiation of the walk, every append is reached with a frame
remaining and every decrement with a frame pending; the walk comes to its exit, having read
the block frame by frame from its start to its end and written `outputs_for` frames one after
the other, with nothing remaining and a gap of one advance at most but not empty; and what it
leaves there is what `process_walk` returns. -/
theorem walk_in_bounds {A : Word} {D : Direction} {S K : Type} {k : Kernels S K}
    {tb : PhaseTable D K} {C : ℕ} {s : Converter D S K} {calls : List (Call S)}
    (hs : Converter.make k tb C = .ok s) (hT : 0 < tb.mTaps)
    (hcalls : ∀ call ∈ calls, call.Admissible A) {N : ℕ} (hN : Covers A N) (inp out : ℕ → S) :
    let t := ((Session.start s).run A k calls).conv
    ∀ CH T, t.Suits CH T →
      let total := t.outputsFor A N
      let config := fun n => (t.walkStep A k CH T inp total)^[n] (t.walkStart N out)
      (∀ n,
        ((config n).point = .gapAppend ∨ (config n).point = .leftAppend →
          1 ≤ (config n).walk.remain) ∧
        ((config n).point = .gapDec ∨ (config n).point = .leftDec →
          1 ≤ (config n).walk.pending)) ∧
      ∃ n, (config n).point = .exit ∧
        (config n).reads = List.range (N * C) ∧
        (config n).writes = List.range (total * C) ∧
        (∀ i, total * C ≤ i → (config n).walk.out i = out i) ∧
        (config n).walk.remain = 0 ∧
        1 ≤ (config n).walk.pending ∧ (config n).walk.pending ≤ D.maxAdvance ∧
        t.processWalk A k CH T inp N out
          = { conv := { t with
                mHist := (config n).walk.hist
                mEnd := (config n).walk.fin
                mPos := (config n).walk.pos % 2 ^ 32
                mPending := (config n).walk.pending % 2 ^ 32 }
              out := (config n).walk.out
              ret := total } := by
  intro t
  have h := Session.described_run (A := A) hs hT hcalls
  obtain ⟨xs, m, hst, ht⟩ : ∃ xs m, Standing D xs.length m ∧
      t = Converter.after k tb C xs m (gapLeft D xs.length m) :=
    ⟨_, _, h.resting.toStanding, h.conv⟩
  clear_value t
  subst ht
  intro CH T hsuits total config
  have htotal : total = D.due (xs.length + N) - m :=
    Converter.outputsFor_at hN.fits ⟨hst, rfl, rfl⟩
  have hfits : A.Fits total := Converter.outputsFor_fits _ N
  have hdue : m + total = D.due (xs.length + N) := by
    rw [htotal]
    exact Nat.add_sub_of_le (hst.le_due_add N)
  have hconfig (n : ℕ) : Converter.OnWalk k tb C inp out N xs m total (config n) :=
    .config hT hN hst hsuits n
  constructor
  · intro n
    exact (hconfig n).guarded hdue
  · obtain ⟨n, hn⟩ := (hconfig 0).exists_exit (n := m) (q := gapLeft D xs.length m) hT hN hfits
      hdue
    rw [← Converter.walkStep_eq_generic hsuits] at hn
    have hexit : config n = _ := (hconfig n).at_exit hdue hn
    have hrest := Resting.due D (xs.length + N)
    have hne : gapLeft D (xs.length + N) (D.due (xs.length + N)) ≠ 0 :=
      gapLeft_ne_zero_iff.2 le_rfl
    refine ⟨n, hn, ?_⟩
    rw [hexit, Converter.processWalk_eq_generic hsuits]
    refine ⟨rfl, rfl, ?_, Nat.sub_self N, Nat.pos_of_ne_zero hne, hrest.gapLeft_le,
      Converter.processWalk_at_exit hT hN hst htotal⟩
    intro i hi
    exact if_neg (Nat.not_lt.2 hi)

/-- The stereo walk over five frames reads ten samples. -/
theorem walk_in_bounds_stereo :
    let s := Converter.after (.exact ℤ) (.box .downTo44k1 4) 2 [] 0 1
    let t := ((Session.start s).run (.bits 64) (.exact ℤ) []).conv
    let step := t.walkStep (.bits 64) (.exact ℤ) 2 4 (fun i => i) (t.outputsFor (.bits 64) 5)
    ∃ n, (step^[n] (t.walkStart 5 fun _ => 0)).reads = List.range (5 * 2) := by
  intro s t step
  have hs : Converter.make (.exact ℤ) (.box .downTo44k1 4) 2 = .ok s :=
    Converter.make_ok two_ne_zero
  have hcalls : ∀ call ∈ ([] : List (Call ℤ)), call.Admissible (.bits 64) := by simp
  obtain ⟨-, n, -, hreads, -⟩ := walk_in_bounds hs four_pos hcalls
    (Covers.of_le (show 5 ≤ 2 ^ 56 by decide)) (fun i => i) (fun _ => 0) 2 4
    ⟨.inr ⟨.inr rfl, rfl⟩, .inr rfl⟩
  exact ⟨n, hreads⟩

end RatioTap
