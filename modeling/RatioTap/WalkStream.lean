import RatioTap.Process
import RatioTap.Stream

/-!
# The walk, on streams

The locals of `process_walk` describe a stream as well: `walkAt` is the walk that has read
`i` frames of its block and written `j` outputs.  One append reads a frame
(`walkAppend_at`), one turn of the main loop fills the gap and writes an output, and since
`outputs_for` is the number of outputs that fall due within the block, the walk ends with
all input read and the next output waiting (`process_after`).
-/

namespace RatioTap

open FlatMemory SlidingHistory

namespace Converter

variable {A : Word} {D : Direction} {S K : Type}

/-- The walk over a block of `N` frames at `inp`, entered after the frames `xs` and `m`
outputs, when it has read `i` frames and written `j` outputs. -/
def walkAt (k : Kernels S K) (tb : PhaseTable D K) (C : ℕ) (inp out : ℕ → S) (N : ℕ)
    (xs : List (List S)) (m i j p : ℕ) : Walk S where
  hist := histories k tb C (xs ++ framesFrom inp C i)
  src := i * C
  dst := j * C
  out := writeFrames out C j fun r => outSample k tb (xs ++ framesFrom inp C N) (m + r)
  remain := N - i
  fin := finAfter tb.mTaps (tb.mTaps + kHistSlack) (xs.length + i)
  pos := (m + j) % D.kPhases
  pending := p

variable {k : Kernels S K} {tb : PhaseTable D K} {C : ℕ} {inp out : ℕ → S} {N : ℕ}
  {xs : List (List S)} {m i j p n q : ℕ}

/-- The stream, with the block read frame by frame, is a prefix of the stream with the whole
block. -/
lemma append_framesFrom_isPrefix (xs : List (List S)) (inp : ℕ → S) (hi : i ≤ N) :
    xs ++ framesFrom inp C i <+: xs ++ framesFrom inp C N :=
  List.prefix_append_right_inj xs |>.2 (framesFrom_isPrefix inp C hi)

/-- The generic append, in the words of `append_frame`. -/
lemma walkAppend_generic (s : Converter D S K) (inp : ℕ → S) (w : Walk S) :
    walkAppend A 0 s inp w = { w with
      hist := storeFrame s.taps s.mHistCap s.mChannels w.hist w.fin fun c => inp (w.src + c)
      src := w.src + s.mChannels
      remain := A.sub w.remain 1
      fin := (makeRoom s.taps s.mHistCap w.hist w.fin).2 + 1 } := rfl

/-- The generic output, in the words of `emit`. -/
lemma walkEmit_generic (k : Kernels S K) (s : Converter D S K) (w : Walk S) :
    walkEmit k 0 0 s w = { w with
      out := forLt s.mChannels (fun c out => Function.update out (w.dst + c)
        (dotPhase k s.mTable (kSchedule D w.pos).phase
          (((w.hist.getD c []).drop (w.fin - s.taps)).take s.taps))) w.out
      dst := w.dst + s.mChannels
      pending := (kSchedule D w.pos).advance
      pos := nextPos D w.pos } := rfl

/-- An append reads the next frame of the block. -/
lemma walkAppend_at (hN : A.Fits N) (hi : i < N) :
    walkAppend A 0 (after k tb C xs n q) inp (walkAt k tb C inp out N xs m i j p)
      = walkAt k tb C inp out N xs m (i + 1) j p := by
  have hlen : (xs ++ framesFrom inp C i).length = xs.length + i := by simp
  have hstore : storeFrame tb.mTaps (tb.mTaps + kHistSlack) C
      (histories k tb C (xs ++ framesFrom inp C i)) _ (fun c => inp (i * C + c)) = _ :=
    storeFrame_histories _
  rw [hlen] at hstore
  have hroom := makeRoom_snd tb.mTaps (tb.mTaps + kHistSlack)
    (histories k tb C (xs ++ framesFrom inp C i)) (xs.length + i)
  have hsub : A.sub (N - i) 1 = N - (i + 1) :=
    (Word.sub_eq (hN.mono (Nat.sub_le N i)) (by omega)).trans (by omega)
  rw [walkAppend_generic]
  simp only [walkAt, Walk.mk.injEq, true_and, and_true]
  refine ⟨?_, (Nat.succ_mul i C).symm, hsub, hroom⟩
  rw [framesFrom_succ, ← List.append_assoc]
  exact hstore

/-- A decrement counts the gap down. -/
lemma walkDecPending_at (hp : A.Fits p) (hpos : 0 < p) :
    walkDecPending A (walkAt k tb C inp out N xs m i j p)
      = walkAt k tb C inp out N xs m i j (p - 1) := by
  rw [walkDecPending]
  simp only [walkAt, Walk.mk.injEq, true_and]
  exact Word.sub_eq hp hpos

/-- Filling the gap reads as many frames as the output waits for. -/
lemma walkFill_at (hN : A.Fits N) (hip : i + p ≤ N) :
    walkFill A 0 (after k tb C xs n q) inp (walkAt k tb C inp out N xs m i j p)
      = walkAt k tb C inp out N xs m (i + p) j 0 := by
  induction p generalizing i with
  | zero =>
      rw [walkFill]
      exact if_pos rfl
  | succ p ih =>
      have hdec : walkDecPending A (walkAt k tb C inp out N xs m (i + 1) j (p + 1))
          = walkAt k tb C inp out N xs m (i + 1) j p :=
        walkDecPending_at (hN.mono (by omega)) (Nat.succ_pos p)
      have hne : (walkAt k tb C inp out N xs m i j (p + 1)).pending ≠ 0 := Nat.succ_ne_zero p
      rw [walkFill, if_neg hne, walkAppend_at hN (by omega), hdec, ih (by omega), Nat.add_assoc,
        Nat.add_comm 1 p]

/-- The body of the main loop writes the next output of the stream. -/
lemma walkEmit_at (hT : 0 < tb.mTaps) (hi : i ≤ N) (hx : xs.length + i = D.tick (m + j) + 1) :
    walkEmit k 0 0 (after k tb C xs n q) (walkAt k tb C inp out N xs m i j p)
      = walkAt k tb C inp out N xs m i (j + 1) (D.gap (m + j)) := by
  have hlen : (xs ++ framesFrom inp C i).length = D.tick (m + j) + 1 := by simpa using hx
  have hsame : outSample k tb (xs ++ framesFrom inp C N) (m + j)
      = outSample k tb (xs ++ framesFrom inp C i) (m + j) := by
    exact outSample_of_isPrefix (append_framesFrom_isPrefix xs inp hi) (by omega)
  have hpos : (walkAt k tb C inp out N xs m i j p).pos = (m + j) % D.kPhases := rfl
  have hstore := store_outSample (k := k) (C := C) hT hlen
    (writeFrames out C j fun r => outSample k tb (xs ++ framesFrom inp C N) (m + r)) (j * C)
  rw [hlen, ← hx, ← hsame,
    writeFrame_writeFrames out C j fun r => outSample k tb (xs ++ framesFrom inp C N) (m + r)]
    at hstore
  rw [walkEmit_generic, hpos, kSchedule_mod, nextPos_mod]
  simp only [walkAt, Walk.mk.injEq, true_and, and_true]
  exact ⟨(Nat.succ_mul j C).symm, hstore, rfl⟩

variable (inp out)

/-- The main loop takes the walk to a later output that is still due within the block. -/
lemma walkProduce_at (hT : 0 < tb.mTaps) (hN : A.Fits N) {todo : ℕ} (hi : i ≤ N)
    (hst : Standing D (xs.length + i) (m + j)) (hdue : m + j + todo ≤ D.due (xs.length + N)) :
    ∃ i' ≤ N, Standing D (xs.length + i') (m + (j + todo)) ∧
      walkProduce A k 0 0 (after k tb C xs n q) inp todo
          (walkAt k tb C inp out N xs m i j (gapLeft D (xs.length + i) (m + j)))
        = walkAt k tb C inp out N xs m i' (j + todo)
            (gapLeft D (xs.length + i') (m + (j + todo))) := by
  induction todo generalizing i j with
  | zero => exact ⟨i, hi, hst, rfl⟩
  | succ todo ih =>
      -- the output is due within the block, so the block fills the gap before it
      have htick : D.tick (m + j) < xs.length + N := D.lt_due_iff.1 (by omega)
      have hleft := hst.add_gapLeft
      obtain ⟨i₁, hi₁⟩ : ∃ i₁, i₁ = i + gapLeft D (xs.length + i) (m + j) := ⟨_, rfl⟩
      have hx : xs.length + i₁ = D.tick (m + j) + 1 := by omega
      have hfull : gapLeft D (xs.length + i₁) (m + j) = 0 := by
        rw [gapLeft, hx, Nat.sub_self]
      have hst₁ : Standing D (xs.length + i₁) (m + j) := hst.mono (by omega) hx.le
      have hnext : Standing D (xs.length + i₁) (m + (j + 1)) := hst₁.emit hfull
      have hgap : D.gap (m + j) = gapLeft D (xs.length + i₁) (m + (j + 1)) :=
        (hst₁.gapLeft_emit hfull).symm
      have hi₁N : i₁ ≤ N := by omega
      obtain ⟨i', hi', hst', hrun⟩ := ih hi₁N hnext (by omega)
      have hj : j + (todo + 1) = j + 1 + todo := by omega
      refine ⟨i', hi', hj ▸ hst', ?_⟩
      rw [walkProduce, walkFill_at hN (by omega), ← hi₁, walkEmit_at hT hi₁N hx, hgap, hrun, hj]

/-- The leftover loop reads the rest of the block into a gap that it does not fill. -/
lemma walkLeftover_at (hN : A.Fits N) (hi : i ≤ N) (hp : N - i < p) (hpA : A.Fits p) :
    walkLeftover A 0 (after k tb C xs n q) inp (walkAt k tb C inp out N xs m i j p)
      = walkAt k tb C inp out N xs m N j (p - (N - i)) := by
  obtain ⟨r, hr⟩ : ∃ r, r = N - i := ⟨_, rfl⟩
  induction r generalizing i p with
  | zero =>
      obtain rfl : i = N := by omega
      have hdone : (walkAt k tb C inp out i xs m i j p).remain = 0 := Nat.sub_self i
      rw [walkLeftover, if_pos hdone, Nat.sub_self, Nat.sub_zero]
  | succ r ih =>
      have hne : (walkAt k tb C inp out N xs m i j p).remain ≠ 0 := by
        change N - i ≠ 0
        omega
      rw [walkLeftover, if_neg hne, walkAppend_at hN (by omega), walkDecPending_at hpA (by omega),
        ih (by omega) (by omega) (hpA.mono (Nat.sub_le p 1)) (by omega)]
      congr 1
      omega

/-- The walk at its entry. -/
lemma walkEntry_after :
    walkEntry (after k tb C xs m p) N out = walkAt k tb C inp out N xs m 0 0 p := by
  simp [walkEntry, walkAt, after, framesFrom]

/-- The walk at its end: the whole block is read, and the outputs that are due within it are
written. -/
lemma walk_after (hT : 0 < tb.mTaps) (hA : Covers A N) (hst : Standing D xs.length m) :
    walkLeftover A 0 (after k tb C xs m (gapLeft D xs.length m)) inp
        (walkProduce A k 0 0 (after k tb C xs m (gapLeft D xs.length m)) inp
          (D.due (xs.length + N) - m)
          (walkEntry (after k tb C xs m (gapLeft D xs.length m)) N out))
      = walkAt k tb C inp out N xs m N (D.due (xs.length + N) - m)
          (gapLeft D (xs.length + N) (D.due (xs.length + N))) := by
  have hle : m ≤ D.due (xs.length + N) := hst.le_due_add N
  have hj : m + (0 + (D.due (xs.length + N) - m)) = D.due (xs.length + N) := by omega
  have hdue : m + 0 + (D.due (xs.length + N) - m) ≤ D.due (xs.length + N) := by omega
  have hN : A.Fits N := hA.fits.mono (by omega)
  obtain ⟨i, hi, hst', hrun⟩ := walkProduce_at (k := k) (C := C) (n := m)
    (q := gapLeft D xs.length m) inp out hT hN (Nat.zero_le N) hst hdue
  have hwait : xs.length + N ≤ D.tick (D.due (xs.length + N)) := D.due_le_iff.1 le_rfl
  rw [hj] at hst' hrun
  have hp : N - i < gapLeft D (xs.length + i) (D.due (xs.length + N)) := by
    rw [gapLeft]
    omega
  have hfits : A.Fits (gapLeft D (xs.length + i) (D.due (xs.length + N))) :=
    hA.fits.mono ((hst'.gapLeft_le.trans D.maxAdvance_le).trans (by omega))
  rw [walkEntry_after inp out]
  refine (congrArg _ hrun).trans ?_
  rw [walkLeftover_at inp out hN hi hp hfits, ← gapLeft_add, Nat.add_assoc, Nat.add_sub_of_le hi,
    Nat.zero_add]

/-- A block of `N` frames takes a converter from output `m` to the first output that is not
due within it. -/
theorem process_after (hT : 0 < tb.mTaps) (hA : Covers A N) (hst : Standing D xs.length m) :
    (after k tb C xs m (gapLeft D xs.length m)).process A k inp N out
      = { conv := after k tb C (xs ++ framesFrom inp C N) (D.due (xs.length + N))
            (gapLeft D (xs.length + N) (D.due (xs.length + N)))
          out := writeFrames out C (D.due (xs.length + N) - m)
            fun r => outSample k tb (xs ++ framesFrom inp C N) (m + r)
          ret := D.due (xs.length + N) - m } := by
  have hat : (after k tb C xs m (gapLeft D xs.length m)).At xs.length m := ⟨hst, rfl, rfl⟩
  have hle : m ≤ D.due (xs.length + N) := hst.le_due_add N
  have hgap := (Resting.due D (xs.length + N)).gapLeft_lt
  have hpos : D.due (xs.length + N) % D.kPhases < 2 ^ 32 :=
    (Nat.mod_lt _ D.kPhases_pos).trans_le (D.kPhases_le.trans (by decide))
  rw [process_eq_generic, processWalk, outputsFor_at hA.fits hat,
    walk_after inp out hT hA hst]
  simp only [walkAt, after, Nat.add_sub_of_le hle, Nat.mod_eq_of_lt hpos, Nat.mod_eq_of_lt hgap,
    List.length_append, length_framesFrom]

end Converter

end RatioTap
