import RatioTap.Clock

/-!
# The predictions

`frames_needed` and `outputs_for` predict what a converter will consume and produce.  In
every reachable state the two are a Galois connection (`Converter.le_outputsFor_iff`), no
step of either wraps and both have the values of their integer expressions, and a prediction
made after a call continues the one made before it (`predictions`).
-/

namespace RatioTap

open FlatMemory PopCall

namespace Converter

variable {A : Word} {D : Direction} {S K : Type} {k : Kernels S K} {tb : PhaseTable D K}
  {C : ℕ} {xs : List (List S)} {s : Converter D S K} {x n m a b w : ℕ}

/-! ### The member functions, checked and over the integers -/

/-- `frames_needed(out_frames)` on words of `w` bits, as long as no step wraps. -/
def framesNeededChecked (w : ℕ) (s : Converter D S K) (out : ℕ) : Option ℕ :=
  if out = 0 then some 0
  else do
    let l := D.kPhases
    let m := D.kDecimation
    let p := s.mPos % l
    let sum ← Word.checkedAdd w p (← Word.checkedSub out 1)
    let last ← Word.checkedMul w sum m
    let base ← Word.checkedMul w p m
    Word.checkedAdd w s.mPending (← Word.checkedSub (last / l) (base / l))

/-- `outputs_for(in_frames)` on words of `w` bits, as long as no step wraps. -/
def outputsForChecked (w : ℕ) (s : Converter D S K) (inFrames : ℕ) : Option ℕ :=
  if inFrames < s.mPending then some 0
  else do
    let l := D.kPhases
    let m := D.kDecimation
    let base ← Word.checkedMul w s.mPos m
    let a ← Word.checkedSub inFrames s.mPending
    let sum ← Word.checkedAdd w (base / l) a
    let prod ← Word.checkedMul w l (← Word.checkedAdd w sum 1)
    let quot ← Word.checkedSub prod 1
    Word.checkedAdd w (← Word.checkedSub (quot / m) s.mPos) 1

/-- `frames_needed(out_frames)` over the integers. -/
def framesNeededInt (s : Converter D S K) (out : ℕ) : ℤ :=
  if out = 0 then 0
  else s.mPending +
    ((s.mPos + (out - 1)) * D.kDecimation / D.kPhases - s.mPos * D.kDecimation / D.kPhases)

/-- `outputs_for(in_frames)` over the integers. -/
def outputsForInt (s : Converter D S K) (inFrames : ℕ) : ℤ :=
  if inFrames < s.mPending then 0
  else (D.kPhases * (s.mPos * D.kDecimation / D.kPhases + (inFrames - s.mPending) + 1) - 1)
    / D.kDecimation - s.mPos + 1

/-- No step of `frames_needed` wraps. -/
theorem framesNeededChecked_eq (h : Covers (.bits w) n) (hs : s.At x m) :
    s.framesNeededChecked w n = some (s.framesNeeded (.bits w) n) := by
  have hfits := h.fits
  have hpos := hs.pos_lt
  have hpend := hs.pending_le.trans D.maxAdvance_le
  have hL := D.kPhases_le
  rw [framesNeeded_closed hfits hpos hpend, framesNeededChecked]
  by_cases hn : n = 0
  · rw [if_pos hn, if_pos hn]
  · have hlast := mul_decimation_le D (s.mPos + (n - 1))
    have hbase := mul_decimation_le D s.mPos
    have hmono := D.tick_mono (Nat.le_add_right s.mPos (n - 1))
    have htick := tick_le D (s.mPos + (n - 1))
    have hsub : Word.checkedSub n 1 = some (n - 1) := Word.checkedSub_eq (by omega)
    have hsum : Word.checkedAdd w s.mPos (n - 1) = some (s.mPos + (n - 1)) :=
      Word.checkedAdd_eq (hfits.mono (by omega))
    have hprod : Word.checkedMul w (s.mPos + (n - 1)) D.kDecimation = some _ :=
      Word.checkedMul_eq (hfits.mono (by omega))
    have hprod0 : Word.checkedMul w s.mPos D.kDecimation = some _ :=
      Word.checkedMul_eq (hfits.mono (by omega))
    have hdiff : Word.checkedSub (D.tick (s.mPos + (n - 1))) (D.tick s.mPos) = some _ :=
      Word.checkedSub_eq hmono
    have hneed : Word.checkedAdd w s.mPending
        (D.tick (s.mPos + (n - 1)) - D.tick s.mPos) = some _ :=
      Word.checkedAdd_eq (hfits.mono (by omega))
    rw [if_neg hn, if_neg hn, ← hneed]
    simp only [Nat.mod_eq_of_lt hpos, hsub, hsum, hprod, hprod0, Option.bind_eq_bind,
      Option.bind_some]
    exact (congrArg (Option.bind · _) hdiff).trans rfl

/-- No step of `outputs_for` wraps. -/
theorem outputsForChecked_eq (h : Covers (.bits w) a) (hs : s.At x m) :
    s.outputsForChecked w a = some (s.outputsFor (.bits w) a) := by
  have hfits := h.fits
  have hpos := hs.pos_lt
  rw [outputsFor_closed hfits hpos, outputsForChecked]
  by_cases ha : a < s.mPending
  · rw [if_pos ha, if_pos ha]
  · have hL := D.kPhases_le
    have hM := D.kDecimation_le
    have htick := tick_lt_of_lt hpos
    have hlprod := mul_phases_le D (D.tick s.mPos + (a - s.mPending) + 1)
    have hlpos := Nat.mul_pos D.kPhases_pos
      (show 0 < D.tick s.mPos + (a - s.mPending) + 1 by omega)
    have hquot := Nat.div_le_self
      (D.kPhases * (D.tick s.mPos + (a - s.mPending) + 1) - 1) D.kDecimation
    have hprod : Word.checkedMul w s.mPos D.kDecimation = some _ :=
      Word.checkedMul_eq (hfits.mono ((mul_decimation_le D s.mPos).trans (by omega)))
    have hsub : Word.checkedSub a s.mPending = some (a - s.mPending) :=
      Word.checkedSub_eq (by omega)
    have hsum : Word.checkedAdd w (D.tick s.mPos) (a - s.mPending)
        = some (D.tick s.mPos + (a - s.mPending)) := Word.checkedAdd_eq (hfits.mono (by omega))
    have hsum1 : Word.checkedAdd w (D.tick s.mPos + (a - s.mPending)) 1
        = some (D.tick s.mPos + (a - s.mPending) + 1) :=
      Word.checkedAdd_eq (hfits.mono (by omega))
    have hlast : Word.checkedMul w D.kPhases (D.tick s.mPos + (a - s.mPending) + 1) = some _ :=
      Word.checkedMul_eq (hfits.mono (by omega))
    have hpred : Word.checkedSub (D.kPhases * (D.tick s.mPos + (a - s.mPending) + 1)) 1
        = some _ := Word.checkedSub_eq hlpos
    have hdiff : Word.checkedSub ((D.kPhases * (D.tick s.mPos + (a - s.mPending) + 1) - 1)
        / D.kDecimation) s.mPos = some _ := Word.checkedSub_eq (le_quotient D s.mPos _)
    have houts : Word.checkedAdd w ((D.kPhases * (D.tick s.mPos + (a - s.mPending) + 1) - 1)
        / D.kDecimation - s.mPos) 1 = some _ := Word.checkedAdd_eq (hfits.mono (by omega))
    rw [if_neg ha, if_neg ha, ← houts]
    have htick' : s.mPos * D.kDecimation / D.kPhases = D.tick s.mPos := rfl
    simp only [hprod, htick', hsub, hsum, hsum1, hlast, hpred, hdiff, Option.bind_eq_bind,
      Option.bind_some]

/-- `frames_needed` has the value of its integer expression. -/
theorem framesNeeded_eq_int (h : Covers A n) (hs : s.At x m) :
    (s.framesNeeded A n : ℤ) = s.framesNeededInt n := by
  rw [framesNeeded_closed h.fits hs.pos_lt (hs.pending_le.trans D.maxAdvance_le),
    framesNeededInt]
  by_cases hn : n = 0
  · rw [if_pos hn, if_pos hn, Nat.cast_zero]
  · have hmono := D.tick_mono (Nat.le_add_right s.mPos (n - 1))
    rw [if_neg hn, if_neg hn, Nat.cast_add, Nat.cast_sub hmono]
    simp only [Direction.tick, FloorClock.tick]
    push_cast [Nat.cast_sub (Nat.one_le_iff_ne_zero.2 hn)]
    rfl

/-- `outputs_for` has the value of its integer expression. -/
theorem outputsFor_eq_int (h : Covers A a) (hs : s.At x m) :
    (s.outputsFor A a : ℤ) = s.outputsForInt a := by
  rw [outputsFor_closed h.fits hs.pos_lt, outputsForInt]
  by_cases ha : a < s.mPending
  · rw [if_pos ha, if_pos ha, Nat.cast_zero]
  · have hlpos := Nat.mul_pos D.kPhases_pos
      (show 0 < D.tick s.mPos + (a - s.mPending) + 1 by omega)
    rw [if_neg ha, if_neg ha, Nat.cast_add, Nat.cast_sub (le_quotient D s.mPos _)]
    simp only [Direction.tick, FloorClock.tick] at hlpos ⊢
    push_cast [Nat.cast_sub (Nat.not_lt.1 ha), Nat.cast_sub (Nat.one_le_iff_ne_zero.2 hlpos.ne')]
    rfl

/-! ### The connection and its composition -/

/-- `n` outputs become due with `a` more frames exactly when they need no more than `a`. -/
theorem le_outputsFor_iff (ha : Covers A a) (hn : Covers A n) (hs : s.At x m) :
    n ≤ s.outputsFor A a ↔ s.framesNeeded A n ≤ a := by
  rw [outputsFor_at ha.fits hs, framesNeeded_at hn.fits hs]
  by_cases h0 : n = 0
  · rw [if_pos h0, h0]
    exact iff_of_true (Nat.zero_le _) (Nat.zero_le _)
  · have hdue := hs.standing.le_due.trans (D.due_mono (Nat.le_add_right x a))
    have hiff := D.lt_due_iff (x := x + a) (n := m + (n - 1))
    rw [if_neg h0, gapLeft]
    omega

/-- After a block the outputs of the next block are those of both but of the first. -/
theorem outputsFor_add (hT : 0 < tb.mTaps) (hab : Covers A (a + b))
    (hst : Standing D xs.length m) (inp out : ℕ → S) :
    let s := after k tb C xs m (gapLeft D xs.length m)
    s.outputsFor A (a + b)
      = s.outputsFor A a + (s.process A k inp a out).conv.outputsFor A b := by
  intro s
  have hs : s.At xs.length m := ⟨hst, rfl, rfl⟩
  have ha := hab.mono (Nat.le_add_right a b)
  have hb := hab.mono (Nat.le_add_left b a)
  have hdue := (Resting.due D (xs.length + a)).toStanding
  have hle := hst.le_due.trans (D.due_mono (Nat.le_add_right xs.length a))
  have hle' := D.due_mono (Nat.le_add_right (xs.length + a) b)
  have hs' : (s.process A k inp a out).conv.At (xs.length + a) (D.due (xs.length + a)) := by
    rw [process_after inp out hT ha hst]
    exact ⟨hdue, rfl, rfl⟩
  rw [outputsFor_at hab.fits hs, outputsFor_at ha.fits hs, outputsFor_at hb.fits hs',
    ← Nat.add_assoc xs.length a b]
  omega

/-- The cursors after `pull`. -/
lemma Pulls.at {out : ℕ → S} {todo : ℕ} {r : Pulled D S K}
    (h : Pulls k tb C out xs m 0 todo r) :
    r.conv.At (xs.length + (r.calls.map accepted).sum) (m + r.ret) := by
  rw [← length_drawn (C := C), ← List.length_append]
  refine ⟨h.standing, ?_, ?_⟩ <;> rw [h.conv] <;> rfl

/-- The frames taken in by a `pull` that writes all its outputs are those it needs. -/
lemma Pulls.accepted_eq {out : ℕ → S} {todo : ℕ} {r : Pulled D S K}
    (h : Pulls k tb C out xs m 0 todo r) (hA : Covers A todo) (hs : s.At xs.length m)
    (hret : r.ret = todo) : (r.calls.map accepted).sum = s.framesNeeded A todo := by
  rw [framesNeeded_at hA.fits hs]
  rcases (h.full (by omega)).2 with ⟨rfl, hnil⟩ | ⟨hpos, hx⟩
  · rw [hnil]
    rfl
  · rw [List.length_append, length_drawn, hret] at hx
    rw [if_neg (by omega), gapLeft, show m + (todo - 1) = m + todo - 1 by omega]
    omega

/-- After `pull`, complete or dry, further outputs need what they needed before less the
frames taken in. -/
theorem framesNeeded_add {out : ℕ → S} {todo : ℕ} {r : Pulled D S K}
    (h : Pulls k tb C out xs m 0 todo r) (hA : Covers A (todo + n)) (hn : 0 < n)
    (hs : s.At xs.length m) :
    s.framesNeeded A (r.ret + n) = (r.calls.map accepted).sum + r.conv.framesNeeded A n := by
  have hret := h.ret_le
  have hle := h.at.standing.le
  have hmono := D.tick_mono (Nat.le_add_right (m + r.ret) (n - 1))
  rw [framesNeeded_at (hA.mono (by omega)).fits hs,
    framesNeeded_at (hA.mono (by omega)).fits h.at, if_neg (by omega), if_neg (by omega),
    gapLeft, gapLeft, show m + (r.ret + n - 1) = m + r.ret + (n - 1) by omega]
  omega

end Converter

/-- The predictions of every reachable converter, in 64-bit arithmetic, for up to `2 ^ 56`
frames: they are a Galois connection, no step of them wraps, and they have the values of
their integer expressions.  After `process` has consumed `a` frames, and after `pull` has
produced the `n` frames it was asked for, they continue the earlier predictions; where `pull`
runs dry, further outputs need what they needed before less the frames it took in. -/
theorem predictions {D : Direction} {S K : Type} {k : Kernels S K} {tb : PhaseTable D K}
    {C : ℕ} {s : Converter D S K} {calls : List (Call S)}
    (hs : Converter.make k tb C = .ok s) (hT : 0 < tb.mTaps)
    (hcalls : ∀ call ∈ calls, call.Admissible (.bits 64)) :
    let t := ((Session.start s).run (.bits 64) k calls).conv
    (∀ a n, a ≤ 2 ^ 56 → n ≤ 2 ^ 56 →
      (n ≤ t.outputsFor (.bits 64) a ↔ t.framesNeeded (.bits 64) n ≤ a) ∧
      t.framesNeededChecked 64 n = some (t.framesNeeded (.bits 64) n) ∧
      t.outputsForChecked 64 a = some (t.outputsFor (.bits 64) a) ∧
      (t.framesNeeded (.bits 64) n : ℤ) = t.framesNeededInt n ∧
      (t.outputsFor (.bits 64) a : ℤ) = t.outputsForInt a) ∧
    (∀ a b, a + b ≤ 2 ^ 56 → ∀ inp out,
      t.outputsFor (.bits 64) (a + b) = t.outputsFor (.bits 64) a +
        (t.process (.bits 64) k inp a out).conv.outputsFor (.bits 64) b) ∧
    ∀ n m, n + m ≤ 2 ^ 56 → ∀ out pop,
      let r := t.pull k out n pop
      (r.ret = n → t.framesNeeded (.bits 64) (n + m)
        = t.framesNeeded (.bits 64) n + r.conv.framesNeeded (.bits 64) m) ∧
      (0 < m → t.framesNeeded (.bits 64) (r.ret + m)
        = (r.calls.map accepted).sum + r.conv.framesNeeded (.bits 64) m) := by
  intro t
  have h := Session.described_run (A := .bits 64) hs hT hcalls
  have hat : t.At _ _ := h.at
  have hst := h.resting.toStanding
  have ht : t = _ := h.conv
  refine ⟨?_, ?_, ?_⟩
  · intro a n ha hn
    have ha := Covers.of_le ha
    have hn := Covers.of_le hn
    exact ⟨Converter.le_outputsFor_iff ha hn hat, Converter.framesNeededChecked_eq hn hat,
      Converter.outputsForChecked_eq ha hat, Converter.framesNeeded_eq_int hn hat,
      Converter.outputsFor_eq_int ha hat⟩
  · intro a b hab inp out
    rw [ht]
    exact Converter.outputsFor_add hT (Covers.of_le hab) hst inp out
  · -- the frames asked of the callback are the need of the outputs before the one that waits
    intro n m hnm out pop r
    have hr : Converter.Pulls k tb C out _ _ 0 n r := h.pull hT out n pop
    have hcov := Covers.of_le hnm
    constructor
    · intro hret
      have hacc := hr.accepted_eq (hcov.mono (Nat.le_add_right n m)) hat hret
      by_cases hm : m = 0
      · rw [hm]
        rfl
      · have hadd := Converter.framesNeeded_add hr hcov (Nat.pos_of_ne_zero hm) hat
        rwa [hret, hacc] at hadd
    · intro hm
      exact Converter.framesNeeded_add hr hcov hm hat

/-- On a converter going down that has pulled one output, with the next block of 30. -/
theorem predictions_pulled :
    let s := Converter.after (.exact ℤ) (.box .downTo44k1 4) 1 [] 0 1
    let pop : PopFn ℤ := ⟨ℕ, 9, fun left want => (left - want, min left want, fun i => i)⟩
    let t := ((Session.start s).run (.bits 64) (.exact ℤ) [.pull (fun _ => 0) 1 pop]).conv
    20 ≤ t.outputsFor (.bits 64) 30 ↔ t.framesNeeded (.bits 64) 20 ≤ 30 :=
  ((predictions (Converter.make_ok one_ne_zero) four_pos (by simp [Call.Admissible])).1 30 20
    (by decide) (by decide)).1

end RatioTap
