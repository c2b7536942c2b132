import Mathlib

/-!
# Counted loops over flat memory

`forLt n body s` runs `body 0`, …, `body (n - 1)` on the state `s` in turn.  The loops of
interest store one value per index, into a flat memory `ℕ → α` or into the entries of a
list; `forLt_update` and `forLt_modify` give their effect cell by cell.

A flat memory that holds interleaved frames of `C` samples is read frame by frame with
`frameAt` and `framesFrom`, and written with `writeFrame` and `writeFrames`.  Frames stored
one after the other are read back as the list of them (`framesFrom_writeFrames`).
-/

namespace FlatMemory

variable {α σ : Type*}

/-- Run the loop body on `0`, …, `n - 1` in turn. -/
def forLt : ℕ → (ℕ → σ → σ) → σ → σ
  | 0, _, s => s
  | n + 1, body, s => body n (forLt n body s)

/-- An invariant of the loop body is an invariant of the loop. -/
lemma forLt_induct {P : ℕ → σ → Prop} {n : ℕ} {body : ℕ → σ → σ} {s : σ} (h0 : P 0 s)
    (hstep : ∀ i < n, ∀ s, P i s → P (i + 1) (body i s)) : P n (forLt n body s) := by
  induction n with
  | zero => exact h0
  | succ n ih => exact hstep n (by omega) _ (ih fun i hi => hstep i (by omega))

lemma forLt_congr {n : ℕ} {f g : ℕ → σ → σ} (h : ∀ i < n, f i = g i) (s : σ) :
    forLt n f s = forLt n g s := by
  induction n with
  | zero => rfl
  | succ n ih => rw [forLt, forLt, h n (by omega), ih fun i hi => h i (by omega)]

/-! ### Storing into a flat memory -/

/-- The memory `m` with the `C` values of `v` stored from offset `o` on. -/
def writeFrame (m : ℕ → α) (o C : ℕ) (v : ℕ → α) : ℕ → α :=
  fun i => if o ≤ i ∧ i < o + C then v (i - o) else m i

lemma writeFrame_zero (m : ℕ → α) (o : ℕ) (v : ℕ → α) : writeFrame m o 0 v = m := by
  ext i
  rw [writeFrame, if_neg (by omega)]

lemma writeFrame_succ (m : ℕ → α) (o C : ℕ) (v : ℕ → α) :
    writeFrame m o (C + 1) v = Function.update (writeFrame m o C v) (o + C) (v C) := by
  ext i
  rcases eq_or_ne i (o + C) with rfl | hne
  · rw [Function.update_self, writeFrame, if_pos (by omega), Nat.add_sub_cancel_left]
  · rw [Function.update_of_ne hne]
    unfold writeFrame
    exact if_congr (by omega) rfl rfl

/-- A loop that stores `v i` at offset `o + i`. -/
lemma forLt_update (m : ℕ → α) (o C : ℕ) (v : ℕ → α) :
    forLt C (fun i m => Function.update m (o + i) (v i)) m = writeFrame m o C v := by
  induction C with
  | zero => rw [forLt, writeFrame_zero]
  | succ C ih => rw [forLt, ih, writeFrame_succ]

/-- A loop that changes the entry `i` of a list by `f i`. -/
lemma forLt_modify (xs : List α) (n : ℕ) (f : ℕ → α → α) :
    forLt n (fun i xs => xs.modify i (f i)) xs
      = xs.mapIdx fun i x => if i < n then f i x else x := by
  induction n with
  | zero =>
      apply List.ext_getElem?
      simp [forLt]
  | succ n ih =>
      rw [forLt, ih]
      ext1 i
      rw [List.getElem?_modify, List.getElem?_mapIdx, List.getElem?_mapIdx, Option.map_eq_map,
        Option.map_map]
      congr 1
      ext1 x
      rcases lt_trichotomy i n with h | rfl | h
      · simp [h, Nat.lt_succ_of_lt h, Nat.ne_of_gt h]
      · simp
      · simp [Nat.not_lt_of_gt h, show ¬ i < n + 1 by omega, show n ≠ i by omega]

/-! ### Frames -/

/-- The `i`-th frame of `C` samples. -/
def frameAt (m : ℕ → α) (C i : ℕ) : List α := (List.range C).map fun c => m (i * C + c)

/-- The first `n` frames. -/
def framesFrom (m : ℕ → α) (C n : ℕ) : List (List α) := (List.range n).map (frameAt m C)

/-- The memory `m` with `n` frames stored one after the other from its start on; `v j c` is
the sample `c` of the frame `j`. -/
def writeFrames (m : ℕ → α) (C n : ℕ) (v : ℕ → ℕ → α) : ℕ → α :=
  fun i => if i < n * C then v (i / C) (i % C) else m i

@[simp] lemma writeFrames_zero (m : ℕ → α) (C : ℕ) (v : ℕ → ℕ → α) :
    writeFrames m C 0 v = m := by
  ext i
  simp [writeFrames]

lemma writeFrames_congr {m : ℕ → α} {C n : ℕ} {v w : ℕ → ℕ → α} (h : ∀ j < n, v j = w j) :
    writeFrames m C n v = writeFrames m C n w := by
  ext i
  refine if_ctx_congr Iff.rfl (fun hi => ?_) fun _ => rfl
  rw [h _ (Nat.div_lt_of_lt_mul (by rwa [Nat.mul_comm]))]

/-- Storing one more frame behind `n` stored ones. -/
lemma writeFrame_writeFrames (m : ℕ → α) (C n : ℕ) (v : ℕ → ℕ → α) :
    writeFrame (writeFrames m C n v) (n * C) C (v n) = writeFrames m C (n + 1) v := by
  ext i
  simp only [writeFrame, writeFrames, Nat.add_mul, Nat.one_mul]
  rcases Nat.lt_or_ge i (n * C) with h | h
  · rw [if_neg (by omega), if_pos h, if_pos (by omega)]
  · rw [if_neg (by omega : ¬ i < n * C)]
    refine if_ctx_congr (by omega) (fun hi => ?_) fun _ => rfl
    obtain ⟨c, rfl⟩ : ∃ c, i = n * C + c := ⟨i - n * C, by omega⟩
    have hc : c < C := by omega
    rw [Nat.add_sub_cancel_left, Nat.mul_comm n C, Nat.mul_add_div (by omega),
      Nat.div_eq_of_lt hc, Nat.mul_add_mod, Nat.mod_eq_of_lt hc, Nat.add_zero]

/-- The frames stored are the frames read back. -/
lemma frameAt_writeFrames (m : ℕ → α) (C : ℕ) {n j : ℕ} (v : ℕ → ℕ → α) (hj : j < n) :
    frameAt (writeFrames m C n v) C j = (List.range C).map (v j) := by
  apply List.map_congr_left
  intro c hc
  rw [List.mem_range] at hc
  have hlt : j * C + c < n * C := by
    have := Nat.mul_le_mul_right C (Nat.succ_le_of_lt hj)
    rw [Nat.succ_mul] at this
    omega
  rw [writeFrames, if_pos hlt, Nat.mul_comm j C, Nat.mul_add_div (by omega),
    Nat.div_eq_of_lt hc, Nat.mul_add_mod, Nat.mod_eq_of_lt hc, Nat.add_zero]

lemma framesFrom_writeFrames (m : ℕ → α) (C n : ℕ) (v : ℕ → ℕ → α) :
    framesFrom (writeFrames m C n v) C n
      = (List.range n).map fun j => (List.range C).map (v j) :=
  List.map_congr_left fun _ hj => frameAt_writeFrames m C v (List.mem_range.1 hj)

@[simp] lemma length_frameAt (m : ℕ → α) (C i : ℕ) : (frameAt m C i).length = C := by
  simp [frameAt]

@[simp] lemma length_framesFrom (m : ℕ → α) (C n : ℕ) : (framesFrom m C n).length = n := by
  simp [framesFrom]

@[simp] lemma framesFrom_zero (m : ℕ → α) (C : ℕ) : framesFrom m C 0 = [] := rfl

lemma framesFrom_succ (m : ℕ → α) (C n : ℕ) :
    framesFrom m C (n + 1) = framesFrom m C n ++ [frameAt m C n] := by
  simp [framesFrom, List.range_succ]

/-- The frames, sample by sample. -/
lemma flatten_framesFrom (m : ℕ → α) (C n : ℕ) :
    (framesFrom m C n).flatten = (List.range (n * C)).map m := by
  induction n with
  | zero => simp
  | succ n ih =>
      rw [framesFrom_succ, List.flatten_append, ih, Nat.succ_mul, List.range_add, List.map_append,
        List.map_map, List.flatten_singleton]
      rfl

/-- Fewer frames are a prefix of more frames. -/
lemma framesFrom_isPrefix (m : ℕ → α) (C : ℕ) {i n : ℕ} (h : i ≤ n) :
    framesFrom m C i <+: framesFrom m C n := by
  obtain ⟨r, rfl⟩ := Nat.exists_eq_add_of_le h
  rw [framesFrom, framesFrom, List.range_add, List.map_append]
  exact List.prefix_append _ _

end FlatMemory
