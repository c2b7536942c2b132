import RatioTap.Lib.FloorClock
import RatioTap.Lib.Word
import RatioTap.Design

/-!
# The schedule of one direction

`schedule.h`: the table of one superblock, which says for each of its `L` output frames
which polyphase branch to dot and how many input frames to consume afterwards, and the
closed form of the input need, `framesNeeded`.  The table is the floor clock of ratio
`M : L` read off over one period (`kSchedule_mod`).
-/

namespace RatioTap

open FloorClock

/-- `schedule_entry`: one output frame's step. -/
structure ScheduleEntry where
  /-- The polyphase branch, a `uint16_t`. -/
  phase : ℕ
  /-- The input frames consumed after this output, a `uint8_t`. -/
  advance : ℕ
deriving DecidableEq, Repr

/-- `make_schedule<D>()`: the entries are narrowed to 16 and to 8 bits. -/
def makeSchedule (D : Direction) : List ScheduleEntry :=
  (List.range D.kPhases).map fun n =>
    { phase := n * D.kDecimation % D.kPhases % 2 ^ 16
      advance := ((n + 1) * D.kDecimation / D.kPhases - n * D.kDecimation / D.kPhases) % 2 ^ 8 }

/-- `k_schedule<D>[pos]`.  Outside the array there is no entry to read, and the value given
here is never used. -/
def kSchedule (D : Direction) (pos : ℕ) : ScheduleEntry := (makeSchedule D).getD pos ⟨0, 1⟩

/-- `frames_needed<D>(pos, out_frames)`, in 64-bit arithmetic or exactly. -/
def framesNeeded (A : Word) (D : Direction) (pos out : ℕ) : ℕ :=
  let l := D.kPhases
  let m := D.kDecimation
  let p := pos % l
  A.sub (A.mul (A.add p out) m / l) (A.mul p m / l)

namespace Direction

variable (D : Direction)

/-- Output `n` reads the window that ends at input frame `tick n`. -/
abbrev tick (n : ℕ) : ℕ := FloorClock.tick D.kPhases D.kDecimation n

/-- The advance of output `n`. -/
abbrev gap (n : ℕ) : ℕ := FloorClock.gap D.kPhases D.kDecimation n

/-- The outputs that `x` input frames allow, `⌈x * L / M⌉`. -/
abbrev due (x : ℕ) : ℕ := FloorClock.due D.kPhases D.kDecimation x

/-- The largest advance of the direction. -/
def maxAdvance : Direction → ℕ
  | upTo48k => 1
  | downTo44k1 => 2

lemma maxAdvance_le : D.maxAdvance ≤ 2 := by cases D <;> decide

@[simp] lemma tick_zero : D.tick 0 = 0 := FloorClock.tick_zero

lemma tick_mono {m n : ℕ} (h : m ≤ n) : D.tick m ≤ D.tick n := FloorClock.tick_mono h

lemma tick_succ (n : ℕ) : D.tick (n + 1) = D.tick n + D.gap n := FloorClock.tick_succ n

lemma tick_add_period (q r : ℕ) :
    D.tick (q * D.kPhases + r) = q * D.kDecimation + D.tick r :=
  FloorClock.tick_add_period D.kPhases_pos q r

lemma tick_add_mod (n r : ℕ) :
    D.tick (n + r) + D.tick (n % D.kPhases) = D.tick n + D.tick (n % D.kPhases + r) :=
  FloorClock.tick_add_mod D.kPhases_pos n r

lemma tick_lt_tick_add_two (n : ℕ) : D.tick n < D.tick (n + 1 + 1) :=
  FloorClock.tick_lt_tick_add_two D.kPhases_pos (by cases D <;> decide) n

lemma due_le_iff {x n : ℕ} : D.due x ≤ n ↔ x ≤ D.tick n :=
  FloorClock.due_le_iff D.kPhases_pos D.kDecimation_pos

lemma lt_due_iff {x n : ℕ} : n < D.due x ↔ D.tick n < x :=
  FloorClock.lt_due_iff D.kPhases_pos D.kDecimation_pos

lemma due_add_le (x y : ℕ) :
    D.due (x + y) ≤ D.due x + y * D.kPhases ⌈/⌉ D.kDecimation :=
  FloorClock.due_add_le D.kPhases_pos D.kDecimation_pos x y

lemma le_due_add (x y : ℕ) :
    D.due x + y * D.kPhases / D.kDecimation ≤ D.due (x + y) :=
  FloorClock.le_due_add D.kPhases_pos D.kDecimation_pos x y

lemma due_mono {x y : ℕ} (h : x ≤ y) : D.due x ≤ D.due y :=
  FloorClock.due_mono D.kPhases_pos D.kDecimation_pos h

variable {D}

lemma due_eq_of {x n : ℕ} (hle : x ≤ D.tick n) (hlt : n = 0 ∨ D.tick (n - 1) < x) :
    D.due x = n :=
  FloorClock.due_eq_of D.kPhases_pos D.kDecimation_pos hle hlt

lemma due_eq_div {x : ℕ} (hx : 0 < x) :
    D.due x = (x * D.kPhases - 1) / D.kDecimation + 1 :=
  FloorClock.due_eq_div D.kDecimation_pos (Nat.mul_pos hx D.kPhases_pos)

end Direction

lemma kSchedule_of_lt {D : Direction} {n : ℕ} (hn : n < D.kPhases) :
    kSchedule D n = ⟨n * D.kDecimation % D.kPhases, D.gap n⟩ := by
  have hgap : D.gap n < 2 ^ 8 := by
    have := gap_le (M := D.kDecimation) D.kPhases_pos n
    cases D <;> exact this.trans_lt (by decide)
  have hphase : n * D.kDecimation % D.kPhases < 2 ^ 16 := by
    have := Nat.mod_lt (n * D.kDecimation) D.kPhases_pos
    have := D.kPhases_le
    omega
  rw [kSchedule, makeSchedule, List.getD_eq_getElem _ _ (by simpa using hn)]
  simp only [List.getElem_map, List.getElem_range, ScheduleEntry.mk.injEq]
  exact ⟨Nat.mod_eq_of_lt hphase, Nat.mod_eq_of_lt hgap⟩

/-- `maxAdvance` is the largest advance in the table. -/
theorem maxAdvance_isGreatest (D : Direction) :
    IsGreatest {a | ∃ pos < D.kPhases, (kSchedule D pos).advance = a} D.maxAdvance := by
  constructor
  · cases D with
    | upTo48k => exact ⟨1, by decide, by decide⟩
    | downTo44k1 => exact ⟨11, by decide, by decide⟩
  · rintro a ⟨pos, hpos, rfl⟩
    rw [kSchedule_of_lt hpos]
    have := gap_le (M := D.kDecimation) D.kPhases_pos pos
    cases D <;> exact this

/-- The cyclic table, read at a step of any size, is the floor clock of the direction. -/
lemma kSchedule_mod (D : Direction) (n : ℕ) :
    kSchedule D (n % D.kPhases) = ⟨n * D.kDecimation % D.kPhases, D.gap n⟩ := by
  rw [kSchedule_of_lt (Nat.mod_lt _ D.kPhases_pos), Nat.mod_mul_mod, Direction.gap,
    gap_mod D.kPhases_pos]

/-- Every advance is in the table. -/
lemma Direction.gap_le_maxAdvance (D : Direction) (n : ℕ) : D.gap n ≤ D.maxAdvance :=
  (maxAdvance_isGreatest D).2 ⟨n % D.kPhases, Nat.mod_lt _ D.kPhases_pos, by rw [kSchedule_mod]⟩

end RatioTap
