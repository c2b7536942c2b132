import Mathlib

/-!
# Sliding histories

A buffer of fixed capacity that keeps the newest elements of an unbounded sequence
contiguous: elements are written at the end index, and when the end reaches the capacity
the newest `T - 1` of them are moved to the front first.  `run` is the history after a
sequence of pushes, and `Holds` the representation invariant: the `T` cells before the end
are the last `T` elements of the sequence.

Sliding keeps only `T - 1` elements, so between the move and the write that follows it the
invariant does not hold; `Holds.push` is therefore stated for the two together.
-/

namespace SlidingHistory

variable {α : Type*}

/-- Copy `n` elements from index `src` to index `dst`, as if through a temporary: the two
ranges may overlap. -/
def memmove (xs : List α) (dst src n : ℕ) : List α :=
  xs.take dst ++ (xs.drop src).take n ++ xs.drop (dst + n)

/-- Of what stands before `ys`, the last `n` elements decide the last `n` elements of all. -/
lemma rtake_append_rtake (n : ℕ) (xs ys : List α) :
    (xs.rtake n ++ ys).rtake n = (xs ++ ys).rtake n := by
  rw [List.rtake_eq_reverse_take_reverse, List.rtake_eq_reverse_take_reverse,
    List.rtake_eq_reverse_take_reverse, List.reverse_append, List.reverse_append,
    List.reverse_reverse, List.take_append, List.take_append, List.take_take,
    Nat.min_eq_left (Nat.sub_le _ _)]

lemma rtake_append_of_length {n : ℕ} (xs : List α) {ys : List α} (h : ys.length = n) :
    (xs ++ ys).rtake n = ys := by
  rw [List.rtake, List.length_append, h, Nat.add_sub_cancel, List.drop_left]

/-- A buffer and the index one past its newest element. -/
structure History (α : Type*) where
  /-- The cells. -/
  buf : List α
  /-- One past the newest element. -/
  fin : ℕ

/-- Move the newest `keep` elements to the front. -/
def slide (keep : ℕ) (h : History α) : History α :=
  ⟨memmove h.buf 0 (h.fin - keep) keep, keep⟩

/-- Make room when the buffer of `cap` cells is full, then write `a` at the end. -/
def push (T cap : ℕ) (h : History α) (a : α) : History α :=
  let h := if h.fin = cap then slide (T - 1) h else h
  ⟨h.buf.set h.fin a, h.fin + 1⟩

/-- The history filled with `z`, of which `T` elements count as pushed. -/
def init (T cap : ℕ) (z : α) : History α := ⟨List.replicate cap z, T⟩

/-- The history after pushing `xs`. -/
def run (T cap : ℕ) (z : α) (xs : List α) : History α := xs.foldl (push T cap) (init T cap z)

/-- The end index after `n` pushes, which no element influences. -/
def finAfter (T cap : ℕ) : ℕ → ℕ
  | 0 => T
  | n + 1 => (if finAfter T cap n = cap then T - 1 else finAfter T cap n) + 1

section Moving

variable {xs : List α} {src n : ℕ}

lemma length_memmove_zero (h : src + n ≤ xs.length) :
    (memmove xs 0 src n).length = xs.length := by
  simp only [memmove, List.take_zero, List.nil_append, List.length_append, List.length_take,
    List.length_drop]
  omega

lemma getElem?_memmove_zero (h : src + n ≤ xs.length) {i : ℕ} (hi : i < n) :
    (memmove xs 0 src n)[i]? = xs[src + i]? := by
  have hlen : i < ((xs.drop src).take n).length := by
    rw [List.length_take, List.length_drop]
    omega
  simp only [memmove, List.take_zero, List.nil_append]
  rw [List.getElem?_append_left hlen, List.getElem?_take_of_lt hi, List.getElem?_drop]

end Moving

@[simp] lemma run_nil (T cap : ℕ) (z : α) : run T cap z [] = init T cap z := rfl

lemma run_concat (T cap : ℕ) (z : α) (xs : List α) (a : α) :
    run T cap z (xs ++ [a]) = push T cap (run T cap z xs) a := by
  simp [run, List.foldl_append]

lemma fin_run (T cap : ℕ) (z : α) (xs : List α) :
    (run T cap z xs).fin = finAfter T cap xs.length := by
  induction xs using List.reverseRecOn with
  | nil => rfl
  | append_singleton xs a ih =>
      rw [run_concat, List.length_append, List.length_singleton, finAfter, ← ih, push]
      split <;> rfl

/-- The history represents the sequence `xs`: the `T` cells before the end are its last
`T` elements. -/
structure Holds (T cap : ℕ) (h : History α) (xs : List α) : Prop where
  length_buf : h.buf.length = cap
  le_fin : T ≤ h.fin
  fin_le : h.fin ≤ cap
  le_length : T ≤ xs.length
  cell : ∀ i < T, h.buf[h.fin - T + i]? = xs[xs.length - T + i]?

namespace Holds

variable {T cap : ℕ} {h : History α} {xs : List α}

lemma init (hT : T ≤ cap) (z : α) : Holds T cap (init T cap z) (List.replicate T z) where
  length_buf := by simp [SlidingHistory.init]
  le_fin := le_rfl
  fin_le := hT
  le_length := by simp
  cell i hi := by
    simp only [SlidingHistory.init, List.length_replicate, Nat.sub_self, Nat.zero_add]
    rw [List.getElem?_replicate_of_lt (by omega), List.getElem?_replicate_of_lt hi]

/-- Writing at the end appends, whenever the newest `T - 1` elements stand before it. -/
lemma write {k : ℕ} (hlen : h.buf.length = cap) (hk : k + 1 ≤ h.fin + 1) (hfin : h.fin < cap)
    (hxs : k + 1 ≤ xs.length + 1)
    (hcell : ∀ i < k, h.buf[h.fin - k + i]? = xs[xs.length - k + i]?) (a : α) :
    Holds (k + 1) cap ⟨h.buf.set h.fin a, h.fin + 1⟩ (xs ++ [a]) where
  length_buf := by simpa using hlen
  le_fin := hk
  fin_le := hfin
  le_length := by simpa using hxs
  cell i hi := by
    simp only [List.length_append, List.length_singleton]
    rw [show h.fin + 1 - (k + 1) + i = h.fin - k + i by omega,
      show xs.length + 1 - (k + 1) + i = xs.length - k + i by omega]
    rcases Nat.lt_succ_iff_lt_or_eq.1 hi with hik | rfl
    · rw [List.getElem?_set_ne (by omega), List.getElem?_append_left (by omega)]
      exact hcell i hik
    · rw [show h.fin - i + i = h.fin by omega, show xs.length - i + i = xs.length by omega,
        List.getElem?_set_self (by omega), List.getElem?_concat_length]

/-- Pushing appends to the represented sequence. -/
lemma push (hh : Holds T cap h xs) (hT : 0 < T) (hcap : T ≤ cap) (a : α) :
    Holds T cap (push T cap h a) (xs ++ [a]) := by
  obtain ⟨k, rfl⟩ : ∃ k, T = k + 1 := ⟨T - 1, by omega⟩
  obtain ⟨hlen, hle, hfin, hxs, hcell⟩ := hh
  have hcell' : ∀ i < k, h.buf[h.fin - k + i]? = xs[xs.length - k + i]? := by
    intro i hi
    have := hcell (i + 1) (by omega)
    rwa [show h.fin - (k + 1) + (i + 1) = h.fin - k + i by omega,
      show xs.length - (k + 1) + (i + 1) = xs.length - k + i by omega] at this
  rw [SlidingHistory.push, Nat.add_sub_cancel]
  split
  · next hfull =>
    -- the slide leaves the newest `k` elements in front, one short of the invariant
    refine write ?_ (by simp [slide]) (by simp only [slide]; omega) (by omega) ?_ a
    · rw [slide, length_memmove_zero (by omega), hlen]
    · intro i hi
      simp only [slide, Nat.sub_self, Nat.zero_add]
      rw [getElem?_memmove_zero (by omega) hi]
      exact hcell' i hi
  · exact write hlen (by omega) (by omega) (by omega) hcell' a

/-- The history after any number of pushes. -/
lemma run (hT : 0 < T) (hcap : T ≤ cap) (z : α) (xs : List α) :
    Holds T cap (run T cap z xs) (List.replicate T z ++ xs) := by
  induction xs using List.reverseRecOn with
  | nil => simpa using Holds.init hcap z
  | append_singleton xs a ih =>
      rw [run_concat, ← List.append_assoc]
      exact ih.push hT hcap a

/-- The window before the end, as a list. -/
lemma window (hh : Holds T cap h xs) : (h.buf.drop (h.fin - T)).take T = xs.rtake T := by
  apply List.ext_getElem?
  intro i
  rw [List.rtake, List.getElem?_drop]
  rcases Nat.lt_or_ge i T with hi | hi
  · rw [List.getElem?_take_of_lt hi, List.getElem?_drop]
    exact hh.cell i hi
  · rw [List.getElem?_take_eq_none hi, List.getElem?_eq_none]
    have := hh.le_length
    omega

end Holds

end SlidingHistory
