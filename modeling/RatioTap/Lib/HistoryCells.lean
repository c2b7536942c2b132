import RatioTap.Lib.FloorClock
import RatioTap.Lib.SlidingHistory

/-!
# The cells of a sliding history

What every cell of a sliding history holds, not only the ones before the end.  A buffer with
`s` cells to spare slides once in `s + 1` pushes, so its end goes round with that period
(`finAfter_eq`).  The buffer never holds more than its `T + s` newest elements: before the end
they stand in a row, and behind it are left-overs of the period before (`getElem?_run`).
-/

namespace SlidingHistory

variable {α : Type*} {T s n i j r N : ℕ}

/-- The last `N` elements, with `z` before the first. -/
def recent (N : ℕ) (z : α) (xs : List α) : List α := (List.replicate N z ++ xs).rtake N

/-- Which of the `T + s` newest elements cell `i` holds, `r` pushes after a slide. -/
def cellIndex (T s r i : ℕ) : ℕ := if i < T + r then s - r + i else i - r - 1

@[simp] lemma length_recent (N : ℕ) (z : α) (xs : List α) : (recent N z xs).length = N := by
  rw [recent, List.rtake, List.length_drop, List.length_append, List.length_replicate]
  omega

@[simp] lemma recent_nil (N : ℕ) (z : α) : recent N z [] = List.replicate N z := by
  rw [recent, List.append_nil, List.rtake, List.length_replicate, Nat.sub_self, List.drop_zero]

/-- One more element moves the others on. -/
lemma recent_concat (hN : 0 < N) (z : α) (xs : List α) (a : α) :
    recent N z (xs ++ [a]) = (recent N z xs).drop 1 ++ [a] := by
  have hle : 1 ≤ (recent N z xs).length := by rwa [length_recent]
  rw [recent, ← List.append_assoc, ← rtake_append_rtake]
  change (recent N z xs ++ [a]).rtake N = _
  rw [List.rtake, List.length_append, length_recent, List.length_singleton,
    Nat.add_sub_cancel_left, List.drop_append_of_le_length hle]

lemma getD_recent_concat_last (hN : 0 < N) (hj : j + 1 = N) (z : α) (xs : List α) (a : α) :
    (recent N z (xs ++ [a])).getD j z = a := by
  have hlen : ((recent N z xs).drop 1).length = j := by
    rw [List.length_drop, length_recent]
    omega
  rw [recent_concat hN, List.getD_append_right _ _ _ _ hlen.le, hlen, Nat.sub_self]
  rfl

lemma getD_recent_concat (hj : j + 1 < N) (z : α) (xs : List α) (a : α) :
    (recent N z (xs ++ [a])).getD j z = (recent N z xs).getD (j + 1) z := by
  have hlen : j < ((recent N z xs).drop 1).length := by
    rw [List.length_drop, length_recent]
    omega
  rw [recent_concat (by omega), List.getD_append _ _ _ _ hlen, List.getD_eq_getElem?_getD,
    List.getElem?_drop, Nat.add_comm 1 j, ← List.getD_eq_getElem?_getD]

/-- Moving elements to the front leaves the cells behind them alone. -/
lemma getElem?_memmove_zero_of_le {xs : List α} {src : ℕ} (h : src + n ≤ xs.length) (hi : n ≤ i) :
    (memmove xs 0 src n)[i]? = xs[i]? := by
  have hlen : ((xs.drop src).take n).length = n := by
    rw [List.length_take, List.length_drop]
    omega
  rw [memmove, List.take_zero, List.nil_append, List.getElem?_append_right (hlen.le.trans hi),
    hlen, List.getElem?_drop, Nat.zero_add, Nat.add_sub_cancel' hi]

/-- The cells after a push that slides. -/
lemma getElem?_push_of_full {cap : ℕ} {h : History α} (hT : 0 < T) (hcap : T ≤ cap)
    (hlen : h.buf.length = cap) (hfin : h.fin = cap) (a : α) (i : ℕ) :
    (push T cap h a).buf[i]? = if i + 1 < T then h.buf[cap - (T - 1) + i]?
      else if i + 1 = T then some a else h.buf[i]? := by
  have hroom : cap - (T - 1) + (T - 1) ≤ h.buf.length := by omega
  have hin : T - 1 < (memmove h.buf 0 (cap - (T - 1)) (T - 1)).length := by
    rw [length_memmove_zero hroom]
    omega
  rw [push, if_pos hfin, slide, hfin]
  dsimp only
  split_ifs
  · rw [List.getElem?_set_ne (by omega), getElem?_memmove_zero hroom (by omega)]
  · rw [show i = T - 1 by omega, List.getElem?_set_self hin]
  · rw [List.getElem?_set_ne (by omega), getElem?_memmove_zero_of_le hroom (by omega)]

/-- The cells after a push that finds room. -/
lemma getElem?_push_of_room {cap : ℕ} {h : History α} (hfin : h.fin ≠ cap)
    (hlen : h.fin < h.buf.length) (a : α) (i : ℕ) :
    (push T cap h a).buf[i]? = if i = h.fin then some a else h.buf[i]? := by
  rw [push, if_neg hfin]
  dsimp only
  split_ifs with heq
  · rw [heq, List.getElem?_set_self hlen]
  · rw [List.getElem?_set_ne (Ne.symm heq)]

lemma finAfter_eq (hT : 0 < T) (s n : ℕ) : finAfter T (T + s) n = T + n % (s + 1) := by
  induction n with
  | zero => rw [finAfter, Nat.zero_mod, Nat.add_zero]
  | succ n ih =>
      have hnext := FloorClock.succ_mod_eq (L := s + 1) s.succ_pos n
      rw [finAfter, ih, ← hnext]
      split_ifs <;> omega

/-- What the cells hold. -/
theorem getElem?_run (hT : 0 < T) (z : α) (xs : List α) (hi : i < T + s) :
    (run T (T + s) z xs).buf[i]?
      = some ((recent (T + s) z xs).getD (cellIndex T s (xs.length % (s + 1)) i) z) := by
  induction xs using List.reverseRecOn generalizing i with
  | nil =>
      have hin : cellIndex T s 0 i < T + s := by
        rw [cellIndex]
        split <;> omega
      rw [run_nil, init, List.getElem?_replicate_of_lt hi, List.length_nil, Nat.zero_mod,
        recent_nil, List.getD_replicate _ hin]
  | append_singleton xs a ih =>
      obtain ⟨r, hr⟩ : ∃ r, r = xs.length % (s + 1) := ⟨_, rfl⟩
      have hmod : r < s + 1 := hr ▸ Nat.mod_lt _ s.succ_pos
      have hnext : (if r + 1 = s + 1 then 0 else r + 1) = (xs.length + 1) % (s + 1) := by
        rw [hr]
        exact FloorClock.succ_mod_eq s.succ_pos _
      have hlen := (Holds.run hT (Nat.le_add_right T s) z xs).length_buf
      have hfin : (run T (T + s) z xs).fin = T + r := by rw [fin_run, finAfter_eq hT, hr]
      rw [← hr] at ih
      -- an element that stays is one further from the newest
      have hold {c j : ℕ} (hc : c < T + s) (hcell : cellIndex T s r c = j + 1)
          (hj : j + 1 < T + s) :
          (run T (T + s) z xs).buf[c]? = some ((recent (T + s) z (xs ++ [a])).getD j z) := by
        rw [ih hc, getD_recent_concat hj, hcell]
      have hnew {j : ℕ} (hj : j + 1 = T + s) :
          (recent (T + s) z (xs ++ [a])).getD j z = a :=
        getD_recent_concat_last (by omega) hj z xs a
      rw [run_concat, List.length_append, List.length_singleton]
      by_cases hfull : r = s
      · rw [if_pos (by omega)] at hnext
        rw [getElem?_push_of_full hT (Nat.le_add_right T s) hlen (hfin.trans (by rw [hfull])),
          ← hnext]
        split_ifs
        · refine hold (by omega) ?_ ?_ <;> unfold cellIndex <;> split_ifs <;> omega
        · rw [hnew]
          unfold cellIndex
          split_ifs <;> omega
        · refine hold hi ?_ ?_ <;> unfold cellIndex <;> split_ifs <;> omega
      · rw [if_neg (by omega)] at hnext
        rw [getElem?_push_of_room (by omega) (by omega), hfin, ← hnext]
        split_ifs
        · rw [hnew]
          unfold cellIndex
          split_ifs <;> omega
        · refine hold hi ?_ ?_ <;> unfold cellIndex <;> split_ifs <;> omega

end SlidingHistory
