import RatioTap.Lib.FlatMemory

/-!
# Counted loops that may fail

`forLtE n body s` runs `body 0`, …, `body (n - 1)` on the state `s` in turn, until one of them
fails.  The failures of interest are accesses of a vector outside its bounds (`readAt`,
`writeAt`).

A loop whose rounds all succeed is the loop without failures (`forLtE_eq_forLt`, `forLtE_ok`).
A loop whose rounds each fail with `e` or keep an invariant does so itself (`FailsOr`), and
when moreover some round is bound to fail, it fails (`forLtE_error`).
-/

namespace CheckedLoop

open FlatMemory

variable {α σ ε : Type*}

/-- Run the loop body on `0`, …, `n - 1` in turn, until it fails. -/
def forLtE : ℕ → (ℕ → σ → Except ε σ) → σ → Except ε σ
  | 0, _, s => .ok s
  | n + 1, body, s => (forLtE n body s).bind (body n)

/-- Read a cell, or fail with `e` outside the vector. -/
def readAt (e : ε) (xs : List α) (i : ℕ) : Except ε α :=
  match xs[i]? with
  | some a => .ok a
  | none => .error e

/-- Write a cell, or fail with `e` outside the vector. -/
def writeAt (e : ε) (xs : List α) (i : ℕ) (a : α) : Except ε (List α) :=
  if i < xs.length then .ok (xs.set i a) else .error e

/-- The computation fails with `e`, or its result satisfies `Q`. -/
def FailsOr (e : ε) (Q : α → Prop) (m : Except ε α) : Prop :=
  m = .error e ∨ ∃ a, m = .ok a ∧ Q a

section FailsOr

variable {β : Type*} {e : ε} {P : α → Prop} {Q : β → Prop} {m : Except ε α}

lemma failsOr_ok {a : α} (h : P a) : FailsOr e P (.ok a) := .inr ⟨a, rfl, h⟩

/-- The rule for one computation after another. -/
lemma FailsOr.bind {f : α → Except ε β} (hm : FailsOr e P m)
    (hf : ∀ a, P a → FailsOr e Q (f a)) : FailsOr e Q (m.bind f) := by
  rcases hm with rfl | ⟨a, rfl, ha⟩
  · exact .inl rfl
  · exact hf a ha

end FailsOr

section Accesses

variable {e : ε} {xs : List α} {i : ℕ}

lemma readAt_eq (h : i < xs.length) (d : α) : readAt e xs i = .ok (xs.getD i d) := by
  rw [readAt, List.getElem?_eq_getElem h, List.getD_eq_getElem _ _ h]

lemma readAt_error (h : xs.length ≤ i) : readAt e xs i = .error e := by
  rw [readAt, List.getElem?_eq_none h]

lemma failsOr_readAt : FailsOr e (fun _ => True) (readAt e xs i) := by
  unfold readAt
  cases xs[i]? with
  | none => exact .inl rfl
  | some a => exact failsOr_ok trivial

lemma writeAt_eq (h : i < xs.length) (a : α) : writeAt e xs i a = .ok (xs.set i a) := if_pos h

/-- A write fails or leaves a vector of the same length. -/
lemma failsOr_writeAt (a : α) :
    FailsOr e (fun ys => ys.length = xs.length) (writeAt e xs i a) := by
  rcases Nat.lt_or_ge i xs.length with h | h
  · exact .inr ⟨_, writeAt_eq h a, List.length_set⟩
  · exact .inl (if_neg (Nat.not_lt.2 h))

/-- Rewriting one more cell of a vector that is being rewritten cell by cell. -/
lemma set_mapIdx {f g : ℕ → α → α} (hi : i < xs.length) (hne : ∀ j ≠ i, f j = g j) :
    (xs.mapIdx f).set i (g i xs[i]) = xs.mapIdx g := by
  ext1 j
  rcases eq_or_ne j i with rfl | hj
  · rw [List.getElem?_set_self (by rwa [List.length_mapIdx]), List.getElem?_mapIdx,
      List.getElem?_eq_getElem hi]
    rfl
  · rw [List.getElem?_set_ne hj.symm, List.getElem?_mapIdx, List.getElem?_mapIdx, hne j hj]

lemma getD_mapIdx (hi : i < xs.length) (f : ℕ → α → α) (d : α) :
    (xs.mapIdx f).getD i d = f i xs[i] := by
  rw [List.getD_eq_getElem _ _ (by rwa [List.length_mapIdx]), List.getElem_mapIdx]

end Accesses

section Loops

variable {P : ℕ → σ → Prop} {n : ℕ} {body : ℕ → σ → Except ε σ} {s : σ}

/-- When every round succeeds and keeps the invariant, the loop does. -/
lemma forLtE_ok (h0 : P 0 s)
    (hstep : ∀ i < n, ∀ s, P i s → ∃ t, body i s = .ok t ∧ P (i + 1) t) :
    ∃ t, forLtE n body s = .ok t ∧ P n t := by
  induction n with
  | zero => exact ⟨s, rfl, h0⟩
  | succ n ih =>
      obtain ⟨t, ht, hP⟩ := ih fun i hi => hstep i (by omega)
      obtain ⟨u, hu, hQ⟩ := hstep n (by omega) t hP
      refine ⟨u, ?_, hQ⟩
      rw [forLtE, ht]
      exact hu

/-- When every round is that of a loop that cannot fail, the loop is that loop. -/
lemma forLtE_eq_forLt {f : ℕ → σ → σ} (h0 : P 0 s)
    (hstep : ∀ i < n, ∀ s, P i s → body i s = .ok (f i s) ∧ P (i + 1) (f i s)) :
    forLtE n body s = .ok (forLt n f s) ∧ P n (forLt n f s) := by
  induction n with
  | zero => exact ⟨rfl, h0⟩
  | succ n ih =>
      obtain ⟨hrun, hP⟩ := ih fun i hi => hstep i (by omega)
      obtain ⟨hbody, hQ⟩ := hstep n (by omega) _ hP
      refine ⟨?_, hQ⟩
      rw [forLtE, hrun]
      exact hbody

variable {e : ε}

/-- When every round fails with `e` or keeps the invariant, the loop does. -/
lemma failsOr_forLtE (h0 : P 0 s)
    (hstep : ∀ i < n, ∀ s, P i s → FailsOr e (P (i + 1)) (body i s)) :
    FailsOr e (P n) (forLtE n body s) := by
  induction n with
  | zero => exact failsOr_ok h0
  | succ n ih =>
      have hinit : FailsOr e (P n) (forLtE n body s) := ih fun i hi => hstep i (by omega)
      exact hinit.bind (hstep n (by omega))

/-- When moreover some round cannot but fail, so does the loop. -/
lemma forLtE_error (h0 : P 0 s)
    (hstep : ∀ i < n, ∀ s, P i s → FailsOr e (P (i + 1)) (body i s))
    {j : ℕ} (hj : j < n)
    (hfail : ∀ s, P j s → body j s = .error e) :
    forLtE n body s = .error e := by
  induction n with
  | zero => omega
  | succ n ih =>
      rw [forLtE]
      rcases Nat.lt_succ_iff_lt_or_eq.1 hj with hjn | rfl
      · rw [ih (fun i hi => hstep i (by omega)) hjn]
        rfl
      · have hinit : FailsOr e (P j) (forLtE j body s) :=
          failsOr_forLtE h0 fun i hi => hstep i (by omega)
        rcases hinit with herr | ⟨t, ht, hP⟩
        · rw [herr]
          rfl
        · rw [ht]
          exact hfail t hP

end Loops

end CheckedLoop
