import RatioTap.Lib.CheckedLoop

/-!
# Computations decided by a condition

A computation that may throw is `Decided` by `c` when it gives a known result where `c` holds,
and ends with an exception of the allowed kind where it does not.  The conditions of a
sequence of computations are collected by `Decided.bind`, those of a counted loop by
`Decided.forLtE`; at the end `Decided.eq_ok_iff` says exactly when the whole succeeds.
-/

open CheckedLoop

variable {ε α β σ : Type*} {exc : ε → Prop} {m : Except ε α} {c c' : Prop} {a : α} {b : β}

/-- The computation gives `a` where `c` holds, and throws an allowed exception elsewhere. -/
structure Decided (exc : ε → Prop) (m : Except ε α) (c : Prop) (a : α) : Prop where
  ok : c → m = .ok a
  throws : ¬ c → ∃ e, exc e ∧ m = .error e

namespace Decided

/-- A computation that cannot throw. -/
lemma of_eq (h : m = .ok a) : Decided exc m True a where
  ok _ := h
  throws h := absurd trivial h

/-- A check that throws `e` unless it is passed. -/
lemma check {e : ε} {p : Prop} [Decidable p] (he : p → exc e)
    (h : ¬ p → Decided exc m c a) :
    Decided exc (if p then .error e else m) (¬ p ∧ c) a where
  ok hc := by rw [if_neg hc.1, (h hc.1).ok hc.2]
  throws hc := by
    by_cases hp : p
    · exact ⟨e, he hp, if_pos hp⟩
    · rw [if_neg hp]
      exact (h hp).throws fun h => hc ⟨hp, h⟩

/-- The conditions of one computation after another are collected. -/
lemma bind {f : α → Except ε β} (h : Decided exc m c a) (hf : c → Decided exc (f a) c' b) :
    Decided exc (m.bind f) (c ∧ c') b where
  ok hc := by
    rw [h.ok hc.1]
    exact (hf hc.1).ok hc.2
  throws hc := by
    by_cases hm : c
    · rw [h.ok hm]
      exact (hf hm).throws fun h => hc ⟨hm, h⟩
    · obtain ⟨e, he, herr⟩ := h.throws hm
      exact ⟨e, he, by rw [herr]; rfl⟩

/-- The same condition in other words. -/
lemma congr (h : Decided exc m c a) (hc : c ↔ c') : Decided exc m c' a where
  ok h' := h.ok (hc.2 h')
  throws h' := h.throws fun h => h' (hc.1 h)

/-- A counted loop succeeds when every round does. -/
lemma forLtE {n : ℕ} {body : ℕ → σ → Except ε σ} {cond : ℕ → Prop} {f : ℕ → σ}
    (hbody : ∀ i < n, Decided exc (body i (f i)) (cond i) (f (i + 1))) :
    Decided exc (CheckedLoop.forLtE n body (f 0)) (∀ i < n, cond i) (f n) := by
  induction n with
  | zero => exact (of_eq rfl).congr (by simp)
  | succ n ih =>
      refine Decided.congr ((ih fun i hi => hbody i (by omega)).bind fun _ =>
        hbody n (by omega)) ?_
      exact Nat.forall_lt_succ_right.symm

/-- The computation succeeds exactly where the condition holds, and then with that result. -/
lemma eq_ok_iff (h : Decided exc m c a) {x : α} : m = .ok x ↔ c ∧ a = x := by
  constructor
  · intro hm
    by_cases hc : c
    · exact ⟨hc, Except.ok.inj ((h.ok hc).symm.trans hm)⟩
    · obtain ⟨e, -, he⟩ := h.throws hc
      rw [he] at hm
      cases hm
  · rintro ⟨hc, rfl⟩
    exact h.ok hc

/-- An exception that the computation ends with is an allowed one. -/
lemma exc_of_error (h : Decided exc m c a) {e : ε} (he : m = .error e) : exc e ∧ ¬ c := by
  by_cases hc : c
  · rw [h.ok hc] at he
    cases he
  · obtain ⟨e', he', herr⟩ := h.throws hc
    rw [herr] at he
    cases he
    exact ⟨he', hc⟩

end Decided
