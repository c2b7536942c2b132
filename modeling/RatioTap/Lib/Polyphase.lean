import Mathlib

/-!
# Polyphase branches

A filter of `L * T` coefficients, taken apart into `L` branches of `T` coefficients each:
branch `ph` holds the coefficients at the indices that are `ph` modulo `L`.  Filters are
functions on `ℕ`, of which only the values below `L * T` count.

`normalize` divides every coefficient by the sum of its branch.  On a symmetric filter branch
`ph` is branch `L - 1 - ph` reversed, so that partner branches have equal sums
(`branchSum_partner`) and normalizing keeps the symmetry (`Symmetric.normalize`).
-/

namespace Polyphase

open Finset

variable {F : Type*}

/-- The sum of a branch. -/
def branchSum [AddCommMonoid F] (L T : ℕ) (f : ℕ → F) (ph : ℕ) : F :=
  ∑ t ∈ range T, f (t * L + ph)

/-- Every coefficient over the sum of its branch. -/
def normalize [Field F] (L T : ℕ) (f : ℕ → F) : ℕ → F :=
  fun i => f i * (1 / branchSum L T f (i % L))

/-- The first `n` coefficients read the same from either end. -/
def Symmetric (n : ℕ) (f : ℕ → F) : Prop := ∀ i < n, f i = f (n - 1 - i)

variable {L T ph t i : ℕ}

/-! ### Indices and branches -/

lemma index_lt (ht : t < T) (hph : ph < L) : t * L + ph < L * T := by
  have hle := Nat.mul_le_mul_right L (Nat.succ_le_of_lt ht)
  rw [Nat.succ_mul, Nat.mul_comm T] at hle
  omega

lemma div_index (t : ℕ) (hph : ph < L) : (t * L + ph) / L = t := by
  rw [Nat.add_comm, Nat.add_mul_div_right _ _ (by omega), Nat.div_eq_of_lt hph, Nat.zero_add]

lemma mod_index (t : ℕ) (hph : ph < L) : (t * L + ph) % L = ph := by
  rw [Nat.add_comm, Nat.add_mul_mod_self_right, Nat.mod_eq_of_lt hph]

lemma eq_index (hmod : i % L = ph) (hdiv : i / L = t) : i = t * L + ph := by
  rw [← hmod, ← hdiv, Nat.div_add_mod']

/-- The mirrored index is in the partner branch, at the mirrored tap. -/
lemma mirror_index (ht : t < T) (hph : ph < L) :
    L * T - 1 - (t * L + ph) = (T - 1 - t) * L + (L - 1 - ph) := by
  obtain ⟨r, rfl⟩ : ∃ r, T = t + r + 1 := ⟨T - 1 - t, by omega⟩
  have hn : L * (t + r + 1) = t * L + r * L + L := by ring
  rw [hn, show t + r + 1 - 1 - t = r by omega]
  omega

section Sums

variable [AddCommMonoid F] {f g : ℕ → F}

lemma branchSum_congr (h : ∀ i < L * T, f i = g i) (hph : ph < L) :
    branchSum L T f ph = branchSum L T g ph :=
  sum_congr rfl fun _ ht => h _ (index_lt (mem_range.1 ht) hph)

/-- The sum of all coefficients, branch by branch. -/
lemma sum_eq_sum_branchSum (L T : ℕ) (f : ℕ → F) :
    ∑ i ∈ range (L * T), f i = ∑ ph ∈ range L, branchSum L T f ph := by
  simp only [branchSum]
  rw [sum_comm]
  induction T with
  | zero => simp
  | succ T ih => rw [Nat.mul_succ, sum_range_add, ih, sum_range_succ, Nat.mul_comm L T]

/-- Partner branches of a symmetric filter have equal sums. -/
lemma branchSum_partner (h : Symmetric (L * T) f) (hph : ph < L) :
    branchSum L T f (L - 1 - ph) = branchSum L T f ph := by
  rw [branchSum, ← sum_range_reflect]
  refine sum_congr rfl fun t ht => ?_
  have ht' := mem_range.1 ht
  rw [h _ (index_lt ht' hph), mirror_index ht' hph]

end Sums

/-! ### First moments -/

variable [Field F] {f : ℕ → F}

/-- A normalized branch sums to one. -/
lemma branchSum_normalize (hph : ph < L) (hne : branchSum L T f ph ≠ 0) :
    branchSum L T (normalize L T f) ph = 1 := by
  calc branchSum L T (normalize L T f) ph
      = ∑ t ∈ range T, f (t * L + ph) * (1 / branchSum L T f ph) := by
        refine sum_congr rfl fun t _ => ?_
        rw [normalize, mod_index t hph]
    _ = branchSum L T f ph * (1 / branchSum L T f ph) := (sum_mul _ _ _).symm
    _ = 1 := mul_one_div_cancel hne

lemma branchSum_mul_left (a : F) :
    branchSum L T (fun i => a * f i) ph = a * branchSum L T f ph :=
  (mul_sum _ _ _).symm

/-- The gain of the whole filter does not show in the normalized one. -/
lemma normalize_mul_left {a : F} (ha : a ≠ 0) :
    normalize L T (fun i => a * f i) = normalize L T f := by
  ext i
  rw [normalize, normalize, branchSum_mul_left, one_div, one_div, mul_inv, mul_mul_mul_comm,
    mul_inv_cancel₀ ha, one_mul]

lemma sum_normalize (hne : ∀ ph < L, branchSum L T f ph ≠ 0) :
    ∑ i ∈ range (L * T), normalize L T f i = L := by
  rw [sum_eq_sum_branchSum, sum_congr rfl fun ph hph =>
    branchSum_normalize (mem_range.1 hph) (hne ph (mem_range.1 hph)), sum_const, card_range,
    nsmul_one]

/-- Normalizing keeps a symmetric filter symmetric. -/
lemma Symmetric.normalize (h : Symmetric (L * T) f) : Symmetric (L * T) (normalize L T f) := by
  intro i hi
  have hL : 0 < L := Nat.pos_of_mul_pos_right (Nat.zero_lt_of_lt hi)
  obtain ⟨t, ph, ht, hph, rfl⟩ : ∃ t ph, t < T ∧ ph < L ∧ i = t * L + ph :=
    ⟨i / L, i % L, Nat.div_lt_of_lt_mul hi, Nat.mod_lt i hL, (Nat.div_add_mod' i L).symm⟩
  have hsym := h _ hi
  rw [mirror_index ht hph] at hsym ⊢
  rw [Polyphase.normalize, Polyphase.normalize, mod_index t hph, mod_index _ (by omega), hsym,
    branchSum_partner h hph]

end Polyphase
