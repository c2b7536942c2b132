import RatioTap.Lib.CheckedLoop
import RatioTap.Lib.Polyphase
import RatioTap.FullTable

/-!
# The prototype

`design_prototype` of `design.h`, from its check of the profile to the normalization of the
branches.  The filter designer behind it belongs to another library: it fills the vector that
it is given.

The loops index the vector without a check, so they are modelled as loops that fail outside
it (`normalize`), with the index arithmetic as a parameter.  On a vector as long as they assume
they succeed, and scale every coefficient once, by the reciprocal of the sum of its own branch
(`normalize_eq`): that the branches before have already been scaled in place does not show in
that sum.  Over a field this makes every branch sum one, and it keeps a symmetric prototype
symmetric, because partner branches have equal sums (`branch_normalization`).
-/

namespace RatioTap

open FlatMemory CheckedLoop Polyphase

/-- How a construction ends early: with an exception, or with an access outside a vector,
which the source does not check. -/
inductive Failure where
  | invalidArgument (what : String)
  | lengthError
  | badAlloc
  | outOfRange
deriving DecidableEq, Repr

/-- The check at the head of `design_prototype<D>`. -/
def Profile.isBad (p : Profile) (D : Direction) : Bool :=
  !(p.passbandHz.isFinite && p.stopbandAttenDb.isFinite) || p.passbandHz.le (.finite 0)
    || D.kStopbandEdgeHz.le p.passbandHz || p.stopbandAttenDb.le (.finite 0)
    || decide (p.taps D < 4)

/-- The profiles that the header names. -/
def Profile.canonical : List Profile := [economy, superEconomy, balanced, transparent]

/-- Every canonical profile passes the check, in either direction. -/
theorem Profile.canonical_not_isBad (D : Direction) : ∀ p ∈ canonical, p.isBad D = false := by
  cases D <;> decide

namespace Prototype

variable {F : Type} {A : Word} {D : Direction} {taps ph t i : ℕ} {h : List F}

/-! ### The loops -/

/-- `t * k_phases + ph`. -/
def branchIndex (A : Word) (D : Direction) (t ph : ℕ) : ℕ := A.add (A.mul t D.kPhases) ph

/-- `sum += h[t * k_phases + ph]` for all `t`. -/
def branchSum [Zero F] [Add F] (A : Word) (D : Direction) (taps : ℕ) (h : List F) (ph : ℕ) :
    Except Failure F :=
  forLtE taps
    (fun t sum => do
      let x ← readAt .outOfRange h (branchIndex A D t ph)
      pure (sum + x)) 0

/-- `h[t * k_phases + ph] *= gain` for all `t`. -/
def scaleBranch [Mul F] (A : Word) (D : Direction) (taps ph : ℕ) (gain : F) (h : List F) :
    Except Failure (List F) :=
  forLtE taps
    (fun t h => do
      let x ← readAt .outOfRange h (branchIndex A D t ph)
      writeAt .outOfRange h (branchIndex A D t ph) (x * gain)) h

/-- The body of the normalization loop. -/
def normalizeBranch [Zero F] [One F] [Add F] [Mul F] [Div F] (A : Word) (D : Direction)
    (taps ph : ℕ) (h : List F) : Except Failure (List F) := do
  let sum ← branchSum A D taps h ph
  let gain := 1 / sum
  scaleBranch A D taps ph gain h

/-- The per-branch normalization, in place. -/
def normalize [Zero F] [One F] [Add F] [Mul F] [Div F] (A : Word) (D : Direction) (taps : ℕ)
    (h : List F) : Except Failure (List F) :=
  forLtE D.kPhases (normalizeBranch A D taps) h

/-! ### Their effect -/

/-- The sum of a branch, in the order of the loop. -/
def branchTotal [Zero F] [Add F] (D : Direction) (taps : ℕ) (h : List F) (ph : ℕ) : F :=
  forLt taps (fun t sum => sum + h.getD (t * D.kPhases + ph) 0) 0

/-- The gain of a branch. -/
def branchGain [Zero F] [One F] [Add F] [Div F] (D : Direction) (taps : ℕ) (h : List F)
    (ph : ℕ) : F := 1 / branchTotal D taps h ph

lemma branchIndex_eq (hA : A.Fits (D.kPhases * taps)) (ht : t < taps) (hph : ph < D.kPhases) :
    branchIndex A D t ph = t * D.kPhases + ph := by
  have hlt := index_lt ht hph
  rw [branchIndex, Word.mul_eq (hA.mono (by omega)), Word.add_eq (hA.mono hlt.le)]

lemma branchSum_eq [Zero F] [Add F] (hA : A.Fits (D.kPhases * taps))
    (hlen : h.length = D.kPhases * taps) (hph : ph < D.kPhases) :
    branchSum A D taps h ph = .ok (branchTotal D taps h ph) := by
  refine (forLtE_eq_forLt (P := fun _ _ => True) trivial ?_).1
  rintro t ht sum -
  refine ⟨?_, trivial⟩
  rw [branchIndex_eq hA ht hph, readAt_eq (hlen ▸ index_lt ht hph) 0]
  rfl

/-- Scaling a branch multiplies the coefficients of the branch, and no others. -/
lemma scaleBranch_eq [Zero F] [Mul F] (hA : A.Fits (D.kPhases * taps))
    (hlen : h.length = D.kPhases * taps) (hph : ph < D.kPhases) (gain : F) :
    scaleBranch A D taps ph gain h
      = .ok (h.mapIdx fun i x => if i % D.kPhases = ph then x * gain else x) := by
  -- after `t` rounds the first `t` coefficients of the branch are scaled
  have hloop : ∃ s, scaleBranch A D taps ph gain h = .ok s ∧ s = h.mapIdx fun i x =>
      if i % D.kPhases = ph ∧ i / D.kPhases < taps then x * gain else x := by
    refine forLtE_ok (P := fun t s => s = h.mapIdx fun i x =>
      if i % D.kPhases = ph ∧ i / D.kPhases < t then x * gain else x) ?_ ?_
    · ext1 i
      simp [List.getElem?_mapIdx]
    · rintro t ht s rfl
      have hlt : t * D.kPhases + ph < h.length := hlen ▸ index_lt ht hph
      have hcell := set_mapIdx (f := fun i x =>
          if i % D.kPhases = ph ∧ i / D.kPhases < t then x * gain else x)
        (g := fun i x => if i % D.kPhases = ph ∧ i / D.kPhases < t + 1 then x * gain else x) hlt ?_
      · rw [branchIndex_eq hA ht hph, readAt_eq (by rwa [List.length_mapIdx]) 0, getD_mapIdx hlt]
        simp only [mod_index t hph, div_index t hph, true_and, lt_irrefl, if_false,
          Nat.lt_succ_self, if_true] at hcell ⊢
        exact ⟨_, writeAt_eq (by rwa [List.length_mapIdx]) _, hcell⟩
      · -- the two descriptions differ in the cell just written and nowhere else
        rintro j hj
        ext x
        refine if_congr (and_congr_right fun hmod => ?_) rfl rfl
        have hdiv : j / D.kPhases ≠ t := fun hdiv => hj (eq_index hmod hdiv)
        omega
  obtain ⟨s, hs, rfl⟩ := hloop
  rw [hs]
  congr 1
  apply List.ext_getElem (by simp)
  intro i hi _
  have hdiv : i / D.kPhases < taps := by
    rw [List.length_mapIdx, hlen] at hi
    exact Nat.div_lt_of_lt_mul hi
  simp [hdiv]

section Normalize

variable [Zero F] [One F] [Add F] [Mul F] [Div F]

/-- The vector with the branches below `n` normalized, by the gains that the branches of `h`
have. -/
def normalizedTo (D : Direction) (taps : ℕ) (h : List F) (n : ℕ) : List F :=
  h.mapIdx fun i x => if i % D.kPhases < n then x * branchGain D taps h (i % D.kPhases) else x

@[simp] lemma length_normalizedTo (n : ℕ) : (normalizedTo D taps h n).length = h.length :=
  List.length_mapIdx

@[simp] lemma normalizedTo_zero : normalizedTo D taps h 0 = h := by
  ext1 i
  simp [normalizedTo, List.getElem?_mapIdx]

/-- A branch that is not normalized yet has its old sum. -/
lemma branchTotal_normalizedTo (hlen : h.length = D.kPhases * taps) (hph : ph < D.kPhases) :
    branchTotal D taps (normalizedTo D taps h ph) ph = branchTotal D taps h ph := by
  refine forLt_congr (fun t ht => ?_) 0
  have hlt : t * D.kPhases + ph < h.length := hlen ▸ index_lt ht hph
  ext sum
  rw [normalizedTo, getD_mapIdx hlt, if_neg (by rw [mod_index t hph]; exact lt_irrefl ph),
    List.getD_eq_getElem _ _ hlt]

/-- One more branch. -/
lemma normalizedTo_succ (n : ℕ) :
    ((normalizedTo D taps h n).mapIdx fun i x =>
        if i % D.kPhases = n then x * branchGain D taps h n else x)
      = normalizedTo D taps h (n + 1) := by
  rw [normalizedTo, normalizedTo, List.mapIdx_mapIdx]
  congr 1
  ext i x
  rw [Function.comp_apply]
  rcases lt_trichotomy (i % D.kPhases) n with hlt | heq | hgt
  · rw [if_pos hlt, if_pos (Nat.lt_succ_of_lt hlt), if_neg hlt.ne]
  · rw [if_neg heq.not_lt, if_pos heq, if_pos (Nat.lt_succ_of_le heq.le), heq]
  · rw [if_neg hgt.ne', if_neg hgt.not_gt, if_neg (Nat.not_lt.2 hgt)]

/-- The normalization multiplies every coefficient by the gain of its own branch. -/
theorem normalize_eq (hA : A.Fits (D.kPhases * taps)) (hlen : h.length = D.kPhases * taps) :
    normalize A D taps h
      = .ok (h.mapIdx fun i x => x * branchGain D taps h (i % D.kPhases)) := by
  have hloop : ∃ s, normalize A D taps h = .ok s ∧ s = normalizedTo D taps h D.kPhases := by
    refine forLtE_ok (P := fun n s => s = normalizedTo D taps h n) normalizedTo_zero.symm ?_
    rintro ph hph s rfl
    have hlen' : (normalizedTo D taps h ph).length = D.kPhases * taps :=
      (length_normalizedTo ph).trans hlen
    refine ⟨_, ?_, normalizedTo_succ ph⟩
    rw [normalizeBranch, branchSum_eq hA hlen' hph, branchTotal_normalizedTo hlen hph]
    exact scaleBranch_eq hA hlen' hph _
  obtain ⟨s, hs, rfl⟩ := hloop
  rw [hs, normalizedTo]
  simp only [Nat.mod_lt _ D.kPhases_pos, if_true]

end Normalize

/-- The loop adds the sum of the branch up. -/
lemma branchTotal_eq [AddCommMonoid F] (D : Direction) (taps : ℕ) (h : List F) (ph : ℕ) :
    branchTotal D taps h ph = Polyphase.branchSum D.kPhases taps (fun i => h.getD i 0) ph := by
  rw [branchTotal, Polyphase.branchSum]
  induction taps with
  | zero => rfl
  | succ taps ih => rw [forLt, ih, Finset.sum_range_succ]

/-! ### On a vector that is too short -/

section Short

variable {w : ℕ}

/-- One round of the summation. -/
lemma failsOr_sum_step [Add F] (t ph : ℕ) (sum : F) :
    FailsOr Failure.outOfRange (fun _ => True)
      (do let x ← readAt Failure.outOfRange h (branchIndex A D t ph); pure (sum + x)) :=
  failsOr_readAt.bind fun _ _ => failsOr_ok trivial

lemma failsOr_branchSum [Zero F] [Add F] (A : Word) (D : Direction) (taps : ℕ) (h : List F)
    (ph : ℕ) : FailsOr .outOfRange (fun _ => True) (branchSum A D taps h ph) :=
  failsOr_forLtE (P := fun _ _ => True) trivial fun t _ sum _ => failsOr_sum_step t ph sum

lemma failsOr_scaleBranch [Mul F] (A : Word) (D : Direction) (taps ph : ℕ) (gain : F)
    (h : List F) :
    FailsOr .outOfRange (fun s => s.length = h.length) (scaleBranch A D taps ph gain h) := by
  refine failsOr_forLtE (P := fun _ (s : List F) => s.length = h.length) rfl ?_
  rintro t - s hs
  rw [← hs]
  exact failsOr_readAt.bind fun x _ => failsOr_writeAt (x * gain)

lemma failsOr_normalizeBranch [Zero F] [One F] [Add F] [Mul F] [Div F] (A : Word)
    (D : Direction) (taps ph : ℕ) (h : List F) :
    FailsOr .outOfRange (fun s => s.length = h.length) (normalizeBranch A D taps ph h) :=
  (failsOr_branchSum A D taps h ph).bind fun sum _ => failsOr_scaleBranch A D taps ph (1 / sum) h

/-- Among the wrapped indices is the first one behind the vector. -/
lemma branchSum_outOfRange [Zero F] [Add F] (hw : h.length < 2 ^ w)
    (hshort : h.length < D.kPhases * taps) :
    branchSum (.bits w) D taps h (h.length % D.kPhases) = .error .outOfRange := by
  have hsplit : h.length / D.kPhases * D.kPhases + h.length % D.kPhases = h.length :=
    Nat.div_add_mod' _ _
  refine forLtE_error (P := fun _ _ => True) (j := h.length / D.kPhases) trivial
    (fun t _ sum _ => failsOr_sum_step t _ sum) (Nat.div_lt_of_lt_mul hshort) ?_
  rintro sum -
  have hindex : branchIndex (.bits w) D (h.length / D.kPhases) (h.length % D.kPhases)
      = h.length := by
    have hmul : (Word.bits w).Fits (h.length / D.kPhases * D.kPhases) :=
      (Nat.div_mul_le_self _ _).trans_lt hw
    rw [branchIndex, Word.mul_eq hmul, Word.add_eq (hsplit.symm ▸ hw), hsplit]
  rw [hindex, readAt_error le_rfl]
  rfl

/-- On a vector shorter than the loops assume, the normalization leaves it. -/
theorem normalize_outOfRange [Zero F] [One F] [Add F] [Mul F] [Div F] (hw : h.length < 2 ^ w)
    (hshort : h.length < D.kPhases * taps) :
    normalize (.bits w) D taps h = .error .outOfRange := by
  refine forLtE_error (P := fun _ (s : List F) => s.length = h.length) rfl ?_
    (Nat.mod_lt h.length D.kPhases_pos) ?_
  · -- the branches before run out of the vector themselves, or leave its length
    rintro ph - s hs
    rw [← hs]
    exact failsOr_normalizeBranch (.bits w) D taps ph s
  · rintro s hs
    have hsum : branchSum (.bits w) D taps s (s.length % D.kPhases) = .error .outOfRange :=
      branchSum_outOfRange (hs.symm ▸ hw) (hs.symm ▸ hshort)
    rw [hs] at hsum
    rw [normalizeBranch, hsum]
    rfl

end Short

end Prototype

lemma linearPhase_iff {P : Type} [Zero P] {n : ℕ} {proto : List P} :
    LinearPhase n proto ↔ Symmetric n fun i => proto.getD i 0 := Iff.rfl

/-- The per-branch normalization is exact and keeps linear phase.  On a vector of `L * T`
coefficients (a vector has as many as a word can count) whose branch sums are not zero the loop
succeeds and leaves a vector in which every branch sums to one, so that the total is `L`; every
coefficient is its old value times the reciprocal of the old sum of its own branch; and a
symmetric vector stays symmetric. -/
theorem branch_normalization {F : Type} [Field F] {A : Word} {D : Direction} {T : ℕ} {h : List F}
    (hA : A.Fits (D.kPhases * T)) (hlen : h.length = D.kPhases * T)
    (hsum : ∀ ph < D.kPhases, ∑ t ∈ Finset.range T, h.getD (t * D.kPhases + ph) 0 ≠ 0) :
    ∃ h', Prototype.normalize A D T h = .ok h' ∧ h'.length = D.kPhases * T ∧
      (∀ ph < D.kPhases, ∑ t ∈ Finset.range T, h'.getD (t * D.kPhases + ph) 0 = 1) ∧
      h'.sum = D.kPhases ∧
      (∃ gain : ℕ → F,
        (∀ ph < D.kPhases,
          gain ph = 1 / ∑ t ∈ Finset.range T, h.getD (t * D.kPhases + ph) 0) ∧
        ∀ i < D.kPhases * T, h'.getD i 0 = h.getD i 0 * gain (i % D.kPhases)) ∧
      (LinearPhase (D.kPhases * T) h → LinearPhase (D.kPhases * T) h') := by
  let f := fun i => h.getD i 0
  let h' := h.mapIdx fun i x => x * Prototype.branchGain D T h (i % D.kPhases)
  have hlen' : h'.length = D.kPhases * T := by rw [List.length_mapIdx, hlen]
  have hgain (ph : ℕ) :
      Prototype.branchGain D T h ph = 1 / Polyphase.branchSum D.kPhases T f ph := by
    rw [Prototype.branchGain, Prototype.branchTotal_eq]
  have hcoef : ∀ i < D.kPhases * T, h'.getD i 0 = Polyphase.normalize D.kPhases T f i := by
    intro i hi
    rw [getD_mapIdx (hlen ▸ hi), hgain, Polyphase.normalize, ← List.getD_eq_getElem h 0 (hlen ▸ hi)]
  refine ⟨h', Prototype.normalize_eq hA hlen, hlen', ?_, ?_, ?_, ?_⟩
  · intro ph hph
    exact (branchSum_congr hcoef hph).trans (branchSum_normalize hph (hsum ph hph))
  · calc h'.sum = ∑ i ∈ Finset.range h'.length, h'.getD i 0 := by
          rw [Finset.sum_range, ← Fin.sum_univ_getElem]
          exact Finset.sum_congr rfl fun i _ => (List.getD_eq_getElem _ _ i.isLt).symm
      _ = ∑ i ∈ Finset.range (D.kPhases * T), Polyphase.normalize D.kPhases T f i := by
          rw [hlen']
          exact Finset.sum_congr rfl fun i hi => hcoef i (Finset.mem_range.1 hi)
      _ = D.kPhases := sum_normalize hsum
  · refine ⟨fun ph => 1 / Polyphase.branchSum D.kPhases T f ph, fun ph _ => rfl, ?_⟩
    intro i hi
    exact hcoef i hi
  · intro hsym i hi
    rw [hcoef i hi, hcoef _ (by omega)]
    exact (linearPhase_iff.1 hsym).normalize i hi

/-- Down, on a ramp of four taps per phase. -/
theorem branch_normalization_ramp :
    let D : Direction := .downTo44k1
    let h := (List.range (D.kPhases * 4)).map fun i : ℕ => ((i + 1 : ℕ) : ℚ)
    ∃ h', Prototype.normalize (.bits 32) D 4 h = .ok h' ∧ h'.sum = D.kPhases := by
  intro D h
  have hlen : h.length = D.kPhases * 4 := by simp [h]
  have hpos : ∀ i < D.kPhases * 4, 0 < h.getD i 0 := by
    intro i hi
    rw [List.getD_eq_getElem _ _ (hlen ▸ hi)]
    simp only [h, List.getElem_map]
    exact Nat.cast_pos.2 (Nat.succ_pos _)
  have hsum : ∀ ph < D.kPhases, ∑ t ∈ Finset.range 4, h.getD (t * D.kPhases + ph) 0 ≠ 0 := by
    intro ph hph
    exact (Finset.sum_pos (fun t ht => hpos _ (index_lt (Finset.mem_range.1 ht) hph))
      ⟨0, by simp⟩).ne'
  have hA : (Word.bits 32).Fits (D.kPhases * 4) := by
    change 147 * 4 < 2 ^ 32
    decide
  obtain ⟨h', hrun, -, -, htotal, -⟩ := branch_normalization hA hlen hsum
  exact ⟨h', hrun, htotal⟩

end RatioTap
