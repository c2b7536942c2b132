import RatioTap.Lib.Polyphase
import RatioTap.Stream

/-!
# The table of all phases

The row a phase is served with: its own, or its partner's read backward (`fullRow`).  The
fold of the table is invisible on a linear-phase prototype, where the partner's branch read
backward is the phase's own (`fullRow_eq_branchRow`).  With dots that are exact sums of
products, an output is the product of the row of its phase with its window (`outSample_eq`).
-/

namespace RatioTap

/-- The sum of products of two lists. -/
def dot {R : Type} [CommRing R] (xs ys : List R) : R := (List.zipWith (· * ·) xs ys).sum

lemma dot_map_range {R : Type} [CommRing R] (n : ℕ) (f g : ℕ → R) :
    dot ((List.range n).map f) ((List.range n).map g) = ∑ i ∈ Finset.range n, f i * g i := by
  rw [dot, List.zipWith_map, List.zipWith_self]
  rfl

lemma dot_replicate {R : Type} [CommRing R] {row : List R} {n : ℕ} (hrow : row.length = n) (v : R) :
    dot row (List.replicate n v) = row.sum * v := by
  subst hrow
  induction row with
  | nil => simp [dot]
  | cons a row ih =>
      rw [dot] at ih ⊢
      rw [List.length_cons, List.replicate_succ, List.zipWith_cons_cons, List.sum_cons, ih,
        List.sum_cons, add_mul]

/-- Kernels that accumulate exact sums of products. -/
structure Kernels.ExactDots {R : Type} [CommRing R] (k : Kernels R R) : Prop where
  dotRow (row hist : List R) : k.dotRow row hist = dot row hist
  dotRowReversed (row hist : List R) : k.dotRowReversed row hist = dot row.reverse hist

lemma Kernels.exact_exactDots (R : Type) [CommRing R] : (Kernels.exact R).ExactDots :=
  ⟨fun _ _ => rfl, fun _ _ => rfl⟩

/-- A prototype of `n` coefficients is symmetric. -/
def LinearPhase {P : Type} [Zero P] (n : ℕ) (proto : List P) : Prop :=
  ∀ i < n, proto.getD i 0 = proto.getD (n - 1 - i) 0

namespace PhaseTable

variable {D : Direction} {K P : Type} {taps ph : ℕ} {proto : List P}

/-- The row that a phase is served with, as it is dotted with a window. -/
def fullRow (tb : PhaseTable D K) (ph : ℕ) : List K :=
  let row := (tb.storedRow ph).take tb.mTaps
  if isMirrored D ph then row.reverse else row

/-- The partner of a phase, in the low half for every phase of the high half. -/
lemma partner_lt {ph : ℕ} (h : isMirrored D ph = true) : D.kPhases - 1 - ph < kStored D := by
  rw [isMirrored_iff] at h
  simp only [kStored] at h ⊢
  have := D.kPhases_pos
  omega

lemma lt_kStored {ph : ℕ} (h : isMirrored D ph = false) : ph < kStored D := by
  simpa [isMirrored] using h

/-- The stored row that serves a phase, as far as the phase reads it. -/
lemma take_storedRow [Zero P] [Zero K] {quantizeRow : List P → List K}
    (hq : ∀ ph < kStored D, (quantizeRow (branchRow D taps proto ph)).length = taps)
    (hph : ph < D.kPhases) :
    ((ofPrototype D quantizeRow taps proto).storedRow ph).take taps
      = quantizeRow (branchRow D taps proto (storedIndex D ph)) :=
  ofPrototype_row hq (storedIndex_lt hph)

/-- The rows served, in terms of the quantized branches. -/
lemma fullRow_ofPrototype [Zero P] [Zero K] {quantizeRow : List P → List K}
    (hq : ∀ ph < kStored D, (quantizeRow (branchRow D taps proto ph)).length = taps)
    (hph : ph < D.kPhases) :
    (ofPrototype D quantizeRow taps proto).fullRow ph
      = if isMirrored D ph then (quantizeRow (branchRow D taps proto (D.kPhases - 1 - ph))).reverse
        else quantizeRow (branchRow D taps proto ph) := by
  have hserved := take_storedRow hq hph
  rw [fullRow]
  cases hm : isMirrored D ph with
  | true =>
      rw [storedIndex_of_mirrored hm] at hserved
      exact congrArg List.reverse hserved
  | false =>
      rw [storedIndex_of_not_mirrored hm] at hserved
      exact hserved

lemma length_fullRow [Zero P] [Zero K] {quantizeRow : List P → List K}
    (hq : ∀ ph < kStored D, (quantizeRow (branchRow D taps proto ph)).length = taps)
    (hph : ph < D.kPhases) :
    ((ofPrototype D quantizeRow taps proto).fullRow ph).length = taps := by
  rw [fullRow_ofPrototype hq hph]
  cases hm : isMirrored D ph with
  | true =>
      rw [if_pos rfl, List.length_reverse]
      exact hq _ (partner_lt hm)
  | false =>
      rw [if_neg Bool.false_ne_true]
      exact hq _ (lt_kStored hm)

/-- On a linear-phase prototype a branch is its partner's branch, reversed. -/
lemma branchRow_reverse [Zero P] (h : LinearPhase (D.kPhases * taps) proto)
    (hph : ph < D.kPhases) :
    (branchRow D taps proto (D.kPhases - 1 - ph)).reverse = branchRow D taps proto ph := by
  refine List.ext_getElem (by simp) fun i hi _ => ?_
  have hi : i < taps := by simpa using hi
  have hpartner : D.kPhases - 1 - ph < D.kPhases := by omega
  have hself : D.kPhases - 1 - (D.kPhases - 1 - ph) = ph := by omega
  have hback : taps - 1 - (taps - 1 - i) = i := by omega
  -- the coefficient `i` of the partner's branch and the one mirrored to it
  have hsym := h _ (Polyphase.index_lt hi hpartner)
  rw [Polyphase.mirror_index hi hpartner, hself] at hsym
  simp only [List.getElem_reverse, branchRow, List.getElem_map, List.getElem_range,
    List.length_map, List.length_range]
  rw [hback, hsym]

/-- The fold of the table does not show on a linear-phase prototype, when the quantizer treats
a row and its reversal alike. -/
theorem fullRow_eq_quantized [Zero P] [Zero K] {quantizeRow : List P → List K}
    (hlen : ∀ row, (quantizeRow row).length = row.length)
    (hrev : ∀ row, quantizeRow row.reverse = (quantizeRow row).reverse)
    (h : LinearPhase (D.kPhases * taps) proto) (hph : ph < D.kPhases) :
    (ofPrototype D quantizeRow taps proto).fullRow ph
      = quantizeRow (branchRow D taps proto ph) := by
  rw [fullRow_ofPrototype (fun ph _ => by rw [hlen, length_branchRow]) hph]
  split
  · rw [← hrev, branchRow_reverse h hph]
  · rfl

theorem fullRow_eq_branchRow [Zero P] (h : LinearPhase (D.kPhases * taps) proto)
    (hph : ph < D.kPhases) :
    (ofPrototype D id taps proto).fullRow ph = branchRow D taps proto ph :=
  fullRow_eq_quantized (fun _ => rfl) (fun _ => rfl) h hph

/-- Where the stored row is as long as the taps, `at` reads the row served. -/
lemma at_eq_fullRow (tb : PhaseTable D K)
    (hlen : ((tb.storedRow ph).take tb.mTaps).length = tb.mTaps) {t : ℕ} (ht : t < tb.mTaps) :
    tb.at ph t = (tb.fullRow ph)[t]? := by
  rw [PhaseTable.at, fullRow]
  cases isMirrored D ph with
  | true =>
      simp only [if_true]
      rw [List.getElem?_reverse (by omega), hlen, List.getElem?_take_of_lt (by omega)]
  | false =>
      simp only [Bool.false_eq_true, if_false]
      rw [List.getElem?_take_of_lt ht]

/-- A mirrored phase reads its partner's row backward, whatever the row holds; only the phase
that is its own partner does not. -/
theorem at_partner (tb : PhaseTable D K) (hph : ph < D.kPhases) (hmid : 2 * ph + 1 ≠ D.kPhases)
    {t : ℕ} (ht : t < tb.mTaps) :
    tb.at ph t = tb.at (D.kPhases - 1 - ph) (tb.mTaps - 1 - t) := by
  have hback : tb.mTaps - 1 - (tb.mTaps - 1 - t) = t := by omega
  have hself : D.kPhases - 1 - (D.kPhases - 1 - ph) = ph := by omega
  rw [PhaseTable.at, PhaseTable.at, storedRow, storedRow]
  cases hm : isMirrored D ph with
  | true =>
      have hp : isMirrored D (D.kPhases - 1 - ph) = false := by
        have := partner_lt hm
        simpa [isMirrored] using this
      rw [hp, storedIndex_of_mirrored hm, storedIndex_of_not_mirrored hp]
      rfl
  | false =>
      have hp : isMirrored D (D.kPhases - 1 - ph) = true := by
        have := lt_kStored hm
        rw [isMirrored_iff]
        simp only [kStored] at this ⊢
        omega
      rw [hp, storedIndex_of_not_mirrored hm, storedIndex_of_mirrored hp, hself, hback]
      rfl

/-- What all stored rows sum to, all rows sum to. -/
lemma sum_fullRow {R : Type} [CommRing R] [Zero P] {quantizeRow : List P → List R} {g : R}
    (hq : ∀ ph < kStored D, (quantizeRow (branchRow D taps proto ph)).length = taps)
    (hsum : ∀ ph < kStored D, (quantizeRow (branchRow D taps proto ph)).sum = g)
    (hph : ph < D.kPhases) :
    ((ofPrototype D quantizeRow taps proto).fullRow ph).sum = g := by
  rw [fullRow_ofPrototype hq hph]
  cases hm : isMirrored D ph with
  | true =>
      rw [if_pos rfl, List.sum_reverse]
      exact hsum _ (partner_lt hm)
  | false =>
      rw [if_neg Bool.false_ne_true]
      exact hsum _ (lt_kStored hm)

end PhaseTable

namespace Converter

variable {D : Direction} {S K R : Type} [CommRing R] {xs : List (List S)} {n c q : ℕ}

/-- The window of an output, sample by sample: silence before the stream, then the stream up
to its input. -/
lemma newest_take (k : Kernels S K) (tb : PhaseTable D K) (hq : q < xs.length) :
    newest k tb c (xs.take (q + 1)) = (List.range tb.mTaps).map fun i =>
      if q + 1 + i < tb.mTaps then k.silence
      else (channel k c xs).getD (q + 1 + i - tb.mTaps) k.silence := by
  have hlen : (channel k c (xs.take (q + 1))).length = q + 1 := by
    rw [length_channel, List.length_take]
    omega
  have hdrop : (List.replicate tb.mTaps k.silence ++ channel k c (xs.take (q + 1))).length
      - tb.mTaps = q + 1 := by
    rw [List.length_append, List.length_replicate, hlen, Nat.add_sub_cancel_left]
  have hwin : (newest k tb c (xs.take (q + 1))).length = tb.mTaps := by
    rw [newest, List.rtake, hdrop, List.length_drop, List.length_append, List.length_replicate,
      hlen, Nat.add_sub_cancel]
  refine List.ext_getElem (by rw [hwin, List.length_map, List.length_range]) fun i hi _ => ?_
  rw [hwin] at hi
  simp only [newest, List.rtake, hdrop, List.getElem_drop, List.getElem_map, List.getElem_range]
  split
  · next hbefore =>
    rw [List.getElem_append_left (by rwa [List.length_replicate]), List.getElem_replicate]
  · next hin =>
    rw [List.getElem_append_right (by rw [List.length_replicate]; omega),
      List.getD_eq_getElem _ _ (by rw [length_channel]; omega)]
    simp only [channel, List.getElem_map, List.getElem_take, List.length_replicate]

/-- The window of an output whose last `T` samples are in a constant stretch. -/
lemma newest_const {k : Kernels S K} {tb : PhaseTable D K} {j₀ : ℕ} {v : S} (hq : q < xs.length)
    (hv : ∀ j x, j₀ ≤ j → (channel k c xs)[j]? = some x → x = v)
    (hin : j₀ + tb.mTaps - 1 ≤ q) :
    newest k tb c (xs.take (q + 1)) = List.replicate tb.mTaps v := by
  rw [newest_take k tb hq, List.eq_replicate_iff]
  refine ⟨by rw [List.length_map, List.length_range], ?_⟩
  intro a ha
  obtain ⟨i, hi, rfl⟩ := List.mem_map.1 ha
  rw [List.mem_range] at hi
  have hlen : q + 1 + i - tb.mTaps < (channel k c xs).length := by
    rw [length_channel]
    omega
  rw [if_neg (by omega)]
  refine hv (q + 1 + i - tb.mTaps) _ (by omega) ?_
  rw [List.getD_eq_getElem _ _ hlen, List.getElem?_eq_getElem hlen]

/-- What the hot path dots for a phase is the row served times the window. -/
lemma dotPhase_eq {k : Kernels R R} (hk : k.ExactDots) (tb : PhaseTable D R) (ph : ℕ)
    (win : List R) : dotPhase k tb ph win = dot (tb.fullRow ph) win := by
  rw [dotPhase, PhaseTable.fullRow]
  cases PhaseTable.isMirrored D ph with
  | true => exact hk.dotRowReversed _ _
  | false => exact hk.dotRow _ _

/-- An output is the row of its phase times its window. -/
lemma outSample_eq {k : Kernels R R} (hk : k.ExactDots) (tb : PhaseTable D R)
    (xs : List (List R)) (n c : ℕ) :
    outSample k tb xs n c
      = dot (tb.fullRow (n * D.kDecimation % D.kPhases))
          (newest k tb c (xs.take (D.tick n + 1))) := dotPhase_eq hk tb _ _

end Converter

/-- The symmetry-halved table is the full table.  For a linear-phase prototype and a quantizer
that treats a row and its reversal alike, every logical coefficient is the entry of the phase's
own quantized branch, and the hot path dots that branch with the window.  Without either
assumption, two partner phases still read one row from its two ends. -/
theorem halved_table_eq_full {D : Direction} {T : ℕ} :
    (∀ {P R : Type} [Zero P] [CommRing R] {k : Kernels R R} {Q : List P → List R} {h : List P},
      k.ExactDots → (∀ row, (Q row).length = row.length) →
      (∀ row, Q row.reverse = (Q row).reverse) → LinearPhase (D.kPhases * T) h →
      ∀ ph < D.kPhases,
        (∀ t < T, ∃ q, (Q (PhaseTable.branchRow D T h ph))[t]? = some q ∧
          (PhaseTable.ofPrototype D Q T h).at ph t = some q) ∧
        ∀ win, Converter.dotPhase k (PhaseTable.ofPrototype D Q T h) ph win
          = dot (Q (PhaseTable.branchRow D T h ph)) win) ∧
    ∀ {P K : Type} [Zero P] [Zero K] (Q : List P → List K) (h : List P),
      ∀ ph < D.kPhases, 2 * ph + 1 ≠ D.kPhases → ∀ t < T,
        (PhaseTable.ofPrototype D Q T h).at ph t
          = (PhaseTable.ofPrototype D Q T h).at (D.kPhases - 1 - ph) (T - 1 - t) := by
  constructor
  · intro P R _ _ k Q h hk hlen hrev hsym ph hph
    have hfull := PhaseTable.fullRow_eq_quantized hlen hrev hsym hph
    have hrow (i : ℕ) : (Q (PhaseTable.branchRow D T h i)).length = T := by
      rw [hlen, PhaseTable.length_branchRow]
    constructor
    · intro t ht
      have hserved : (((PhaseTable.ofPrototype D Q T h).storedRow ph).take T).length = T := by
        rw [PhaseTable.take_storedRow (fun i _ => hrow i) hph, hrow]
      have hin : t < (Q (PhaseTable.branchRow D T h ph)).length := by rwa [hrow]
      refine ⟨_, List.getElem?_eq_getElem hin, ?_⟩
      rw [PhaseTable.at_eq_fullRow _ hserved ht, hfull, List.getElem?_eq_getElem hin]
    · intro win
      rw [Converter.dotPhase_eq hk, hfull]
  · intro P K _ _ Q h ph hph hmid t ht
    exact PhaseTable.at_partner _ hph hmid ht

/-- Down, where the middle branch is its own partner: a mirrored phase of a parabola. -/
theorem halved_table_eq_full_parabola :
    let D : Direction := .downTo44k1
    let h := (List.range (D.kPhases * 4)).map fun i : ℕ => ((i * (D.kPhases * 4 - 1 - i) : ℕ) : ℤ)
    Converter.dotPhase (.exact ℤ) (PhaseTable.ofPrototype D id 4 h) 100 [1, 2, 3, 4]
      = dot (PhaseTable.branchRow D 4 h 100) [1, 2, 3, 4] := by
  intro D h
  have hsym : LinearPhase (D.kPhases * 4) h := by
    intro i hi
    rw [List.getD_eq_getElem _ _ (by simpa [h] using hi),
      List.getD_eq_getElem _ _ (by rw [List.length_map, List.length_range]; omega)]
    simp only [h, List.getElem_map, List.getElem_range]
    rw [Nat.sub_sub_self (by omega), Nat.mul_comm]
  have hdot := halved_table_eq_full.1 (Q := id) (Kernels.exact_exactDots ℤ) (fun _ => rfl)
    (fun _ => rfl) hsym 100 (by decide)
  exact hdot.2 [1, 2, 3, 4]

end RatioTap
