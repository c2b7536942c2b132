import RatioTap.Lib.FlatMemory
import RatioTap.Design

/-!
# The symmetry-halved phase table

`phase_table.h`: `ceil(L/2)` quantized rows of `T` coefficients, stored one after the
other and tap-reversed.  A phase of the high half has no row of its own: it reads its
partner's row, backward.

The quantizer `quantize_row_preserving_sum` and the designed prototype come from outside
the repository and are parameters.  `ofPrototype_row` is the only fact about the
constructor's loops that the rest uses: the stored row of a low phase is the quantized,
tap-reversed branch of that phase.
-/

namespace RatioTap

open FlatMemory

/-- `basic_phase_table<S, D>`: the taps per phase and the stored rows, in one vector. -/
structure PhaseTable (D : Direction) (K : Type) where
  /-- `m_taps`. -/
  mTaps : ℕ
  /-- `m_table`. -/
  mTable : List K

namespace PhaseTable

variable {D : Direction} {K P : Type}

/-- `k_stored`: the rows actually held. -/
def kStored (D : Direction) : ℕ := (D.kPhases + 1) / 2

/-- `is_mirrored(ph)`. -/
def isMirrored (D : Direction) (ph : ℕ) : Bool := decide (kStored D ≤ ph)

/-- `stored_index(ph)`. -/
def storedIndex (D : Direction) (ph : ℕ) : ℕ :=
  if ph < kStored D then ph else D.kPhases - 1 - ph

/-- `stored_row(ph)`: a pointer into the table, as the cells from there on. -/
def storedRow (tb : PhaseTable D K) (ph : ℕ) : List K :=
  tb.mTable.drop (storedIndex D ph * tb.mTaps)

/-- A vector with the span of `n` cells at `off` overwritten by `ys`. -/
def writeSpan (xs : List K) (off n : ℕ) (ys : List K) : List K :=
  xs.take off ++ ys.take n ++ xs.drop (off + n)

/-- The inner loop of the constructor: `row_d[m_taps - 1 - t] = proto[t * k_phases + ph]`. -/
def gatherBranch [Zero P] (D : Direction) (taps : ℕ) (proto : List P) (ph : ℕ)
    (rowD : List P) : List P :=
  forLt taps (fun t rowD => rowD.set (taps - 1 - t) (proto.getD (t * D.kPhases + ph) 0)) rowD

/-- The outer loop of the constructor, on the scratch row and the table. -/
def rows [Zero P] [Zero K] (D : Direction) (quantizeRow : List P → List K) (taps : ℕ)
    (proto : List P) : List P × List K :=
  forLt (kStored D)
    (fun ph s =>
      let rowD := gatherBranch D taps proto ph s.1
      (rowD, writeSpan s.2 (ph * taps) taps (quantizeRow rowD)))
    (List.replicate taps 0, List.replicate (kStored D * taps) 0)

/-- The constructor, from the taps per phase and the designed prototype. -/
def ofPrototype [Zero P] [Zero K] (D : Direction) (quantizeRow : List P → List K) (taps : ℕ)
    (proto : List P) : PhaseTable D K :=
  { mTaps := taps, mTable := (rows D quantizeRow taps proto).2 }

/-- The table of a moving sum, for runs on concrete input. -/
def box (D : Direction) (taps : ℕ) : PhaseTable D ℤ :=
  ofPrototype D id taps (List.replicate (D.kPhases * taps) (1 : ℤ))

/-- The tap-reversed branch of a phase: `h[(T-1) * L + ph], …, h[L + ph], h[ph]`. -/
def branchRow [Zero P] (D : Direction) (taps : ℕ) (proto : List P) (ph : ℕ) : List P :=
  (List.range taps).map fun i => proto.getD ((taps - 1 - i) * D.kPhases + ph) 0

/-! ### The fold of the phases -/

lemma isMirrored_iff {ph : ℕ} : isMirrored D ph = true ↔ kStored D ≤ ph := decide_eq_true_iff

lemma storedIndex_of_not_mirrored {ph : ℕ} (h : isMirrored D ph = false) :
    storedIndex D ph = ph := by
  simp only [isMirrored, decide_eq_false_iff_not, not_le] at h
  rw [storedIndex, if_pos h]

lemma storedIndex_of_mirrored {ph : ℕ} (h : isMirrored D ph = true) :
    storedIndex D ph = D.kPhases - 1 - ph := by
  rw [isMirrored_iff] at h
  rw [storedIndex, if_neg (by omega)]

/-- Every phase is served by a stored row. -/
lemma storedIndex_lt {ph : ℕ} (h : ph < D.kPhases) : storedIndex D ph < kStored D := by
  rcases Nat.lt_or_ge ph (kStored D) with hs | hs
  · rwa [storedIndex, if_pos hs]
  · rw [storedIndex, if_neg (by omega)]
    simp only [kStored] at hs ⊢
    omega

/-! ### The rows after construction -/

section Spans

variable {xs ys : List K} {off n : ℕ}

lemma length_writeSpan (hys : ys.length = n) (h : off + n ≤ xs.length) :
    (writeSpan xs off n ys).length = xs.length := by
  simp only [writeSpan, List.length_append, List.length_take, List.length_drop]
  omega

lemma span_writeSpan (hys : ys.length = n) (h : off + n ≤ xs.length) :
    ((writeSpan xs off n ys).drop off).take n = ys := by
  have hoff : (xs.take off).length = off := by rw [List.length_take]; omega
  rw [writeSpan, List.append_assoc, List.drop_append_of_le_length hoff.ge,
    List.drop_eq_nil_of_le hoff.le, List.nil_append, List.take_of_length_le hys.le,
    List.take_append_of_le_length hys.ge, List.take_of_length_le hys.le]

/-- A span written behind another one leaves that one alone. -/
lemma span_writeSpan_of_le {a m : ℕ} (ham : a + m ≤ off) (h : off ≤ xs.length) :
    ((writeSpan xs off n ys).drop a).take m = (xs.drop a).take m := by
  have hoff : (xs.take off).length = off := by rw [List.length_take]; omega
  rw [writeSpan, List.append_assoc, List.drop_append_of_le_length (by omega),
    List.take_append_of_le_length (by rw [List.length_drop]; omega), List.drop_take,
    List.take_take, Nat.min_eq_left (by omega)]

end Spans

/-- The gathering loop overwrites every cell of the scratch row. -/
lemma gatherBranch_eq [Zero P] {taps : ℕ} (proto : List P) (ph : ℕ) {rowD : List P}
    (hlen : rowD.length = taps) :
    gatherBranch D taps proto ph rowD = branchRow D taps proto ph := by
  -- after `t` rounds the last `t` cells hold their branch coefficients
  have key : (gatherBranch D taps proto ph rowD).length = taps ∧ ∀ i < taps, taps ≤ i + taps →
      (gatherBranch D taps proto ph rowD)[i]?
        = some (proto.getD ((taps - 1 - i) * D.kPhases + ph) 0) := by
    refine forLt_induct (P := fun t (r : List P) => r.length = taps ∧ ∀ i < taps,
        taps ≤ i + t → r[i]? = some (proto.getD ((taps - 1 - i) * D.kPhases + ph) 0)) ?_ ?_
    · exact ⟨hlen, fun i hi hit => by omega⟩
    · rintro t ht r ⟨hr, ih⟩
      refine ⟨by rw [List.length_set, hr], ?_⟩
      intro i hi hit
      rcases eq_or_ne i (taps - 1 - t) with rfl | hne
      · rw [List.getElem?_set_self (by omega), show taps - 1 - (taps - 1 - t) = t by omega]
      · rw [List.getElem?_set_ne hne.symm]
        exact ih i hi (by omega)
  ext1 i
  rcases Nat.lt_or_ge i taps with hi | hi
  · rw [key.2 i hi (by omega), branchRow, List.getElem?_map, List.getElem?_range hi]
    rfl
  · rw [List.getElem?_eq_none (by omega),
      List.getElem?_eq_none (by simpa [branchRow] using hi)]

@[simp] lemma length_branchRow [Zero P] (taps : ℕ) (proto : List P) (ph : ℕ) :
    (branchRow D taps proto ph).length = taps := by simp [branchRow]

/-- The stored row of a low phase is the quantized branch of that phase. -/
theorem ofPrototype_row [Zero P] [Zero K] {quantizeRow : List P → List K} {taps : ℕ}
    {proto : List P}
    (hq : ∀ ph < kStored D, (quantizeRow (branchRow D taps proto ph)).length = taps) {r : ℕ}
    (hr : r < kStored D) :
    (((ofPrototype D quantizeRow taps proto).mTable).drop (r * taps)).take taps
      = quantizeRow (branchRow D taps proto r) := by
  have hroom : ∀ {i}, i < kStored D → i * taps + taps ≤ kStored D * taps := fun {i} hi => by
    rw [← Nat.succ_mul]
    exact Nat.mul_le_mul_right taps hi
  have key : (rows D quantizeRow taps proto).1.length = taps ∧
      (rows D quantizeRow taps proto).2.length = kStored D * taps ∧
      ∀ r < kStored D, ((rows D quantizeRow taps proto).2.drop (r * taps)).take taps
        = quantizeRow (branchRow D taps proto r) := by
    refine forLt_induct (P := fun i (s : List P × List K) => s.1.length = taps ∧
      s.2.length = kStored D * taps ∧
      ∀ r < i, (s.2.drop (r * taps)).take taps = quantizeRow (branchRow D taps proto r)) ?_ ?_
    · exact ⟨by simp, by simp, fun r hr => by omega⟩
    · rintro i hi s ⟨hrow, htab, ih⟩
      have hlen := hq i hi
      have hle := hroom hi
      rw [gatherBranch_eq proto i hrow]
      refine ⟨length_branchRow taps proto i, by rw [length_writeSpan hlen (by omega), htab], ?_⟩
      intro r hr
      rcases Nat.lt_succ_iff_lt_or_eq.1 hr with hri | rfl
      · have hsep : r * taps + taps ≤ i * taps := by
          rw [← Nat.succ_mul]
          exact Nat.mul_le_mul_right taps hri
        rw [span_writeSpan_of_le hsep (by omega)]
        exact ih r hri
      · exact span_writeSpan hlen (by omega)
  exact key.2.2 r hr

end PhaseTable

/-- `at(ph, t)`: the logical coefficient, where the table has the cell it reads. -/
def PhaseTable.at {D : Direction} {K : Type} (tb : PhaseTable D K) (ph t : ℕ) : Option K :=
  let r := tb.storedRow ph
  if PhaseTable.isMirrored D ph then r[tb.mTaps - 1 - t]? else r[t]?

end RatioTap
