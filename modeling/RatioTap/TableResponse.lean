import RatioTap.Drive
import RatioTap.Lib.LinearPeriodic
import RatioTap.Resampling

/-!
# What a table amounts to

The rows that a table serves are the branches of one prototype, `PhaseTable.response`, whatever
they hold: a designed prototype, or what a quantizer made of one.  In exact arithmetic every
sample that a converter has emitted is an output of the resampling chain with that prototype,
on the samples appended so far, whichever calls appended them (`Drive.outAt_eq_chain`).

The fold of the table makes the response symmetric, whatever prototype and quantizer it was
made with.  Only the middle branch of an odd number has no partner, and has to be symmetric on
its own (`table_response`).
-/

namespace RatioTap

open Upfirdn Converter FlatMemory

variable {R : Type} {D : Direction} {T t ph : ℕ}

namespace PhaseTable

lemma lt_of_lt_kStored (h : ph < kStored D) : ph < D.kPhases := by
  have := D.kPhases_pos
  rw [kStored] at h
  omega

/-- The branches of a moving sum. -/
lemma branchRow_replicate {P : Type} [Zero P] (T : ℕ) (v : P) (hph : ph < D.kPhases) :
    branchRow D T (List.replicate (D.kPhases * T) v) ph = List.replicate T v := by
  rw [List.eq_replicate_iff]
  refine ⟨length_branchRow _ _ _, ?_⟩
  intro a ha
  obtain ⟨i, hi, rfl⟩ := List.mem_map.1 ha
  rw [List.mem_range] at hi
  exact List.getD_replicate _ (Polyphase.index_lt (by omega) hph)

/-- The table holds its rows and nothing else. -/
def Complete {K : Type} (tb : PhaseTable D K) : Prop :=
  tb.mTable.length = kStored D * tb.mTaps

/-- Every phase is served a row of all its taps. -/
lemma Complete.length_storedRow {K : Type} {tb : PhaseTable D K} (h : tb.Complete)
    (hph : ph < D.kPhases) : ((tb.storedRow ph).take tb.mTaps).length = tb.mTaps := by
  have hroom := Nat.mul_le_mul_right tb.mTaps (Nat.succ_le_of_lt (storedIndex_lt hph))
  rw [Nat.succ_mul] at hroom
  rw [List.length_take, storedRow, List.length_drop, h]
  omega

/-- A quantizer that keeps the lengths of the rows leaves the table as long as it was made. -/
lemma complete_ofPrototype {P K : Type} [Zero P] [Zero K] {quantizeRow : List P → List K}
    (hlen : ∀ row, (quantizeRow row).length = row.length) (T : ℕ) (proto : List P) :
    (ofPrototype D quantizeRow T proto).Complete := by
  have key : (rows D quantizeRow T proto).1.length = T ∧
      (rows D quantizeRow T proto).2.length = kStored D * T := by
    refine forLt_induct (P := fun _ (s : List P × List K) => s.1.length = T ∧
      s.2.length = kStored D * T) (by simp) ?_
    rintro ph hph s ⟨hrow, htab⟩
    have hroom := Nat.mul_le_mul_right T (Nat.succ_le_of_lt hph)
    rw [Nat.succ_mul] at hroom
    rw [gatherBranch_eq proto ph hrow]
    refine ⟨length_branchRow T proto ph, ?_⟩
    rw [length_writeSpan (by rw [hlen, length_branchRow]) (by omega), htab]
  exact key.2

lemma Complete.length_fullRow {K : Type} {tb : PhaseTable D K} (h : tb.Complete)
    (hph : ph < D.kPhases) : (tb.fullRow ph).length = tb.mTaps := by
  have hrow := h.length_storedRow hph
  rw [fullRow]
  cases isMirrored D ph with
  | true => rwa [if_pos rfl, List.length_reverse]
  | false => rwa [if_neg Bool.false_ne_true]

/-- The logical coefficients determine the table. -/
lemma Complete.eq_of_at {K : Type} {tb tb' : PhaseTable D K} (h : tb.Complete) (h' : tb'.Complete)
    (htaps : tb'.mTaps = tb.mTaps)
    (hat : ∀ ph < D.kPhases, ∀ t < tb.mTaps, tb.at ph t = tb'.at ph t) : tb = tb' := by
  obtain ⟨taps, table⟩ := tb
  obtain ⟨taps', table'⟩ := tb'
  obtain rfl : taps' = taps := htaps
  congr 1
  ext1 i
  rcases Nat.lt_or_ge i (kStored D * taps') with hi | hi
  · -- cell `i` is tap `i % T` of a phase of the low half
    have hT : 0 < taps' := Nat.pos_of_mul_pos_left (Nat.zero_lt_of_lt hi)
    have hlow : i / taps' < kStored D := Nat.div_lt_of_lt_mul (by rwa [Nat.mul_comm])
    have hph : i / taps' < D.kPhases := lt_of_lt_kStored hlow
    have hm : isMirrored D (i / taps') = false := by simpa [isMirrored] using hlow
    have hcell := hat _ hph _ (Nat.mod_lt i hT)
    simp only [PhaseTable.at, hm, Bool.false_eq_true, if_false, storedRow, List.getElem?_drop,
      storedIndex_of_not_mirrored hm, Nat.div_add_mod'] at hcell
    exact hcell
  · rw [List.getElem?_eq_none (h.le.trans hi), List.getElem?_eq_none (h'.le.trans hi)]

/-- The prototype whose branches are the rows served. -/
def response [Zero R] (tb : PhaseTable D R) : List R :=
  (List.range (D.kPhases * tb.mTaps)).map fun i =>
    (tb.at (i % D.kPhases) (tb.mTaps - 1 - i / D.kPhases)).getD 0

section Response

variable [Zero R] {tb : PhaseTable D R}

lemma getD_response (ht : t < tb.mTaps) (hph : ph < D.kPhases) :
    tb.response.getD (t * D.kPhases + ph) 0 = (tb.at ph (tb.mTaps - 1 - t)).getD 0 := by
  have hi := Polyphase.index_lt ht hph
  rw [response, List.getD_eq_getElem _ _ (by simpa using hi), List.getElem_map,
    List.getElem_range, Polyphase.mod_index t hph, Polyphase.div_index t hph]

/-- The coefficients that are there to be read. -/
lemma Complete.at_eq_some (h : tb.Complete) (ht : t < tb.mTaps) (hph : ph < D.kPhases) :
    tb.at ph t = some (tb.response.getD ((tb.mTaps - 1 - t) * D.kPhases + ph) 0) := by
  have hback : tb.mTaps - 1 - (tb.mTaps - 1 - t) = t := by omega
  have hlen : t < (tb.fullRow ph).length := by rwa [h.length_fullRow hph]
  rw [getD_response (by omega) hph, hback, at_eq_fullRow tb (h.length_storedRow hph) ht,
    List.getElem?_eq_getElem hlen, Option.getD_some]

/-- The rows served are the branches of the response. -/
lemma Complete.fullRow_eq (h : tb.Complete) (hph : ph < D.kPhases) :
    tb.fullRow ph = branchRow D tb.mTaps tb.response ph := by
  have hlen := h.length_fullRow hph
  refine List.ext_getElem (by rw [hlen, length_branchRow]) fun t ht _ => ?_
  have hat := h.at_eq_some (hlen ▸ ht) hph
  rw [at_eq_fullRow tb (h.length_storedRow hph) (hlen ▸ ht), List.getElem?_eq_getElem ht,
    Option.some_inj] at hat
  simp only [branchRow, List.getElem_map, List.getElem_range, hat]

/-- The response is symmetric where its middle branch is. -/
lemma Complete.linearPhase_iff (h : tb.Complete) :
    LinearPhase (D.kPhases * tb.mTaps) tb.response
      ↔ ∀ ph < D.kPhases, 2 * ph + 1 = D.kPhases → (tb.fullRow ph).reverse = tb.fullRow ph := by
  constructor
  · intro hsym ph hph hmid
    have hrev := branchRow_reverse hsym hph
    rwa [show D.kPhases - 1 - ph = ph by omega, ← h.fullRow_eq hph] at hrev
  · intro hmid i hi
    obtain ⟨t, ph, ht, hph, rfl⟩ : ∃ t ph, t < tb.mTaps ∧ ph < D.kPhases ∧
        i = t * D.kPhases + ph :=
      ⟨_, _, Nat.div_lt_of_lt_mul hi, Nat.mod_lt i D.kPhases_pos, (Nat.div_add_mod' i _).symm⟩
    rw [Polyphase.mirror_index ht hph, getD_response ht hph,
      getD_response (by omega) (by omega)]
    by_cases hne : 2 * ph + 1 = D.kPhases
    · -- the middle branch is its own partner
      have hlen := h.length_fullRow hph
      have hback : tb.mTaps - 1 - (tb.mTaps - 1 - t) = t := by omega
      rw [show D.kPhases - 1 - ph = ph by omega, hback,
        at_eq_fullRow tb (h.length_storedRow hph) (by omega),
        at_eq_fullRow tb (h.length_storedRow hph) ht]
      conv_rhs => rw [← hmid ph hph hne, List.getElem?_reverse (by rwa [hlen]), hlen]
    · rw [at_partner tb hph hne (by omega)]

end Response

end PhaseTable

section Exact

variable [CommRing R] {tb : PhaseTable D R} {A : Word} {xs : List (List R)} {c n : ℕ}

/-- The chain of a prototype. -/
abbrev chain (D : Direction) (T : ℕ) (proto : List R) : (ℕ → R) → ℕ → R :=
  resample D.kPhases D.kDecimation (D.kPhases * T) (signal proto)

/-- An output is an output of the chain on the stream. -/
lemma outSample_eq_chain (h : tb.Complete) (hn : D.tick n < xs.length) :
    outSample (.exact R) tb xs n c
      = chain D tb.mTaps tb.response (signal (channel (.exact R) c xs)) n := by
  have hph := Nat.mod_lt (n * D.kDecimation) D.kPhases_pos
  rw [outSample_eq (Kernels.exact_exactDots R), h.fullRow_eq hph, newest_exact hn, chain,
    resample, decimate, fir_zeroStuff_eq_branch D.kPhases_pos, PhaseTable.branchRow]
  -- the window runs forward, and the branch backward
  let x := signal (channel (.exact R) c xs)
  let b := fun t => signal tb.response (t * D.kPhases + n * D.kDecimation % D.kPhases)
  exact (dot_map_range tb.mTaps _ _).trans
    (Finset.sum_range_reflect (fun t => b t * before x (D.tick n) t) tb.mTaps)

/-- What a converter emits is what the chain makes of what was appended. -/
lemma Drive.outAt_eq_chain (d : Drive A (.exact R) tb) (h : tb.Complete) (hT : 0 < tb.mTaps)
    (hc : c < d.channels) (hn : n < d.outs.length) :
    d.outAt c n = chain D tb.mTaps tb.response (d.fedAt c) n := by
  rw [d.outAt_eq hT hc hn, outSample_eq_chain h (d.tick_lt hT hn)]
  rfl

/-- A converter on a table that was made of any prototype with any quantizer of rows is a
rational resampler, on every channel and over every run.  The prototype of the resampler is
symmetric exactly when the quantized middle branch is, and so it always is going up, where no
branch is in the middle.  It is made of the quantized branches of the designed prototype, if
that is symmetric and the quantizer treats a row and its reversal alike. -/
theorem table_response {P : Type} [Zero P] {quantizeRow : List P → List R} {proto : List P}
    (hlen : ∀ row, (quantizeRow row).length = row.length) (hT : 0 < T) :
    let tb : PhaseTable D R := .ofPrototype D quantizeRow T proto
    let row := fun ph => quantizeRow (PhaseTable.branchRow D T proto ph)
    let L := D.kPhases
    (∀ (d : Drive A (.exact R) tb) (c n : ℕ), c < d.channels → n < d.outs.length →
      d.outAt c n = decimate D.kDecimation (fir (L * T) (signal tb.response)
        (zeroStuff L (d.fedAt c))) n) ∧
    (LinearPhase (L * T) tb.response ↔ ∀ ph, 2 * ph + 1 = L → (row ph).reverse = row ph) ∧
    ((∀ r, quantizeRow r.reverse = (quantizeRow r).reverse) → LinearPhase (L * T) proto →
      LinearPhase (L * T) tb.response ∧
        ∀ ph < L, PhaseTable.branchRow D T tb.response ph = row ph) := by
  intro tb row L
  have hfull : tb.Complete := PhaseTable.complete_ofPrototype hlen T proto
  have hphase : LinearPhase (L * T) tb.response
      ↔ ∀ ph, 2 * ph + 1 = L → (row ph).reverse = row ph := by
    -- the middle branch is stored as it is
    have hmiddle : ∀ ph, 2 * ph + 1 = L → tb.fullRow ph = row ph := by
      intro ph hmid
      have hlow : PhaseTable.isMirrored D ph = false := by
        rw [Bool.eq_false_iff, ne_eq, PhaseTable.isMirrored_iff, PhaseTable.kStored]
        omega
      rw [PhaseTable.fullRow_ofPrototype (fun i _ => by rw [hlen, PhaseTable.length_branchRow])
        (by omega), hlow, if_neg Bool.false_ne_true]
    refine hfull.linearPhase_iff.trans ⟨?_, ?_⟩
    · intro h ph hmid
      rw [← hmiddle ph hmid]
      exact h ph (by omega) hmid
    · intro h ph _ hmid
      rw [hmiddle ph hmid]
      exact h ph hmid
  refine ⟨fun d c n hc hn => d.outAt_eq_chain hfull hT hc hn, hphase, ?_⟩
  intro hrev hsym
  refine ⟨hphase.2 fun ph hmid => ?_, fun ph hph => ?_⟩
  · have hself := PhaseTable.branchRow_reverse hsym (show ph < D.kPhases by omega)
    rw [show D.kPhases - 1 - ph = ph by omega] at hself
    rw [← hrev, hself]
  · exact (hfull.fullRow_eq hph).symm.trans (PhaseTable.fullRow_eq_quantized hlen hrev hsym hph)

/-- Going up, a ramp for a prototype and halves cut off: the response is symmetric. -/
theorem table_response_ramp :
    let D : Direction := .upTo48k
    let quantizeRow : List ℤ → List ℤ := List.map (· / 2)
    let tb : PhaseTable D ℤ := .ofPrototype D quantizeRow 4 ((List.range 640).map Int.ofNat)
    LinearPhase (D.kPhases * 4) tb.response := by
  intro D quantizeRow tb
  refine (table_response (A := .exact) (fun _ => List.length_map _) four_pos).2.1.2 ?_
  intro ph hmid
  have hodd : 2 * ph + 1 = 160 := hmid
  omega

end Exact

end RatioTap
