import RatioTap.FullTable
import RatioTap.SessionStream

/-!
# The gain at DC

The quantizer keeps the sum of a row, and it only ever sees the stored rows.  Reading a row
backward keeps its sum as well, so all phases have the one gain (`PhaseTable.sum_fullRow`),
and once the window of an output lies within a constant stretch of a channel, the output is
the constant times that gain, whatever its phase (`Session.run_dc`).
-/

namespace RatioTap

open Converter PhaseTable

variable {R P : Type} [CommRing R] [Zero P] {k : Kernels R R} {D : Direction} {A : Word}
  {quantizeRow : List P → List R} {T C c n j₀ : ℕ} {proto : List P} {xs : List (List R)}
  {kCoeffScale v : R}

/-- An output with a constant window has the gain of its row. -/
lemma outSample_const (hk : k.ExactDots)
    (hlen : ∀ ph < kStored D, (quantizeRow (branchRow D T proto ph)).length = T)
    (hsum : ∀ ph < kStored D, (quantizeRow (branchRow D T proto ph)).sum = kCoeffScale)
    (hn : D.tick n < xs.length) (hv : ∀ j x, j₀ ≤ j → (channel k c xs)[j]? = some x → x = v)
    (hin : j₀ + T - 1 ≤ D.tick n) :
    outSample k (ofPrototype D quantizeRow T proto) xs n c = kCoeffScale * v := by
  have hph := Nat.mod_lt (n * D.kDecimation) D.kPhases_pos
  have hgain := sum_fullRow hlen hsum hph
  have hdot := dot_replicate (length_fullRow hlen hph) v
  rw [outSample_eq hk, newest_const hn hv hin, ← hgain]
  exact hdot

namespace Session

/-- DC passes with one gain at every phase.  Where channel `c` of a stream is constantly `v`
from frame `j₀` on, every output whose window lies behind `j₀` is exactly `k_coeff_scale`
times `v`, for a stored and for a mirrored phase, however the stream was cut into blocks. -/
theorem run_dc {s : Converter D R R} {calls : List (Call R)} (hk : k.ExactDots)
    (hlen : ∀ ph < kStored D, (quantizeRow (branchRow D T proto ph)).length = T)
    (hsum : ∀ ph < kStored D, (quantizeRow (branchRow D T proto ph)).sum = kCoeffScale)
    (hs : Converter.make k (.ofPrototype D quantizeRow T proto) C = .ok s) (hT : 0 < T)
    (hcalls : ∀ call ∈ calls, call.Admissible A) (hproc : ∀ call ∈ calls, call.IsProcess)
    (hc : c < C)
    (hv : ∀ j x, j₀ ≤ j → (channel k c (calls.flatMap (Call.block C)))[j]? = some x → x = v) :
    let σ := (start s).run A k calls
    ∀ n < σ.outs.length, j₀ + T - 1 ≤ n * D.kDecimation / D.kPhases →
      (channel k c σ.outs)[n]? = some (kCoeffScale * v) := by
  intro σ n hn hin
  have h := described_run hs hT hcalls
  have hfed := fed_of_process hs hT hcalls hproc
  have hcount : σ.outs.length = D.due σ.fed.length := length_outs_of_process hs hT hcalls hproc
  have htick : D.tick n < σ.fed.length := D.lt_due_iff.1 (hcount ▸ hn)
  rw [← hfed] at hv
  rw [h.channel_outs hc, List.getElem?_map, List.getElem?_range hn, Option.map_some,
    outSample_const hk hlen hsum htick hv hin]

/-- A stereo stream whose right channel becomes constant, in two blocks, with a moving average
quantized to 15 bits. -/
theorem run_dc_stereo :
    let D : Direction := .upTo48k
    let quantizeRow : List ℚ → List ℤ := List.map fun x => ⌊x * 2 ^ 15⌋
    let proto := List.replicate (D.kPhases * 4) (1 / 4 : ℚ)
    let s := Converter.after (.exact ℤ) (.ofPrototype D quantizeRow 4 proto) 2 [] 0 1
    let calls : List (Call ℤ) := [.process (fun i => i) 1 fun _ => 0,
      .process (fun i => if i % 2 = 0 then i else 5) 6 fun _ => 0]
    let σ := (start s).run (.bits 64) (.exact ℤ) calls
    (channel (.exact ℤ) 1 σ.outs)[6]? = some (2 ^ 15 * 5) := by
  intro D quantizeRow proto s calls σ
  have hs : Converter.make (.exact ℤ) (.ofPrototype D quantizeRow 4 proto) 2 = .ok s :=
    make_ok two_ne_zero
  have hrow : ∀ ph < kStored D, quantizeRow (branchRow D 4 proto ph) = List.replicate 4 8192 := by
    intro ph hph
    have hph : ph < 80 := hph.trans_eq (by decide)
    have hbranch : branchRow D 4 proto ph = List.replicate 4 (1 / 4) := by
      rw [List.eq_replicate_iff]
      refine ⟨length_branchRow 4 proto ph, ?_⟩
      intro a ha
      obtain ⟨i, hi, rfl⟩ := List.mem_map.1 ha
      rw [List.mem_range] at hi
      refine List.getD_replicate _ ?_
      change (4 - 1 - i) * 160 + ph < 160 * 4
      omega
    have hfloor : ⌊(1 / 4 : ℚ) * 2 ^ 15⌋ = 8192 := by norm_num
    rw [hbranch]
    exact List.map_replicate.trans (congrArg (List.replicate 4) hfloor)
  have hcalls : ∀ call ∈ calls, call.Admissible (.bits 64) := by
    simp [calls, Call.Admissible, Covers]
  have hproc : ∀ call ∈ calls, call.IsProcess := by simp [calls, Call.IsProcess]
  have hv : ∀ j x, 1 ≤ j →
      (channel (.exact ℤ) 1 (calls.flatMap (Call.block 2)))[j]? = some x → x = 5 := by
    intro j x hj hx
    have hstream : channel (.exact ℤ) 1 (calls.flatMap (Call.block 2))
        = 1 :: List.replicate 6 5 := by decide
    obtain ⟨i, rfl⟩ : ∃ i, j = i + 1 := ⟨j - 1, by omega⟩
    rw [hstream, List.getElem?_cons_succ] at hx
    exact List.eq_of_mem_replicate (List.mem_of_getElem? hx)
  have hn : 6 < σ.outs.length := by
    have hcount : σ.outs.length = _ := length_outs_of_process hs four_pos hcalls hproc
    rw [hcount, fed_of_process hs four_pos hcalls hproc]
    exact D.lt_due_iff.2 (by decide)
  have hlen : ∀ ph < kStored D, (quantizeRow (branchRow D 4 proto ph)).length = 4 := by
    intro ph hph
    rw [hrow ph hph, List.length_replicate]
  have hsum : ∀ ph < kStored D, (quantizeRow (branchRow D 4 proto ph)).sum = 2 ^ 15 := by
    intro ph hph
    rw [hrow ph hph]
    rfl
  exact run_dc (Kernels.exact_exactDots ℤ) hlen hsum hs four_pos hcalls hproc one_lt_two hv 6 hn
    (by decide)

end Session

end RatioTap
