import RatioTap.FullTable
import RatioTap.Lib.Upfirdn
import RatioTap.SessionStream

/-!
# A converter is a rational resampler

In exact arithmetic, with a linear-phase prototype of `L * T` coefficients, a converter that
processes a stream in blocks computes the textbook chain on it: stuff zeros, filter with the
prototype, keep every `M`-th sample (`Session.run_upfirdn`).  The chain meets the phase table
in one branch of the prototype per output (`outSample_eq_fir`).
-/

namespace RatioTap

open Upfirdn Converter

variable {R : Type} [CommRing R] {D : Direction} {A : Word} {T C c n : ℕ} {proto : List R}
  {xs : List (List R)}

/-- A list as a signal, zero from its end on. -/
def signal (xs : List R) : ℕ → R := fun j => xs.getD j 0

lemma signal_eq_zero {xs : List R} {j : ℕ} (h : xs.length ≤ j) : signal xs j = 0 :=
  List.getD_eq_default xs 0 h

/-- The window of an output holds the samples before its input. -/
lemma newest_exact {tb : PhaseTable D R} {q : ℕ} (hq : q < xs.length) :
    newest (.exact R) tb c (xs.take (q + 1)) = (List.range tb.mTaps).map fun i =>
      before (signal (channel (.exact R) c xs)) q (tb.mTaps - 1 - i) := by
  rw [newest_take _ _ hq]
  apply List.map_congr_left
  intro i hi
  rw [List.mem_range] at hi
  split
  · exact (before_of_lt (by omega)).symm
  · rw [before_of_le (by omega), show q - (tb.mTaps - 1 - i) = q + 1 + i - tb.mTaps by omega]
    rfl

/-- An output is an output of the filter on the stuffed stream. -/
lemma outSample_eq_fir (hsym : LinearPhase (D.kPhases * T) proto) (hn : D.tick n < xs.length) :
    outSample (.exact R) (PhaseTable.ofPrototype D id T proto) xs n c
      = decimate D.kDecimation (fir (D.kPhases * T) (signal proto)
          (zeroStuff D.kPhases (signal (channel (.exact R) c xs)))) n := by
  have hph := Nat.mod_lt (n * D.kDecimation) D.kPhases_pos
  rw [outSample_eq (Kernels.exact_exactDots R), PhaseTable.fullRow_eq_branchRow hsym hph,
    newest_exact hn, decimate, fir_zeroStuff_eq_branch D.kPhases_pos, PhaseTable.branchRow]
  -- the window runs forward, and the branch backward
  let x := signal (channel (.exact R) c xs)
  let h := fun t => signal proto (t * D.kPhases + n * D.kDecimation % D.kPhases)
  exact (dot_map_range T _ _).trans
    (Finset.sum_range_reflect (fun t => h t * before x (D.tick n) t) T)

namespace Session

/-- A converter that processes a stream in blocks, cut in any way, emits on every channel
exactly the outputs of the chain whose input lies within the stream. -/
theorem run_upfirdn {s : Converter D R R} {calls : List (Call R)}
    (hs : Converter.make (.exact R) (.ofPrototype D id T proto) C = .ok s) (hT : 0 < T)
    (hsym : LinearPhase (D.kPhases * T) proto) (hcalls : ∀ call ∈ calls, call.Admissible A)
    (hproc : ∀ call ∈ calls, call.IsProcess) (hc : c < C) :
    let L := D.kPhases
    let M := D.kDecimation
    let x := channel (.exact R) c (calls.flatMap (Call.block C))
    let y := fun n => ∑ j ∈ Finset.range x.length with j * L ≤ n * M ∧ n * M - j * L < L * T,
      signal x j * signal proto (n * M - j * L)
    (∀ n, (channel (.exact R) c ((start s).run A (.exact R) calls).outs)[n]?
      = if n * M / L < x.length then some (y n) else none) ∧
    y = decimate M (fir (L * T) (signal proto) (zeroStuff L (signal x))) := by
  intro L M x y
  have hy : y = decimate M (fir (L * T) (signal proto) (zeroStuff L (signal x))) := by
    ext n
    exact (decimate_fir_zeroStuff D.kPhases_pos (fun _ => signal_eq_zero) n).symm
  refine ⟨?_, hy⟩
  intro n
  have h := described_run hs hT hcalls
  have hfed := fed_of_process hs hT hcalls hproc
  have hcount := length_outs_of_process hs hT hcalls hproc
  have hlen : x.length = (calls.flatMap (Call.block C)).length := length_channel
  rw [h.channel_outs hc, hcount, hfed, hy, List.getElem?_map]
  split
  · next hn =>
    have hdue : n < D.due (calls.flatMap (Call.block C)).length := D.lt_due_iff.2 (hlen ▸ hn)
    rw [List.getElem?_range hdue, Option.map_some, outSample_eq_fir hsym (hlen ▸ hn)]
  · next hn =>
    have hdue : D.due (calls.flatMap (Call.block C)).length ≤ n :=
      D.due_le_iff.2 (Nat.le_of_not_lt (hlen ▸ hn))
    rw [List.getElem?_eq_none (by rwa [List.length_range])]
    rfl

/-- The right channel of three blocks, one of them empty, through a moving sum going down. -/
theorem run_upfirdn_blocks :
    let D : Direction := .downTo44k1
    let proto := List.replicate (D.kPhases * 4) (1 : ℤ)
    let s := Converter.after (.exact ℤ) (.box D 4) 2 [] 0 1
    let calls : List (Call ℤ) := [.process (fun i => i) 5 fun _ => 0,
      .process (fun _ => 0) 0 fun _ => 0, .process (fun i => i * i) 3 fun _ => 0]
    let x := channel (.exact ℤ) 1 (calls.flatMap (Call.block 2))
    (channel (.exact ℤ) 1 ((start s).run (.bits 64) (.exact ℤ) calls).outs)[3]?
      = if 3 * D.kDecimation / D.kPhases < x.length then
          some (∑ j ∈ Finset.range x.length with j * D.kPhases ≤ 3 * D.kDecimation ∧
            3 * D.kDecimation - j * D.kPhases < D.kPhases * 4,
              signal x j * signal proto (3 * D.kDecimation - j * D.kPhases))
        else none := by
  intro D proto s calls x
  have hs : Converter.make (.exact ℤ) (.ofPrototype D id 4 proto) 2 = .ok s :=
    make_ok two_ne_zero
  have hsym : LinearPhase (D.kPhases * 4) proto := by
    intro i hi
    rw [List.getD_replicate _ hi, List.getD_replicate _ (by omega)]
  have hcalls : ∀ call ∈ calls, call.Admissible (.bits 64) := by
    simp [calls, Call.Admissible, Covers]
  have hproc : ∀ call ∈ calls, call.IsProcess := by simp [calls, Call.IsProcess]
  exact (run_upfirdn hs four_pos hsym hcalls hproc one_lt_two).1 3

end Session

end RatioTap
