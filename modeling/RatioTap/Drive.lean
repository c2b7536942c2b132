import RatioTap.SessionStream

/-!
# Driven converters

A `Drive` is a fresh converter together with the calls made on it, none of them with a block
the arithmetic does not cover.  It carries what the results about runs assume, so that results
about several converters can be stated about several drives.
-/

namespace RatioTap

open Converter FlatMemory

/-- A converter on the table `tb`, from its construction on. -/
structure Drive {D : Direction} {S K : Type} (A : Word) (k : Kernels S K) (tb : PhaseTable D K) :
    Type 1 where
  channels : ℕ
  conv : Converter D S K
  made : Converter.make k tb channels = .ok conv
  calls : List (Call S)
  admissible : ∀ call ∈ calls, call.Admissible A

variable {A : Word} {D : Direction} {S K : Type} {k : Kernels S K} {tb : PhaseTable D K}

namespace Drive

variable (d : Drive A k tb) {C c n : ℕ}

/-- The session that the calls make. -/
def session : Session D S K := (Session.start d.conv).run A k d.calls

/-- The frames appended since the last reset. -/
def fed : List (List S) := d.session.fed

/-- The frames emitted since the last reset. -/
def outs : List (List S) := d.session.outs

/-- A sample that was appended. -/
def fedAt (c j : ℕ) : S := (channel k c d.fed).getD j k.silence

/-- A sample that was emitted. -/
def outAt (c n : ℕ) : S := (channel k c d.outs).getD n k.silence

lemma described (hT : 0 < tb.mTaps) : d.session.Described k tb d.channels :=
  Session.described_run d.made hT d.admissible

end Drive

/-- The outputs emitted before a converter stands where it does have their frames. -/
lemma outFrames_append {C m e : ℕ} {xs : List (List S)} (hrest : Resting D xs.length (m + e))
    (zs : List (List S)) :
    ((List.range e).map fun i => Converter.outFrame k tb C (xs ++ zs) (m + i))
      = (List.range e).map fun i => Converter.outFrame k tb C xs (m + i) := by
  apply List.map_congr_left
  intro i hi
  rw [List.mem_range] at hi
  rcases hrest.lt with h0 | hlt
  · omega
  · have htick := D.tick_mono (show m + i ≤ m + e - 1 by omega)
    rw [Converter.outFrame, Converter.outFrame, Converter.outSample_append (by omega)]

/-- The frame under an output that was emitted has been appended. -/
lemma Session.Described.tick_lt {σ : Session D S K} {C n : ℕ} (h : σ.Described k tb C)
    (hn : n < σ.outs.length) : D.tick n < σ.fed.length := by
  rcases h.resting.lt with h0 | hlt
  · omega
  · exact (D.tick_mono (by omega)).trans_lt hlt

namespace Drive

variable (d : Drive A k tb) {C c n : ℕ}

lemma tick_lt (hT : 0 < tb.mTaps) (hn : n < d.outs.length) : D.tick n < d.fed.length :=
  (d.described hT).tick_lt hn

/-- A sample that was emitted is the output of the stream. -/
lemma outAt_eq (hT : 0 < tb.mTaps) (hc : c < d.channels) (hn : n < d.outs.length) :
    d.outAt c n = outSample k tb d.fed n c := by
  have hrange : (List.range d.session.outs.length)[n]? = some n := List.getElem?_range hn
  rw [outAt, outs, (d.described hT).channel_outs hc, List.getD_eq_getElem?_getD,
    List.getElem?_map, hrange]
  rfl

lemma channels_ne_zero : d.channels ≠ 0 := (make_eq_ok d.made).1

/-- The frames that were emitted, sample by sample. -/
lemma frames_outAt (hT : 0 < tb.mTaps) :
    (List.range d.outs.length).map (fun n => (List.range d.channels).map fun c => d.outAt c n)
      = d.outs := by
  refine Eq.trans ?_ (d.described hT).outs.symm
  apply List.map_congr_left
  intro n hn
  apply List.map_congr_left
  intro c hc
  rw [List.mem_range] at hn hc
  exact d.outAt_eq hT hc hn

/-! ### Frame by frame -/

section Frames

variable {C : ℕ} (hA : Covers A 1) (hC : C ≠ 0) (frame : ℕ → ℕ → S) (x : ℕ) (out : ℕ → S)

/-- A converter of `C` channels that is given `x` frames one by one; `frame j` is the memory that
frame `j` lies in. -/
def ofFrames (tb : PhaseTable D K) (k : Kernels S K) : Drive A k tb where
  channels := C
  conv := after k tb C [] 0 1
  made := make_ok hC
  calls := (List.range x).map fun j => .process (frame j) 1 out
  admissible := by
    intro call hcall
    obtain ⟨j, -, rfl⟩ := List.mem_map.1 hcall
    exact hA

lemma isProcess_ofFrames : ∀ call ∈ (ofFrames hA hC frame x out tb k).calls, call.IsProcess := by
  intro call hcall
  obtain ⟨j, -, rfl⟩ := List.mem_map.1 hcall
  trivial

lemma fed_ofFrames (hT : 0 < tb.mTaps) :
    (ofFrames hA hC frame x out tb k).fed
      = (List.range x).map fun j => (List.range C).map (frame j) := by
  let d := ofFrames hA hC frame x out tb k
  have hfed : d.fed = d.calls.flatMap (Call.block C) :=
    Session.fed_of_process d.made hT d.admissible (isProcess_ofFrames hA hC frame x out)
  refine hfed.trans ?_
  change ((List.range x).map _).flatMap _ = _
  rw [List.flatMap_map, List.map_eq_flatMap]
  congr 1
  ext1 j
  simp [Call.block, framesFrom, frameAt]

lemma length_fed_ofFrames (hT : 0 < tb.mTaps) :
    (ofFrames hA hC frame x out tb k).fed.length = x := by
  rw [fed_ofFrames hA hC frame x out hT, List.length_map, List.length_range]

lemma fedAt_ofFrames (hT : 0 < tb.mTaps) {c j : ℕ} (hc : c < C) (hj : j < x) :
    (ofFrames hA hC frame x out tb k).fedAt c j = frame j c := by
  rw [fedAt, fed_ofFrames hA hC frame x out hT, channel, List.map_map,
    List.getD_eq_getElem?_getD, List.getElem?_map, List.getElem?_range hj]
  simp [hc]

lemma length_outs_ofFrames (hT : 0 < tb.mTaps) :
    (ofFrames hA hC frame x out tb k).outs.length = D.due x := by
  let d := ofFrames hA hC frame x out tb k
  have hcount : d.outs.length = D.due d.fed.length :=
    Session.length_outs_of_process d.made hT d.admissible (isProcess_ofFrames hA hC frame x out)
  rwa [length_fed_ofFrames hA hC frame x out hT] at hcount

/-- The last frame leaves no output free. -/
lemma pending_ofFrames (hT : 0 < tb.mTaps) :
    (ofFrames hA hC frame x out tb k).session.conv.mPending ≠ 0 := by
  let d := ofFrames hA hC frame x out tb k
  refine Session.pending_ne_zero d.made hT d.admissible ?_
  intro out' n pop hlast
  exact isProcess_ofFrames hA hC frame x out _ (List.mem_of_getLast? hlast)

end Frames

end Drive

end RatioTap
