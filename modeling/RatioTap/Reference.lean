import RatioTap.Flush
import RatioTap.LinearResponse
import RatioTap.Prototype

/-!
# The golden reference

The script that makes the reference vectors designs the prototype a second time, normalizes its
branches a row of the reshaped vector at a time, and runs a whole-file resampler of another
library.  What it calls of its libraries is a parameter (`Reference.Libraries`), of which only the
documented lengths and values are used (`Reference.Libraries.Documented`).

In exact arithmetic the script computes what the converter does (`reference_vectors`): the two
normalizations agree on raw designs of any gain, the outputs of a file in blocks are the prefix
of the whole-file result that the script keeps, and a flush adds the rest of it.
-/

namespace RatioTap

open Upfirdn Converter Polyphase

/-! ### The script -/

namespace Reference

/-- The library calls of the script, with vectors as lists and arrays of two dimensions as
matrices. -/
structure Libraries (F : Type) where
  /-- `h.sum()`. -/
  sum (h : List F) : F
  /-- `h *= a`. -/
  scale (h : List F) (a : F) : List F
  /-- `h.reshape(rows, cols)`. -/
  reshape (rows cols : ℕ) (h : List F) : Matrix (Fin rows) (Fin cols) F
  /-- `a.sum(axis=0)`. -/
  sumAxis0 {rows cols : ℕ} (a : Matrix (Fin rows) (Fin cols) F) : Fin cols → F
  /-- `a / row`. -/
  divide {rows cols : ℕ} (a : Matrix (Fin rows) (Fin cols) F) (row : Fin cols → F) :
    Matrix (Fin rows) (Fin cols) F
  /-- `a.reshape(-1)`. -/
  ravel {rows cols : ℕ} (a : Matrix (Fin rows) (Fin cols) F) : List F
  /-- `signal.upfirdn(h, x, up, down)`. -/
  upfirdn (h x : List F) (up down : ℕ) : List F

/-- What the libraries document of these calls, in exact arithmetic. -/
structure Libraries.Documented {F : Type} [Field F] (lib : Libraries F) : Prop where
  sum (h : List F) : lib.sum h = h.sum
  length_scale (h : List F) (a : F) : (lib.scale h a).length = h.length
  /-- Arithmetic goes element by element. -/
  scale (h : List F) (a : F) (i : ℕ) : (lib.scale h a).getD i 0 = h.getD i 0 * a
  /-- A vector is read into an array of as many elements with the last index changing fastest. -/
  reshape {rows cols : ℕ} {h : List F} (hlen : h.length = rows * cols) (t : Fin rows)
    (ph : Fin cols) : lib.reshape rows cols h t ph = h.getD (t * cols + ph) 0
  /-- A sum over the first axis is one over the rows. -/
  sumAxis0 {rows cols : ℕ} (a : Matrix (Fin rows) (Fin cols) F) (ph : Fin cols) :
    lib.sumAxis0 a ph = ∑ t, a t ph
  /-- A row is broadcast to all rows. -/
  divide {rows cols : ℕ} {row : Fin cols → F} {ph : Fin cols} (hrow : row ph ≠ 0)
    (a : Matrix (Fin rows) (Fin cols) F) (t : Fin rows) :
    lib.divide a row t ph = a t ph / row ph
  length_ravel {rows cols : ℕ} (a : Matrix (Fin rows) (Fin cols) F) :
    (lib.ravel a).length = rows * cols
  /-- An array is read back in the same order. -/
  ravel {rows cols : ℕ} (a : Matrix (Fin rows) (Fin cols) F) (t : Fin rows) (ph : Fin cols) :
    (lib.ravel a).getD (t * cols + ph) 0 = a t ph
  /-- The convolution of `h` with the stuffed `x`, of which every `down`-th sample is kept. -/
  length_upfirdn {h x : List F} {up down : ℕ} (hh : h ≠ []) (hx : x ≠ []) (hup : 0 < up)
    (hdown : 0 < down) :
    (lib.upfirdn h x up down).length = ((x.length - 1) * up + h.length - 1) / down + 1
  /-- Upsample by inserting zeros, filter, downsample. -/
  upfirdn {h x : List F} {up down n : ℕ} (hh : h ≠ []) (hx : x ≠ []) (hup : 0 < up)
    (hdown : 0 < down) (hn : n < (lib.upfirdn h x up down).length) :
    (lib.upfirdn h x up down).getD n 0
      = decimate down (fir h.length (signal h) (zeroStuff up (signal x))) n

/-- `design(L, taps, …)`, from the windowed sinc `h` on. -/
def design {F : Type} [Field F] (lib : Libraries F) (L taps : ℕ) (h : List F) : List F :=
  let h := lib.scale h (L / lib.sum h)
  let branch := lib.sumAxis0 (lib.reshape taps L h)
  lib.ravel (lib.divide (lib.reshape taps L h) branch)

/-- `while (n_stream * M) // L < N_IN: n_stream += 1`. -/
def nStream (D : Direction) (nIn nStart : ℕ) : ℕ :=
  if nStart * D.kDecimation / D.kPhases < nIn then nStream D nIn (nStart + 1) else nStart
termination_by D.due nIn - nStart
decreasing_by
  have hlt : nStart < D.due nIn := D.lt_due_iff.2 ‹_›
  omega

end Reference

open Reference

/-! ### The design -/

section Design

variable {F : Type} [Field F] {lib : Libraries F} {D : Direction} {L T t ph : ℕ} {h : List F}

/-- The sums of the columns are the branch sums. -/
lemma sumAxis0_reshape (hlib : lib.Documented) (hlen : h.length = T * L) (ph : Fin L) :
    lib.sumAxis0 (lib.reshape T L h) ph = branchSum L T (fun i => h.getD i 0) ph := by
  rw [hlib.sumAxis0, branchSum, ← Fin.sum_univ_eq_sum_range fun t => h.getD (t * L + ph) 0]
  exact Finset.sum_congr rfl fun t _ => hlib.reshape hlen t ph

/-- The design, coefficient by coefficient. -/
lemma getD_design (hlib : lib.Documented) (hlen : h.length = T * L) (hL : (L : F) ≠ 0)
    (hsum : h.sum ≠ 0) (ht : t < T) (hph : ph < L)
    (hbranch : branchSum L T (fun i => h.getD i 0) ph ≠ 0) :
    (design lib L T h).getD (t * L + ph) 0
      = Polyphase.normalize L T (fun i => h.getD i 0) (t * L + ph) := by
  let h₁ := lib.scale h (L / lib.sum h)
  have hlen₁ : h₁.length = T * L := (hlib.length_scale _ _).trans hlen
  have hgain : L / h.sum ≠ 0 := div_ne_zero hL hsum
  have hscale : (fun i => h₁.getD i 0) = fun i => L / h.sum * h.getD i 0 := by
    ext i
    rw [← hlib.sum h, mul_comm]
    exact hlib.scale h _ i
  have hrow : lib.sumAxis0 (lib.reshape T L h₁) ⟨ph, hph⟩ ≠ 0 := by
    rw [sumAxis0_reshape hlib hlen₁, hscale, branchSum_mul_left]
    exact mul_ne_zero hgain hbranch
  calc (design lib L T h).getD (t * L + ph) 0
      = lib.divide (lib.reshape T L h₁) (lib.sumAxis0 (lib.reshape T L h₁)) ⟨t, ht⟩ ⟨ph, hph⟩ :=
        hlib.ravel _ ⟨t, ht⟩ ⟨ph, hph⟩
    _ = h₁.getD (t * L + ph) 0 / branchSum L T (fun i => h₁.getD i 0) ph := by
        rw [hlib.divide hrow, hlib.reshape hlen₁, sumAxis0_reshape hlib hlen₁]
    _ = Polyphase.normalize L T (fun i => h₁.getD i 0) (t * L + ph) := by
        rw [Polyphase.normalize, mod_index t hph, div_eq_mul_one_div]
    _ = Polyphase.normalize L T (fun i => h.getD i 0) (t * L + ph) := by
        rw [hscale, normalize_mul_left hgain]

lemma length_design (hlib : lib.Documented) (h : List F) :
    (design lib L T h).length = L * T :=
  (hlib.length_ravel _).trans (Nat.mul_comm T L)

/-- The design of the script is the normalized filter. -/
lemma design_eq (hlib : lib.Documented) (hlen : h.length = L * T) (hL : (L : F) ≠ 0)
    (hsum : h.sum ≠ 0) (hbranch : ∀ ph < L, branchSum L T (fun i => h.getD i 0) ph ≠ 0) :
    design lib L T h = (List.range (L * T)).map (Polyphase.normalize L T fun i => h.getD i 0) := by
  apply List.ext_getElem
  · rw [length_design hlib, List.length_map, List.length_range]
  · intro i hi _
    have hpos : 0 < L := Nat.pos_of_ne_zero fun h0 => hL (by rw [h0, Nat.cast_zero])
    have hdiv : i / L < T := Nat.div_lt_of_lt_mul (length_design hlib h ▸ hi)
    have hmod := Nat.mod_lt i hpos
    have hentry := getD_design hlib (hlen.trans (Nat.mul_comm L T)) hL hsum hdiv hmod
      (hbranch _ hmod)
    rw [Nat.div_add_mod', List.getD_eq_getElem _ _ hi] at hentry
    rw [hentry, List.getElem_map, List.getElem_range]

/-- The loop of `design_prototype` makes the design of the script, from the same raw vector up to
its gain. -/
lemma normalize_eq_design (hlib : lib.Documented) {A : Word} (hA : A.Fits (D.kPhases * T))
    (hlen : h.length = D.kPhases * T) (hL : (D.kPhases : F) ≠ 0) (hsum : h.sum ≠ 0)
    (hbranch : ∀ ph < D.kPhases, branchSum D.kPhases T (fun i => h.getD i 0) ph ≠ 0) {a : F}
    (ha : a ≠ 0) :
    Prototype.normalize A D T (h.map (a * ·)) = .ok (design lib D.kPhases T h) := by
  let g := h.map (a * ·)
  have hlen' : g.length = D.kPhases * T := by rw [List.length_map, hlen]
  have hscale : (fun i => g.getD i 0) = fun i => a * h.getD i 0 := by
    ext i
    simp only [g, List.getD_eq_getElem?_getD, List.getElem?_map]
    cases h[i]? <;> simp
  rw [Prototype.normalize_eq hA hlen', design_eq hlib hlen hL hsum hbranch, Except.ok.injEq]
  apply List.ext_getElem
  · rw [List.length_mapIdx, hlen', List.length_map, List.length_range]
  · intro i hi hi'
    have hi : i < g.length := by rwa [List.length_mapIdx] at hi
    have hcoef : g[i] = a * h.getD i 0 := by rw [← congrFun hscale i, List.getD_eq_getElem _ _ hi]
    rw [List.getElem_mapIdx, List.getElem_map (f := Polyphase.normalize _ _ _), List.getElem_range,
      Prototype.branchGain, Prototype.branchTotal_eq, ← normalize_mul_left ha, hscale, hcoef]
    rfl

lemma linearPhase_design (hlib : lib.Documented) (hlen : h.length = D.kPhases * T)
    (hL : (D.kPhases : F) ≠ 0) (hsum : h.sum ≠ 0)
    (hbranch : ∀ ph < D.kPhases, branchSum D.kPhases T (fun i => h.getD i 0) ph ≠ 0)
    (hsym : LinearPhase (D.kPhases * T) h) :
    LinearPhase (D.kPhases * T) (design lib D.kPhases T h) := by
  intro i hi
  have hcoef (j : ℕ) (hj : j < D.kPhases * T) : (design lib D.kPhases T h).getD j 0
      = Polyphase.normalize D.kPhases T (fun i => h.getD i 0) j := by
    rw [design_eq hlib hlen hL hsum hbranch]
    simp [hj]
  rw [hcoef i hi, hcoef _ (by omega)]
  exact (linearPhase_iff.1 hsym).normalize i hi

end Design

/-! ### The whole file -/

/-- The script counts the outputs whose input lies within the file. -/
lemma nStream_eq {D : Direction} {x n : ℕ} (h : n ≤ D.due x) : nStream D x n = D.due x := by
  induction n using nStream.induct D x with
  | case1 n hlt ih =>
      rw [nStream, if_pos hlt]
      exact ih (D.lt_due_iff.2 hlt)
  | case2 n hge =>
      rw [nStream, if_neg hge]
      exact le_antisymm h (D.due_le_iff.2 (Nat.le_of_not_lt hge))

/-- What a flush appends, and how many outputs there are then. -/
lemma Session.Described.step_flush {A : Word} {D : Direction} {S K : Type} {k : Kernels S K}
    {tb : PhaseTable D K} {C : ℕ} {σ : Session D S K} (h : σ.Described k tb C) (hT : 0 < tb.mTaps)
    (out : ℕ → S) :
    (σ.step A k (.flush out)).fed = padded k C σ.fed tb.mTaps ∧
      (σ.step A k (.flush out)).outs.length = D.due (σ.fed.length + tb.mTaps) := by
  have hflush := h.flush hT out
  have hle := h.resting.toStanding.le_due_add tb.mTaps
  constructor
  · change σ.fed ++ List.replicate σ.conv.taps (List.replicate σ.conv.mChannels k.silence) = _
    rw [h.conv, taps_after, channels_after]
    rfl
  · change (σ.outs ++ FlatMemory.framesFrom _ _ (σ.conv.flush k out).ret).length = _
    rw [List.length_append, FlatMemory.length_framesFrom, hflush]
    exact Nat.add_sub_of_le hle

lemma proto_ne_nil {F : Type} {D : Direction} {T : ℕ} {proto : List F}
    (hlen : proto.length = D.kPhases * T) (hT : 0 < T) : proto ≠ [] :=
  List.length_pos_iff.1 (hlen ▸ Nat.mul_pos D.kPhases_pos hT)

section WholeFile

variable {F : Type} [Field F] {lib : Libraries F} {D : Direction} {T C c : ℕ} {proto xs : List F}

/-- Silence at the end of a signal does not show. -/
lemma signal_append_replicate (xs : List F) (n : ℕ) :
    signal (xs ++ List.replicate n 0) = signal xs := by
  ext j
  rw [signal, signal]
  rcases Nat.lt_or_ge j xs.length with hj | hj
  · rw [List.getD_append _ _ _ _ hj]
  · rw [List.getD_append_right _ _ _ _ hj, List.getD_eq_default xs 0 hj,
      List.getD_eq_getElem?_getD, List.getElem?_replicate]
    split <;> rfl

/-- The outputs of a session are outputs of the chain. -/
lemma Session.Described.channel_outs_eq_chain {σ : Session D F F}
    (h : σ.Described (.exact F) (.ofPrototype D id T proto) C)
    (hsym : LinearPhase (D.kPhases * T) proto) (hc : c < C) :
    channel (.exact F) c σ.outs = (List.range σ.outs.length).map
      (chain D T proto (signal (channel (.exact F) c σ.fed))) := by
  rw [h.channel_outs hc]
  apply List.map_congr_left
  intro n hn
  exact outSample_eq_fir hsym (h.tick_lt (List.mem_range.1 hn))

/-- The length of the whole-file result. -/
lemma length_upfirdn (hlib : lib.Documented) (hlen : proto.length = D.kPhases * T) (hT : 0 < T)
    (hx : 0 < xs.length) :
    (lib.upfirdn proto xs D.kPhases D.kDecimation).length
      = ((xs.length - 1) * D.kPhases + D.kPhases * T - 1) / D.kDecimation + 1 := by
  rw [hlib.length_upfirdn (proto_ne_nil hlen hT) (List.length_pos_iff.1 hx) D.kPhases_pos
    D.kDecimation_pos, hlen]

/-- The whole-file result is what the chain makes of the file, up to its length. -/
lemma upfirdn_eq (hlib : lib.Documented) (hlen : proto.length = D.kPhases * T) (hT : 0 < T)
    (hx : 0 < xs.length) :
    lib.upfirdn proto xs D.kPhases D.kDecimation
      = (List.range (lib.upfirdn proto xs D.kPhases D.kDecimation).length).map
          (chain D T proto (signal xs)) := by
  apply List.ext_getElem
  · rw [List.length_map, List.length_range]
  · intro n hn _
    have hvalue := hlib.upfirdn (proto_ne_nil hlen hT) (List.length_pos_iff.1 hx) D.kPhases_pos
      D.kDecimation_pos hn
    rw [List.getD_eq_getElem _ _ hn, hlen] at hvalue
    rw [hvalue, List.getElem_map, List.getElem_range]
    rfl

lemma due_le_length_upfirdn (hlib : lib.Documented) (hlen : proto.length = D.kPhases * T)
    (hT : 0 < T) (hx : 0 < xs.length) :
    D.due xs.length ≤ (lib.upfirdn proto xs D.kPhases D.kDecimation).length := by
  obtain ⟨y, hy⟩ : ∃ y, xs.length = y + 1 := ⟨xs.length - 1, by omega⟩
  have hL := D.kPhases_pos
  have hle := Nat.le_mul_of_pos_right D.kPhases hT
  have hmul : (y + 1) * D.kPhases = y * D.kPhases + D.kPhases := Nat.succ_mul y _
  rw [length_upfirdn hlib hlen hT hx, Direction.due_eq_div hx, hy, Nat.add_sub_cancel]
  exact Nat.succ_le_succ (Nat.div_le_div_right (by omega))

lemma length_upfirdn_le (hlib : lib.Documented) (hlen : proto.length = D.kPhases * T)
    (hT : 0 < T) (hx : 0 < xs.length) :
    (lib.upfirdn proto xs D.kPhases D.kDecimation).length ≤ D.due (xs.length + T) := by
  obtain ⟨y, hy⟩ : ∃ y, xs.length = y + 1 := ⟨xs.length - 1, by omega⟩
  have hmul : (y + 1 + T) * D.kPhases = y * D.kPhases + D.kPhases * T + D.kPhases := by ring
  rw [length_upfirdn hlib hlen hT hx, Direction.due_eq_div (by omega), hy, Nat.add_sub_cancel]
  exact Nat.succ_le_succ (Nat.div_le_div_right (by omega))

/-- The whole-file result, continued by zeros: all that the chain makes of the file. -/
lemma upfirdn_append (hlib : lib.Documented) (hlen : proto.length = D.kPhases * T) (hT : 0 < T)
    (hx : 0 < xs.length) :
    lib.upfirdn proto xs D.kPhases D.kDecimation
        ++ List.replicate (D.due (xs.length + T)
          - (lib.upfirdn proto xs D.kPhases D.kDecimation).length) 0
      = (List.range (D.due (xs.length + T))).map (chain D T proto (signal xs)) := by
  have hlength := length_upfirdn hlib hlen hT hx
  have hle := length_upfirdn_le hlib hlen hT hx
  have hvalue := upfirdn_eq hlib hlen hT hx
  generalize lib.upfirdn proto xs D.kPhases D.kDecimation = y at *
  obtain ⟨r, hr⟩ : ∃ r, D.due (xs.length + T) = y.length + r :=
    ⟨_, (Nat.add_sub_of_le hle).symm⟩
  rw [hr, Nat.add_sub_cancel_left, List.range_add, List.map_append, ← hvalue, List.map_map]
  congr 1
  symm
  rw [List.eq_replicate_iff]
  refine ⟨by simp, ?_⟩
  intro a ha
  obtain ⟨i, -, rfl⟩ := List.mem_map.1 ha
  refine resample_eq_zero D.kPhases_pos (fun _ => signal_eq_zero) ?_
  -- from its length on, every product of the whole-file resampler is with a zero
  have hlast : (xs.length - 1) * D.kPhases + D.kPhases * T - 1
      < D.kDecimation * (((xs.length - 1) * D.kPhases + D.kPhases * T - 1) / D.kDecimation + 1) :=
    Nat.lt_mul_div_succ _ D.kDecimation_pos
  have hmono := Nat.mul_le_mul_right D.kDecimation (Nat.le_add_right y.length i)
  have hmul := Nat.mul_comm y.length D.kDecimation
  rw [← hlength] at hlast
  change (xs.length - 1) * D.kPhases + D.kPhases * T ≤ (y.length + i) * D.kDecimation
  omega

end WholeFile

/-- The golden reference, with libraries that do what they document.  From a symmetric raw
prototype of any gain, in which no sum that is divided by is zero, the design of the source and
the design of the script are the same filter.  A converter on it, given a file in any blocks, has
emitted on every channel the prefix of the whole-file result of `upfirdn` that the script keeps;
and flushed, all of that result, with zeros behind it. -/
theorem reference_vectors {F : Type} [Field F] {lib : Libraries F} {A B : Word} {D : Direction}
    {T : ℕ} {h : List F} {a : F} (hlib : lib.Documented) (hB : B.Fits (D.kPhases * T)) (hT : 0 < T)
    (hL : (D.kPhases : F) ≠ 0) (hlen : h.length = D.kPhases * T) (hsum : h.sum ≠ 0)
    (hbranch : ∀ ph < D.kPhases, ∑ t ∈ Finset.range T, h.getD (t * D.kPhases + ph) 0 ≠ 0)
    (ha : a ≠ 0) (hsym : LinearPhase (D.kPhases * T) h) :
    ∃ proto, Prototype.normalize B D T (h.map (a * ·)) = .ok proto ∧
      proto = design lib D.kPhases T h ∧
      ∀ (C : ℕ) (s : Converter D F F) (calls : List (Call F)) (c : ℕ) (out : ℕ → F),
        Converter.make (.exact F) (.ofPrototype D id T proto) C = .ok s →
        (∀ call ∈ calls, call.Admissible A) → (∀ call ∈ calls, call.IsProcess) → c < C →
        let x := channel (.exact F) c (calls.flatMap (Call.block C))
        let y := lib.upfirdn proto x D.kPhases D.kDecimation
        0 < x.length →
          nStream D x.length 0 ≤ y.length ∧
          channel (.exact F) c ((Session.start s).run A (.exact F) calls).outs
            = y.take (nStream D x.length 0) ∧
          channel (.exact F) c ((Session.start s).run A (.exact F) (calls ++ [.flush out])).outs
            = y ++ List.replicate (D.due (x.length + T) - y.length) 0 := by
  have hproto : (design lib D.kPhases T h).length = D.kPhases * T := length_design hlib h
  have hphase := linearPhase_design hlib hlen hL hsum hbranch hsym
  refine ⟨design lib D.kPhases T h, normalize_eq_design hlib hB hlen hL hsum hbranch ha, rfl, ?_⟩
  generalize design lib D.kPhases T h = proto at hproto hphase ⊢
  intro C s calls c out hs hcalls hproc hc x y hx
  have hσ := Session.described_run hs hT hcalls
  have hfed := Session.fed_of_process hs hT hcalls hproc
  have hcount := Session.length_outs_of_process hs hT hcalls hproc
  have hxlen : x.length = (calls.flatMap (Call.block C)).length := length_channel
  have hstream : nStream D x.length 0 = D.due x.length := nStream_eq (Nat.zero_le _)
  have hle : D.due x.length ≤ y.length := due_le_length_upfirdn hlib hproto hT hx
  refine ⟨hstream ▸ hle, ?_, ?_⟩
  · have hy : y = (List.range y.length).map (chain D T proto (signal x)) :=
      upfirdn_eq hlib hproto hT hx
    rw [hσ.channel_outs_eq_chain hphase hc, hcount, hfed, ← hxlen, hstream, hy, ← List.map_take,
      List.take_range, Nat.min_eq_left hle]
  · obtain ⟨hfed', hcount'⟩ := hσ.step_flush (A := A) hT out
    have hadm : (Call.flush out).Admissible A := trivial
    have hτ := hσ.step hT hadm
    rw [Session.run_append, Session.run_cons, Session.run_nil, hτ.channel_outs_eq_chain hphase hc,
      hcount', hfed', padded, channel_append, channel_silence, hfed]
    have hsilence : signal (x ++ List.replicate T (0 : F)) = signal x :=
      signal_append_replicate x T
    refine Eq.trans ?_ (upfirdn_append hlib hproto hT hx).symm
    rw [← hsilence, hxlen]
    rfl

/-- The documented calls carried out on lists. -/
def Reference.Libraries.lists (F : Type) [Field F] : Libraries F where
  sum h := h.sum
  scale h a := h.map (· * a)
  reshape _ cols h := fun t ph => h.getD (t * cols + ph) 0
  sumAxis0 a := fun ph => ∑ t, a t ph
  divide a row := fun t ph => a t ph / row ph
  ravel a := List.ofFn fun i => a (Fin.divNat i) (Fin.modNat i)
  upfirdn h x up down := (List.range (((x.length - 1) * up + h.length - 1) / down + 1)).map
    (decimate down (fir h.length (signal h) (zeroStuff up (signal x))))

lemma Reference.Libraries.lists_documented (F : Type) [Field F] : (lists F).Documented where
  sum _ := rfl
  length_scale _ _ := List.length_map _
  scale h a i := by
    change (h.map (· * a)).getD i 0 = _
    rw [List.getD_eq_getElem?_getD, List.getElem?_map, List.getD_eq_getElem?_getD]
    cases h[i]? <;> simp
  reshape _ _ _ := rfl
  sumAxis0 _ _ := rfl
  divide _ _ _ := rfl
  length_ravel _ := List.length_ofFn
  ravel {rows cols} a t ph := by
    have hlt : t * cols + ph < rows * cols := Nat.mul_comm cols rows ▸ index_lt t.2 ph.2
    change (List.ofFn _).getD _ 0 = _
    rw [List.getD_eq_getElem _ _ (by rwa [List.length_ofFn]), List.getElem_ofFn]
    congr 1
    · exact Fin.ext (div_index t ph.2)
    · exact Fin.ext (mod_index t ph.2)
  length_upfirdn _ _ _ _ := (List.length_map _).trans List.length_range
  upfirdn _ _ _ _ hn := by
    rw [List.getD_eq_getElem _ _ hn]
    exact (List.getElem_map _).trans (congrArg _ (List.getElem_range _))

/-- Down, on a raw moving sum of gain three, with five stereo frames in two blocks. -/
theorem reference_vectors_box :
    let D : Direction := .downTo44k1
    let lib := Libraries.lists ℚ
    let h := List.replicate (D.kPhases * 4) (1 : ℚ)
    let proto := design lib D.kPhases 4 h
    let s := Converter.after (.exact ℚ) (.ofPrototype D id 4 proto) 2 [] 0 1
    let calls : List (Call ℚ) := [.process (fun i => i) 2 fun _ => 0,
      .process (fun i => i * i) 3 fun _ => 0]
    let x := channel (.exact ℚ) 1 (calls.flatMap (Call.block 2))
    let y := lib.upfirdn proto x D.kPhases D.kDecimation
    Prototype.normalize (.bits 32) D 4 (h.map (3 * ·)) = .ok proto ∧
      channel (.exact ℚ) 1 ((Session.start s).run (.bits 64) (.exact ℚ) calls).outs
        = y.take (nStream D x.length 0) := by
  intro D lib h proto s calls x y
  have hB : (Word.bits 32).Fits (D.kPhases * 4) := by
    change 147 * 4 < 2 ^ 32
    decide
  have hsum : h.sum ≠ 0 := by
    rw [List.sum_replicate, nsmul_one]
    exact Nat.cast_ne_zero.2 (by decide)
  have hbranch : ∀ ph < D.kPhases, ∑ t ∈ Finset.range 4, h.getD (t * D.kPhases + ph) 0 ≠ 0 := by
    intro ph hph
    have hone : ∀ t ∈ Finset.range 4, h.getD (t * D.kPhases + ph) 0 = 1 := by
      intro t ht
      have hlt : t * D.kPhases + ph < h.length :=
        List.length_replicate ▸ index_lt (Finset.mem_range.1 ht) hph
      rw [List.getD_eq_getElem _ _ hlt, List.getElem_replicate]
    rw [Finset.sum_congr rfl hone, Finset.sum_const, Finset.card_range, nsmul_one]
    exact Nat.cast_ne_zero.2 (by decide)
  obtain ⟨proto', hrun, hproto, hfile⟩ := reference_vectors (A := .bits 64) (a := (3 : ℚ))
    (Libraries.lists_documented ℚ) hB four_pos (Nat.cast_ne_zero.2 (by decide))
    List.length_replicate hsum hbranch three_ne_zero (linearPhase_replicate _ _)
  rw [hproto] at hrun hfile
  have hcalls : ∀ call ∈ calls, call.Admissible (.bits 64) := by
    simp [calls, Call.Admissible, Covers]
  have hproc : ∀ call ∈ calls, call.IsProcess := by simp [calls, Call.IsProcess]
  have hx : 0 < x.length := by
    rw [length_channel]
    decide
  exact ⟨hrun, (hfile 2 s calls 1 (fun _ => 0) (make_ok two_ne_zero) hcalls hproc one_lt_two
    hx).2.1⟩

end RatioTap
