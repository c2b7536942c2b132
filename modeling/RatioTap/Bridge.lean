import RatioTap.CApiHandles
import RatioTap.Drive
import RatioTap.Flush

/-!
# The Python bridge

`ratiotap_py.py`: a Python object behind a handle of the C interface.  Its methods ask the
converter how many frames there will be, take an array of exactly that many from `np.empty`, and
return what the call has written of it.

An array is the memory from its start on; what lies behind it, and what is in an array that
nobody has filled, is arbitrary.  A bridge never returns any of that and never writes behind an
array (`bridge_stream`): every array is filled to its end, and what the arrays hold, one after
the other, only depends on the samples that went in.
-/

namespace RatioTap.Bridge

open CApi Converter FlatMemory

/-! ### The module -/

/-- The names of `_PROFILES`. -/
inductive ProfileName where
  | economy | transparent | balanced | superEconomy
deriving DecidableEq, Repr

/-- The profile of the library that has the name. -/
def ProfileName.profile : ProfileName → Profile
  | economy => .economy
  | transparent => .transparent
  | balanced => .balanced
  | superEconomy => .superEconomy

/-- `_DIRS`, by the direction that the name means. -/
def dirs : Direction → ℤ
  | .upTo48k => 0
  | .downTo44k1 => 1

/-- `_PROFILES`. -/
def profiles : ProfileName → ℤ
  | .economy => 0
  | .transparent => 1
  | .balanced => 2
  | .superEconomy => 3

/-- `RatioConverter`. -/
structure PyConverter where
  /-- `_h`. -/
  h : ℕ
  /-- `_channels`. -/
  channels : ℕ

/-- What a method returns: the array, the number of samples that were allocated for it, and the
memory from its start on. -/
structure Returned (S : Type) where
  array : List S
  size : ℕ
  memory : ℕ → S

variable {F S K : Type}

/-- `RatioConverter(direction, profile, channels)`, which raises a `ValueError` where there is no
handle.  The number of channels is passed as a `c_uint`. -/
def PyConverter.init [Zero F] [One F] [Add F] [Mul F] [Div F] [Zero K] [Zero S] (env : Env F S K)
    (h : Heap S K) (g : CreateGrants) (direction : Direction) (profile : ProfileName)
    (channels : ℕ) : Option (Heap S K × Option PyConverter) := do
  let r ← ratioCreate env h g (dirs direction) (profiles profile) (channels % 2 ^ 32)
  pure (r.1, if r.2 = 0 then none else some ⟨r.2, channels⟩)

/-- A returned number. -/
def countOf : Reply S → Option ℕ
  | .count n => some n
  | _ => none

/-- A returned number of frames, with the memory they are in. -/
def framesOf : Reply S → Option (ℕ × (ℕ → S))
  | .frames n out => some (n, out)
  | _ => none

/-- The memory from the start of an array on. -/
def dataAs (x : List S) (behind : ℕ → S) : ℕ → S := fun i => x.getD i (behind i)

/-- `y[: made * channels]`, of an array of `size` samples. -/
def sliceTo (size n : ℕ) (memory : ℕ → S) : List S := ((List.range size).map memory).take n

section Methods

variable (A : Word) (k : Kernels S K) (c : PyConverter) (h : Heap S K)

/-- `process(x)`: `behind` is the memory behind the samples, `memory` that from the new array
on. -/
def PyConverter.process (x : List S) (behind memory : ℕ → S) :
    Option (Heap S K × Returned S) := do
  let frames := x.length / c.channels
  let n ← ratioOutputsFor A k h c.h frames
  let size := (← countOf n.2) * c.channels
  let r ← ratioProcess A k n.1 c.h (dataAs x behind) frames memory
  let made ← framesOf r.2
  pure (r.1, ⟨sliceTo size (made.1 * c.channels) made.2, size, made.2⟩)

/-- `flush()`. -/
def PyConverter.flush (memory : ℕ → S) : Option (Heap S K × Returned S) := do
  let n ← ratioFlushOutputFrames A k h c.h
  let size := (← countOf n.2) * c.channels
  let r ← ratioFlush A k n.1 c.h memory
  let made ← framesOf r.2
  pure (r.1, ⟨sliceTo size (made.1 * c.channels) made.2, size, made.2⟩)

/-- `reset()`. -/
def PyConverter.reset : Option (Heap S K) := (ratioReset A k h c.h).map Prod.fst

end Methods

/-- `__del__()`. -/
def PyConverter.del (c : PyConverter) (h : Heap S K) : Option (Heap S K) :=
  if c.h ≠ 0 then ratioDestroy h c.h else some h

/-- A method, called with its arguments and the memory that it finds. -/
inductive Method (S : Type) where
  | process (x : List S) (behind memory : ℕ → S)
  | flush (memory : ℕ → S)
  | reset

/-- Call a method.  A caller that collects the samples starts anew after a `reset`. -/
def Method.exec (A : Word) (k : Kernels S K) (c : PyConverter) (h : Heap S K) (got : List S) :
    Method S → Option (Heap S K × List S)
  | .process x behind memory =>
    (c.process A k h x behind memory).map fun r => (r.1, got ++ r.2.array)
  | .flush memory => (c.flush A k h memory).map fun r => (r.1, got ++ r.2.array)
  | .reset => (c.reset A k h).map fun h => (h, [])

/-- Call one method after another. -/
def Method.run (A : Word) (k : Kernels S K) (c : PyConverter) (h : Heap S K) (got : List S)
    (methods : List (Method S)) : Option (Heap S K × List S) :=
  methods.foldlM (fun r m => m.exec A k c r.1 r.2) (h, got)

/-! ### What goes in -/

/-- The whole frames of an array. -/
def wholeFrames (C : ℕ) (z : S) (x : List S) : List (List S) :=
  framesFrom (fun i => x.getD i z) C (x.length / C)

/-- The frames that have gone in after one more method. -/
def Method.feed (C T : ℕ) (z : S) (fed : List (List S)) : Method S → List (List S)
  | .process x _ _ => fed ++ wholeFrames C z x
  | .flush _ => fed ++ List.replicate T (List.replicate C z)
  | .reset => []

/-- No block is larger than the arithmetic covers. -/
def Method.Admissible (C : ℕ) : Method S → Prop
  | .process x _ _ => x.length / C ≤ 2 ^ 56
  | _ => True

/-! ### What comes out -/

section Methods

variable {A : Word} {D : Direction} {k : Kernels S K} {tb : PhaseTable D K} {C a n : ℕ}
  {fed : List (List S)} {c : PyConverter} {h : Heap S K} {memory : ℕ → S}

/-- A converter that has emitted all that is due. -/
def idle (k : Kernels S K) (tb : PhaseTable D K) (C : ℕ) (fed : List (List S)) :
    Converter D S K :=
  after k tb C fed (D.due fed.length) (gapLeft D fed.length (D.due fed.length))

/-- The samples of all outputs that are due. -/
def delivered (k : Kernels S K) (tb : PhaseTable D K) (C : ℕ) (fed : List (List S)) : List S :=
  (List.range (D.due fed.length)).flatMap (outFrame k tb C fed)

lemma idle_at : (idle k tb C fed).At fed.length (D.due fed.length) :=
  ⟨(Resting.due D fed.length).toStanding, rfl, rfl⟩

lemma process_idle (hT : 0 < tb.mTaps) (hA : Covers A n) (inp out : ℕ → S) :
    (idle k tb C fed).process A k inp n out
      = { conv := idle k tb C (fed ++ framesFrom inp C n)
          out := writeFrames out C (D.due (fed.length + n) - D.due fed.length)
            fun i => outSample k tb (fed ++ framesFrom inp C n) (D.due fed.length + i)
          ret := D.due (fed.length + n) - D.due fed.length } := by
  rw [idle, process_after inp out hT hA (Resting.due D fed.length).toStanding, idle,
    List.length_append, length_framesFrom]

lemma flush_idle (hT : 0 < tb.mTaps) (out : ℕ → S) :
    let silence := List.replicate tb.mTaps (List.replicate C k.silence)
    (idle k tb C fed).flush k out
      = { conv := idle k tb C (fed ++ silence)
          out := writeFrames out C (D.due (fed.length + tb.mTaps) - D.due fed.length)
            fun i => outSample k tb (fed ++ silence) (D.due fed.length + i)
          ret := D.due (fed.length + tb.mTaps) - D.due fed.length } := by
  intro silence
  rw [idle, flush_after hT (Resting.due D fed.length).toStanding, idle, List.length_append,
    List.length_replicate]
  rfl

/-- More frames only add to what is delivered. -/
lemma delivered_append (ys : List (List S)) :
    delivered k tb C (fed ++ ys) = delivered k tb C fed
      ++ (List.range (D.due (fed.length + ys.length) - D.due fed.length)).flatMap
        fun i => outFrame k tb C (fed ++ ys) (D.due fed.length + i) := by
  have hrest : Resting D fed.length (0 + D.due fed.length) := by
    rw [Nat.zero_add]
    exact Resting.due D fed.length
  have hle : D.due fed.length ≤ D.due (fed.length + ys.length) := D.due_mono (Nat.le_add_right _ _)
  have hold : ((List.range (D.due fed.length)).map fun i => outFrame k tb C (fed ++ ys) (0 + i))
      = (List.range (D.due fed.length)).map fun i => outFrame k tb C fed (0 + i) :=
    outFrames_append hrest ys
  simp only [Nat.zero_add] at hold
  obtain ⟨r, hr⟩ := Nat.exists_eq_add_of_le hle
  rw [delivered, delivered, List.length_append, hr, Nat.add_sub_cancel_left, List.range_add,
    List.flatMap_append, List.flatMap_def, hold, ← List.flatMap_def, List.flatMap_map]

/-- The bytes behind an array are not read. -/
lemma framesFrom_dataAs (C : ℕ) (z : S) (x : List S) (behind : ℕ → S) :
    framesFrom (dataAs x behind) C (x.length / C) = wholeFrames C z x := by
  apply List.map_congr_left
  intro j hj
  apply List.map_congr_left
  intro i hi
  rw [List.mem_range] at hj hi
  have hmul := Nat.mul_le_mul_right C (Nat.succ_le_of_lt hj)
  have hlen := Nat.div_mul_le_self x.length C
  rw [Nat.succ_mul] at hmul
  have hlt : j * C + i < x.length := by omega
  exact (List.getD_eq_getElem x _ hlt).trans (List.getD_eq_getElem x z hlt).symm

/-- An array that was filled with frames to its end. -/
lemma sliceTo_writeFrames (memory : ℕ → S) (C n : ℕ) (v : ℕ → ℕ → S) :
    sliceTo (n * C) (n * C) (writeFrames memory C n v)
      = (List.range n).flatMap fun j => (List.range C).map (v j) := by
  rw [sliceTo, List.take_of_length_le (by simp), ← flatten_framesFrom, framesFrom_writeFrames,
    List.flatMap_def]

/-- What a method returns that takes the frames fed from `fed` to `fed'`: the outputs that have
become due, in an array that they fill, with nothing written behind it. -/
structure Filled (k : Kernels S K) (tb : PhaseTable D K) (C : ℕ) (fed fed' : List (List S))
    (memory : ℕ → S) (r : Returned S) : Prop where
  continues : delivered k tb C fed ++ r.array = delivered k tb C fed'
  length : r.array.length = r.size
  behind : ∀ i, r.size ≤ i → r.memory i = memory i

/-- An array of the outputs that further frames make due. -/
lemma filled_due (k : Kernels S K) (tb : PhaseTable D K) (C : ℕ) (fed ys : List (List S))
    (memory : ℕ → S) (hn : n = D.due (fed.length + ys.length) - D.due fed.length) :
    let out := writeFrames memory C n fun i => outSample k tb (fed ++ ys) (D.due fed.length + i)
    Filled k tb C fed (fed ++ ys) memory ⟨sliceTo (n * C) (n * C) out, n * C, out⟩ := by
  intro out
  constructor
  · rw [delivered_append, ← hn]
    exact congrArg _ (sliceTo_writeFrames _ _ _ _)
  · simp [sliceTo]
  · intro i hi
    exact if_neg (Nat.not_lt.2 hi)

lemma setConv_setConv (s t : Converter D S K) :
    (h.setConv D a (some s)).setConv D a (some t) = h.setConv D a (some t) := by
  simp [Heap.setConv]

/-- Creation, use and destruction. -/
lemma create_destroy {b : ℕ} (hb : h.wrapperAt b = none) (ha : h.convAt D a = none)
    (s t : Converter D S K) :
    (((h.create D b a s).setConv D a (some t)).setConv D a none).setWrapper b none = h := by
  obtain ⟨wrapperAt, convAt⟩ := h
  simp only [Heap.create, Heap.setConv, Heap.setWrapper, Function.update_idem,
    Function.update_self, Heap.mk.injEq]
  have hcell : Function.update (convAt D) a none = convAt D :=
    Function.update_eq_self_iff.2 ha.symm
  exact ⟨Function.update_eq_self_iff.2 hb.symm, Function.update_eq_self_iff.2 hcell⟩

/-- `process` on an idle converter. -/
lemma process_filled (hT : 0 < tb.mTaps) (hw : h.wrapperAt c.h = some (.of D a))
    (hs : h.convAt D a = some (idle k tb c.channels fed)) (x : List S) (behind memory : ℕ → S)
    (hx : x.length / c.channels ≤ 2 ^ 56) :
    let block := wholeFrames c.channels k.silence x
    ∃ r, c.process (.bits 64) k h x behind memory
        = some (h.setConv D a (some (idle k tb c.channels (fed ++ block))), r) ∧
      Filled k tb c.channels fed (fed ++ block) memory r := by
  intro block
  let n := x.length / c.channels
  let h₁ := h.setConv D a (some (idle k tb c.channels fed))
  have hw₁ : h₁.wrapperAt c.h = some (.of D a) := hw
  have hs₁ : h₁.convAt D a = some (idle k tb c.channels fed) := Heap.convAt_setConv_self _
  have hcov : Covers (.bits 64) n := Covers.of_le hx
  have hlen : block.length = n := length_framesFrom _ _ _
  have hcount : (idle k tb c.channels fed).outputsFor (.bits 64) n
      = D.due (fed.length + n) - D.due fed.length := outputsFor_at hcov.fits idle_at
  have hpred : ratioOutputsFor (.bits 64) k h c.h n = some (h₁, .count _) :=
    dispatch_eq hw hs (.outputsFor n)
  have hproc : ratioProcess (.bits 64) k h₁ c.h (dataAs x behind) n memory = some _ :=
    dispatch_eq hw₁ hs₁ (.process (dataAs x behind) n memory)
  rw [hcount] at hpred
  simp only [Op.exec, process_idle hT hcov, h₁, setConv_setConv, n,
    framesFrom_dataAs c.channels k.silence] at hproc
  refine ⟨_, ?_, filled_due k tb c.channels fed block memory rfl⟩
  rw [PyConverter.process, hpred]
  simp only [countOf, Option.bind_eq_bind, Option.bind_some, h₁, n, hproc, framesOf,
    Option.pure_def, hlen]
  rfl

/-- `flush` on an idle converter. -/
lemma flush_filled (hT : 0 < tb.mTaps) (hA : tb.mTaps ≤ 2 ^ 56)
    (hw : h.wrapperAt c.h = some (.of D a))
    (hs : h.convAt D a = some (idle k tb c.channels fed)) (memory : ℕ → S) :
    let silence := List.replicate tb.mTaps (List.replicate c.channels k.silence)
    ∃ r, c.flush (.bits 64) k h memory
        = some (h.setConv D a (some (idle k tb c.channels (fed ++ silence))), r) ∧
      Filled k tb c.channels fed (fed ++ silence) memory r := by
  intro silence
  let h₁ := h.setConv D a (some (idle k tb c.channels fed))
  have hw₁ : h₁.wrapperAt c.h = some (.of D a) := hw
  have hs₁ : h₁.convAt D a = some (idle k tb c.channels fed) := Heap.convAt_setConv_self _
  have hcov := Covers.of_le hA
  have hlen : silence.length = tb.mTaps := List.length_replicate
  have hcount : (idle k tb c.channels fed).flushOutputFrames (.bits 64)
      = D.due (fed.length + tb.mTaps) - D.due fed.length := outputsFor_at hcov.fits idle_at
  have hpred : ratioFlushOutputFrames (.bits 64) k h c.h = some (h₁, .count _) :=
    dispatch_eq hw hs .flushOutputFrames
  have hflush : ratioFlush (.bits 64) k h₁ c.h memory = some _ :=
    dispatch_eq hw₁ hs₁ (.flush memory)
  rw [hcount] at hpred
  simp only [Op.exec, flush_idle hT, h₁, setConv_setConv] at hflush
  refine ⟨_, ?_, filled_due k tb c.channels fed silence memory rfl⟩
  rw [PyConverter.flush, hpred]
  simp only [countOf, Option.bind_eq_bind, Option.bind_some, h₁, hflush, framesOf,
    Option.pure_def, hlen]
  rfl

lemma due_zero (D : Direction) : D.due 0 = 0 := Nat.le_zero.1 (D.due_le_iff.2 (Nat.zero_le _))

/-- A fresh converter is idle. -/
lemma idle_nil : idle k tb C [] = after k tb C [] 0 1 := by
  rw [idle, List.length_nil, due_zero, gapLeft_zero]

lemma delivered_nil : delivered k tb C [] = [] := by
  rw [delivered, List.length_nil, due_zero]
  rfl

lemma reset_idle (hT : 0 < tb.mTaps) : (idle k tb C fed).reset k = idle k tb C [] := by
  rw [idle_nil]
  exact reset_after hT

/-- One method of an idle converter. -/
lemma exec_idle (hT : 0 < tb.mTaps) (hA : tb.mTaps ≤ 2 ^ 56)
    (hw : h.wrapperAt c.h = some (.of D a))
    (hs : h.convAt D a = some (idle k tb c.channels fed)) {m : Method S}
    (hm : m.Admissible c.channels) :
    m.exec (.bits 64) k c h (delivered k tb c.channels fed)
      = some (h.setConv D a
            (some (idle k tb c.channels (m.feed c.channels tb.mTaps k.silence fed))),
          delivered k tb c.channels (m.feed c.channels tb.mTaps k.silence fed)) := by
  cases m with
  | process x behind memory =>
      obtain ⟨r, hr, hfilled⟩ := process_filled hT hw hs x behind memory hm
      rw [Method.exec, hr, Option.map_some, hfilled.continues]
      rfl
  | flush memory =>
      obtain ⟨r, hr, hfilled⟩ := flush_filled hT hA hw hs memory
      rw [Method.exec, hr, Option.map_some, hfilled.continues]
      rfl
  | reset =>
      have hreset : ratioReset (.bits 64) k h c.h = some _ := dispatch_eq hw hs .reset
      simp only [Op.exec, reset_idle hT] at hreset
      rw [Method.exec, PyConverter.reset, hreset, Method.feed, delivered_nil]
      rfl

/-- Any methods of an idle converter. -/
lemma run_idle (hT : 0 < tb.mTaps) (hA : tb.mTaps ≤ 2 ^ 56)
    (hw : h.wrapperAt c.h = some (.of D a))
    (hs : h.convAt D a = some (idle k tb c.channels fed)) {methods : List (Method S)}
    (hmethods : ∀ m ∈ methods, m.Admissible c.channels) :
    let fed' := methods.foldl (Method.feed c.channels tb.mTaps k.silence) fed
    Method.run (.bits 64) k c h (delivered k tb c.channels fed) methods
      = some (h.setConv D a (some (idle k tb c.channels fed')),
          delivered k tb c.channels fed') := by
  induction methods generalizing h fed with
  | nil =>
      have hsame : h.setConv D a (some (idle k tb c.channels fed)) = h := by
        rw [← hs]
        simp [Heap.setConv]
      exact congrArg (fun h => some (h, _)) hsame.symm
  | cons m methods ih =>
      have hexec := exec_idle hT hA hw hs (hmethods m List.mem_cons_self)
      let h₁ := h.setConv D a
        (some (idle k tb c.channels (m.feed c.channels tb.mTaps k.silence fed)))
      have hw₁ : h₁.wrapperAt c.h = some (.of D a) := hw
      have hs₁ : h₁.convAt D a = some _ := Heap.convAt_setConv_self _
      have hrest := ih hw₁ hs₁ fun d hd => hmethods d (List.mem_cons_of_mem m hd)
      simp only [h₁, setConv_setConv] at hrest
      rw [Method.run, List.foldlM_cons, hexec]
      exact hrest

end Methods

lemma profileOf_profiles (profile : ProfileName) :
    profileOf (profiles profile) = profile.profile := by
  cases profile <;> rfl

lemma directionOf_dirs (direction : Direction) : directionOf (dirs direction) = direction := by
  cases direction <;> rfl

/-- The named profiles have taps, and not too many. -/
lemma ProfileName.taps_bounds (profile : ProfileName) (D : Direction) :
    0 < profile.profile.taps D ∧ profile.profile.taps D ≤ 2 ^ 56 := by
  cases profile <;> cases D <;> decide

section Create

variable [Zero F] [One F] [Add F] [Mul F] [Div F] [Zero K] [Zero S]

/-- A bridge, from its creation to its deletion, whatever else the memory holds.  It is a
converter of the direction and the profile that its arguments name.  After any methods the arrays
returned since the last `reset`, one after the other, are all outputs that are due for the
frames fed since then, whatever lay behind the arguments and in the arrays before.  The next
array is filled to its end, and nothing is written behind it.  Its deletion leaves the memory as
it was. -/
theorem bridge_stream {env : Env F S K} (hpl : env.pl.Sane) {h : Heap S K} {g : CreateGrants}
    {direction : Direction} {profile : ProfileName} {channels c a : ℕ}
    (hchannels : channels < 2 ^ 32) (hfree : h.IsFree c) (hfree' : h.IsFree a)
    (hgrants : Creates env g (dirs direction) (profiles profile) channels c a)
    {methods : List (Method S)} (hmethods : ∀ m ∈ methods, m.Admissible channels) :
    let tb := env.dsp.table direction profile.profile
    let fed := methods.foldl (Method.feed channels tb.mTaps env.k.silence) []
    ∃ p h₀ h₁,
      PyConverter.init env h g direction profile channels = some (h₀, some p) ∧
      Method.run (.bits 64) env.k p h₀ [] methods
        = some (h₁, (List.range (direction.due fed.length)).flatMap
            (outFrame env.k tb channels fed)) ∧
      (∀ x behind memory, x.length / channels ≤ 2 ^ 56 → ∃ h₂ r,
        p.process (.bits 64) env.k h₁ x behind memory = some (h₂, r) ∧
          r.array.length = r.size ∧ ∀ i, r.size ≤ i → r.memory i = memory i) ∧
      (∀ memory, ∃ h₂ r, p.flush (.bits 64) env.k h₁ memory = some (h₂, r) ∧
        r.array.length = r.size ∧ ∀ i, r.size ≤ i → r.memory i = memory i) ∧
      p.del h₁ = some h := by
  intro tb fed
  obtain ⟨hT, hA⟩ : 0 < tb.mTaps ∧ tb.mTaps ≤ 2 ^ 56 := profile.taps_bounds direction
  let p : PyConverter := ⟨c, channels⟩
  let h₀ := h.create direction c a (idle env.k tb channels [])
  let h₁ := h₀.setConv direction a (some (idle env.k tb channels fed))
  have hw₀ : h₀.wrapperAt p.h = some (.of direction a) := Heap.wrapperAt_setWrapper_self _
  have hs₀ : h₀.convAt direction a = some (idle env.k tb channels []) :=
    Heap.convAt_setConv_self _
  have hw₁ : h₁.wrapperAt p.h = some (.of direction a) := hw₀
  have hs₁ : h₁.convAt direction a = some (idle env.k tb channels fed) :=
    Heap.convAt_setConv_self _
  refine ⟨p, h₀, h₁, ?_, ?_, ?_, ?_, ?_⟩
  · have hcreate := ratioCreate_ok (h := h) hpl hgrants
    rw [profileOf_profiles, directionOf_dirs, ← idle_nil] at hcreate
    rw [PyConverter.init, Nat.mod_eq_of_lt hchannels, hcreate]
    simp only [Option.bind_eq_bind, Option.bind_some, Option.pure_def, if_neg hfree.1]
    rfl
  · have hrun := run_idle (c := p) hT hA hw₀ hs₀ hmethods
    rw [delivered_nil] at hrun
    exact hrun
  · intro x behind memory hx
    obtain ⟨r, hr, hfilled⟩ := process_filled hT hw₁ hs₁ x behind memory hx
    exact ⟨_, r, hr, hfilled.length, hfilled.behind⟩
  · intro memory
    obtain ⟨r, hr, hfilled⟩ := flush_filled hT hA hw₁ hs₁ memory
    exact ⟨_, r, hr, hfilled.length, hfilled.behind⟩
  · rw [PyConverter.del, if_pos hfree.1, ratioDestroy,
      deleteWrapper_eq hfree.1 hfree'.1 hw₁ hs₁]
    exact congrArg some (create_destroy hfree.2.1 (hfree'.2.2 direction) _ _)

end Create

/-- A stereo bridge that is given two arrays, of five samples and of four, and flushed. -/
theorem bridge_stream_box :
    let methods : List (Method ℚ) := [.process [1, 2, 3, 4, 5] (fun i => i) fun _ => 7,
      .process [6, 7, 8, 9] (fun _ => 0) (fun i => -i), .flush fun _ => 0]
    ∃ p h₀ h₁ got, PyConverter.init boxEnv Heap.empty boxGrants .upTo48k .economy 2
        = some (h₀, some p) ∧
      Method.run (.bits 64) boxEnv.k p h₀ [] methods = some (h₁, got) ∧
      p.del h₁ = some Heap.empty := by
  intro methods
  have hempty (b : ℕ) (hb : b ≠ 0) : (Heap.empty : Heap ℚ ℚ).IsFree b := ⟨hb, rfl, fun _ => rfl⟩
  have hmethods : ∀ m ∈ methods, m.Admissible 2 := by simp [methods, Method.Admissible]
  have hgrants : Creates boxEnv boxGrants (dirs .upTo48k) (profiles .economy) 2 16 32 :=
    boxGrants_creates
  obtain ⟨p, h₀, h₁, hinit, hrun, -, -, hdel⟩ := bridge_stream boxEnv_sane (by decide)
    (hempty 16 (by decide)) (hempty 32 (by decide)) hgrants hmethods
  exact ⟨p, h₀, h₁, _, hinit, hrun, hdel⟩

end RatioTap.Bridge
