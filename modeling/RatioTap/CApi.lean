import RatioTap.ConverterConstruction
import RatioTap.Process
import RatioTap.Pull

/-!
# The C interface

`ratio_capi.cpp`, function by function: a tagged pair of pointers to the two converters, behind
a handle.  The interface allocates the pair and the converter, and everything else it does goes
through the two pointers.

What it owns is a memory of its two kinds of objects by address, with 0 for the null pointer.
An address is the allocator's choice, and an address that was given back may be chosen again.
A function that reads through a pointer to no object, or deletes one, has no result: that is
undefined behaviour.  Exceptions are results, and the function catches them.
-/

namespace RatioTap.CApi

/-- `ratio_converter`. -/
structure RatioConverter where
  /-- `dir`: 0 is up and 1 is down. -/
  dir : ℤ
  up : ℕ
  down : ℕ
deriving DecidableEq, Repr

/-- The objects that the interface has allocated, by address. -/
structure Heap (S K : Type) where
  wrapperAt : ℕ → Option RatioConverter
  convAt : ∀ D : Direction, ℕ → Option (Converter D S K)

namespace Heap

variable {S K : Type}

/-- Nothing is allocated. -/
def empty : Heap S K := ⟨fun _ => none, fun _ _ => none⟩

/-- Store a pair at an address, or free the address. -/
def setWrapper (h : Heap S K) (a : ℕ) (w : Option RatioConverter) : Heap S K :=
  { h with wrapperAt := Function.update h.wrapperAt a w }

/-- Store a converter at an address, or free the address. -/
def setConv (h : Heap S K) (D : Direction) (a : ℕ) (s : Option (Converter D S K)) : Heap S K :=
  { h with convAt := Function.update h.convAt D (Function.update (h.convAt D) a s) }

/-- The address is not null and holds no object. -/
def IsFree (h : Heap S K) (a : ℕ) : Prop :=
  a ≠ 0 ∧ h.wrapperAt a = none ∧ ∀ D, h.convAt D a = none

end Heap

/-- What the interface is built on: the platform, and the two parts of `tap::dsp`. -/
structure Env (F S K : Type) where
  pl : ConverterPlatform
  k : Kernels S K
  dsp : Dsp F K

/-- The answers of the allocator to one `ratio_create`: the addresses of the two objects, none
where the object is refused, and its answers inside the constructor. -/
structure CreateGrants where
  wrapper : Option ℕ
  conv : Option ℕ
  inner : ConverterGrants

variable {F S K : Type}

/-! ### Creation and destruction -/

/-- The profile that a number names. -/
def profileOf (profile : ℤ) : Profile :=
  if profile = 0 then .economy
  else if profile = 1 then .transparent
  else if profile = 2 then .balanced
  else .superEconomy

/-- The arguments that `ratio_create` refuses. -/
def invalidArguments (direction profile : ℤ) (channels : ℕ) : Bool :=
  decide (direction ≠ 0 ∧ direction ≠ 1) || decide (profile < 0) || decide (3 < profile)
    || decide (channels = 0)

/-- `delete p` for a converter. -/
def deleteConv (D : Direction) (h : Heap S K) (a : ℕ) : Option (Heap S K) :=
  if a = 0 then some h
  else match h.convAt D a with
    | none => none
    | some _ => some (h.setConv D a none)

/-- `delete c`, with the destructor of the pair. -/
def deleteWrapper (h : Heap S K) (c : ℕ) : Option (Heap S K) :=
  if c = 0 then some h
  else do
    let w ← h.wrapperAt c
    let h ← deleteConv .upTo48k h w.up
    let h ← deleteConv .downTo44k1 h w.down
    pure (h.setWrapper c none)

section Create

variable [Zero F] [One F] [Add F] [Mul F] [Div F] [Zero K] [Zero S]

/-- `new conv<D>(channels, p)`.  The memory of the object is given back when its constructor
throws. -/
def newConv (env : Env F S K) (D : Direction) (h : Heap S K) (g : CreateGrants) (p : Profile)
    (channels : ℕ) : Except Failure (Heap S K × ℕ) :=
  match g.conv with
  | none => .error .badAlloc
  | some a => do
    let r ← Converter.construct env.pl g.inner env.k env.dsp D p channels
    pure (h.setConv D a (some r.conv), a)

/-- `c->up = p` going up, and `c->down = p` going down. -/
def RatioConverter.store (w : RatioConverter) : Direction → ℕ → RatioConverter
  | .upTo48k, p => { w with up := p }
  | .downTo44k1, p => { w with down := p }

/-- The rest of `ratio_create` once the pair `w` is allocated at `c`: the new converter is stored
in it, or an exception destroys the pair and is caught. -/
def fillWrapper (env : Env F S K) (D : Direction) (h : Heap S K) (g : CreateGrants) (p : Profile)
    (channels c : ℕ) (w : RatioConverter) : Option (Heap S K × ℕ) :=
  match newConv env D h g p channels with
  | .ok (h, a) => some (h.setWrapper c (some (w.store D a)), c)
  | .error .outOfRange => none
  | .error _ => do
    let h ← deleteWrapper h c
    pure (h, 0)

/-- `ratio_create(direction, profile, channels)`. -/
def ratioCreate (env : Env F S K) (h : Heap S K) (g : CreateGrants) (direction profile : ℤ)
    (channels : ℕ) : Option (Heap S K × ℕ) :=
  if invalidArguments direction profile channels then some (h, 0)
  else
    let p := profileOf profile
    match g.wrapper with
    | none => some (h, 0)
    | some c =>
      let w : RatioConverter := { dir := direction, up := 0, down := 0 }
      let h := h.setWrapper c (some w)
      if direction = 0 then fillWrapper env .upTo48k h g p channels c w
      else fillWrapper env .downTo44k1 h g p channels c w

end Create

/-- `ratio_destroy(c)`. -/
def ratioDestroy (h : Heap S K) (c : ℕ) : Option (Heap S K) := deleteWrapper h c

/-! ### The functions of a handle -/

/-- A function of a converter, called with its arguments. -/
inductive Op (S : Type) where
  | outputsFor (inFrames : ℕ)
  | framesNeeded (outFrames : ℕ)
  | process (inp : ℕ → S) (inFrames : ℕ) (out : ℕ → S)
  | flush (out : ℕ → S)
  | flushOutputFrames
  | reset
  | taps

/-- What a function returns: nothing, a number, or a number of frames and the memory they were
written to. -/
inductive Reply (S : Type) where
  | done
  | count (n : ℕ)
  | frames (n : ℕ) (out : ℕ → S)

/-- The converter that a function leaves, and its reply. -/
def Op.exec {D : Direction} (A : Word) (k : Kernels S K) (s : Converter D S K) :
    Op S → Converter D S K × Reply S
  | .outputsFor inFrames => (s, .count (s.outputsFor A inFrames))
  | .framesNeeded outFrames => (s, .count (s.framesNeeded A outFrames))
  | .process inp inFrames out =>
    let r := s.process A k inp inFrames out
    (r.conv, .frames r.ret r.out)
  | .flush out =>
    let r := s.flush k out
    (r.conv, .frames r.ret r.out)
  | .flushOutputFrames => (s, .count (s.flushOutputFrames A))
  | .reset => (s.reset k, .done)
  | .taps => (s, .count s.taps)

/-- `c->dir == 0 ? c->up->f() : c->down->f()`. -/
def dispatch (A : Word) (k : Kernels S K) (h : Heap S K) (c : ℕ) (op : Op S) :
    Option (Heap S K × Reply S) := do
  let w ← h.wrapperAt c
  if w.dir = 0 then
    let s ← h.convAt .upTo48k w.up
    let r := op.exec A k s
    pure (h.setConv .upTo48k w.up (some r.1), r.2)
  else
    let s ← h.convAt .downTo44k1 w.down
    let r := op.exec A k s
    pure (h.setConv .downTo44k1 w.down (some r.1), r.2)

section Functions

variable (A : Word) (k : Kernels S K) (h : Heap S K) (c : ℕ)

/-- `ratio_outputs_for(c, in_frames)`. -/
def ratioOutputsFor (inFrames : ℕ) := dispatch A k h c (.outputsFor inFrames)

/-- `ratio_frames_needed(c, out_frames)`. -/
def ratioFramesNeeded (outFrames : ℕ) := dispatch A k h c (.framesNeeded outFrames)

/-- `ratio_process(c, in, in_frames, out)`. -/
def ratioProcess (inp : ℕ → S) (inFrames : ℕ) (out : ℕ → S) :=
  dispatch A k h c (.process inp inFrames out)

/-- `ratio_flush(c, out)`. -/
def ratioFlush (out : ℕ → S) := dispatch A k h c (.flush out)

/-- `ratio_flush_output_frames(c)`. -/
def ratioFlushOutputFrames := dispatch A k h c .flushOutputFrames

/-- `ratio_reset(c)`. -/
def ratioReset := dispatch A k h c .reset

/-- `ratio_taps(c)`. -/
def ratioTaps := dispatch A k h c .taps

end Functions

/-- A call of the interface.  A creation comes with the answers that the allocator will give. -/
inductive ApiCall (S : Type) where
  | create (g : CreateGrants) (direction profile : ℤ) (channels : ℕ)
  | destroy (c : ℕ)
  | op (c : ℕ) (op : Op S)

/-- The answer of the interface: a handle, or the reply of a function. -/
inductive Answer (S : Type) where
  | handle (c : ℕ)
  | destroyed
  | reply (r : Reply S)

/-- One call of the interface. -/
def ApiCall.exec [Zero F] [One F] [Add F] [Mul F] [Div F] [Zero K] [Zero S] (A : Word)
    (env : Env F S K) (h : Heap S K) : ApiCall S → Option (Heap S K × Answer S)
  | .create g direction profile channels => do
    let r ← ratioCreate env h g direction profile channels
    pure (r.1, .handle r.2)
  | .destroy c => do
    let h ← ratioDestroy h c
    pure (h, .destroyed)
  | .op c (.outputsFor n) => (ratioOutputsFor A env.k h c n).map fun r => (r.1, .reply r.2)
  | .op c (.framesNeeded n) => (ratioFramesNeeded A env.k h c n).map fun r => (r.1, .reply r.2)
  | .op c (.process inp n out) =>
    (ratioProcess A env.k h c inp n out).map fun r => (r.1, .reply r.2)
  | .op c (.flush out) => (ratioFlush A env.k h c out).map fun r => (r.1, .reply r.2)
  | .op c .flushOutputFrames => (ratioFlushOutputFrames A env.k h c).map fun r => (r.1, .reply r.2)
  | .op c .reset => (ratioReset A env.k h c).map fun r => (r.1, .reply r.2)
  | .op c .taps => (ratioTaps A env.k h c).map fun r => (r.1, .reply r.2)

/-! ### The memory -/

/-- The pair of a converter at the address `a`. -/
def RatioConverter.of : Direction → ℕ → RatioConverter
  | .upTo48k, a => ⟨0, a, 0⟩
  | .downTo44k1, a => ⟨1, 0, a⟩

lemma RatioConverter.of_inj {D D' : Direction} {a a' : ℕ} (h : of D a = of D' a') :
    D = D' ∧ a = a' := by
  cases D <;> cases D' <;> simp_all [of]

namespace Heap

variable {h : Heap S K} {D : Direction} {a b : ℕ}

@[simp] lemma wrapperAt_setWrapper_self (w : Option RatioConverter) :
    (h.setWrapper a w).wrapperAt a = w := Function.update_self _ _ _

@[simp] lemma wrapperAt_setWrapper_of_ne (hb : b ≠ a) (w : Option RatioConverter) :
    (h.setWrapper a w).wrapperAt b = h.wrapperAt b := Function.update_of_ne hb _ _

@[simp] lemma convAt_setWrapper (w : Option RatioConverter) :
    (h.setWrapper a w).convAt = h.convAt := rfl

@[simp] lemma wrapperAt_setConv (s : Option (Converter D S K)) :
    (h.setConv D a s).wrapperAt = h.wrapperAt := rfl

@[simp] lemma convAt_setConv_self (s : Option (Converter D S K)) :
    (h.setConv D a s).convAt D a = s := by simp [setConv]

@[simp] lemma convAt_setConv_of_ne (hb : b ≠ a) (D' : Direction) (s : Option (Converter D S K)) :
    (h.setConv D a s).convAt D' b = h.convAt D' b := by
  rcases eq_or_ne D' D with rfl | hD
  · simp [setConv, hb]
  · simp [setConv, hD]

lemma convAt_setConv_of_dir_ne {D' : Direction} (hD : D' ≠ D) (s : Option (Converter D S K)) :
    (h.setConv D a s).convAt D' b = h.convAt D' b := by simp [setConv, hD]

/-- Storing and freeing again. -/
lemma setWrapper_setWrapper_none (ha : h.wrapperAt a = none) (w : Option RatioConverter) :
    (h.setWrapper a w).setWrapper a none = h := by
  cases h
  simp only [setWrapper, Function.update_idem, mk.injEq, and_true]
  exact Function.update_eq_self_iff.2 ha.symm

end Heap

/-! ### What a call does -/

section Calls

variable {A : Word} {k : Kernels S K} {h : Heap S K} {D : Direction} {s : Converter D S K}
  {c a : ℕ}

/-- A function of a handle runs on the converter that the pair points to. -/
lemma dispatch_eq (hw : h.wrapperAt c = some (.of D a)) (hs : h.convAt D a = some s)
    (op : Op S) :
    dispatch A k h c op = some (h.setConv D a (some (op.exec A k s).1), (op.exec A k s).2) := by
  cases D <;> simp [dispatch, hw, hs, RatioConverter.of]

/-- Deleting a pair deletes its converter. -/
lemma deleteWrapper_eq (hc : c ≠ 0) (ha : a ≠ 0) (hw : h.wrapperAt c = some (.of D a))
    (hs : h.convAt D a = some s) :
    deleteWrapper h c = some ((h.setConv D a none).setWrapper c none) := by
  cases D <;> simp [deleteWrapper, deleteConv, hc, ha, hw, hs, RatioConverter.of]

/-- A pair with no converter yet. -/
lemma deleteWrapper_blank (hc : c ≠ 0) {dir : ℤ} (hw : h.wrapperAt c = some ⟨dir, 0, 0⟩) :
    deleteWrapper h c = some (h.setWrapper c none) := by
  simp [deleteWrapper, deleteConv, hc, hw]

/-- A call of a function is a dispatch. -/
lemma exec_op [Zero F] [One F] [Add F] [Mul F] [Div F] [Zero K] [Zero S] (env : Env F S K)
    (h : Heap S K) (c : ℕ) (op : Op S) :
    ApiCall.exec A env h (.op c op)
      = (dispatch A env.k h c op).map fun r => (r.1, .reply r.2) := by
  cases op <;> rfl

end Calls

end RatioTap.CApi
