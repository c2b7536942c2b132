import RatioTap.Process
import RatioTap.Pull

/-!
# Sessions

A session is one converter driven by any sequence of API calls.  `Call.exec` runs one call
and reports what the caller sees of it: the value returned, the frames written, and the
frames that went into the histories.  `Session.run` collects these reports from the last
`reset` on.
-/

namespace RatioTap

open FlatMemory

/-- A call of the API, with the buffers and the callback the caller passes. -/
inductive Call (S : Type) : Type 1 where
  | process (inp : ℕ → S) (inFrames : ℕ) (out : ℕ → S)
  | pull (out : ℕ → S) (outFrames : ℕ) (pop : PopFn S)
  | flush (out : ℕ → S)
  | reset

/-- A call that passes no block the arithmetic does not cover. -/
def Call.Admissible {S : Type} (A : Word) : Call S → Prop
  | .process _ inFrames _ => Covers A inFrames
  | _ => True

/-- A call of `process`. -/
def Call.IsProcess {S : Type} : Call S → Prop
  | .process .. => True
  | _ => False

/-- The block that a call of `process` passes, as frames of `C` samples. -/
def Call.block {S : Type} (C : ℕ) : Call S → List (List S)
  | .process inp inFrames _ => framesFrom inp C inFrames
  | _ => []

/-- The report of a call: the converter it leaves, the value returned, the frames written
to the caller's buffer and the frames appended to the histories. -/
structure Report (D : Direction) (S K : Type) where
  conv : Converter D S K
  ret : ℕ
  outs : List (List S)
  fed : List (List S)

/-- Run one call.  `process` appends the frames of its block, `pull` the frames it took in
from its callback, and `flush` one frame of silence per tap. -/
def Call.exec {D : Direction} {S K : Type} (A : Word) (k : Kernels S K) (s : Converter D S K) :
    Call S → Report D S K
  | .process inp inFrames out =>
    let r := s.process A k inp inFrames out
    ⟨r.conv, r.ret, framesFrom r.out s.mChannels r.ret, framesFrom inp s.mChannels inFrames⟩
  | .pull out outFrames pop =>
    let r := s.pull k out outFrames pop
    ⟨r.conv, r.ret, framesFrom r.out s.mChannels r.ret,
      r.calls.flatMap (PopCall.frames s.mChannels)⟩
  | .flush out =>
    let r := s.flush k out
    ⟨r.conv, r.ret, framesFrom r.out s.mChannels r.ret,
      List.replicate s.taps (List.replicate s.mChannels k.silence)⟩
  | .reset => ⟨s.reset k, 0, [], []⟩

/-- A converter with the frames appended and the frames written since its last reset. -/
structure Session (D : Direction) (S K : Type) where
  conv : Converter D S K
  fed : List (List S)
  outs : List (List S)

namespace Session

variable {D : Direction} {S K : Type}

/-- The session of a freshly constructed converter. -/
def start (s : Converter D S K) : Session D S K := ⟨s, [], []⟩

/-- One more call. -/
def step (A : Word) (k : Kernels S K) (σ : Session D S K) (call : Call S) : Session D S K :=
  let r := call.exec A k σ.conv
  match call with
  | .reset => ⟨r.conv, [], []⟩
  | _ => ⟨r.conv, σ.fed ++ r.fed, σ.outs ++ r.outs⟩

/-- A sequence of calls. -/
def run (A : Word) (k : Kernels S K) (σ : Session D S K) (calls : List (Call S)) :
    Session D S K := calls.foldl (step A k) σ

@[simp] lemma run_nil (A : Word) (k : Kernels S K) (σ : Session D S K) : σ.run A k [] = σ := rfl

@[simp] lemma run_cons (A : Word) (k : Kernels S K) (σ : Session D S K) (call : Call S)
    (calls : List (Call S)) : σ.run A k (call :: calls) = (σ.step A k call).run A k calls := rfl

lemma run_append (A : Word) (k : Kernels S K) (σ : Session D S K) (xs ys : List (Call S)) :
    σ.run A k (xs ++ ys) = (σ.run A k xs).run A k ys := List.foldl_append

/-- What every call preserves holds after every run of admissible calls. -/
theorem run_induct {A : Word} {k : Kernels S K} {P : Session D S K → Prop} {σ : Session D S K}
    {calls : List (Call S)} (h0 : P σ)
    (hstep : ∀ σ, P σ → ∀ call : Call S, call.Admissible A → P (σ.step A k call))
    (hcalls : ∀ call ∈ calls, call.Admissible A) : P (σ.run A k calls) := by
  induction calls generalizing σ with
  | nil => exact h0
  | cons call calls ih =>
      exact ih (hstep σ h0 call (hcalls call (by simp)))
        fun c hc => hcalls c (List.mem_cons_of_mem call hc)

end Session

end RatioTap
