import RatioTap.PullStream
import RatioTap.Session
import RatioTap.WalkStream

/-!
# Sessions are determined by their streams

The three drivers agree on what a converter is: after any call the converter is the one
described by the frames appended and the outputs emitted so far (`exec_continues`), and so
after any run (`described_run`).  Since that description mentions neither the calls nor
their order, two runs with the same frames and the same number of outputs have the same
outputs and the same state (`run_determined`).
-/

namespace RatioTap

open FlatMemory PopCall

variable {A : Word} {D : Direction} {S K : Type} {k : Kernels S K} {tb : PhaseTable D K} {C : ℕ}
  {xs : List (List S)} {m x n : ℕ}

/-! ### One call -/

/-- The report of a call made after the frames `xs` and `m` outputs: the call continues the
stream, and what it writes are the next outputs of the continued stream. -/
structure Report.Continues (k : Kernels S K) (tb : PhaseTable D K) (C : ℕ) (xs : List (List S))
    (m : ℕ) (r : Report D S K) : Prop where
  resting : Resting D (xs ++ r.fed).length (m + r.ret)
  conv : r.conv = Converter.after k tb C (xs ++ r.fed) (m + r.ret)
    (gapLeft D (xs ++ r.fed).length (m + r.ret))
  outs : r.outs = (List.range r.ret).map fun i => Converter.outFrame k tb C (xs ++ r.fed) (m + i)

/-- A call that appends `ys` and emits all outputs that are due then. -/
lemma Report.continues_due {r : Report D S K} {ys : List (List S)} (hst : Standing D xs.length m)
    (hfed : r.fed = ys) (hret : r.ret = D.due (xs.length + ys.length) - m)
    (hconv : r.conv = Converter.after k tb C (xs ++ ys) (D.due (xs.length + ys.length))
      (gapLeft D (xs.length + ys.length) (D.due (xs.length + ys.length))))
    (houts : r.outs = (List.range (D.due (xs.length + ys.length) - m)).map
      fun i => Converter.outFrame k tb C (xs ++ ys) (m + i)) :
    r.Continues k tb C xs m := by
  subst hfed
  have hdue : m + r.ret = D.due (xs.length + r.fed.length) := by
    rw [hret, Nat.add_sub_of_le (hst.le_due_add _)]
  rw [← hret] at houts
  refine ⟨?_, ?_, houts⟩ <;> rw [List.length_append, hdue]
  · exact Resting.due D _
  · exact hconv

/-- `pull` leaves a converter at rest: an empty gap was there before, or is the zero advance
of the last output. -/
lemma Converter.Pulls.resting {out : ℕ → S} {todo : ℕ} {r : Pulled D S K}
    (h : Pulls k tb C out xs m 0 todo r) (hrest : Resting D xs.length m) :
    Resting D (xs ++ drawn C r.calls).length (m + r.ret) := by
  refine ⟨h.standing, ?_⟩
  intro h0
  have hle := h.ret_le
  rcases hle.lt_or_eq with hlt | heq
  · exact absurd h0 (h.dry hlt).2
  · rcases (h.full heq).2 with ⟨rfl, hnil⟩ | ⟨hpos, hx⟩
    · have hret : r.ret = 0 := by omega
      rw [hnil, drawn_nil, List.append_nil, hret, Nat.add_zero] at h0 ⊢
      exact hrest.free h0
    · exact ⟨by omega, hx⟩

/-- Every call but `reset` continues the stream of a converter at rest. -/
theorem Call.exec_continues (hT : 0 < tb.mTaps) (hrest : Resting D xs.length m) {call : Call S}
    (hcall : call.Admissible A) (hreset : call ≠ .reset) :
    (call.exec A k (Converter.after k tb C xs m (gapLeft D xs.length m))).Continues
      k tb C xs m := by
  cases call with
  | process inp inFrames out =>
      have h := Converter.process_after (k := k) (C := C) inp out hT hcall hrest.toStanding
      rw [Call.exec, h]
      refine Report.continues_due hrest.toStanding rfl ?_ ?_ ?_ <;>
        simp only [Converter.channels_after, length_framesFrom]
      exact framesFrom_writeFrames _ _ _ _
  | pull out outFrames pop =>
      have h := Converter.pull_after (k := k) (C := C) hT hrest.toStanding out outFrames pop
      refine ⟨h.resting hrest, h.conv, ?_⟩
      rw [Call.exec, h.mem]
      exact framesFrom_writeFrames _ _ _ _
  | flush out =>
      have h := Converter.flush_after (k := k) (C := C) hT hrest.toStanding out
      rw [Call.exec, h]
      refine Report.continues_due hrest.toStanding rfl ?_ ?_ ?_ <;>
        simp only [Converter.channels_after, Converter.taps_after, List.length_replicate]
      · rfl
      · exact framesFrom_writeFrames _ _ _ _
  | reset => exact absurd rfl hreset

/-! ### Whole runs -/

namespace Session

/-- The session is described by its stream: the frames appended and the number of outputs
emitted determine the converter and the outputs. -/
structure Described (k : Kernels S K) (tb : PhaseTable D K) (C : ℕ) (σ : Session D S K) :
    Prop where
  resting : Resting D σ.fed.length σ.outs.length
  conv : σ.conv = Converter.after k tb C σ.fed σ.outs.length
    (gapLeft D σ.fed.length σ.outs.length)
  outs : σ.outs = (List.range σ.outs.length).map (Converter.outFrame k tb C σ.fed)

lemma described_start {s : Converter D S K} (hs : Converter.make k tb C = .ok s) :
    (start s).Described k tb C := by
  obtain ⟨-, rfl⟩ := Converter.make_eq_ok hs
  refine ⟨Resting.zero D, ?_, rfl⟩
  change _ = Converter.after k tb C [] 0 (gapLeft D 0 0)
  rw [gapLeft_zero]
  rfl

/-- The outputs emitted so far do not change when the stream is continued. -/
lemma Described.outs_append {σ : Session D S K} (h : σ.Described k tb C) (ys : List (List S)) :
    σ.outs = (List.range σ.outs.length).map (Converter.outFrame k tb C (σ.fed ++ ys)) := by
  conv_lhs => rw [h.outs]
  apply List.map_congr_left
  intro i hi
  rw [List.mem_range] at hi
  rcases h.resting.lt with h0 | hlt
  · omega
  · have htick := D.tick_mono (show i ≤ σ.outs.length - 1 by omega)
    rw [Converter.outFrame, Converter.outFrame, Converter.outSample_append (by omega)]

/-- Every call keeps a session described by its stream. -/
theorem Described.step {σ : Session D S K} (hT : 0 < tb.mTaps) (h : σ.Described k tb C)
    {call : Call S} (hcall : call.Admissible A) : (σ.step A k call).Described k tb C := by
  have continued (hreset : call ≠ .reset) :
      (⟨(call.exec A k σ.conv).conv, σ.fed ++ (call.exec A k σ.conv).fed,
        σ.outs ++ (call.exec A k σ.conv).outs⟩ : Session D S K).Described k tb C := by
    have hexec := Call.exec_continues (k := k) (C := C) hT h.resting hcall hreset
    rw [← h.conv] at hexec
    generalize call.exec A k σ.conv = r at hexec
    obtain ⟨hrest, hconv, houts⟩ := hexec
    have hlen : (σ.outs ++ r.outs).length = σ.outs.length + r.ret := by
      rw [List.length_append, houts, List.length_map, List.length_range]
    refine ⟨by rwa [hlen], by rwa [hlen], ?_⟩
    change σ.outs ++ r.outs = _
    rw [hlen, List.range_add, List.map_append, List.map_map, ← h.outs_append, houts]
    rfl
  cases call with
  | reset =>
      refine ⟨Resting.zero D, ?_, rfl⟩
      change σ.conv.reset k = _
      rw [h.conv, Converter.reset_after hT]
      change _ = Converter.after k tb C [] 0 (gapLeft D 0 0)
      rw [gapLeft_zero]
  | process inp inFrames out => exact continued (by simp)
  | pull out outFrames pop => exact continued (by simp)
  | flush out => exact continued (by simp)

/-- A fresh converter, driven by any admissible calls, is described by its stream. -/
theorem described_run {s : Converter D S K} {calls : List (Call S)}
    (hs : Converter.make k tb C = .ok s) (hT : 0 < tb.mTaps)
    (hcalls : ∀ call ∈ calls, call.Admissible A) : ((start s).run A k calls).Described k tb C :=
  run_induct (described_start hs) (fun _ h _ hcall => h.step hT hcall) hcalls

/-! ### What is due -/

variable {σ : Session D S K} {s : Converter D S K} {calls : List (Call S)}

/-- The cursors of a described session. -/
lemma Described.at (h : σ.Described k tb C) : σ.conv.At σ.fed.length σ.outs.length := by
  refine ⟨h.resting.toStanding, ?_, ?_⟩ <;> rw [h.conv] <;> rfl

/-- The outputs of one channel. -/
lemma Described.channel_outs (h : σ.Described k tb C) {c : ℕ} (hc : c < C) :
    Converter.channel k c σ.outs
      = (List.range σ.outs.length).map fun n => Converter.outSample k tb σ.fed n c := by
  conv_lhs => rw [h.outs]
  rw [Converter.channel, List.map_map]
  exact List.map_congr_left fun n _ => Converter.getD_outFrame hc k.silence

/-- A `pull` on a described session. -/
lemma Described.pull (hT : 0 < tb.mTaps) (h : σ.Described k tb C) (out : ℕ → S)
    (outFrames : ℕ) (pop : PopFn S) :
    Converter.Pulls k tb C out σ.fed σ.outs.length 0 outFrames
      (σ.conv.pull k out outFrames pop) := by
  rw [h.conv]
  exact Converter.pull_after hT h.resting.toStanding out outFrames pop

lemma Described.mPending_eq (h : σ.Described k tb C) :
    σ.conv.mPending = gapLeft D σ.fed.length σ.outs.length := h.at.pending_eq

/-- Every call but `pull` drains what is due. -/
lemma Described.pending_step_ne_zero (hT : 0 < tb.mTaps) (h : σ.Described k tb C) {call : Call S}
    (hcall : call.Admissible A) (hpull : ∀ out n pop, call ≠ .pull out n pop) :
    (σ.step A k call).conv.mPending ≠ 0 := by
  have hst := h.resting.toStanding
  have hdue (x : ℕ) : gapLeft D x (D.due x) ≠ 0 := gapLeft_ne_zero_iff.2 le_rfl
  cases call with
  | process inp inFrames out =>
      change (σ.conv.process A k inp inFrames out).conv.mPending ≠ 0
      rw [h.conv, Converter.process_after inp out hT hcall hst]
      exact hdue _
  | pull out n pop => exact absurd rfl (hpull out n pop)
  | flush out =>
      change (σ.conv.flush k out).conv.mPending ≠ 0
      rw [h.conv, Converter.flush_after hT hst]
      exact hdue _
  | reset => exact one_ne_zero

lemma pending_ne_zero (hs : Converter.make k tb C = .ok s) (hT : 0 < tb.mTaps)
    (hcalls : ∀ call ∈ calls, call.Admissible A)
    (hlast : ∀ out n pop, calls.getLast? ≠ some (.pull out n pop)) :
    ((start s).run A k calls).conv.mPending ≠ 0 := by
  rcases List.eq_nil_or_concat calls with rfl | ⟨cs, call, rfl⟩
  · obtain ⟨-, rfl⟩ := Converter.make_eq_ok hs
    exact one_ne_zero
  · rw [List.concat_eq_append] at hcalls hlast ⊢
    rw [run_append]
    refine (described_run hs hT fun c hc => hcalls c ?_).pending_step_ne_zero hT
      (hcalls call ?_) fun out n pop hcall => hlast out n pop ?_
    · exact List.mem_append_left _ hc
    · simp
    · rw [hcall, List.getLast?_concat]

/-! ### Runs of blocks -/

/-- Blocks alone emit all that is due. -/
lemma length_outs_of_process (hs : Converter.make k tb C = .ok s) (hT : 0 < tb.mTaps)
    (hcalls : ∀ call ∈ calls, call.Admissible A) (hproc : ∀ call ∈ calls, call.IsProcess) :
    ((start s).run A k calls).outs.length = D.due ((start s).run A k calls).fed.length := by
  have h := described_run hs hT hcalls
  refine (h.resting.due_eq ?_).symm
  rw [← h.mPending_eq]
  apply pending_ne_zero hs hT hcalls
  intro out n pop hlast
  exact hproc _ (List.mem_of_getLast? hlast)

/-- Blocks are appended one after the other. -/
lemma Described.fed_of_process (hT : 0 < tb.mTaps) (h : σ.Described k tb C)
    (hcalls : ∀ call ∈ calls, call.Admissible A) (hproc : ∀ call ∈ calls, call.IsProcess) :
    (σ.run A k calls).fed = σ.fed ++ calls.flatMap (Call.block C) := by
  induction calls generalizing σ with
  | nil => rw [run_nil, List.flatMap_nil, List.append_nil]
  | cons call calls ih =>
      have hcall := hcalls call List.mem_cons_self
      rw [run_cons, ih (h.step hT hcall) (fun c hc => hcalls c (List.mem_cons_of_mem call hc))
        fun c hc => hproc c (List.mem_cons_of_mem call hc), List.flatMap_cons, ← List.append_assoc]
      congr 1
      cases call with
      | process inp inFrames out =>
          have hC : σ.conv.mChannels = C := by rw [h.conv, Converter.channels_after]
          change σ.fed ++ framesFrom inp σ.conv.mChannels inFrames = _
          rw [hC]
          rfl
      | _ => exact absurd (hproc _ List.mem_cons_self) id

lemma fed_of_process (hs : Converter.make k tb C = .ok s) (hT : 0 < tb.mTaps)
    (hcalls : ∀ call ∈ calls, call.Admissible A) (hproc : ∀ call ∈ calls, call.IsProcess) :
    ((start s).run A k calls).fed = calls.flatMap (Call.block C) :=
  (described_start hs).fed_of_process hT hcalls hproc

/-! ### Independence of the calls -/

/-- Call-history independence: two runs that append the same frames and emit the same number
of outputs emit the same outputs and leave the same state, cell for cell. -/
theorem run_determined {s : Converter D S K} {calls₁ calls₂ : List (Call S)}
    (hs : Converter.make k tb C = .ok s) (hT : 0 < tb.mTaps)
    (h₁ : ∀ call ∈ calls₁, call.Admissible A) (h₂ : ∀ call ∈ calls₂, call.Admissible A)
    (hfed : ((start s).run A k calls₁).fed = ((start s).run A k calls₂).fed)
    (hcount : ((start s).run A k calls₁).outs.length = ((start s).run A k calls₂).outs.length) :
    ((start s).run A k calls₁).outs = ((start s).run A k calls₂).outs ∧
      ((start s).run A k calls₁).conv = ((start s).run A k calls₂).conv := by
  have hd₁ := described_run hs hT h₁
  have hd₂ := described_run hs hT h₂
  constructor
  · rw [hd₁.outs, hd₂.outs, hfed, hcount]
  · rw [hd₁.conv, hd₂.conv, hfed, hcount]

/-- A stream in one block, and in two. -/
theorem run_determined_blocks :
    let s := Converter.after (.exact ℤ) (.box .upTo48k 4) 2 [] 0 1
    let whole := (start s).run (.bits 64) (.exact ℤ) [.process (fun i => i) 3 fun _ => 0]
    let cut := (start s).run (.bits 64) (.exact ℤ)
      [.process (fun i => i) 1 fun _ => 0, .process (fun i => i + 2) 2 fun _ => 0]
    whole.outs = cut.outs ∧ whole.conv = cut.conv := by
  intro s
  have hs : Converter.make (.exact ℤ) (.box .upTo48k 4) 2 = .ok s :=
    Converter.make_ok two_ne_zero
  have hadm : ∀ n ≤ 3, Covers (.bits 64) n := fun n hn => Covers.of_le (hn.trans (by decide))
  have h₁ : ∀ call ∈ [Call.process (fun i => (i : ℤ)) 3 fun _ => 0],
      call.Admissible (.bits 64) := by simp [Call.Admissible, hadm]
  have h₂ : ∀ call ∈ [Call.process (fun i => (i : ℤ)) 1 fun _ => 0,
      .process (fun i => (i : ℤ) + 2) 2 fun _ => 0], call.Admissible (.bits 64) := by
    simp [Call.Admissible, hadm]
  have hfed := (fed_of_process hs four_pos h₁ (by simp [Call.IsProcess])).trans
    (fed_of_process hs four_pos h₂ (by simp [Call.IsProcess])).symm
  refine run_determined hs four_pos h₁ h₂ hfed ?_
  rw [length_outs_of_process hs four_pos h₁ (by simp [Call.IsProcess]),
    length_outs_of_process hs four_pos h₂ (by simp [Call.IsProcess]), hfed]

end Session

end RatioTap
