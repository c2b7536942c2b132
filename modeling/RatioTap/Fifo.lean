import RatioTap.AnySource

/-!
# Pulling from a queue

The way a real-time host uses `pull`: one side appends frames to a queue, and a callback that
falls due at times of its own pulls a fixed number of outputs from it.  Nothing is lost,
duplicated or reordered between the two, a callback that comes short has emptied the queue and
written every output that could be written, and the next one goes on where it stopped.  A queue
that holds `⌈n * M / L⌉` frames is always enough for `n` outputs, and callbacks that are served
in full take `n * M / L` frames, rounded down or up (`fifo_host`).
-/

namespace RatioTap

open Converter PopCall FlatMemory

variable {D : Direction} {S K : Type}

/-- A converter behind a queue, and all frames that were ever appended to the queue. -/
structure FifoHost (D : Direction) (S K : Type) where
  session : Session D S K
  queue : List (List S)
  pushed : List (List S)

/-- What happens to a host: frames arrive, or the callback pulls. -/
inductive FifoHost.Event (S : Type) where
  | push (frames : List (List S))
  | pull (out : ℕ → S) (outFrames : ℕ)

namespace FifoHost

/-- The callback, on what it finds. -/
def pulled (k : Kernels S K) (σ : FifoHost D S K) (out : ℕ → S) (outFrames : ℕ) : Pulled D S K :=
  σ.session.conv.pull k out outFrames (fifo σ.session.conv.mChannels k.silence σ.queue)

/-- One event. -/
def step (k : Kernels S K) (σ : FifoHost D S K) : Event S → FifoHost D S K
  | .push frames => { σ with queue := σ.queue ++ frames, pushed := σ.pushed ++ frames }
  | .pull out outFrames =>
    let C := σ.session.conv.mChannels
    { σ with
      session := σ.session.step .exact k (.pull out outFrames (fifo C k.silence σ.queue))
      queue := fifoAfter C k.silence σ.queue (σ.pulled k out outFrames).calls }

/-- One event after another. -/
def run (k : Kernels S K) (σ : FifoHost D S K) (events : List (Event S)) : FifoHost D S K :=
  events.foldl (step k) σ

/-- A fresh converter and an empty queue. -/
def start (s : Converter D S K) : FifoHost D S K := ⟨.start s, [], []⟩

end FifoHost

/-- The frames that arrive have a sample for every channel. -/
def FifoHost.Event.Framed (C : ℕ) : Event S → Prop
  | .push frames => ∀ f ∈ frames, f.length = C
  | .pull _ _ => True

/-! ### What a callback needs -/

section Need

variable {k : Kernels S K} {tb : PhaseTable D K} {C x m n : ℕ} {s : Converter D S K}

/-- Whatever a converter has taken in, `n` outputs need no more than `n * M / L` frames, rounded
up. -/
lemma Converter.At.framesNeeded_le (h : s.At x m) (n : ℕ) :
    s.framesNeeded .exact n ≤ n * D.kDecimation ⌈/⌉ D.kPhases := by
  rw [framesNeeded_at (A := .exact) trivial h]
  by_cases hn : n = 0
  · rw [if_pos hn]
    exact Nat.zero_le _
  rw [if_neg hn, gapLeft]
  rcases Nat.eq_zero_or_pos m with rfl | hm
  · have hceil : D.tick (n - 1) < _ :=
      FloorClock.tick_lt_ceilDiv D.kPhases_pos D.kDecimation_pos (Nat.pos_of_ne_zero hn)
    rw [Nat.zero_add]
    omega
  · -- the frames before output `m` are in
    have hlt := h.standing.lt.resolve_left hm.ne'
    have hceil : D.tick (m - 1 + n) ≤ D.tick (m - 1) + _ :=
      FloorClock.tick_add_le_ceilDiv D.kPhases_pos (m - 1) n
    rw [show m - 1 + n = m + (n - 1) by omega] at hceil
    omega

/-- A converter that has taken in nothing beyond its outputs needs `n * M / L` frames for `n`
more, rounded down or up. -/
lemma Converter.At.framesNeeded_eq (h : s.At x m) (hm : 0 < m) (hx : x = D.tick (m - 1) + 1)
    (n : ℕ) :
    s.framesNeeded .exact n = n * D.kDecimation / D.kPhases ∨
      s.framesNeeded .exact n = n * D.kDecimation ⌈/⌉ D.kPhases := by
  have hle := h.framesNeeded_le n
  have hone := FloorClock.ceilDiv_le_div_add_one D.kPhases_pos (n * D.kDecimation)
  have hlow : n * D.kDecimation / D.kPhases ≤ s.framesNeeded .exact n := by
    rw [framesNeeded_at (A := .exact) trivial h]
    by_cases hn : n = 0
    · rw [hn, Nat.zero_mul, Nat.zero_div]
      exact Nat.zero_le _
    · have hadd : D.tick (m - 1) + D.tick n ≤ D.tick (m - 1 + n) := FloorClock.add_tick_le _ _
      rw [show m - 1 + n = m + (n - 1) by omega] at hadd
      rw [if_neg hn, gapLeft]
      change D.tick n ≤ _
      omega
  omega

end Need

/-! ### Whole runs -/

namespace FifoHost

variable {k : Kernels S K} {tb : PhaseTable D K} {C : ℕ} {σ : FifoHost D S K}

/-- The converter is described by its stream, which is the part of the frames pushed that has
left the queue. -/
structure Inv (k : Kernels S K) (tb : PhaseTable D K) (C : ℕ) (σ : FifoHost D S K) : Prop where
  described : σ.session.Described k tb C
  pushed : σ.session.fed ++ σ.queue = σ.pushed
  framed : ∀ f ∈ σ.queue, f.length = C

namespace Inv

/-- A callback, on what it finds: its calls of the queue, and what they leave of it. -/
lemma pulled (h : σ.Inv k tb C) (hT : 0 < tb.mTaps) (out : ℕ → S) (n : ℕ) :
    let r := σ.pulled k out n
    Pulls k tb C out σ.session.fed σ.session.outs.length 0 n r ∧
      drawn C r.calls ++ fifoAfter C k.silence σ.queue r.calls = σ.queue ∧
      (r.ret ≠ n → fifoAfter C k.silence σ.queue r.calls = []) := by
  intro r
  have hC : σ.session.conv.mChannels = C := by rw [h.described.conv, channels_after]
  have hpull : Pulls k tb C out _ _ 0 n r := h.described.pull hT out n _
  obtain ⟨hans, -⟩ := σ.session.conv.pull_answered (k := k) out n
    (fifo σ.session.conv.mChannels k.silence σ.queue)
  rw [hC] at hans
  have hcalls : (fifo C k.silence σ.queue).Answered r.calls := by
    simpa only [r, FifoHost.pulled, hC] using hans
  refine ⟨hpull, fifo_drawn h.framed hcalls, ?_⟩
  intro hret
  have hle := hpull.ret_le
  exact fifo_dry hcalls (fun c hc => (hpull.legal c hc).want_pos)
    (getLast?_of_ranDry (hpull.dry (by omega)).1)

lemma step (h : σ.Inv k tb C) (hT : 0 < tb.mTaps) {e : Event S} (he : e.Framed C) :
    (σ.step k e).Inv k tb C := by
  cases e with
  | push frames =>
      refine ⟨h.described, ?_, ?_⟩
      · change σ.session.fed ++ (σ.queue ++ frames) = _
        rw [← List.append_assoc, h.pushed]
        rfl
      · intro f hf
        rcases List.mem_append.1 hf with hf | hf
        · exact h.framed f hf
        · exact he f hf
  | pull out n =>
      have hC : σ.session.conv.mChannels = C := by rw [h.described.conv, channels_after]
      obtain ⟨-, hdrawn, -⟩ := h.pulled hT out n
      have hadm : (Call.pull out n (fifo σ.session.conv.mChannels k.silence σ.queue)).Admissible
        .exact := trivial
      refine ⟨h.described.step hT hadm, ?_, ?_⟩
      · change σ.session.fed ++ drawn σ.session.conv.mChannels (σ.pulled k out n).calls
          ++ fifoAfter σ.session.conv.mChannels k.silence σ.queue (σ.pulled k out n).calls
            = σ.pushed
        rw [hC, List.append_assoc, hdrawn, h.pushed]
      · intro f hf
        change f ∈ fifoAfter σ.session.conv.mChannels k.silence σ.queue _ at hf
        rw [hC] at hf
        refine h.framed f ?_
        rw [← hdrawn]
        exact List.mem_append_right _ hf

lemma run (h : σ.Inv k tb C) (hT : 0 < tb.mTaps) {events : List (Event S)}
    (hevents : ∀ e ∈ events, e.Framed C) : (σ.run k events).Inv k tb C := by
  induction events generalizing σ with
  | nil => exact h
  | cons e events ih =>
      exact ih (h.step hT (hevents e List.mem_cons_self))
        fun d hd => hevents d (List.mem_cons_of_mem e hd)

/-- A callback writes what it is asked for, or all that the frames pushed allow. -/
lemma ret_pulled (h : σ.Inv k tb C) (hT : 0 < tb.mTaps) (out : ℕ → S) (n : ℕ) :
    (σ.pulled k out n).ret = min n (D.due σ.pushed.length - σ.session.outs.length) := by
  obtain ⟨hpull, hdrawn, hempty⟩ := h.pulled hT out n
  have hle := hpull.ret_le
  have hstand := hpull.standing
  have hlen : (σ.session.fed ++ drawn C (σ.pulled k out n).calls).length
      + (fifoAfter C k.silence σ.queue (σ.pulled k out n).calls).length = σ.pushed.length := by
    rw [← List.length_append, List.append_assoc, hdrawn, h.pushed]
  have hdue := hstand.le_due_add
    (fifoAfter C k.silence σ.queue (σ.pulled k out n).calls).length
  rw [hlen] at hdue
  by_cases hret : (σ.pulled k out n).ret = n
  · omega
  · -- the queue is empty, and the next output still waits
    have hwait := (hpull.dry (by omega)).2
    rw [hempty hret, List.length_nil, Nat.add_zero] at hlen
    have heq := hstand.due_eq hwait
    rw [hlen] at heq
    omega

/-- The frames that a complete callback takes. -/
lemma length_drawn_pulled (h : σ.Inv k tb C) (hT : 0 < tb.mTaps) (out : ℕ → S) {n : ℕ}
    (hret : (σ.pulled k out n).ret = n) :
    (drawn C (σ.pulled k out n).calls).length = σ.session.conv.framesNeeded .exact n := by
  obtain ⟨hpull, -⟩ := h.pulled hT out n
  rw [length_drawn]
  exact hpull.accepted_eq trivial h.described.at hret

/-- What a callback leaves, in numbers. -/
lemma length_pull (h : σ.Inv k tb C) (hT : 0 < tb.mTaps) (out : ℕ → S) (n : ℕ) :
    let τ := σ.step k (.pull out n)
    let r := σ.pulled k out n
    τ.session.fed = σ.session.fed ++ drawn C r.calls ∧
      τ.session.outs.length = σ.session.outs.length + r.ret ∧
      σ.queue.length = τ.queue.length + (drawn C r.calls).length := by
  intro τ r
  have hC : σ.session.conv.mChannels = C := by rw [h.described.conv, channels_after]
  obtain ⟨-, hdrawn, -⟩ := h.pulled hT out n
  refine ⟨?_, ?_, ?_⟩
  · change σ.session.fed ++ drawn σ.session.conv.mChannels r.calls = _
    rw [hC]
  · change (σ.session.outs ++ framesFrom r.out _ r.ret).length = _
    rw [List.length_append, length_framesFrom]
  · change _ = (fifoAfter σ.session.conv.mChannels k.silence σ.queue r.calls).length + _
    rw [hC]
    conv_lhs => rw [← hdrawn]
    rw [List.length_append, Nat.add_comm]

/-- A queue that holds `n * M / L` frames, rounded up, is enough for `n` outputs. -/
lemma ret_eq_of_le (h : σ.Inv k tb C) (hT : 0 < tb.mTaps) (out : ℕ → S) {n : ℕ}
    (hn : n * D.kDecimation ⌈/⌉ D.kPhases ≤ σ.queue.length) : (σ.pulled k out n).ret = n := by
  obtain ⟨hpull, hdrawn, hempty⟩ := h.pulled hT out n
  have hle := hpull.ret_le
  by_contra hret
  -- it would have taken the whole queue
  rw [hempty hret, List.append_nil] at hdrawn
  have hlt := hpull.taken_lt h.described.at (by omega)
  have hneed := h.described.at.framesNeeded_le n
  rw [Pulled.taken, ← length_drawn (C := C), hdrawn] at hlt
  omega

end Inv

end FifoHost

/-- A converter behind a queue, after any arrivals and callbacks.  The frames appended to the
histories and those left in the queue are the frames that arrived, in order, and the outputs
written are those of that stream.  The next callback writes all it is asked for, or as many
outputs as the frames that arrived allow, and then the queue is empty.  It is complete wherever
the queue holds `⌈n * M / L⌉` frames, and takes no more than these; and after a complete
callback the next one, whatever arrives in between, takes `n * M / L` frames, rounded down or
up, if it is complete. -/
theorem fifo_host {k : Kernels S K} {tb : PhaseTable D K} {C : ℕ} {s : Converter D S K}
    (hs : Converter.make k tb C = .ok s) (hT : 0 < tb.mTaps) {events : List (FifoHost.Event S)}
    (hevents : ∀ e ∈ events, e.Framed C) (out : ℕ → S) (n : ℕ) :
    let L := D.kPhases
    let M := D.kDecimation
    let σ := (FifoHost.start s).run k events
    let r := σ.pulled k out n
    let τ := σ.step k (.pull out n)
    σ.session.fed ++ σ.queue = σ.pushed ∧
      σ.session.outs = (List.range σ.session.outs.length).map (outFrame k tb C σ.pushed) ∧
      r.ret = min n (D.due σ.pushed.length - σ.session.outs.length) ∧
      (r.ret ≠ n → τ.queue = []) ∧
      (n * M ⌈/⌉ L ≤ σ.queue.length → r.ret = n) ∧
      (r.ret = n → σ.queue.length ≤ τ.queue.length + n * M ⌈/⌉ L) ∧
      (r.ret = n → 0 < n → ∀ frames out' n', (∀ f ∈ frames, f.length = C) →
        let υ := τ.step k (.push frames)
        (υ.pulled k out' n').ret = n' →
          υ.queue.length = (υ.step k (.pull out' n')).queue.length + n' * M / L ∨
            υ.queue.length = (υ.step k (.pull out' n')).queue.length + n' * M ⌈/⌉ L) := by
  intro L M σ r τ
  have hstart : (FifoHost.start s).Inv k tb C := ⟨Session.described_start hs, rfl, by
    rintro f ⟨⟩⟩
  have h : σ.Inv k tb C := hstart.run hT hevents
  obtain ⟨hpull, -, hempty⟩ := h.pulled hT out n
  obtain ⟨hfed, houts, hqueue⟩ := h.length_pull hT out n
  refine ⟨h.pushed, ?_, h.ret_pulled hT out n, ?_, h.ret_eq_of_le hT out, ?_, ?_⟩
  · rw [← h.pushed]
    exact h.described.outs_append σ.queue
  · intro hret
    have hC : σ.session.conv.mChannels = C := by rw [h.described.conv, channels_after]
    change fifoAfter σ.session.conv.mChannels k.silence σ.queue _ = []
    rw [hC]
    exact hempty hret
  · intro hret
    have hneed := h.described.at.framesNeeded_le n
    rw [← h.length_drawn_pulled hT out hret] at hneed
    exact hqueue.le.trans (Nat.add_le_add_left hneed _)
  · intro hret hn frames out' n' hframes υ hret'
    have hτ : τ.Inv k tb C := h.step hT (e := .pull out n) trivial
    have hυ : υ.Inv k tb C := hτ.step hT (e := .push frames) hframes
    obtain ⟨-, -, hqueue'⟩ := hυ.length_pull hT out' n'
    -- a complete callback leaves nothing taken in beyond its outputs
    obtain ⟨-, ⟨hzero, -⟩ | ⟨-, hx⟩⟩ := hpull.full (hret.trans (Nat.zero_add n).symm)
    · omega
    · have hx' : υ.session.fed.length = D.tick (υ.session.outs.length - 1) + 1 := by
        change τ.session.fed.length = D.tick (τ.session.outs.length - 1) + 1
        rw [hfed, houts]
        exact hx
      have hpos : 0 < υ.session.outs.length := by
        change 0 < τ.session.outs.length
        rw [houts]
        exact Nat.add_pos_right _ (hret.symm ▸ hn)
      rw [hυ.length_drawn_pulled hT out' hret'] at hqueue'
      rcases hυ.described.at.framesNeeded_eq hpos hx' n' with heq | heq
      · exact .inl (by rw [hqueue', heq])
      · exact .inr (by rw [hqueue', heq])

/-- A stereo host going down, on which ten frames arrive and a callback pulls four outputs. -/
theorem fifo_host_box :
    let D : Direction := .downTo44k1
    let k := Kernels.exact ℤ
    let s := after k (.box D 4) 2 [] 0 1
    let σ := (FifoHost.start s).run k [.push (List.replicate 10 [1, 2]), .pull (fun _ => 0) 4]
    4 * D.kDecimation ⌈/⌉ D.kPhases ≤ σ.queue.length → (σ.pulled k (fun _ => 0) 4).ret = 4 := by
  intro D k s σ
  have hs : Converter.make k (.box D 4) 2 = .ok s := make_ok two_ne_zero
  have hevents : ∀ e ∈ [FifoHost.Event.push (List.replicate 10 [(1 : ℤ), 2]),
      .pull (fun _ => 0) 4], e.Framed 2 := by
    simp [FifoHost.Event.Framed]
  exact (fifo_host hs four_pos hevents (fun _ => 0) 4).2.2.2.2.1

end RatioTap
