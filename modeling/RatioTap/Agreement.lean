import RatioTap.SessionStream

/-!
# Converters that agree on a channel

Two converters on one table agree on a channel of either when their cursors and the newest
`T` samples of the two channels are equal (`Alike`).  Nothing else of a converter is heard:
calls that feed the two channels the same samples leave the converters in agreement and write
the same samples (`trace_alike`), whatever was fed before, whatever the other channels and the
remaining cells of the histories hold, and wherever the histories end.
-/

namespace RatioTap

open FlatMemory PopCall Converter

variable {A : Word} {D : Direction} {S K : Type} {k : Kernels S K} {tb : PhaseTable D K}
  {C C' c c' : ℕ} {xs xs' ys ys' : List (List S)} {m m' n : ℕ}

/-! ### Agreement on a channel -/

/-- Two buffers of `n` frames, of `C` and of `C'` samples, hold the same samples on channel
`c` of the first and channel `c'` of the second. -/
def SameSamples (C c C' c' n : ℕ) (inp inp' : ℕ → S) : Prop :=
  ∀ i < n, inp (i * C + c) = inp' (i * C' + c')

/-- Two sources deliver as many frames whenever they are asked for as many, with the same
samples on the two channels. -/
def PopFn.Agree (C c C' c' : ℕ) (pop pop' : PopFn S) : Prop :=
  ∃ R : pop.State → pop'.State → Prop, R pop.state pop'.state ∧ ∀ a b, R a b → ∀ want,
    R (pop.call a want).1 (pop'.call b want).1 ∧
      (pop.call a want).2.1 = (pop'.call b want).2.1 ∧
      SameSamples C c C' c' (min (pop.call a want).2.1 want) (pop.call a want).2.2
        (pop'.call b want).2.2

/-- Two calls of the callback, made and answered alike. -/
structure PopCall.Agree (C c C' c' : ℕ) (d d' : PopCall S) : Prop where
  got : d.got = d'.got
  want : d.want = d'.want
  dst : SameSamples C c C' c' d.accepted d.dst d'.dst

/-- Two calls of one kind, which feed the two channels the same samples. -/
inductive Call.Agree (C c C' c' : ℕ) : Call S → Call S → Prop where
  | process {inp inp' : ℕ → S} {inFrames : ℕ} (out out' : ℕ → S)
      (h : SameSamples C c C' c' inFrames inp inp') :
      Agree C c C' c' (.process inp inFrames out) (.process inp' inFrames out')
  | pull {pop pop' : PopFn S} (outFrames : ℕ) (out out' : ℕ → S)
      (h : pop.Agree C c C' c' pop') :
      Agree C c C' c' (.pull out outFrames pop) (.pull out' outFrames pop')
  | flush (out out' : ℕ → S) : Agree C c C' c' (.flush out) (.flush out')
  | reset : Agree C c C' c' .reset .reset

/-- Two reports of as many frames, with the same samples on the two channels. -/
structure Report.Agree (k : Kernels S K) (c c' : ℕ) (r r' : Report D S K) : Prop where
  ret : r.ret = r'.ret
  outs : channel k c r.outs = channel k c' r'.outs

/-- The reports of a run of calls, one after the other. -/
def Converter.trace (A : Word) (k : Kernels S K) :
    Converter D S K → List (Call S) → List (Report D S K)
  | _, [] => []
  | s, call :: calls =>
    let r := call.exec A k s
    r :: trace A k r.conv calls

lemma Call.Agree.admissible {call call' : Call S} (h : call.Agree C c C' c' call')
    (hcall : call.Admissible A) : call'.Admissible A := by
  cases h with
  | process _ _ _ => exact hcall
  | pull _ _ _ _ => trivial
  | flush _ _ => trivial
  | reset => trivial

/-! ### The two channels on streams -/

lemma channel_append (k : Kernels S K) (c : ℕ) (xs ys : List (List S)) :
    channel k c (xs ++ ys) = channel k c xs ++ channel k c ys := List.map_append

lemma channel_framesFrom (k : Kernels S K) (hc : c < C) (inp : ℕ → S) (n : ℕ) :
    channel k c (framesFrom inp C n) = (List.range n).map fun i => inp (i * C + c) := by
  rw [channel, framesFrom, List.map_map]
  apply List.map_congr_left
  intro i _
  simp [frameAt, hc]

lemma SameSamples.channel_eq (k : Kernels S K) (hc : c < C) (hc' : c' < C') {inp inp' : ℕ → S}
    (h : SameSamples C c C' c' n inp inp') :
    channel k c (framesFrom inp C n) = channel k c' (framesFrom inp' C' n) := by
  rw [channel_framesFrom k hc, channel_framesFrom k hc']
  exact List.map_congr_left fun i hi => h i (List.mem_range.1 hi)

/-- Frames of silence are silent on every channel. -/
lemma channel_silence (k : Kernels S K) (c C n : ℕ) :
    channel k c (List.replicate n (List.replicate C k.silence))
      = List.replicate n k.silence := by
  rw [channel, List.map_replicate, List.getD_eq_getElem?_getD, List.getElem?_replicate]
  split <;> rfl

/-! ### What is heard of a converter -/

/-- After `x` frames and `m` outputs, and after `x'` frames and `m'` outputs, a converter
stands at the same position of the superblock before the same gap. -/
structure SameCursors (D : Direction) (x x' m m' : ℕ) : Prop where
  pos : m % D.kPhases = m' % D.kPhases
  gap : gapLeft D x m = gapLeft D x' m'

namespace SameCursors

variable {x x' : ℕ} (h : SameCursors D x x' m m') (hst : Standing D x m)
  (hst' : Standing D x' m')

include h hst hst'

/-- A later output waits for as many frames. -/
lemma exists_wait (r : ℕ) : ∃ e, D.tick (m + r) + 1 = x + e ∧ D.tick (m' + r) + 1 = x' + e := by
  obtain ⟨hpos, hgap⟩ := h
  -- both wait for the end of the same gap, and then for the same stretch of the period
  have hadd := hst.add_gapLeft
  have hadd' := hst'.add_gapLeft
  have hperiod := D.tick_add_mod m r
  have hperiod' := D.tick_add_mod m' r
  have hmono := D.tick_mono (Nat.le_add_right m r)
  rw [← hpos] at hperiod'
  exact ⟨gapLeft D x m + (D.tick (m + r) - D.tick m), by omega, by omega⟩

/-- As many outputs fall due within a block of any length. -/
lemma due_sub_eq (N : ℕ) : D.due (x + N) - m = D.due (x' + N) - m' := by
  have key (q : ℕ) : m + q < D.due (x + N) ↔ m' + q < D.due (x' + N) := by
    obtain ⟨e, he, he'⟩ := h.exists_wait hst hst' q
    rw [D.lt_due_iff, D.lt_due_iff]
    omega
  have hle := key (D.due (x + N) - m)
  have hge := key (D.due (x' + N) - m')
  omega

/-- As many frames and outputs later the cursors are the same again. -/
lemma add (q r : ℕ) : SameCursors D (x + q) (x' + q) (m + r) (m' + r) := by
  obtain ⟨e, he, he'⟩ := h.exists_wait hst hst' r
  refine ⟨Nat.ModEq.add_right r h.pos, ?_⟩
  rw [gapLeft, gapLeft, he, he']
  omega

/-- They are the same once all that is due behind a block has been emitted. -/
lemma due (N : ℕ) :
    SameCursors D (x + N) (x' + N) (D.due (x + N)) (D.due (x' + N)) := by
  have hadd := h.add hst hst' N (D.due (x + N) - m)
  have heq := h.due_sub_eq hst hst' N
  rwa [Nat.add_sub_of_le (hst.le_due_add N), heq, Nat.add_sub_of_le (hst'.le_due_add N)] at hadd

end SameCursors

/-- Two sessions whose converters have the same cursors stand alike in their streams. -/
lemma Session.Described.sameCursors {σ σ' : Session D S K} (h : σ.Described k tb C)
    (h' : σ'.Described k tb C) (hpos : σ'.conv.mPos = σ.conv.mPos)
    (hpend : σ'.conv.mPending = σ.conv.mPending) :
    SameCursors D σ.fed.length σ'.fed.length σ.outs.length σ'.outs.length where
  pos := by rw [← h.at.pos_eq, ← h'.at.pos_eq, hpos]
  gap := by rw [← h.mPending_eq, ← h'.mPending_eq, hpend]

/-- The converters have the same cursors and hold the same newest samples on the two
channels. -/
structure Alike (k : Kernels S K) (tb : PhaseTable D K) (c c' : ℕ) (xs xs' : List (List S))
    (m m' : ℕ) : Prop extends SameCursors D xs.length xs'.length m m' where
  window : newest k tb c xs = newest k tb c' xs'

/-- The newest samples after more frames, in terms of the newest ones before. -/
lemma newest_append (c : ℕ) (xs ys : List (List S)) :
    newest k tb c (xs ++ ys) = (newest k tb c xs ++ channel k c ys).rtake tb.mTaps := by
  rw [newest, newest, channel_append, SlidingHistory.rtake_append_rtake, List.append_assoc]

/-- Streams that agree on two channels are equally long. -/
lemma length_eq_of_channel (h : channel k c xs = channel k c' xs') : xs.length = xs'.length := by
  have := congrArg List.length h
  rwa [length_channel, length_channel] at this

namespace Alike

lemma of_channel (h : channel k c xs = channel k c' xs') : Alike k tb c c' xs xs' m m := by
  refine ⟨⟨rfl, ?_⟩, ?_⟩
  · rw [length_eq_of_channel h]
  · rw [newest, newest, h]

variable (h : Alike k tb c c' xs xs' m m') (hst : Standing D xs.length m)
  (hst' : Standing D xs'.length m')

include h hst hst'

/-- Frames that agree on the two channels bring out the same samples. -/
lemma outSample (hys : channel k c ys = channel k c' ys') (r : ℕ) :
    outSample k tb (xs ++ ys) (m + r) c = outSample k tb (xs' ++ ys') (m' + r) c' := by
  obtain ⟨e, he, he'⟩ := h.exists_wait hst hst' r
  have hphase : (m + r) * D.kDecimation % D.kPhases = (m' + r) * D.kDecimation % D.kPhases :=
    (Nat.ModEq.add_right r h.pos).mul_right D.kDecimation
  have htake : channel k c (ys.take e) = channel k c' (ys'.take e) := by
    rw [channel, channel, List.map_take, List.map_take]
    exact congrArg _ hys
  rw [Converter.outSample, Converter.outSample, he, he', List.take_length_add_append,
    List.take_length_add_append, newest_append, newest_append, h.window, htake, hphase]

/-- They leave the converters alike. -/
lemma append (hys : channel k c ys = channel k c' ys') (r : ℕ) :
    Alike k tb c c' (xs ++ ys) (xs' ++ ys') (m + r) (m' + r) where
  toSameCursors := by
    rw [List.length_append, List.length_append, ← length_eq_of_channel hys]
    exact h.add hst hst' _ r
  window := by rw [newest_append, newest_append, h.window, hys]

end Alike

/-- The outputs of a channel, read out of the frames. -/
lemma channel_outFrames (hc : c < C) (xs : List (List S)) (m n : ℕ) :
    channel k c ((List.range n).map fun i => outFrame k tb C xs (m + i))
      = (List.range n).map fun i => outSample k tb xs (m + i) c := by
  rw [channel, List.map_map]
  exact List.map_congr_left fun i _ => getD_outFrame hc k.silence

/-! ### The callback -/

namespace PopFn.Agree

variable {pop pop' : PopFn S}

lemma next (h : pop.Agree C c C' c' pop') (want : ℕ) :
    (pop.next want).Agree C c C' c' (pop'.next want) := by
  obtain ⟨R, h0, hR⟩ := h
  exact ⟨R, (hR _ _ h0 want).1, hR⟩

lemma got_eq (h : pop.Agree C c C' c' pop') (want : ℕ) : pop.got want = pop'.got want := by
  obtain ⟨R, h0, hR⟩ := h
  exact (hR _ _ h0 want).2.1

lemma dst (h : pop.Agree C c C' c' pop') (want : ℕ) :
    SameSamples C c C' c' (min (pop.got want) want) (pop.dst want) (pop'.dst want) := by
  obtain ⟨R, h0, hR⟩ := h
  exact (hR _ _ h0 want).2.2

end PopFn.Agree

/-- Calls that agree take in frames that agree. -/
lemma PopCall.Agree.channel_eq (k : Kernels S K) (hc : c < C) (hc' : c' < C')
    {d d' : PopCall S} (h : d.Agree C c C' c' d') :
    channel k c (d.frames C) = channel k c' (d'.frames C') := by
  have hacc : d.accepted = d'.accepted := by rw [accepted, accepted, h.got, h.want]
  rw [frames, frames, ← hacc]
  exact h.dst.channel_eq k hc hc'

lemma channel_drawn (k : Kernels S K) (hc : c < C) (hc' : c' < C') {ds ds' : List (PopCall S)}
    (h : List.Forall₂ (PopCall.Agree C c C' c') ds ds') :
    channel k c (drawn C ds) = channel k c' (drawn C' ds') := by
  induction h with
  | nil => rfl
  | cons hd _ ih =>
      rw [drawn_cons, drawn_cons, channel_append, channel_append, ih, hd.channel_eq k hc hc']

namespace Converter

/-- Taking in frames leaves the schedule position. -/
lemma takeFrames_mPos (s : Converter D S K) (scratch : ℕ → S) (n : ℕ) :
    (s.takeFrames scratch n).mPos = s.mPos := by
  refine forLt_induct (P := fun _ (t : Converter D S K) => t.mPos = s.mPos) rfl
    fun i _ t ht => ?_
  rw [← ht]
  simp only [takeFrame, appendFrame, compactIfFull]
  split <;> rfl

/-- Two fillings of a gap that made the same calls. -/
structure FillsAlike (C c C' c' : ℕ) (f f' : Filled D S K) : Prop where
  dry : f.dry = f'.dry
  pos : f.conv.mPos = f'.conv.mPos
  pop : f.pop.Agree C c C' c' f'.pop
  calls : List.Forall₂ (PopCall.Agree C c C' c') f.calls f'.calls

/-- What the gap-filling loop asks for depends on the gap and on the counts it gets. -/
lemma popFill_agree {s s' : Converter D S K} {pop pop' : PopFn S} (hpos : s.mPos = s'.mPos)
    (hpend : s.mPending = s'.mPending) (h : pop.Agree C c C' c' pop') :
    FillsAlike C c C' c' (s.popFill pop) (s'.popFill pop') := by
  -- the induction is on the gap, which both loops count down by what they are given
  obtain ⟨p, hp⟩ : ∃ p, p = s.mPending := ⟨_, rfl⟩
  induction p using Nat.strong_induction_on generalizing s s' pop pop' with
  | _ p ih =>
      have hp' : p = s'.mPending := hp.trans hpend
      by_cases h0 : p = 0
      · rw [popFill_zero (hp.symm.trans h0), popFill_zero (hp'.symm.trans h0)]
        exact ⟨rfl, hpos, h, .nil⟩
      by_cases hgot : pop.got (popWant p) = 0
      · have hgot' : pop'.got (popWant p) = 0 := (h.got_eq _).symm.trans hgot
        rw [popFill_dry hp h0 hgot, popFill_dry hp' h0 hgot']
        have hnone : SameSamples C c C' c' (min 0 (popWant p)) (pop.dst (popWant p))
            (pop'.dst (popWant p)) := fun i hi => by omega
        exact ⟨rfl, hpos, h.next _, .cons ⟨rfl, rfl, hnone⟩ .nil⟩
      · have hgot' : ¬ pop'.got (popWant p) = 0 := fun h' => hgot ((h.got_eq _).trans h')
        rw [popFill_deliver hp h0 hgot, popFill_deliver hp' h0 hgot', ← h.got_eq]
        obtain ⟨q, hq⟩ : ∃ q, q = min (pop.got (popWant p)) (popWant p) := ⟨_, rfl⟩
        have hlt : dec32^[q] p < p := by
          refine dec32_iterate_lt ?_ (hq ▸ (min_le_right _ _).trans (popWant_le _))
          rw [hq]
          exact Nat.lt_min.2 ⟨Nat.pos_of_ne_zero hgot, popWant_pos h0⟩
        have hrest : FillsAlike C c C' c'
            ((s.takeFrames (pop.dst (popWant p)) q).popFill (pop.next (popWant p)))
            ((s'.takeFrames (pop'.dst (popWant p)) q).popFill (pop'.next (popWant p))) := by
          refine ih _ hlt ?_ ?_ (h.next _) ?_
          · rw [takeFrames_mPos, takeFrames_mPos, hpos]
          · rw [takeFrames_mPending, takeFrames_mPending, hpend]
          · rw [takeFrames_mPending, hp]
        rw [hq] at hrest
        exact ⟨hrest.dry, hrest.pos, hrest.pop, .cons ⟨rfl, rfl, h.dst _⟩ hrest.calls⟩

/-- Sources that agree are asked the same questions, and as many outputs are written. -/
lemma pullLoop_agree {s s' : Converter D S K} {pop pop' : PopFn S} (todo : ℕ)
    (hpos : s.mPos = s'.mPos) (hpend : s.mPending = s'.mPending)
    (h : pop.Agree C c C' c' pop') (out out' : ℕ → S) :
    (pullLoop k todo n s out pop).ret = (pullLoop k todo n s' out' pop').ret ∧
      List.Forall₂ (PopCall.Agree C c C' c') (pullLoop k todo n s out pop).calls
        (pullLoop k todo n s' out' pop').calls := by
  induction todo generalizing n s s' pop pop' out out' with
  | zero => exact ⟨rfl, .nil⟩
  | succ todo ih =>
      have hfill := popFill_agree hpos hpend h
      rw [pullLoop, pullLoop]
      cases hd : (s.popFill pop).dry with
      | true =>
          rw [hfill.dry] at hd
          simp only [hd, if_true, true_and]
          exact hfill.calls
      | false =>
          rw [hfill.dry] at hd
          simp only [hd, Bool.false_eq_true, if_false]
          let e := (s.popFill pop).conv.emit k out (n * s.mChannels)
          let e' := (s'.popFill pop').conv.emit k out' (n * s'.mChannels)
          have hpos' : e.1.mPos = e'.1.mPos := congrArg (nextPos D) hfill.pos
          have hpend' : e.1.mPending = e'.1.mPending :=
            congrArg (fun pos => (kSchedule D pos).advance) hfill.pos
          obtain ⟨hret, hcalls⟩ := ih (n := n + 1) hpos' hpend' hfill.pop e.2 e'.2
          exact ⟨hret, List.rel_append hfill.calls hcalls⟩

end Converter

/-! ### One call -/

/-- Two reports of calls made on converters that stand alike: when what they append agrees on
the two channels and the counts are the same, so does what they write. -/
lemma Report.agree_of_continues (hc : c < C) (hc' : c' < C') {r r' : Report D S K}
    (h : Alike k tb c c' xs xs' m m') (hst : Standing D xs.length m)
    (hst' : Standing D xs'.length m') (hr : r.Continues k tb C xs m)
    (hr' : r'.Continues k tb C' xs' m') (hret : r.ret = r'.ret)
    (hfed : channel k c r.fed = channel k c' r'.fed) : r.Agree k c c' r' := by
  refine ⟨hret, ?_⟩
  rw [hr.outs, hr'.outs, channel_outFrames hc, channel_outFrames hc', hret]
  exact List.map_congr_left fun i _ => h.outSample hst hst' hfed i

/-- Calls that agree append frames that agree, and return the same count. -/
lemma Call.Agree.exec (hT : 0 < tb.mTaps) (hc : c < C) (hc' : c' < C')
    (h : Alike k tb c c' xs xs' m m') (hst : Standing D xs.length m)
    (hst' : Standing D xs'.length m') {call call' : Call S}
    (hagree : call.Agree C c C' c' call') (hcall : call.Admissible A) :
    let r := call.exec A k (after k tb C xs m (gapLeft D xs.length m))
    let r' := call'.exec A k (after k tb C' xs' m' (gapLeft D xs'.length m'))
    r.ret = r'.ret ∧ channel k c r.fed = channel k c' r'.fed := by
  cases hagree with
  | process out out' hinp =>
      rw [Call.exec, Call.exec, process_after _ out hT hcall hst,
        process_after _ out' hT hcall hst']
      exact ⟨h.due_sub_eq hst hst' _, hinp.channel_eq k hc hc'⟩
  | pull outFrames out out' hpop =>
      have hpos : (after k tb C xs m (gapLeft D xs.length m)).mPos
          = (after k tb C' xs' m' (gapLeft D xs'.length m')).mPos := h.pos
      have hpend : (after k tb C xs m (gapLeft D xs.length m)).mPending
          = (after k tb C' xs' m' (gapLeft D xs'.length m')).mPending := h.gap
      obtain ⟨hret, hcalls⟩ := pullLoop_agree (k := k) (n := 0) outFrames hpos hpend hpop out out'
      refine ⟨hret, ?_⟩
      exact channel_drawn k hc hc' hcalls
  | flush out out' =>
      rw [Call.exec, Call.exec, flush_after hT hst out, flush_after hT hst' out']
      refine ⟨h.due_sub_eq hst hst' _, ?_⟩
      rw [channel_silence, channel_silence]
      rfl
  | reset => exact ⟨rfl, rfl⟩

/-! ### Whole runs -/

/-- Runs of calls that agree, on converters that stand alike, make reports that agree. -/
theorem trace_alike (hT : 0 < tb.mTaps) (hc : c < C) (hc' : c' < C')
    {calls calls' : List (Call S)} (h : Alike k tb c c' xs xs' m m')
    (hrest : Resting D xs.length m) (hrest' : Resting D xs'.length m')
    (hagree : List.Forall₂ (Call.Agree C c C' c') calls calls')
    (hcalls : ∀ call ∈ calls, call.Admissible A) :
    List.Forall₂ (Report.Agree k c c')
      ((after k tb C xs m (gapLeft D xs.length m)).trace A k calls)
      ((after k tb C' xs' m' (gapLeft D xs'.length m')).trace A k calls') := by
  induction hagree generalizing xs xs' m m' with
  | nil => exact .nil
  | @cons call call' calls calls' hcall _ ih =>
      have hadm := hcalls call List.mem_cons_self
      have ih' {zs zs' : List (List S)} {i i' : ℕ} (hzs : Alike k tb c c' zs zs' i i')
          (hi : Resting D zs.length i) (hi' : Resting D zs'.length i') :=
        ih hzs hi hi' fun d hd => hcalls d (List.mem_cons_of_mem call hd)
      obtain ⟨hret, hfed⟩ :=
        hcall.exec hT hc hc' h hrest.toStanding hrest'.toStanding hadm
      -- `reset` forgets both streams, every other call continues them
      by_cases hreset : call = .reset
      · subst hreset
        cases hcall
        refine .cons ⟨rfl, rfl⟩ ?_
        have hnil : channel k c ([] : List (List S)) = channel k c' [] := rfl
        have hempty := ih' (.of_channel hnil) (Resting.zero D) (Resting.zero D)
        change List.Forall₂ _ (((after k tb C xs m _).reset k).trace A k calls)
          (((after k tb C' xs' m' _).reset k).trace A k calls')
        rw [reset_after hT, reset_after hT, ← gapLeft_zero D]
        exact hempty
      · have hreset' : call' ≠ .reset := by
          rintro rfl
          cases hcall
          exact hreset rfl
        have hr := Call.exec_continues (k := k) (C := C) hT hrest hadm hreset
        have hr' := Call.exec_continues (k := k) (C := C') hT hrest' (hcall.admissible hadm)
          hreset'
        refine .cons (Report.agree_of_continues hc hc' h hrest.toStanding hrest'.toStanding hr hr'
          hret hfed) ?_
        rw [hr.conv, hr'.conv, ← hret]
        exact ih' (h.append hrest.toStanding hrest'.toStanding hfed _) hr.resting
          (hret ▸ hr'.resting)

/-! ### All channels at once -/

/-- Two reports of the same frames. -/
structure Report.Same (r r' : Report D S K) : Prop where
  ret : r.ret = r'.ret
  outs : r.outs = r'.outs

/-- Frames of `C` samples are known from their channels. -/
lemma eq_of_channel (hC : 0 < C) (hxs : ∀ f ∈ xs, f.length = C) (hys : ∀ f ∈ ys, f.length = C)
    (h : ∀ c < C, channel k c xs = channel k c ys) : xs = ys := by
  have hlen : xs.length = ys.length := length_eq_of_channel (h 0 hC)
  refine List.ext_getElem hlen fun i hi hi' => ?_
  have hx := hxs _ (List.getElem_mem hi)
  have hy := hys _ (List.getElem_mem hi')
  refine List.ext_getElem (hx.trans hy.symm) fun c hc hc' => ?_
  have hcell : (channel k c xs)[i]? = (channel k c ys)[i]? := by rw [h c (hx ▸ hc)]
  simpa [channel, hi, hi', hc, hc'] using hcell

/-- A call writes whole frames. -/
lemma Call.length_of_mem_outs {s : Converter D S K} {call : Call S} {f : List S}
    (hf : f ∈ (call.exec A k s).outs) : f.length = s.mChannels := by
  have hframes {out : ℕ → S} {n : ℕ} (hf : f ∈ framesFrom out s.mChannels n) :
      f.length = s.mChannels := by
    obtain ⟨i, -, rfl⟩ := List.mem_map.1 hf
    exact length_frameAt _ _ _
  cases call with
  | process inp inFrames out => exact hframes hf
  | pull out outFrames pop => exact hframes hf
  | flush out => exact hframes hf
  | reset => cases hf

/-- Every call leaves a converter at rest. -/
lemma Call.exec_resting (hT : 0 < tb.mTaps) (hrest : Resting D xs.length m) {call : Call S}
    (hcall : call.Admissible A) :
    ∃ zs i, Resting D zs.length i ∧
      (call.exec A k (after k tb C xs m (gapLeft D xs.length m))).conv
        = after k tb C zs i (gapLeft D zs.length i) := by
  by_cases hreset : call = .reset
  · subst hreset
    refine ⟨[], 0, Resting.zero D, ?_⟩
    rw [List.length_nil, gapLeft_zero]
    exact reset_after hT
  · have hr := Call.exec_continues (k := k) (C := C) hT hrest hcall hreset
    exact ⟨_, _, hr.resting, hr.conv⟩

lemma length_of_mem_trace (hT : 0 < tb.mTaps) {calls : List (Call S)}
    (hrest : Resting D xs.length m) (hcalls : ∀ call ∈ calls, call.Admissible A) :
    ∀ r ∈ (after k tb C xs m (gapLeft D xs.length m)).trace A k calls, ∀ f ∈ r.outs,
      f.length = C := by
  induction calls generalizing xs m with
  | nil => simp [Converter.trace]
  | cons call calls ih =>
      rintro r hr f hf
      rcases List.mem_cons.1 hr with rfl | hr
      · exact Call.length_of_mem_outs hf
      · obtain ⟨zs, i, hresting, hconv⟩ := Call.exec_resting (k := k) (C := C) hT hrest
          (hcalls call List.mem_cons_self)
        rw [hconv] at hr
        exact ih hresting (fun d hd => hcalls d (List.mem_cons_of_mem call hd)) r hr f hf

/-- Converters that agree on every channel write the same frames, for calls that deliver the
same frames. -/
theorem trace_same (hT : 0 < tb.mTaps) (hC : 0 < C) {calls calls' : List (Call S)}
    (h : ∀ c < C, Alike k tb c c xs xs' m m') (hrest : Resting D xs.length m)
    (hrest' : Resting D xs'.length m')
    (hagree : ∀ c < C, List.Forall₂ (Call.Agree C c C c) calls calls')
    (hcalls : ∀ call ∈ calls, call.Admissible A) :
    List.Forall₂ Report.Same
      ((after k tb C xs m (gapLeft D xs.length m)).trace A k calls)
      ((after k tb C xs' m' (gapLeft D xs'.length m')).trace A k calls') := by
  have hcalls' : ∀ call ∈ calls', call.Admissible A := by
    rintro call' hcall'
    obtain ⟨i, hi, rfl⟩ := List.getElem_of_mem hcall'
    have hi' : i < calls.length := (hagree 0 hC).length_eq ▸ hi
    exact ((hagree 0 hC).get hi' hi).admissible (hcalls _ (List.getElem_mem hi'))
  have hone (c : ℕ) (hc : c < C) :=
    List.forall₂_iff_zip.1 (trace_alike hT hc hc (h c hc) hrest hrest' (hagree c hc) hcalls)
  refine List.forall₂_iff_zip.2 ⟨(hone 0 hC).1, ?_⟩
  intro r r' hmem
  obtain ⟨hr, hr'⟩ := List.of_mem_zip hmem
  constructor
  · exact ((hone 0 hC).2 hmem).ret
  · exact eq_of_channel hC (length_of_mem_trace hT hrest hcalls r hr)
      (length_of_mem_trace hT hrest' hcalls' r' hr') fun c hc => ((hone c hc).2 hmem).outs

/-- A call agrees with itself. -/
lemma Call.Agree.refl (C c : ℕ) (call : Call S) : call.Agree C c C c call := by
  cases call with
  | process inp inFrames out => exact .process out out fun _ _ => rfl
  | pull out outFrames pop =>
      refine .pull outFrames out out ⟨Eq, rfl, ?_⟩
      rintro a _ rfl want
      exact ⟨rfl, rfl, fun _ _ => rfl⟩
  | flush out => exact .flush out out
  | reset => exact .reset

end RatioTap
