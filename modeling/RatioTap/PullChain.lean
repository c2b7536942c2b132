import RatioTap.AnySource
import RatioTap.Drive

/-!
# A pull through two converters

A callback of `pull` may itself pull from another converter.  The calls that a `pull` records
are a run of its source (`PopFn.Answered`), so what it draws through the inner converter are the
next outputs of that one, in order and without a gap (`Sourced`).  The two converters in a row
then compute the one stream after the other, hold everything that was taken from the source, and
take from it exactly what `frames_needed` of the inner one says that `frames_needed` of the outer
one needs (`pull_through`).
-/

namespace RatioTap

open FlatMemory PopCall

/-! ### A converter as a source -/

/-- A callback that pulls from the converter `s`, whose own callback is `pop`; `buf` is what its
destination holds before. -/
def Converter.source {D : Direction} {S K : Type} (k : Kernels S K) (s : Converter D S K)
    (buf : ℕ → S) (pop : PopFn S) : PopFn S where
  State := Converter D S K × pop.State
  state := (s, pop.state)
  call st want :=
    let r := st.1.pull k buf want (pop.withState st.2)
    ((r.conv, pop.stateAfter st.2 r.calls), r.ret, r.out)

section Source

variable {D : Direction} {S K : Type} {k : Kernels S K} {tb : PhaseTable D K} {C m e : ℕ}
  {xs : List (List S)} {buf : ℕ → S} {pop : PopFn S} {calls cs : List (PopCall S)}

/-- What the calls `calls` do that are made of a converter as a source, which stood after the
frames `xs` and `m` outputs: it made the calls `cs` of its own source, took in what they brought
and delivered its next `e` outputs.  When the last call was answered in full, nothing was taken
in that the outputs did not need; when it was answered with nothing, so was the last of `cs`. -/
structure Sourced (k : Kernels S K) (tb : PhaseTable D K) (C : ℕ) (buf : ℕ → S) (pop : PopFn S)
    (xs : List (List S)) (m : ℕ) (cs : List (PopCall S)) (e : ℕ) (calls : List (PopCall S)) :
    Prop where
  answered : pop.Answered cs
  resting : Resting D (xs ++ drawn C cs).length (m + e)
  after : ((Converter.after k tb C xs m (gapLeft D xs.length m)).source k buf pop).after calls
    = (Converter.after k tb C (xs ++ drawn C cs) (m + e)
        (gapLeft D (xs ++ drawn C cs).length (m + e))).source k buf (pop.after cs)
  delivered : drawn C calls
    = (List.range e).map fun i => Converter.outFrame k tb C (xs ++ drawn C cs) (m + i)
  idle : calls = [] → cs = [] ∧ e = 0
  tight : calls ≠ [] → (∀ c, calls.getLast? = some c → c.want ≤ c.got) →
    0 < e ∧ (xs ++ drawn C cs).length = D.tick (m + e - 1) + 1
  dry : (∃ c, calls.getLast? = some c ∧ c.got = 0) → ∃ c, cs.getLast? = some c ∧ c.got = 0

lemma Sourced.nil (hrest : Resting D xs.length m) : Sourced k tb C buf pop xs m [] 0 [] where
  answered := .nil pop
  resting := by rwa [drawn_nil, List.append_nil]
  after := by
    rw [drawn_nil, List.append_nil]
    rfl
  delivered := rfl
  idle _ := ⟨rfl, rfl⟩
  tight h := absurd rfl h
  dry := by rintro ⟨c, hc, -⟩; cases hc

/-- The first call, and what the later ones make of the converter it leaves. -/
lemma Sourced.cons (hT : 0 < tb.mTaps) (hrest : Resting D xs.length m) {c : PopCall S}
    (hwant : 1 ≤ c.want) {r : Pulled D S K}
    (hr : r = (Converter.after k tb C xs m (gapLeft D xs.length m)).pull k buf c.want pop)
    (hgot : c.got = r.ret) (hdst : c.dst = r.out)
    (hs : Sourced k tb C buf (pop.after r.calls) (xs ++ drawn C r.calls) (m + r.ret) cs e calls) :
    Sourced k tb C buf pop xs m (r.calls ++ cs) (r.ret + e) (c :: calls) := by
  have hpull : Converter.Pulls k tb C buf xs m 0 c.want r :=
    hr ▸ Converter.pull_after hT hrest.toStanding buf c.want pop
  have hans : pop.Answered r.calls := hr ▸ (Converter.pull_answered _ buf c.want pop).1
  have hle := hpull.ret_le
  have hacc : c.accepted = r.ret := by
    rw [accepted, hgot]
    omega
  have hnext : ((Converter.after k tb C xs m (gapLeft D xs.length m)).source k buf pop).next
      c.want = r.conv.source k buf (pop.after r.calls) := by
    rw [hr]
    rfl
  refine ⟨hans.append hs.answered, ?_, ?_, ?_, fun h => absurd h (List.cons_ne_nil _ _), ?_, ?_⟩
  · rw [drawn_append, ← List.append_assoc, ← Nat.add_assoc]
    exact hs.resting
  · rw [PopFn.after_cons, hnext, hpull.conv, hs.after, PopFn.after_append, drawn_append,
      List.append_assoc, Nat.add_assoc]
  · have hfirst : c.frames C = (List.range r.ret).map fun i =>
        Converter.outFrame k tb C (xs ++ drawn C r.calls ++ drawn C cs) (m + i) := by
      rw [outFrames_append (hpull.resting hrest), frames, hacc, hdst, hpull.mem]
      exact framesFrom_writeFrames _ _ _ _
    rw [drawn_cons, hfirst, hs.delivered, List.range_add, List.map_append, List.map_map,
      drawn_append, List.append_assoc]
    simp only [Function.comp_def, Nat.add_assoc]
  · intro _ hlast
    rw [drawn_append, ← List.append_assoc, ← Nat.add_assoc]
    by_cases hcalls : calls = []
    · -- it was the last call, and it was answered in full
      obtain ⟨rfl, rfl⟩ := hs.idle hcalls
      have hfull : c.want ≤ c.got := hlast c (by rw [hcalls]; rfl)
      rcases (hpull.full (by omega)).2 with ⟨hzero, -⟩ | ⟨hpos, hx⟩
      · omega
      · rw [drawn_nil, List.append_nil, Nat.add_zero]
        exact ⟨hpos, hx⟩
    · obtain ⟨hpos, hx⟩ := hs.tight hcalls fun d hd => hlast d (by
        rw [List.getLast?_cons, hd]
        rfl)
      exact ⟨by omega, hx⟩
  · rintro ⟨d, hd, hzero⟩
    by_cases hcalls : calls = []
    · -- it was the last call, and it ran dry
      obtain ⟨rfl, rfl⟩ := hs.idle hcalls
      rw [hcalls] at hd
      obtain rfl : c = d := Option.some.inj hd
      rw [List.append_nil]
      exact getLast?_of_ranDry (hpull.dry (by omega)).1
    · obtain ⟨y, ys, rfl⟩ := List.exists_cons_of_ne_nil hcalls
      rw [List.getLast?_cons_cons] at hd
      obtain ⟨a, ha, hgot⟩ := hs.dry ⟨d, hd, hzero⟩
      exact ⟨a, by rw [List.getLast?_append, ha]; rfl, hgot⟩

/-- A run of a converter as a source. -/
lemma PopFn.Answered.sourced (hT : 0 < tb.mTaps) (hrest : Resting D xs.length m)
    (h : ((Converter.after k tb C xs m (gapLeft D xs.length m)).source k buf pop).Answered calls)
    (hwant : ∀ c ∈ calls, 1 ≤ c.want) :
    ∃ cs e, Sourced k tb C buf pop xs m cs e calls := by
  -- each call leaves a converter that is described by its stream again
  induction calls generalizing xs m pop with
  | nil => exact ⟨[], 0, .nil hrest⟩
  | cons c calls ih =>
      obtain ⟨r, hr⟩ : ∃ r, r = (Converter.after k tb C xs m (gapLeft D xs.length m)).pull k buf
        c.want pop := ⟨_, rfl⟩
      have hpull : Converter.Pulls k tb C buf xs m 0 c.want r :=
        hr ▸ Converter.pull_after hT hrest.toStanding buf c.want pop
      cases h with
      | cons hgot hdst hrun =>
          have hnext : ((Converter.after k tb C xs m (gapLeft D xs.length m)).source k buf
              pop).next c.want = r.conv.source k buf (pop.after r.calls) := by
            rw [hr]
            rfl
          rw [hnext, hpull.conv] at hrun
          obtain ⟨cs, e, hs⟩ := ih (hpull.resting hrest) hrun fun d hd =>
            hwant d (List.mem_cons_of_mem c hd)
          exact ⟨r.calls ++ cs, r.ret + e, .cons hT hrest (hwant c List.mem_cons_self) hr
            (hgot.trans (by rw [hr]; rfl)) (hdst.trans (by rw [hr]; rfl)) hs⟩

/-- What a converter as a source took in for outputs that were all wanted. -/
lemma Sourced.length_drawn (h : Sourced k tb C buf pop xs m cs e calls) (hlegal : ∀ c ∈ calls,
    c.Legal) (hfull : LastFull calls) {s : Converter D S K} (hs : s.At xs.length m) :
    (drawn C cs).length = s.framesNeeded .exact e := by
  rw [Converter.framesNeeded_at (A := .exact) trivial hs]
  by_cases hcalls : calls = []
  · obtain ⟨rfl, rfl⟩ := h.idle hcalls
    rfl
  · obtain ⟨hpos, hx⟩ := h.tight hcalls fun c hc => by
      have hc' := hlegal c (List.mem_of_getLast? hc)
      have := hc'.after_add
      have := hc'.want_le
      have := hfull c hc
      rw [accepted] at *
      omega
    rw [List.length_append] at hx
    rw [if_neg (by omega), gapLeft, show m + (e - 1) = m + e - 1 by omega]
    omega

end Source

/-- A `pull` whose callback pulls from another converter of as many channels, after any calls on
both and against any source.  The calls that reach the source are a run of it; the inner
converter has taken in what they brought and has emitted its next `e` outputs, the outer one
has taken in exactly these, and the outputs written are those of that stream; nothing else in the
buffer changes.  A complete call has drawn what `frames_needed` of the inner converter says that
`frames_needed` of the outer one needs, and an incomplete one has met a source that delivered
nothing at the last call.  The needs are meant exactly; for up to `2 ^ 56` outputs they are
computed so. -/
theorem pull_through {A : Word} {D₁ D₂ : Direction} {S K₁ K₂ : Type} {k₁ : Kernels S K₁}
    {k₂ : Kernels S K₂} {tb₁ : PhaseTable D₁ K₁} {tb₂ : PhaseTable D₂ K₂} (hT₁ : 0 < tb₁.mTaps)
    (hT₂ : 0 < tb₂.mTaps) (inner : Drive A k₁ tb₁) (outer : Drive A k₂ tb₂)
    (hC : inner.channels = outer.channels) (buf out : ℕ → S) (outFrames : ℕ) (pop : PopFn S) :
    let C := outer.channels
    let s := inner.session.conv
    let t := outer.session.conv
    let r := t.pull k₂ out outFrames (s.source k₁ buf pop)
    (∀ n ≤ 2 ^ 56, s.framesNeeded (.bits 64) n = s.framesNeeded .exact n ∧
      t.framesNeeded (.bits 64) n = t.framesNeeded .exact n) ∧
    ∃ (cs : List (PopCall S)) (e : ℕ), pop.Answered cs ∧
      let x := inner.fed ++ drawn C cs
      let m := inner.outs.length
      let y := outer.fed ++ (List.range e).map fun i => Converter.outFrame k₁ tb₁ C x (m + i)
      let n := outer.outs.length
      r.pop = (Converter.after k₁ tb₁ C x (m + e) (gapLeft D₁ x.length (m + e))).source k₁ buf
        (pop.after cs) ∧
      r.conv = Converter.after k₂ tb₂ C y (n + r.ret) (gapLeft D₂ y.length (n + r.ret)) ∧
      r.out = writeFrames out C r.ret (fun i => Converter.outSample k₂ tb₂ y (n + i)) ∧
      (r.ret = outFrames → e = t.framesNeeded .exact outFrames ∧
        (drawn C cs).length = s.framesNeeded .exact e) ∧
      (r.ret ≠ outFrames → ∃ c, cs.getLast? = some c ∧ c.got = 0) := by
  intro C s t r
  have hinner := inner.described hT₁
  have houter := outer.described hT₂
  rw [hC] at hinner
  have hs : s.source k₁ buf pop = _ := congrArg (fun s => s.source k₁ buf pop) hinner.conv
  have hpull : Converter.Pulls k₂ tb₂ C out _ _ 0 outFrames r := houter.pull hT₂ out outFrames _
  obtain ⟨hans, hpop, hfull⟩ : (s.source k₁ buf pop).Answered r.calls ∧
      r.pop = (s.source k₁ buf pop).after r.calls ∧ (r.ret = outFrames → LastFull r.calls) :=
    t.pull_answered out outFrames (s.source k₁ buf pop)
  rw [hs] at hans hpop
  obtain ⟨cs, e, h⟩ := hans.sourced hT₁ hinner.resting fun c hc => (hpull.legal c hc).want_pos
  have hlen : (drawn C r.calls).length = e := by rw [h.delivered]; simp
  refine ⟨fun n hn => ⟨hinner.at.framesNeeded_bits hn, houter.at.framesNeeded_bits hn⟩,
    cs, e, h.answered, ?_⟩
  intro x m y n
  have hy : outer.session.fed ++ drawn C r.calls = y := by
    rw [h.delivered]
    rfl
  refine ⟨?_, ?_, ?_, ?_, ?_⟩
  · rw [hpop]
    exact h.after
  · rw [← hy]
    exact hpull.conv
  · rw [← hy]
    exact hpull.mem
  · intro hret
    have hacc := hpull.accepted_eq (A := .exact) trivial houter.at hret
    rw [← PopCall.length_drawn (C := C), hlen] at hacc
    exact ⟨hacc, h.length_drawn hpull.legal (hfull hret) hinner.at⟩
  · intro hret
    have hle := hpull.ret_le
    exact h.dry (getLast?_of_ranDry (hpull.dry (by omega)).1)

/-- Ten stereo frames, up to 48 kHz and down again, from a source that holds nine frames. -/
theorem pull_through_box :
    let k := Kernels.exact ℤ
    let s := Converter.after k (.box .upTo48k 4) 2 [] 0 1
    let t := Converter.after k (.box .downTo44k1 4) 2 [] 0 1
    let pop : PopFn ℤ := ⟨ℕ, 9, fun left want => (left - want, min left want, fun i => i)⟩
    let r := t.pull k (fun _ => 0) 10 (s.source k (fun _ => 0) pop)
    ∃ cs, pop.Answered cs ∧
      (r.ret = 10 → (drawn 2 cs).length = s.framesNeeded .exact (t.framesNeeded .exact 10)) ∧
      (r.ret ≠ 10 → ∃ c, cs.getLast? = some c ∧ c.got = 0) := by
  intro k s t pop r
  let inner : Drive .exact k (.box .upTo48k 4) :=
    ⟨2, s, Converter.make_ok two_ne_zero, [], by simp⟩
  let outer : Drive .exact k (.box .downTo44k1 4) :=
    ⟨2, t, Converter.make_ok two_ne_zero, [], by simp⟩
  obtain ⟨-, cs, e, hans, -, -, -, hfull, hdry⟩ :=
    pull_through four_pos four_pos inner outer rfl (fun _ => 0) (fun _ => 0) 10 pop
  refine ⟨cs, hans, ?_, hdry⟩
  intro hret
  obtain ⟨rfl, hlen⟩ := hfull hret
  exact hlen

end RatioTap
