import RatioTap.Pull
import RatioTap.Stream

/-!
# Pull and flush, on streams

What the other two drivers do to a converter that is described by its stream.  Filling the
gap before an output appends the frames that the callback delivers and no more than the gap
(`popFill_after`); a run of `pull` is a sequence of filled gaps and outputs, which ends when
all outputs are written or at the first call that delivers nothing (`pullLoop_after`); and
`flush` appends one frame of silence per tap and writes what falls due
(`flush_after`).
-/

namespace RatioTap

open FlatMemory SlidingHistory

namespace PopCall

variable {S : Type} {C : ℕ}

/-- The call asks for at least one frame and for no more than are pending, and the frames
taken in are taken off `m_pending` exactly. -/
structure Legal (c : PopCall S) : Prop where
  want_pos : 1 ≤ c.want
  want_le : c.want ≤ c.pending
  after_add : c.after + c.accepted = c.pending

/-- The frames taken in over several calls. -/
def drawn (C : ℕ) (calls : List (PopCall S)) : List (List S) := calls.flatMap (frames C)

/-- The last call delivered nothing, and no earlier one did so. -/
def RanDry (calls : List (PopCall S)) : Prop :=
  ∃ cs c, calls = cs ++ [c] ∧ c.got = 0 ∧ ∀ d ∈ cs, d.got ≠ 0

@[simp] lemma length_frames (c : PopCall S) : (c.frames C).length = c.accepted := by
  simp [frames]

@[simp] lemma drawn_nil : drawn C ([] : List (PopCall S)) = [] := rfl

@[simp] lemma drawn_cons (c : PopCall S) (cs : List (PopCall S)) :
    drawn C (c :: cs) = c.frames C ++ drawn C cs := List.flatMap_cons

@[simp] lemma drawn_append (cs ds : List (PopCall S)) :
    drawn C (cs ++ ds) = drawn C cs ++ drawn C ds := List.flatMap_append

lemma length_drawn (calls : List (PopCall S)) :
    (drawn C calls).length = (calls.map accepted).sum := by
  induction calls with
  | nil => rfl
  | cons c cs ih => simp [ih]

lemma RanDry.append {cs ds : List (PopCall S)} (hcs : ∀ c ∈ cs, c.got ≠ 0) (h : RanDry ds) :
    RanDry (cs ++ ds) := by
  obtain ⟨es, c, rfl, hc, hes⟩ := h
  refine ⟨cs ++ es, c, (List.append_assoc _ _ _).symm, hc, ?_⟩
  intro d hd
  rcases List.mem_append.1 hd with hd | hd
  · exact hcs d hd
  · exact hes d hd

end PopCall

open PopCall

namespace Converter

variable {D : Direction} {S K : Type} {k : Kernels S K} {tb : PhaseTable D K} {C : ℕ}
  {xs : List (List S)} {n m p : ℕ}

/-! ### Taking in a delivery -/

lemma takeFrame_after (hp : 0 < p) (hlt : p < 2 ^ 32) (frame : ℕ → S) :
    (after k tb C xs n p).takeFrame frame
      = after k tb C (xs ++ [(List.range C).map frame]) n (p - 1) := by
  rw [takeFrame, appendFrame_after]
  simp only [after, dec32_of_lt hp hlt]

lemma takeFrames_after {i : ℕ} (hi : i ≤ p) (hlt : p < 2 ^ 32) (scratch : ℕ → S) :
    (after k tb C xs n p).takeFrames scratch i
      = after k tb C (xs ++ framesFrom scratch C i) n (p - i) := by
  refine forLt_induct
    (P := fun i t => t = after k tb C (xs ++ framesFrom scratch C i) n (p - i)) ?_ ?_
  · rw [framesFrom_zero, List.append_nil, Nat.sub_zero]
  · rintro j hj t rfl
    rw [takeFrame_after (by omega) (by omega), framesFrom_succ, ← List.append_assoc, Nat.sub_sub]
    rfl

/-! ### Filling a gap -/

/-- What filling a gap of `p` frames does to the stream `xs`. -/
structure Fills (k : Kernels S K) (tb : PhaseTable D K) (C : ℕ) (xs : List (List S)) (n p : ℕ)
    (f : Filled D S K) : Prop where
  conv : f.conv = after k tb C (xs ++ drawn C f.calls) n (p - (drawn C f.calls).length)
  le : (drawn C f.calls).length ≤ p
  legal : ∀ c ∈ f.calls, c.Legal
  full : f.dry = false → (drawn C f.calls).length = p ∧ ∀ c ∈ f.calls, c.got ≠ 0
  dry : f.dry = true → (drawn C f.calls).length < p ∧ RanDry f.calls

namespace Fills

variable {c : PopCall S} {f : Filled D S K} {pop : PopFn S}

/-- There is no gap to fill. -/
lemma nil : Fills k tb C xs n 0 ⟨after k tb C xs n 0, pop, [], false⟩ where
  conv := by simp
  le := by simp
  legal := by simp
  full _ := ⟨rfl, by simp⟩
  dry h := nomatch h

/-- The call delivers nothing. -/
lemma stop (hp : p ≠ 0) (hc : c.Legal) (hgot : c.got = 0) :
    Fills k tb C xs n p ⟨after k tb C xs n p, pop, [c], true⟩ := by
  have hdrawn : drawn C [c] = [] := by simp [drawn, frames, accepted, hgot]
  constructor
  · rw [hdrawn, List.append_nil]
    rfl
  · rw [hdrawn]
    exact Nat.zero_le p
  · rintro d hd
    rwa [List.mem_singleton.1 hd]
  · rintro ⟨⟩
  · intro _
    rw [hdrawn]
    exact ⟨Nat.pos_of_ne_zero hp, [], c, rfl, hgot, by simp⟩

/-- The call delivers part of the gap, and the rest of the loop fills what is left. -/
lemma cons (hc : c.Legal) (hgot : c.got ≠ 0) (hle : c.accepted ≤ p)
    (hf : Fills k tb C (xs ++ c.frames C) n (p - c.accepted) f) :
    Fills k tb C xs n p { f with calls := c :: f.calls } := by
  obtain ⟨hconv, hlen, hlegal, hfull, hdry⟩ := hf
  have hall : ∀ d ∈ [c], d.got ≠ 0 := by
    rintro d hd
    rwa [List.mem_singleton.1 hd]
  constructor <;> simp only [drawn_cons, List.length_append, length_frames]
  · rw [hconv, ← List.append_assoc, Nat.sub_sub]
  · omega
  · rintro d hd
    rcases List.mem_cons.1 hd with rfl | hd
    · exact hc
    · exact hlegal d hd
  · intro h
    obtain ⟨hl, hg⟩ := hfull h
    refine ⟨by omega, ?_⟩
    intro d hd
    rcases List.mem_cons.1 hd with rfl | hd
    · exact hgot
    · exact hg d hd
  · intro h
    obtain ⟨hl, hd⟩ := hdry h
    exact ⟨by omega, RanDry.append hall hd⟩

end Fills

/-- The gap-filling loop appends what the callback delivers, and stops with the gap filled
or at the first call that delivers nothing. -/
lemma popFill_after (hlt : p < 2 ^ 32) (pop : PopFn S) :
    Fills k tb C xs n p ((after k tb C xs n p).popFill pop) := by
  induction p using Nat.strong_induction_on generalizing xs pop with
  | _ p ih =>
      have hpend : p = (after k tb C xs n p).mPending := rfl
      by_cases hp : p = 0
      · subst hp
        rw [popFill_zero rfl]
        exact Fills.nil
      have hwant := popWant_pos hp
      have hle := popWant_le p
      by_cases hgot : pop.got (popWant p) = 0
      · rw [popFill_dry hpend hp hgot]
        exact Fills.stop hp ⟨hwant, hle, by simp [accepted]⟩ rfl
      · rw [popFill_deliver hpend hp hgot]
        have hap : min (pop.got (popWant p)) (popWant p) ≤ p := (min_le_right _ _).trans hle
        have hpos : 0 < min (pop.got (popWant p)) (popWant p) :=
          Nat.lt_min.2 ⟨Nat.pos_of_ne_zero hgot, hwant⟩
        rw [takeFrames_after hap hlt]
        exact Fills.cons ⟨hwant, hle, Nat.sub_add_cancel hap⟩ hgot hap
          (ih _ (Nat.sub_lt (Nat.pos_of_ne_zero hp) hpos) ((Nat.sub_le _ _).trans_lt hlt) _)

/-! ### A run of outputs -/

/-- What `todo` outputs of `pull` do, entered after the frames `xs` and `m + n` outputs, the
last `n` of them written to the memory `out`. -/
structure Pulls (k : Kernels S K) (tb : PhaseTable D K) (C : ℕ) (out : ℕ → S)
    (xs : List (List S)) (m n todo : ℕ) (r : Pulled D S K) : Prop where
  le : n ≤ r.ret
  ret_le : r.ret ≤ n + todo
  standing : Standing D (xs ++ drawn C r.calls).length (m + r.ret)
  conv : r.conv = after k tb C (xs ++ drawn C r.calls) (m + r.ret)
    (gapLeft D (xs ++ drawn C r.calls).length (m + r.ret))
  mem : r.out = writeFrames out C r.ret fun i => outSample k tb (xs ++ drawn C r.calls) (m + i)
  legal : ∀ c ∈ r.calls, c.Legal
  full : r.ret = n + todo → (∀ c ∈ r.calls, c.got ≠ 0) ∧
    (todo = 0 ∧ r.calls = [] ∨
      n < r.ret ∧ (xs ++ drawn C r.calls).length = D.tick (m + r.ret - 1) + 1)
  dry : r.ret < n + todo → RanDry r.calls ∧
    gapLeft D (xs ++ drawn C r.calls).length (m + r.ret) ≠ 0

/-- One output, then the rest of the run.  After the output the stream is `tick` of it long,
whether or not the rest takes in anything. -/
lemma Pulls.cons {out : ℕ → S} {todo : ℕ} {cs : List (PopCall S)} {r : Pulled D S K}
    (hlegal : ∀ c ∈ cs, c.Legal) (hgot : ∀ c ∈ cs, c.got ≠ 0)
    (hx : (xs ++ drawn C cs).length = D.tick (m + n) + 1)
    (hr : Pulls k tb C out (xs ++ drawn C cs) m (n + 1) todo r) :
    Pulls k tb C out xs m n (todo + 1) { r with calls := cs ++ r.calls } := by
  have hdrawn : xs ++ drawn C (cs ++ r.calls) = xs ++ drawn C cs ++ drawn C r.calls := by
    rw [drawn_append, List.append_assoc]
  obtain ⟨hle, hret, hst, hconv, hmem, hlegal', hfull, hdry⟩ := hr
  constructor <;> simp only [hdrawn]
  · omega
  · omega
  · exact hst
  · exact hconv
  · exact hmem
  · rintro c hc
    rcases List.mem_append.1 hc with hc | hc
    · exact hlegal c hc
    · exact hlegal' c hc
  · intro h
    obtain ⟨hall, hend⟩ := hfull (by omega)
    refine ⟨?_, .inr ⟨hle, ?_⟩⟩
    · intro c hc
      rcases List.mem_append.1 hc with hc | hc
      · exact hgot c hc
      · exact hall c hc
    · rcases hend with ⟨rfl, hnil⟩ | ⟨-, hend⟩
      · rw [hnil, drawn_nil, List.append_nil, hx, show m + r.ret - 1 = m + n by omega]
      · exact hend
  · intro h
    obtain ⟨hran, hne⟩ := hdry (by omega)
    exact ⟨RanDry.append hgot hran, hne⟩

/-- Frames that come later do not change the outputs before the one a converter stands at. -/
lemma writeFrames_append (hst : Standing D xs.length (m + n)) (ys : List (List S))
    (out : ℕ → S) :
    (writeFrames out C n fun i => outSample k tb (xs ++ ys) (m + i))
      = writeFrames out C n fun i => outSample k tb xs (m + i) := by
  refine writeFrames_congr fun i hi => outSample_append ?_
  rcases hst.lt with h | h
  · omega
  · exact (D.tick_mono (by omega)).trans_lt h

/-- The loop over the outputs: each fills its gap and is written, until one cannot. -/
lemma pullLoop_after (hT : 0 < tb.mTaps) (todo : ℕ) (hst : Standing D xs.length (m + n))
    (out : ℕ → S) (pop : PopFn S) :
    Pulls k tb C out xs m n todo (pullLoop k todo n
      (after k tb C xs (m + n) (gapLeft D xs.length (m + n)))
      (writeFrames out C n fun i => outSample k tb xs (m + i)) pop) := by
  induction todo generalizing xs n pop with
  | zero =>
      constructor <;> simp [pullLoop, hst]
  | succ todo ih =>
      have hfill : Fills k tb C xs (m + n) (gapLeft D xs.length (m + n)) _ :=
        popFill_after hst.gapLeft_lt pop
      rw [pullLoop]
      generalize (after k tb C xs (m + n) (gapLeft D xs.length (m + n))).popFill pop = f at hfill ⊢
      obtain ⟨hconv, hlen, hlegal, hfull, hdry⟩ := hfill
      have hleft : gapLeft D (xs ++ drawn C f.calls).length (m + n)
          = gapLeft D xs.length (m + n) - (drawn C f.calls).length := by
        rw [List.length_append, gapLeft_add]
      have hst₁ : Standing D (xs ++ drawn C f.calls).length (m + n) := by
        have := hst.add_gapLeft
        rw [List.length_append]
        exact hst.mono (by omega) (by omega)
      rw [← hleft] at hconv
      have hdryNe (h : (drawn C f.calls).length < gapLeft D xs.length (m + n)) :
          gapLeft D (xs ++ drawn C f.calls).length (m + n) ≠ 0 := by omega
      cases hd : f.dry with
      | true =>
          -- the source ran dry inside the gap
          obtain ⟨hlt, hran⟩ := hdry hd
          simp only [if_true]
          exact { le := le_rfl
                  ret_le := Nat.le_add_right _ _
                  standing := hst₁
                  conv := hconv
                  mem := (writeFrames_append hst _ out).symm
                  legal := hlegal
                  full := fun h => by simp at h
                  dry := fun _ => ⟨hran, hdryNe hlt⟩ }
      | false =>
          -- the gap is filled, so the output is emitted and the rest is the induction's
          obtain ⟨hall, hgot⟩ := hfull hd
          have hzero : gapLeft D (xs ++ drawn C f.calls).length (m + n) = 0 := by omega
          have hx : (xs ++ drawn C f.calls).length = D.tick (m + n) + 1 := by
            have := hst₁.add_gapLeft
            omega
          have hemit := emit_next (k := k) (C := C) (p := 0) hT hst₁ hzero List.prefix_rfl out
          rw [hzero] at hconv
          have hch : (after k tb C xs (m + n) (gapLeft D xs.length (m + n))).mChannels = C := rfl
          simp only [Bool.false_eq_true, if_false, hconv, hch]
          rw [← writeFrames_append hst (drawn C f.calls) out, hemit]
          exact Pulls.cons hlegal hgot hx (ih (hst₁.emit hzero) f.pop)

/-- `pull` on a converter that is described by its stream. -/
theorem pull_after (hT : 0 < tb.mTaps) (hst : Standing D xs.length m) (out : ℕ → S)
    (outFrames : ℕ) (pop : PopFn S) :
    Pulls k tb C out xs m 0 outFrames
      ((after k tb C xs m (gapLeft D xs.length m)).pull k out outFrames pop) := by
  have h := pullLoop_after (k := k) (C := C) (m := m) (n := 0) hT outFrames hst out pop
  rwa [writeFrames_zero] at h

/-! ### Flush -/

/-- The stream `xs` with `q` frames of silence behind it. -/
def padded (k : Kernels S K) (C : ℕ) (xs : List (List S)) (q : ℕ) : List (List S) :=
  xs ++ List.replicate q (List.replicate C k.silence)

@[simp] lemma length_padded {q : ℕ} : (padded k C xs q).length = xs.length + q := by
  simp [padded]

lemma padded_append (q r : ℕ) :
    padded k C xs (q + r)
      = padded k C xs q ++ List.replicate r (List.replicate C k.silence) := by
  rw [padded, padded, List.append_assoc, List.replicate_append_replicate]

lemma padded_isPrefix {q r : ℕ} (h : q ≤ r) : padded k C xs q <+: padded k C xs r := by
  obtain ⟨n, rfl⟩ := Nat.exists_eq_add_of_le h
  rw [padded_append]
  exact List.prefix_append _ _

lemma padded_succ (q : ℕ) :
    padded k C xs q ++ [List.replicate C k.silence] = padded k C xs (q + 1) :=
  (padded_append q 1).symm

/-- Silence goes in until the gap is filled or the silence is used up. -/
lemma feedSilence_after {zeros fed : ℕ} (hlt : p < 2 ^ 32) :
    feedSilence k zeros (after k tb C (padded k C xs fed) n p) fed
      = (after k tb C (padded k C xs (fed + min p (zeros - fed))) n (p - min p (zeros - fed)),
          fed + min p (zeros - fed)) := by
  induction p generalizing fed with
  | zero => simp [feedSilence, after]
  | succ p ih =>
      have hpend : (after k tb C (padded k C xs fed) n (p + 1)).mPending = p + 1 := rfl
      rw [feedSilence, hpend]
      by_cases hfed : fed < zeros
      · have hdec : dec32 (p + 1) = p := dec32_of_lt (Nat.succ_pos p) hlt
        have hmin : min (p + 1) (zeros - fed) = min p (zeros - (fed + 1)) + 1 := by omega
        rw [if_pos ⟨Nat.succ_ne_zero p, hfed⟩]
        simp only [appendSilence_after, padded_succ]
        have hrest := @ih (fed + 1) (by omega)
        rw [hmin, Nat.add_sub_add_right, ← Nat.add_assoc, Nat.add_right_comm fed]
        change feedSilence k zeros (after k tb C (padded k C xs (fed + 1)) n (dec32 (p + 1)))
          (fed + 1) = _
        rw [hdec, hrest]
      · rw [if_neg fun h => hfed h.2, Nat.sub_eq_zero_of_le (Nat.le_of_not_lt hfed), Nat.min_zero]
        rfl

/-- A run of `flush`, entered with `fed` frames of silence fed and `n` outputs written. -/
lemma flushLoop_after (hT : 0 < tb.mTaps) {zeros fed : ℕ} (hfed : fed ≤ zeros)
    (hst : Standing D (xs.length + fed) (m + n)) (out : ℕ → S) :
    flushLoop k zeros
        (after k tb C (padded k C xs fed) (m + n) (gapLeft D (xs.length + fed) (m + n)))
        (writeFrames out C n fun i => outSample k tb (padded k C xs zeros) (m + i)) fed n
      = { conv := after k tb C (padded k C xs zeros) (D.due (xs.length + zeros))
            (gapLeft D (xs.length + zeros) (D.due (xs.length + zeros)))
          out := writeFrames out C (D.due (xs.length + zeros) - m)
            fun i => outSample k tb (padded k C xs zeros) (m + i)
          ret := D.due (xs.length + zeros) - m } := by
  -- the induction is on the outputs that the silence still allows
  obtain ⟨todo, htodo⟩ : ∃ todo, todo = D.due (xs.length + zeros) - (m + n) := ⟨_, rfl⟩
  induction todo generalizing fed n with
  | zero =>
      have hne : gapLeft D (xs.length + zeros) (m + n) ≠ 0 := gapLeft_ne_zero_iff.2 (by omega)
      have hfull : fed + (zeros - fed) = zeros := by omega
      have hgap : gapLeft D (xs.length + fed) (m + n) - (zeros - fed)
          = gapLeft D (xs.length + zeros) (m + n) := by
        rw [← gapLeft_add, Nat.add_assoc, hfull]
      have hp := hst.add_gapLeft
      have hwait := D.due_le_iff.1 (gapLeft_ne_zero_iff.1 hne)
      have heq : D.due (xs.length + zeros) = m + n :=
        (hst.mono (by omega) (by omega)).due_eq hne
      rw [flushLoop, feedSilence_after hst.gapLeft_lt, Nat.min_eq_right (by omega), hfull, hgap]
      exact (if_pos hne).trans (by rw [heq, Nat.add_sub_cancel_left])
  | succ todo ih =>
      have htick := D.lt_due_iff.1 (show m + n < D.due (xs.length + zeros) by omega)
      have hp := hst.add_gapLeft
      obtain ⟨fed', hfed'⟩ : ∃ f, f = fed + gapLeft D (xs.length + fed) (m + n) := ⟨_, rfl⟩
      have hst₁ : Standing D (xs.length + fed') (m + n) := hst.mono (by omega) (by omega)
      have hzero : gapLeft D (xs.length + fed') (m + n) = 0 := by
        rw [gapLeft]
        omega
      have hlen : (padded k C xs fed').length = xs.length + fed' := length_padded
      have hemit := emit_next (k := k) (C := C) (p := 0) hT (hlen ▸ hst₁) (hlen ▸ hzero)
        (padded_isPrefix (show fed' ≤ zeros by omega)) out
      rw [hlen] at hemit
      rw [flushLoop, feedSilence_after hst.gapLeft_lt, Nat.min_eq_left (by omega), Nat.sub_self,
        ← hfed']
      refine (if_neg (not_not.2 rfl)).trans ?_
      dsimp only
      rw [show (after k tb C (padded k C xs fed') (m + n) 0).mChannels = C from rfl, hemit]
      have hst₂ : Standing D (xs.length + fed') (m + (n + 1)) := hst₁.emit hzero
      exact ih (by omega) hst₂ (by omega)

/-- `flush` on a converter that is described by its stream. -/
theorem flush_after (hT : 0 < tb.mTaps) (hst : Standing D xs.length m) (out : ℕ → S) :
    (after k tb C xs m (gapLeft D xs.length m)).flush k out
      = { conv := after k tb C (padded k C xs tb.mTaps) (D.due (xs.length + tb.mTaps))
            (gapLeft D (xs.length + tb.mTaps) (D.due (xs.length + tb.mTaps)))
          out := writeFrames out C (D.due (xs.length + tb.mTaps) - m)
            fun i => outSample k tb (padded k C xs tb.mTaps) (m + i)
          ret := D.due (xs.length + tb.mTaps) - m } := by
  have h := flushLoop_after (k := k) (C := C) (m := m) (n := 0) hT (Nat.zero_le tb.mTaps) hst out
  rw [writeFrames_zero, padded, List.replicate_zero, List.append_nil] at h
  exact h

end Converter

end RatioTap
