import RatioTap.Predictions
import RatioTap.Sources

/-!
# Pull against any source

A source may deliver nothing, less than it is asked for, or claim to have delivered more;
`pull` keeps its accounts whatever it does (`Pulled.Accounted`): it asks for no more than is
pending, takes in no more than `frames_needed` said, is complete exactly when it has taken in
all of that, and otherwise stops at the first empty delivery with every output written that
the frames taken in allow.

That is so with the need in exact arithmetic (`Session.Described.accounted`).  As it is computed,
the product of `frames_needed` wraps for counts of outputs beyond `2 ^ 56`, and from there on the
need is not the one that `pull` meets: the accounts are kept for every source exactly as long as
the product does not wrap (`pull_any_source_iff`).
-/

namespace RatioTap

open PopCall

/-- The number of frames taken in by a `pull`. -/
def Pulled.taken {D : Direction} {S K : Type} (r : Pulled D S K) : ℕ := (r.calls.map accepted).sum

/-- The accounts of a `pull` of `outFrames` outputs on the converter `t`, with the need computed
in the arithmetic `A`. -/
structure Pulled.Accounted {D : Direction} {S K : Type} (A : Word) (t : Converter D S K)
    (outFrames : ℕ) (pop : PopFn S) (r : Pulled D S K) : Prop where
  /-- The calls are calls of the callback, with its answers. -/
  answered : pop.Answered r.calls
  /-- There were no others. -/
  after : r.pop = pop.after r.calls
  /-- The callback is asked for at least one frame and for no more than are pending, and the
  frames taken in are taken off `m_pending`, which does not wrap. -/
  asked : ∀ c ∈ r.calls, 1 ≤ c.want ∧ c.want ≤ c.pending ∧ c.after + c.accepted = c.pending
  taken_le : r.taken ≤ t.framesNeeded A outFrames
  complete : r.ret = outFrames ↔ r.taken = t.framesNeeded A outFrames
  /-- A call that is not complete returned when the callback delivered nothing, with the largest
  count whose need is covered. -/
  short : r.ret ≠ outFrames → r.ret < outFrames ∧ RanDry r.calls ∧
    IsGreatest {n | n ≤ outFrames ∧ t.framesNeeded A n ≤ r.taken} r.ret
  /-- What is still needed is what was needed less what was taken in. -/
  rest : r.conv.framesNeeded A (outFrames - r.ret) = t.framesNeeded A outFrames - r.taken

namespace Converter

variable {D : Direction} {S K : Type} {k : Kernels S K} {tb : PhaseTable D K}
  {C : ℕ} {xs : List (List S)} {s : Converter D S K} {m n todo : ℕ} {out : ℕ → S}
  {r : Pulled D S K} {pop : PopFn S}

/-! ### The exact need -/

/-- More outputs need no less. -/
lemma At.framesNeeded_mono {x : ℕ} (hs : s.At x m) {n n' : ℕ} (h : n ≤ n') :
    s.framesNeeded .exact n ≤ s.framesNeeded .exact n' := by
  rw [framesNeeded_at (A := .exact) trivial hs, framesNeeded_at (A := .exact) trivial hs]
  rcases Nat.eq_zero_or_pos n with rfl | hn
  · exact Nat.zero_le _
  · have htick := D.tick_mono (show m + (n - 1) ≤ m + (n' - 1) by omega)
    rw [if_neg (by omega), if_neg (by omega), gapLeft, gapLeft]
    omega

/-- A `pull` that runs dry has written all outputs that the frames taken in allow. -/
lemma Pulls.framesNeeded_le_iff (h : Pulls k tb C out xs m 0 todo r) (hs : s.At xs.length m)
    (hdry : r.ret < todo) : s.framesNeeded .exact n ≤ r.taken ↔ n ≤ r.ret := by
  have hwait := (h.dry (by omega)).2
  have hstand := h.standing
  have hadd := hstand.add_gapLeft
  rw [List.length_append, length_drawn] at hwait hstand hadd
  rw [framesNeeded_at (A := .exact) trivial hs, Pulled.taken]
  by_cases h0 : n = 0
  · rw [if_pos h0, h0]
    exact iff_of_true (Nat.zero_le _) (Nat.zero_le _)
  · rw [if_neg h0, gapLeft]
    constructor
    · intro hle
      -- the frames taken in do not reach the output that waits
      by_contra hlt
      have := D.tick_mono (show m + r.ret ≤ m + (n - 1) by omega)
      omega
    · intro hle
      rcases hstand.lt with hzero | hlast
      · omega
      · have := D.tick_mono (show m + (n - 1) ≤ m + r.ret - 1 by omega)
        omega

/-- A `pull` that runs dry has taken in less than it needed. -/
lemma Pulls.taken_lt (h : Pulls k tb C out xs m 0 todo r) (hs : s.At xs.length m)
    (hdry : r.ret < todo) : r.taken < s.framesNeeded .exact todo := by
  by_contra hle
  have := (h.framesNeeded_le_iff (n := todo) hs hdry).1 (Nat.not_lt.1 hle)
  omega

/-- What is still needed is what was needed less what was taken in. -/
lemma Pulls.framesNeeded_rest (h : Pulls k tb C out xs m 0 todo r) (hs : s.At xs.length m) :
    r.taken + r.conv.framesNeeded .exact (todo - r.ret) = s.framesNeeded .exact todo := by
  have hle := h.ret_le
  rcases hle.lt_or_eq with hlt | heq
  · have hpos : 0 < todo - r.ret := by omega
    have hadd := framesNeeded_add (A := .exact) h trivial hpos hs
    rw [Pulled.taken, ← hadd, Nat.add_sub_of_le (by omega)]
  · have hret : r.ret = todo := by omega
    rw [hret, Nat.sub_self, Pulled.taken, h.accepted_eq (A := .exact) trivial hs hret]
    rfl

/-- The accounts are kept, in exact arithmetic. -/
lemma Pulls.accounted (h : Pulls k tb C out xs m 0 todo r) (hs : s.At xs.length m)
    (hans : pop.Answered r.calls) (hpop : r.pop = pop.after r.calls) :
    r.Accounted .exact s todo pop where
  answered := hans
  after := hpop
  asked c hc := ⟨(h.legal c hc).want_pos, (h.legal c hc).want_le, (h.legal c hc).after_add⟩
  taken_le := by
    have hrest := h.framesNeeded_rest hs
    omega
  complete := by
    have hle := h.ret_le
    constructor
    · exact fun hret => h.accepted_eq trivial hs hret
    · intro htaken
      by_contra hne
      exact absurd htaken (h.taken_lt hs (by omega)).ne
  short hne := by
    have hle := h.ret_le
    have hlt : r.ret < todo := by omega
    refine ⟨hlt, (h.dry (by omega)).1, ⟨hlt.le, (h.framesNeeded_le_iff hs hlt).2 le_rfl⟩, ?_⟩
    rintro n ⟨-, hn⟩
    exact (h.framesNeeded_le_iff hs hlt).1 hn
  rest := by
    have hrest := h.framesNeeded_rest hs
    omega

/-! ### The need as it is computed -/

/-- The product of `frames_needed` for the last of `n` outputs. -/
def lastProduct (s : Converter D S K) (n : ℕ) : ℕ := (s.mPos + (n - 1)) * D.kDecimation

lemma framesNeeded_exact (hpos : s.mPos < D.kPhases) (hn : n ≠ 0) :
    s.framesNeeded .exact n
      = s.mPending + (s.lastProduct n / D.kPhases - s.mPos * D.kDecimation / D.kPhases) := by
  rw [framesNeeded, if_neg hn, RatioTap.framesNeeded, Nat.mod_eq_of_lt hpos]
  rfl

/-- In 64 bits the product counts modulo `2 ^ 64`, and a difference that is taken the wrong way
round borrows. -/
lemma framesNeeded_bits (hpos : s.mPos < D.kPhases) (hn : n ≠ 0)
    (h : s.lastProduct n < 2 * 2 ^ 64) :
    s.framesNeeded (.bits 64) n = (s.mPending + (s.lastProduct n % 2 ^ 64 / D.kPhases + 2 ^ 64
      - s.mPos * D.kDecimation / D.kPhases)) % 2 ^ 64 := by
  have hpos0 : s.mPos * D.kDecimation < 2 ^ 64 := by
    have := Nat.mul_lt_mul'' hpos (Nat.lt_succ_of_le D.kDecimation_le)
    have := D.kPhases_le
    omega
  have hlast : s.mPos + (n - 1) < 2 ^ 63 := by
    cases D <;> simp only [lastProduct, Direction.kDecimation] at h <;> omega
  have hsub : (Word.bits 64).sub n 1 = n - 1 :=
    Word.sub_eq (show n < 2 ^ 64 by omega) (Nat.pos_of_ne_zero hn)
  have hsum : (Word.bits 64).add s.mPos (n - 1) = s.mPos + (n - 1) :=
    Word.add_eq (show s.mPos + (n - 1) < 2 ^ 64 by omega)
  have hbase : (Word.bits 64).mul s.mPos D.kDecimation = s.mPos * D.kDecimation :=
    Word.mul_eq (show s.mPos * D.kDecimation < 2 ^ 64 from hpos0)
  rw [framesNeeded, if_neg hn, RatioTap.framesNeeded, Nat.mod_eq_of_lt hpos, hsub, hsum, hbase,
    Word.add, Word.mul, Word.sub, Word.wrap, Word.wrap, Nat.add_mod_mod, lastProduct]

/-- While the product is a word the need is computed exactly; when it has wrapped once it is not,
and a little beyond the wrap it comes out too small. -/
lemma framesNeeded_bits_spec (hpos : s.mPos < D.kPhases) (hpend : s.mPending ≤ 2) (hn : n ≠ 0) :
    let P := s.lastProduct n
    (P < 2 ^ 64 → s.framesNeeded (.bits 64) n = s.framesNeeded .exact n) ∧
    (2 ^ 64 ≤ P → P < 2 * 2 ^ 64 → s.framesNeeded (.bits 64) n ≠ s.framesNeeded .exact n) ∧
    (2 ^ 64 + 2 ^ 16 ≤ P → P < 2 * 2 ^ 64 →
      s.framesNeeded (.bits 64) n < s.framesNeeded .exact n) := by
  intro P
  have hle : s.mPos * D.kDecimation ≤ P := Nat.mul_le_mul_right _ (Nat.le_add_right _ _)
  have hexact : s.framesNeeded .exact n
      = s.mPending + (P / D.kPhases - s.mPos * D.kDecimation / D.kPhases) :=
    framesNeeded_exact hpos hn
  have hbits (h : P < 2 * 2 ^ 64) : s.framesNeeded (.bits 64) n
      = (s.mPending + (P % 2 ^ 64 / D.kPhases + 2 ^ 64
        - s.mPos * D.kDecimation / D.kPhases)) % 2 ^ 64 := framesNeeded_bits hpos hn h
  rw [hexact]
  refine ⟨fun h => ?_, fun h h' => ?_, fun h h' => ?_⟩ <;> rw [hbits (by omega)]
  -- what is left is about the numbers
  all_goals
    clear hbits hexact hn
    clear_value P
    generalize s.mPos = pos at *
    generalize s.mPending = pend at *
    cases D <;> simp only [Direction.kPhases, Direction.kDecimation] at hpos hle ⊢ <;> omega

lemma framesNeeded_eq_exact (hpos : s.mPos < D.kPhases) (hpend : s.mPending ≤ 2)
    (h : n = 0 ∨ s.lastProduct n < 2 ^ 64) :
    s.framesNeeded (.bits 64) n = s.framesNeeded .exact n := by
  by_cases hn : n = 0
  · rw [framesNeeded, framesNeeded, if_pos hn, if_pos hn]
  · exact (framesNeeded_bits_spec hpos hpend hn).1 (h.resolve_left hn)

lemma lastProduct_mono (s : Converter D S K) {n n' : ℕ} (h : n ≤ n') :
    s.lastProduct n ≤ s.lastProduct n' := by
  refine Nat.mul_le_mul_right _ ?_
  omega

/-- The cursor moves on by no more than the outputs written. -/
lemma Pulls.lastProduct_rest_le (h : Pulls k tb C out xs m 0 todo r) (hs : s.At xs.length m)
    (hrest : todo - r.ret ≠ 0) : r.conv.lastProduct (todo - r.ret) ≤ s.lastProduct todo := by
  have hpos : r.conv.mPos ≤ s.mPos + r.ret := by
    rw [h.at.pos_eq, hs.pos_eq, ← Nat.mod_add_mod]
    exact Nat.mod_le _ _
  refine Nat.mul_le_mul_right _ ?_
  omega

/-- On the way to a product that has wrapped more than once there is a count a little beyond the
first wrap. -/
lemma exists_lastProduct (hpos : s.mPos < D.kPhases) (h : 2 * 2 ^ 64 ≤ s.lastProduct todo) :
    ∃ n ≤ todo, n ≠ 0 ∧ 2 ^ 64 + 2 ^ 16 ≤ s.lastProduct n ∧ s.lastProduct n < 2 * 2 ^ 64 := by
  refine ⟨(2 ^ 64 + 2 ^ 16) / D.kDecimation + 2 - s.mPos, ?_⟩
  simp only [lastProduct] at h ⊢
  generalize s.mPos = pos at *
  cases D <;> simp only [Direction.kPhases, Direction.kDecimation] at hpos h ⊢ <;> omega

/-! ### A source of so many frames -/

/-- From a queue `pull` takes what it needs, or all there is. -/
lemma Pulls.taken_fifo {z : S} {queue : List (List S)} (h : Pulls k tb C out xs m 0 todo r)
    (hs : s.At xs.length m) (hqueue : ∀ f ∈ queue, f.length = C)
    (hans : (fifo C z queue).Answered r.calls) :
    r.taken = min queue.length (s.framesNeeded .exact todo) := by
  have hdrawn := congrArg List.length (fifo_drawn hqueue hans)
  rw [List.length_append, length_drawn, ← Pulled.taken] at hdrawn
  have hle := h.ret_le
  have hrest := h.framesNeeded_rest hs
  by_cases hret : r.ret = todo
  · have htaken : r.taken = s.framesNeeded .exact todo := h.accepted_eq trivial hs hret
    omega
  · have hempty := fifo_dry hans (fun c hc => (h.legal c hc).want_pos)
      (getLast?_of_ranDry (h.dry (by omega)).1)
    rw [hempty, List.length_nil, Nat.add_zero] at hdrawn
    omega

/-- A source of `a` frames of silence. -/
abbrev silent (k : Kernels S K) (C a : ℕ) : PopFn S :=
  fifo C k.silence (List.replicate a (List.replicate C k.silence))

end Converter

/-- The accounts in an arithmetic that computes the needs concerned exactly. -/
lemma Pulled.Accounted.congr {A : Word} {D : Direction} {S K : Type} {t : Converter D S K}
    {todo : ℕ} {pop : PopFn S} {r : Pulled D S K} (h : r.Accounted .exact t todo pop)
    (hneed : ∀ n ≤ todo, t.framesNeeded A n = t.framesNeeded .exact n)
    (hrest : r.conv.framesNeeded A (todo - r.ret) = r.conv.framesNeeded .exact (todo - r.ret)) :
    r.Accounted A t todo pop where
  answered := h.answered
  after := h.after
  asked := h.asked
  taken_le := hneed todo le_rfl ▸ h.taken_le
  complete := hneed todo le_rfl ▸ h.complete
  short hne := by
    obtain ⟨hlt, hdry, ⟨hle, hmem⟩, hgreatest⟩ := h.short hne
    refine ⟨hlt, hdry, ⟨hle, (hneed _ hle).le.trans hmem⟩, ?_⟩
    rintro n ⟨hn, hcovered⟩
    exact hgreatest ⟨hn, (hneed n hn).ge.trans hcovered⟩
  rest := by rw [hrest, hneed todo le_rfl, h.rest]

namespace Session.Described

open Converter

variable {A : Word} {D : Direction} {S K : Type} {k : Kernels S K} {tb : PhaseTable D K}
  {C n todo : ℕ} {σ : Session D S K} {out : ℕ → S}

/-- In exact arithmetic every source is accounted for. -/
lemma accounted (h : σ.Described k tb C) (hT : 0 < tb.mTaps) (out : ℕ → S) (todo : ℕ)
    (pop : PopFn S) : (σ.conv.pull k out todo pop).Accounted .exact σ.conv todo pop := by
  have hr : Pulls k tb C out _ _ 0 todo (σ.conv.pull k out todo pop) := h.pull hT out todo pop
  obtain ⟨hans, hpop, -⟩ := σ.conv.pull_answered (k := k) out todo pop
  exact hr.accounted h.at hans hpop

/-- What is taken from a source of `a` frames. -/
lemma taken_silent (h : σ.Described k tb C) (hT : 0 < tb.mTaps) (out : ℕ → S) (todo a : ℕ) :
    (σ.conv.pull k out todo (silent k C a)).taken = min a (σ.conv.framesNeeded .exact todo) := by
  have hr : Pulls k tb C out _ _ 0 todo (σ.conv.pull k out todo (silent k C a)) :=
    h.pull hT out todo _
  have hframes : ∀ f ∈ List.replicate a (List.replicate C k.silence), f.length = C := by
    intro f hf
    rw [List.eq_of_mem_replicate hf, List.length_replicate]
  rw [hr.taken_fifo h.at hframes (h.accounted hT out todo _).answered, List.length_replicate]

/-- A source of all the frames needed shows the need. -/
lemma framesNeeded_eq_of_accounted (h : σ.Described k tb C) (hT : 0 < tb.mTaps)
    (hacc : ∀ a, (σ.conv.pull k out todo (silent k C a)).Accounted A σ.conv todo (silent k C a)) :
    σ.conv.framesNeeded A todo = σ.conv.framesNeeded .exact todo := by
  have htaken := h.taken_silent hT out todo (σ.conv.framesNeeded .exact todo)
  rw [Nat.min_self] at htaken
  have hret := (h.accounted hT out todo _).complete.2 htaken
  exact ((hacc _).complete.1 hret).symm.trans htaken

/-- A source that runs dry shows where a need is too small. -/
lemma framesNeeded_le_of_accounted (h : σ.Described k tb C) (hT : 0 < tb.mTaps)
    (hacc : ∀ a, (σ.conv.pull k out todo (silent k C a)).Accounted A σ.conv todo (silent k C a))
    (hn : n ≤ todo) : σ.conv.framesNeeded .exact n ≤ σ.conv.framesNeeded A n := by
  by_contra hlt
  let a := σ.conv.framesNeeded A n
  have htodo : σ.conv.framesNeeded .exact n ≤ σ.conv.framesNeeded .exact todo :=
    h.at.framesNeeded_mono hn
  have htaken := h.taken_silent hT out todo a
  rw [Nat.min_eq_left (by omega)] at htaken
  have hexact := h.accounted hT out todo (silent k C a)
  have hshort : (σ.conv.pull k out todo (silent k C a)).ret ≠ todo := fun hret => by
    have := hexact.complete.1 hret
    omega
  -- the outputs written need the true amount, and `n` of them are said to need no more than `a`
  obtain ⟨-, -, ⟨-, hwritten⟩, -⟩ := hexact.short hshort
  obtain ⟨-, -, -, hgreatest⟩ := (hacc a).short hshort
  have hle := hgreatest ⟨hn, htaken.ge⟩
  have hmono := h.at.framesNeeded_mono hle
  omega

end Session.Described

/-- `pull` against an arbitrary source, from every reachable converter and for every number of
outputs, on 64-bit words.  The accounts are kept for every callback exactly as long as the product
in `frames_needed` is a word. -/
theorem pull_any_source_iff {D : Direction} {S K : Type} {k : Kernels S K} {tb : PhaseTable D K}
    {C : ℕ} {s : Converter D S K} {calls : List (Call S)}
    (hs : Converter.make k tb C = .ok s) (hT : 0 < tb.mTaps)
    (hcalls : ∀ call ∈ calls, call.Admissible (.bits 64)) (outFrames : ℕ) :
    let t := ((Session.start s).run (.bits 64) k calls).conv
    (∀ out pop, (t.pull k out outFrames pop).Accounted (.bits 64) t outFrames pop) ↔
      outFrames = 0 ∨ (t.mPos + (outFrames - 1)) * D.kDecimation < 2 ^ 64 := by
  intro t
  have h := Session.described_run (A := .bits 64) hs hT hcalls
  have hat : t.At _ _ := h.at
  have hpend := hat.pending_le.trans D.maxAdvance_le
  constructor
  · intro hall
    by_contra hwraps
    obtain ⟨hne, hge⟩ := not_or.1 hwraps
    have hge : 2 ^ 64 ≤ t.lastProduct outFrames := Nat.not_lt.1 hge
    have hacc (a : ℕ) := hall (fun _ => k.silence) (Converter.silent k C a)
    rcases Nat.lt_or_ge (t.lastProduct outFrames) (2 * 2 ^ 64) with hlt | hfar
    · exact (Converter.framesNeeded_bits_spec hat.pos_lt hpend hne).2.1 hge hlt
        (h.framesNeeded_eq_of_accounted hT hacc)
    · obtain ⟨n, hn, hn0, hlow, hhigh⟩ := Converter.exists_lastProduct hat.pos_lt hfar
      have hless := (Converter.framesNeeded_bits_spec hat.pos_lt hpend hn0).2.2 hlow hhigh
      exact hless.not_ge (h.framesNeeded_le_of_accounted hT hacc hn)
  · intro hfits out pop
    have hr : Converter.Pulls k tb C out _ _ 0 outFrames (t.pull k out outFrames pop) :=
      h.pull hT out outFrames pop
    refine (h.accounted hT out outFrames pop).congr ?_ ?_
    · intro n hn
      refine Converter.framesNeeded_eq_exact hat.pos_lt hpend ?_
      rcases hfits with h0 | hlt
      · exact .inl (by omega)
      · exact .inr ((t.lastProduct_mono hn).trans_lt hlt)
    · refine Converter.framesNeeded_eq_exact hr.at.pos_lt
        (hr.at.pending_le.trans D.maxAdvance_le) (or_iff_not_imp_left.2 fun hrest => ?_)
      have hlt := hfits.resolve_left (by omega)
      exact (hr.lastProduct_rest_le hat hrest).trans_lt hlt

/-- On a stereo converter going down the accounts of ten outputs are kept for every callback. -/
theorem pull_any_source_iff_ten :
    let s := Converter.after (.exact ℤ) (.box .downTo44k1 4) 2 [] 0 1
    let t := ((Session.start s).run (.bits 64) (.exact ℤ) []).conv
    ∀ out pop, (t.pull (.exact ℤ) out 10 pop).Accounted (.bits 64) t 10 pop := by
  intro s t
  have hs : Converter.make (.exact ℤ) (.box .downTo44k1 4) 2 = .ok s :=
    Converter.make_ok two_ne_zero
  have hcalls : ∀ call ∈ ([] : List (Call ℤ)), call.Admissible (.bits 64) := by simp
  exact (pull_any_source_iff hs four_pos hcalls 10).2 (.inr (by decide))

/-- Going down, the product for `2 ^ 59 + 1` outputs is a multiple of `2 ^ 64`, and a fresh
converter says that it needs one frame; from a source of five it takes all five. -/
theorem pull_any_source_wraps :
    let k := Kernels.exact ℤ
    let s := Converter.after k (.box .downTo44k1 4) 1 [] 0 1
    let t := ((Session.start s).run (.bits 64) k []).conv
    let pop := Converter.silent k 1 5
    let r := t.pull k (fun _ => 0) (2 ^ 59 + 1) pop
    Converter.make k (.box .downTo44k1 4) 1 = .ok s ∧
      t.framesNeeded (.bits 64) (2 ^ 59 + 1) = 1 ∧ r.taken = 5 ∧
      ¬ r.Accounted (.bits 64) t (2 ^ 59 + 1) pop := by
  intro k s t pop r
  have hs : Converter.make k (.box .downTo44k1 4) 1 = .ok s := Converter.make_ok one_ne_zero
  have hneed : t.framesNeeded (.bits 64) (2 ^ 59 + 1) = 1 := by decide
  have hexact : t.framesNeeded .exact (2 ^ 59 + 1) = 1 + 2 ^ 59 * 160 / 147 := by decide
  have htaken : r.taken = 5 := by
    have h := (Session.described_start hs).taken_silent four_pos (fun _ => 0) (2 ^ 59 + 1) 5
    exact h.trans ((congrArg (min 5) hexact).trans (by decide))
  refine ⟨hs, hneed, htaken, fun h => ?_⟩
  have hle := h.taken_le
  rw [hneed, htaken] at hle
  exact absurd hle (by decide)

end RatioTap
