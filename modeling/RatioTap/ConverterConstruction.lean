import RatioTap.Construction
import RatioTap.Converter
import RatioTap.Lib.Decided

/-!
# Construction of a converter

The constructor of `basic_converter` as it runs: the phase table, a vector of delay lines that
are still empty, the staging buffer of `pull`, the check of the channel count, and only then
the delay lines themselves, one allocation each.  The sizes are words here as well.

What the rest takes for granted is proved of it (`converter_construction`): where `L * T` is a
word, it gives the converter of `Converter.make` on the designed table, or throws, and never
indexes out of a vector.  The size of the staging buffer is a product that nothing checks; it
cannot wrap because the delay lines, which are allocated before it, are larger than the samples
of a pop.
-/

namespace RatioTap

open FlatMemory CheckedLoop

/-- The platform of the converter: also the sizes above which its own vectors are refused. -/
structure ConverterPlatform extends Platform where
  /-- `std::vector<std::vector<S>>::max_size()`. -/
  maxHists : ℕ
  /-- `std::vector<S>::max_size()`. -/
  maxSamples : ℕ
deriving DecidableEq, Repr

/-- A size has 16 bits or more, and a vector object is so large that as many samples as one
pop can deliver to each of `max_size()` of them are still a size. -/
structure ConverterPlatform.Sane (pl : ConverterPlatform) : Prop where
  sizeBits : 16 ≤ pl.sizeBits
  maxHists : kPopChunk * pl.maxHists < 2 ^ pl.sizeBits

/-- The answers of the allocator: to the table, and then to the vector of delay lines, the
staging buffer and each delay line. -/
structure ConverterGrants extends Grants where
  hists : Bool
  scratch : Bool
  history : ℕ → Bool

/-- What a construction leaves: the converter, and the staging buffer `m_scratch`. -/
structure ConstructedConverter (D : Direction) (S K : Type) where
  conv : Converter D S K
  mScratch : List S

namespace Converter

variable {F S K : Type}

/-- `h.assign(m_hist_cap, silence)` for the delay line `c`. -/
def assignHist (maxSamples : ℕ) (granted : ℕ → Bool) (histCap : ℕ) (silence : S) (c : ℕ)
    (hist : List (List S)) : Except Failure (List (List S)) := do
  let h ← vectorOf maxSamples (granted c) histCap silence
  writeAt .outOfRange hist c h

/-- The loop over the delay lines. -/
def assignHists (maxSamples : ℕ) (granted : ℕ → Bool) (histCap : ℕ) (silence : S)
    (hist : List (List S)) : Except Failure (List (List S)) :=
  forLtE hist.length (assignHist maxSamples granted histCap silence) hist

/-- The constructor. -/
def construct [Zero F] [One F] [Add F] [Mul F] [Div F] [Zero K] [Zero S]
    (pl : ConverterPlatform) (g : ConverterGrants) (k : Kernels S K) (dsp : Dsp F K)
    (D : Direction) (p : Profile) (channels : ℕ) :
    Except Failure (ConstructedConverter D S K) := do
  let mTable ← RatioTap.construct pl.toPlatform g.toGrants dsp D p
  let mHistCap := pl.size.add mTable.table.mTaps kHistSlack
  let mHist ← vectorOf pl.maxHists g.hists channels []
  let mScratch ← vectorOf pl.maxSamples g.scratch (pl.size.mul kPopChunk channels) 0
  if channels = 0 then
    .error (.invalidArgument "tap::ratio::basic_converter: channels == 0")
  else do
    let mHist ← assignHists pl.maxSamples g.history mHistCap k.silence mHist
    pure
      { conv := reset k
          { mTable := mTable.table
            mChannels := channels
            mHistCap := mHistCap
            mHist := mHist
            mEnd := 0
            mPos := 0
            mPending := 1 }
        mScratch := mScratch }

end Converter

/-- The allocations of a construction are granted, and nothing it checks is wrong. -/
structure Granted (pl : ConverterPlatform) (g : ConverterGrants) (D : Direction) (p : Profile)
    (channels : ℕ) : Prop where
  table : PhaseTable.kStored D * p.taps D ≤ pl.maxCoeffs ∧ g.table = true
  profile : p.isBad D = false
  prototype : D.kPhases * p.taps D ≤ pl.maxDoubles ∧ g.prototype = true
  row : p.taps D ≤ pl.maxDoubles ∧ g.row = true
  hists : channels ≤ pl.maxHists ∧ g.hists = true
  scratch : kPopChunk * channels ≤ pl.maxSamples ∧ g.scratch = true
  channels_ne : channels ≠ 0
  history : p.taps D + kHistSlack ≤ pl.maxSamples ∧ ∀ c < channels, g.history c = true

/-- The designed prototype, normalized. -/
def Dsp.prototype {F K : Type} [Zero F] [One F] [Add F] [Mul F] [Div F] (dsp : Dsp F K)
    (D : Direction) (p : Profile) : List F :=
  let h := dsp.fill D p (List.replicate (D.kPhases * p.taps D) 0)
  h.mapIdx fun i x => x * Prototype.branchGain D (p.taps D) h (i % D.kPhases)

/-- The table of the designed prototype. -/
def Dsp.table {F K : Type} [Zero F] [One F] [Add F] [Mul F] [Div F] [Zero K] (dsp : Dsp F K)
    (D : Direction) (p : Profile) : PhaseTable D K :=
  .ofPrototype D dsp.quantizeRow (p.taps D) (dsp.prototype D p)

/-- The exceptions of a construction: an allocation that is refused, and an argument that is
wrong.  An access out of range is none of them. -/
inductive Thrown (D : Direction) (p : Profile) (channels : ℕ) : Failure → Prop
  | lengthError : Thrown D p channels .lengthError
  | badAlloc : Thrown D p channels .badAlloc
  | badProfile (h : p.isBad D = true) :
      Thrown D p channels (.invalidArgument "tap::ratio::design_prototype: bad profile")
  | noChannels (h : p.isBad D = false) (h0 : channels = 0) :
      Thrown D p channels (.invalidArgument "tap::ratio::basic_converter: channels == 0")

variable {F S K : Type} {pl : ConverterPlatform} {g : ConverterGrants} {k : Kernels S K}
  {D : Direction} {p : Profile} {C : ℕ}

lemma vectorOf_decided {α : Type} (maxSize : ℕ) (granted : Bool) (n : ℕ) (x : α) :
    Decided (Thrown D p C) (vectorOf maxSize granted n x) (n ≤ maxSize ∧ granted = true)
      (List.replicate n x) where
  ok h := by
    obtain ⟨hle, rfl⟩ := h
    exact vectorOf_granted hle
  throws h := by
    unfold vectorOf
    split
    · exact ⟨_, .lengthError, rfl⟩
    · next hle =>
      cases granted with
      | false => exact ⟨_, .badAlloc, rfl⟩
      | true => exact absurd ⟨Nat.not_lt.1 hle, rfl⟩ h

/-! ### The table -/

section Table

variable [Zero F] [One F] [Add F] [Mul F] [Div F] (dsp : Dsp F K)

@[simp] lemma Dsp.length_prototype (D : Direction) (p : Profile) :
    (dsp.prototype D p).length = D.kPhases * p.taps D := by
  rw [Dsp.prototype, List.length_mapIdx, dsp.length_fill, List.length_replicate]

lemma designPrototype_decided (hfits : pl.size.Fits (D.kPhases * p.taps D)) (granted : Bool) :
    Decided (Thrown D p C) (designPrototype pl.toPlatform granted dsp D p)
      (p.isBad D = false ∧ D.kPhases * p.taps D ≤ pl.maxDoubles ∧ granted = true)
      (dsp.prototype D p) := by
  have hlen : (dsp.fill D p (List.replicate (D.kPhases * p.taps D) 0)).length
      = D.kPhases * p.taps D := by rw [dsp.length_fill, List.length_replicate]
  have hrest : Decided (Thrown D p C)
      (vectorOf pl.maxDoubles granted (D.kPhases * p.taps D) (0 : F) >>= fun h =>
        Prototype.normalize pl.size D (p.taps D) (dsp.fill D p h))
      ((D.kPhases * p.taps D ≤ pl.maxDoubles ∧ granted = true) ∧ True) (dsp.prototype D p) :=
    (vectorOf_decided _ _ _ _).bind fun _ => .of_eq (Prototype.normalize_eq hfits hlen)
  rw [designPrototype, Word.mul_eq hfits]
  exact (Decided.check Thrown.badProfile fun _ => hrest).congr (by simp)

variable [Zero K]

lemma construct_decided (hfits : pl.size.Fits (D.kPhases * p.taps D)) (g : Grants) :
    Decided (Thrown D p C) (construct pl.toPlatform g dsp D p)
      ((PhaseTable.kStored D * p.taps D ≤ pl.maxCoeffs ∧ g.table = true) ∧
        (p.isBad D = false ∧ D.kPhases * p.taps D ≤ pl.maxDoubles ∧ g.prototype = true) ∧
        p.taps D ≤ pl.maxDoubles ∧ g.row = true)
      ⟨dsp.prototype D p, dsp.table D p⟩ := by
  have hsize : pl.size.mul (PhaseTable.kStored D) (p.taps D) = PhaseTable.kStored D * p.taps D :=
    Word.mul_eq (hfits.mono (Nat.mul_le_mul_right _ (PhaseTable.kStored_le D)))
  have hrows := (PhaseTable.rowsE_eq dsp hfits (dsp.length_prototype D p)).1
  have hlast : Decided (Thrown D p C)
      (do
        let s ← PhaseTable.rowsE pl.size D dsp.quantizeRow (p.taps D) (dsp.prototype D p)
          (List.replicate (p.taps D) 0, List.replicate (PhaseTable.kStored D * p.taps D) 0)
        pure (⟨dsp.prototype D p, { mTaps := p.taps D, mTable := s.2 }⟩ : Constructed D F K))
      True ⟨dsp.prototype D p, dsp.table D p⟩ := by
    refine .of_eq ?_
    rw [hrows]
    rfl
  rw [construct, hsize]
  exact Decided.congr ((vectorOf_decided _ _ _ _).bind fun _ =>
    (designPrototype_decided dsp hfits _).bind fun _ =>
      (vectorOf_decided _ _ _ _).bind fun _ => hlast) (by simp)

end Table

/-! ### The converter -/

section Hists

variable {maxSamples : ℕ} {granted : ℕ → Bool} {histCap : ℕ} {silence : S}

/-- The delay lines when the first `c` of them are assigned. -/
def assignedHists (histCap : ℕ) (silence : S) (C c : ℕ) : List (List S) :=
  List.replicate c (List.replicate histCap silence) ++ List.replicate (C - c) []

lemma set_assignedHists {c : ℕ} (hc : c < C) :
    (assignedHists histCap silence C c).set c (List.replicate histCap silence)
      = assignedHists histCap silence C (c + 1) := by
  obtain ⟨r, rfl⟩ := Nat.exists_eq_add_of_lt hc
  rw [assignedHists, assignedHists, List.set_append_right _ _ (by simp), List.length_replicate,
    Nat.sub_self, show c + r + 1 - c = r + 1 by omega, show c + r + 1 - (c + 1) = r by omega,
    List.replicate_succ, List.set_cons_zero, List.replicate_succ', List.append_assoc,
    List.singleton_append]

lemma assignHist_decided {c : ℕ} (hc : c < C) :
    Decided (Thrown D p C)
      (Converter.assignHist maxSamples granted histCap silence c
        (assignedHists histCap silence C c))
      (histCap ≤ maxSamples ∧ granted c = true) (assignedHists histCap silence C (c + 1)) := by
  have hlen : c < (assignedHists histCap silence C c).length := by
    rw [assignedHists, List.length_append, List.length_replicate, List.length_replicate]
    omega
  refine Decided.congr ((vectorOf_decided _ _ _ _).bind fun _ => .of_eq ?_) (iff_of_eq (and_true _))
  rw [writeAt_eq hlen, set_assignedHists hc]

/-- The delay lines are assigned where every one is granted. -/
lemma assignHists_decided (maxSamples : ℕ) (granted : ℕ → Bool) (histCap : ℕ) (silence : S)
    (C : ℕ) :
    Decided (Thrown D p C)
      (Converter.assignHists maxSamples granted histCap silence (List.replicate C []))
      (∀ c < C, histCap ≤ maxSamples ∧ granted c = true)
      (List.replicate C (List.replicate histCap silence)) := by
  have hloop : Decided (Thrown D p C)
      (forLtE C (Converter.assignHist maxSamples granted histCap silence)
        (assignedHists histCap silence C 0))
      (∀ c < C, histCap ≤ maxSamples ∧ granted c = true) (assignedHists histCap silence C C) :=
    .forLtE fun c hc => assignHist_decided hc
  have hzero : assignedHists histCap silence C 0 = List.replicate C [] := by simp [assignedHists]
  have hfull : assignedHists histCap silence C C
      = List.replicate C (List.replicate histCap silence) := by simp [assignedHists]
  rw [hzero, hfull] at hloop
  rw [Converter.assignHists, List.length_replicate]
  exact hloop

/-- The end of the constructor: the delay lines are assigned, and the converter is reset. -/
lemma assign_decided {tb : PhaseTable D K} (hC : C ≠ 0) (scratch : List S) :
    Decided (Thrown D p C)
      ((Converter.assignHists pl.maxSamples g.history (tb.mTaps + kHistSlack) k.silence
          (List.replicate C [])).bind fun mHist =>
        .ok (⟨Converter.reset k
          { mTable := tb, mChannels := C, mHistCap := tb.mTaps + kHistSlack, mHist := mHist,
            mEnd := 0, mPos := 0, mPending := 1 }, scratch⟩ : ConstructedConverter D S K))
      (∀ c < C, tb.mTaps + kHistSlack ≤ pl.maxSamples ∧ g.history c = true)
      ⟨Converter.after k tb C [] 0 1, scratch⟩ := by
  have hmake : Converter.make k tb C = _ := Converter.make_ok hC
  rw [Converter.make, if_neg hC] at hmake
  refine Decided.congr ((assignHists_decided _ _ _ _ _).bind fun _ => .of_eq ?_)
    (iff_of_eq (and_true _))
  rw [Except.ok.inj hmake]

end Hists

section Construct

variable [Zero F] [One F] [Add F] [Mul F] [Div F] [Zero K] [Zero S] (dsp : Dsp F K)

/-- The capacity of a delay line is the sum that the constructor stores. -/
lemma histCap_eq (hpl : pl.Sane) (hfits : D.kPhases * p.taps D < 2 ^ pl.sizeBits) :
    pl.size.add (p.taps D) kHistSlack = p.taps D + kHistSlack := by
  have hphases : 147 ≤ D.kPhases := by cases D <;> decide
  have hbits : 2 ^ 16 ≤ 2 ^ pl.sizeBits := Nat.pow_le_pow_right two_pos hpl.sizeBits
  have hmul := Nat.mul_le_mul_right (p.taps D) hphases
  refine Word.add_eq ?_
  change p.taps D + 64 < 2 ^ pl.sizeBits
  omega

/-- The size of the staging buffer is the product, unless the delay lines were refused. -/
lemma scratchSize_eq (hpl : pl.Sane) (hC : C ≤ pl.maxHists) :
    pl.size.mul kPopChunk C = kPopChunk * C :=
  Word.mul_eq (lt_of_le_of_lt (Nat.mul_le_mul_left _ hC) hpl.maxHists)

/-- The constructor succeeds exactly where everything is granted, with the fresh converter of
the designed table and sixteen frames of staging. -/
lemma converterConstruct_decided (hpl : pl.Sane)
    (hfits : D.kPhases * p.taps D < 2 ^ pl.sizeBits) (g : ConverterGrants) :
    Decided (Thrown D p C) (Converter.construct pl g k dsp D p C) (Granted pl g D p C)
      ⟨Converter.after k (dsp.table D p) C [] 0 1, List.replicate (kPopChunk * C) (0 : S)⟩ := by
  have hcap : pl.size.add (dsp.table D p).mTaps kHistSlack = (dsp.table D p).mTaps + kHistSlack :=
    histCap_eq hpl hfits
  have hlast (hprofile : p.isBad D = false) (hhists : C ≤ pl.maxHists) :
      Decided (Thrown D p C)
        ((vectorOf pl.maxSamples g.scratch (pl.size.mul kPopChunk C) (0 : S)).bind fun scratch =>
          if C = 0 then
            .error (.invalidArgument "tap::ratio::basic_converter: channels == 0")
          else
            (Converter.assignHists pl.maxSamples g.history
                (pl.size.add (dsp.table D p).mTaps kHistSlack) k.silence
                (List.replicate C [])).bind fun mHist =>
              .ok (⟨Converter.reset k
                { mTable := dsp.table D p, mChannels := C,
                  mHistCap := pl.size.add (dsp.table D p).mTaps kHistSlack, mHist := mHist,
                  mEnd := 0, mPos := 0, mPending := 1 }, scratch⟩ : ConstructedConverter D S K))
        ((kPopChunk * C ≤ pl.maxSamples ∧ g.scratch = true) ∧ C ≠ 0 ∧
          ∀ c < C, p.taps D + kHistSlack ≤ pl.maxSamples ∧ g.history c = true)
        ⟨Converter.after k (dsp.table D p) C [] 0 1,
          List.replicate (kPopChunk * C) (0 : S)⟩ := by
    rw [scratchSize_eq hpl hhists, hcap]
    exact (vectorOf_decided _ _ _ _).bind fun _ =>
      Decided.check (.noChannels hprofile) fun hC => assign_decided hC _
  refine Decided.congr ((construct_decided dsp hfits _).bind fun htable =>
    (vectorOf_decided pl.maxHists g.hists C []).bind fun hhists =>
      hlast htable.2.1.1 hhists.1) ?_
  constructor
  · rintro ⟨⟨htable, ⟨hprofile, hproto⟩, hrow⟩, hhists, hscratch, hC, hhist⟩
    exact ⟨htable, hprofile, hproto, hrow, hhists, hscratch, hC,
      (hhist 0 (Nat.pos_of_ne_zero hC)).1, fun c hc => (hhist c hc).2⟩
  · rintro ⟨htable, hprofile, hproto, hrow, hhists, hscratch, hC, hcap, hhist⟩
    exact ⟨⟨htable, ⟨hprofile, hproto⟩, hrow⟩, hhists, hscratch, hC,
      fun c hc => ⟨hcap, hhist c hc⟩⟩

end Construct

/-- The constructor, whatever the allocator answers and however many channels are asked for.
While `L * T` is a size it succeeds exactly where the profile is accepted, there is a channel
and every allocation is granted, and then it leaves the converter of `Converter.make` on the
table of the normalized prototype, and staging for exactly one pop.  It fails only with an
exception, and where the memory suffices up to a check, a wrong argument is named by it. -/
theorem converter_construction {F S K : Type} [Zero F] [One F] [Add F] [Mul F] [Div F] [Zero K]
    [Zero S] {pl : ConverterPlatform} (hpl : pl.Sane) (k : Kernels S K) (dsp : Dsp F K)
    {D : Direction} {p : Profile} (hfits : D.kPhases * p.taps D < 2 ^ pl.sizeBits)
    (g : ConverterGrants) (C : ℕ) :
    (∀ r, Converter.construct pl g k dsp D p C = .ok r ↔
      Granted pl g D p C ∧ Converter.make k (dsp.table D p) C = .ok r.conv ∧
        r.mScratch = List.replicate (kPopChunk * C) 0) ∧
    (∀ f, Converter.construct pl g k dsp D p C = .error f → Thrown D p C f) ∧
    (PhaseTable.kStored D * p.taps D ≤ pl.maxCoeffs → g.table = true → p.isBad D = true →
      Converter.construct pl g k dsp D p C
        = .error (.invalidArgument "tap::ratio::design_prototype: bad profile")) ∧
    (Granted pl g D p 1 → Converter.construct pl g k dsp D p 0
      = .error (.invalidArgument "tap::ratio::basic_converter: channels == 0")) := by
  have h := converterConstruct_decided (C := C) (k := k) dsp hpl hfits g
  refine ⟨?_, ?_, ?_, ?_⟩
  · rintro ⟨conv, scratch⟩
    rw [h.eq_ok_iff, ConstructedConverter.mk.injEq]
    refine and_congr_right fun hg => ?_
    rw [Converter.make_ok hg.channels_ne, Except.ok.injEq]
    exact and_congr_right fun _ => eq_comm
  · intro f hf
    exact (h.exc_of_error hf).1
  · intro htable hgrant hbad
    have hsize : pl.size.mul (PhaseTable.kStored D) (p.taps D)
        = PhaseTable.kStored D * p.taps D :=
      Word.mul_eq (Word.Fits.mono hfits (Nat.mul_le_mul_right _ (PhaseTable.kStored_le D)))
    rw [Converter.construct, construct, hsize, hgrant, vectorOf_granted htable, designPrototype,
      if_pos hbad]
    rfl
  · intro hg
    have htable := (construct_decided (C := C) dsp hfits g.toGrants).ok
      ⟨hg.table, ⟨hg.profile, hg.prototype⟩, hg.row⟩
    have hscratch : vectorOf pl.maxSamples g.scratch (pl.size.mul kPopChunk 0) (0 : S)
        = .ok [] := by
      rw [scratchSize_eq hpl (Nat.zero_le _), hg.scratch.2, Nat.mul_zero,
        vectorOf_granted (Nat.zero_le _)]
      rfl
    rw [Converter.construct, htable, hscratch, hg.hists.2, vectorOf_granted (Nat.zero_le _)]
    rfl

/-- The economy profile on a 64-bit platform, with two channels and with none. -/
theorem converter_construction_economy :
    let pl : ConverterPlatform := ⟨⟨64, 2 ^ 60 - 1, 2 ^ 61 - 1⟩, (2 ^ 63 - 1) / 24, 2 ^ 61 - 1⟩
    let g : ConverterGrants := ⟨⟨true, true, true⟩, true, true, fun _ => true⟩
    (∃ r, Converter.construct pl g (.exact ℚ) Dsp.box .upTo48k .economy 2 = .ok r) ∧
      Converter.construct pl g (.exact ℚ) Dsp.box .upTo48k .economy 0
        = .error (.invalidArgument "tap::ratio::basic_converter: channels == 0") := by
  intro pl g
  have hpl : pl.Sane := ⟨by decide, by decide⟩
  have hgranted (C : ℕ) (hpos : C ≠ 0) (hC : C ≤ 2) : Granted pl g .upTo48k .economy C :=
    { table := by decide
      profile := by decide
      prototype := by decide
      row := by decide
      hists := ⟨hC.trans (by decide), rfl⟩
      scratch := ⟨(Nat.mul_le_mul_left kPopChunk hC).trans (by decide), rfl⟩
      channels_ne := hpos
      history := ⟨by decide, fun _ _ => rfl⟩ }
  have hfits : Direction.upTo48k.kPhases * Profile.economy.taps .upTo48k < 2 ^ pl.sizeBits := by
    decide
  have hok := (converter_construction hpl (.exact ℚ) Dsp.box hfits g 2).1
    ⟨Converter.after (.exact ℚ) (Dsp.box.table .upTo48k .economy) 2 [] 0 1,
      List.replicate (kPopChunk * 2) 0⟩
  exact ⟨⟨_, hok.2 ⟨hgranted 2 two_ne_zero le_rfl, Converter.make_ok two_ne_zero, rfl⟩⟩,
    (converter_construction hpl (.exact ℚ) Dsp.box hfits g 0).2.2.2
      (hgranted 1 one_ne_zero one_le_two)⟩

end RatioTap
