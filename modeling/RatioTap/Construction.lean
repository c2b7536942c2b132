import RatioTap.Prototype

/-!
# Construction

The constructor of the phase table as it runs: two vectors sized by products of words, a
scratch row, and three loops that index them unchecked.  Every allocation is refused above the
largest vector and may be refused below it; every access outside a vector is a failure of its
own, which no exception stands for.

As long as `L * T` is a word, the sizes are the products, and a construction that is not
refused builds the table of `PhaseTable.ofPrototype` (`construct_eq`).  From `2 ^ w` on the
products wrap.  Nothing checks that: where the wrapped sizes can be allocated, the normalization
of the prototype runs out of its vector (`construct_outOfRange`).
-/

namespace RatioTap

open FlatMemory CheckedLoop Polyphase

/-- The word size of `size_t`, and the sizes above which the two kinds of vectors are
refused. -/
structure Platform where
  sizeBits : ℕ
  /-- `std::vector<double>::max_size()`. -/
  maxDoubles : ℕ
  /-- `std::vector<coeff>::max_size()`. -/
  maxCoeffs : ℕ
deriving DecidableEq, Repr

/-- `size_t`. -/
def Platform.size (pl : Platform) : Word := .bits pl.sizeBits

/-- The answers of the allocator: to the table, the prototype and the scratch row. -/
structure Grants where
  table : Bool
  prototype : Bool
  row : Bool
deriving DecidableEq, Repr

/-- What `tap::dsp` supplies at construction: the filter designer, which fills the vector that
it is given, and the row quantizer, which fills the span of the row. -/
structure Dsp (F K : Type) where
  fill : Direction → Profile → List F → List F
  length_fill : ∀ D p h, (fill D p h).length = h.length
  quantizeRow : List F → List K
  length_quantizeRow : ∀ row, (quantizeRow row).length = row.length

/-- `std::vector<T> v(n)`. -/
def vectorOf {α : Type} (maxSize : ℕ) (granted : Bool) (n : ℕ) (x : α) :
    Except Failure (List α) :=
  if maxSize < n then .error .lengthError
  else if granted then .ok (List.replicate n x)
  else .error .badAlloc

/-- The computation ends with an exception. -/
def Refused {α : Type} (m : Except Failure α) : Prop := ∃ f, f ≠ .outOfRange ∧ m = .error f

namespace Refused

variable {α β : Type} {m : Except Failure α} {f : α → Except Failure β}

lemma bind (h : Refused m) : Refused (m >>= f) := by
  obtain ⟨e, he, rfl⟩ := h
  exact ⟨e, he, rfl⟩

lemma bind_of_ok {a : α} (hm : m = .ok a) (h : Refused (f a)) : Refused (m >>= f) := by
  subst hm
  exact h

end Refused

section VectorOf

variable {α : Type} {maxSize n : ℕ} {x : α}

lemma vectorOf_refused (h : maxSize < n) (granted : Bool) :
    Refused (vectorOf maxSize granted n x) := ⟨.lengthError, by decide, if_pos h⟩

lemma vectorOf_granted (h : n ≤ maxSize) :
    vectorOf maxSize true n x = .ok (List.replicate n x) := by
  rw [vectorOf, if_neg (Nat.not_lt.2 h), if_pos rfl]

/-- An allocation throws or gives what was asked for. -/
lemma vectorOf_cases (maxSize : ℕ) (granted : Bool) (n : ℕ) (x : α) :
    Refused (vectorOf maxSize granted n x) ∨
      vectorOf maxSize granted n x = .ok (List.replicate n x) := by
  unfold vectorOf
  split
  · exact .inl ⟨_, by decide, rfl⟩
  · cases granted with
    | false => exact .inl ⟨_, by decide, rfl⟩
    | true => exact .inr rfl

end VectorOf

variable {F K : Type}

/-- `design_prototype<D>(p)`. -/
def designPrototype [Zero F] [One F] [Add F] [Mul F] [Div F] (pl : Platform) (granted : Bool)
    (dsp : Dsp F K) (D : Direction) (p : Profile) : Except Failure (List F) :=
  if p.isBad D then .error (.invalidArgument "tap::ratio::design_prototype: bad profile")
  else do
    let h ← vectorOf pl.maxDoubles granted (pl.size.mul D.kPhases (p.taps D)) 0
    Prototype.normalize pl.size D (p.taps D) (dsp.fill D p h)

namespace PhaseTable

/-- The inner loop of the constructor, with its accesses checked. -/
def gatherBranchE (A : Word) (D : Direction) (taps : ℕ) (proto : List F) (ph : ℕ)
    (rowD : List F) : Except Failure (List F) :=
  forLtE taps
    (fun t rowD => do
      let x ← readAt .outOfRange proto (Prototype.branchIndex A D t ph)
      writeAt .outOfRange rowD (A.sub (A.sub taps 1) t) x) rowD

/-- Overwrite the span of `n` cells at `off`, where the vector has one. -/
def writeSpanE (xs : List K) (off n : ℕ) (ys : List K) : Except Failure (List K) :=
  if off + n ≤ xs.length then .ok (writeSpan xs off n ys) else .error .outOfRange

/-- The outer loop of the constructor, with its accesses checked. -/
def rowsE (A : Word) (D : Direction) (quantizeRow : List F → List K) (taps : ℕ)
    (proto : List F) (s : List F × List K) : Except Failure (List F × List K) :=
  forLtE (kStored D)
    (fun ph s => do
      let rowD ← gatherBranchE A D taps proto ph s.1
      let table ← writeSpanE s.2 (A.mul ph taps) taps (quantizeRow rowD)
      pure (rowD, table)) s

end PhaseTable

/-- What a construction leaves: the table, and the prototype it was made from. -/
structure Constructed (D : Direction) (F K : Type) where
  proto : List F
  table : PhaseTable D K

/-- The constructor of `basic_phase_table`. -/
def construct [Zero F] [One F] [Add F] [Mul F] [Div F] [Zero K] (pl : Platform) (g : Grants)
    (dsp : Dsp F K) (D : Direction) (p : Profile) : Except Failure (Constructed D F K) := do
  let mTaps := p.taps D
  let mTable ← vectorOf pl.maxCoeffs g.table (pl.size.mul (PhaseTable.kStored D) mTaps) 0
  let proto ← designPrototype pl g.prototype dsp D p
  let rowD ← vectorOf pl.maxDoubles g.row mTaps 0
  let s ← PhaseTable.rowsE pl.size D dsp.quantizeRow mTaps proto (rowD, mTable)
  pure ⟨proto, { mTaps := mTaps, mTable := s.2 }⟩

/-- Whatever the allocator answers, the construction is refused with an exception, or the
prototype has `L * T` elements and the table `ceil(L/2) * T`, and no access was out of
range. -/
def SoundConstruction [Zero F] [One F] [Add F] [Mul F] [Div F] [Zero K] (pl : Platform)
    (dsp : Dsp F K) (D : Direction) (p : Profile) : Prop :=
  ∀ g, match construct pl g dsp D p with
    | .ok r => r.proto.length = D.kPhases * p.taps D ∧
        r.table.mTable.length = PhaseTable.kStored D * p.taps D
    | .error f => f ≠ .outOfRange

variable {pl : Platform} {D : Direction} {p : Profile} {A : Word} {taps : ℕ}

/-! ### While the sizes fit -/

namespace PhaseTable

lemma kStored_le (D : Direction) : kStored D ≤ D.kPhases := by
  have := D.kPhases_pos
  rw [kStored]
  omega

section Rows

variable [Zero F] {proto rowD : List F} {ph : ℕ}

lemma gatherBranchE_eq (hA : A.Fits (D.kPhases * taps)) (hproto : proto.length = D.kPhases * taps)
    (hph : ph < D.kPhases) (hrow : rowD.length = taps) :
    gatherBranchE A D taps proto ph rowD = .ok (gatherBranch D taps proto ph rowD) := by
  refine (forLtE_eq_forLt (P := fun _ r => r.length = taps) hrow ?_).1
  rintro t ht r hr
  have htaps : A.Fits taps := hA.mono (Nat.le_mul_of_pos_left taps D.kPhases_pos)
  have hback : A.sub (A.sub taps 1) t = taps - 1 - t := by
    rw [Word.sub_eq htaps (by omega), Word.sub_eq (htaps.mono (Nat.sub_le _ _)) (by omega)]
  refine ⟨?_, by rw [List.length_set, hr]⟩
  rw [Prototype.branchIndex_eq hA ht hph, readAt_eq (hproto ▸ index_lt ht hph) 0, hback]
  exact writeAt_eq (by omega) _

/-- The loops of the constructor succeed, and fill the table that they allocated. -/
lemma rowsE_eq [Zero K] (dsp : Dsp F K) (hA : A.Fits (D.kPhases * taps))
    (hproto : proto.length = D.kPhases * taps) :
    rowsE A D dsp.quantizeRow taps proto
        (List.replicate taps 0, List.replicate (kStored D * taps) 0)
      = .ok (rows D dsp.quantizeRow taps proto) ∧
    (rows D dsp.quantizeRow taps proto).1.length = taps ∧
    (rows D dsp.quantizeRow taps proto).2.length = kStored D * taps := by
  refine forLtE_eq_forLt (P := fun _ (s : List F × List K) =>
    s.1.length = taps ∧ s.2.length = kStored D * taps) (by simp) ?_
  rintro ph hph s ⟨hrow, htable⟩
  have hphases := hph.trans_le (kStored_le D)
  have hroom : ph * taps + taps ≤ kStored D * taps := by
    rw [← Nat.succ_mul]
    exact Nat.mul_le_mul_right taps hph
  have hoff : A.mul ph taps = ph * taps :=
    Word.mul_eq (hA.mono (Nat.mul_le_mul_right taps hphases.le))
  have hlen : (gatherBranch D taps proto ph s.1).length = taps := by
    rw [gatherBranch_eq proto ph hrow, length_branchRow]
  have hquantized : (dsp.quantizeRow (gatherBranch D taps proto ph s.1)).length = taps := by
    rw [dsp.length_quantizeRow, hlen]
  refine ⟨?_, hlen, ?_⟩
  · rw [gatherBranchE_eq hA hproto hphases hrow, hoff]
    change (writeSpanE s.2 (ph * taps) taps _).bind _ = _
    rw [writeSpanE, if_pos (by omega)]
    rfl
  · rw [length_writeSpan hquantized (by omega), htable]

end Rows

end PhaseTable

section Construct

variable [Zero F] [One F] [Add F] [Mul F] [Div F]

/-- The prototype is refused, or it is the designed one, normalized. -/
lemma designPrototype_eq (dsp : Dsp F K) (hvalid : p.isBad D = false)
    (hfits : pl.size.Fits (D.kPhases * p.taps D)) (granted : Bool) :
    Refused (designPrototype pl granted dsp D p) ∨
      ∃ proto, designPrototype pl granted dsp D p = .ok proto ∧
        proto.length = D.kPhases * p.taps D := by
  rw [designPrototype, hvalid, Word.mul_eq hfits]
  rcases vectorOf_cases pl.maxDoubles granted (D.kPhases * p.taps D) (0 : F) with hrefused | hok
  · left
    exact hrefused.bind
  · right
    have hlen : (dsp.fill D p (List.replicate (D.kPhases * p.taps D) 0)).length
        = D.kPhases * p.taps D := by rw [dsp.length_fill, List.length_replicate]
    rw [hok]
    exact ⟨_, Prototype.normalize_eq hfits hlen, by rw [List.length_mapIdx, hlen]⟩

/-- As long as `L * T` is a word, a construction is refused with an exception, or it makes the
table of a prototype of `L * T` coefficients. -/
theorem construct_eq [Zero K] (dsp : Dsp F K) (hvalid : p.isBad D = false)
    (hfits : pl.size.Fits (D.kPhases * p.taps D)) (g : Grants) :
    Refused (construct pl g dsp D p) ∨
      ∃ proto, proto.length = D.kPhases * p.taps D ∧
        designPrototype pl g.prototype dsp D p = .ok proto ∧
        construct pl g dsp D p
          = .ok ⟨proto, PhaseTable.ofPrototype D dsp.quantizeRow (p.taps D) proto⟩ := by
  have hsize : pl.size.mul (PhaseTable.kStored D) (p.taps D) = PhaseTable.kStored D * p.taps D :=
    Word.mul_eq (hfits.mono (Nat.mul_le_mul_right _ (PhaseTable.kStored_le D)))
  rw [construct, hsize]
  -- the three allocations, in the order of the constructor
  rcases vectorOf_cases pl.maxCoeffs g.table (PhaseTable.kStored D * p.taps D) (0 : K) with
    hrefused | htable
  · exact .inl hrefused.bind
  rcases designPrototype_eq dsp hvalid hfits g.prototype with hrefused | ⟨proto, hproto, hlen⟩
  · exact .inl (.bind_of_ok htable hrefused.bind)
  rcases vectorOf_cases pl.maxDoubles g.row (p.taps D) (0 : F) with hrefused | hrow
  · exact .inl (.bind_of_ok htable (.bind_of_ok hproto hrefused.bind))
  refine .inr ⟨proto, hlen, hproto, ?_⟩
  rw [htable, hproto, hrow]
  change (PhaseTable.rowsE pl.size D dsp.quantizeRow (p.taps D) proto _).bind _ = _
  rw [(PhaseTable.rowsE_eq (A := pl.size) dsp hfits hlen).1]
  rfl

end Construct

/-! ### When the sizes wrap -/

section Wrapped

variable [Zero F] [One F] [Add F] [Mul F] [Div F] [Zero K]

/-- When the products wrap and the wrapped sizes are granted, the construction runs out of the
prototype. -/
theorem construct_outOfRange (dsp : Dsp F K) (hvalid : p.isBad D = false)
    (hwrap : 2 ^ pl.sizeBits ≤ D.kPhases * p.taps D)
    (htable : PhaseTable.kStored D * p.taps D % 2 ^ pl.sizeBits ≤ pl.maxCoeffs)
    (hproto : D.kPhases * p.taps D % 2 ^ pl.sizeBits ≤ pl.maxDoubles) :
    construct pl ⟨true, true, true⟩ dsp D p = .error .outOfRange := by
  let n := D.kPhases * p.taps D % 2 ^ pl.sizeBits
  have hn : n < 2 ^ pl.sizeBits := Nat.mod_lt _ (Nat.two_pow_pos _)
  have hlen : (dsp.fill D p (List.replicate n 0)).length = n := by
    rw [dsp.length_fill, List.length_replicate]
  -- the vector has fewer than `2 ^ w` cells, and the loops index up to the product itself
  have hdesign : designPrototype pl true dsp D p = .error .outOfRange := by
    have halloc : vectorOf pl.maxDoubles true (pl.size.mul D.kPhases (p.taps D)) (0 : F)
        = .ok (List.replicate n 0) := vectorOf_granted hproto
    rw [designPrototype, hvalid, halloc]
    exact Prototype.normalize_outOfRange (hlen.symm ▸ hn) (hlen.symm ▸ hn.trans_le hwrap)
  have halloc : vectorOf pl.maxCoeffs true
        (pl.size.mul (PhaseTable.kStored D) (p.taps D)) (0 : K)
      = .ok (List.replicate _ 0) := vectorOf_granted htable
  rw [construct, halloc, hdesign]
  rfl

/-- That is no sound construction. -/
lemma not_soundConstruction (dsp : Dsp F K) (hvalid : p.isBad D = false)
    (hwrap : 2 ^ pl.sizeBits ≤ D.kPhases * p.taps D)
    (htable : PhaseTable.kStored D * p.taps D % 2 ^ pl.sizeBits ≤ pl.maxCoeffs)
    (hproto : D.kPhases * p.taps D % 2 ^ pl.sizeBits ≤ pl.maxDoubles) :
    ¬ SoundConstruction pl dsp D p := by
  intro hsound
  -- an allocator that grants whatever is small enough
  have hgranted := hsound ⟨true, true, true⟩
  rw [construct_outOfRange dsp hvalid hwrap htable hproto] at hgranted
  exact hgranted rfl

/-- A table that is too large even when its size wraps is refused. -/
lemma construct_refused_of_table (dsp : Dsp F K)
    (htable : pl.maxCoeffs < PhaseTable.kStored D * p.taps D % 2 ^ pl.sizeBits) (g : Grants) :
    Refused (construct pl g dsp D p) := by
  have halloc : Refused (vectorOf pl.maxCoeffs g.table
      (pl.size.mul (PhaseTable.kStored D) (p.taps D)) (0 : K)) := vectorOf_refused htable g.table
  exact halloc.bind

/-- A prototype that is too large even when its size wraps is refused, if the table was not. -/
lemma construct_refused_of_prototype (dsp : Dsp F K) (hvalid : p.isBad D = false)
    (hproto : pl.maxDoubles < D.kPhases * p.taps D % 2 ^ pl.sizeBits) (g : Grants) :
    Refused (construct pl g dsp D p) := by
  have halloc : Refused (vectorOf pl.maxDoubles g.prototype
      (pl.size.mul D.kPhases (p.taps D)) (0 : F)) := vectorOf_refused hproto g.prototype
  have hdesign : Refused (designPrototype pl g.prototype dsp D p) := by
    rw [designPrototype, hvalid]
    exact halloc.bind
  rcases vectorOf_cases pl.maxCoeffs g.table
    (pl.size.mul (PhaseTable.kStored D) (p.taps D)) (0 : K) with hrefused | hok
  · exact hrefused.bind
  · exact .bind_of_ok hok hdesign.bind

lemma SoundConstruction.of_refused {dsp : Dsp F K}
    (h : ∀ g, Refused (construct pl g dsp D p)) :
    SoundConstruction pl dsp D p := by
  intro g
  obtain ⟨f, hf, hrefused⟩ := h g
  rw [hrefused]
  exact hf

lemma SoundConstruction.of_fits (dsp : Dsp F K) (hvalid : p.isBad D = false)
    (hfits : D.kPhases * p.taps D < 2 ^ pl.sizeBits) : SoundConstruction pl dsp D p := by
  intro g
  rcases construct_eq dsp hvalid hfits g with ⟨f, hf, hrefused⟩ | ⟨proto, hlen, -, hok⟩
  · rw [hrefused]
    exact hf
  · rw [hok]
    exact ⟨hlen, (PhaseTable.rowsE_eq (A := pl.size) dsp hfits hlen).2.2⟩

/-- The canonical profiles are far from the end of a word, in either direction. -/
theorem SoundConstruction.canonical (dsp : Dsp F K) (hbits : 16 ≤ pl.sizeBits) (D : Direction) :
    ∀ p ∈ Profile.canonical, SoundConstruction pl dsp D p := by
  intro p hp
  have hsmall : ∀ p ∈ Profile.canonical, D.kPhases * p.taps D < 2 ^ 16 := by
    cases D <;> decide
  have hfits := (hsmall p hp).trans_le (Nat.pow_le_pow_right two_pos hbits)
  exact .of_fits dsp (Profile.canonical_not_isBad D p hp) hfits

end Wrapped

/-- A profile that passes the check is constructed soundly exactly when `L * T` is a word, or
one of the two wrapped sizes is still larger than the largest vector. -/
theorem construction_sound_iff {F K : Type} [Zero F] [One F] [Add F] [Mul F] [Div F] [Zero K]
    {pl : Platform} (dsp : Dsp F K) {D : Direction} {p : Profile} (hvalid : p.isBad D = false) :
    SoundConstruction pl dsp D p ↔
      D.kPhases * p.taps D < 2 ^ pl.sizeBits ∨
        pl.maxCoeffs < PhaseTable.kStored D * p.taps D % 2 ^ pl.sizeBits ∨
        pl.maxDoubles < D.kPhases * p.taps D % 2 ^ pl.sizeBits := by
  constructor
  · intro hsound
    by_contra hwrap
    simp only [not_or, not_lt] at hwrap
    obtain ⟨hphases, htable, hproto⟩ := hwrap
    exact not_soundConstruction dsp hvalid hphases htable hproto hsound
  · rintro (hfits | htable | hproto)
    · exact SoundConstruction.of_fits dsp hvalid hfits
    · exact SoundConstruction.of_refused (construct_refused_of_table dsp htable)
    · exact SoundConstruction.of_refused (construct_refused_of_prototype dsp hvalid hproto)

/-- A designer of box filters, and rows that are kept as they are. -/
def Dsp.box : Dsp ℚ ℚ where
  fill _ _ h := h.map fun _ => 1
  length_fill _ _ _ := List.length_map _
  quantizeRow row := row
  length_quantizeRow _ := rfl

/-- The defaults, with words of 32 bits. -/
theorem construction_sound_economy :
    SoundConstruction ⟨32, 2 ^ 28 - 1, 2 ^ 29 - 1⟩ Dsp.box .upTo48k Profile.economy :=
  (construction_sound_iff Dsp.box (by decide)).2 (.inl (by decide))

/-- A tap count of which both products wrap, to 128 and to 64, with words of 32 bits and with
words of 64 bits. -/
theorem construction_unsound :
    let short : Profile := { tapsUpTo48k := 53687092 }
    let long : Profile := { tapsUpTo48k := 230584300921369396 }
    (short.isBad .upTo48k = false ∧
      ¬ SoundConstruction ⟨32, 2 ^ 28 - 1, 2 ^ 29 - 1⟩ Dsp.box .upTo48k short) ∧
    (long.isBad .upTo48k = false ∧
      ¬ SoundConstruction ⟨64, 2 ^ 60 - 1, 2 ^ 61 - 1⟩ Dsp.box .upTo48k long) := by
  intro short long
  refine ⟨⟨by decide, ?_⟩, by decide, ?_⟩
  · exact not_soundConstruction Dsp.box (by decide) (by decide) (by decide) (by decide)
  · exact not_soundConstruction Dsp.box (by decide) (by decide) (by decide) (by decide)

end RatioTap
