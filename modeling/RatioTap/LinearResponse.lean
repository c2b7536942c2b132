import RatioTap.TableResponse

/-!
# The response of a converter

What the resampling chain has as an operator, a converter has over every run.  Sums and
multiples of streams come out as sums and multiples (`superposition`), and the coefficients of
the table can be read off what comes out, so that no other table behaves alike
(`table_observable`).
-/

namespace RatioTap

open Upfirdn Converter

variable {R : Type} [CommRing R] {D : Direction} {A : Word} {tb tb' : PhaseTable D R} {n : ℕ}

/-- The two factors have nothing in common. -/
lemma Direction.coprime (D : Direction) : Nat.Coprime D.kPhases D.kDecimation := by
  cases D <;> decide

/-- A moving sum has linear phase. -/
lemma linearPhase_replicate {F : Type} [Zero F] (n : ℕ) (v : F) :
    LinearPhase n (List.replicate n v) := by
  intro i hi
  rw [List.getD_replicate _ hi, List.getD_replicate _ (by omega)]

/-- Superposition.  If every frame of one stream is a combination of the frames of two others,
then so is every output, on whichever channels the streams are, in whichever blocks, pulls and
flushes they went in, and however far each converter has come. -/
theorem superposition (htb : tb.Complete) (hT : 0 < tb.mTaps)
    (d d₁ d₂ : Drive A (.exact R) tb) {c c₁ c₂ : ℕ} (hc : c < d.channels)
    (hc₁ : c₁ < d₁.channels) (hc₂ : c₂ < d₂.channels) (a b : R)
    (hfed : ∀ j, j < d.fed.length → j < d₁.fed.length → j < d₂.fed.length →
      d.fedAt c j = a * d₁.fedAt c₁ j + b * d₂.fedAt c₂ j) :
    ∀ n, n < d.outs.length → n < d₁.outs.length → n < d₂.outs.length →
      d.outAt c n = a * d₁.outAt c₁ n + b * d₂.outAt c₂ n := by
  intro n hn hn₁ hn₂
  have hunder : ∀ j ≤ n * D.kDecimation / D.kPhases,
      d.fedAt c j = (a • d₁.fedAt c₁ + b • d₂.fedAt c₂) j := by
    intro j hj
    exact hfed j (hj.trans_lt (d.tick_lt hT hn)) (hj.trans_lt (d₁.tick_lt hT hn₁))
      (hj.trans_lt (d₂.tick_lt hT hn₂))
  let chained := chain D tb.mTaps tb.response
  calc d.outAt c n = chained (d.fedAt c) n := d.outAt_eq_chain htb hT hc hn
    _ = chained (a • d₁.fedAt c₁ + b • d₂.fedAt c₂) n := resample_congr hunder
    _ = a * chained (d₁.fedAt c₁) n + b * chained (d₂.fedAt c₂) n := by
        simp only [chained, chain]
        rw [resample_add, resample_smul, resample_smul]
        rfl
    _ = a * d₁.outAt c₁ n + b * d₂.outAt c₂ n := by
        rw [d₁.outAt_eq_chain htb hT hc₁ hn₁, d₂.outAt_eq_chain htb hT hc₂ hn₂]

/-- A mono block, as the right channel of a stereo block less another mono block. -/
theorem superposition_box :
    let D : Direction := .upTo48k
    let tb : PhaseTable D ℤ := .ofPrototype D id 4 (List.replicate (D.kPhases * 4) (1 : ℤ))
    let d : Drive (.bits 64) (.exact ℤ) tb :=
      ⟨1, _, make_ok one_ne_zero, [.process (fun i => 4 * i * i + 3 * i + 1) 3 fun _ => 0], by
        simp [Call.Admissible, Covers]⟩
    let d₁ : Drive (.bits 64) (.exact ℤ) tb :=
      ⟨2, _, make_ok two_ne_zero, [.process (fun i => i * i) 3 fun _ => 0], by
        simp [Call.Admissible, Covers]⟩
    let d₂ : Drive (.bits 64) (.exact ℤ) tb :=
      ⟨1, _, make_ok one_ne_zero, [.process (fun i => i) 3 fun _ => 0], by
        simp [Call.Admissible, Covers]⟩
    ∀ n, n < d.outs.length → n < d₁.outs.length → n < d₂.outs.length →
      d.outAt 0 n = 1 * d₁.outAt 1 n + -1 * d₂.outAt 0 n := by
  intro D tb d d₁ d₂
  have htb : tb.Complete := PhaseTable.complete_ofPrototype (fun _ => rfl) 4 _
  refine superposition htb four_pos d d₁ d₂ one_pos one_lt_two one_pos 1 (-1) ?_
  rintro j hj - -
  have hj : j < 3 := hj
  interval_cases j <;> rfl

/-! ### Reading the coefficients -/

/-- A mono stream of `x` frames that is a unit sample at `j`. -/
def unitDrive (hA : Covers A 1) (tb : PhaseTable D R) (j x : ℕ) : Drive A (.exact R) tb :=
  .ofFrames hA one_ne_zero (fun i _ => impulse j i) x (fun _ => 0) _ _

lemma fedAt_unitDrive (hA : Covers A 1) (hT : 0 < tb.mTaps) {j x i : ℕ} (hi : i < x) :
    (unitDrive hA tb j x).fedAt 0 i = impulse j i :=
  Drive.fedAt_ofFrames _ _ _ _ _ hT one_pos hi

/-- The response to a unit sample. -/
lemma outAt_unitDrive (hA : Covers A 1) (htb : tb.Complete) (hT : 0 < tb.mTaps) {j x : ℕ}
    (hn : D.tick n < x) :
    (unitDrive hA tb j x).outAt 0 n = chain D tb.mTaps tb.response (impulse j) n := by
  have hcount : (unitDrive hA tb j x).outs.length = D.due x :=
    Drive.length_outs_ofFrames _ _ _ _ _ hT
  have hn' : n < (unitDrive hA tb j x).outs.length := hcount ▸ D.lt_due_iff.2 hn
  rw [Drive.outAt_eq_chain _ htb hT one_pos hn']
  exact resample_congr fun i hi => fedAt_unitDrive hA hT (hi.trans_lt hn)

/-- The coefficients are observable: converters on two tables of as many taps emit the same on
every run exactly when the tables have the same logical coefficients. -/
theorem table_observable (hA : Covers A 1) (htb : tb.Complete) (htb' : tb'.Complete)
    (hT : 0 < tb.mTaps) (htaps : tb'.mTaps = tb.mTaps) :
    (∀ (C : ℕ) (s s' : Converter D R R) (calls : List (Call R)),
      Converter.make (.exact R) tb C = .ok s → Converter.make (.exact R) tb' C = .ok s' →
      (∀ call ∈ calls, call.Admissible A) →
      ((Session.start s).run A (.exact R) calls).outs
        = ((Session.start s').run A (.exact R) calls).outs)
      ↔ ∀ ph < D.kPhases, ∀ t < tb.mTaps, tb.at ph t = tb'.at ph t := by
  have hT' : 0 < tb'.mTaps := htaps ▸ hT
  constructor
  · intro hsame ph hph t ht
    have hunit : ∀ j, chain D tb.mTaps tb.response (impulse j)
        = chain D tb'.mTaps tb'.response (impulse j) := by
      intro j
      ext n
      let d := unitDrive hA tb j (D.tick n + 1)
      let d' := unitDrive hA tb' j (D.tick n + 1)
      have houts : d.outs = d'.outs := hsame 1 d.conv d'.conv d.calls d.made d'.made d.admissible
      rw [← outAt_unitDrive hA htb hT (Nat.lt_succ_self _),
        ← outAt_unitDrive hA htb' hT' (Nat.lt_succ_self _)]
      exact congrArg (fun outs => (channel (.exact R) 0 outs).getD n 0) houts
    have hread : ∀ i < D.kPhases * tb.mTaps, signal tb.response i = signal tb'.response i :=
      resample_injective D.kPhases_pos D.kDecimation_pos D.coprime fun j _ =>
        (hunit j).trans (by rw [chain, htaps])
    have hin : tb.mTaps - 1 - t < tb.mTaps := by omega
    have hcoeff : tb.response.getD _ 0 = tb'.response.getD _ 0 :=
      hread _ (Polyphase.index_lt hin hph)
    rw [htb.at_eq_some ht hph, htb'.at_eq_some (htaps.symm ▸ ht) hph, htaps, hcoeff]
  · intro hat C s s' calls hs hs' _
    obtain rfl := htb.eq_of_at htb' htaps hat
    rw [hs, Except.ok.injEq] at hs'
    rw [hs']

/-- Two moving sums of different gain. -/
theorem table_observable_box :
    let D : Direction := .downTo44k1
    let tb : PhaseTable D ℤ := .box D 4
    let tb' : PhaseTable D ℤ := .ofPrototype D id 4 (List.replicate (D.kPhases * 4) 2)
    (∀ (C : ℕ) (s s' : Converter D ℤ ℤ) (calls : List (Call ℤ)),
      Converter.make (.exact ℤ) tb C = .ok s → Converter.make (.exact ℤ) tb' C = .ok s' →
      (∀ call ∈ calls, call.Admissible (.bits 64)) →
      ((Session.start s).run (.bits 64) (.exact ℤ) calls).outs
        = ((Session.start s').run (.bits 64) (.exact ℤ) calls).outs)
      ↔ ∀ ph < D.kPhases, ∀ t < 4, tb.at ph t = tb'.at ph t := by
  intro D tb tb'
  exact table_observable (Covers.of_le (by decide))
    (PhaseTable.complete_ofPrototype (fun _ => rfl) 4 _)
    (PhaseTable.complete_ofPrototype (fun _ => rfl) 4 _) four_pos rfl

end RatioTap
