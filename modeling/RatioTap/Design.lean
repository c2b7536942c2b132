import Mathlib

/-!
# Directions and quality profiles

The compile-time facts of `design.h`: the two conversion directions with their
interpolation and decimation factors and their stopband edges, and the quality profiles.  Of a
`double` the repository itself only asks whether it is finite and how it compares, so a finite
one is a rational number; the arithmetic on rates and decibels belongs to the filter designer.
-/

namespace RatioTap

/-- A `double`. -/
inductive Double where
  | finite (q : ℚ)
  | inf (negative : Bool)
  | nan
deriving DecidableEq, Repr

namespace Double

/-- `std::isfinite(x)`. -/
def isFinite : Double → Bool
  | finite _ => true
  | _ => false

/-- `x <= y`, which is false when either is a NaN. -/
def le : Double → Double → Bool
  | finite x, finite y => decide (x ≤ y)
  | finite _, inf negative => !negative
  | inf negative, finite _ => negative
  | inf negative, inf negative' => negative || !negative'
  | _, _ => false

end Double

/-- `direction`: a compile-time parameter of everything below. -/
inductive Direction where
  /-- 44.1 kHz to 48 kHz. -/
  | upTo48k
  /-- 48 kHz to 44.1 kHz. -/
  | downTo44k1
deriving DecidableEq, Repr

namespace Direction

/-- `ratio_traits<D>::k_phases`, the interpolation factor `L`. -/
def kPhases : Direction → ℕ
  | upTo48k => 160
  | downTo44k1 => 147

/-- `ratio_traits<D>::k_decimation`, the decimation factor `M`. -/
def kDecimation : Direction → ℕ
  | upTo48k => 147
  | downTo44k1 => 160

/-- `ratio_traits<D>::k_stopband_edge_hz`, the output Nyquist frequency. -/
def kStopbandEdgeHz : Direction → Double
  | upTo48k => .finite 24000
  | downTo44k1 => .finite 22050

variable (D : Direction)

lemma kPhases_pos : 0 < D.kPhases := by cases D <;> decide

lemma kDecimation_pos : 0 < D.kDecimation := by cases D <;> decide

lemma kPhases_le : D.kPhases ≤ 160 := by cases D <;> decide

lemma kDecimation_le : D.kDecimation ≤ 160 := by cases D <;> decide

end Direction

/-- `profile`. -/
structure Profile where
  /-- Edge of the flat passband. -/
  passbandHz : Double := .finite 18000
  /-- Prototype stopband target. -/
  stopbandAttenDb : Double := .finite 70
  /-- Taps per phase, 44.1 to 48. -/
  tapsUpTo48k : ℕ := 38
  /-- Taps per phase, 48 to 44.1. -/
  tapsDownTo44k1 : ℕ := 58
deriving DecidableEq, Repr

namespace Profile

/-- `profile::economy`: the defaults. -/
def economy : Profile := {}

/-- `profile::super_economy`. -/
def superEconomy : Profile :=
  { passbandHz := .finite 16000, stopbandAttenDb := .finite 70, tapsUpTo48k := 28,
    tapsDownTo44k1 := 40 }

/-- `profile::balanced`. -/
def balanced : Profile :=
  { passbandHz := .finite 19000, stopbandAttenDb := .finite 70, tapsUpTo48k := 44,
    tapsDownTo44k1 := 78 }

/-- `profile::transparent`. -/
def transparent : Profile :=
  { passbandHz := .finite 20000, stopbandAttenDb := .finite 120, tapsUpTo48k := 96,
    tapsDownTo44k1 := 184 }

/-- `profile::taps<D>()`. -/
def taps (p : Profile) : Direction → ℕ
  | .upTo48k => p.tapsUpTo48k
  | .downTo44k1 => p.tapsDownTo44k1

end Profile

end RatioTap
