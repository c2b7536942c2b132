import Mathlib

/-!
# Unsigned words

Counter arithmetic, evaluated either on unsigned words of `w` bits, where every operation
reduces its result modulo `2 ^ w`, or exactly, on the natural numbers.  The two agree as
long as no value reaches `2 ^ w` and no difference is taken the wrong way round; `Fits` is
that side condition, and it is empty for the exact arithmetic.
-/

/-- The arithmetic a counter is evaluated in. -/
inductive Word where
  /-- The natural numbers. -/
  | exact
  /-- Unsigned words of the given number of bits. -/
  | bits (w : ℕ)
deriving DecidableEq, Repr

namespace Word

/-- The value a result is stored as. -/
def wrap : Word → ℕ → ℕ
  | exact, n => n
  | bits w, n => n % 2 ^ w

/-- Addition. -/
def add (A : Word) (x y : ℕ) : ℕ := A.wrap (x + y)

/-- Multiplication. -/
def mul (A : Word) (x y : ℕ) : ℕ := A.wrap (x * y)

/-- Subtraction: words borrow from `2 ^ w`. -/
def sub : Word → ℕ → ℕ → ℕ
  | exact, x, y => x - y
  | bits w, x, y => (x + 2 ^ w - y) % 2 ^ w

/-- The value is stored as it is. -/
def Fits : Word → ℕ → Prop
  | exact, _ => True
  | bits w, n => n < 2 ^ w

variable {A : Word}

lemma Fits.mono {m n : ℕ} (h : A.Fits n) (hmn : m ≤ n) : A.Fits m := by
  cases A with
  | exact => trivial
  | bits w => exact lt_of_le_of_lt hmn h

lemma wrap_eq {n : ℕ} (h : A.Fits n) : A.wrap n = n := by
  cases A with
  | exact => rfl
  | bits w => exact Nat.mod_eq_of_lt h

/-- A result that was stored fits. -/
lemma fits_wrap (n : ℕ) : A.Fits (A.wrap n) := by
  cases A with
  | exact => trivial
  | bits w => exact Nat.mod_lt _ (Nat.two_pow_pos w)

lemma add_eq {x y : ℕ} (h : A.Fits (x + y)) : A.add x y = x + y := wrap_eq h

lemma mul_eq {x y : ℕ} (h : A.Fits (x * y)) : A.mul x y = x * y := wrap_eq h

lemma sub_eq {x y : ℕ} (hx : A.Fits x) (hyx : y ≤ x) : A.sub x y = x - y := by
  cases A with
  | exact => rfl
  | bits w =>
      rw [sub, Nat.sub_add_comm hyx, Nat.add_mod_right]
      exact Nat.mod_eq_of_lt (lt_of_le_of_lt (Nat.sub_le x y) hx)

/-- Counting down stops: a decrement makes every positive value smaller. -/
lemma sub_one_lt {x : ℕ} (hx : x ≠ 0) : A.sub x 1 < x := by
  cases A with
  | exact => exact Nat.sub_lt (Nat.pos_of_ne_zero hx) one_pos
  | bits w =>
      rcases Nat.lt_or_ge x (2 ^ w) with h | h
      · rw [sub_eq (A := bits w) h (by omega)]
        omega
      · exact lt_of_lt_of_le (Nat.mod_lt _ (Nat.two_pow_pos w)) h

/-! ### Checked operations

The operations on words of `w` bits that have a result only where nothing wraps. -/

/-- Addition, where the sum is a word. -/
def checkedAdd (w x y : ℕ) : Option ℕ := if x + y < 2 ^ w then some (x + y) else none

/-- Multiplication, where the product is a word. -/
def checkedMul (w x y : ℕ) : Option ℕ := if x * y < 2 ^ w then some (x * y) else none

/-- Subtraction, where nothing is borrowed. -/
def checkedSub (x y : ℕ) : Option ℕ := if y ≤ x then some (x - y) else none

variable {w x y : ℕ}

lemma checkedAdd_eq (h : (bits w).Fits (x + y)) : checkedAdd w x y = some (x + y) := if_pos h

lemma checkedMul_eq (h : (bits w).Fits (x * y)) : checkedMul w x y = some (x * y) := if_pos h

lemma checkedSub_eq (h : y ≤ x) : checkedSub x y = some (x - y) := if_pos h

end Word
