/-! # Binary floating-point numbers

Number leaves are binary64 values.  They are only read, kept and written, never computed
with, so the type is the bare set of values.

* **Places.**  The finite magnitudes, in increasing order, are numbered from zero:
  `Number.finite s p` is the `p`-th of them with sign `s`.  Places below `2 ^ 52` are the
  subnormal magnitudes; after that each block of `2 ^ 52` places doubles the spacing.
* **Units.**  Every finite magnitude is a whole multiple of `2 ^ (-1074)`; `units p` is that
  multiple, so comparisons and roundings stay in the natural numbers.
* **Rounding.**  `Number.ofRatio` gives the nearest value to a quotient of natural numbers, a
  tie going to the even significand, and `Number.ofDecimal` the nearest value to a decimal. -/

namespace Unstack

/-- How many places share one binary exponent: `2 ^ 52`. -/
abbrev binade : Nat := 4503599627370496

/-- How many finite magnitudes there are. -/
abbrev finiteMagnitudes : Nat := 2047 * binade

/-- A binary64 value; the many bit patterns that are not a number count as one. -/
inductive Number where
  | nan
  | infinity (negative : Bool)
  | finite (negative : Bool) (place : Fin finiteMagnitudes)
deriving DecidableEq, Repr

namespace Number

/-- The significand of the `p`-th magnitude. -/
def significand (p : Nat) : Nat := if p < binade then p else binade + p % binade

/-- The binary exponent of the `p`-th magnitude, counted from the smallest one. -/
def exponentAt (p : Nat) : Nat := p / binade - 1

/-- The `p`-th magnitude in units of `2 ^ (-1074)`. -/
def units (p : Nat) : Nat := significand p <<< exponentAt p

/-- The whole number nearest to `n / d`, a tie going to the even one. -/
def roundHalfEven (n d : Nat) : Nat :=
  let q := n / d
  let r := n % d
  if 2 * r < d then q else if d < 2 * r then q + 1 else q + q % 2

/-- The place of the magnitude nearest to `n / d` units.  A place past the last finite one
stands for infinity. -/
def nearestPlace (n d : Nat) : Nat :=
  let shift := Nat.log2 (n / d) - 52
  shift * binade + roundHalfEven n (d <<< shift)

/-- The value at a place, infinite past the last finite one. -/
def atPlace (negative : Bool) (p : Nat) : Number :=
  if h : p < finiteMagnitudes then .finite negative ⟨p, h⟩ else .infinity negative

/-- The value nearest to `n / d`. -/
def ofRatio (negative : Bool) (n d : Nat) : Number :=
  atPlace negative (nearestPlace (n <<< 1074) d)

/-- How many decimal digits `n` has; zero has one.  Two lengths guessed from the binary length
are tried before the digits are counted. -/
def decimalLength (n : Nat) : Nat :=
  let guess := Nat.log2 n * 1233 / 4096
  if Nat.pow 10 guess ≤ n ∧ n < Nat.pow 10 (guess + 1) then guess + 1
  else if Nat.pow 10 (guess + 1) ≤ n ∧ n < Nat.pow 10 (guess + 2) then guess + 2
  else (Nat.toDigits 10 n).length

/-- The value nearest to `digits * 10 ^ exponent`.  Decimals above `10 ^ 310` are infinite and
those below `10 ^ (-326)` are zero, so only moderate powers of ten are ever formed. -/
def ofDecimal (negative : Bool) (digits : Nat) (exponent : Int) : Number :=
  let magnitude := exponent + decimalLength digits
  if digits = 0 ∨ magnitude < -325 then atPlace negative 0
  else if 310 < magnitude then .infinity negative
  else if 0 ≤ exponent then ofRatio negative (digits * Nat.pow 10 exponent.toNat) 1
  else ofRatio negative digits (Nat.pow 10 (-exponent).toNat)

end Number

end Unstack
