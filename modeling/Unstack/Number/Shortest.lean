import Unstack.Number.Basic

/-! # Shortest decimals

A finite value is written with the fewest decimal digits that read back as the same value,
and of several such decimals with the nearest one.

The exact expansion of the `p`-th magnitude is the whole number `units p * 5 ^ 1074` shifted
by 1074 decimal places.  For one digit, two digits and so on its two neighbours on that grid
are tried, and the first grid on which one of them reads back decides. -/

namespace Unstack

/-- The decimal `digits * 10 ^ exponent`. -/
structure Decimal where
  digits : Nat
  exponent : Int
deriving DecidableEq, Repr

/-- Which of two equally near decimals is taken. -/
inductive Tie where
  | up
  | even
deriving DecidableEq, Repr

namespace Decimal

/-- Whether the decimal is read as the `p`-th magnitude. -/
def readsAs (d : Decimal) (p : Fin finiteMagnitudes) : Bool :=
  Number.ofDecimal false d.digits d.exponent == .finite false p

/-- The exact expansion of the `p`-th magnitude. -/
def exact (p : Nat) : Decimal := ⟨Number.units p * Nat.pow 5 1074, -1074⟩

/-- The upper of two neighbours `digits` and `digits + 1` wins the tie or is nearer; `rest` is
the distance to the lower one on a grid of width `step`. -/
def roundsUp (tie : Tie) (digits rest step : Nat) : Bool :=
  step < 2 * rest || (step == 2 * rest && (tie == .up || digits % 2 == 1))

/-- The nearest decimal of at most `count` digits that reads as the `p`-th magnitude; `full` is
the exact expansion, which has `length` digits. -/
def withDigits? (tie : Tie) (p : Fin finiteMagnitudes) (full : Decimal) (length count : Nat) :
    Option Decimal :=
  let dropped := length - count
  let step := Nat.pow 10 dropped
  let lower : Decimal := ⟨full.digits / step, full.exponent + dropped⟩
  let upper : Decimal := ⟨full.digits / step + 1, full.exponent + dropped⟩
  match lower.readsAs p, upper.readsAs p with
  | true, true =>
    some (if roundsUp tie lower.digits (full.digits % step) step then upper else lower)
  | true, false => some lower
  | false, true => some upper
  | false, false => none

/-- The shortest decimal that reads as the `p`-th magnitude.  Seventeen digits always do; the
exact expansion stands behind them. -/
def shortest (tie : Tie) (p : Fin finiteMagnitudes) : Decimal :=
  let full := exact p
  let length := Number.decimalLength full.digits
  ((List.range 17).findSome? fun n => withDigits? tie p full length (n + 1)).getD full

end Decimal

end Unstack
