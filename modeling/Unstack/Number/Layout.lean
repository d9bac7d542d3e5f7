import Unstack.Number.Shortest

/-! # Laying out digits

The shortest digits of a number are laid out with a plain point while the number is neither
too small nor too large, and with a power of ten otherwise.  A `Layout` says where the change
happens and how the power of ten is written. -/

namespace Unstack

/-- How the digits of a finite number are laid out.  A number `0.d₁d₂… * 10 ^ e` is written
with a plain point when `plainFrom ≤ e ≤ plainTo`. -/
structure Layout where
  plainFrom : Int
  plainTo : Int
  /-- The sign of a power of ten that is not negative. -/
  plus : List Char
  tie : Tie

namespace Layout

/-- The decimal digits of a natural number. -/
def natText (n : Nat) : List Char := Nat.toDigits 10 n

/-- A digit list without the zeros at its end. -/
def stripZeros (ds : List Char) : List Char := (ds.reverse.dropWhile (· = '0')).reverse

/-- The digits `ds` with a point after the first `e` of them, zeros filling both sides. -/
def plain (ds : List Char) (e : Int) : List Char :=
  if e ≤ 0 then '0' :: '.' :: List.replicate (-e).toNat '0' ++ ds
  else if ds.length ≤ e.toNat then
    ds ++ List.replicate (e.toNat - ds.length) '0' ++ ['.', '0']
  else ds.take e.toNat ++ '.' :: ds.drop e.toNat

/-- The digits `ds` with a point after the first of them, and the power of ten `e`. -/
def scientific (plus : List Char) (ds : List Char) (e : Int) : List Char :=
  let mantissa :=
    match ds with
    | d :: rest@(_ :: _) => d :: '.' :: rest
    | _ => ds
  let sign := if e < 0 then ['-'] else plus
  mantissa ++ 'e' :: sign ++ natText e.natAbs

/-- A magnitude in a layout. -/
def magnitude (l : Layout) (p : Fin finiteMagnitudes) : List Char :=
  if p.val = 0 then ['0', '.', '0']
  else
    let d := Decimal.shortest l.tie p
    let full := natText d.digits
    let e := full.length + d.exponent
    let ds := stripZeros full
    if l.plainFrom ≤ e ∧ e ≤ l.plainTo then plain ds e else scientific l.plus ds (e - 1)

/-- A finite number in a layout. -/
def finite (l : Layout) (negative : Bool) (p : Fin finiteMagnitudes) : List Char :=
  if negative then '-' :: l.magnitude p else l.magnitude p

end Layout

namespace Number

/-- In trees and diagnostics a plain point serves from `10 ^ (-4)` up to `10 ^ 16`, powers of
ten carry no plus, and a tie goes up. -/
def textLayout : Layout := ⟨-3, 16, [], .up⟩

/-- In JSON a plain point serves from `10 ^ (-5)` up to `10 ^ 16`, powers of ten are signed,
and a tie goes to the even digit. -/
def jsonLayout : Layout := ⟨-4, 16, ['+'], .even⟩

/-- A number as trees and diagnostics write it. -/
def text : Number → List Char
  | .nan => ['N', 'a', 'N']
  | .infinity negative => (if negative then ['-'] else []) ++ ['i', 'n', 'f']
  | .finite negative p => textLayout.finite negative p

/-- A number as JSON writes it; JSON has no spelling for values that are not finite. -/
def jsonText : Number → List Char
  | .finite negative p => jsonLayout.finite negative p
  | _ => ['n', 'u', 'l', 'l']

end Number

end Unstack
