import Unstack.Number.Basic

/-! # Numerals

A numeral is an optional sign, digits, an optional point with further digits, and an optional
power of ten.  `Numeral.scan` takes a text apart and `Numeral.value` rounds the result; the
reader of trees and the general reader of numbers differ only in which parts they require. -/

namespace Unstack

/-- The parts of a numeral. -/
structure Numeral where
  negative : Bool
  whole : List Char
  fraction : List Char
  exponent : Int
deriving DecidableEq, Repr

namespace Numeral

/-- The number written by a list of decimal digits. -/
def natOfDigits (ds : List Char) : Nat :=
  ds.foldl (fun n d => 10 * n + (d.toNat - '0'.toNat)) 0

/-- A leading sign, and the text after it. -/
def splitSign : List Char → Bool × List Char
  | '-' :: cs => (true, cs)
  | '+' :: cs => (false, cs)
  | cs => (false, cs)

/-- The digits after a leading point, and the text after them. -/
def splitFraction : List Char → List Char × List Char
  | '.' :: cs => (cs.takeWhile Char.isDigit, cs.dropWhile Char.isDigit)
  | cs => ([], cs)

/-- A power of ten that fills the whole text: nothing, or a mark, a sign and digits. -/
def readExponent : List Char → Option Int
  | [] => some 0
  | c :: cs =>
    let (negative, ds) := splitSign cs
    if (c = 'e' ∨ c = 'E') ∧ ds ≠ [] ∧ ds.all Char.isDigit then
      some (if negative then -(natOfDigits ds : Int) else natOfDigits ds)
    else none

/-- The parts of a text that is a numeral, where the digits on either side of the point may
be missing. -/
def scan (cs : List Char) : Option Numeral :=
  let (negative, cs) := splitSign cs
  let (fraction, rest) := splitFraction (cs.dropWhile Char.isDigit)
  (readExponent rest).map fun exponent =>
    { negative, whole := cs.takeWhile Char.isDigit, fraction, exponent }

/-- The value nearest to the numeral. -/
def value (n : Numeral) : Number :=
  .ofDecimal n.negative (natOfDigits (n.whole ++ n.fraction)) (n.exponent - n.fraction.length)

/-- A numeral that starts with a digit, up to its sign: the form that trees are written in. -/
def readStrict (cs : List Char) : Option Number :=
  (scan cs).bind fun n => if n.whole = [] then none else some n.value

/-- The names of the values that are not finite, in any case. -/
def readNamed (cs : List Char) : Option Number :=
  let (negative, cs) := splitSign cs
  let name := String.ofList (cs.map Char.toLower)
  if name = "nan" then some .nan
  else if name = "inf" ∨ name = "infinity" then some (.infinity negative)
  else none

/-- Any spelling of a number: a numeral with at least one digit, or a name. -/
def readAny (cs : List Char) : Option Number :=
  match scan cs with
  | some n => if n.whole ++ n.fraction = [] then none else some n.value
  | none => readNamed cs

end Numeral

end Unstack
