import Unstack.Number.Layout
import Unstack.Number.Numeral
import Unstack.Text.Quoted

/-! # Leaves

The constants at the fringe of a tree, their truth value, and their look in diagnostics. -/

namespace Unstack

/-- A constant. -/
inductive Leaf where
  | nil
  | bool (value : Bool)
  | int (value : Int64)
  | number (value : Number)
  | text (value : String)
deriving DecidableEq, Repr

namespace Leaf

/-- Only `nil` and `false` count as false. -/
def truthy : Leaf → Bool
  | nil => false
  | bool b => b
  | int _ | number _ | text _ => true

/-- The decimal digits of an integer, after a minus if it is negative. -/
def intText (n : Int64) : List Char :=
  let n := n.toInt
  if n < 0 then '-' :: Nat.toDigits 10 n.natAbs else Nat.toDigits 10 n.natAbs

/-- The integer that a text writes: an optional sign and digits, within 64 bits. -/
def readInt (cs : List Char) : Option Int64 :=
  let (negative, ds) := Numeral.splitSign cs
  let magnitude : Int := Numeral.natOfDigits ds
  let n := if negative then -magnitude else magnitude
  if ds ≠ [] ∧ ds.all Char.isDigit ∧ Int64.minValue.toInt ≤ n ∧ n ≤ Int64.maxValue.toInt then
    some (.ofInt n)
  else none

/-- A leaf as messages show it. -/
def display : Leaf → String
  | nil => "nil"
  | bool b => if b then "true" else "false"
  | int n => String.ofList (intText n)
  | number x => String.ofList x.text
  | text s => Text.quoted s

/-- A leaf with its constructor, as messages about malformed trees show it. -/
def describe : Leaf → String
  | nil => "Nil"
  | bool b => "Bool(" ++ (bool b).display ++ ")"
  | int n => "Int(" ++ (int n).display ++ ")"
  | number x => "Number(" ++ (number x).display ++ ")"
  | text s => "Str(" ++ (text s).display ++ ")"

end Leaf

end Unstack
