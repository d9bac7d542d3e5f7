import Unstack.Text.CaseData

/-! # Lower case

The full Unicode mapping to lower case.  It goes letter by letter but for two exceptions: the
dotted capital I becomes two characters, and a capital sigma that ends a word becomes the
final small sigma. -/

namespace Unstack.Text

/-- The small letters of a single character, away from any context. -/
def lowerChar (c : Char) : List Char :=
  if c.toNat = 0x130 then ['i', Char.ofNat 0x307]
  else
    match caseRuns.find? (·.covers c.toNat) with
    | some run => [Char.ofNat (c.toNat + run.shift).toNat]
    | none => [c]

/-- Whether the first character that is not skipped has case. -/
def meetsCased (cs : List Char) : Bool :=
  match cs.dropWhile isCaseIgnorable with
  | c :: _ => isCased c
  | [] => false

/-- The capital sigma. -/
def sigma : Char := Char.ofNat 0x3a3

/-- The lower case of `cs`, where `seen` holds the characters before it, nearest first.  A
capital sigma ends a word when a cased letter stands before it and none after it. -/
def lowerFrom (seen : List Char) : List Char → List Char
  | [] => []
  | c :: cs =>
    let small :=
      if c = sigma then
        if meetsCased seen && !meetsCased cs then [Char.ofNat 0x3c2] else [Char.ofNat 0x3c3]
      else lowerChar c
    small ++ lowerFrom (c :: seen) cs

/-- A text in lower case. -/
def lower (s : String) : String := String.ofList (lowerFrom [] s.toList)

end Unstack.Text
