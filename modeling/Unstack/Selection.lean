import Unstack.Text.Blank
import Unstack.Text.Lower
import Unstack.Traced

/-! # Selecting passes

Which of the standard passes a run applies.  All are on until a skip list names them. -/

namespace Unstack

/-- The name of the normalising pass. -/
def normalizeName : String := "ast-normalize"

/-- The name of the checking pass. -/
def checkName : String := "canonical-check"

/-- The environment variable that lists passes to skip. -/
def skipVariable : String := "AVM2_NORMALIZE_SKIP_PASSES"

/-- Which passes run. -/
structure Selection where
  normalize : Bool
  check : Bool
deriving DecidableEq, Repr

namespace Selection

/-- Every pass. -/
def all : Selection := ⟨true, true⟩

/-- Skips a pass.  Its name may be in any case and have blanks around it; an unknown name is
reported and changes nothing. -/
def skip (s : Selection) (name : String) : Traced Selection :=
  let name := Text.lower (Text.trim name)
  if name = normalizeName then pure { s with normalize := false }
  else if name = checkName then pure { s with check := false }
  else do
    Traced.emit (.unknownPass name)
    return s

/-- Skips several passes in turn. -/
def skipAll (s : Selection) (names : List String) : Traced Selection := names.foldlM skip s

/-- The pieces of a text between its commas. -/
def splitCommas : List Char → List (List Char)
  | [] => [[]]
  | c :: cs =>
    if c = ',' then [] :: splitCommas cs
    else
      match splitCommas cs with
      | [] => [[c]]
      | piece :: pieces => (c :: piece) :: pieces

/-- The names in a comma-separated list, without blanks around them and without empty ones. -/
def splitNames (list : String) : List String :=
  (((splitCommas list.toList).map Text.trimChars).filter (!·.isEmpty)).map String.ofList

/-- Skips what the environment lists, if it lists anything, and then what the caller names. -/
def ofSources (environment : Option String) (names : List String) : Traced Selection :=
  all.skipAll ((environment.map splitNames).getD [] ++ names)

/-- Turns the check back on for a caller who needs its verdict. -/
def requireCheck (s : Selection) : Traced Selection :=
  if s.check then pure s
  else do
    Traced.emit .checkForced
    return { s with check := true }

end Selection

end Unstack
