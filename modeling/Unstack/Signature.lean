import Unstack.Leaf
import Unstack.TypeRef

/-! # Method signatures

The record that the bytecode keeps of a method: its types, its parameter names, the default
values of its optional parameters, and a byte of flags. -/

namespace Unstack

/-- A method signature.  A missing type stands for an untyped parameter or result. -/
structure Signature where
  name : Option String
  returnType : Option TypeRef
  paramTypes : List (Option TypeRef)
  paramNames : List String
  flags : UInt8
  /-- The default values of the trailing parameters. -/
  options : List Leaf
deriving DecidableEq, Repr

namespace Number

/-- Equality as arithmetic has it: a value that is not a number equals nothing, and the two
zeros are equal. -/
def comparesEqual : Number → Number → Bool
  | .nan, _ => false
  | _, .nan => false
  | .finite s p, .finite t q => p == q && (s == t || p.val == 0)
  | x, y => x == y

end Number

namespace Leaf

/-- Equality of leaves, numbers being equal as arithmetic has it. -/
def comparesEqual : Leaf → Leaf → Bool
  | .number x, .number y => x.comparesEqual y
  | a, b => a == b

end Leaf

namespace Signature

/-- How many parameters the method has. -/
def paramCount (s : Signature) : Nat := s.paramTypes.length

/-- Whether a bit of the flags is set. -/
def hasFlag (s : Signature) (bit : UInt8) : Bool := s.flags &&& bit != 0

/-- The method uses the `arguments` object. -/
def needsArguments (s : Signature) : Bool := s.hasFlag 0x01

/-- The method needs an activation object. -/
def needsActivation (s : Signature) : Bool := s.hasFlag 0x02

/-- The method collects the arguments left over. -/
def needsRest (s : Signature) : Bool := s.hasFlag 0x04

/-- Some parameters are optional. -/
def hasOptional (s : Signature) : Bool := s.hasFlag 0x08

/-- The method sets the default XML namespace. -/
def setsDxns (s : Signature) : Bool := s.hasFlag 0x40

/-- The record declares parameter names. -/
def hasParamNames (s : Signature) : Bool := s.hasFlag 0x80

/-- The name of the `n`-th parameter: the declared one, or one made from its position. -/
def paramName (s : Signature) (n : Nat) : String :=
  if s.hasParamNames then s.paramNames[n]?.getD s!"a{n}" else s!"a{n}"

/-- The names of all parameters. -/
def effectiveNames (s : Signature) : List String := (List.range s.paramCount).map s.paramName

/-- Equality of signatures, default values being equal as arithmetic has it. -/
def comparesEqual (s t : Signature) : Bool :=
  { s with options := [] } == { t with options := [] }
    && s.options.length == t.options.length
    && (s.options.zip t.options).all fun p => p.1.comparesEqual p.2

@[simp] theorem length_effectiveNames (s : Signature) :
    s.effectiveNames.length = s.paramCount := by
  simp [effectiveNames]

end Signature

end Unstack
