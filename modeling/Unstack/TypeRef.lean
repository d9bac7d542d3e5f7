/-! # Type references

The types that appear in method signatures: a name, possibly applied to type parameters. -/

namespace Unstack

/-- A reference to a type; a reference without parameters is a plain name. -/
inductive TypeRef where
  | mk (name : String) (params : List TypeRef)
deriving Repr

namespace TypeRef

/-- The name of the type, without its parameters. -/
def name : TypeRef → String
  | mk n _ => n

/-- The type parameters. -/
def params : TypeRef → List TypeRef
  | mk _ ps => ps

/-- Whether the type has parameters. -/
def isGeneric (t : TypeRef) : Bool := !t.params.isEmpty

mutual

/-- Equality of type references can be decided. -/
def decEq : (a b : TypeRef) → Decidable (a = b)
  | mk n ps, mk m qs =>
    match String.decEq n m, decEqAll ps qs with
    | isTrue h, isTrue h' => isTrue (by rw [h, h'])
    | isFalse h, _ => isFalse fun e => h (by injection e)
    | _, isFalse h => isFalse fun e => h (by injection e)

/-- Equality of lists of type references can be decided. -/
def decEqAll : (as bs : List TypeRef) → Decidable (as = bs)
  | [], [] => isTrue rfl
  | [], _ :: _ => isFalse (by simp)
  | _ :: _, [] => isFalse (by simp)
  | a :: as, b :: bs =>
    match decEq a b, decEqAll as bs with
    | isTrue h, isTrue h' => isTrue (by rw [h, h'])
    | isFalse h, _ => isFalse fun e => h (by injection e)
    | _, isFalse h => isFalse fun e => h (by injection e)

end

instance : DecidableEq TypeRef := decEq

mutual

/-- A type as messages show it, parameters between `.<` and `>`. -/
def display : TypeRef → String
  | mk n [] => n
  | mk n (p :: ps) => n ++ ".<" ++ p.display ++ displayRest ps ++ ">"

/-- Further parameters, each after a comma. -/
def displayRest : List TypeRef → String
  | [] => ""
  | p :: ps => ", " ++ p.display ++ displayRest ps

end

end TypeRef

end Unstack
