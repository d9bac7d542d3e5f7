import Unstack.Arena.View
import Unstack.Traced

/-! # Canonical trees

A tree is canonical when normalising has nothing left to do: it has no node of an eliminated
kind, no expansion but possibly its root, and no coercion directly below a node that takes its
operands for their truth. -/

namespace Unstack

/-- A node that keeps a tree from being canonical, with its kind. -/
abbrev Offender := NodeId × Kind

namespace Arena

/-- What is wrong at one node: itself, and then coercions among its children. -/
def offendersAt (a : Arena) (id : NodeId) : List Offender :=
  match a.kind? id with
  | none => []
  | some kind =>
    (if kind.isEliminated || (kind == .expand && id != a.root) then [(id, kind)] else [])
      ++ (if kind.consumesBoolean then
            ((a.childNodes id).filter (a.hasKind · .coerceB)).map fun c => (c, .coerceB)
          else [])

/-- Everything that is wrong with a tree, parents before children. -/
def offenders (a : Arena) : List Offender := a.descendants.flatMap a.offendersAt

/-- Whether nothing is wrong with a tree. -/
def isCanonical (a : Arena) : Bool := a.offenders.isEmpty

/-- What a check reports about its findings. -/
def checkEvents (found : List Offender) : List Event :=
  if found.isEmpty then [.canonical] else found.map fun o => .notCanonical o.2 o.1

/-- Checks a tree and reports what it finds. -/
def check (a : Arena) : Traced (List Offender) :=
  ⟨checkEvents a.offenders, .ok a.offenders⟩

end Arena

end Unstack
