import Unstack.Leaf
import Unstack.Kind

/-! # Faults

Why an edit or a rule could not go on.  A rule that meets a malformed tree stops with a fault
that names the node; an edit that is handed a slot or a position that does not exist stops
with `Fault.outOfBounds`. -/

namespace Unstack

/-- The number of a node's slot. -/
abbrev NodeId := Nat

/-- How messages show a slot number. -/
def showId (id : NodeId) : String := s!"#{id}"

/-- Why an edit or a rule stopped. -/
inductive Fault where
  /-- A slot or a position that does not exist. -/
  | outOfBounds
  /-- The slots do not form a tree, so that a walk through them would not end. -/
  | cyclic
  | ownChild (id : NodeId)
  | noFlagSlot (kind : Kind) (id : NodeId)
  | needsParent (kind : Kind) (id : NodeId)
  | popWithoutOperand (id : NodeId)
  | coercionWithoutOperand (id : NodeId)
  /-- The second child of a choice is missing or a leaf. -/
  | noOperator (id : NodeId) (found : Option Leaf)
  | noBranchValues (id operator : NodeId)
  | tooFewChildren (id : NodeId) (count : Nat)
deriving DecidableEq, Repr

namespace Fault

/-- What stands where an operator node was expected. -/
def foundText : Option Leaf → String
  | none => "None"
  | some l => "Some(Leaf(" ++ l.describe ++ "))"

/-- The text of a fault; faults of the table itself have none. -/
def message? : Fault → Option String
  | outOfBounds => none
  | cyclic => none
  | ownChild id => some s!"node {showId id} cannot be its own child"
  | noFlagSlot kind id => some s!"{kind.tag} {showId id} has no flag slot to negate"
  | needsParent kind id => some s!"{kind.tag} {showId id} requires a parent"
  | popWithoutOperand id => some s!"pop {showId id} has no operand"
  | coercionWithoutOperand id => some s!"coerce_b {showId id} has no operand"
  | noOperator id found =>
    some s!"ternary_if {showId id} expects an operator node in slot 1, found {foundText found}"
  | noBranchValues id operator =>
    some s!"ternary_if {showId id} operator {showId operator} carries no branch values"
  | tooFewChildren id count =>
    some (s!"ternary_if_boolean {showId id} needs a flag, a condition and branches, "
      ++ s!"found {count} children")

end Fault

end Unstack
