import Mathlib.Data.List.Forall2
import Unstack.Fault
import Unstack.Tree

/-! # Normalising as a function of trees

The rules of `Unstack.Normalize` once more, as one structural recursion over trees that has no
slots, no links and nothing to undo.

* **Children first.**  `normalizeRest` runs through the children of a node from left to right.
  It carries the kind of the node and the children done so far, because a branch may ask its
  parent for something (`Demand`): to negate the flag in the first position, or to become a
  `ternary_if_boolean`.  A child is told the kind that its parent has by then, and its position.
* **Then the node.**  The children of expansions take their place (`opened`), and the rule of
  the kind that the node has by then is applied (`rule`).
* **Defects.**  Where a rule finds its node malformed, the whole rewrite fails.  `Defect` says
  why; it is a `Fault` without slot numbers. -/

namespace Unstack

/-- Why a tree cannot be normalised. -/
inductive Defect where
  /-- A branch at the top of the tree. -/
  | needsParent (c : Condition)
  | popWithoutOperand
  | coercionWithoutOperand
  /-- The second child of a choice is missing or a leaf. -/
  | noOperator (found : Option Leaf)
  | noBranchValues
  | tooFewChildren (count : Nat)
deriving DecidableEq, Repr

/-- The defect of the tree that a fault reports, if it reports one. -/
def Fault.defect? : Fault → Option Defect
  | .needsParent (.branch c) _ => some (.needsParent c)
  | .popWithoutOperand _ => some .popWithoutOperand
  | .coercionWithoutOperand _ => some .coercionWithoutOperand
  | .noOperator _ found => some (.noOperator found)
  | .noBranchValues _ _ => some .noBranchValues
  | .tooFewChildren _ count => some (.tooFewChildren count)
  | .outOfBounds | .cyclic | .ownChild _ | .noFlagSlot _ _ | .needsParent _ _ => none

/-- What a node that has been dealt with asks of its parent. -/
structure Demand where
  /-- Negate the flag in the first position. -/
  negate : Bool
  /-- Become a `ternary_if_boolean`. -/
  retag : Bool
deriving DecidableEq, Repr

namespace Demand

/-- Nothing is asked. -/
def none : Demand := ⟨false, false⟩

/-- The kind of the parent afterwards. -/
def kind (d : Demand) (k : Kind) : Kind := if d.retag then .ternaryIfBoolean else k

end Demand

namespace Tree

/-! ### Parts of the rules -/

/-- Nodes count as true. -/
def truthy : Tree → Bool
  | .leaf l => l.truthy
  | .node .. => true

/-- Replaces the first child by the opposite of its truth value. -/
def negateFirst : List Tree → List Tree
  | [] => []
  | t :: ts => .leaf (.bool !t.truthy) :: ts

theorem length_negateFirst (ts : List Tree) : (negateFirst ts).length = ts.length := by
  cases ts <;> rfl

theorem negateFirst_append {ts : List Tree} (h : ts ≠ []) (us : List Tree) :
    negateFirst (ts ++ us) = negateFirst ts ++ us := by
  cases ts with
  | nil => exact absurd rfl h
  | cons t ts => rfl

/-- What a child adds to the list of its parent: an expansion its children, anything else
itself. -/
def opened : Tree → List Tree
  | .node .expand _ ts => ts
  | t => [t]

theorem opened_of_ne {kind : Kind} (h : kind ≠ .expand) (note : Option Note) (ts : List Tree) :
    opened (.node kind note ts) = [.node kind note ts] := by
  cases kind <;> first | rfl | exact absurd rfl h

/-- The first operand that is no coercion. -/
def strip : Tree → Except Defect Tree
  | .node .coerceB _ [] => .error .coercionWithoutOperand
  | .node .coerceB _ (t :: _) => strip t
  | t => .ok t

theorem strip_of_ne {kind : Kind} (h : kind ≠ .coerceB) (note : Option Note) (ts : List Tree) :
    strip (.node kind note ts) = .ok (.node kind note ts) := by
  cases kind <;> first | rfl | exact absurd rfl h

/-- A choice with a flag becomes a `ternary`; the values trade places if the flag is false. -/
def choice (note : Option Note) : List Tree → Except Defect Tree
  | flag :: condition :: first :: rest =>
    let second := rest.headD (.leaf .nil)
    .ok (.node .ternary note
      (if flag.truthy then [condition, first, second] else [condition, second, first]))
  | ts => .error (.tooFewChildren ts.length)

/-- The last two children of the operator in the second position move to the end. -/
def hoist (ts : List Tree) : Except Defect (List Tree) :=
  match (ts[1]? : Option Tree) with
  | some (.node kind note args) =>
    if args.length < 2 then .error .noBranchValues
    else
      .ok (ts.set 1 (.node kind note (args.take (args.length - 2)))
        ++ args.drop (args.length - 2))
  | some (.leaf l) => .error (.noOperator (some l))
  | none => .error (.noOperator none)

/-! ### Rules -/

/-- The rule for a branch.  `place` is the kind of its parent and its position there. -/
def branchRule (place : Option (Kind × Nat)) (c : Condition) (note : Option Note)
    (ts : List Tree) : Except Defect (Tree × Demand) :=
  match place with
  | none => .error (.needsParent c)
  | some (parent, i) =>
    if parent = .jumpIf ∨ c.comparison?.isSome then
      .ok (.node (.ofCondition c) note ts, ⟨c.reversed, false⟩)
    else if parent = .ternaryIf ∧ i = 1 then
      .ok (.node (.ofCondition c) note ts, ⟨c.reversed, true⟩)
    else if ts.length = 2 then do
      let t ← choice note (.leaf (.bool c.reversed) :: ts)
      return (t, .none)
    else
      .ok (.node (.ofCondition c) note ts, ⟨c.reversed, false⟩)

/-- The rule for a node of a given kind whose children have been dealt with. -/
def rule (place : Option (Kind × Nat)) (kind : Kind) (note : Option Note) (ts : List Tree) :
    Except Defect (Tree × Demand) :=
  match kind with
  | .pop =>
    match ts with
    | [] => .error .popWithoutOperand
    | t :: _ => .ok (.node .expand note [t, .node .nop note []], .none)
  | .callPropertyVoid => .ok (.node .callProperty note ts, .none)
  | .callSuperVoid => .ok (.node .callSuper note ts, .none)
  | .branch c => branchRule place c note ts
  | .ternaryIf => do
    let t ← choice note (← hoist ts)
    return (t, .none)
  | .ternaryIfBoolean => do
    let t ← choice note ts
    return (t, .none)
  | .and | .or | .jumpIf => do
    let ts ← ts.mapM strip
    return (.node kind note ts, .none)
  | .kill | .debug | .debugFile | .debugLine => .ok (.node .nop note [], .none)
  | .nop | .expand | .callProperty | .callSuper | .ternary | .coerceB | .compare _ | .other _ =>
    .ok (.node kind note ts, .none)

/-! ### The rewrite -/

mutual

/-- Normalises a tree in its place, and says what it asks of its parent. -/
def normalizeAt (place : Option (Kind × Nat)) : Tree → Except Defect (Tree × Demand)
  | .leaf l => .ok (.leaf l, .none)
  | .node kind note ts => do
    let (kind, ts) ← normalizeRest kind [] ts
    rule place kind note (ts.flatMap opened)

/-- Normalises the children of a node that are left.  `kind` is the kind of the node, `done`
its children so far. -/
def normalizeRest (kind : Kind) (done : List Tree) :
    List Tree → Except Defect (Kind × List Tree)
  | [] => .ok (kind, done)
  | t :: ts => do
    let (t, d) ← normalizeAt (some (kind, done.length)) t
    let done := done ++ [t]
    normalizeRest (d.kind kind) (if d.negate then negateFirst done else done) ts

end

/-- Normalises a whole tree. -/
def normalize (t : Tree) : Except Defect Tree := (normalizeAt none t).map Prod.fst

theorem normalizeAt_node (place : Option (Kind × Nat)) (kind : Kind) (note : Option Note)
    (ts : List Tree) :
    normalizeAt place (.node kind note ts)
      = (normalizeRest kind [] ts >>= fun r => rule place r.1 note (r.2.flatMap opened)) := by
  rw [normalizeAt]

theorem normalizeRest_cons (kind : Kind) (done : List Tree) (t : Tree) (ts : List Tree) :
    normalizeRest kind done (t :: ts)
      = (normalizeAt (some (kind, done.length)) t >>= fun r =>
          normalizeRest (r.2.kind kind)
            (if r.2.negate then negateFirst (done ++ [r.1]) else done ++ [r.1]) ts) := by
  rw [normalizeRest]

/-- A child that asks for nothing. -/
theorem normalizeRest_cons_of_none {kind : Kind} {done : List Tree} {t t' : Tree} (ts : List Tree)
    (h : normalizeAt (some (kind, done.length)) t = .ok (t', .none)) :
    normalizeRest kind done (t :: ts) = normalizeRest kind (done ++ [t']) ts := by
  rw [normalizeRest_cons, h]
  rfl

/-- Children none of which asks for anything. -/
theorem normalizeRest_of_none {ts ts' : List Tree}
    (h : List.Forall₂ (fun t t' => ∀ place, normalizeAt place t = .ok (t', .none)) ts ts')
    (kind : Kind) (done : List Tree) : normalizeRest kind done ts = .ok (kind, done ++ ts') := by
  induction h generalizing done with
  | nil => rw [normalizeRest, List.append_nil]
  | cons hnormal _ ih =>
      rw [normalizeRest_cons_of_none _ (hnormal _), ih, List.append_assoc, List.singleton_append]

end Tree

end Unstack
