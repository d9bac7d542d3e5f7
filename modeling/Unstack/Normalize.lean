import Unstack.Walk.Basic

/-! # Normalising a tree

The rules that turn a tree shaped by a stack machine into plain expressions, one for each kind
of node that goes away:

* a `pop` becomes its operand and a `nop`;
* void calls become calls;
* a branch becomes a comparison, a choice of its own, or just its operands, depending on where
  it stands; if its condition is reversed, the flag of its parent is negated;
* `ternary_if` and `ternary_if_boolean` become `ternary`;
* coercions directly below `and`, `or` and `jump_if` go;
* hints become `nop`. -/

namespace Unstack

namespace Normalize

/-- The parent of a node that must have one. -/
def requireParent (a : Arena) (id : NodeId) : Except Fault NodeId := do
  let s ← a.slot id
  match s.parent with
  | some p => return p
  | none => throw (.needsParent s.kind id)

/-! ### Statements -/

/-- A `pop` becomes an expansion to its operand and a `nop`, which inherits the note. -/
def pop (a : Arena) (id : NodeId) : Traced Arena :=
  match a.child? id 0 with
  | none => Traced.fail (.popWithoutOperand id)
  | some operand => do
    let (a, nop) ← (a.addNode .nop [] (a.note? id) : Except Fault (Arena × NodeId))
    a.update id .expand [operand, .node nop]

/-- A hint becomes a `nop`. -/
def hint (a : Arena) (id : NodeId) : Traced Arena := a.update id .nop []

/-! ### Choices -/

/-- A choice with a flag: the branch values trade places if the flag is false.  A missing
second value is `nil`, and children beyond the fourth are dropped. -/
def ternaryIfBoolean (a : Arena) (id : NodeId) : Traced Arena := do
  let (a, children) ← (a.splitOff id 0 : Except Fault (Arena × List Child))
  match children with
  | flag :: condition :: first :: rest =>
    let second := rest.headD (.leaf .nil)
    a.update id .ternary
      (if flag.truthy then [condition, first, second] else [condition, second, first])
  | _ => Traced.fail (.tooFewChildren id children.length)

/-- A choice whose operator carries the branch values: they move up to the choice. -/
def ternaryIf (a : Arena) (id : NodeId) : Traced Arena :=
  match a.child? id 1 with
  | some (.node operator) => do
    let count := (a.children operator).length
    if count < 2 then Traced.fail (.noBranchValues id operator)
    else do
      let (a, values) ← (a.splitOff operator (count - 2) : Except Fault (Arena × List Child))
      let a ← (a.pushChildren id values : Except Fault Arena)
      let a ← a.retag id .ternaryIfBoolean
      ternaryIfBoolean a id
  | some (.leaf l) => Traced.fail (.noOperator id (some l))
  | none => Traced.fail (.noOperator id none)

/-! ### Branches -/

/-- Gives a branch the kind that its condition leaves behind, and negates the flag of its
parent if the condition is reversed. -/
def mapCondition (a : Arena) (id : NodeId) (c : Condition) : Traced Arena := do
  let a ← a.retag id (Kind.ofCondition c)
  if c.reversed then do
    let p ← (requireParent a id : Except Fault NodeId)
    a.negateFlag p
  else
    return a

/-- A branch.  Below a jump, or with a comparison of its own, it becomes that comparison.  A
test for truth in the condition slot of a choice hands its operands to the choice.  Elsewhere
a test with a value becomes a choice itself, and any other test its operands. -/
def branch (a : Arena) (id : NodeId) (c : Condition) : Traced Arena := do
  let p ← (requireParent a id : Except Fault NodeId)
  if a.hasKind p .jumpIf || c.comparison?.isSome then do
    Traced.emit (.branchMapped c id)
    mapCondition a id c
  else if a.hasKind p .ternaryIf && a.index id == 1 then do
    Traced.emit (.branchInConditionSlot c id p)
    let a ← mapCondition a id c
    a.retag p .ternaryIfBoolean
  else if (a.children id).length == 2 then do
    Traced.emit (.branchFolded c id)
    let (a, operands) ← (a.splitOff id 0 : Except Fault (Arena × List Child))
    let a ← a.update id .ternaryIfBoolean (.leaf (.bool c.reversed) :: operands)
    ternaryIfBoolean a id
  else
    mapCondition a id c

/-! ### Coercions -/

/-- Replaces the child at a position by its operand as long as it is a coercion.  `fuel`
bounds the number of rounds. -/
def stripAt (id : NodeId) (i : Nat) : Nat → Arena → Traced Arena
  | 0, _ => Traced.fail .cyclic
  | fuel + 1, a => do
    let s ← (a.slot id : Except Fault Slot)
    match s.children[i]? with
    | none => Traced.fail .outOfBounds
    | some (.leaf _) => return a
    | some (.node n) =>
      if a.hasKind n .coerceB then
        match a.child? n 0 with
        | none => Traced.fail (.coercionWithoutOperand n)
        | some operand => do
          Traced.emit (.coercionStripped n s.kind id)
          let (a, _) ← (a.replaceChild id i operand : Except Fault (Arena × Child))
          stripAt id i fuel a
      else
        return a

/-- Strips the coercions from every child of a node.  In a tree, one round for each slot is
enough at every position; `slack` allows for more where coercions stand below each other. -/
def stripCoercions (slack : Nat) (a : Arena) (id : NodeId) : Traced Arena :=
  (List.range (a.children id).length).foldlM
    (fun a i => stripAt id i (a.size + 1 + slack) a) a

/-! ### The pass -/

/-- The rule for each kind.  `slack` is the one of `stripCoercions`. -/
def handle (slack : Nat) : Handler Traced := fun a id kind =>
  match kind with
  | .pop => pop a id
  | .callPropertyVoid => a.retag id .callProperty
  | .callSuperVoid => a.retag id .callSuper
  | .branch c => branch a id c
  | .ternaryIf => ternaryIf a id
  | .ternaryIfBoolean => ternaryIfBoolean a id
  | .and | .or | .jumpIf => stripCoercions slack a id
  | .kill | .debug | .debugFile | .debugLine => hint a id
  | .nop | .expand | .callProperty | .callSuper | .ternary | .coerceB | .compare _ | .other _ =>
    pure a

end Normalize

namespace Arena

/-- Normalises a tree. -/
def normalize (a : Arena) : Traced Arena := do
  Traced.emit (.normalizing a.root a.size)
  Walk.run (Normalize.handle a.walkBound) a

end Arena

end Unstack
