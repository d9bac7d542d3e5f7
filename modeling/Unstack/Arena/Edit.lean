import Unstack.Arena.Basic
import Unstack.Traced

/-! # Editing an arena

The edits that callers use.  Each checks what it is given and then works through the
primitives, which cannot fail; an edit that stops with a fault has changed nothing. -/

namespace Unstack.Arena

/-! ### Nodes and their children -/

/-- Every given slot exists. -/
def requireSlots (a : Arena) (ids : List NodeId) : Except Fault Unit :=
  if ids.all (· < a.size) then .ok () else .error .outOfBounds

/-- Every given slot may become a child of `id`: it exists and is not `id` itself.  The first
slot in the list that may not decides the fault. -/
def requireAdoptable (a : Arena) (id : NodeId) : List NodeId → Except Fault Unit
  | [] => .ok ()
  | c :: cs =>
    if c = id then .error (.ownChild id)
    else if a.size ≤ c then .error .outOfBounds
    else a.requireAdoptable id cs

/-- Replaces the children of a node. -/
def setChildren (a : Arena) (id : NodeId) (children : List Child) : Except Fault Arena := do
  a.requireSlots [id]
  a.requireAdoptable id (nodesOf children)
  return a.assign id children

/-- Adds a node with the given children. -/
def addNode (a : Arena) (kind : Kind) (children : List Child) (note : Option Note) :
    Except Fault (Arena × NodeId) := do
  (a.push kind note).requireAdoptable a.size (nodesOf children)
  return a.alloc kind children note

/-- Adds a node whose children are constants. -/
def addLeaves (a : Arena) (kind : Kind) (leaves : List Leaf) : Arena × NodeId :=
  a.alloc kind (leaves.map .leaf) none

/-- Makes a node the root and takes it out of its parent. -/
def setRoot (a : Arena) (id : NodeId) : Except Fault Arena := do
  a.requireSlots [id]
  return { a.detach id with root := id }

/-- Replaces what is remembered about a node. -/
def annotate (a : Arena) (id : NodeId) (note : Option Note) : Except Fault Arena := do
  a.requireSlots [id]
  return a.setNote id note

/-- Appends children to a node. -/
def pushChildren (a : Arena) (id : NodeId) (children : List Child) : Except Fault Arena := do
  a.requireSlots (id :: nodesOf children)
  let a := a.detachAll (nodesOf children)
  return (a.setList id (a.children id ++ children)).reindex id

/-- Cuts off the children of a node from a position on, and gives them back.  The nodes among
them are left without a parent. -/
def splitOff (a : Arena) (id : NodeId) (start : Nat) : Except Fault (Arena × List Child) := do
  let s ← a.slot id
  if s.children.length < start then throw .outOfBounds
  let tail := s.children.drop start
  let a := a.setList id (s.children.take start)
  return ((nodesOf tail).foldl orphan a, tail)

/-- Overwrites one child of a node, and gives the former one back.  A node that is put there
is first taken out of its parent, which may be this very node. -/
def replaceChild (a : Arena) (parent : NodeId) (i : Nat) (child : Child) :
    Except Fault (Arena × Child) := do
  a.requireSlots child.node?.toList
  let a := a.detachAll child.node?.toList
  let s ← a.slot parent
  match s.children[i]? with
  | none => throw .outOfBounds
  | some old =>
    let a := a.setList parent (s.children.set i child)
    let a := old.node?.toList.foldl (fun a n => a.release parent n) a
    let a := child.node?.toList.foldl (fun a n => a.place parent i n) a
    return (a, old)

/-! ### Kinds and flags -/

/-- Gives a node a new kind. -/
def retag (a : Arena) (id : NodeId) (kind : Kind) : Traced Arena := do
  let s ← (a.slot id : Except Fault Slot)
  Traced.emit (.updated id s.kind kind)
  return a.setKind id kind

/-- Gives a node a new kind and new children. -/
def update (a : Arena) (id : NodeId) (kind : Kind) (children : List Child) : Traced Arena := do
  let a ← a.retag id kind
  a.setChildren id children

/-- Negates the flag in the first position of a node: it becomes the boolean opposite to its
truth value.  A node in that position is put out. -/
def negateFlag (a : Arena) (id : NodeId) : Traced Arena := do
  let s ← (a.slot id : Except Fault Slot)
  match s.children with
  | [] => Traced.fail (.noFlagSlot s.kind id)
  | flag :: _ =>
    match flag with
    | .leaf _ => pure ()
    | .node n =>
      let t ← (a.slot n : Except Fault Slot)
      Traced.emit (.displacedFlag s.kind n t.kind)
    let r ← (a.replaceChild id 0 (.leaf (.bool !flag.truthy)) : Except Fault (Arena × Child))
    return r.1

end Unstack.Arena
