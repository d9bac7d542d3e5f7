import Unstack.Tree
import Unstack.Fault

/-! # Arenas

An arena holds a tree under edit.  Every node lives in a numbered slot that is never given up,
so a number stays good however the tree changes around it.

* **Ownership.**  A slot lists its children; that list is what makes the tree.
* **Back links.**  A slot also stores its parent and its position there.  A node that has
  been taken out has no parent; its stored position is then left over.
* **Primitives.**  The operations in this module always succeed: on a slot that does not
  exist they do nothing.  `Unstack.Arena.Edit` puts the checks in front of them. -/

namespace Unstack

/-- A child of a node: a constant, or the slot of another node. -/
inductive Child where
  | leaf (value : Leaf)
  | node (id : NodeId)
deriving DecidableEq, Repr

namespace Child

/-- The slot of a node child. -/
def node? : Child → Option NodeId
  | leaf _ => none
  | node id => some id

/-- Nodes count as true. -/
def truthy : Child → Bool
  | leaf l => l.truthy
  | node _ => true

end Child

/-- The node children of a list, in order. -/
def nodesOf (cs : List Child) : List NodeId := cs.filterMap Child.node?

/-- A node of an arena. -/
structure Slot where
  kind : Kind
  children : List Child
  parent : Option NodeId
  index : Nat
  note : Option Note
deriving DecidableEq, Repr

/-- A tree under edit. -/
structure Arena where
  slots : Array Slot
  root : NodeId
deriving DecidableEq, Repr

namespace Arena

/-! ### Looking -/

/-- How many slots there are, those of nodes taken out included. -/
def size (a : Arena) : Nat := a.slots.size

/-- The slot with a given number. -/
def slot? (a : Arena) (id : NodeId) : Option Slot := a.slots[id]?

/-- The slot with a given number, or a fault. -/
def slot (a : Arena) (id : NodeId) : Except Fault Slot :=
  match a.slot? id with
  | some s => .ok s
  | none => .error .outOfBounds

/-- The kind of a node. -/
def kind? (a : Arena) (id : NodeId) : Option Kind := (a.slot? id).map Slot.kind

/-- Whether a node has the given kind. -/
def hasKind (a : Arena) (id : NodeId) (kind : Kind) : Bool := a.kind? id == some kind

/-- The children of a node. -/
def children (a : Arena) (id : NodeId) : List Child :=
  match a.slot? id with
  | some s => s.children
  | none => []

/-- The child of a node at a position. -/
def child? (a : Arena) (id : NodeId) (i : Nat) : Option Child := (a.children id)[i]?

/-- The node children of a node, in order. -/
def childNodes (a : Arena) (id : NodeId) : List NodeId := nodesOf (a.children id)

/-- The parent of a node. -/
def parent? (a : Arena) (id : NodeId) : Option NodeId := (a.slot? id).bind Slot.parent

/-- The stored position of a node. -/
def index (a : Arena) (id : NodeId) : Nat :=
  match a.slot? id with
  | some s => s.index
  | none => 0

/-- What is remembered about a node. -/
def note? (a : Arena) (id : NodeId) : Option Note := (a.slot? id).bind Slot.note

/-! ### Primitive changes -/

/-- Changes one slot. -/
def modify (a : Arena) (id : NodeId) (f : Slot → Slot) : Arena :=
  { a with slots := a.slots.modify id f }

/-- Sets the kind of a node. -/
def setKind (a : Arena) (id : NodeId) (kind : Kind) : Arena :=
  a.modify id fun s => { s with kind }

/-- Sets the list of children of a node, and nothing else. -/
def setList (a : Arena) (id : NodeId) (children : List Child) : Arena :=
  a.modify id fun s => { s with children }

/-- Sets what is remembered about a node. -/
def setNote (a : Arena) (id : NodeId) (note : Option Note) : Arena :=
  a.modify id fun s => { s with note }

/-- Forgets the parent of a node. -/
def orphan (a : Arena) (id : NodeId) : Arena :=
  a.modify id fun s => { s with parent := none }

/-- Stores a parent and a position with a node. -/
def place (a : Arena) (parent : NodeId) (i : Nat) (id : NodeId) : Arena :=
  a.modify id fun s => { s with parent := some parent, index := i }

/-- Forgets the parent of a node if it is the given one. -/
def release (a : Arena) (parent : NodeId) (id : NodeId) : Arena :=
  if a.parent? id = some parent then a.orphan id else a

/-- Stores with every node child of `id` its parent and its position. -/
def reindex (a : Arena) (id : NodeId) : Arena :=
  (a.children id).zipIdx.foldl (fun a c =>
    match c.1 with
    | .node n => a.place id c.2 n
    | .leaf _ => a) a

/-- Takes a node out of its parent.  The parent's list loses the entry at the stored position
if the node really stands there, and the siblings move up. -/
def detach (a : Arena) (id : NodeId) : Arena :=
  match a.parent? id with
  | none => a
  | some p =>
    let a := a.orphan id
    if a.child? p (a.index id) = some (.node id) then
      (a.setList p ((a.children p).eraseIdx (a.index id))).reindex p
    else a

/-- Takes several nodes out of their parents. -/
def detachAll (a : Arena) (ids : List NodeId) : Arena := ids.foldl detach a

/-- Gives a node new children in place of its old ones: the old ones are released, the new
ones taken out of their parents. -/
def assign (a : Arena) (id : NodeId) (children : List Child) : Arena :=
  let old := a.childNodes id
  let released := old.foldl (fun a c => a.release id c) (a.setList id [])
  ((released.detachAll (nodesOf children)).setList id children).reindex id

/-- Adds a slot for a node without children or parent. -/
def push (a : Arena) (kind : Kind) (note : Option Note) : Arena :=
  { a with slots := a.slots.push ⟨kind, [], none, 0, note⟩ }

/-- Adds a node with the given children. -/
def alloc (a : Arena) (kind : Kind) (children : List Child) (note : Option Note) :
    Arena × NodeId :=
  let id := a.size
  ((a.push kind note).assign id children, id)

/-- An arena with a single node. -/
def single (kind : Kind) (note : Option Note) : Arena :=
  { slots := #[⟨kind, [], none, 0, note⟩], root := 0 }

/-! ### The view of a slot -/

@[simp] theorem slot?_modify (a : Arena) (id j : NodeId) (f : Slot → Slot) :
    (a.modify id f).slot? j = if j = id then (a.slot? j).map f else a.slot? j := by
  by_cases h : j = id
  · subst h
    simp [modify, slot?, Array.getElem?_modify]
  · have h' : id ≠ j := fun e => h e.symm
    simp [modify, slot?, h, h', Array.getElem?_modify]

@[simp] theorem size_modify (a : Arena) (id : NodeId) (f : Slot → Slot) :
    (a.modify id f).size = a.size := by
  simp [modify, size]

@[simp] theorem root_modify (a : Arena) (id : NodeId) (f : Slot → Slot) :
    (a.modify id f).root = a.root := rfl

theorem slot?_eq_none_iff (a : Arena) (id : NodeId) : a.slot? id = none ↔ a.size ≤ id := by
  simp [slot?, size]

theorem slot?_push (a : Arena) (kind : Kind) (note : Option Note) (j : NodeId) :
    (a.push kind note).slot? j
      = if j = a.size then some ⟨kind, [], none, 0, note⟩ else a.slot? j := by
  show (a.slots.push _)[j]? = _
  rw [Array.getElem?_push]
  rfl

@[simp] theorem size_push (a : Arena) (kind : Kind) (note : Option Note) :
    (a.push kind note).size = a.size + 1 := by
  simp [push, size]

/-! ### The number of slots

No primitive change gives a slot up, and only `push` makes one. -/

theorem size_foldl {β : Type} (f : Arena → β → Arena) (hf : ∀ a b, (f a b).size = a.size)
    (xs : List β) (a : Arena) : (xs.foldl f a).size = a.size := by
  induction xs generalizing a with
  | nil => rfl
  | cons x xs ih => rw [List.foldl_cons, ih, hf]

@[simp] theorem size_setKind (a : Arena) (id : NodeId) (kind : Kind) :
    (a.setKind id kind).size = a.size := size_modify ..

@[simp] theorem size_setList (a : Arena) (id : NodeId) (cs : List Child) :
    (a.setList id cs).size = a.size := size_modify ..

@[simp] theorem size_setNote (a : Arena) (id : NodeId) (note : Option Note) :
    (a.setNote id note).size = a.size := size_modify ..

@[simp] theorem size_orphan (a : Arena) (id : NodeId) : (a.orphan id).size = a.size :=
  size_modify ..

@[simp] theorem size_place (a : Arena) (parent : NodeId) (i : Nat) (id : NodeId) :
    (a.place parent i id).size = a.size := size_modify ..

@[simp] theorem size_release (a : Arena) (parent id : NodeId) :
    (a.release parent id).size = a.size := by
  unfold release
  split
  · exact size_orphan a id
  · rfl

@[simp] theorem size_reindex (a : Arena) (id : NodeId) : (a.reindex id).size = a.size := by
  refine size_foldl _ (fun a c => ?_) _ a
  split
  · exact size_place ..
  · rfl

@[simp] theorem size_detach (a : Arena) (id : NodeId) : (a.detach id).size = a.size := by
  unfold detach
  split
  · rfl
  · simp only
    split
    · rw [size_reindex, size_setList, size_orphan]
    · exact size_orphan a id

@[simp] theorem size_detachAll (a : Arena) (ids : List NodeId) :
    (a.detachAll ids).size = a.size :=
  size_foldl detach size_detach ids a

@[simp] theorem size_assign (a : Arena) (id : NodeId) (cs : List Child) :
    (a.assign id cs).size = a.size := by
  have h := size_foldl (fun a c => a.release id c) (fun a c => size_release a id c)
    (a.childNodes id) (a.setList id [])
  simp only [assign, size_reindex, size_setList, size_detachAll]
  rw [h, size_setList]

@[simp] theorem size_alloc (a : Arena) (kind : Kind) (cs : List Child) (note : Option Note) :
    (a.alloc kind cs note).1.size = a.size + 1 := by
  simp [alloc]

end Arena

end Unstack
