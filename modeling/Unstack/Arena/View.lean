import Unstack.Arena.Basic

/-! # Arenas and trees

The tree below a node, the nodes below a node, and the arena of a tree.  A path in a tree has
no more nodes than the arena has slots.  Reading changes nothing, so a longer path has no end,
and that number bounds the depth. -/

namespace Unstack.Arena

/-- The tree below a node, to a given depth. -/
def treeBelow (a : Arena) : Nat → NodeId → Except Fault Tree
  | 0, _ => .error .cyclic
  | depth + 1, id => do
    let s ← a.slot id
    let children ← s.children.mapM fun
      | .leaf l => pure (Tree.leaf l)
      | .node n => treeBelow a depth n
    return .node s.kind s.note children

/-- The tree below a node. -/
def treeAt (a : Arena) (id : NodeId) : Except Fault Tree := a.treeBelow (a.size + 1) id

/-- The whole tree. -/
def tree (a : Arena) : Except Fault Tree := a.treeAt a.root

/-- A node and the nodes below it, parents before children, to a given depth. -/
def nodesBelow (a : Arena) : Nat → NodeId → List NodeId
  | 0, _ => []
  | depth + 1, id => id :: (a.childNodes id).flatMap (nodesBelow a depth)

/-- The nodes of the tree, parents before children and siblings in order. -/
def descendants (a : Arena) : List NodeId := a.nodesBelow (a.size + 1) a.root

mutual

/-- Adds the nodes of a tree, children before parents, and gives the child that stands for
it. -/
def graft (a : Arena) : Tree → Arena × Child
  | .leaf l => (a, .leaf l)
  | .node kind note ts =>
    let (a, children) := graftAll a ts
    let (a, id) := a.alloc kind children note
    (a, .node id)

/-- Adds the nodes of several trees, in order. -/
def graftAll (a : Arena) : List Tree → Arena × List Child
  | [] => (a, [])
  | t :: ts =>
    let (a, c) := graft a t
    let (a, cs) := graftAll a ts
    (a, c :: cs)

end

/-- The arena of a tree that was read.  The first slot is a placeholder that the tree's root
replaces. -/
def ofTree (t : Tree) : Arena :=
  let (a, c) := (single (.other "<document>") none).graft t
  match c with
  | .leaf _ => a
  | .node id => { a with root := id }

end Unstack.Arena
