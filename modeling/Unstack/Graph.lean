/-! # Directed graphs

A graph whose nodes stand in a row and are known by their place in it.

* **Places.**  A new node comes last.  When a node is removed, the last one moves into its place,
  and edges follow it there.
* **Edges.**  Edges are kept in the order in which they were made, the newest first; two nodes
  may have several.
* **Sorting.**  `Graph.sort` searches depth-first with a stack of its own and lists the nodes last
  finished first.  A node may stand on the stack more than once; only the first of its entries
  counts.  The list is then checked once more against the edges. -/

namespace Unstack

/-- A directed graph.  An edge is the place of its source and that of its target. -/
structure Graph (β : Type) where
  nodes : List β
  edges : List (Nat × Nat)
deriving DecidableEq, Repr

namespace Graph

variable {β : Type}

/-- The graph without nodes. -/
def empty : Graph β := ⟨[], []⟩

/-- How many nodes there are. -/
def size (g : Graph β) : Nat := g.nodes.length

/-- The node at a place. -/
def node? (g : Graph β) (i : Nat) : Option β := g.nodes[i]?

/-- Adds a node at the end, and gives its place. -/
def addNode (g : Graph β) (x : β) : Graph β × Nat := (⟨g.nodes ++ [x], g.edges⟩, g.size)

/-- Adds an edge. -/
def addEdge (g : Graph β) (i j : Nat) : Graph β := { g with edges := (i, j) :: g.edges }

/-! ### Removal -/

/-- A list without the entry at a position; the last entry takes its place. -/
def swapRemove (xs : List β) (i : Nat) : List β :=
  match xs.getLast? with
  | none => []
  | some last => (xs.set i last).dropLast

/-- The place of the node at `j` after the last node has moved to `i`. -/
def moved (last i j : Nat) : Nat := if j = last then i else j

/-- The graph without the node at a place and its edges, and that node. -/
def removeNode (g : Graph β) (i : Nat) : Option β × Graph β :=
  match g.node? i with
  | none => (none, g)
  | some x =>
    let kept := g.edges.filter fun e => e.1 != i && e.2 != i
    let follow := moved (g.size - 1) i
    (some x, ⟨swapRemove g.nodes i, kept.map fun e => (follow e.1, follow e.2)⟩)

/-! ### Sorting -/

/-- The targets of the edges from a node, the newest edge first. -/
def successors (g : Graph β) (i : Nat) : List Nat := (g.edges.filter (·.1 == i)).map Prod.snd

/-- The sources of the edges to a node, the newest edge first. -/
def predecessors (g : Graph β) (i : Nat) : List Nat := (g.edges.filter (·.2 == i)).map Prod.fst

/-- A depth-first search under way. -/
structure Search where
  /-- What is still to be looked at, the next one first. -/
  stack : List Nat
  unreached : List Nat
  /-- The finished nodes, the last one first. -/
  finished : List Nat
deriving DecidableEq, Repr

/-- The unreached successors of a node other than itself, the one with the oldest edge first. -/
def next (g : Graph β) (s : Search) (i : Nat) : List Nat :=
  ((g.successors i).filter ((s.unreached.erase i).contains ·)).reverse

/-- Reaches a node.  It stays on the stack, below its unreached successors. -/
def enter (g : Graph β) (s : Search) (i : Nat) : Search :=
  { s with unreached := s.unreached.erase i, stack := g.next s i ++ s.stack }

/-- Takes a node off the stack, above `rest`.  The first time finishes it. -/
def Search.leave (s : Search) (i : Nat) (rest : List Nat) : Search :=
  { s with
    stack := rest
    finished := if s.finished.contains i then s.finished else i :: s.finished }

/-- Searches until the stack is empty.  A node with an edge to itself ends the search. -/
def drain (g : Graph β) (s : Search) : Except Nat Search :=
  match _hs : s.stack with
  | [] => .ok s
  | i :: rest =>
    if i ∈ s.unreached then
      if i ∈ g.successors i then .error i else g.drain (g.enter s i)
    else g.drain (s.leave i rest)
termination_by (s.unreached.length, s.stack.length)
decreasing_by
  · have hi : i ∈ s.unreached := by assumption
    have hpos : 0 < s.unreached.length := List.length_pos_of_mem hi
    refine Prod.Lex.left _ _ ?_
    simp only [enter, List.length_erase_of_mem hi]
    omega
  · refine Prod.Lex.right _ ?_
    simp [Search.leave, _hs]

/-- The nodes, last finished first. -/
def finishOrder (g : Graph β) : Except Nat (List Nat) := do
  let start : Search := ⟨[], List.range g.size, []⟩
  let s ← (List.range g.size).foldlM (fun s i =>
    if i ∈ s.unreached then g.drain { s with stack := [i] } else .ok s) start
  return s.finished

/-- Every node has its predecessors in front of it; `seen` holds the nodes already passed.  The
error is a predecessor that comes later. -/
def requireForward (g : Graph β) (seen : List Nat) : List Nat → Except Nat Unit
  | [] => .ok ()
  | i :: is =>
    let seen := i :: seen
    match ((g.predecessors i).filter (!seen.contains ·)).getLast? with
    | some j => .error j
    | none => g.requireForward seen is

/-- The places of the nodes, sources of edges before their targets.  The error is a node on a
cycle. -/
def sort (g : Graph β) : Except Nat (List Nat) := do
  let order ← g.finishOrder
  g.requireForward [] order
  return order

end Graph

end Unstack
