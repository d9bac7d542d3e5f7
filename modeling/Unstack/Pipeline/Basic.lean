import Unstack.Graph

/-! # Pipelines of transforms

A pipeline is a set of named transforms, some of which must run after others.

* **Graph.**  The transforms are the nodes of a graph, with an edge from each to those that must
  run after it.  Edges are made when the later transform is added.  Removing a transform drops
  its edges for good.
* **Table.**  A table gives for each name the place of its transform in the graph.  A removal
  moves the last transform of the graph, and the table follows.
* **Order.**  Transforms run in the order in which the graph is sorted. -/

namespace Unstack

/-- A named step and the steps it runs after. -/
structure Transform (α : Type) where
  id : String
  dependencies : List String
  action : α
deriving DecidableEq, Repr

/-- The places of transforms, by name. -/
structure PlaceTable where
  entries : List (String × Nat)
deriving DecidableEq, Repr

namespace PlaceTable

/-- The place of a name. -/
def get? (m : PlaceTable) (id : String) : Option Nat := m.entries.lookup id

/-- The table without a name. -/
def erase (m : PlaceTable) (id : String) : PlaceTable := ⟨m.entries.filter (·.1 != id)⟩

/-- The table with a name at a place, whatever it had for the name before. -/
def insert (m : PlaceTable) (id : String) (i : Nat) : PlaceTable :=
  ⟨(id, i) :: (m.erase id).entries⟩

end PlaceTable

/-- Transforms and the order between them. -/
structure Pipeline (α : Type) where
  graph : Graph (Transform α)
  table : PlaceTable
deriving DecidableEq, Repr

/-- Why a transform cannot be added, or transforms cannot be put in order. -/
inductive PipelineError where
  | duplicate (id : String)
  | unknownDependency (id dependency : String)
  | cycle (id : String)
deriving DecidableEq, Repr

namespace PipelineError

/-- The text of the error. -/
def message : PipelineError → String
  | duplicate id => s!"duplicate transform id '{id}'"
  | unknownDependency id dependency =>
    s!"transform '{id}' depends on unknown transform '{dependency}'"
  | cycle id => s!"transform pipeline has a dependency cycle involving '{id}'"

end PipelineError

namespace Pipeline

variable {α : Type}

/-- A pipeline without transforms. -/
def empty : Pipeline α := ⟨.empty, ⟨[]⟩⟩

/-- How many transforms there are. -/
def length (p : Pipeline α) : Nat := p.graph.size

/-- Whether there is a transform of the given name. -/
def contains (p : Pipeline α) (id : String) : Bool := (p.table.get? id).isSome

/-! ### Adding and removing -/

/-- The places of several transforms.  The error is the first name that is missing. -/
def placesOf (p : Pipeline α) : List String → Except String (List Nat)
  | [] => .ok []
  | d :: ds =>
    match p.table.get? d with
    | some i => (p.placesOf ds).map (i :: ·)
    | none => .error d

/-- Adds a transform and edges to it from the given places, unchecked. -/
def append (p : Pipeline α) (t : Transform α) (places : List Nat) : Pipeline α :=
  let (graph, i) := p.graph.addNode t
  ⟨places.foldl (fun g j => g.addEdge j i) graph, p.table.insert t.id i⟩

/-- Adds a transform.  Its name must be new, and everything it runs after must be there. -/
def add (p : Pipeline α) (t : Transform α) : Except PipelineError Unit × Pipeline α :=
  if p.contains t.id then (.error (.duplicate t.id), p)
  else
    match p.placesOf t.dependencies with
    | .error d => (.error (.unknownDependency t.id d), p)
    | .ok places => (.ok (), p.append t places)

/-- Adds several transforms. -/
def addAll (p : Pipeline α) : List (Transform α) → Except PipelineError (Pipeline α)
  | [] => .ok p
  | t :: ts =>
    match p.add t with
    | (.ok (), p) => p.addAll ts
    | (.error e, _) => .error e

/-- Removes a transform and gives it back, if there is one of that name. -/
def remove (p : Pipeline α) (id : String) : Option (Transform α) × Pipeline α :=
  match p.table.get? id with
  | none => (none, p)
  | some i =>
    let table := p.table.erase id
    let (removed, graph) := p.graph.removeNode i
    match graph.node? i with
    | some moved => (removed, ⟨graph, table.insert moved.id i⟩)
    | none => (removed, ⟨graph, table⟩)

/-! ### Order -/

/-- The transforms in the order in which they run. -/
def ordered (p : Pipeline α) : Except PipelineError (List (Transform α)) :=
  match p.graph.sort with
  | .ok places => .ok (places.filterMap p.graph.node?)
  | .error i => .error (.cycle (((p.graph.node? i).map Transform.id).getD ""))

/-- The names of the transforms in the order in which they run. -/
def order (p : Pipeline α) : Except PipelineError (List String) :=
  p.ordered.map fun ts => ts.map Transform.id

end Pipeline

end Unstack
