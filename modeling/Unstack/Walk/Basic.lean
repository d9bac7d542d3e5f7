import Unstack.Arena.Splice

/-! # Walking a tree

A walk hands every node to a handler, children before their parent.  The children of a node
are listed when the walk reaches it; one that has been moved elsewhere in the meantime is
passed over.  When all children are done, expansions among them are spliced into the node, and
then the node itself is handed over with the kind it has by then.

The walk works in any monad above `Traced`, so that a handler can also keep records. -/

namespace Unstack

/-- What a walk does at a node of a given kind. -/
abbrev Handler (m : Type → Type) := Arena → NodeId → Kind → m Arena

namespace Walk

variable {m : Type → Type} [Monad m] [MonadLiftT Traced m]

/-- Walks the tree below `id`.  `depth` bounds the nesting. -/
def visit (handle : Handler m) : Nat → Arena → NodeId → m Arena
  | 0, _, _ => liftM (Traced.fail .cyclic : Traced Arena)
  | depth + 1, a, id => do
    let a ← (a.childNodes id).foldlM (fun a c =>
      if a.parent? c = some id then visit handle depth a c else pure a) a
    let (a, _) ← liftM (a.spliceExpanded id)
    let s ← liftM (Traced.ofExcept (a.slot id))
    handle a id s.kind

/-- Walks the whole tree. -/
def run (handle : Handler m) (a : Arena) : m Arena := visit handle a.walkBound a a.root

end Walk

end Unstack
