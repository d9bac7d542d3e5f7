import Unstack.Arena.Bound
import Unstack.Arena.Edit

/-! # Splicing expansions

An `expand` node stands for its children.  Splicing puts them in its place. -/

namespace Unstack.Arena

/-- Whether a child is an `expand` node. -/
def isExpansion (a : Arena) : Child → Bool
  | .leaf _ => false
  | .node n => a.hasKind n .expand

/-- Runs through the former children of `id`: an expansion is emptied and gives its children,
anything else stays. -/
def gather (id : NodeId) : Arena → List Child → Traced (Arena × List Child)
  | a, [] => pure (a, [])
  | a, c :: cs =>
    match c with
    | .leaf l => do
      let (a, rest) ← gather id a cs
      return (a, .leaf l :: rest)
    | .node n =>
      if a.hasKind n .expand then do
        Traced.emit (.spliced n id)
        let own := a.children n
        let (a, rest) ← gather id ((a.orphan n).setList n []) cs
        return (a, own ++ rest)
      else do
        let (a, rest) ← gather id a cs
        return (a, .node n :: rest)

/-- Puts the children of every `expand` child of `id` in its place.  Also says whether there
was one. -/
def spliceExpanded (a : Arena) (id : NodeId) : Traced (Arena × Bool) := do
  let s ← (a.slot id : Except Fault Slot)
  if s.children.any a.isExpansion then do
    let (a, spliced) ← gather id (a.setList id []) s.children
    return ((a.setList id spliced).reindex id, true)
  else
    return (a, false)

/-- Splices below `id` and then at `id` itself, the last child first.  `depth` bounds the
nesting. -/
def spliceBelow : Nat → Arena → NodeId → Traced Arena
  | 0, _, _ => Traced.fail .cyclic
  | depth + 1, a, id => do
    let a ← (a.childNodes id).reverse.foldlM (spliceBelow depth) a
    let (a, _) ← a.spliceExpanded id
    return a

/-- Splices every `expand` node below the root into its parent.  An `expand` root stays. -/
def spliceAll (a : Arena) : Traced Arena := spliceBelow a.walkBound a a.root

end Unstack.Arena
