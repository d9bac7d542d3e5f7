import Unstack.Arena.Basic

/-! # How far a walk can go

In a tree no path has more nodes than there are slots.  Edits can also leave an arena that is
no tree: a node may be listed twice, or stand below itself.  Splicing and normalising may come
to an end even there, because they edit the arena on their way and can thereby open a loop.
The bound of this module is large enough for every such walk that ends.

* **Edits are limited.**  Every edit of a walk either moves a kind on towards its final form,
  which happens at most twice for each slot; or takes a node out of a list, of which there are
  `linkCount` to begin with and at most one more for each `pop`; or replaces a coercion among
  the operands of a boolean consumer for good.  Of the last sort there are, between two of the
  others, no more than there are links.  With `extent` for one more than the number of links
  and slots, that makes at most `3 * extent * extent` edits.
* **Between edits nothing comes back.**  A walk that reaches a node again below itself, with no
  edit in between, does the same once more and never ends.  So a path that ends has between two
  edits no more nodes than there are slots, which are at most twice those at the start. -/

namespace Unstack.Arena

/-- How many nodes the lists of all slots hold together. -/
def linkCount (a : Arena) : Nat :=
  a.slots.foldl (fun n s => n + (nodesOf s.children).length) 0

/-- A depth that splicing and normalising exceed only if they have no end. -/
def walkBound (a : Arena) : Nat :=
  let extent := a.linkCount + a.size + 1
  8 * (extent * extent * extent)

/-- The bound leaves room for every path of a tree. -/
theorem size_lt_walkBound (a : Arena) : a.size < a.walkBound := by
  have square : 1 ≤ (a.linkCount + a.size + 1) * (a.linkCount + a.size + 1) :=
    Nat.mul_pos (Nat.succ_pos _) (Nat.succ_pos _)
  have cube := Nat.mul_le_mul_right (a.linkCount + a.size + 1) square
  simp only [walkBound]
  omega

end Unstack.Arena
