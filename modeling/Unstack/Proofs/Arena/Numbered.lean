import Unstack.Proofs.Arena.Building

/-! # The numbers of a new arena

The arena of a tree that was read can be written down at once: a placeholder, and then the nodes of
the tree, children before parents.  A tree whose nodes are numbered from `start` on has its root at
the last number, so the number of a child is known from the sizes of the trees before it.

`ofTree_eq_numbered` says that adding the nodes one by one, each above children that were added
before it, comes to the same. -/

namespace Unstack

namespace Tree

mutual

/-- How many nodes a tree has. -/
def nodeCount : Tree → Nat
  | leaf _ => 0
  | node _ _ ts => nodeCounts ts + 1

/-- How many nodes several trees have. -/
def nodeCounts : List Tree → Nat
  | [] => 0
  | t :: ts => t.nodeCount + nodeCounts ts

end

/-- The child that stands for a tree whose nodes are numbered from `start` on. -/
def childFrom (start : Nat) : Tree → Child
  | leaf l => .leaf l
  | node _ _ ts => .node (start + nodeCounts ts)

/-- The children that stand for several trees, numbered one after the other. -/
def childrenFrom (start : Nat) : List Tree → List Child
  | [] => []
  | t :: ts => t.childFrom start :: childrenFrom (start + t.nodeCount) ts

mutual

/-- The slots of a tree numbered from `start` on; its root has the given parent and position. -/
def slotsFrom (start : Nat) (parent : Option NodeId) (index : Nat) : Tree → List Slot
  | leaf _ => []
  | node kind note ts =>
    slotsBelow start (start + nodeCounts ts) 0 ts
      ++ [⟨kind, childrenFrom start ts, parent, index, note⟩]

/-- The slots of the children of `parent` whose positions start with `index`. -/
def slotsBelow (start : Nat) (parent : NodeId) (index : Nat) : List Tree → List Slot
  | [] => []
  | t :: ts =>
    t.slotsFrom start (some parent) index ++ slotsBelow (start + t.nodeCount) parent (index + 1) ts

end

/-- The slots of several trees that have no parent yet. -/
def looseSlots (start : Nat) : List Tree → List Slot
  | [] => []
  | t :: ts => t.slotsFrom start none 0 ++ looseSlots (start + t.nodeCount) ts

end Tree

namespace Arena

/-- The arena of a tree: a placeholder, the nodes in post-order, and the last of them as root. -/
def numbered (t : Tree) : Arena where
  slots := (⟨.other "<document>", [], none, 0, none⟩ :: t.slotsFrom 1 none 0).toArray
  root := t.nodeCount

open Unstack.Tree

variable {a : Arena} {ts : List Tree}

mutual

theorem length_slotsFrom (start : Nat) (parent : Option NodeId) (index : Nat) (t : Tree) :
    (t.slotsFrom start parent index).length = t.nodeCount := by
  cases t with
  | leaf l => simp [slotsFrom, nodeCount]
  | node kind note ts => simp [slotsFrom, nodeCount, length_slotsBelow]

theorem length_slotsBelow (start : Nat) (parent : NodeId) (index : Nat) (ts : List Tree) :
    (slotsBelow start parent index ts).length = nodeCounts ts := by
  cases ts with
  | nil => simp [slotsBelow, nodeCounts]
  | cons t ts => simp [slotsBelow, nodeCounts, length_slotsFrom, length_slotsBelow]

end

theorem length_looseSlots (start : Nat) (ts : List Tree) :
    (looseSlots start ts).length = nodeCounts ts := by
  induction ts generalizing start with
  | nil => simp [looseSlots, nodeCounts]
  | cons t ts ih => simp [looseSlots, nodeCounts, length_slotsFrom, ih]

/-! ### More slots -/

/-- The arena with more slots behind those it has. -/
def pushAll (a : Arena) (ss : List Slot) : Arena := { a with slots := a.slots ++ ss.toArray }

theorem size_pushAll (a : Arena) (ss : List Slot) : (a.pushAll ss).size = a.size + ss.length := by
  simp [pushAll, size]

theorem pushAll_pushAll (a : Arena) (ss ss' : List Slot) :
    (a.pushAll ss).pushAll ss' = a.pushAll (ss ++ ss') := by
  simp [pushAll]

theorem push_eq_pushAll (a : Arena) (k : Kind) (o : Option Note) :
    a.push k o = a.pushAll [⟨k, [], none, 0, o⟩] := by
  simp [push, pushAll]

theorem modify_append_cons {α : Type} (xs : List α) (x : α) (ys : List α) (f : α → α) :
    (xs ++ x :: ys).modify xs.length f = xs ++ f x :: ys := by
  induction xs with
  | nil => rfl
  | cons y xs ih => exact congrArg (y :: ·) ih

/-- A change to one of the new slots. -/
theorem modify_pushAll (a : Arena) (before : List Slot) (s : Slot) (behind : List Slot)
    (f : Slot → Slot) {n : NodeId} (hn : n = a.size + before.length) :
    (a.pushAll (before ++ s :: behind)).modify n f = a.pushAll (before ++ f s :: behind) := by
  have hslots : (a.slots ++ (before ++ s :: behind).toArray).modify n f
      = a.slots ++ (before ++ f s :: behind).toArray := by
    apply Array.ext'
    rw [Array.toList_modify, Array.toList_append, Array.toList_append, ← List.append_assoc,
      ← List.append_assoc, ← modify_append_cons, hn]
    simp [size]
  unfold modify pushAll
  rw [hslots]

/-- Storing their parent and positions with trees that have none. -/
theorem foldl_place_pushAll (p : NodeId) (i : Nat) (before behind : List Slot) (ts : List Tree)
    {start : Nat} (hstart : start = a.size + before.length) :
    ((childrenFrom start ts).zipIdx i).foldl (fun a c =>
        match c.1 with
        | .node n => a.place p c.2 n
        | .leaf _ => a) (a.pushAll (before ++ (looseSlots start ts ++ behind)))
      = a.pushAll (before ++ (slotsBelow start p i ts ++ behind)) := by
  induction ts generalizing i before start with
  | nil => rfl
  | cons t ts ih =>
      have hlength : start + t.nodeCount
          = a.size + (before ++ t.slotsFrom start (some p) i).length := by
        rw [List.length_append, length_slotsFrom]
        omega
      have hnext := ih (i + 1) (before ++ t.slotsFrom start (some p) i) hlength
      rw [childrenFrom, List.zipIdx_cons, List.foldl_cons, looseSlots, slotsBelow]
      simp only [List.append_assoc] at hnext ⊢
      rw [← hnext]
      congr 1
      cases t with
      | leaf l => rfl
      | node k o us =>
          simp only [childFrom, slotsFrom, List.append_assoc, List.cons_append, List.nil_append,
            place]
          rw [← List.append_assoc, modify_pushAll, List.append_assoc]
          rw [List.length_append, length_slotsBelow, hstart]
          exact Nat.add_assoc _ _ _

/-! ### One node -/

theorem detachAll_of_orphans {ns : List NodeId} (h : ∀ x ∈ ns, a.parent? x = none) :
    a.detachAll ns = a := by
  induction ns with
  | nil => rfl
  | cons n ns ih =>
      obtain ⟨hn, hns⟩ := List.forall_mem_cons.mp h
      show (a.detach n).detachAll ns = a
      rw [detach_of_orphan hn, ih hns]

/-- A new node above children without parents. -/
theorem assign_push {b : Arena} {cs : List Child} (horphan : ∀ x ∈ nodesOf cs, b.parent? x = none)
    (k : Kind) (o : Option Note) :
    (b.push k o).assign b.size cs = (b.pushAll [⟨k, cs, none, 0, o⟩]).reindex b.size := by
  have hclear : (b.push k o).clear b.size = b.push k o := by
    have hnone : (b.push k o).childNodes b.size = [] := by
      rw [childNodes, children_push, children, (slot?_eq_none_iff b b.size).mpr (Nat.le_refl _)]
      rfl
    rw [clear, hnone, push_eq_pushAll]
    exact modify_pushAll b [] _ [] _ rfl
  have hdetach : (b.push k o).detachAll (nodesOf cs) = b.push k o := by
    refine detachAll_of_orphans fun x hx => ?_
    rw [parent?_push, horphan x hx]
  rw [assign_eq, hclear, hdetach, relist, push_eq_pushAll]
  congr 1
  exact modify_pushAll b [] _ [] _ rfl

theorem alloc_eq {b : Arena} (hb : b = a.pushAll (looseSlots a.size ts))
    (horphan : ∀ x ∈ nodesOf (childrenFrom a.size ts), b.parent? x = none) (k : Kind)
    (o : Option Note) :
    (b.push k o).assign b.size (childrenFrom a.size ts)
      = a.pushAll ((Tree.node k o ts).slotsFrom a.size none 0) := by
  have hsize : b.size = a.size + nodeCounts ts := by
    rw [hb, size_pushAll, length_looseSlots]
  have hchildren : (b.pushAll [⟨k, childrenFrom a.size ts, none, 0, o⟩]).children b.size
      = childrenFrom a.size ts := by
    simp [children, slot?, pushAll, size]
  rw [assign_push horphan, reindex, hchildren, hsize, slotsFrom]
  rw [hb, pushAll_pushAll]
  exact foldl_place_pushAll (a.size + nodeCounts ts) 0 [] _ ts rfl

/-! ### Trees -/

theorem graftAll_eq
    (ih : ∀ t ∈ ts, ∀ a : Arena, a.WellFormed →
      a.graft t = (a.pushAll (t.slotsFrom a.size none 0), t.childFrom a.size))
    (h : a.WellFormed) :
    a.graftAll ts = (a.pushAll (looseSlots a.size ts), childrenFrom a.size ts) := by
  induction ts generalizing a with
  | nil => simp [graftAll, looseSlots, childrenFrom, pushAll]
  | cons t ts ihts =>
      have hwf := (grafted_graft h t).grown.wellFormed
      have hone := ih t List.mem_cons_self a h
      rw [hone] at hwf
      have hall := ihts (fun u hu => ih u (List.mem_cons_of_mem _ hu)) hwf
      rw [size_pushAll, length_slotsFrom, pushAll_pushAll] at hall
      rw [graftAll, hone]
      dsimp only
      rw [hall]
      rfl

theorem graft_eq (h : a.WellFormed) (t : Tree) :
    a.graft t = (a.pushAll (t.slotsFrom a.size none 0), t.childFrom a.size) := by
  induction t using Tree.induction generalizing a with
  | leaf l => simp [graft, slotsFrom, childFrom, pushAll]
  | node k o ts ih =>
      have hall := graftAll_eq (fun t ht a ha => ih t ht ha) h
      have hgrafted : Grafted a (a.graftAll ts).1 (a.graftAll ts).2 ts :=
        grafted_graftAll (fun t _ a ha => grafted_graft ha t) h
      have hfresh := hgrafted.fresh.orphan
      rw [hall] at hfresh
      rw [graft, hall]
      dsimp only [alloc]
      rw [alloc_eq rfl hfresh, childFrom, size_pushAll, length_looseSlots]

/-- **The arena of a tree** has the tree's nodes in post-order behind the placeholder. -/
theorem ofTree_eq_numbered (t : Tree) : ofTree t = numbered t := by
  unfold ofTree
  rw [graft_eq (wellFormed_single _ _)]
  cases t with
  | leaf l => simp [childFrom, slotsFrom, numbered, nodeCount, pushAll, single]
  | node k o ts =>
      have hsize : (single (.other "<document>") none).size = 1 := rfl
      simp only [childFrom, numbered, nodeCount, pushAll, hsize, Nat.add_comm 1]
      congr 1
      simp [single]

end Arena

end Unstack
