import Unstack.Proofs.Printing

/-! # What was read, printed and read again

A text that was read gives a tree, and the printed tree is a document again.  It stands for the same
tree, slot by slot, but for one sort of leaf: a numeral beyond the largest finite number is read as
an infinite one, and the text of an infinite number is no numeral but a name.

* **Leaves.**  `Leaf.reread` says what the text of a leaf is read as (`item_leafChars_reread`).
* **Trees.**  Along the grammar of the text that was read, the printed tree is read as the tree with
  its leaves reread (`item_compactOnto_reread`).  Nothing is asked of the tree: kinds that were read
  have symbols for tags.
* **Arenas.**  Rereading leaves numbers all nodes as before (`numbered_reread`), so the arenas
  differ in infinite leaves only. -/

namespace Unstack

open Grammar

namespace Leaf

/-- The leaf that the text of a leaf stands for.  A number that is not finite becomes a text. -/
def reread : Leaf → Leaf
  | .number (.infinity b) => .text (String.ofList (Number.text (.infinity b)))
  | .number .nan => .text (String.ofList (Number.text .nan))
  | l => l

theorem reread_eq_self_iff {l : Leaf} : l.reread = l ↔ l.IsFinite := by
  cases l with
  | number x => cases x <;> simp [reread, IsFinite]
  | nil | bool | int | text => simp [reread, IsFinite]

end Leaf

namespace Printer

theorem item_leafChars_reread {rest : List Char} (hrest : EndsSymbol rest) (l : Leaf) :
    Item (leafChars l ++ rest) (.leaf l.reread) rest := by
  by_cases hl : l.IsFinite
  · rw [Leaf.reread_eq_self_iff.mpr hl]
    exact item_leafChars hrest hl
  · -- the texts of the three numbers that are not finite
    cases l with
    | nil | bool | int | text => exact absurd trivial hl
    | number x =>
        cases x with
        | finite b p => exact absurd ⟨b, p, rfl⟩ hl
        | nan =>
            exact item_of_denotes hrest (denotes_iff.mpr (by decide)) (by decide)
              (not_delimiter_of_all (by decide))
        | infinity b =>
            cases b with
            | true =>
                exact item_of_denotes hrest (denotes_iff.mpr (by decide)) (by decide)
                  (not_delimiter_of_all (by decide))
            | false =>
                exact item_of_denotes hrest (denotes_iff.mpr (by decide)) (by decide)
                  (not_delimiter_of_all (by decide))

end Printer

/-! ### Trees -/

namespace Tree

mutual

/-- The tree with every leaf reread. -/
def reread : Tree → Tree
  | leaf l => leaf l.reread
  | node k o ts => node k o (rereads ts)

/-- Several trees with every leaf reread. -/
def rereads : List Tree → List Tree
  | [] => []
  | t :: ts => t.reread :: rereads ts

end

end Tree

namespace Printer

/-- A kind that was read can be read again. -/
theorem readable_ofTag {text head rest : List Char} (h : Symbol text head rest) :
    (Kind.ofTag (String.ofList head)).Readable := by
  refine ⟨by rw [Kind.tag_ofTag], ?_, ?_⟩
  all_goals rw [Kind.tag_ofTag, String.toList_ofList]
  · exact h.nonempty
  · exact h.plain

/-- **An item that was read**, printed in front of any text that ends symbols, is an item that
stands for the reread tree. -/
theorem item_compactOnto_reread :
    (∀ {text t rest}, Item text t rest → ∀ {rest'}, EndsSymbol rest' →
      Item (compactOnto rest' t) t.reread rest') ∧
    ∀ {text ts rest}, Items text ts rest → ∀ {rest'}, EndsSymbol rest' →
      Items (compactItemsOnto rest' ts) (Tree.rereads ts) rest' := by
  apply item_induction
  case list =>
    intro _ _ _ _ _ head ts _ hhead ih _ rest' _
    have hclose : EndsSymbol (')' :: rest') := endsSymbol_cons (by decide) rest'
    rw [Tree.plain, compactOnto, Tree.reread]
    exact .list (listText_of_items (readable_ofTag hhead) (endsSymbol_compactItemsOnto hclose ts)
      (ih hclose))
  case quoted =>
    intro _ cs _ _ rest' hrest'
    rw [Tree.text, compactOnto, Tree.reread]
    exact item_leafChars_reread hrest' _
  case symbol =>
    intro _ _ _ l _ _ rest' hrest'
    rw [compactOnto, Tree.reread]
    exact item_leafChars_reread hrest' l
  case nil =>
    intro _ rest' _
    rw [compactItemsOnto, Tree.rereads]
    exact .nil rest'
  case cons =>
    intro _ _ _ _ t ts _ iht ihts rest' hrest'
    rw [compactItemsOnto, Tree.rereads]
    exact .cons (.blank Text.isBlank_space (.none _)) (iht (endsSymbol_compactItemsOnto hrest' ts))
      (ihts hrest')

theorem document_compact_reread {text : List Char} {t : Tree} (h : Document text t) :
    Document (compact t).toList t.reread := by
  obtain ⟨text₁, rest, -, hlist, -⟩ := h
  have hitem : Item (compactOnto [] t) t.reread [] := item_compactOnto_reread.1 (.list hlist) nofun
  obtain ⟨k, ts, rfl⟩ : ∃ k ts, t = .plain k ts := by
    cases hlist
    exact ⟨_, _, rfl⟩
  rw [compact, String.toList_ofList]
  rw [Tree.plain, Tree.reread] at hitem ⊢
  cases hitem with
  | list hlist' => exact ⟨_, [], .none _, hlist', .none []⟩

end Printer

/-! ### Arenas -/

/-- Changes the value of a leaf child. -/
def Child.mapLeaf (f : Leaf → Leaf) : Child → Child
  | .leaf l => .leaf (f l)
  | .node n => .node n

/-- Changes the values of the leaf children of a slot. -/
def Slot.mapLeaves (f : Leaf → Leaf) (s : Slot) : Slot :=
  { s with children := s.children.map (Child.mapLeaf f) }

namespace Arena

/-- Changes the values of all leaves, and nothing else. -/
def mapLeaves (f : Leaf → Leaf) (a : Arena) : Arena :=
  { a with slots := a.slots.map (Slot.mapLeaves f) }

mutual

theorem nodeCount_reread (t : Tree) : t.reread.nodeCount = t.nodeCount := by
  cases t with
  | leaf l => simp [Tree.reread, Tree.nodeCount]
  | node k o ts => rw [Tree.reread, Tree.nodeCount, Tree.nodeCount, nodeCounts_rereads]

theorem nodeCounts_rereads (ts : List Tree) :
    Tree.nodeCounts (Tree.rereads ts) = Tree.nodeCounts ts := by
  cases ts with
  | nil => rw [Tree.rereads]
  | cons t ts =>
      rw [Tree.rereads, Tree.nodeCounts, Tree.nodeCounts, nodeCount_reread, nodeCounts_rereads]

end

theorem childFrom_reread (start : Nat) (t : Tree) :
    t.reread.childFrom start = (t.childFrom start).mapLeaf Leaf.reread := by
  cases t with
  | leaf l => simp [Tree.reread, Tree.childFrom, Child.mapLeaf]
  | node k o ts =>
      simp only [Tree.reread, Tree.childFrom, Child.mapLeaf, nodeCounts_rereads]

theorem childrenFrom_rereads (start : Nat) (ts : List Tree) :
    Tree.childrenFrom start (Tree.rereads ts)
      = (Tree.childrenFrom start ts).map (Child.mapLeaf Leaf.reread) := by
  induction ts generalizing start with
  | nil => simp [Tree.rereads, Tree.childrenFrom]
  | cons t ts ih =>
      rw [Tree.rereads, Tree.childrenFrom, Tree.childrenFrom, List.map_cons, childFrom_reread,
        nodeCount_reread, ih]

mutual

theorem slotsFrom_reread (start : Nat) (parent : Option NodeId) (index : Nat) (t : Tree) :
    t.reread.slotsFrom start parent index
      = (t.slotsFrom start parent index).map (Slot.mapLeaves Leaf.reread) := by
  cases t with
  | leaf l => simp [Tree.reread, Tree.slotsFrom]
  | node k o ts =>
      rw [Tree.reread, Tree.slotsFrom, Tree.slotsFrom, List.map_append, nodeCounts_rereads,
        slotsBelow_rereads, childrenFrom_rereads]
      rfl

theorem slotsBelow_rereads (start : Nat) (parent : NodeId) (index : Nat) (ts : List Tree) :
    Tree.slotsBelow start parent index (Tree.rereads ts)
      = (Tree.slotsBelow start parent index ts).map (Slot.mapLeaves Leaf.reread) := by
  cases ts with
  | nil => simp [Tree.rereads, Tree.slotsBelow]
  | cons t ts =>
      rw [Tree.rereads, Tree.slotsBelow, Tree.slotsBelow, List.map_append, slotsFrom_reread,
        nodeCount_reread, slotsBelow_rereads]

end

/-- Rereading leaves changes no number of a node. -/
theorem numbered_reread (t : Tree) : numbered t.reread = (numbered t).mapLeaves Leaf.reread := by
  unfold numbered mapLeaves
  rw [slotsFrom_reread, nodeCount_reread]
  simp [Slot.mapLeaves]

theorem slot?_mapLeaves (f : Leaf → Leaf) (a : Arena) (n : NodeId) :
    (a.mapLeaves f).slot? n = (a.slot? n).map (Slot.mapLeaves f) := Array.getElem?_map

theorem children_mapLeaves (f : Leaf → Leaf) (a : Arena) (n : NodeId) :
    (a.mapLeaves f).children n = (a.children n).map (Child.mapLeaf f) := by
  unfold children
  rw [slot?_mapLeaves]
  cases a.slot? n <;> rfl

theorem map_mapLeaf_eq_self_iff {f : Leaf → Leaf} {cs : List Child} :
    cs.map (Child.mapLeaf f) = cs ↔ ∀ l, .leaf l ∈ cs → f l = l := by
  induction cs with
  | nil => simp
  | cons c cs ih => cases c <;> simp [Child.mapLeaf, ih, or_imp, forall_and]

/-- Changing leaves changes nothing if it changes no leaf of any slot. -/
theorem mapLeaves_eq_self_iff {f : Leaf → Leaf} {a : Arena} :
    a.mapLeaves f = a ↔ ∀ n l, .leaf l ∈ a.children n → f l = l := by
  simp only [← map_mapLeaf_eq_self_iff, ← children_mapLeaves]
  constructor
  · intro h n
    rw [h]
  · intro h
    refine ext_fields rfl (by simp [mapLeaves, size]) (fun n => ?_) h (fun n => ?_) (fun n => ?_)
      fun n => ?_
    · unfold kind?
      rw [slot?_mapLeaves]
      cases a.slot? n <;> rfl
    · unfold parent?
      rw [slot?_mapLeaves]
      cases a.slot? n <;> rfl
    · unfold index
      rw [slot?_mapLeaves]
      cases a.slot? n <;> rfl
    · unfold note?
      rw [slot?_mapLeaves]
      cases a.slot? n <;> rfl

/-- **What was read, printed and read again.**  If a text is read, the tree of its arena can be
printed, and the printed text is read again, into the same arena but for the numbers that are not
finite, in whose place their texts stand.  So the arena comes back slot by slot exactly if all of
its numbers are finite. -/
theorem read_compact_of_read {src : String} {a : Arena} (h : read src = .ok a) :
    ∃ t, a.tree = .ok t ∧ read (Printer.compact t) = .ok (a.mapLeaves Leaf.reread) ∧
      (read (Printer.compact t) = .ok a ↔ ∀ n l, .leaf l ∈ a.children n → l.IsFinite) := by
  obtain ⟨t, hreads, rfl⟩ := read_eq_ok_iff.mp h
  have hdoc := Reader.reads_iff_document.mp hreads
  have hagain : read (Printer.compact t) = .ok ((numbered t).mapLeaves Leaf.reread) :=
    read_eq_ok_iff.mpr ⟨_, Reader.reads_of_document (Printer.document_compact_reread hdoc),
      (numbered_reread t).symm⟩
  refine ⟨t, ?_, hagain, ?_⟩
  · obtain ⟨_, _, -, hlist, -⟩ := hdoc
    cases hlist
    exact tree_numbered _ _ _
  · rw [hagain, Except.ok.injEq, mapLeaves_eq_self_iff]
    simp only [Leaf.reread_eq_self_iff]

theorem read_overflow :
    read "(x -1e400)"
      = .ok (numbered (.plain (.other "x") [.leaf (.number (.infinity true))])) := by
  decide +kernel

theorem read_compact_of_read_overflow :
    ∃ a t, read "(x -1e400)" = .ok a ∧ a.tree = .ok t ∧
      read (Printer.compact t) = .ok (a.mapLeaves Leaf.reread) ∧
      read (Printer.compact t) ≠ .ok a := by
  obtain ⟨t, ht, hread, hsame⟩ := read_compact_of_read read_overflow
  refine ⟨_, t, read_overflow, ht, hread, fun h => ?_⟩
  obtain ⟨_, _, hfinite⟩ := hsame.mp h 1 (.number (.infinity true)) (by decide)
  cases hfinite

/-- A numeral below the finite numbers is printed as a name.  The name comes back as a text, in
another arena, and this text is printed in quotes. -/
theorem read_compact_ne_of_overflow :
    ∃ a b t u, read "(x -1e400)" = .ok a ∧ a.tree = .ok t ∧ Printer.compact t = "(x -inf)" ∧
      read (Printer.compact t) = .ok b ∧ b ≠ a ∧ b.tree = .ok u ∧
      Printer.compact u = "(x \"-inf\")" := by
  have hprint : Printer.compact (.plain (.other "x") [.leaf (.number (.infinity true))])
      = "(x -inf)" := by
    decide +kernel
  have hname : read (Printer.compact (.plain (.other "x") [.leaf (.number (.infinity true))]))
      = .ok (numbered (.plain (.other "x") [.text "-inf"])) := by
    rw [hprint]
    decide +kernel
  have hquoted : Printer.compact (.plain (.other "x") [.text "-inf"]) = "(x \"-inf\")" := by
    decide +kernel
  exact ⟨_, _, _, _, read_overflow, tree_numbered _ _ _, hprint, hname, by decide,
    tree_numbered _ _ _, hquoted⟩

end Arena

end Unstack
