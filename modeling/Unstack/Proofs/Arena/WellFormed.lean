import Mathlib.Logic.Relation
import Unstack.Proofs.Arena.Fields

/-! # Well-formed arenas

An arena is well formed when its back links agree with its lists of children, no chain of
parents comes back to where it started, and the root has no parent.  All slots count, those of
nodes that have been taken out included.

* `Arena.Under` and `Arena.Below` read the back links as relations.
* `Arena.Linked` is the agreement of links and lists as one equivalence; together with
  acyclicity and the root it gives everything else (`WellFormed.of_linked`).
* A well-formed arena is known by its nodes and its lists (`WellFormed.eq_of_children`).
* Taking links away keeps a chain of parents from closing (`acyclic_mono`), and so does hanging
  nodes below a node that stands below none of them (`acyclic_adopt`). -/

namespace Unstack.Arena

variable {a b : Arena} {m n p q r id : NodeId}

/-! ### Chains of parents -/

/-- The node `n` stands directly below `p`. -/
def Under (a : Arena) (n p : NodeId) : Prop := a.parent? n = some p

/-- The node `n` is `r` or stands somewhere below it. -/
def Below (a : Arena) (n r : NodeId) : Prop := Relation.ReflTransGen a.Under n r

/-- No node stands below itself. -/
def Acyclic (a : Arena) : Prop := ∀ n, ¬ Relation.TransGen a.Under n n

theorem Below.refl (a : Arena) (n : NodeId) : a.Below n n := Relation.ReflTransGen.refl

theorem Below.trans (h : a.Below n m) (h' : a.Below m r) : a.Below n r :=
  Relation.ReflTransGen.trans h h'

theorem Below.of_parent (h : a.parent? n = some p) (h' : a.Below p r) : a.Below n r :=
  Relation.ReflTransGen.head h h'

theorem below_of_parent (h : a.parent? n = some p) : a.Below n p := .of_parent h (.refl a p)

/-- A node below `r` is `r` itself, or its parent is below `r`. -/
theorem Below.cases (h : a.Below n r) : n = r ∨ ∃ p, a.parent? n = some p ∧ a.Below p r :=
  Relation.ReflTransGen.cases_head h

theorem Below.mono (hab : ∀ n p, b.parent? n = some p → a.parent? n = some p)
    (h : b.Below n r) : a.Below n r :=
  Relation.ReflTransGen.mono (fun n p hnp => hab n p hnp) n r h

/-- Two nodes above the same one stand above one another. -/
theorem Below.comparable (h : a.Below n p) (h' : a.Below n q) : a.Below p q ∨ a.Below q p := by
  induction h using Relation.ReflTransGen.head_induction_on with
  | refl => exact .inl h'
  | head hn hp ih =>
      rcases h'.cases with rfl | ⟨k, hk, hkq⟩
      · exact .inr (.head hn hp)
      · rw [Under, hk] at hn
        cases hn
        exact ih hkq

theorem acyclic_mono (hab : ∀ n p, b.parent? n = some p → a.parent? n = some p)
    (h : a.Acyclic) : b.Acyclic :=
  fun n hn => h n (Relation.TransGen.mono (fun n p hnp => hab n p hnp) n n hn)

theorem Acyclic.not_below (h : a.Acyclic) (hp : a.parent? n = some p) : ¬ a.Below p n :=
  fun hb => h n (Relation.TransGen.head' hp hb)

theorem Acyclic.ne_parent (h : a.Acyclic) (hp : a.parent? n = some p) : n ≠ p := by
  rintro rfl
  exact h.not_below hp (.refl a n)

section adopt

variable {S : NodeId → Prop} (hS : ∀ m, S m → ¬ a.Below id m)
  (hb : ∀ n p, b.parent? n = some p → a.parent? n = some p ∨ (p = id ∧ S n))

include hS hb

/-- Hanging nodes below `id` changes nothing above `id`. -/
theorem below_of_adopt (h : b.Below id r) : a.Below id r := by
  induction h with
  | refl => exact .refl a id
  | tail _ hstep ih =>
      rcases hb _ _ hstep with h | ⟨rfl, hn⟩
      · exact ih.trans (below_of_parent h)
      · exact absurd ih (hS _ hn)

/-- A chain of parents after nodes were hung below `id` is a chain of before, or it passes
through `id`. -/
theorem transGen_of_adopt (h : Relation.TransGen b.Under n r) :
    Relation.TransGen a.Under n r ∨ ∃ m, S m ∧ b.Below n m ∧ b.Below id r := by
  induction h with
  | single hstep =>
      rcases hb _ _ hstep with h | ⟨rfl, hn⟩
      · exact .inl (.single h)
      · exact .inr ⟨n, hn, .refl b n, .refl b _⟩
  | tail hpath hstep ih =>
      rcases ih with ih | ⟨m, hm, hnm, hid⟩
      · rcases hb _ _ hstep with h | ⟨rfl, hn⟩
        · exact .inl (ih.tail h)
        · exact .inr ⟨_, hn, hpath.to_reflTransGen, .refl b _⟩
      · exact .inr ⟨m, hm, hnm, hid.trans (below_of_parent hstep)⟩

/-- Nodes may be hung below `id` unless `id` is one of them or stands below one of them. -/
theorem acyclic_adopt (h : a.Acyclic) : b.Acyclic := by
  intro n hn
  rcases transGen_of_adopt hS hb hn with h' | ⟨m, hm, hnm, hid⟩
  · exact h n h'
  · exact hS m hm (below_of_adopt hS hb (hid.trans hnm))

end adopt

theorem lt_of_below (hb : a.Below n r) (hr : r < a.size) : n < a.size := by
  rcases hb.cases with rfl | ⟨p, hp, _⟩
  · exact hr
  · exact lt_size_of_parent? hp

/-! ### Links and lists -/

/-- A node is listed in exactly the place that it names. -/
def Linked (a : Arena) : Prop :=
  ∀ p i n, a.child? p i = some (.node n) ↔ a.parent? n = some p ∧ a.index n = i

/-- The lists of children and the back links describe one forest, with the root on top of one
of its trees. -/
structure WellFormed (a : Arena) : Prop where
  /-- A node child knows its parent and its position there. -/
  placed : ∀ p i n, a.child? p i = some (.node n) → a.parent? n = some p ∧ a.index n = i
  /-- A node with a parent is listed there, at the position it knows. -/
  listed : ∀ n p, a.parent? n = some p → a.child? p (a.index n) = some (.node n)
  /-- No node is listed twice. -/
  once : ∀ p i q j n, a.child? p i = some (.node n) → a.child? q j = some (.node n) →
    p = q ∧ i = j
  /-- No chain of parents comes back to its start. -/
  acyclic : a.Acyclic
  /-- The root is there and has no parent. -/
  rooted : ∃ s, a.slot? a.root = some s ∧ s.parent = none

theorem WellFormed.of_linked (hl : a.Linked) (hc : a.Acyclic) (hs : a.root < a.size)
    (hr : a.parent? a.root = none) : a.WellFormed where
  placed p i n h := (hl p i n).mp h
  listed n p h := (hl p _ n).mpr ⟨h, rfl⟩
  once p i q j n h h' := by
    obtain ⟨h1, h2⟩ := (hl p i n).mp h
    obtain ⟨h3, h4⟩ := (hl q j n).mp h'
    rw [h1] at h3
    exact ⟨Option.some.inj h3, h2.symm.trans h4⟩
  acyclic := hc
  rooted := by
    obtain ⟨s, h⟩ := exists_slot? hs
    exact ⟨s, h, by rw [← parent?_eq h, hr]⟩

/-- Only lists and links matter. -/
theorem WellFormed.congr (h : a.WellFormed) (hroot : b.root = a.root) (hsize : a.size ≤ b.size)
    (hlist : ∀ n, b.children n = a.children n) (hparent : ∀ n, b.parent? n = a.parent? n)
    (hindex : ∀ n, b.index n = a.index n) : b.WellFormed := by
  have hchild : ∀ p i, b.child? p i = a.child? p i := by
    intro p i
    rw [child?, hlist, ← child?]
  refine ⟨?_, ?_, ?_, acyclic_mono (fun n p hn => ?_) h.acyclic, ?_⟩
  · intro p i n hi
    rw [hparent, hindex]
    exact h.placed p i n (hchild p i ▸ hi)
  · intro n p hn
    rw [hchild, hindex]
    exact h.listed n p (hparent n ▸ hn)
  · intro p i q j n hi hj
    exact h.once p i q j n (hchild p i ▸ hi) (hchild q j ▸ hj)
  · exact hparent n ▸ hn
  · obtain ⟨s, hs, hp⟩ := h.rooted
    obtain ⟨t, ht⟩ := exists_slot? (Nat.lt_of_lt_of_le (lt_size_of_slot? hs) hsize)
    refine ⟨t, hroot ▸ ht, ?_⟩
    rw [← parent?_eq ht, hparent, parent?_eq hs, hp]

/-- The nodes are the same, with their kinds and notes; lists and links may differ. -/
structure SameNodes (a b : Arena) : Prop where
  root : b.root = a.root
  size : b.size = a.size
  kind : ∀ n, b.kind? n = a.kind? n
  note : ∀ n, b.note? n = a.note? n

theorem SameNodes.refl (a : Arena) : SameNodes a a := ⟨rfl, rfl, fun _ => rfl, fun _ => rfl⟩

theorem SameNodes.trans {c : Arena} (h : SameNodes a b) (h' : SameNodes b c) : SameNodes a c :=
  ⟨h'.root.trans h.root, h'.size.trans h.size, fun n => (h'.kind n).trans (h.kind n),
    fun n => (h'.note n).trans (h.note n)⟩

theorem SameNodes.lt_size (h : SameNodes a b) (hn : n < a.size) : n < b.size := by
  rw [h.size]
  exact hn

theorem SameNodes.hasKind (h : SameNodes a b) (n : NodeId) (k : Kind) :
    b.hasKind n k = a.hasKind n k := by
  unfold Arena.hasKind
  rw [h.kind n]

namespace WellFormed

variable (h : a.WellFormed)

include h

theorem linked : a.Linked := by
  intro p i n
  constructor
  · exact h.placed p i n
  · rintro ⟨hp, rfl⟩
    exact h.listed n p hp

theorem root_lt : a.root < a.size := by
  obtain ⟨s, hs, _⟩ := h.rooted
  exact lt_size_of_slot? hs

theorem parent?_root : a.parent? a.root = none := by
  obtain ⟨s, hs, hp⟩ := h.rooted
  rw [parent?_eq hs, hp]

theorem mem_children_iff : .node n ∈ a.children p ↔ a.parent? n = some p := by
  constructor
  · intro hm
    obtain ⟨i, hi⟩ := List.mem_iff_getElem?.mp hm
    exact (h.placed p i n hi).1
  · intro hp
    exact List.mem_of_getElem? (h.listed n p hp)

theorem parent_lt (hp : a.parent? n = some p) : p < a.size :=
  lt_size_of_child? (h.listed n p hp)

theorem lt_of_above (hb : a.Below n p) (hn : n < a.size) : p < a.size := by
  induction hb with
  | refl => exact hn
  | tail _ hstep _ => exact h.parent_lt hstep

theorem child_lt (hm : .node n ∈ a.children p) : n < a.size :=
  lt_size_of_parent? (h.mem_children_iff.mp hm)

theorem ne_root (hp : a.parent? n = some p) : n ≠ a.root := by
  rintro rfl
  rw [h.parent?_root] at hp
  cases hp

theorem setKind (id : NodeId) (k : Kind) : (a.setKind id k).WellFormed :=
  h.congr rfl (by simp) (by simp) (by simp) (by simp)

theorem setNote (id : NodeId) (o : Option Note) : (a.setNote id o).WellFormed :=
  h.congr rfl (by simp) (by simp) (by simp) (by simp)

theorem push (k : Kind) (o : Option Note) : (a.push k o).WellFormed :=
  h.congr rfl (by simp) (by simp) (by simp) (by simp)

theorem nodup_childNodes (p : NodeId) : (a.childNodes p).Nodup :=
  nodup_nodesOf fun i j n hi hj => (h.once p i p j n hi hj).2

/-- A well-formed arena is known by its lists, but for the positions that nodes without a parent
have kept. -/
theorem eq_of_children (hb : b.WellFormed) (hs : SameNodes a b)
    (hlist : ∀ p, b.children p = a.children p)
    (hstale : ∀ n, b.parent? n = none → b.index n = a.index n) : b = a := by
  have hparent : ∀ n, b.parent? n = a.parent? n := by
    intro n
    refine Option.ext fun p => ?_
    rw [← hb.mem_children_iff, ← h.mem_children_iff, hlist]
  refine ext_fields hs.root hs.size hs.kind hlist hparent (fun n => ?_) hs.note
  cases hp : b.parent? n with
  | none => exact hstale n hp
  | some p =>
      have hn := hb.listed n p hp
      rw [child?, hlist] at hn
      exact (h.placed p _ n hn).2.symm

/-- A node does not stand above its parent. -/
theorem not_below_parent (hp : a.parent? n = some p) : ¬ a.Below p n := h.acyclic.not_below hp

/-- What stands below one child of a node does not stand below another. -/
theorem disjoint_siblings (hp : a.parent? n = some p) (hq : a.parent? m = some p) (hne : n ≠ m)
    (hr : a.Below r n) : ¬ a.Below r m := by
  intro hr'
  -- one of the two stands below the other, and then their parent stands below a child
  have key : ∀ x y, a.parent? x = some p → a.parent? y = some p → x ≠ y → ¬ a.Below x y := by
    intro x y hx hy hxy hb
    rcases hb.cases with rfl | ⟨k, hk, hky⟩
    · exact hxy rfl
    · rw [hx] at hk
      cases hk
      exact h.not_below_parent hy hky
  rcases hr.comparable hr' with hb | hb
  · exact key n m hp hq hne hb
  · exact key m n hq hp hne.symm hb

end WellFormed

end Unstack.Arena
