import Mathlib.Data.Finset.Card
import Mathlib.Data.List.Forall2
import Unstack.Arena.View
import Unstack.Proofs.Arena.WellFormed
import Unstack.Proofs.Outcome

/-! # The tree that an arena shows

`a.Shows c t` says that the child `c` of the arena `a` stands for the tree `t`: kinds, notes and
lists of children agree all the way down.  Unlike `Arena.treeBelow` it needs no depth.

* A child shows at most one tree (`Shows.unique`).
* It goes on showing it as long as nothing at or below it changes (`Shows.congr`).
* In a well-formed arena every node shows a tree, no higher than there are slots
  (`exists_shows`), because the nodes below a child are a proper part of those below its parent.
* So there `Arena.treeAt` and `Shows` say the same (`treeAt_eq_ok_iff`). -/

namespace Unstack

/-! ### Trees -/

namespace Tree

/-- Induction over trees: a node may use the statement for all its children. -/
@[elab_as_elim]
theorem induction {P : Tree → Prop} (leaf : ∀ l, P (.leaf l))
    (node : ∀ k o ts, (∀ t ∈ ts, P t) → P (.node k o ts)) (t : Tree) : P t :=
  match t with
  | .leaf l => leaf l
  | .node k o ts => node k o ts fun t ht =>
      have := List.sizeOf_lt_of_mem ht
      induction leaf node t
termination_by sizeOf t
decreasing_by
  simp only [Tree.node.sizeOf_spec]
  omega

mutual

/-- How many nodes the longest path down a tree has. -/
def height : Tree → Nat
  | .leaf _ => 0
  | .node _ _ ts => heights ts + 1

/-- The height of the highest of several trees. -/
def heights : List Tree → Nat
  | [] => 0
  | t :: ts => max t.height (heights ts)

end

theorem height_le_heights {t : Tree} {ts : List Tree} (h : t ∈ ts) : t.height ≤ heights ts := by
  induction ts with
  | nil => cases h
  | cons u ts ih =>
      rw [heights]
      rcases List.mem_cons.mp h with rfl | h
      · exact Nat.le_max_left _ _
      · exact le_trans (ih h) (Nat.le_max_right _ _)

theorem heights_le {ts : List Tree} {d : Nat} (h : ∀ t ∈ ts, t.height ≤ d) : heights ts ≤ d := by
  induction ts with
  | nil => exact Nat.zero_le d
  | cons u ts ih =>
      rw [heights]
      exact Nat.max_le.mpr ⟨h u List.mem_cons_self, ih fun t ht => h t (List.mem_cons_of_mem u ht)⟩

theorem height_lt_of_mem {k : Kind} {o : Option Note} {t : Tree} {ts : List Tree} (h : t ∈ ts) :
    t.height < (Tree.node k o ts).height := by
  rw [height]
  exact Nat.lt_succ_of_le (height_le_heights h)

end Tree

namespace Arena

variable {a b : Arena} {n m p r : NodeId} {c : Child} {t u : Tree}

mutual

/-- The child stands for the tree. -/
def Shows (a : Arena) : Child → Tree → Prop
  | .leaf l, .leaf l' => l = l'
  | .node n, .node k o ts => a.kind? n = some k ∧ a.note? n = o ∧ ShowsAll a (a.children n) ts
  | _, _ => False

/-- The children stand for the trees, one by one. -/
def ShowsAll (a : Arena) : List Child → List Tree → Prop
  | [], [] => True
  | c :: cs, t :: ts => Shows a c t ∧ ShowsAll a cs ts
  | _, _ => False

end

theorem showsAll_iff {cs : List Child} {ts : List Tree} :
    a.ShowsAll cs ts ↔ List.Forall₂ a.Shows cs ts := by
  induction cs generalizing ts with
  | nil => cases ts <;> simp [ShowsAll]
  | cons c cs ih => cases ts <;> simp [ShowsAll, ih]

@[simp] theorem shows_leaf {l : Leaf} : a.Shows (.leaf l) t ↔ t = .leaf l := by
  cases t <;> simp [Shows, eq_comm]

theorem shows_node {k : Kind} {o : Option Note} {ts : List Tree} :
    a.Shows (.node n) (.node k o ts) ↔
      a.kind? n = some k ∧ a.note? n = o ∧ List.Forall₂ a.Shows (a.children n) ts := by
  rw [Shows, showsAll_iff]

/-- What a node shows is a node. -/
theorem Shows.exists_node (h : a.Shows (.node n) t) : ∃ k o ts, t = .node k o ts := by
  cases t with
  | leaf l => exact absurd h (by simp [Shows])
  | node k o ts => exact ⟨k, o, ts, rfl⟩

theorem Shows.unique (h : a.Shows c t) (h' : a.Shows c u) : t = u := by
  induction t using Tree.induction generalizing c u with
  | leaf l =>
      cases c with
      | leaf l' =>
          rw [shows_leaf] at h h'
          rw [h, h']
      | node n => exact absurd h (by simp [Shows])
  | node k o ts ih =>
      cases c with
      | leaf l => exact absurd h (by simp [Shows])
      | node n =>
          obtain ⟨k', o', us, rfl⟩ := h'.exists_node
          obtain ⟨hk, ho, hts⟩ := shows_node.mp h
          obtain ⟨hk', ho', hus⟩ := shows_node.mp h'
          rw [hk] at hk'
          cases hk'
          have hlist : ts = us :=
            forall₂_unique_of_mem hts hus fun t ht c u hc hu => ih t ht hc hu
          rw [← ho, ho', hlist]

/-- A node shows the same tree as long as nothing at or below it changes. -/
theorem Shows.congr (hwf : a.WellFormed) (h : a.Shows (.node n) t)
    (hsame : ∀ m, a.Below m n → b.kind? m = a.kind? m ∧ b.note? m = a.note? m ∧
      b.children m = a.children m) : b.Shows (.node n) t := by
  induction t using Tree.induction generalizing n with
  | leaf l => exact absurd h (by simp [Shows])
  | node k o ts ih =>
      obtain ⟨hk, ho, hts⟩ := shows_node.mp h
      obtain ⟨hk', ho', hc'⟩ := hsame n (.refl a n)
      rw [shows_node, hk', ho', hc']
      refine ⟨hk, ho, forall₂_imp_of_mem hts fun c hc t ht hct => ?_⟩
      cases c with
      | leaf l => exact shows_leaf.mpr (shows_leaf.mp hct)
      | node m =>
          have hm : a.parent? m = some n := hwf.mem_children_iff.mp hc
          exact ih t ht hct fun k hk => hsame k (hk.trans (below_of_parent hm))

/-! ### Every node of a well-formed arena shows a tree -/

/-- The nodes at and below a node. -/
noncomputable def region (a : Arena) (n : NodeId) : Finset NodeId :=
  have := Classical.decPred (a.Below · n)
  (Finset.range a.size).filter (a.Below · n)

theorem mem_region : m ∈ a.region n ↔ m < a.size ∧ a.Below m n := by
  simp [region]

theorem card_region_le (a : Arena) (n : NodeId) : (a.region n).card ≤ a.size := by
  have hsub : a.region n ⊆ Finset.range a.size := fun m hm =>
    Finset.mem_range.mpr (mem_region.mp hm).1
  exact le_trans (Finset.card_le_card hsub) (le_of_eq (Finset.card_range a.size))

theorem card_region_lt (hwf : a.WellFormed) (hp : a.parent? n = some p) :
    (a.region n).card < (a.region p).card := by
  refine Finset.card_lt_card (Finset.ssubset_iff_subset_ne.mpr ⟨fun m hm => ?_, fun he => ?_⟩)
  · obtain ⟨h1, h2⟩ := mem_region.mp hm
    exact mem_region.mpr ⟨h1, h2.trans (below_of_parent hp)⟩
  · have hmem : p ∈ a.region p := mem_region.mpr ⟨hwf.parent_lt hp, .refl a p⟩
    rw [← he] at hmem
    exact hwf.not_below_parent hp (mem_region.mp hmem).2

/-- A node shows a tree no higher than there are nodes at and below it. -/
theorem exists_shows (hwf : a.WellFormed) (hn : n < a.size) :
    ∃ t, a.Shows (.node n) t ∧ t.height ≤ (a.region n).card := by
  induction hd : (a.region n).card using Nat.strong_induction_on generalizing n with
  | _ d ih =>
      subst hd
      obtain ⟨s, hs⟩ := exists_slot? hn
      have hchild : ∀ c ∈ a.children n, ∃ t, a.Shows c t ∧ t.height < (a.region n).card := by
        intro c hc
        cases c with
        | leaf l =>
            refine ⟨.leaf l, shows_leaf.mpr rfl, ?_⟩
            exact Finset.card_pos.mpr ⟨n, mem_region.mpr ⟨hn, .refl a n⟩⟩
        | node m =>
            have hm : a.parent? m = some n := hwf.mem_children_iff.mp hc
            have hlt := card_region_lt hwf hm
            obtain ⟨t, ht, hh⟩ := ih _ hlt (lt_size_of_parent? hm) rfl
            exact ⟨t, ht, lt_of_le_of_lt hh hlt⟩
      obtain ⟨ts, hts⟩ := exists_forall₂ hchild
      refine ⟨.node s.kind s.note ts, shows_node.mpr ⟨kind?_eq hs, note?_eq hs, ?_⟩, ?_⟩
      · exact hts.imp fun c t h => h.1
      · have hpos : 0 < (a.region n).card :=
          Finset.card_pos.mpr ⟨n, mem_region.mpr ⟨hn, .refl a n⟩⟩
        have hle : Tree.heights ts ≤ (a.region n).card - 1 := by
          refine Tree.heights_le fun t ht => ?_
          obtain ⟨c, _, _, hh⟩ := exists_of_mem_right hts ht
          omega
        rw [Tree.height]
        omega

theorem Shows.lt_size (h : a.Shows (.node n) t) : n < a.size := by
  obtain ⟨k, o, ts, rfl⟩ := h.exists_node
  obtain ⟨hk, _⟩ := shows_node.mp h
  by_contra hn
  rw [kind?, (slot?_eq_none_iff a n).mpr (Nat.le_of_not_lt hn)] at hk
  cases hk

theorem Shows.height_le (hwf : a.WellFormed) (h : a.Shows c t) : t.height ≤ a.size := by
  cases c with
  | leaf l =>
      rw [shows_leaf.mp h]
      exact Nat.zero_le _
  | node n =>
      obtain ⟨u, hu, hh⟩ := exists_shows hwf h.lt_size
      rw [h.unique hu]
      exact le_trans hh (card_region_le a n)

/-! ### Reading the tree -/

theorem treeBelow_of_shows {d : Nat} (h : a.Shows (.node n) t) (hd : t.height ≤ d) :
    a.treeBelow d n = .ok t := by
  induction t using Tree.induction generalizing n d with
  | leaf l => exact absurd h (by simp [Shows])
  | node k o ts ih =>
      cases d with
      | zero => exact absurd hd (by simp [Tree.height])
      | succ d =>
          rw [Tree.height] at hd
          obtain ⟨s, hs⟩ := exists_slot? h.lt_size
          obtain ⟨hk, ho, hts⟩ := shows_node.mp h
          rw [kind?_eq hs] at hk
          rw [note?_eq hs] at ho
          rw [children_eq hs] at hts
          cases hk
          cases ho
          have hle : ∀ t ∈ ts, t.height ≤ d := fun t ht =>
            le_trans (Tree.height_le_heights ht) (Nat.le_of_succ_le_succ hd)
          rw [treeBelow, slot_eq hs, Outcome.ok_bind, Outcome.mapM_eq_ok ts]
          · rfl
          · refine forall₂_imp_of_mem hts fun c _ t ht hct => ?_
            cases c with
            | leaf l =>
                rw [shows_leaf.mp hct]
                rfl
            | node m => exact ih t ht hct (hle t ht)

/-- In a well-formed arena the tree that is read is the tree that is shown. -/
theorem treeAt_eq_ok_iff (hwf : a.WellFormed) (hn : n < a.size) :
    a.treeAt n = .ok t ↔ a.Shows (.node n) t := by
  have hread : ∀ u, a.Shows (.node n) u → a.treeAt n = .ok u := fun u hu =>
    treeBelow_of_shows hu (Nat.le_succ_of_le (hu.height_le hwf))
  constructor
  · intro h
    obtain ⟨u, hu, _⟩ := exists_shows hwf hn
    rw [hread u hu] at h
    cases h
    exact hu
  · exact hread t

theorem tree_eq_ok_iff (hwf : a.WellFormed) : a.tree = .ok t ↔ a.Shows (.node a.root) t :=
  treeAt_eq_ok_iff hwf hwf.root_lt

end Arena

end Unstack
