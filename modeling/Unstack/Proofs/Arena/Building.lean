import Unstack.Arena.View
import Unstack.Proofs.Arena.Moving
import Unstack.Proofs.Arena.Shows
import Unstack.Reader

/-! # Building arenas

An arena grows by nodes whose children are new themselves.  Growth leaves the slots that are
there alone (`Grown`), what it adds has no parent yet (`Fresh`), and the arena of a tree is
well-formed and shows the tree. -/

namespace Unstack.Arena

variable {a b c : Arena} {n p : NodeId} {cs ds : List Child} {t : Tree} {ts : List Tree}

/-- The arena `b` is `a` with more slots. -/
structure Grown (a b : Arena) : Prop where
  wellFormed : b.WellFormed
  root : b.root = a.root
  size_le : a.size ≤ b.size
  same : ∀ m, m < a.size → b.slot? m = a.slot? m

theorem Grown.refl (h : a.WellFormed) : Grown a a := ⟨h, rfl, Nat.le_refl _, fun _ _ => rfl⟩

theorem Grown.trans (h : Grown a b) (h' : Grown b c) : Grown a c where
  wellFormed := h'.wellFormed
  root := h'.root.trans h.root
  size_le := Nat.le_trans h.size_le h'.size_le
  same m hm := (h'.same m (Nat.lt_of_lt_of_le hm h.size_le)).trans (h.same m hm)

theorem Grown.shows (h : Grown a b) (ha : a.WellFormed) {x : Child} (hx : a.Shows x t) :
    b.Shows x t := by
  cases x with
  | leaf l => exact shows_leaf.mpr (shows_leaf.mp hx)
  | node n =>
      refine hx.congr ha fun m hm => ?_
      have hslot := h.same m (lt_of_below hm hx.lt_size)
      exact ⟨kind?_congr hslot, note?_congr hslot, children_congr hslot⟩

/-- The nodes of a list are new in `b`, are listed once, and have no parent. -/
structure Fresh (a b : Arena) (cs : List Child) : Prop where
  nodup : (nodesOf cs).Nodup
  new : ∀ x ∈ nodesOf cs, a.size ≤ x ∧ x < b.size
  orphan : ∀ x ∈ nodesOf cs, b.parent? x = none

theorem Fresh.nil (a b : Arena) : Fresh a b [] := ⟨List.nodup_nil, by simp, by simp⟩

theorem Fresh.leaf {l : Leaf} (h : Fresh a b cs) : Fresh a b (.leaf l :: cs) :=
  ⟨h.nodup, h.new, h.orphan⟩

/-- What was built first and what was built then. -/
theorem Fresh.append (h : Fresh a b cs) (hg : Grown b c) (hab : a.size ≤ b.size)
    (h' : Fresh b c ds) : Fresh a c (cs ++ ds) := by
  refine ⟨?_, fun x hx => ?_, fun x hx => ?_⟩
  · rw [nodesOf_append]
    refine List.nodup_append.mpr ⟨h.nodup, h'.nodup, fun x hx y hy => ?_⟩
    exact Nat.ne_of_lt (Nat.lt_of_lt_of_le (h.new x hx).2 (h'.new y hy).1)
  · rw [nodesOf_append] at hx
    rcases List.mem_append.mp hx with hx | hx
    · exact ⟨(h.new x hx).1, Nat.lt_of_lt_of_le (h.new x hx).2 hg.size_le⟩
    · exact ⟨Nat.le_trans hab (h'.new x hx).1, (h'.new x hx).2⟩
  · rw [nodesOf_append] at hx
    rcases List.mem_append.mp hx with hx | hx
    · rw [parent?_congr (hg.same x (h.new x hx).2), h.orphan x hx]
    · exact h'.orphan x hx

/-! ### One node -/

/-- A new node may adopt what is there, the root apart. -/
theorem adoptable_size (hnd : (nodesOf cs).Nodup) (hlt : ∀ x ∈ nodesOf cs, x < a.size)
    (hroot : a.root ∉ nodesOf cs) (k : Kind) (o : Option Note) :
    (a.push k o).Adoptable a.size (nodesOf cs) := by
  refine ⟨hnd, fun x hx => ?_, hroot, fun x hx hb => ?_⟩
  · rw [size_push]
    exact Nat.lt_succ_of_lt (hlt x hx)
  · rcases hb.cases with rfl | ⟨p, hp, -⟩
    · exact Nat.lt_irrefl _ (hlt _ hx)
    · rw [parent?_push] at hp
      exact Nat.lt_irrefl _ (lt_size_of_parent? hp)

section alloc

variable (h : a.WellFormed) (k : Kind) (o : Option Note)

include h

theorem wellFormed_alloc (hnd : (nodesOf cs).Nodup) (hlt : ∀ x ∈ nodesOf cs, x < a.size)
    (hroot : a.root ∉ nodesOf cs) : ((a.push k o).assign a.size cs).WellFormed := by
  exact wellFormed_assign (h.push k o) (lt_size_push a k o) (adoptable_size hnd hlt hroot k o)

/-- A new node above orphans: lists of the slots that are there do not change. -/
theorem children_alloc (horphan : ∀ x ∈ nodesOf cs, a.parent? x = none) (q : NodeId) :
    ((a.push k o).assign a.size cs).children q = if q = a.size then cs else a.children q := by
  rw [children_assign (h.push k o) (lt_size_push a k o), children_push]
  refine if_congr Iff.rfl rfl (without_eq_self fun x hx hc => ?_)
  rw [h.mem_children_iff, horphan x hx] at hc
  cases hc

end alloc

/-- A new node above what has just been built. -/
theorem Grown.alloc (ha : a.WellFormed) (hg : Grown a b) (hf : Fresh a b cs) (k : Kind)
    (o : Option Note) :
    Grown a ((b.push k o).assign b.size cs) ∧
      Fresh a ((b.push k o).assign b.size cs) [.node b.size] := by
  have hlt : ∀ x ∈ nodesOf cs, x < b.size := fun x hx => (hf.new x hx).2
  have hroot : b.root ∉ nodesOf cs := by
    intro hr
    rw [hg.root] at hr
    exact Nat.lt_irrefl _ (Nat.lt_of_lt_of_le ha.root_lt (hf.new _ hr).1)
  have hb := hg.wellFormed
  have had := adoptable_size hf.nodup hlt hroot k o
  have hsize := lt_size_push b k o
  have hpar : ∀ m, (b.push k o).parent? m ≠ some b.size := by
    intro m hm
    rw [parent?_push] at hm
    exact Nat.lt_irrefl _ (hb.parent_lt hm)
  have hnot : ∀ m, m < a.size → Child.node m ∉ cs := fun m hm hc =>
    Nat.lt_irrefl _ (Nat.lt_of_lt_of_le hm (hf.new m (mem_nodesOf.mpr hc)).1)
  constructor
  · refine ⟨wellFormed_alloc hb k o hf.nodup hlt hroot, ?_, ?_, fun m hm => ?_⟩
    · rw [root_assign, root_push, hg.root]
    · rw [size_assign, size_push]
      exact Nat.le_succ_of_le hg.size_le
    · have hmb : m < b.size := Nat.lt_of_lt_of_le hm hg.size_le
      have hne : m ≠ b.size := Nat.ne_of_lt hmb
      rw [← hg.same m hm]
      refine slot?_congr hmb ?_ ?_ ?_ ?_ ?_ ?_
      · rw [size_assign, size_push]
        exact Nat.lt_succ_of_lt hmb
      · rw [kind?_assign, kind?_push, if_neg hne]
      · rw [children_alloc hb k o hf.orphan, if_neg hne]
      · rw [parent?_assign (hb.push k o) hsize had, if_neg (hnot m hm), if_neg (hpar m),
          parent?_push]
      · rw [index_assign (hb.push k o) hsize had (hnot m hm), index_push]
        intro x hx p _ hp
        rw [parent?_push, hf.orphan x hx] at hp
        cases hp
      · rw [note?_assign, note?_push, if_neg hne]
  · refine ⟨List.nodup_singleton _, fun x hx => ?_, fun x hx => ?_⟩
    · cases List.mem_singleton.mp hx
      rw [size_assign, size_push]
      exact ⟨hg.size_le, Nat.lt_succ_self _⟩
    · cases List.mem_singleton.mp hx
      have hself : Child.node b.size ∉ cs := fun hc =>
        Nat.lt_irrefl _ (hlt _ (mem_nodesOf.mpr hc))
      rw [parent?_assign (hb.push k o) hsize had, if_neg hself, if_neg (hpar _), parent?_push]
      cases hp : b.parent? b.size with
      | none => rfl
      | some p => exact absurd (lt_size_of_parent? hp) (Nat.lt_irrefl _)

theorem shows_alloc (h : b.WellFormed) (horphan : ∀ x ∈ nodesOf cs, b.parent? x = none)
    (hts : List.Forall₂ b.Shows cs ts) (k : Kind) (o : Option Note) :
    ((b.push k o).assign b.size cs).Shows (.node b.size) (.node k o ts) := by
  refine shows_node.mpr ⟨?_, ?_, ?_⟩
  · rw [kind?_assign, kind?_push, if_pos rfl]
  · rw [note?_assign, note?_push, if_pos rfl]
  rw [children_alloc h k o horphan, if_pos rfl]
  refine forall₂_imp_of_mem hts fun x _ t _ hxt => ?_
  cases x with
  | leaf l => exact shows_leaf.mpr (shows_leaf.mp hxt)
  | node n =>
      refine hxt.congr h fun m hm => ?_
      have hne : m ≠ b.size := Nat.ne_of_lt (lt_of_below hm hxt.lt_size)
      rw [kind?_assign, kind?_push, if_neg hne, note?_assign, note?_push, if_neg hne,
        children_alloc h k o horphan, if_neg hne]
      exact ⟨rfl, rfl, rfl⟩

/-! ### Trees -/

/-- The children that stand for trees, in an arena that has grown by them. -/
structure Grafted (a b : Arena) (cs : List Child) (ts : List Tree) : Prop where
  grown : Grown a b
  fresh : Fresh a b cs
  shows : List.Forall₂ b.Shows cs ts

theorem grafted_graftAll
    (ih : ∀ t ∈ ts, ∀ a : Arena, a.WellFormed → Grafted a (a.graft t).1 [(a.graft t).2] [t])
    (h : a.WellFormed) : Grafted a (a.graftAll ts).1 (a.graftAll ts).2 ts := by
  induction ts generalizing a with
  | nil => exact ⟨.refl h, .nil a a, .nil⟩
  | cons t ts ihts =>
      have hone := ih t List.mem_cons_self a h
      have hall := ihts (fun u hu => ih u (List.mem_cons_of_mem _ hu)) hone.grown.wellFormed
      rw [graftAll]
      refine ⟨hone.grown.trans hall.grown,
        hone.fresh.append hall.grown hone.grown.size_le hall.fresh, ?_⟩
      refine .cons (hall.grown.shows hone.grown.wellFormed ?_) hall.shows
      exact (List.forall₂_cons.mp hone.shows).1

/-- **Grafting a tree** adds new slots only, and the new child shows the tree. -/
theorem grafted_graft (h : a.WellFormed) (t : Tree) :
    Grafted a (a.graft t).1 [(a.graft t).2] [t] := by
  induction t using Tree.induction generalizing a with
  | leaf l => exact ⟨.refl h, (Fresh.nil a a).leaf, .cons (shows_leaf.mpr rfl) .nil⟩
  | node k o ts ih =>
      have hall := grafted_graftAll (fun t ht a ha => ih t ht ha) h
      rw [graft]
      obtain ⟨hg, hf⟩ := hall.grown.alloc h hall.fresh k o
      exact ⟨hg, hf, .cons (shows_alloc hall.grown.wellFormed hall.fresh.orphan hall.shows k o)
        .nil⟩

/-! ### Whole arenas -/

theorem wellFormed_single (k : Kind) (o : Option Note) : (single k o).WellFormed := by
  have hslot : ∀ n, (single k o).slot? n = if n = 0 then some ⟨k, [], none, 0, o⟩ else none := by
    intro n
    cases n <;> rfl
  have hchildren : ∀ n, (single k o).children n = [] := by
    intro n
    unfold children
    rw [hslot]
    split_ifs <;> rfl
  have hparent : ∀ n, (single k o).parent? n = none := by
    intro n
    unfold parent?
    rw [hslot]
    split_ifs <;> rfl
  refine .of_linked (fun p i n => ?_) ?_ Nat.zero_lt_one (hparent _)
  · rw [child?, hchildren, hparent]
    simp
  · intro n hn
    obtain ⟨p, hp, -⟩ := Relation.TransGen.head'_iff.mp hn
    rw [Under, hparent] at hp
    cases hp

/-- A node without a parent can be the root. -/
theorem WellFormed.withRoot (h : a.WellFormed) (hn : n < a.size) (hp : a.parent? n = none) :
    ({ a with root := n } : Arena).WellFormed :=
  .of_linked h.linked h.acyclic hn hp

/-- **The arena of a tree** is well-formed. -/
theorem wellFormed_ofTree (t : Tree) : (ofTree t).WellFormed := by
  have hg := grafted_graft (wellFormed_single (.other "<document>") none) t
  unfold ofTree
  cases hc : ((single (.other "<document>") none).graft t).2 with
  | leaf l => simpa only [hc] using hg.grown.wellFormed
  | node n =>
      rw [hc] at hg
      have hn : n ∈ nodesOf [Child.node n] := List.mem_singleton_self n
      simpa only [hc] using hg.grown.wellFormed.withRoot (hg.fresh.new n hn).2
        (hg.fresh.orphan n hn)

theorem wellFormed_read {src : String} (h : read src = .ok a) : a.WellFormed := by
  unfold read at h
  cases ht : Reader.read src with
  | error e =>
      rw [ht] at h
      cases h
  | ok t =>
      rw [ht] at h
      cases h
      exact wellFormed_ofTree t

/-- The arena of a tree shows the tree. -/
theorem tree_ofTree (k : Kind) (o : Option Note) (ts : List Tree) :
    (ofTree (.node k o ts)).tree = .ok (.node k o ts) := by
  rw [tree_eq_ok_iff (wellFormed_ofTree _)]
  have hg := grafted_graft (wellFormed_single (.other "<document>") none) (.node k o ts)
  have hshow := (List.forall₂_cons.mp hg.shows).1
  have hwf := hg.grown.wellFormed
  rw [graft] at hshow hwf
  unfold ofTree
  rw [graft]
  exact hshow.congr hwf fun m _ => ⟨rfl, rfl, rfl⟩

end Unstack.Arena
