import Unstack.Proofs.Arena.Marks
import Unstack.Proofs.Body.Normal

/-! # What survives

A reversed test with nothing but its operand turns around the flag in the first place below its
parent, and whatever node stands there is put out.  Nothing else is lost: in a block of steps, a
node of unknown kind is kept exactly if it is not *displaced*, that is, does not stand at or below
the first child of a node that has such a test among its children.

* **Names.**  Nodes are followed by their marks (`Unstack.Proofs.Arena.Marks`); the marked arena
  shows the same tree up to notes, on which neither steps nor leaves depend.
* **Ways.**  What `Tree.foreseen` foretells is reached along children that are spared
  (`Arena.mem_foreseen_iff`), and those ways lead to the nodes that are not displaced
  (`Arena.spared_iff`). -/

namespace Unstack

open Outcome

/-! ### Trees up to notes -/

namespace Tree

variable {t u : Tree} {ts us : List Tree} {k : Kind} {o : Option Note}

theorem bares_eq_map (ts : List Tree) : bares ts = ts.map bare := by
  induction ts with
  | nil => rfl
  | cons t ts ih => rw [bares, ih, List.map_cons]

theorem bare_node (k : Kind) (o : Option Note) (ts : List Tree) :
    (node k o ts).bare = .plain k (ts.map bare) := by
  rw [bare, bares_eq_map]

theorem eq_leaf_of_bare {l : Leaf} (h : t.bare = (leaf l).bare) : t = .leaf l := by
  cases t with
  | leaf l' => exact h
  | node k o ts =>
      rw [bare_node] at h
      cases h

theorem exists_node_of_bare (h : t.bare = (node k o ts).bare) :
    ∃ o' us, t = .node k o' us ∧ us.map bare = ts.map bare := by
  cases t with
  | leaf l =>
      rw [bare_node] at h
      cases h
  | node k' o' us =>
      rw [bare_node, bare_node, plain, plain, node.injEq] at h
      exact ⟨o', us, by rw [h.1], h.2.2⟩

theorem isNegation_node :
    isNegation (.node k o ts) = true ↔ k = .branch .falsy ∧ ts.length = 1 := by
  constructor
  · intro h
    unfold isNegation at h
    split at h
    · rename_i heq
      cases heq
      exact ⟨rfl, rfl⟩
    · cases h
  · rintro ⟨rfl, hlen⟩
    obtain ⟨t, rfl⟩ := List.length_eq_one_iff.mp hlen
    rfl

theorem isNegation_bare (t : Tree) : t.bare.isNegation = t.isNegation := by
  cases t with
  | leaf l => rfl
  | node k o ts =>
      rw [bare_node, Bool.eq_iff_iff, plain, isNegation_node, isNegation_node, List.length_map]

theorem truthy_bare (t : Tree) : t.bare.truthy = t.truthy := by
  cases t with
  | leaf l => rfl
  | node k o ts => rfl

theorem risen_bare (t : Tree) : t.bare.risen = t.risen := by
  induction t using Tree.induction with
  | leaf l => rfl
  | node k o ts ih =>
      rw [bare_node]
      cases ts with
      | nil => rfl
      | cons t ts =>
          cases ts with
          | nil =>
              rw [List.map_cons, List.map_nil, plain, risen, risen, isNegation_bare,
                ih t List.mem_cons_self]
          | cons u ts => rfl

theorem map_bare_flipped (ts : List Tree) : (flipped ts).map bare = flipped (ts.map bare) := by
  have hstep : Function.Semiconj (List.map bare) negateFirst negateFirst := by
    intro ts
    cases ts with
    | nil => rfl
    | cons t ts => rw [negateFirst, List.map_cons, List.map_cons, negateFirst, truthy_bare, bare]
  have hcount : (ts.map bare).countP isNegation = ts.countP isNegation := by
    rw [List.countP_map]
    exact List.countP_congr fun t _ => by rw [Function.comp_apply, isNegation_bare]
  rw [flipped, flipped, hcount]
  exact hstep.iterate_right _ ts

/-- The leaves that are left do not depend on notes. -/
theorem filterMap_risen_of_bare (h : us.map bare = ts.map bare) :
    (flipped us).filterMap risen = (flipped ts).filterMap risen := by
  have hbare (ts : List Tree) :
      (flipped ts).filterMap risen = (flipped (ts.map bare)).filterMap risen := by
    rw [← map_bare_flipped, List.filterMap_map]
    exact List.filterMap_congr fun t _ => (risen_bare t).symm
  rw [hbare us, h, ← hbare]

theorem forall_of_map_bare {P : Tree → Prop} (h : us.map bare = ts.map bare)
    (hP : ∀ t ∈ ts, ∀ u, u.bare = t.bare → P u) : ∀ u ∈ us, P u := by
  intro u hu
  have hmem : u.bare ∈ ts.map bare := h ▸ List.mem_map_of_mem hu
  obtain ⟨t, ht, hbare⟩ := List.mem_map.mp hmem
  exact hP t ht u hbare.symm

theorem map_bare_eq_nil : us.map bare = [].map bare ↔ us = [] := List.map_eq_nil_iff

theorem map_bare_eq_cons :
    us.map bare = (t :: ts).map bare ↔
      ∃ u us', us = u :: us' ∧ u.bare = t.bare ∧ us'.map bare = ts.map bare :=
  List.map_eq_cons_iff

theorem eq_map_leaf_of_bare {ls : List Leaf} (h : us.map bare = (ls.map .leaf).map bare) :
    us = ls.map .leaf := by
  induction ls generalizing us with
  | nil => exact map_bare_eq_nil.mp h
  | cons l ls ih =>
      obtain ⟨u, us, rfl, hu, hus⟩ := map_bare_eq_cons.mp h
      rw [eq_leaf_of_bare hu, ih hus, List.map_cons]

/-- Whether a tree is an operand does not depend on notes. -/
theorem operand_of_bare (h : Operand t) : ∀ u : Tree, u.bare = t.bare → u.Operand := by
  induction h with
  | leaf l =>
      intro u hu
      rw [eq_leaf_of_bare hu]
      exact .leaf l
  | operator o hk hts ih =>
      intro u hu
      obtain ⟨o, us, rfl, hus⟩ := exists_node_of_bare hu
      exact .operator o hk (forall_of_map_bare hus ih)
  | coercion o hx ih =>
      intro u hu
      obtain ⟨o, us, rfl, hus⟩ := exists_node_of_bare hu
      simp only [map_bare_eq_cons, map_bare_eq_nil] at hus
      obtain ⟨x, _, rfl, hx, rfl⟩ := hus
      exact .coercion o (ih x hx)
  | connective o hk hts ih =>
      intro u hu
      obtain ⟨o, us, rfl, hus⟩ := exists_node_of_bare hu
      exact .connective o hk (forall_of_map_bare hus ih)
  | comparing flag o o' hc hv hw hx hy ihv ihw ihx ihy =>
      intro u hu
      obtain ⟨o, us, rfl, hus⟩ := exists_node_of_bare hu
      simp only [map_bare_eq_cons, map_bare_eq_nil] at hus
      obtain ⟨f, _, rfl, hf, b, _, rfl, hb, rfl⟩ := hus
      obtain ⟨o', us, rfl, hus⟩ := exists_node_of_bare hb
      simp only [map_bare_eq_cons, map_bare_eq_nil] at hus
      obtain ⟨v, _, rfl, hv, w, _, rfl, hw, x, _, rfl, hx, y, _, rfl, hy, rfl⟩ := hus
      rw [eq_leaf_of_bare hf]
      exact .comparing flag o o' hc (ihv v hv) (ihw w hw) (ihx x hx) (ihy y hy)
  | testing flag o o' hc hv hx hy ihv ihx ihy =>
      intro u hu
      obtain ⟨o, us, rfl, hus⟩ := exists_node_of_bare hu
      simp only [map_bare_eq_cons, map_bare_eq_nil] at hus
      obtain ⟨f, _, rfl, hf, b, _, rfl, hb, rfl⟩ := hus
      obtain ⟨o', us, rfl, hus⟩ := exists_node_of_bare hb
      simp only [map_bare_eq_cons, map_bare_eq_nil] at hus
      obtain ⟨v, _, rfl, hv, x, _, rfl, hx, y, _, rfl, hy, rfl⟩ := hus
      rw [eq_leaf_of_bare hf]
      exact .testing flag o o' hc (ihv v hv) (ihx x hx) (ihy y hy)
  | folding o hc hv hx ihv ihx =>
      intro u hu
      obtain ⟨o, us, rfl, hus⟩ := exists_node_of_bare hu
      simp only [map_bare_eq_cons, map_bare_eq_nil] at hus
      obtain ⟨v, _, rfl, hv, x, _, rfl, hx, rfl⟩ := hus
      exact .folding o hc (ihv v hv) (ihx x hx)
  | bare o hc hv ih =>
      intro u hu
      obtain ⟨o, us, rfl, hus⟩ := exists_node_of_bare hu
      simp only [map_bare_eq_cons, map_bare_eq_nil] at hus
      obtain ⟨v, _, rfl, hv, rfl⟩ := hus
      exact .bare o hc (ih v hv)

/-- Whether a tree is a step does not depend on notes. -/
theorem step_of_bare (h : Step t) : ∀ u : Tree, u.bare = t.bare → u.Step := by
  intro u hu
  cases h with
  | operand hx => exact .operand (operand_of_bare hx u hu)
  | pop o hx =>
      obtain ⟨o, us, rfl, hus⟩ := exists_node_of_bare hu
      simp only [map_bare_eq_cons, map_bare_eq_nil] at hus
      obtain ⟨x, _, rfl, hbare, rfl⟩ := hus
      exact .pop o (operand_of_bare hx x hbare)
  | jumpComparing flag label o o' hc hv hw =>
      obtain ⟨o, us, rfl, hus⟩ := exists_node_of_bare hu
      simp only [map_bare_eq_cons, map_bare_eq_nil] at hus
      obtain ⟨f, _, rfl, hf, l, _, rfl, hl, b, _, rfl, hb, rfl⟩ := hus
      obtain ⟨o', us, rfl, hus⟩ := exists_node_of_bare hb
      simp only [map_bare_eq_cons, map_bare_eq_nil] at hus
      obtain ⟨v, _, rfl, hv', w, _, rfl, hw', rfl⟩ := hus
      rw [eq_leaf_of_bare hf, eq_leaf_of_bare hl]
      exact .jumpComparing flag label o o' hc (operand_of_bare hv v hv') (operand_of_bare hw w hw')
  | jumpTesting flag label o o' hc hv =>
      obtain ⟨o, us, rfl, hus⟩ := exists_node_of_bare hu
      simp only [map_bare_eq_cons, map_bare_eq_nil] at hus
      obtain ⟨f, _, rfl, hf, l, _, rfl, hl, b, _, rfl, hb, rfl⟩ := hus
      obtain ⟨o', us, rfl, hus⟩ := exists_node_of_bare hb
      simp only [map_bare_eq_cons, map_bare_eq_nil] at hus
      obtain ⟨v, _, rfl, hv', rfl⟩ := hus
      rw [eq_leaf_of_bare hf, eq_leaf_of_bare hl]
      exact .jumpTesting flag label o o' hc (operand_of_bare hv v hv')
  | hint o ls hk =>
      obtain ⟨o, us, rfl, hus⟩ := exists_node_of_bare hu
      rw [eq_map_leaf_of_bare hus]
      exact .hint o ls hk

/-! ### What is foretold of the children -/

/-- What is foretold below a node: what its children foretell, the first of them apart if there is a
negation among them. -/
theorem mem_flatMap_flipped {e : Entry} :
    e ∈ (flipped ts).flatMap foreseen ↔
      ∃ i u, ts[i]? = some u ∧ ¬ (ts.any isNegation = true ∧ i = 0) ∧ e ∈ u.foreseen := by
  cases hany : ts.any isNegation with
  | false =>
      rw [flipped_of_any_eq_false hany, List.mem_flatMap]
      constructor
      · rintro ⟨u, hu, he⟩
        obtain ⟨i, hi⟩ := List.mem_iff_getElem?.mp hu
        exact ⟨i, u, hi, by simp, he⟩
      · rintro ⟨i, u, hi, -, he⟩
        exact ⟨u, List.mem_of_getElem? hi, he⟩
  | true =>
      cases ts with
      | nil => cases hany
      | cons t ts =>
          rw [flipped_of_any hany, List.flatMap_cons, foreseen_leaf, List.nil_append,
            List.mem_flatMap]
          constructor
          · rintro ⟨u, hu, he⟩
            obtain ⟨i, hi⟩ := List.mem_iff_getElem?.mp hu
            exact ⟨i + 1, u, hi, by simp, he⟩
          · rintro ⟨i, u, hi, hne, he⟩
            cases i with
            | zero => exact absurd ⟨rfl, rfl⟩ hne
            | succ i => exact ⟨u, List.mem_of_getElem? hi, he⟩

theorem mem_own {s : String} {o' : Option Note} {ls : List Leaf} :
    ⟨.other s, o', ls⟩ ∈ own k o ts ↔
      k = .other s ∧ o = o' ∧ (flipped ts).filterMap risen = ls := by
  cases k <;> simp [own, eq_comm]

end Tree

namespace Arena

variable {a c : Arena} {n m p q : NodeId} {t : Tree} {ts : List Tree} {s : String} {K : Marking}

/-! ### Displaced nodes -/

/-- The node is a test against truth that has nothing but its operand. -/
def IsNegation (a : Arena) (m : NodeId) : Prop :=
  a.kind? m = some (.branch .falsy) ∧ (a.children m).length = 1

/-- There is a negation among the children of the node, so that its first child gives way to a flag.
-/
def Flips (a : Arena) (p : NodeId) : Prop := ∃ m, .node m ∈ a.children p ∧ a.IsNegation m

/-- The node stands at or below a first child that gives way to a flag. -/
def Displaced (a : Arena) (n : NodeId) : Prop :=
  ∃ p q, a.Flips p ∧ a.child? p 0 = some (.node q) ∧ a.Below n q

/-- The second node is a child of the first one and does not give way to a flag. -/
def Spares (a : Arena) (p q : NodeId) : Prop :=
  .node q ∈ a.children p ∧ ¬ (a.Flips p ∧ a.child? p 0 = some (.node q))

theorem isNegation_iff (h : a.Shows (.node m) t) : t.isNegation = true ↔ a.IsNegation m := by
  obtain ⟨k, o, ts, rfl⟩ := h.exists_node
  obtain ⟨hk, -, hts⟩ := shows_node.mp h
  rw [Tree.isNegation_node, IsNegation, hk, hts.length_eq, Option.some.injEq]

theorem any_isNegation_iff (h : List.Forall₂ a.Shows (a.children p) ts) :
    ts.any Tree.isNegation = true ↔ a.Flips p := by
  rw [List.any_eq_true]
  constructor
  · rintro ⟨t, ht, hneg⟩
    obtain ⟨x, hx, hshow⟩ := exists_of_mem_right h ht
    cases x with
    | leaf l =>
        rw [shows_leaf.mp hshow] at hneg
        cases hneg
    | node m => exact ⟨m, hx, (isNegation_iff hshow).mp hneg⟩
  · rintro ⟨m, hm, hneg⟩
    obtain ⟨t, ht, hshow⟩ := exists_of_mem_left h hm
    exact ⟨t, ht, (isNegation_iff hshow).mpr hneg⟩

theorem not_displaced_of_spared (hwf : a.WellFormed)
    (h : Relation.ReflTransGen a.Spares a.root n) : ¬ a.Displaced n := by
  rintro ⟨p, q, hflips, hfirst, hbelow⟩
  have hq : a.parent? q = some p := (hwf.placed p 0 q hfirst).1
  induction h with
  | refl =>
      -- the root stands below nothing but itself, and it has no parent
      rcases hbelow.cases with rfl | ⟨r, hr, -⟩
      · rw [hwf.parent?_root] at hq
        cases hq
      · rw [hwf.parent?_root] at hr
        cases hr
  | @tail m n _ hstep ih =>
      have hn : a.parent? n = some m := hwf.mem_children_iff.mp hstep.1
      rcases hbelow.cases with rfl | ⟨r, hr, hbelow⟩
      · cases hn.symm.trans hq
        exact hstep.2 ⟨hflips, hfirst⟩
      · cases hn.symm.trans hr
        exact ih hbelow

theorem spared_of_not_displaced (hwf : a.WellFormed) (h : a.Below n a.root) (hn : ¬ a.Displaced n) :
    Relation.ReflTransGen a.Spares a.root n := by
  induction h using Relation.ReflTransGen.head_induction_on with
  | refl => exact .refl
  | @head n p hstep hp ih =>
      have hspared : Relation.ReflTransGen a.Spares a.root p := by
        apply ih
        rintro ⟨r, q, hflips, hfirst, hbelow⟩
        exact hn ⟨r, q, hflips, hfirst, (below_of_parent hstep).trans hbelow⟩
      refine hspared.tail ⟨hwf.mem_children_iff.mpr hstep, ?_⟩
      rintro ⟨hflips, hfirst⟩
      exact hn ⟨p, n, hflips, hfirst, .refl a n⟩

/-- **Ways.**  From the root, the ways along spared children lead to the nodes that are not
displaced. -/
theorem spared_iff (hwf : a.WellFormed) (h : a.Below n a.root) :
    Relation.ReflTransGen a.Spares a.root n ↔ ¬ a.Displaced n :=
  ⟨not_displaced_of_spared hwf, spared_of_not_displaced hwf h⟩

/-! ### Nodes with a note of their own -/

section own

variable (hk : a.kind? n = some (.other s)) (hown : ∀ m, a.note? m = a.note? n → m = n)
  {ls : List Leaf}

include hk hown

/-- A node with a note of its own is foretold exactly if it is reached along spared children. -/
theorem mem_foreseen_iff (hwf : a.WellFormed) (h : a.Shows (.node m) t)
    (hts : List.Forall₂ a.Shows (a.children n) ts) :
    ⟨.other s, a.note? n, ls⟩ ∈ t.foreseen ↔
      Relation.ReflTransGen a.Spares m n ∧ (Tree.flipped ts).filterMap Tree.risen = ls := by
  induction t using Tree.induction generalizing m with
  | leaf l => exact absurd h (by simp [Shows])
  | node k o us ih =>
      obtain ⟨hkm, hom, hus⟩ := shows_node.mp h
      rw [Tree.foreseen_node, List.mem_append, Tree.mem_own, Tree.mem_flatMap_flipped]
      constructor
      · rintro (⟨-, ho, hls⟩ | ⟨i, u, hi, hne, he⟩)
        · obtain rfl : m = n := hown m (hom.trans ho)
          rw [forall₂_unique_of_mem hts hus fun t _ x u hx hu => hx.unique hu]
          exact ⟨.refl, hls⟩
        · obtain ⟨x, hx, hshow⟩ := exists_getElem?_of_forall₂ hus hi
          cases x with
          | leaf l =>
              rw [shows_leaf.mp hshow, Tree.foreseen_leaf] at he
              cases he
          | node q =>
              obtain ⟨hspared, hls⟩ := (ih u (List.mem_of_getElem? hi) hshow).mp he
              refine ⟨hspared.head ⟨List.mem_of_getElem? hx, ?_⟩, hls⟩
              rintro ⟨hflips, hfirst⟩
              exact hne ⟨(any_isNegation_iff hus).mpr hflips, (hwf.once m i m 0 q hx hfirst).2⟩
      · rintro ⟨hspared, hls⟩
        rcases Relation.ReflTransGen.cases_head hspared with rfl | ⟨q, ⟨hq, hspares⟩, hspared⟩
        · refine .inl ⟨Option.some.inj (hkm.symm.trans hk), hom.symm, ?_⟩
          rw [forall₂_unique_of_mem hus hts fun t _ x u hx hu => hx.unique hu]
          exact hls
        · obtain ⟨i, hi⟩ := List.mem_iff_getElem?.mp hq
          obtain ⟨u, hu, hshow⟩ := exists_getElem?_of_forall₂ hus.flip hi
          refine .inr ⟨i, u, hu, ?_, ?_⟩
          · rintro ⟨hany, rfl⟩
            exact hspares ⟨(any_isNegation_iff hus).mp hany, hi⟩
          · exact (ih u (List.mem_of_getElem? hu) hshow).mpr ⟨hspared, hls⟩

/-- A node with a note of its own stands in the tree exactly if it is listed. -/
theorem mem_nodes_iff (hwf : a.WellFormed) (h : a.Shows (.node a.root) t) :
    ⟨.other s, a.note? n, ls⟩ ∈ t.nodes ↔ n ∈ a.descendants ∧ a.leavesOf n = ls := by
  have hlist := map_nodesBelow h (Nat.le_succ_of_le (h.height_le hwf))
  have hmem (e : Entry) : e ∈ t.nodes ↔ ∃ m ∈ a.descendants, a.seen? m = some e := by
    rw [← List.mem_map, descendants, hlist]
    simp
  rw [hmem]
  constructor
  · rintro ⟨m, hm, hseen⟩
    obtain ⟨k, -, he⟩ := Option.map_eq_some_iff.mp hseen
    obtain ⟨-, hnote, hleaves⟩ := Entry.mk.inj he
    obtain rfl := hown m hnote
    exact ⟨hm, hleaves⟩
  · rintro ⟨hn, hleaves⟩
    exact ⟨n, hn, by rw [seen?, hk, Option.map_some, hleaves]⟩

end own

/-! ### Leaves -/

/-- A pop or a test with a single operand, of which nothing but a constant is left: the operand is
one, or gives way to a flag, or comes to the same in turn. -/
inductive Crumbles (a : Arena) : NodeId → Prop
  | constant {m : NodeId} {k : Kind} {l : Leaf} (hk : a.kind? m = some k) (hd : k.dissolves = true)
      (hx : a.children m = [.leaf l]) : Crumbles a m
  | flag {m q : NodeId} {k : Kind} (hk : a.kind? m = some k) (hd : k.dissolves = true)
      (hx : a.children m = [.node q]) (hq : a.IsNegation q) : Crumbles a m
  | operand {m q : NodeId} {k : Kind} (hk : a.kind? m = some k) (hd : k.dissolves = true)
      (hx : a.children m = [.node q]) (hq : Crumbles a q) : Crumbles a m

theorem risen_eq_none (h : a.Shows (.node m) t) (hm : ¬ a.Crumbles m) : t.risen = none := by
  induction t using Tree.induction generalizing m with
  | leaf l => exact absurd h (by simp [Shows])
  | node k o ts ih =>
      obtain ⟨hk, -, hts⟩ := shows_node.mp h
      cases ts with
      | nil => rfl
      | cons t ts =>
          cases ts with
          | cons u ts => rfl
          | nil =>
              obtain ⟨x, _, hx, hnil, hlist⟩ := List.forall₂_cons_right_iff.mp hts
              rw [List.forall₂_nil_right_iff.mp hnil] at hlist
              rw [Tree.risen]
              split_ifs with hd hneg
              · cases x with
                | leaf l => exact absurd (.constant hk hd hlist) hm
                | node q => exact absurd (.flag hk hd hlist ((isNegation_iff hx).mp hneg)) hm
              · cases x with
                | leaf l => exact absurd (.constant hk hd hlist) hm
                | node q => exact ih t List.mem_cons_self hx fun hq => hm (.operand hk hd hlist hq)
              · rfl

/-- A node keeps its leaves if no child of it is a negation or comes down to a constant. -/
theorem filterMap_risen_eq (h : List.Forall₂ a.Shows (a.children n) ts) (hn : ¬ a.Flips n)
    (hm : ∀ m, .node m ∈ a.children n → ¬ a.Crumbles m) :
    (Tree.flipped ts).filterMap Tree.risen = a.leavesOf n := by
  have hany : ts.any Tree.isNegation = false :=
    Bool.eq_false_iff.mpr fun hany => hn ((any_isNegation_iff h).mp hany)
  rw [Tree.flipped_of_any_eq_false hany, leavesOf, leaves_of_shows h]
  refine List.filterMap_congr fun t ht => ?_
  obtain ⟨x, hx, hshow⟩ := exists_of_mem_right h ht
  cases x with
  | leaf l =>
      rw [shows_leaf.mp hshow]
      rfl
  | node m =>
      rw [risen_eq_none hshow (hm m hx)]
      obtain ⟨k, o, us, rfl⟩ := hshow.exists_node
      rfl

/-! ### The marked arena -/

theorem wellFormed_mark (h : a.WellFormed) : (a.mark K).WellFormed :=
  h.congr rfl (Nat.le_of_eq size_mark.symm) (fun _ => children_mark) (fun _ => parent?_mark)
    fun _ => index_mark

theorem descendants_mark : (a.mark K).descendants = a.descendants := by
  have hbelow (depth : Nat) (n : NodeId) :
      (a.mark K).nodesBelow depth n = a.nodesBelow depth n := by
    induction depth generalizing n with
    | zero => rfl
    | succ depth ih => rw [nodesBelow, nodesBelow, childNodes_mark, funext ih]
  rw [descendants, size_mark, hbelow, descendants, root_mark]

theorem leavesOf_mark : (a.mark K).leavesOf n = a.leavesOf n := by
  rw [leavesOf, children_mark, leavesOf]

theorem below_mark : (a.mark K).Below n m ↔ a.Below n m := by
  have hunder : (a.mark K).Under = a.Under := by
    funext n p
    rw [Under, parent?_mark, Under]
  rw [Below, hunder, Below]

theorem displaced_mark : (a.mark K).Displaced n ↔ a.Displaced n := by
  simp only [Displaced, Flips, IsNegation, kind?_mark, children_mark, child?_mark, below_mark]

theorem map_bare_of_forall₂ {R S : Child → Tree → Prop} {xs : List Child} {us : List Tree}
    (h : List.Forall₂ R xs ts) (h' : List.Forall₂ S xs us)
    (hRS : ∀ t ∈ ts, ∀ x u, R x t → S x u → u.bare = t.bare) :
    us.map Tree.bare = ts.map Tree.bare := by
  induction h generalizing us with
  | nil =>
      cases h'
      rfl
  | cons hx _ ih =>
      cases h' with
      | cons hu h' =>
          rw [List.map_cons, List.map_cons, hRS _ List.mem_cons_self _ _ hx hu,
            ih h' fun t ht => hRS t (List.mem_cons_of_mem _ ht)]

theorem bare_eq_of_shows {x : Child} {u : Tree} (h : a.Shows x t) (h' : (a.mark K).Shows x u) :
    u.bare = t.bare := by
  induction t using Tree.induction generalizing x u with
  | leaf l =>
      cases x with
      | leaf l' => rw [shows_leaf.mp h', shows_leaf.mp h]
      | node n => exact absurd h (by simp [Shows])
  | node k o ts ih =>
      cases x with
      | leaf l => exact absurd h (by simp [Shows])
      | node n =>
          obtain ⟨k', o', us, rfl⟩ := h'.exists_node
          obtain ⟨hk, -, hts⟩ := shows_node.mp h
          obtain ⟨hk', -, hus⟩ := shows_node.mp h'
          rw [kind?_mark, hk] at hk'
          cases hk'
          rw [children_mark] at hus
          rw [Tree.bare_node, Tree.bare_node, map_bare_of_forall₂ hts hus fun t ht x u => ih t ht]

theorem map_bare_of_shows {us : List Tree} (h : List.Forall₂ a.Shows (a.children n) ts)
    (h' : List.Forall₂ (a.mark K).Shows ((a.mark K).children n) us) :
    us.map Tree.bare = ts.map Tree.bare :=
  map_bare_of_forall₂ h (children_mark ▸ h') fun _ _ _ _ => bare_eq_of_shows

/-! ### Nodes of unknown kinds -/

/-- All nodes of unknown kinds are marked. -/
def unknowns (a : Arena) : Marking := fun n =>
  match a.kind? n with
  | some (.other s) => some s
  | _ => none

theorem unknowns_eq_some_iff : a.unknowns n = some s ↔ a.kind? n = some (.other s) := by
  unfold unknowns
  split
  · rename_i s' hs
    rw [hs, Option.some.injEq, Option.some.injEq, Kind.other.injEq]
  · rename_i hne
    exact ⟨nofun, fun hs => absurd hs (hne s)⟩

/-- What a node keeps: its kind; and its leaves, where a first child that gives way to a flag, and
children of which nothing but a constant is left, bring leaves of their own. -/
structure Keeps (a c : Arena) (n : NodeId) : Prop where
  kind : c.kind? n = a.kind? n
  leaves : ∃ ts, List.Forall₂ a.Shows (a.children n) ts ∧
    c.leavesOf n = (Tree.flipped ts).filterMap Tree.risen
  same : ¬ a.Flips n → (∀ m, .node m ∈ a.children n → ¬ a.Crumbles m) →
    c.leavesOf n = a.leavesOf n

theorem Keeps.of_leaves (hk : c.kind? n = a.kind? n) (hts : List.Forall₂ a.Shows (a.children n) ts)
    (h : c.leavesOf n = (Tree.flipped ts).filterMap Tree.risen) : Keeps a c n :=
  ⟨hk, ⟨ts, hts, h⟩, fun hn hm => h.trans (filterMap_risen_eq hts hn hm)⟩

/-- Where the tracked nodes of the marked result are those foretold of the marked arena, a marked
node stays exactly if it is not displaced. -/
theorem keeps_of_perm {t' : Tree} (hwf : a.WellFormed) (ha : a.Suits K) (hn : K n = some s)
    (hbelow : a.Below n a.root) (h : (a.mark K).Shows (.node a.root) t)
    (hcwf : (c.mark K).WellFormed) (hc : c.Suits K) (h' : (c.mark K).Shows (.node c.root) t')
    (hperm : t'.tracked.Perm t.foreseen) :
    (n ∈ c.descendants ↔ ¬ a.Displaced n) ∧ (n ∈ c.descendants → Keeps a c n) := by
  have hmark := wellFormed_mark (K := K) hwf
  have hka : (a.mark K).kind? n = some (.other s) := kind?_mark.trans (ha n s hn)
  have hkc : (c.mark K).kind? n = some (.other s) := kind?_mark.trans (hc n s hn)
  have hlt : n < a.size := lt_of_below hbelow hwf.root_lt
  obtain ⟨u, hu, -⟩ := exists_shows hwf hlt
  obtain ⟨v, hv, -⟩ := exists_shows hmark (size_mark.symm ▸ hlt)
  obtain ⟨k, o, ts, rfl⟩ := hu.exists_node
  obtain ⟨k', o', us, rfl⟩ := hv.exists_node
  obtain ⟨-, -, hts⟩ := shows_node.mp hu
  obtain ⟨-, -, hus⟩ := shows_node.mp hv
  have hentry (ls : List Leaf) : ⟨.other s, (a.mark K).note? n, ls⟩ ∈ t.foreseen ↔
      ⟨.other s, (c.mark K).note? n, ls⟩ ∈ t'.nodes := by
    rw [ha.note?_mark hn, hc.note?_mark hn, ← hperm.mem_iff, Tree.tracked, List.mem_filter]
    exact ⟨And.left, fun he => ⟨he, rfl⟩⟩
  have hiff (ls : List Leaf) : n ∈ c.descendants ∧ c.leavesOf n = ls ↔
      ¬ a.Displaced n ∧ (Tree.flipped us).filterMap Tree.risen = ls := by
    rw [← descendants_mark (K := K), ← leavesOf_mark (K := K),
      ← mem_nodes_iff hkc (fun _ => hc.eq_of_note? hn) hcwf h', ← hentry,
      mem_foreseen_iff hka (fun _ => ha.eq_of_note? hn) hmark h hus, ← root_mark (K := K),
      spared_iff hmark (below_mark.mpr hbelow), displaced_mark]
  refine ⟨⟨fun hmem => ((hiff _).mp ⟨hmem, rfl⟩).1, fun hd => ((hiff _).mpr ⟨hd, rfl⟩).1⟩,
    fun hmem => .of_leaves ?_ hts ?_⟩
  · rw [hc n s hn, ha n s hn]
  · rw [← ((hiff _).mp ⟨hmem, rfl⟩).2, Tree.filterMap_risen_of_bare (map_bare_of_shows hts hus)]

/-- **A block of steps is normalised,** and its nodes of unknown kinds stay, apart from those that
are displaced. -/
theorem exists_normalize_keeping {o : Option Note} (hwf : a.WellFormed)
    (h : a.Shows (.node a.root) (.node (.other s) o ts)) (hts : ∀ t ∈ ts, t.Step) :
    ∃ c, a.normalize.result = .ok c ∧
      ∀ n ∈ a.descendants, ∀ s, a.kind? n = some (.other s) →
        (n ∈ c.descendants ↔ ¬ a.Displaced n) ∧ (n ∈ c.descendants → Keeps a c n) := by
  have hsuits : a.Suits a.unknowns := fun n s => unknowns_eq_some_iff.mp
  have hmark := wellFormed_mark (K := a.unknowns) hwf
  obtain ⟨t, ht, -⟩ := exists_shows hmark hmark.root_lt
  obtain ⟨o', us, rfl, hus⟩ := Tree.exists_node_of_bare (bare_eq_of_shows h ht)
  have hsteps : ∀ u ∈ us, u.Step :=
    Tree.forall_of_map_bare hus fun t ht => Tree.step_of_bare (hts t ht)
  obtain ⟨t', ht', hperm⟩ := Tree.exists_normalize_of_steps s o' hsteps
  have hsim := normalize_simulates hmark ht
  rw [ht'] at hsim
  obtain ⟨c', hc', hworked, hshow⟩ := hsim.exists_ok
  have halike := alike_normalize hsuits
  rw [hc'] at halike
  obtain ⟨c, hc, rfl, hcs⟩ := halike.exists_ok
  rw [← hworked.root] at hshow
  exact ⟨c, hc, fun n hn s hk => keeps_of_perm hwf hsuits (unknowns_eq_some_iff.mpr hk)
    (below_of_mem_nodesBelow hwf hn) ht hworked.wellFormed hcs hshow hperm⟩

end Arena

namespace Body

/-- The operand of a reversed test can be lost: in `return_value` the flag takes the place of the
test itself. -/
theorem operand_not_kept_of_returnValue :
    let b : Body := ⟨[.returnValue (.bare false (.localVar 1))]⟩
    b.Proper ∧ ∃ a c n, Arena.read b.render = .ok a ∧ a.normalize.result = .ok c ∧
      n ∈ a.descendants ∧ a.kind? n = some (.other "get_local") ∧ n ∉ c.descendants := by
  intro b
  have hproper : b.Proper :=
    List.forall_mem_cons.mpr ⟨trivial, fun _ hs => absurd hs List.not_mem_nil⟩
  have hrun : (Arena.numbered b.tree).normalize.result.toOption.map
      (fun c => decide (1 ∈ c.descendants)) = some false := by decide +kernel
  obtain ⟨c, hc, hlost⟩ := Option.map_eq_some_iff.mp hrun
  have hnormalize : (Arena.numbered b.tree).normalize.result = .ok c := by
    cases hresult : (Arena.numbered b.tree).normalize.result with
    | error e =>
        rw [hresult] at hc
        cases hc
    | ok c' =>
        rw [hresult] at hc
        exact congrArg Except.ok (Option.some.inj hc)
  exact ⟨hproper, _, c, 1, (b.read_render hproper).1, hnormalize, by decide +kernel,
    by decide +kernel, of_decide_eq_false hlost⟩

/-- **What survives in a body.**  Of the nodes of unknown kinds in the text of a proper body,
exactly those stay that are not displaced, and they keep their kinds and their leaves. -/
theorem kept_iff_not_displaced (b : Body) (h : b.Proper) :
    ∃ a c, Arena.read b.render = .ok a ∧ a.normalize.result = .ok c ∧
      ∀ n ∈ a.descendants, ∀ s, a.kind? n = some (.other s) →
        (n ∈ c.descendants ↔ ¬ a.Displaced n) ∧ (n ∈ c.descendants → Arena.Keeps a c n) := by
  obtain ⟨hread, htree⟩ := b.read_render h
  have hwf := Arena.wellFormed_read hread
  have hsteps : ∀ t ∈ b.stmts.map Stmt.tree, t.Step := by
    simpa using fun s hs => s.step_tree (h s hs)
  obtain ⟨c, hc, hkeeps⟩ :=
    Arena.exists_normalize_keeping hwf ((Arena.tree_eq_ok_iff hwf).mp htree) hsteps
  exact ⟨_, c, hread, hc, hkeeps⟩

/-- A body in which a flag takes the place of a number, of an operand, and of a whole statement.
The operand `get_local 3` is displaced; `get_lex x` stays with its text, although the number next to
it in `set_local` is lost. -/
theorem kept_iff_not_displaced_flags :
    let b : Body := ⟨[.setLocal 1 (.bare false (.name "x")),
      .returnValue (.binary "add" (.bare false (.localVar 3)) (.int 4)),
      .pop (.bare false (.localVar 2))]⟩
    b.Proper ∧ ∃ a c, Arena.read b.render = .ok a ∧ a.normalize.result = .ok c ∧
      (a.kind? 4 = some (.other "get_local") ∧ a.leavesOf 4 = [.int 3] ∧ a.Displaced 4 ∧
        4 ∉ c.descendants) ∧
      (a.kind? 1 = some (.other "get_lex") ∧ ¬ a.Displaced 1 ∧ 1 ∈ c.descendants ∧
        c.kind? 1 = some (.other "get_lex") ∧ c.leavesOf 1 = [.text "x"]) ∧
      a.kind? 3 = some (.other "set_local") ∧ Arena.Keeps a c 3 ∧ a.leavesOf 3 = [.int 1] ∧
      c.leavesOf 3 = [.bool false] := by
  intro b
  have hproper : b.Proper := List.forall_mem_cons.mpr ⟨isSymbol_of_all (by decide),
    List.forall_mem_cons.mpr ⟨⟨by decide, trivial, trivial⟩,
      List.forall_mem_cons.mpr ⟨trivial, fun _ hs => absurd hs List.not_mem_nil⟩⟩⟩
  obtain ⟨a, c, hread, hc, hkept⟩ := kept_iff_not_displaced b hproper
  cases hread.symm.trans (b.read_render hproper).1
  have hrun : (Arena.numbered b.tree).normalize.result.map
      (fun c => (decide (1 ∈ c.descendants), decide (3 ∈ c.descendants), c.leavesOf 1,
        c.leavesOf 3))
      = .ok (true, true, [.text "x"], [.bool false]) := by
    decide +kernel
  rw [hc] at hrun
  obtain ⟨hone, hthree, htext, hflag⟩ :
      decide (1 ∈ c.descendants) = true ∧ decide (3 ∈ c.descendants) = true ∧
        c.leavesOf 1 = [.text "x"] ∧ c.leavesOf 3 = [.bool false] := by
    simpa only [Except.map, Except.ok.injEq, Prod.mk.injEq] using hrun
  have hlocal := hkept 4 (by decide +kernel) "get_local" (by decide +kernel)
  have hlex := hkept 1 (by decide +kernel) "get_lex" (by decide +kernel)
  have hset := hkept 3 (by decide +kernel) "set_local" (by decide +kernel)
  have hdisplaced : (Arena.numbered b.tree).Displaced 4 :=
    ⟨7, 5, ⟨5, by decide +kernel, by decide +kernel, by decide +kernel⟩, by decide +kernel,
      Arena.below_of_parent (by decide +kernel)⟩
  have hin : 1 ∈ c.descendants := of_decide_eq_true hone
  have hkeeps := hlex.2 hin
  refine ⟨hproper, _, c, hread, hc, ⟨by decide +kernel, by decide +kernel, hdisplaced,
    fun h => hlocal.1.mp h hdisplaced⟩, ⟨by decide +kernel, hlex.1.mp hin, hin,
    hkeeps.kind.trans (by decide +kernel), htext⟩, by decide +kernel,
    hset.2 (of_decide_eq_true hthree), by decide +kernel, hflag⟩

end Body

end Unstack
