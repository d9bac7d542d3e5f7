import Unstack.Walk.Script
import Unstack.Proofs.Walk.Order

/-! # Splicing a whole tree

Splicing puts the children of every expansion below the root in its place.  It goes from node to
node, children before their parent; which of two siblings comes first makes no difference, not even
to the positions that nodes without a parent have kept.

* **Opened lists.**  `Arena.Opens a cs ds` says that `ds` is `cs` with all expansions opened, those
  inside of expansions as well.
* **Work done so far.**  `Arena.Spliced a S b` says what `b` is when the nodes of `S`, and nothing
  else, have been spliced in `a`.  There is one such `b` (`Spliced.unique`).  A node may be spliced
  as soon as its children are done (`Spliced.splice`), and the children may be done in any order
  (`exists_foldlM_children`); so every walk that ends with the whole tree ends with the same arena.
* **Walks.**  Two walks are of this kind: the one that splices from the last child to the first
  (`splicesBelow_spliceBelow`), and the one that hands every node to a handler that does nothing
  (`splicesBelow_visit`).
* **A stack in place of the recursion.**  `Arena.rounds` splices with a stack of nodes that are to
  be entered or left.  Wherever the recursion ends, the stack ends with the same arena, after the
  same events (`roundsTo_spliceBelow`).
* **Trees.**  What is shown in the end is `Tree.flattened` of what was shown at the start. -/

namespace Unstack

open Outcome

/-! ### Trees without expansions -/

namespace Tree

mutual

/-- What a tree leaves in its place when all expansions are opened. -/
def inlined : Tree → List Tree
  | .leaf l => [.leaf l]
  | .node kind note ts =>
    if kind = .expand then inlinedAll ts else [.node kind note (inlinedAll ts)]

/-- What several trees leave, in order. -/
def inlinedAll : List Tree → List Tree
  | [] => []
  | t :: ts => inlined t ++ inlinedAll ts

end

/-- The tree with every expansion below its top opened. -/
def flattened : Tree → Tree
  | .leaf l => .leaf l
  | .node kind note ts => .node kind note (inlinedAll ts)

end Tree

namespace Arena

variable {a b c : Arena} {S T : NodeId → Prop} {m n p r x : NodeId} {cs ds es : List Child}
  {k : Kind} {o : Option Note} {t : Tree} {ts : List Tree} {depth : Nat}

/-! ### Opened lists -/

/-- The list `ds` is `cs` with the children of every expansion in its place, and so on with the
expansions among these. -/
inductive Opens (a : Arena) : List Child → List Child → Prop
  | nil : Opens a [] []
  | leaf {cs ds : List Child} (l : Leaf) (h : Opens a cs ds) :
      Opens a (.leaf l :: cs) (.leaf l :: ds)
  | keep {n : NodeId} {cs ds : List Child} (hn : a.hasKind n .expand = false) (h : Opens a cs ds) :
      Opens a (.node n :: cs) (.node n :: ds)
  | expand {n : NodeId} {cs ds es : List Child} (hn : a.hasKind n .expand = true)
      (hown : Opens a (a.children n) es) (h : Opens a cs ds) : Opens a (.node n :: cs) (es ++ ds)

theorem Opens.unique (h : a.Opens cs ds) (h' : a.Opens cs es) : ds = es := by
  induction h generalizing es with
  | nil =>
      cases h'
      rfl
  | leaf l _ ih =>
      cases h' with
      | leaf _ h' => rw [ih h']
  | keep hn _ ih =>
      cases h' with
      | keep _ h' => rw [ih h']
      | expand hn' =>
          rw [hn] at hn'
          cases hn'
  | expand hn _ _ ihown ih =>
      cases h' with
      | keep hn' =>
          rw [hn] at hn'
          cases hn'
      | expand _ hown' h' => rw [ihown hown', ih h']

/-- An opened list holds no expansion, and only nodes that stand at or below those of the list. -/
theorem Opens.of_mem (h : a.WellFormed) (ho : a.Opens cs ds) (hm : .node m ∈ ds) :
    a.hasKind m .expand = false ∧ ∃ x, .node x ∈ cs ∧ a.Below m x := by
  induction ho with
  | nil => cases hm
  | leaf l _ ih =>
      rcases List.mem_cons.mp hm with hm | hm
      · cases hm
      · obtain ⟨hk, x, hx, hmx⟩ := ih hm
        exact ⟨hk, x, List.mem_cons_of_mem _ hx, hmx⟩
  | keep hn _ ih =>
      rcases List.mem_cons.mp hm with hm | hm
      · cases hm
        exact ⟨hn, m, List.mem_cons_self, .refl a m⟩
      · obtain ⟨hk, x, hx, hmx⟩ := ih hm
        exact ⟨hk, x, List.mem_cons_of_mem _ hx, hmx⟩
  | @expand n _ _ _ _ _ _ ihown ih =>
      rcases List.mem_append.mp hm with hm | hm
      · obtain ⟨hk, x, hx, hmx⟩ := ihown hm
        have hxn : a.parent? x = some n := h.mem_children_iff.mp hx
        exact ⟨hk, n, List.mem_cons_self, hmx.trans (below_of_parent hxn)⟩
      · obtain ⟨hk, x, hx, hmx⟩ := ih hm
        exact ⟨hk, x, List.mem_cons_of_mem _ hx, hmx⟩

/-- What a list adds to the list above it when the children of its expansions are opened already. -/
theorem opens_flatMap_contents (hs : SameNodes a b)
    (hown : ∀ n, .node n ∈ cs → a.hasKind n .expand = true →
      a.Opens (a.children n) (b.children n)) : a.Opens cs (cs.flatMap b.contents) := by
  induction cs with
  | nil => exact .nil
  | cons c cs ih =>
      have htail := ih fun n hn => hown n (List.mem_cons_of_mem c hn)
      rw [List.flatMap_cons]
      cases c with
      | leaf l => exact .leaf l htail
      | node n =>
          rw [contents, hs.hasKind]
          split_ifs with hn
          · exact .expand hn (hown n List.mem_cons_self hn) htail
          · exact .keep (Bool.eq_false_of_not_eq_true hn) htail

theorem opens_self (h : ∀ n, .node n ∈ cs → a.hasKind n .expand = false) : a.Opens cs cs := by
  induction cs with
  | nil => exact .nil
  | cons c cs ih =>
      have htail := ih fun n hn => h n (List.mem_cons_of_mem c hn)
      cases c with
      | leaf l => exact .leaf l htail
      | node n => exact .keep (h n List.mem_cons_self) htail

/-! ### Work done so far -/

/-- The node has been spliced away: it is an expansion, and its parent is among the nodes done. -/
def Gone (a : Arena) (S : NodeId → Prop) (n : NodeId) : Prop :=
  a.hasKind n .expand = true ∧ ∃ p, a.parent? n = some p ∧ S p

/-- The arena `b` is `a` after the nodes of `S` have been spliced. -/
structure Spliced (a : Arena) (S : NodeId → Prop) (b : Arena) : Prop extends SameNodes a b where
  wellFormed : b.WellFormed
  /-- A node is done after everything below it. -/
  closed : ∀ n p, a.parent? n = some p → S p → S n
  untouched : ∀ n, ¬ S n → b.children n = a.children n
  opened : ∀ n, S n → ¬ a.Gone S n → a.Opens (a.children n) (b.children n)
  emptied : ∀ n, a.Gone S n → b.children n = []
  /-- A node without a parent still has the position that it had last. -/
  stale : ∀ n, b.parent? n = none → b.index n = a.index n

theorem spliced_refl (h : a.WellFormed) : Spliced a (fun _ => False) a where
  toSameNodes := .refl a
  wellFormed := h
  closed _ _ _ hp := hp
  untouched _ _ := rfl
  opened _ hn := hn.elim
  emptied n hn := by
    obtain ⟨-, p, -, hp⟩ := hn
    exact hp.elim
  stale _ _ := rfl

namespace Spliced

theorem congr (h : Spliced a S b) (hST : ∀ m, S m ↔ T m) : Spliced a T b := by
  have heq : S = T := funext fun m => propext (hST m)
  rw [← heq]
  exact h

theorem children_eq (hb : Spliced a S b) (hc : Spliced a S c) (n : NodeId) :
    b.children n = c.children n := by
  by_cases hn : S n
  · by_cases hgone : a.Gone S n
    · rw [hb.emptied n hgone, hc.emptied n hgone]
    · exact (hb.opened n hn hgone).unique (hc.opened n hn hgone)
  · rw [hb.untouched n hn, hc.untouched n hn]

/-- **The nodes done decide everything**, whatever the order in which they were done. -/
theorem unique (hb : Spliced a S b) (hc : Spliced a S c) : b = c := by
  refine hc.wellFormed.eq_of_children hb.wellFormed ⟨?_, ?_, fun n => ?_, fun n => ?_⟩
    (children_eq hb hc) fun n hn => ?_
  · rw [hb.root, hc.root]
  · rw [hb.size, hc.size]
  · rw [hb.kind, hc.kind]
  · rw [hb.note, hc.note]
  · have hnone : c.parent? n = none := by
      refine Option.eq_none_iff_forall_ne_some.mpr fun p hp => ?_
      have hmem := hc.wellFormed.mem_children_iff.mpr hp
      rw [← children_eq hb hc, hb.wellFormed.mem_children_iff, hn] at hmem
      cases hmem
    rw [hb.stale n hn, hc.stale n hnone]

section

variable (h : a.WellFormed) (hb : Spliced a S b)

include h hb

/-- A node whose parent is not done has not been moved. -/
theorem parent?_iff (hn : ¬ S n) : b.parent? m = some n ↔ a.parent? m = some n := by
  rw [← hb.wellFormed.mem_children_iff, ← h.mem_children_iff, hb.untouched n hn]

theorem index_eq (hn : ¬ S n) (hm : a.parent? m = some n) : b.index m = a.index m := by
  have hlisted := h.listed m n hm
  rw [child?, ← hb.untouched n hn] at hlisted
  exact (hb.wellFormed.placed n _ m hlisted).2

/-- The children of a node that is done are no expansions, and stood below it before. -/
theorem of_parent (hm : b.parent? m = some p) (hp : S p) :
    a.hasKind m .expand = false ∧ a.Below m p := by
  have hmem := hb.wellFormed.mem_children_iff.mpr hm
  by_cases hgone : a.Gone S p
  · rw [hb.emptied p hgone] at hmem
    cases hmem
  · obtain ⟨hk, x, hx, hmx⟩ := (hb.opened p hp hgone).of_mem h hmem
    exact ⟨hk, hmx.trans (below_of_parent (h.mem_children_iff.mp hx))⟩

/-- Nodes only move up. -/
theorem below (hm : b.Below m r) : a.Below m r := by
  induction hm using Relation.ReflTransGen.head_induction_on with
  | refl => exact .refl a r
  | @head m p hstep _ ih =>
      refine Below.trans ?_ ih
      by_cases hp : S p
      · exact (hb.of_parent h hstep hp).2
      · exact below_of_parent ((hb.parent?_iff h hp).mp hstep)

/-- A node that is spliced away has no parent. -/
theorem parent?_of_gone (hn : a.Gone S n) : b.parent? n = none := by
  obtain ⟨hk, p, hp, hSp⟩ := hn
  refine Option.eq_none_iff_forall_ne_some.mpr fun q hq => ?_
  by_cases hSq : S q
  · rw [(hb.of_parent h hq hSq).1] at hk
    cases hk
  · rw [(hb.parent?_iff h hSq).mp hq] at hp
    cases hp
    exact hSq hSp

/-! ### One node more -/

/-- The expansions that are spliced away with `n`. -/
theorem mem_expansionsOf_iff (hn : ¬ S n) :
    m ∈ b.expansionsOf (b.children n) ↔ a.parent? m = some n ∧ a.hasKind m .expand = true := by
  rw [mem_expansions_iff hb.wellFormed, hb.parent?_iff h hn, hb.hasKind]

theorem gone_or_iff (hn : ¬ S n) :
    a.Gone (fun m => S m ∨ m = n) m ↔ a.Gone S m ∨ m ∈ b.expansionsOf (b.children n) := by
  rw [hb.mem_expansionsOf_iff h hn]
  constructor
  · rintro ⟨hk, p, hp, hSp | rfl⟩
    · exact .inl ⟨hk, p, hp, hSp⟩
    · exact .inr ⟨hp, hk⟩
  · rintro (⟨hk, p, hp, hSp⟩ | ⟨hp, hk⟩)
    · exact ⟨hk, p, hp, .inl hSp⟩
    · exact ⟨hk, n, hp, .inr rfl⟩

/-- What loses its parent with `n`, or has none already, keeps its position. -/
theorem index_splice_eq (hlt : n < a.size) (hn : ¬ S n) (hm : (b.splice n).parent? m = none) :
    (b.splice n).index m = a.index m := by
  have hltb : n < b.size := hb.lt_size hlt
  have hwf := wellFormed_splice hb.wellFormed hltb
  have hself : (b.splice n).children n = (b.children n).flatMap b.contents := by
    rw [children_splice hltb, if_pos rfl]
  have hnot : .node m ∉ (b.children n).flatMap b.contents := by
    intro hmem
    rw [← hself, hwf.mem_children_iff, hm] at hmem
    cases hmem
  rw [parent?_splice hb.wellFormed hltb, if_neg hnot] at hm
  rw [Arena.index_splice hb.wellFormed hltb, if_neg hnot]
  split_ifs at hm with he
  · exact hb.index_eq h hn ((hb.mem_expansionsOf_iff h hn).mp he).1
  · exact hb.stale m hm

/-- **A node may be spliced when its children are done.** -/
theorem splice (hlt : n < a.size) (hn : ¬ S n) (hchild : ∀ m, a.parent? m = some n → S m) :
    Spliced a (fun m => S m ∨ m = n) (b.splice n) := by
  have hltb : n < b.size := hb.lt_size hlt
  have hexp := fun m => hb.mem_expansionsOf_iff h (m := m) hn
  have hgone := fun m => hb.gone_or_iff h (m := m) hn
  have hlist := fun q => children_splice (a := b) hltb q
  refine
    { root := by rw [root_splice, hb.root]
      size := by rw [size_splice, hb.size]
      kind := fun m => by rw [kind?_splice, hb.kind]
      note := fun m => by rw [note?_splice, hb.note]
      wellFormed := wellFormed_splice hb.wellFormed hltb
      closed := ?closed
      untouched := ?untouched
      opened := ?opened
      emptied := ?emptied
      stale := fun m hm => hb.index_splice_eq h hlt hn hm }
  case closed =>
    rintro m p hp (hSp | rfl)
    · exact .inl (hb.closed m p hp hSp)
    · exact .inl (hchild m hp)
  case untouched =>
    intro m hm
    have hne : m ∉ b.expansionsOf (b.children n) := fun he =>
      hm (.inl (hchild m ((hexp m).mp he).1))
    rw [hlist, if_neg fun e => hm (.inr e), if_neg hne, hb.untouched m fun e => hm (.inl e)]
  case opened =>
    intro m hm hstay
    rw [hgone, not_or] at hstay
    rcases hm with hm | rfl
    · have hne : m ≠ n := by
        rintro rfl
        exact hn hm
      rw [hlist, if_neg hne, if_neg hstay.2]
      exact hb.opened m hm hstay.1
    · -- the children are done, and those that are expansions have not been spliced away yet
      rw [hlist, if_pos rfl, hb.untouched m hn]
      refine opens_flatMap_contents hb.toSameNodes fun x hx _ => ?_
      have hxm := h.mem_children_iff.mp hx
      refine hb.opened x (hchild x hxm) ?_
      rintro ⟨-, q, hq, hSq⟩
      rw [hxm] at hq
      cases hq
      exact hn hSq
  case emptied =>
    intro m hm
    rcases (hgone m).mp hm with ⟨hk, p, hp, hSp⟩ | he
    · have hne : m ≠ n := by
        rintro rfl
        exact hn (hb.closed m p hp hSp)
      rw [hlist, if_neg hne, hb.emptied m ⟨hk, p, hp, hSp⟩, ite_self]
    · have hne : m ≠ n := h.acyclic.ne_parent ((hexp m).mp he).1
      rw [hlist, if_neg hne, if_pos he]

end

end Spliced

/-! ### Whole subtrees -/

/-- The computation splices `x` and everything below it, whatever has been spliced elsewhere. -/
def SplicesBelow (a : Arena) (x : NodeId) (f : Arena → Traced Arena) : Prop :=
  ∀ S c, Spliced a S c → (∀ m, a.Below m x → ¬ S m) →
    ∃ b, (f c).result = .ok b ∧ Spliced a (fun m => S m ∨ a.Below m x) b

/-- One subtree after the other. -/
theorem exists_foldlM_splice {f : Arena → NodeId → Traced Arena} {xs : List NodeId}
    (hf : ∀ x ∈ xs, a.SplicesBelow x (f · x))
    (hapart : xs.Pairwise fun x y => ∀ m, a.Below m y → ¬ a.Below m x) (hc : Spliced a S c)
    (hS : ∀ x ∈ xs, ∀ m, a.Below m x → ¬ S m) :
    ∃ b, (xs.foldlM f c).result = .ok b ∧
      Spliced a (fun m => S m ∨ ∃ x ∈ xs, a.Below m x) b := by
  induction xs generalizing S c with
  | nil => exact ⟨c, rfl, hc.congr (by simp)⟩
  | cons x xs ih =>
      rw [List.pairwise_cons] at hapart
      obtain ⟨d, hd, hSd⟩ := hf x List.mem_cons_self S c hc (hS x List.mem_cons_self)
      obtain ⟨b, hb, hSb⟩ := ih (fun y hy => hf y (List.mem_cons_of_mem x hy)) hapart.2 hSd <| by
        rintro y hy m hm (hSm | hmx)
        · exact hS y (List.mem_cons_of_mem x hy) m hm hSm
        · exact hapart.1 y hy m hm hmx
      refine ⟨b, ?_, hSb.congr fun m => ?_⟩
      · rw [List.foldlM_cons, Traced.result_bind, hd]
        exact hb
      · rw [List.exists_mem_cons_iff, or_assoc]

/-- **The children of a node in any order, and then the node.** -/
theorem exists_foldlM_children {f : Arena → NodeId → Traced Arena} {xs : List NodeId}
    (h : a.WellFormed) (hn : n < a.size) (hxs : xs.Perm (a.childNodes n))
    (hf : ∀ x ∈ xs, a.SplicesBelow x (f · x)) (hc : Spliced a S c)
    (hS : ∀ m, a.Below m n → ¬ S m) :
    ∃ d, (xs.foldlM f c).result = .ok d ∧ d.WellFormed ∧ d.kind? n = a.kind? n ∧
      Spliced a (fun m => S m ∨ a.Below m n) (d.splice n) := by
  have hchild : ∀ x, x ∈ xs ↔ a.parent? x = some n := fun x => by
    rw [hxs.mem_iff, childNodes, mem_nodesOf, h.mem_children_iff]
  have hapart : xs.Pairwise fun x y => ∀ m, a.Below m y → ¬ a.Below m x := by
    refine (hxs.nodup_iff.mpr (h.nodup_childNodes n)).imp_of_mem fun {x y} hx hy hne m hm => ?_
    exact h.disjoint_siblings ((hchild y).mp hy) ((hchild x).mp hx) (Ne.symm hne) hm
  obtain ⟨d, hd, hSd⟩ := exists_foldlM_splice hf hapart hc fun x hx m hm =>
    hS m (hm.trans (below_of_parent ((hchild x).mp hx)))
  have hnot : ¬ (S n ∨ ∃ x ∈ xs, a.Below n x) := by
    rintro (hSn | ⟨x, hx, hnx⟩)
    · exact hS n (.refl a n) hSn
    · exact h.not_below_parent ((hchild x).mp hx) hnx
  have hdone : ∀ m, a.parent? m = some n → S m ∨ ∃ x ∈ xs, a.Below m x := fun m hm =>
    .inr ⟨m, (hchild m).mpr hm, .refl a m⟩
  refine ⟨d, hd, hSd.wellFormed, hSd.kind n, (hSd.splice h hn hnot hdone).congr fun m => ?_⟩
  -- below `n` are `n` itself and what is below its children
  rw [or_assoc]
  refine or_congr_right ⟨?_, fun hm => ?_⟩
  · rintro (⟨x, hx, hmx⟩ | rfl)
    · exact hmx.trans (below_of_parent ((hchild x).mp hx))
    · exact .refl a m
  · rcases Relation.ReflTransGen.cases_tail hm with rfl | ⟨x, hmx, hx⟩
    · exact .inr rfl
    · exact .inl ⟨x, (hchild x).mpr hx, hmx⟩

/-! ### Walks -/

/-- A visit of a node that first visits its children, in any order, and then splices it. -/
theorem splicesBelow_of_children {f : Arena → NodeId → Traced Arena} {xs : List NodeId}
    {g : Arena → Traced Arena} (h : a.WellFormed) (hk : a.kind? n = some k)
    (hxs : xs.Perm (a.childNodes n)) (hf : ∀ x ∈ xs, a.SplicesBelow x (f · x))
    (hg : ∀ c d, c.childNodes n = a.childNodes n → (xs.foldlM f c).result = .ok d →
      d.WellFormed → d.kind? n = some k → (g c).result = .ok (d.splice n)) :
    a.SplicesBelow n g := by
  intro S c hc hS
  have hlist : c.childNodes n = a.childNodes n := by
    rw [childNodes, hc.untouched n (hS n (.refl a n)), childNodes]
  obtain ⟨d, hloop, hwf, hkd, hSd⟩ :=
    exists_foldlM_children h (lt_size_of_kind? hk) hxs hf hc hS
  exact ⟨d.splice n, hg c d hlist hloop hwf (hkd.trans hk), hSd⟩

/-- A level less is enough for the children. -/
theorem exists_shows_child (hs : a.Shows (.node n) (.node k o ts)) (hx : x ∈ a.childNodes n)
    (hd : (Tree.node k o ts).height ≤ depth + 1) :
    ∃ u ∈ ts, a.Shows (.node x) u ∧ u.height ≤ depth := by
  obtain ⟨u, hu, hxu⟩ := exists_of_mem_left (shows_node.mp hs).2.2 (mem_nodesOf.mp hx)
  have hlt : u.height < (Tree.node k o ts).height := Tree.height_lt_of_mem hu
  exact ⟨u, hu, hxu, by omega⟩

theorem exists_depth_eq_succ (hd : (Tree.node k o ts).height ≤ depth) : ∃ d, depth = d + 1 := by
  rw [Tree.height] at hd
  exact ⟨depth - 1, by omega⟩

/-- **The recursion**, the last child first. -/
theorem splicesBelow_spliceBelow (h : a.WellFormed) (hs : a.Shows (.node n) t)
    (hd : t.height ≤ depth) : a.SplicesBelow n (spliceBelow depth · n) := by
  induction t using Tree.induction generalizing n depth with
  | leaf l => exact absurd hs (by simp [Shows])
  | node k o ts ih =>
      obtain ⟨depth, rfl⟩ := exists_depth_eq_succ hd
      refine splicesBelow_of_children (f := spliceBelow depth) h (shows_node.mp hs).1
        (List.reverse_perm (a.childNodes n)) (fun x hx => ?_) fun c d hlist hloop hwf hk => ?_
      · obtain ⟨u, hu, hxu, hle⟩ := exists_shows_child hs (List.mem_reverse.mp hx) hd
        exact ih u hu hxu hle
      · simp only [spliceBelow, hlist, Traced.result_bind, hloop, ok_bind,
          result_spliceExpanded hwf (lt_size_of_kind? hk), Traced.result_pure]

/-- **A walk that changes nothing by itself**, the first child first. -/
theorem splicesBelow_visit (handle : Handler Traced)
    (hidle : ∀ c m k, (handle c m k).result = .ok c) (h : a.WellFormed)
    (hs : a.Shows (.node n) t) (hd : t.height ≤ depth) :
    a.SplicesBelow n (Walk.visit handle depth · n) := by
  induction t using Tree.induction generalizing n depth with
  | leaf l => exact absurd hs (by simp [Shows])
  | node k o ts ih =>
      obtain ⟨depth, rfl⟩ := exists_depth_eq_succ hd
      refine splicesBelow_of_children (f := fun c x => if c.parent? x = some n then
          Walk.visit handle depth c x else pure c) h (shows_node.mp hs).1
        (List.Perm.refl (a.childNodes n)) (fun x hx => ?_) fun c d hlist hloop hwf hk => ?_
      · obtain ⟨u, hu, hxu, hle⟩ := exists_shows_child hs hx hd
        have hxn : a.parent? x = some n := h.mem_children_iff.mp (mem_nodesOf.mp hx)
        intro S c hc hS
        -- a child that is still to come has not been moved, so the walk does not pass it over
        have hn : ¬ S n := fun hSn => hS x (.refl a x) (hc.closed x n hxn hSn)
        simp only [(hc.parent?_iff h hn).mpr hxn, if_true]
        exact ih u hu hxu hle S c hc hS
      · rw [result_visit, hlist, hloop, ok_bind, result_arrive handle hwf hk, hidle]

/-! ### The whole tree -/

/-- A walk may go as deep as the tree is high. -/
theorem exists_shows_root (h : a.WellFormed) :
    ∃ t, a.Shows (.node a.root) t ∧ t.height ≤ a.walkBound := by
  obtain ⟨t, hs, -⟩ := exists_shows h h.root_lt
  exact ⟨t, hs, Nat.le_trans (hs.height_le h) (Nat.le_of_lt (size_lt_walkBound a))⟩

/-- A computation that splices the root and everything below it. -/
theorem SplicesBelow.root {f : Arena → Traced Arena} (hf : a.SplicesBelow a.root f)
    (h : a.WellFormed) : ∃ b, (f a).result = .ok b ∧ Spliced a (a.Below · a.root) b := by
  obtain ⟨b, hb, hS⟩ := hf _ a (spliced_refl h) fun _ _ hm => hm
  exact ⟨b, hb, hS.congr fun m => by rw [false_or]⟩

theorem exists_spliceAll (h : a.WellFormed) :
    ∃ b, a.spliceAll.result = .ok b ∧ Spliced a (a.Below · a.root) b := by
  obtain ⟨t, hs, hle⟩ := exists_shows_root h
  have hsplices := splicesBelow_spliceBelow h hs hle
  exact hsplices.root h

theorem exists_runIdle (h : a.WellFormed) :
    ∃ b, (Walk.runIdle a).result = .ok b ∧ Spliced a (a.Below · a.root) b := by
  obtain ⟨t, hs, hle⟩ := exists_shows_root h
  have hsplices := splicesBelow_visit (fun c _ _ => pure c) (fun _ _ _ => rfl) h hs hle
  exact hsplices.root h

/-- Where no expansion is left, there is nothing to splice. -/
theorem spliced_self (h : a.WellFormed)
    (hnone : ∀ n, a.Below n a.root → n ≠ a.root → a.hasKind n .expand = false) :
    Spliced a (a.Below · a.root) a := by
  have hchild : ∀ m p, a.parent? m = some p → a.Below p a.root → a.hasKind m .expand = false :=
    fun m p hm hp => hnone m (.of_parent hm hp) (h.ne_root hm)
  refine ⟨.refl a, h, fun n p hp hb => .of_parent hp hb, fun _ _ => rfl, fun n hn _ => ?_, ?_,
    fun _ _ => rfl⟩
  · exact opens_self fun m hm => hchild m n (h.mem_children_iff.mp hm) hn
  · rintro n ⟨hk, p, hp, hb⟩
    rw [hchild n p hp hb] at hk
    cases hk

/-- Slots outside of the tree stay as they are. -/
theorem Spliced.slot?_eq (h : a.WellFormed) (hb : Spliced a (a.Below · r) b)
    (hn : ¬ a.Below n r) : b.slot? n = a.slot? n := by
  by_cases hlt : n < a.size
  swap
  · have hle := Nat.le_of_not_lt hlt
    rw [(slot?_eq_none_iff a n).mpr hle, (slot?_eq_none_iff b n).mpr (hb.size ▸ hle)]
  have hparent : b.parent? n = a.parent? n := by
    refine Option.ext fun p => ?_
    by_cases hp : a.Below p r
    · -- a node below `r` gets no children from outside
      constructor
      · exact fun hnp => absurd ((hb.of_parent h hnp hp).2.trans hp) hn
      · exact fun hnp => absurd (.of_parent hnp hp) hn
    · exact hb.parent?_iff h hp
  refine slot?_congr hlt (hb.lt_size hlt) (hb.kind n) (hb.untouched n hn) hparent ?_ (hb.note n)
  cases hp : a.parent? n with
  | none => exact hb.stale n (hparent.trans hp)
  | some p => exact hb.index_eq h (fun hpr => hn (.of_parent hp hpr)) hp

/-! ### A stack in place of the recursion -/

/-- What is left to do, the next first: each node, and whether its children are done. -/
abbrev Pending := List (NodeId × Bool)

/-- One round: a node whose children are done is spliced; any other is put back, and then its
children are put on top of it, one by one. -/
def round : Arena × Pending → Traced (Arena × Pending)
  | (a, []) => pure (a, [])
  | (a, (id, true) :: stack) => do
    let (a, _) ← a.spliceExpanded id
    return (a, stack)
  | (a, (id, false) :: stack) =>
    return (a, (a.childNodes id).foldl (fun stack c => (c, false) :: stack) ((id, true) :: stack))

/-- Several rounds.  On an empty stack they do nothing. -/
def rounds : Nat → Arena × Pending → Traced (Arena × Pending)
  | 0, s => pure s
  | k + 1, s => do rounds k (← round s)

theorem rounds_one (s : Arena × Pending) : rounds 1 s = round s := bind_pure _

theorem rounds_add (i j : Nat) (s : Arena × Pending) :
    rounds (i + j) s = rounds i s >>= rounds j := by
  induction i generalizing s with
  | zero => rw [Nat.zero_add, rounds, pure_bind]
  | succ i ih =>
      rw [Nat.add_right_comm, rounds, rounds, bind_assoc]
      exact bind_congr ih

/-- The child that is put on the stack last comes first. -/
theorem foldl_push (xs : List NodeId) (stack : Pending) :
    xs.foldl (fun stack c => (c, false) :: stack) stack
      = xs.reverse.map (fun c => (c, false)) ++ stack := by
  induction xs generalizing stack with
  | nil => rfl
  | cons x xs ih =>
      rw [List.foldl_cons, ih, List.reverse_cons, List.map_append, List.append_assoc]
      rfl

/-- The rounds reach the rest of the stack when the recursion is done with `n`. -/
def RoundsTo (a : Arena) (todo stack : Pending) (y : Traced Arena) : Prop :=
  ∃ k, rounds k (a, todo) = (fun b => (b, stack)) <$> y

/-- One entry after the other. -/
theorem roundsTo_foldlM {f : Arena → NodeId → Traced Arena}
    (hf : ∀ a x b stack, (f a x).result = .ok b → RoundsTo a ((x, false) :: stack) stack (f a x))
    {xs : List NodeId} (stack : Pending) (hb : (xs.foldlM f a).result = .ok b) :
    RoundsTo a (xs.map (fun x => (x, false)) ++ stack) stack (xs.foldlM f a) := by
  induction xs generalizing a with
  | nil => exact ⟨0, by simp [rounds]⟩
  | cons x xs ih =>
      rw [List.foldlM_cons, Traced.result_bind] at hb
      obtain ⟨c, hc, hb⟩ := exists_of_bind_eq_ok hb
      obtain ⟨i, hi⟩ := hf a x c (xs.map (fun x => (x, false)) ++ stack) hc
      obtain ⟨j, hj⟩ := ih hb
      refine ⟨i + j, ?_⟩
      rw [List.map_cons, List.cons_append, rounds_add, hi, bind_map_left, List.foldlM_cons,
        map_bind]
      refine bind_congr_of_result fun d hd => ?_
      rw [hc] at hd
      cases hd
      exact hj

/-- **The stack does what the recursion does**, with the same events. -/
theorem roundsTo_spliceBelow (stack : Pending) (hb : (spliceBelow depth a n).result = .ok b) :
    RoundsTo a ((n, false) :: stack) stack (spliceBelow depth a n) := by
  induction depth generalizing a n b stack with
  | zero => cases hb
  | succ depth ih =>
      rw [spliceBelow] at hb ⊢
      rw [Traced.result_bind] at hb
      obtain ⟨c, hc, -⟩ := exists_of_bind_eq_ok hb
      obtain ⟨j, hj⟩ := roundsTo_foldlM (fun a x b stack hx => ih stack hx) ((n, true) :: stack) hc
      refine ⟨(j + 1) + 1, ?_⟩
      rw [rounds, round, pure_bind, foldl_push, rounds_add, hj, bind_map_left, map_bind]
      refine bind_congr fun d => ?_
      simp only [rounds_one, round, bind_pure_comp, Functor.map_map]

theorem exists_rounds_spliceAll (hb : a.spliceAll.result = .ok b) :
    ∃ k, rounds k (a, [(a.root, false)]) = (fun b => (b, [])) <$> a.spliceAll :=
  roundsTo_spliceBelow [] hb

/-! ### The tree that is left -/

/-- What opens a list opens its first element and the rest. -/
theorem Opens.exists_append {e : Child} (h : a.Opens (e :: cs) ds) :
    ∃ es fs, ds = es ++ fs ∧ a.Opens [e] es ∧ a.Opens cs fs := by
  cases h with
  | leaf l h => exact ⟨[.leaf l], _, rfl, .leaf l .nil, h⟩
  | keep hn h => exact ⟨[.node _], _, rfl, .keep hn .nil, h⟩
  | @expand _ _ fs es hn hown h =>
      refine ⟨es, fs, rfl, ?_, h⟩
      have hone := Opens.expand hn hown .nil
      rwa [List.append_nil] at hone

/-- An opened list shows what its trees leave, if that is so for each of them. -/
theorem shows_of_opens (hts : List.Forall₂ a.Shows cs ts) (ho : a.Opens cs ds)
    (hone : ∀ e ∈ cs, ∀ t ∈ ts, a.Shows e t → ∀ es, a.Opens [e] es →
      List.Forall₂ b.Shows es t.inlined) : List.Forall₂ b.Shows ds (Tree.inlinedAll ts) := by
  induction hts generalizing ds with
  | nil =>
      cases ho
      rw [Tree.inlinedAll]
      exact .nil
  | cons het _ ih =>
      obtain ⟨es, fs, rfl, hes, hfs⟩ := ho.exists_append
      rw [Tree.inlinedAll]
      refine List.rel_append (hone _ List.mem_cons_self _ List.mem_cons_self het es hes) ?_
      exact ih hfs fun e he t ht => hone e (List.mem_cons_of_mem _ he) t (List.mem_cons_of_mem _ ht)

/-- What a child leaves in its place, once everything below it is done. -/
theorem Spliced.shows_inlined (h : a.WellFormed) (hb : Spliced a S b) {e : Child}
    (hs : a.Shows e t) (he : ∀ x, e = .node x → S x) (ho : a.Opens [e] ds) :
    List.Forall₂ b.Shows ds t.inlined := by
  induction t using Tree.induction generalizing e ds with
  | leaf l =>
      cases e with
      | node n => exact absurd hs (by simp [Shows])
      | leaf l' =>
          obtain rfl : l' = l := by simpa [Shows] using hs
          cases ho with
          | leaf _ ho =>
              cases ho
              exact .cons (shows_leaf.mpr rfl) .nil
  | node k o ts ih =>
      cases e with
      | leaf l => exact absurd hs (by simp [Shows])
      | node n =>
          obtain ⟨hk, hnote, hts⟩ := shows_node.mp hs
          have hn : S n := he n rfl
          -- the children of `n`, opened, show what their trees leave
          have hlist : ∀ es, a.Opens (a.children n) es →
              List.Forall₂ b.Shows es (Tree.inlinedAll ts) := by
            intro es hes
            refine shows_of_opens hts hes fun e' he' t ht hs' fs hfs => ih t ht hs' ?_ hfs
            rintro x rfl
            exact hb.closed x n (h.mem_children_iff.mp he') hn
          rw [Tree.inlined]
          cases ho with
          | keep hkeep ho =>
              cases ho
              have hne : k ≠ .expand := by
                rintro rfl
                simp [hasKind, hk] at hkeep
              have hstay : ¬ a.Gone S n := fun hgone => by
                rw [hgone.1] at hkeep
                cases hkeep
              rw [if_neg hne]
              refine .cons (shows_node.mpr ⟨?_, ?_, hlist _ (hb.opened n hn hstay)⟩) .nil
              · rw [hb.kind, hk]
              · rw [hb.note, hnote]
          | expand hexp hown ho =>
              cases ho
              have hke : k = .expand := by
                simpa [hasKind, hk] using hexp
              rw [if_pos hke, List.append_nil]
              exact hlist _ hown

/-- **A node that stays shows its tree with the expansions below it opened.** -/
theorem Spliced.shows_flattened (h : a.WellFormed) (hb : Spliced a S b) (hn : S n)
    (hstay : ¬ a.Gone S n) (hs : a.Shows (.node n) t) : b.Shows (.node n) t.flattened := by
  obtain ⟨k, o, ts, rfl⟩ := hs.exists_node
  obtain ⟨hk, hnote, hts⟩ := shows_node.mp hs
  refine shows_node.mpr ⟨?_, ?_, ?_⟩
  · rw [hb.kind, hk]
  · rw [hb.note, hnote]
  · refine shows_of_opens hts (hb.opened n hn hstay) fun e he t _ hs' es hes => ?_
    refine hb.shows_inlined h hs' ?_ hes
    rintro x rfl
    exact hb.closed x n (h.mem_children_iff.mp he) hn

/-! ### Splicing and walking -/

/-- The expansions that splicing takes out of the tree. -/
theorem gone_of_below (hn : a.Below n a.root) (hne : n ≠ a.root)
    (hk : a.kind? n = some .expand) : a.Gone (a.Below · a.root) n := by
  rcases hn.cases with rfl | ⟨p, hp, hbelow⟩
  · exact absurd rfl hne
  · exact ⟨by simp [hasKind, hk], p, hp, hbelow⟩

section whole

variable (h : a.WellFormed) (hb : Spliced a (a.Below · a.root) b)

include h hb

theorem Spliced.hasKind_of_below (hn : b.Below n b.root) (hne : n ≠ b.root) :
    b.hasKind n .expand = false := by
  rcases hn.cases with rfl | ⟨p, hp, hbelow⟩
  · exact absurd rfl hne
  · rw [hb.root] at hbelow
    rw [hb.hasKind]
    exact (hb.of_parent h hp (hb.below h hbelow)).1

theorem Spliced.exists_tree : ∃ t, a.tree = .ok t ∧ b.tree = .ok t.flattened := by
  obtain ⟨t, hs, -⟩ := exists_shows h h.root_lt
  have hstay : ¬ a.Gone (a.Below · a.root) a.root := by
    rintro ⟨-, p, hp, -⟩
    rw [h.parent?_root] at hp
    cases hp
  refine ⟨t, (tree_eq_ok_iff h).mpr hs, (tree_eq_ok_iff hb.wellFormed).mpr ?_⟩
  rw [hb.root]
  exact hb.shows_flattened h (.refl a a.root) hstay hs

end whole

/-- **Splicing flattens a tree, and changes nothing else.**  It returns.  Then no node of the tree
is an expansion, the root apart; the tree is the one at the start with every expansion below its top
replaced by its children, and theirs in turn; all slots have the kinds and notes that they had; an
expansion of the tree at the start, the root apart, has neither parent nor children; and slots
outside of the tree are as they were in every field.  Splicing once more changes nothing.  A stack
of nodes to be entered and left does the same, event by event, and comes to its end. -/
theorem spliceAll_flattens (h : a.WellFormed) :
    ∃ b, a.spliceAll.result = .ok b ∧ b.WellFormed ∧
      (∀ n, b.Below n b.root → n ≠ b.root → b.kind? n ≠ some .expand) ∧
      (∃ t, a.tree = .ok t ∧ b.tree = .ok t.flattened) ∧
      SameNodes a b ∧
      (∀ n, a.Below n a.root → n ≠ a.root → a.kind? n = some .expand →
        b.parent? n = none ∧ b.children n = []) ∧
      (∀ n, ¬ a.Below n a.root → b.slot? n = a.slot? n) ∧
      b.spliceAll.result = .ok b ∧
      ∃ k, rounds k (a, [(a.root, false)]) = (fun b => (b, [])) <$> a.spliceAll := by
  obtain ⟨b, hrun, hb⟩ := exists_spliceAll h
  have hnone : ∀ n, b.Below n b.root → n ≠ b.root → b.hasKind n .expand = false := fun n hn hne =>
    hb.hasKind_of_below h hn hne
  refine ⟨b, hrun, hb.wellFormed, fun n hn hne hk => ?_, hb.exists_tree h, hb.toSameNodes,
    fun n hn hne hk => ?_, fun n hn => hb.slot?_eq h hn, ?_, exists_rounds_spliceAll hrun⟩
  · have hfalse := hnone n hn hne
    simp [hasKind, hk] at hfalse
  · have hgone := gone_of_below hn hne hk
    exact ⟨hb.parent?_of_gone h hgone, hb.emptied n hgone⟩
  · obtain ⟨c, hagain, hc⟩ := exists_spliceAll hb.wellFormed
    rw [hagain, hc.unique (spliced_self hb.wellFormed hnone)]

/-- An expansion at the top, and far below it one that holds a leaf, an empty expansion and another
expansion. -/
theorem spliceAll_flattens_nested :
    ∃ a b : Arena, a.WellFormed ∧
      a.tree = .ok (.plain .expand
        [.plain (.other "f")
            [.plain .expand [.text "x", .plain .expand [],
                .plain .expand [.plain (.other "g") [.text "y"]]],
              .plain (.other "h") []],
          .plain .expand []]) ∧
      a.spliceAll.result = .ok b ∧
      b.tree = .ok (.plain .expand
        [.plain (.other "f")
          [.text "x", .plain (.other "g") [.text "y"], .plain (.other "h") []]]) ∧
      a.parent? 3 = some 4 ∧ a.children 3 = [.node 2] ∧ b.parent? 3 = none ∧ b.children 3 = [] ∧
      b.slot? 0 = a.slot? 0 ∧ b.spliceAll.result = .ok b := by
  have hwf := wellFormed_ofTree (.plain .expand
    [.plain (.other "f")
        [.plain .expand [.text "x", .plain .expand [],
            .plain .expand [.plain (.other "g") [.text "y"]]],
          .plain (.other "h") []],
      .plain .expand []])
  obtain ⟨b, hrun, -, -, ⟨t, ht, hflat⟩, -, hgone, hout, hagain, -⟩ := spliceAll_flattens hwf
  rw [Tree.plain, tree_ofTree] at ht
  cases ht
  have hbelow := (mem_descendants_iff hwf).mp (show 3 ∈ _ by decide)
  have hnot := mt (mem_descendants_iff hwf).mpr (show 0 ∉ _ by decide)
  obtain ⟨hparent, hempty⟩ := hgone 3 hbelow (by decide) rfl
  exact ⟨_, b, hwf, tree_ofTree _ _ _, hrun, hflat, rfl, rfl, hparent, hempty, hout 0 hnot, hagain⟩

/-- **A walk that does nothing at its nodes splices them**, from the first child to the last, and
ends with the arena that splicing from the last child to the first ends with; so does the stack.
The arenas agree in every field of every slot.  Where the tree has no expansion but its root, that
is the arena at the start. -/
theorem runIdle_agrees_with_spliceAll (h : a.WellFormed) :
    ∃ b, (Walk.runIdle a).result = .ok b ∧ a.spliceAll.result = .ok b ∧
      (∃ k, (rounds k (a, [(a.root, false)])).result = .ok (b, [])) ∧
      ((∀ n, a.Below n a.root → n ≠ a.root → a.kind? n ≠ some .expand) → b = a) := by
  obtain ⟨b, hwalk, hb⟩ := exists_runIdle h
  obtain ⟨c, hsplice, hc⟩ := exists_spliceAll h
  obtain rfl : b = c := hb.unique hc
  refine ⟨b, hwalk, hsplice, ?_, fun hnone => hb.unique (spliced_self h fun n hn hne => ?_)⟩
  · obtain ⟨k, hk⟩ := exists_rounds_spliceAll hsplice
    refine ⟨k, ?_⟩
    rw [hk, map_eq_pure_bind, Traced.result_bind, hsplice]
    rfl
  · have hk := hnone n hn hne
    simpa [hasKind] using hk

/-- Two expansions side by side, each with an expansion inside: the walk goes from the left,
splicing from the right. -/
theorem runIdle_agrees_with_spliceAll_siblings :
    ∃ a b : Arena, a.WellFormed ∧
      a.tree = .ok (.plain (.other "f")
        [.plain .expand [.text "x", .plain .expand [.plain (.other "g") []]],
          .plain .expand [.plain .expand [.text "y"], .plain (.other "h") []]]) ∧
      (Walk.runIdle a).events ≠ a.spliceAll.events ∧
      (Walk.runIdle a).result = .ok b ∧ a.spliceAll.result = .ok b ∧ b ≠ a ∧
      b.parent? 2 = none ∧ b.index 2 = 1 := by
  have hwf := wellFormed_ofTree (.plain (.other "f")
    [.plain .expand [.text "x", .plain .expand [.plain (.other "g") []]],
      .plain .expand [.plain .expand [.text "y"], .plain (.other "h") []]])
  obtain ⟨b, hwalk, hsplice, -, -⟩ := runIdle_agrees_with_spliceAll hwf
  have hb := hsplice
  cases hb
  exact ⟨_, _, hwf, tree_ofTree _ _ _, by decide, hwalk, hsplice, by decide, rfl, rfl⟩

end Arena

end Unstack
