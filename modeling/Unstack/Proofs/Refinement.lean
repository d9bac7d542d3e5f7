import Unstack.Proofs.Arena.Building
import Unstack.Proofs.Rules

/-! # The normaliser refines the rewrite of trees

`Arena.normalize` moves nodes between slots, overwrites flags and leaves slots behind;
`Tree.normalize` is a recursion over trees.  On well-formed arenas the two agree.

* **One child.**  What a child does to its parent is work at the parent: the new child stands
  in its old position, and the demand of the child is met (`Dealt.settles_parent`).
* **All children.**  The loop over the children runs as `Tree.normalizeRest` does
  (`rest_simulates`).  The list that it runs through was made before any child was visited, but
  only positions to the left of the current child have changed since.
* **The node.**  Expansions are opened (`settles_splice`), and the rule is the one of
  `Rules.handle_simulates`.
* **Depth.**  A walk is as deep as the tree is high, and `walkBound` is beyond that. -/

namespace Unstack.Arena

open Outcome

variable {a b c w : Arena} {m n p q : NodeId} {k : Kind} {o : Option Note} {t t' : Tree}
  {ts us done : List Tree}

/-! ### One child -/

/-- Work at a node leaves the trees of its siblings alone. -/
theorem Worked.shows_sibling (hb : b.WellFormed) (hw : Worked b w m)
    (hm : b.parent? m = some n) {x : Child} (hx : x ∈ b.children n) (hne : x ≠ .node m)
    (h : b.Shows x t) : w.Shows x t := by
  cases x with
  | leaf l => exact shows_leaf.mpr (shows_leaf.mp h)
  | node z =>
      have hz : b.parent? z = some n := hb.mem_children_iff.mp hx
      refine h.congr hb fun q hq => ?_
      have hslot : w.slot? q = b.slot? q := by
        refine hw.outside q ?_
        rintro (hqm | hsize)
        · exact hb.disjoint_siblings hz hm (fun e => hne (e ▸ rfl)) hq hqm
        · exact absurd (lt_of_below hq h.lt_size) (Nat.not_lt.mpr hsize)
      exact ⟨kind?_congr hslot, note?_congr hslot, children_congr hslot⟩

/-- The tree of a parent after work at one of its children. -/
theorem Worked.shows_parent (hb : b.WellFormed) (hw : Worked b w m) {i : Nat}
    (hi : b.child? n i = some (.node m)) (hs : b.Shows (.node n) (.node k o ts))
    (ht : w.Shows (.node m) t') : w.Shows (.node n) (.node k o (ts.set i t')) := by
  obtain ⟨hk, ho, hts⟩ := shows_node.mp hs
  obtain ⟨hm, hmi⟩ := hb.placed n i m hi
  have hslot : w.slot? n = b.slot? n := hw.outside n (parent_not_zone hb hm)
  refine shows_node.mpr ⟨by rw [kind?_congr hslot, hk], by rw [note?_congr hslot, ho], ?_⟩
  have hset : (b.children n).set i (.node m) = b.children n := by
    obtain ⟨hlt, he⟩ := List.getElem?_eq_some_iff.mp hi
    rw [← he]
    exact List.set_getElem_self hlt
  rw [children_congr hslot, ← hset]
  refine forall₂_set hts ht fun j hj x hx y hxy => ?_
  refine hw.shows_sibling hb hm (List.mem_of_getElem? hx) ?_ hxy
  rintro rfl
  exact hj ((hb.placed n j m hx).2.symm.trans hmi)

/-- The flag in the first position is negated. -/
theorem settles_negated (h : a.WellFormed) (hs : a.Shows (.node n) (.node k o ts))
    (hne : ts ≠ []) :
    Settles a n (a.negated n) (.node k o (Tree.negateFirst ts)) ∧
      ∀ i, ((a.negated n).children n).drop (i + 1) = (a.children n).drop (i + 1) := by
  obtain ⟨hk, ho, hts⟩ := shows_node.mp hs
  cases hcs : a.children n with
  | nil =>
      rw [hcs] at hts
      cases hts
      exact absurd rfl hne
  | cons flag rest =>
      rw [hcs] at hts
      obtain ⟨u, us, hu, hrest, rfl⟩ := List.forall₂_cons_left_iff.mp hts
      have hflag : a.child? n 0 = some flag := by rw [child?, hcs, List.getElem?_cons_zero]
      have hw : Worked a (a.overwrite n 0 flag (.leaf (.bool !flag.truthy))) n :=
        (Worked.refl h n).overwrite h (zone_self a n) hflag fun x hx => by cases hx
      have hlist := children_overwrite a n 0 flag (.leaf (.bool !flag.truthy)) hs.lt_size
      rw [negated_eq hcs]
      refine ⟨⟨hw, shows_node.mpr ⟨by simpa using hk, by simpa using ho, ?_⟩⟩, fun i => ?_⟩
      · rw [hlist, if_pos rfl, hcs, List.set_cons_zero, Tree.negateFirst, ← hu.truthy_eq]
        refine .cons (shows_leaf.mpr rfl) (forall₂_imp_of_mem hrest fun x hx t _ hxt => ?_)
        refine hxt.of_own h (n := n) (by rw [hcs]; exact List.mem_cons_of_mem _ hx) ?_
        intro q hq _
        rw [hlist, if_neg hq]
        simp
      · rw [hlist, if_pos rfl, hcs, List.set_cons_zero, List.drop_succ_cons, List.drop_succ_cons]

/-- What a child asks of its parent is done. -/
theorem settles_meet (h : a.WellFormed) (hm : a.parent? m = some n)
    (hs : a.Shows (.node n) (.node k o ts)) (d : Demand) :
    Settles a n (a.meet m d)
        (.node (d.kind k) o (if d.negate then Tree.negateFirst ts else ts)) ∧
      ∀ i, ((a.meet m d).children n).drop (i + 1) = (a.children n).drop (i + 1) := by
  have hne : ts ≠ [] := by
    rintro rfl
    have hnil := List.forall₂_nil_right_iff.mp (shows_node.mp hs).2.2
    have hmem := h.mem_children_iff.mpr hm
    rw [hnil] at hmem
    cases hmem
  have hneg : Settles a n (if d.negate then a.negated n else a)
        (.node k o (if d.negate then Tree.negateFirst ts else ts)) ∧
      ∀ i, ((if d.negate then a.negated n else a).children n).drop (i + 1)
        = (a.children n).drop (i + 1) := by
    cases d.negate with
    | false => exact ⟨⟨.refl h n, hs⟩, fun i => rfl⟩
    | true => exact settles_negated h hs hne
  obtain ⟨hset, hdrop⟩ := hneg
  unfold meet Demand.kind
  rw [hm]
  cases d.retag with
  | false => exact ⟨hset, hdrop⟩
  | true =>
      refine ⟨(settles_setKind hset.1.wellFormed hset.2 .ternaryIfBoolean).after h hset.1, ?_⟩
      intro i
      rw [← hdrop i]
      exact congrArg (List.drop (i + 1)) (children_setKind _ _ _ _)

/-- A child that has been dealt with, seen from its parent. -/
theorem Dealt.settles_parent (h : b.WellFormed)
    (hs : b.Shows (.node n) (.node k o (done ++ t :: ts)))
    (hi : b.child? n done.length = some (.node m)) {r : Tree × Demand} (hd : Dealt b m c r) :
    Settles b n c (.node (r.2.kind k) o
        ((if r.2.negate then Tree.negateFirst (done ++ [r.1]) else done ++ [r.1]) ++ ts)) ∧
      (c.children n).drop (done.length + 1) = (b.children n).drop (done.length + 1) := by
  obtain ⟨w, ⟨hw, hshow⟩, rfl⟩ := hd
  have hm : b.parent? m = some n := (h.placed n _ m hi).1
  have hslot : w.slot? n = b.slot? n := hw.outside n (parent_not_zone h hm)
  have hparent : w.Shows (.node n) (.node k o ((done ++ [r.1]) ++ ts)) := by
    have hset := hw.shows_parent h hi hs hshow
    simpa using hset
  obtain ⟨hmeet, hdrop⟩ := settles_meet hw.wellFormed (hw.parent.trans hm) hparent r.2
  constructor
  · have hgoal := hmeet.after h (hw.up h hm)
    cases hneg : r.2.negate with
    | false => simpa [hneg] using hgoal
    | true =>
        rw [hneg, if_pos rfl, Tree.negateFirst_append (by simp)] at hgoal
        exact hgoal
  · rw [hdrop, children_congr hslot]

/-! ### All children -/

/-- Visits at `t` run as the rewrite of `t` does, wherever an arena shows it. -/
def Refined (slack depth : Nat) (t : Tree) : Prop :=
  ∀ (a : Arena) (n : NodeId), a.WellFormed → a.Shows (.node n) t →
    Simulates (Dealt a n) (Walk.visit (Normalize.handle slack) depth a n).result
      (t.normalizeAt (a.standing n))

/-- **The loop over the children.**  The children before `done` have been dealt with, and the
loop has the others still in its list. -/
theorem rest_simulates {slack depth : Nat} (hts : ∀ t ∈ ts, Refined slack depth t)
    (h : b.WellFormed) (done : List Tree) (hs : b.Shows (.node n) (.node k o (done ++ ts)))
    {rest : List Child} (hrest : (b.children n).drop done.length = rest) :
    Simulates (fun c r => Settles b n c (.node r.1 o r.2))
      ((nodesOf rest).foldlM (fun a x => if a.parent? x = some n then
        Walk.visit (Normalize.handle slack) depth a x else pure a) b).result
      (Tree.normalizeRest k done ts) := by
  induction ts generalizing b k done rest with
  | nil =>
      have hlen := (shows_node.mp hs).2.2.length_eq
      rw [List.append_nil] at hlen hs
      have hnil : rest = [] := by
        rw [← hrest, ← hlen]
        exact List.drop_length
      rw [hnil, Tree.normalizeRest]
      exact .of_ok ⟨.refl h n, hs⟩
  | cons t ts ih =>
      have hget : (done ++ t :: ts)[done.length]? = some t := by simp
      obtain ⟨x, hx, hxt⟩ := exists_getElem?_of_forall₂ (shows_node.mp hs).2.2 hget
      have hcons : rest = x :: (b.children n).drop (done.length + 1) := by
        obtain ⟨hlt, hxe⟩ := List.getElem?_eq_some_iff.mp hx
        rw [← hrest, ← hxe]
        exact List.drop_eq_getElem_cons hlt
      have htail : ∀ u ∈ ts, Refined slack depth u := fun u hu => hts u (List.mem_cons_of_mem _ hu)
      rw [hcons, Tree.normalizeRest_cons]
      cases x with
      | leaf l =>
          rw [shows_leaf.mp hxt] at hs ⊢
          rw [nodesOf_cons_leaf, Tree.normalizeAt, ok_bind]
          have hleaf : b.Shows (.node n) (.node k o ((done ++ [.leaf l]) ++ ts)) := by
            simpa using hs
          refine ih htail h _ hleaf ?_
          rw [List.length_append, List.length_singleton]
      | node m =>
          have hm : b.parent? m = some n := (h.placed n _ m hx).1
          have hstand : b.standing m = some (k, done.length) := by
            rw [standing, hm, Option.bind_some, (shows_node.mp hs).1, (h.placed n _ m hx).2]
            rfl
          rw [nodesOf_cons_node, List.foldlM_cons, if_pos hm, Traced.result_bind, ← hstand]
          refine (hts t List.mem_cons_self b m h hxt).bind fun c r hd => ?_
          obtain ⟨hset, hdrop⟩ := hd.settles_parent h hs hx
          have hlen : (if r.2.negate then Tree.negateFirst (done ++ [r.1])
              else done ++ [r.1]).length = done.length + 1 := by
            split_ifs <;> simp [Tree.length_negateFirst]
          refine (ih htail hset.1.wellFormed _ hset.2 ?_).mono fun d u hu => hu.after h hset.1
          rw [hlen]
          exact hdrop

/-! ### The node -/

/-- A node below a child `x` of `n` that is itself a child of `n` is `x`. -/
theorem WellFormed.eq_of_below (h : a.WellFormed) {x : NodeId} (hx : a.parent? x = some n)
    (hq : a.Below q x) (hqn : a.parent? q = some n) : q = x := by
  rcases hq.cases with rfl | ⟨p, hp, hpx⟩
  · rfl
  · rw [hqn] at hp
    cases hp
    exact absurd hpx (h.not_below_parent hx)

/-- Expansions among the children of a node are opened. -/
theorem settles_splice (h : a.WellFormed) (hs : a.Shows (.node n) (.node k o ts)) :
    Settles a n (a.splice n) (.node k o (ts.flatMap Tree.opened)) := by
  obtain ⟨hk, ho, hts⟩ := shows_node.mp hs
  have hn := hs.lt_size
  refine ⟨(Worked.refl h n).splice h (zone_self a n) hn, shows_node.mpr ⟨?_, ?_, ?_⟩⟩
  · rw [kind?_splice, hk]
  · rw [note?_splice, ho]
  have hframe : ∀ q, q ≠ n → (a.parent? q = some n → a.hasKind q .expand = false) →
      (a.splice n).kind? q = a.kind? q ∧ (a.splice n).note? q = a.note? q ∧
        (a.splice n).children q = a.children q := by
    intro q hq hexp
    have hnot : q ∉ a.expansionsOf (a.children n) := by
      intro he
      obtain ⟨hp, hk⟩ := (mem_expansions_iff h).mp he
      rw [hexp hp] at hk
      cases hk
    rw [kind?_splice, note?_splice, children_splice hn, if_neg hq, if_neg hnot]
    exact ⟨rfl, rfl, rfl⟩
  rw [children_splice hn, if_pos rfl]
  refine forall₂_flatMap hts fun x hx t hxt => ?_
  cases x with
  | leaf l =>
      rw [shows_leaf.mp hxt]
      exact .cons (shows_leaf.mpr rfl) .nil
  | node e =>
      have he : a.parent? e = some n := h.mem_children_iff.mp hx
      obtain ⟨k', o', us, rfl⟩ := hxt.exists_node
      obtain ⟨hk', -, hus⟩ := shows_node.mp hxt
      by_cases hexp : k' = .expand
      · -- an expansion: its children come in its place
        subst hexp
        have hkind : a.hasKind e .expand = true := by simp [hasKind, hk']
        rw [contents, if_pos hkind]
        refine forall₂_imp_of_mem hus fun y hy u _ hyu => ?_
        cases y with
        | leaf l => exact shows_leaf.mpr (shows_leaf.mp hyu)
        | node z =>
            have hz : a.parent? z = some e := h.mem_children_iff.mp hy
            refine hyu.congr h fun q hq => hframe q ?_ fun hqn => ?_
            · rintro rfl
              exact h.not_below_parent hz ((below_of_parent he).trans hq)
            · have hqe := h.eq_of_below he (hq.trans (below_of_parent hz)) hqn
              subst hqe
              exact absurd hq (h.not_below_parent hz)
      · have hkind : a.hasKind e .expand = false := by simp [hasKind, hk', hexp]
        rw [contents, hkind, if_neg Bool.false_ne_true, Tree.opened_of_ne hexp]
        refine .cons (hxt.congr h fun q hq => hframe q ?_ fun hqn => ?_) .nil
        · rintro rfl
          exact h.not_below_parent he hq
        · rw [h.eq_of_below he hq hqn]
          exact hkind

theorem result_visit (handle : Handler Traced) (depth : Nat) (a : Arena) (n : NodeId) :
    (Walk.visit handle (depth + 1) a n).result
      = (((a.childNodes n).foldlM (fun a x => if a.parent? x = some n then
            Walk.visit handle depth a x else pure a) a).result >>= fun a =>
          (a.spliceExpanded n).result >>= fun r => r.1.slot n >>= fun s =>
            (handle r.1 n s.kind).result) := by
  rw [Walk.visit, Traced.result_bind]
  refine congrArg (_ >>= ·) (funext fun a => ?_)
  rw [Traced.result_bind]
  refine congrArg (_ >>= ·) (funext fun r => ?_)
  rw [Traced.result_bind]
  rfl

/-- What happens at a node when its children are done: expansions are opened, and the handler gets
the node with the kind that it has by then. -/
theorem result_arrive (handle : Handler Traced) (h : a.WellFormed) (hk : a.kind? n = some k) :
    ((a.spliceExpanded n).result >>= fun r => r.1.slot n >>= fun s =>
        (handle r.1 n s.kind).result)
      = (handle (a.splice n) n k).result := by
  obtain ⟨s, hs, -⟩ := Option.map_eq_some_iff.mp hk
  obtain ⟨s', hs'⟩ := exists_slot? (a := a.splice n) (by simpa using lt_size_of_slot? hs)
  have hkind : s'.kind = k := by
    rw [← kind?_splice a n n, kind?_eq hs'] at hk
    exact Option.some.inj hk
  simp only [result_spliceExpanded h (lt_size_of_slot? hs), ok_bind, slot_eq hs', hkind]

/-- **A visit runs as the rewrite does**, if it may go as deep as the tree is high. -/
theorem refined (slack : Nat) {depth : Nat} (ht : t.height ≤ depth) : Refined slack depth t := by
  induction t using Tree.induction generalizing depth with
  | leaf l => exact fun a n _ hs => absurd hs (by simp [Shows])
  | node k o ts ih =>
      intro a n h hs
      obtain ⟨depth, rfl⟩ : ∃ d, depth = d + 1 := by
        cases depth with
        | zero => exact absurd ht (by simp [Tree.height])
        | succ d => exact ⟨d, rfl⟩
      have hts : ∀ u ∈ ts, Refined slack depth u := fun u hu =>
        ih u hu (Nat.le_of_lt_succ (Nat.lt_of_lt_of_le (Tree.height_lt_of_mem hu) ht))
      rw [result_visit, Tree.normalizeAt_node]
      refine (rest_simulates hts h [] hs rfl).bind fun b r hb => ?_
      have hsp := settles_splice hb.1.wellFormed hb.2
      have hw : Worked a (b.splice n) n := hb.1.trans h hsp.1
      rw [result_arrive _ hb.1.wellFormed (shows_node.mp hb.2).1, ← hw.standing_eq h]
      exact (handle_simulates slack hsp.1.wellFormed hsp.2).mono fun c u hu => hu.after h hw

/-! ### The whole tree -/

theorem normalize_simulates (h : a.WellFormed) (hs : a.Shows (.node a.root) t) :
    Simulates (Settles a a.root) a.normalize.result t.normalize := by
  have hdepth : t.height ≤ a.walkBound :=
    Nat.le_trans (hs.height_le h) (Nat.le_of_lt (size_lt_walkBound a))
  have hvisit := refined a.walkBound hdepth a a.root h hs
  have hstand : a.standing a.root = none := by
    rw [standing, h.parent?_root, Option.bind_none]
  rw [hstand] at hvisit
  have hmap := hvisit.map_right (S := Settles a a.root) (g := Prod.fst) fun b r hd => by
    obtain ⟨w, hw, rfl⟩ := hd
    have hroot : w.parent? a.root = none := hw.1.parent.trans h.parent?_root
    have hmeet : w.meet a.root r.2 = w := by
      rw [meet, hroot]
    rw [hmeet]
    exact hw
  have hmap' : (t.normalizeAt none >>= fun r => pure r.1) = t.normalize := by
    unfold Tree.normalize
    cases t.normalizeAt none <;> rfl
  rw [hmap'] at hmap
  simpa only [normalize, Walk.run, Traced.result_bind, Traced.result_emit, ok_bind] using hmap

theorem exists_normalize_ofTree {k : Kind} {o : Option Note} {ts : List Tree} {t' : Tree}
    (h : (Tree.node k o ts).normalize = .ok t') :
    ∃ b, (ofTree (.node k o ts)).normalize.result = .ok b := by
  have hwf := wellFormed_ofTree (.node k o ts)
  have hsim := normalize_simulates hwf ((tree_eq_ok_iff hwf).mp (tree_ofTree k o ts))
  rw [h] at hsim
  obtain ⟨b, hb, -⟩ := hsim.exists_ok
  exact ⟨b, hb⟩

/-- **The normaliser is the rewrite of trees.**  A well-formed arena holds a tree.  If the tree
can be normalised, so can the arena: the arena stays well-formed and keeps its root, and the tree
that it holds then is the normalised one.  If the tree has a defect, normalising the arena stops
with the fault that reports this defect. -/
theorem normalize_refines_tree (a : Arena) (h : a.WellFormed) :
    ∃ t, a.tree = .ok t ∧
      (∀ t', t.normalize = .ok t' → ∃ b, a.normalize.result = .ok b ∧ b.WellFormed ∧
        b.root = a.root ∧ b.tree = .ok t') ∧
      ∀ d, t.normalize = .error d → ∃ f, a.normalize.result = .error f ∧ f.defect? = some d := by
  obtain ⟨t, hs, -⟩ := exists_shows h h.root_lt
  have hsim := normalize_simulates h hs
  refine ⟨t, (tree_eq_ok_iff h).mpr hs, fun t' ht => ?_, fun d hd => ?_⟩
  · rw [ht] at hsim
    obtain ⟨b, hb, hw, hshow⟩ := hsim.exists_ok
    refine ⟨b, hb, hw.wellFormed, hw.root, ?_⟩
    rw [tree_eq_ok_iff hw.wellFormed, hw.root]
    exact hshow
  · rw [hd] at hsim
    exact hsim.exists_error

/-- A jump on a reversed condition, a choice whose operator is a reversed test, and a discarded
call. -/
theorem normalize_refines_tree_block :
    ∃ a b : Arena, a.WellFormed ∧
      a.tree = .ok (.node (.other "block") none
        [.plain .jumpIf [.leaf (.bool true), .text "exit",
          .plain (.branch .nlt) [.text "a", .text "b"]],
         .plain .ternaryIf [.leaf .nil, .plain (.branch .falsy) [.text "c", .text "x", .text "y"]],
         .plain .pop [.plain .callPropertyVoid [.text "f"]]]) ∧
      a.normalize.result = .ok b ∧
      b.tree = .ok (.node (.other "block") none
        [.plain .jumpIf [.leaf (.bool false), .text "exit",
          .plain (.compare .lt) [.text "a", .text "b"]],
         .plain .ternary [.text "c", .text "x", .text "y"],
         .plain .callProperty [.text "f"],
         .plain .nop []]) := by
  have hrun : ∀ k o ts t', (Tree.node k o ts).normalize = .ok t' →
      ∃ a b : Arena, a.WellFormed ∧ a.tree = .ok (.node k o ts) ∧ a.normalize.result = .ok b ∧
        b.tree = .ok t' := by
    intro k o ts t' ht'
    obtain ⟨t, ht, hok, -⟩ := normalize_refines_tree (ofTree (.node k o ts)) (wellFormed_ofTree _)
    rw [tree_ofTree] at ht
    cases ht
    obtain ⟨b, hb, -, -, hbt⟩ := hok t' ht'
    exact ⟨_, b, wellFormed_ofTree _, tree_ofTree k o ts, hb, hbt⟩
  exact hrun _ _ _ _ rfl

end Unstack.Arena
