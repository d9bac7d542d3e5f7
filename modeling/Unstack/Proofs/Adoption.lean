import Unstack.Proofs.Histories

/-! # Adoption

Nodes that are handed to a new parent leave the places that they had.

* **Moves.**  `Arena.Adopted a id cs ds b` says that `b` is `a` after the nodes of `cs` have left
  their places and the list of `id` has become `ds`.  Replacing a list of children is a move
  (`adopted_assign`), and so is appending to it (`adopted_extend`), also when several nodes leave
  one parent or come from `id` itself.
* **One place.**  Overwriting one child is a move too.  Its place is looked up when the new child
  has left its own, so it is counted without the new child.  That is the place given, unless the new
  child stood in the same list, there or before (`child?_detachAll_of_lt`); then it is the next one
  (`child?_detachAll_of_le`). -/

namespace Unstack

open Outcome

theorem nodesOf_singleton (c : Child) : nodesOf [c] = c.node?.toList := by
  cases c <;> rfl

theorem without_without_of_subset {ms ns : List NodeId} (h : ms ⊆ ns) (cs : List Child) :
    without ns (without ms cs) = without ns cs := by
  have hiff : ∀ c, c ∈ (ms ++ ns).map Child.node ↔ c ∈ ns.map Child.node := fun c => by
    simp only [List.mem_map, List.mem_append, or_iff_right_of_imp (@h _)]
  rw [without_without]
  exact List.filter_congr fun c _ => by rw [decide_eq_decide, hiff]

theorem nodesOf_without_cons {ns : List NodeId} {c : Child} (hc : nodesOf [c] ⊆ ns)
    (cs : List Child) : nodesOf (without ns (c :: cs)) = nodesOf (without ns cs) := by
  cases c with
  | leaf l => simp [without]
  | node n =>
      have hn : n ∈ ns := hc (by simp)
      simp [without, hn]

/-- Overwriting one place matters only to the two children that it is about. -/
theorem nodesOf_without_set {ns : List NodeId} {cs : List Child} {i : Nat} {old child : Child}
    (hold : cs[i]? = some old) (hout : nodesOf [old] ⊆ ns) (hin : nodesOf [child] ⊆ ns) :
    nodesOf (without ns (cs.set i child)) = nodesOf (without ns cs) := by
  induction cs generalizing i with
  | nil => rfl
  | cons c cs ih =>
      cases i with
      | zero =>
          cases hold
          rw [List.set_cons_zero, nodesOf_without_cons hin, nodesOf_without_cons hout]
      | succ i =>
          have hrest := ih hold
          have hsplit : ∀ ds, without ns (c :: ds) = without ns [c] ++ without ns ds := fun ds =>
            List.filter_append [c] ds
          rw [List.set_cons_succ, hsplit, hsplit cs, nodesOf_append, nodesOf_append, hrest]

namespace Arena

variable {a b : Arena} {id n p : NodeId} {i : Nat} {cs ds : List Child} {old child : Child}

/-! ### Moves -/

/-- The arena `b` is `a` after the nodes of `cs` have been taken out of their places and `ds` has
become the list of `id`. -/
structure Adopted (a : Arena) (id : NodeId) (cs ds : List Child) (b : Arena) : Prop
    extends SameNodes a b where
  wellFormed : b.WellFormed
  own : b.children id = ds
  others : ∀ q, q ≠ id → b.children q = without (nodesOf cs) (a.children q)
  /-- Former children that are not listed any more have no parent. -/
  dropped : ∀ n, .node n ∈ a.children id → .node n ∉ ds → b.parent? n = none

/-- The lists say where everything is. -/
theorem adopted_of_children (h : a.WellFormed) (hs : SameNodes a b) (hb : b.WellFormed)
    (hown : b.children id = ds)
    (hothers : ∀ q, q ≠ id → b.children q = without (nodesOf cs) (a.children q)) :
    Adopted a id cs ds b := by
  refine ⟨hs, hb, hown, hothers, fun n hn hout => ?_⟩
  refine Option.eq_none_iff_forall_ne_some.mpr fun q hq => ?_
  have hmem := hb.mem_children_iff.mpr hq
  by_cases hqid : q = id
  · rw [hqid, hown] at hmem
    exact hout hmem
  · -- the only list that named the node before is that of `id`
    rw [hothers q hqid] at hmem
    have hq' := h.mem_children_iff.mp (mem_without.mp hmem).1
    rw [h.mem_children_iff.mp hn] at hq'
    exact hqid (Option.some.inj hq').symm

section lists

variable (h : a.WellFormed) (hid : id < a.size) (ha : a.Adoptable id (nodesOf cs))

include h hid ha

theorem adopted_assign : Adopted a id cs cs (a.assign id cs) := by
  refine adopted_of_children h ⟨root_assign _ _ _, size_assign _ _ _, fun m => kind?_assign _ _ m _,
    fun m => note?_assign _ _ m _⟩ (wellFormed_assign h hid ha) ?_ fun q hq => ?_
  · rw [children_assign h hid, if_pos rfl]
  · rw [children_assign h hid, if_neg hq]

theorem adopted_extend :
    Adopted a id cs (without (nodesOf cs) (a.children id) ++ cs) (a.extend id cs) := by
  refine adopted_of_children h ⟨root_extend _ _ _, size_extend _ _ _, fun m => kind?_extend _ _ m _,
    fun m => note?_extend _ _ m _⟩ (wellFormed_extend h hid ha) ?_ fun q hq => ?_
  · rw [children_extend h hid, if_pos rfl]
  · rw [children_extend h hid, if_neg hq]

end lists

/-- **Moving children neither loses nor duplicates anything.**  Children that may be adopted are
adopted.  Replacing leaves exactly the new children, appending leaves the former ones and then the
new ones; no other list changes but for the nodes that are moved, which leave it, and former
children that are in the new list no longer are left without a parent. -/
theorem setChildren_pushChildren_move (h : a.WellFormed) (hid : id < a.size)
    (ha : a.Adoptable id (nodesOf cs)) :
    (∃ b, a.setChildren id cs = .ok b ∧ Adopted a id cs cs b) ∧
      ∃ b, a.pushChildren id cs = .ok b ∧
        Adopted a id cs (without (nodesOf cs) (a.children id) ++ cs) b := by
  refine ⟨⟨_, ?_, adopted_assign h hid ha⟩, _, ?_, adopted_extend h hid ha⟩
  · exact setChildren_eq_ok_iff.mpr ⟨hid, fun n hn => ⟨ha.ne hn, ha.exist n hn⟩, rfl⟩
  · exact (pushChildren_eq_ok_iff h).mpr ⟨hid, ha.exist, rfl⟩

/-- A node that lists no nodes is above itself only. -/
theorem WellFormed.eq_of_below_childless (h : a.WellFormed) (hn : a.childNodes n = [])
    (hb : a.Below p n) : p = n := by
  rcases Relation.ReflTransGen.cases_tail hb with rfl | ⟨x, -, hx⟩
  · rfl
  · have hmem : x ∈ a.childNodes n := mem_nodesOf.mpr (h.mem_children_iff.mpr hx)
    rw [hn] at hmem
    cases hmem

/-- Two nodes that leave one parent and one that is there already, with a leaf among them. -/
theorem setChildren_pushChildren_move_siblings :
    ∃ a b c : Arena, a.WellFormed ∧
      a.tree = .ok (.plain (.other "body")
        [.plain (.other "f") [.plain (.other "g") [], .text "x", .plain (.other "h") [],
            .plain (.other "k") []],
          .plain (.other "m") [.plain (.other "u") [], .text "y", .plain (.other "v") []]]) ∧
      a.setChildren 7 [.node 2, .leaf (.text "z"), .node 5, .node 1] = .ok b ∧
      b.children 7 = [.node 2, .leaf (.text "z"), .node 5, .node 1] ∧
      b.children 4 = [.leaf (.text "x"), .node 3] ∧ b.parent? 6 = none ∧
      a.pushChildren 7 [.node 2, .leaf (.text "z"), .node 5, .node 1] = .ok c ∧
      c.children 7 = [.leaf (.text "y"), .node 6, .node 2, .leaf (.text "z"), .node 5, .node 1] ∧
      c.children 4 = [.leaf (.text "x"), .node 3] ∧ c.kind? 5 = a.kind? 5 := by
  have hwf := wellFormed_ofTree (.plain (.other "body")
    [.plain (.other "f") [.plain (.other "g") [], .text "x", .plain (.other "h") [],
        .plain (.other "k") []],
      .plain (.other "m") [.plain (.other "u") [], .text "y", .plain (.other "v") []]])
  obtain ⟨⟨b, hset, hb⟩, c, hpush, hc⟩ := setChildren_pushChildren_move hwf (show 7 < _ by decide)
    (show Adoptable _ _ (nodesOf [.node 2, .leaf (.text "z"), .node 5, .node 1]) from
      ⟨by decide, by decide, by decide, fun n hn hbelow => by
        obtain rfl | rfl | rfl : n = 2 ∨ n = 5 ∨ n = 1 := by simpa using hn
        all_goals cases hwf.eq_of_below_childless rfl hbelow⟩)
  exact ⟨_, b, c, hwf, tree_ofTree _ _ _, hset, hb.own, hb.others 4 (by decide),
    hb.dropped 6 (by decide) (by decide), hpush, hc.own, hc.others 4 (by decide), hc.kind 5⟩

/-! ### One place -/

/-- The place is the one given if the new child comes from elsewhere, or from further on. -/
theorem child?_detachAll_of_lt (h : a.WellFormed)
    (hlt : ∀ n, child = .node n → a.parent? n = some p → i < a.index n) :
    (a.detachAll child.node?.toList).child? p i = a.child? p i := by
  rw [child?, children_detachAll h, child?]
  cases child with
  | leaf l => exact congrArg (·[i]?) (without_nil _)
  | node n =>
      by_cases hp : a.parent? n = some p
      · have herase := eraseIdx_eq_without (h.nodup_childNodes p) (h.listed n p hp)
        exact herase ▸ List.getElem?_eraseIdx_of_lt (hlt n rfl hp)
      · refine congrArg (·[i]?) (without_eq_self fun m hm hmem => ?_)
        cases mem_node?_toList.mp hm
        exact hp (h.mem_children_iff.mp hmem)

/-- It is the next one if the new child stood there, or before. -/
theorem child?_detachAll_of_le (h : a.WellFormed) (hp : a.parent? n = some p)
    (hle : a.index n ≤ i) : (a.detachAll [n]).child? p i = a.child? p (i + 1) := by
  rw [child?, children_detachAll h, ← eraseIdx_eq_without (h.nodup_childNodes p) (h.listed n p hp)]
  exact List.getElem?_eraseIdx_of_ge hle

/-- The nodes that the place is not about stay in their order. -/
theorem Adopted.order_eq
    (hb : Adopted a p [child] ((without (nodesOf [child]) (a.children p)).set i child) b)
    (hold : (without (nodesOf [child]) (a.children p))[i]? = some old) :
    nodesOf (without (nodesOf [old, child]) (b.children p))
      = nodesOf (without (nodesOf [old, child]) (a.children p)) := by
  have hout : nodesOf [old] ⊆ nodesOf [old, child] :=
    (nodesOf_sublist (List.sublist_append_left [old] [child])).subset
  have hin : nodesOf [child] ⊆ nodesOf [old, child] :=
    (nodesOf_sublist (List.sublist_cons_self old [child])).subset
  rw [hb.own, nodesOf_without_set hold hout hin, without_without_of_subset hin]

section place

variable (h : a.WellFormed)
  (hchild : ∀ n, child = .node n → n < a.size ∧ n ≠ a.root ∧ ¬ a.Below p n)

include h hchild

/-- The child that is in the place when the new one has left its own is put out. -/
theorem exists_replaceChild (hold : (a.detachAll child.node?.toList).child? p i = some old) :
    ∃ b, a.replaceChild p i child = .ok (b, old) ∧
      Adopted a p [child] ((without (nodesOf [child]) (a.children p)).set i child) b ∧
      ∀ n, old = .node n → b.parent? n = none := by
  have hlt : ∀ n, child = .node n → n < a.size := fun n hn => (hchild n hn).1
  have hrun := replaceChild_eq_ok_iff.mpr ⟨hlt, hold, rfl⟩
  have hp := lt_size_of_child? hold
  have hlist := children_overwrite (a.detachAll child.node?.toList) p i old child hp
  have hwf := wellFormed_replaceChild h (fun n hn => (hchild n hn).2) hrun
  refine ⟨_, hrun, adopted_of_children h ⟨by simp, by simp, by simp, by simp⟩ hwf ?_ fun q hq => ?_,
    fun n hn => ?_⟩
  · rw [hlist, if_pos rfl, children_detachAll h, nodesOf_singleton]
  · rw [hlist, if_neg hq, children_detachAll h, nodesOf_singleton]
  · have hparent := ((wellFormed_detachAll h _).placed p i n (hn ▸ hold)).1
    have hne : child ≠ .node n := fun hc => by
      rw [(free_of_detachAll h hchild hc).2.1] at hparent
      cases hparent
    rw [parent?_overwrite _ _ _ _ _ fun m hm => (free_of_detachAll h hchild hm).1, if_neg hne,
      if_pos ⟨hn, hparent⟩]

end place

theorem replaceChild_eq_error (hp : p < a.size) (hlt : ∀ n, child = .node n → n < a.size)
    (hnone : (a.detachAll child.node?.toList).child? p i = none) :
    a.replaceChild p i child = .error .outOfBounds := by
  have hreq : a.requireSlots child.node?.toList = .ok () := by
    simpa only [requireSlots_eq_ok_iff, mem_node?_toList] using hlt
  have hp' : p < (a.detachAll child.node?.toList).size := by
    rw [size_detachAll]
    exact hp
  obtain ⟨s, hs⟩ := exists_slot? hp'
  rw [child?, children_eq hs] at hnone
  simp only [replaceChild, hreq, ok_bind, slot_eq hs, hnone]
  rfl

/-- A child of `p` may be put in any place of `p`. -/
theorem WellFormed.adoptable_of_parent (h : a.WellFormed) (hn : a.parent? n = some p) (m : NodeId)
    (hm : Child.node n = .node m) : m < a.size ∧ m ≠ a.root ∧ ¬ a.Below p m := by
  cases hm
  exact ⟨lt_size_of_parent? hn, h.ne_root hn, h.not_below_parent hn⟩

/-- **Overwriting one place.**  The place is counted without the new child, which has left its own
by then.  If the new child comes from elsewhere, or from further on in the list, the child that was
in the place is given back, and the other nodes stay in their order.  If it stood there or before,
the child behind the place is put out and given back; if there is none, the place is out of
bounds. -/
theorem replaceChild_counts_without_child (h : a.WellFormed) (hold : a.child? p i = some old)
    (hchild : ∀ n, child = .node n → n < a.size ∧ n ≠ a.root ∧ ¬ a.Below p n) :
    ((∀ n, child = .node n → a.parent? n = some p → i < a.index n) →
      ∃ b, a.replaceChild p i child = .ok (b, old) ∧
        Adopted a p [child] ((without (nodesOf [child]) (a.children p)).set i child) b ∧
        nodesOf (without (nodesOf [old, child]) (b.children p))
          = nodesOf (without (nodesOf [old, child]) (a.children p)) ∧
        ∀ m, old = .node m → b.parent? m = none) ∧
    ∀ n, child = .node n → a.parent? n = some p → a.index n ≤ i →
      (∀ next, a.child? p (i + 1) = some next →
        ∃ b, a.replaceChild p i child = .ok (b, next) ∧
          Adopted a p [child] (((a.children p).eraseIdx (a.index n)).set i child) b ∧
          ∀ m, next = .node m → b.parent? m = none) ∧
      (a.child? p (i + 1) = none → a.replaceChild p i child = .error .outOfBounds) := by
  refine ⟨fun hlt => ?_, ?_⟩
  · have hplace := child?_detachAll_of_lt h hlt
    obtain ⟨b, hrun, hb, hout⟩ := exists_replaceChild h hchild (hplace.trans hold)
    rw [child?, children_detachAll h, ← nodesOf_singleton] at hplace
    exact ⟨b, hrun, hb, hb.order_eq (hplace.trans hold), hout⟩
  · rintro n rfl hp hle
    have hplace := child?_detachAll_of_le h hp hle
    refine ⟨fun next hnext => ?_, fun hnone => ?_⟩
    · rw [eraseIdx_eq_without (h.nodup_childNodes p) (h.listed n p hp)]
      exact exists_replaceChild h hchild (hplace.trans hnext)
    · exact replaceChild_eq_error (lt_size_of_child? hold) (fun m hm => (hchild m hm).1)
        (hplace.trans hnone)

/-- The last of three children takes the place of the first; the first cannot take that of the last,
behind which there is nothing. -/
theorem replaceChild_counts_without_child_three :
    ∃ a b : Arena, a.WellFormed ∧
      a.tree = .ok (.plain (.other "block")
        [.plain (.other "f") [], .plain (.other "g") [], .plain (.other "h") [.text "x"]]) ∧
      a.replaceChild 4 0 (.node 3) = .ok (b, .node 1) ∧ b.children 4 = [.node 3, .node 2] ∧
      b.parent? 1 = none ∧ b.WellFormed ∧
      a.replaceChild 4 2 (.node 1) = .error .outOfBounds := by
  have hwf := wellFormed_ofTree (.plain (.other "block")
    [.plain (.other "f") [], .plain (.other "g") [], .plain (.other "h") [.text "x"]])
  obtain ⟨hlater, -⟩ := replaceChild_counts_without_child (i := 0) hwf rfl
    (hwf.adoptable_of_parent (show parent? _ 3 = some 4 from rfl))
  obtain ⟨-, hearlier⟩ := replaceChild_counts_without_child (i := 2) hwf rfl
    (hwf.adoptable_of_parent (show parent? _ 1 = some 4 from rfl))
  obtain ⟨b, hrun, hb, -, hout⟩ := hlater fun n hn _ => by
    cases hn
    decide
  exact ⟨_, b, hwf, tree_ofTree _ _ _, hrun, hb.own, hout 1 rfl, hb.wellFormed,
    (hearlier 1 rfl rfl (by decide)).2 rfl⟩

/-- The first of three children is put in the place of the second.  What is given back is not the
second child but the third, which has lost its parent; the second is still there. -/
theorem replaceChild_puts_out_next :
    ∃ a b : Arena, a.WellFormed ∧
      a.tree = .ok (.plain (.other "block")
        [.plain (.other "a") [], .plain (.other "b") [], .plain (.other "c") []]) ∧
      a.child? 4 1 = some (.node 2) ∧ (1 < a.size ∧ 1 ≠ a.root ∧ ¬ a.Below 4 1) ∧
      a.replaceChild 4 1 (.node 1) = .ok (b, .node 3) ∧ b.children 4 = [.node 2, .node 1] ∧
      a.parent? 3 = some 4 ∧ b.parent? 3 = none := by
  have hwf := wellFormed_ofTree (.plain (.other "block")
    [.plain (.other "a") [], .plain (.other "b") [], .plain (.other "c") []])
  exact ⟨_, _, hwf, tree_ofTree _ _ _, rfl, hwf.adoptable_of_parent rfl 1 rfl, rfl, rfl, rfl, rfl⟩

end Arena

end Unstack
