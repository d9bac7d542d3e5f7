import Unstack.Proofs.Arena.WellFormed

/-! # Moving nodes

What taking nodes out, replacing a list of children and appending to it do to a well-formed
arena.  Each operation gets one equation for the lists of children and one for the back links;
that it keeps arenas well formed follows from these.

* `detach` takes one node out, `detachAll` several: every list loses exactly these nodes.
* `assign` first empties the node (`clear`), then takes the new children out of their places,
  then lists them.
* `Adoptable` is what the new children of a node have to satisfy. -/

namespace Unstack

/-! ### Leaving nodes out of a list -/

/-- The children of a list that are not among the given nodes. -/
def without (ns : List NodeId) (cs : List Child) : List Child :=
  cs.filter fun c => c ∉ ns.map Child.node

theorem mem_without {ns : List NodeId} {cs : List Child} {n : NodeId} :
    .node n ∈ without ns cs ↔ .node n ∈ cs ∧ n ∉ ns := by
  have hmap : Child.node n ∈ ns.map Child.node ↔ n ∈ ns :=
    List.mem_map_of_injective fun _ _ => Child.node.inj
  rw [without, List.mem_filter, decide_eq_true_iff, hmap]

theorem without_eq_self {ns : List NodeId} {cs : List Child} (h : ∀ n ∈ ns, .node n ∉ cs) :
    without ns cs = cs := by
  refine List.filter_eq_self.mpr fun c hc => ?_
  rw [decide_eq_true_iff]
  intro hm
  obtain ⟨n, hn, rfl⟩ := List.mem_map.mp hm
  exact h n hn hc

@[simp] theorem without_nil (cs : List Child) : without [] cs = cs :=
  without_eq_self fun _ hn => absurd hn List.not_mem_nil

theorem without_without (ms ns : List NodeId) (cs : List Child) :
    without ns (without ms cs) = without (ms ++ ns) cs := by
  simp only [without, List.filter_filter]
  refine List.filter_congr fun c _ => ?_
  simp only [List.map_append, List.mem_append, not_or, Bool.decide_and]
  rw [Bool.and_comm]

theorem nodup_without {cs : List Child} (h : (nodesOf cs).Nodup) (ns : List NodeId) :
    (nodesOf (without ns cs)).Nodup :=
  h.sublist (nodesOf_sublist List.filter_sublist)

/-- Where no node is listed twice, leaving out the place of a node leaves out the node. -/
theorem eraseIdx_eq_without {cs : List Child} (h : (nodesOf cs).Nodup) {i : Nat} {n : NodeId}
    (hi : cs[i]? = some (.node n)) : cs.eraseIdx i = without [n] cs := by
  induction cs generalizing i with
  | nil => simp at hi
  | cons c cs ih =>
      have htail : (nodesOf cs).Nodup :=
        h.sublist (nodesOf_sublist (List.sublist_cons_self c cs))
      cases i with
      | zero =>
          rw [List.getElem?_cons_zero] at hi
          cases hi
          rw [nodesOf_cons_node, List.nodup_cons] at h
          have hrest : without [n] cs = cs := without_eq_self fun m hm hc => by
            rw [List.mem_singleton] at hm
            subst hm
            exact h.1 (mem_nodesOf.mpr hc)
          have hdrop : without [n] (.node n :: cs) = without [n] cs := by simp [without]
          rw [hdrop, hrest, List.eraseIdx_cons_zero]
      | succ i =>
          rw [List.getElem?_cons_succ] at hi
          have hne : c ≠ .node n := by
            rintro rfl
            rw [nodesOf_cons_node, List.nodup_cons] at h
            exact h.1 (mem_nodesOf.mpr (List.mem_of_getElem? hi))
          have hkeep : without [n] (c :: cs) = c :: without [n] cs := by simp [without, hne]
          rw [hkeep, List.eraseIdx_cons_succ, ih htail hi]

namespace Arena

variable {a : Arena} {id m n p q : NodeId} {cs : List Child}

/-! ### Relisting -/

/-- Relisting the children of `id` sets all links right if those of other nodes are right
already, and every node that names `id` is in the new list. -/
theorem linked_relist (hid : id < a.size) (hcs : (nodesOf cs).Nodup)
    (hlt : ∀ n ∈ nodesOf cs, n < a.size)
    (hother : ∀ p, p ≠ id → ∀ i n, a.child? p i = some (.node n) ↔
      a.parent? n = some p ∧ a.index n = i ∧ .node n ∉ cs)
    (hself : ∀ n, a.parent? n = some id → .node n ∈ cs) : (a.relist id cs).Linked := by
  intro p i n
  rw [child?, children_relist p hid, parent?_relist n hid hcs hlt, index_relist n hid hcs hlt]
  by_cases hp : p = id
  · subst hp
    rw [if_pos rfl]
    constructor
    · intro hi
      have hm : Child.node n ∈ cs := List.mem_of_getElem? hi
      rw [if_pos hm, if_pos hm]
      exact ⟨rfl, idxOf_node hcs hi⟩
    · rintro ⟨h1, h2⟩
      by_cases hm : Child.node n ∈ cs
      · rw [if_pos hm] at h2
        rw [← h2]
        exact getElem?_idxOf_node hm
      · rw [if_neg hm] at h1
        exact absurd (hself n h1) hm
  · rw [if_neg hp]
    refine (hother p hp i n).trans ?_
    by_cases hm : Child.node n ∈ cs
    · simp [hm, Ne.symm hp]
    · simp [hm]

/-- What the nodes have to satisfy that become children of `id`. -/
structure Adoptable (a : Arena) (id : NodeId) (ns : List NodeId) : Prop where
  nodup : ns.Nodup
  exist : ∀ n ∈ ns, n < a.size
  notRoot : a.root ∉ ns
  /-- None of them is `id` or stands above it. -/
  notAbove : ∀ n ∈ ns, ¬ a.Below id n

theorem Adoptable.ne {ns : List NodeId} (h : a.Adoptable id ns) (hn : n ∈ ns) : n ≠ id := by
  rintro rfl
  exact h.notAbove n hn (.refl a n)

theorem Adoptable.of_links {b : Arena} {ns : List NodeId} (ha : a.Adoptable id ns)
    (hsize : b.size = a.size) (hroot : b.root = a.root)
    (hsub : ∀ n p, b.parent? n = some p → a.parent? n = some p) : b.Adoptable id ns where
  nodup := ha.nodup
  exist n hn := by
    rw [hsize]
    exact ha.exist n hn
  notRoot := by
    rw [hroot]
    exact ha.notRoot
  notAbove n hn hb := ha.notAbove n hn (hb.mono hsub)

/-- Nodes without a parent may be listed below `id`, next to its own children. -/
theorem wellFormed_relist (h : a.WellFormed) (hid : id < a.size)
    (ha : a.Adoptable id (nodesOf cs))
    (hnew : ∀ n ∈ nodesOf cs, a.parent? n = none ∨ a.parent? n = some id)
    (hold : ∀ n, a.parent? n = some id → .node n ∈ cs) : (a.relist id cs).WellFormed := by
  have hpar := fun n => parent?_relist n hid ha.nodup ha.exist
  refine .of_linked (linked_relist hid ha.nodup ha.exist ?_ hold) ?_ ?_ ?_
  · intro p hp i n
    rw [h.linked p i n]
    constructor
    · rintro ⟨h1, h2⟩
      refine ⟨h1, h2, fun hm => ?_⟩
      rcases hnew n (mem_nodesOf.mpr hm) with h3 | h3
      · rw [h3] at h1
        cases h1
      · rw [h3] at h1
        exact hp (Option.some.inj h1).symm
    · rintro ⟨h1, h2, _⟩
      exact ⟨h1, h2⟩
  · refine acyclic_adopt (S := fun n => n ∈ nodesOf cs) ha.notAbove (fun n p hnp => ?_) h.acyclic
    rw [hpar] at hnp
    by_cases hm : Child.node n ∈ cs
    · rw [if_pos hm] at hnp
      exact .inr ⟨(Option.some.inj hnp).symm, mem_nodesOf.mpr hm⟩
    · rw [if_neg hm] at hnp
      exact .inl hnp
  · rw [root_relist, size_relist]
    exact h.root_lt
  · have hr : Child.node a.root ∉ cs := fun hm => ha.notRoot (mem_nodesOf.mpr hm)
    rw [root_relist, hpar, if_neg hr]
    exact h.parent?_root

/-! ### Taking nodes out -/

theorem detach_of_orphan (h : a.parent? n = none) : a.detach n = a := by
  unfold detach
  rw [h]

theorem detach_eq (h : a.WellFormed) (hp : a.parent? n = some p) :
    a.detach n = (a.orphan n).relist p (without [n] (a.children p)) := by
  have hat : (a.orphan n).child? p ((a.orphan n).index n) = some (.node n) := by
    rw [child?, children_orphan, index_orphan]
    exact h.listed n p hp
  unfold detach
  rw [hp]
  simp only [hat, if_true]
  rw [children_orphan, index_orphan, eraseIdx_eq_without (h.nodup_childNodes p) (h.listed n p hp)]
  rfl

section detach

variable (h : a.WellFormed)

include h

theorem children_detach (n q : NodeId) :
    (a.detach n).children q = without [n] (a.children q) := by
  have hother : a.parent? n ≠ some q → without [n] (a.children q) = a.children q := by
    intro hq
    refine without_eq_self fun m hm hc => ?_
    rw [List.mem_singleton] at hm
    subst hm
    exact hq (h.mem_children_iff.mp hc)
  cases hp : a.parent? n with
  | none => rw [detach_of_orphan hp, hother (by rw [hp]; exact Option.some_ne_none q |>.symm)]
  | some p =>
      have hlt : p < (a.orphan n).size := by
        rw [size_orphan]
        exact h.parent_lt hp
      rw [detach_eq h hp, children_relist q hlt, children_orphan]
      by_cases hq : q = p
      · rw [if_pos hq, hq]
      · rw [if_neg hq, hother (by rw [hp]; exact fun e => hq (Option.some.inj e).symm)]

theorem parent?_detach (n m : NodeId) :
    (a.detach n).parent? m = if m = n then none else a.parent? m := by
  cases hp : a.parent? n with
  | none =>
      rw [detach_of_orphan hp]
      split_ifs with hm
      · rw [hm, hp]
      · rfl
  | some p =>
      have hlt : p < (a.orphan n).size := by
        rw [size_orphan]
        exact h.parent_lt hp
      rw [detach_eq h hp, parent?_relist m hlt (nodup_without (h.nodup_childNodes p) _),
        parent?_orphan]
      · by_cases hm : Child.node m ∈ without [n] (a.children p)
        · obtain ⟨h1, h2⟩ := mem_without.mp hm
          rw [List.mem_singleton] at h2
          rw [if_pos hm, if_neg h2, h.mem_children_iff.mp h1]
        · rw [if_neg hm]
      · intro k hk
        rw [size_orphan]
        exact h.child_lt (mem_without.mp (mem_nodesOf.mp hk)).1

/-- Only the siblings of a node move up when it is taken out. -/
theorem index_detach (hm : ∀ p, a.parent? n = some p → a.parent? m ≠ some p) :
    (a.detach n).index m = a.index m := by
  cases hp : a.parent? n with
  | none => rw [detach_of_orphan hp]
  | some p =>
      have hlt : p < (a.orphan n).size := by
        rw [size_orphan]
        exact h.parent_lt hp
      have hnot : Child.node m ∉ without [n] (a.children p) := fun hc =>
        hm p hp (h.mem_children_iff.mp (mem_without.mp hc).1)
      rw [detach_eq h hp, index_relist m hlt (nodup_without (h.nodup_childNodes p) _),
        if_neg hnot, index_orphan]
      intro k hk
      rw [size_orphan]
      exact h.child_lt (mem_without.mp (mem_nodesOf.mp hk)).1

theorem wellFormed_detach (n : NodeId) : (a.detach n).WellFormed := by
  have hpar := parent?_detach h n
  have hsub : ∀ m q, (a.detach n).parent? m = some q → a.parent? m = some q := by
    intro m q hm
    rw [hpar] at hm
    split_ifs at hm
    exact hm
  cases hp : a.parent? n with
  | none =>
      rw [detach_of_orphan hp]
      exact h
  | some p =>
      have hlt : p < (a.orphan n).size := by
        rw [size_orphan]
        exact h.parent_lt hp
      have hroot : (a.detach n).root = a.root := by
        rw [detach_eq h hp, root_relist, root_orphan]
      refine .of_linked ?_ (acyclic_mono hsub h.acyclic) ?_ ?_
      · rw [detach_eq h hp]
        refine linked_relist hlt (nodup_without (h.nodup_childNodes p) _) ?_ ?_ ?_
        · intro k hk
          rw [size_orphan]
          exact h.child_lt (mem_without.mp (mem_nodesOf.mp hk)).1
        · intro q hq i k
          rw [child?, children_orphan, index_orphan, parent?_orphan]
          refine (h.linked q i k).trans ?_
          have hk : a.parent? k = some q → k ≠ n := by
            rintro hkq rfl
            rw [hp] at hkq
            exact hq (Option.some.inj hkq).symm
          have hnot : a.parent? k = some q → Child.node k ∉ without [n] (a.children p) := by
            intro hkq hc
            rw [h.mem_children_iff.mp (mem_without.mp hc).1] at hkq
            exact hq (Option.some.inj hkq).symm
          constructor
          · rintro ⟨h1, h2⟩
            rw [if_neg (hk h1)]
            exact ⟨h1, h2, hnot h1⟩
          · rintro ⟨h1, h2, _⟩
            split_ifs at h1
            exact ⟨h1, h2⟩
        · intro k hk
          rw [parent?_orphan] at hk
          split_ifs at hk with hkn
          refine mem_without.mpr ⟨h.mem_children_iff.mpr hk, ?_⟩
          rw [List.mem_singleton]
          exact hkn
      · rw [hroot, size_detach]
        exact h.root_lt
      · rw [hroot, hpar]
        split_ifs
        · rfl
        · exact h.parent?_root

end detach

@[simp] theorem kind?_detach (a : Arena) (n m : NodeId) : (a.detach n).kind? m = a.kind? m := by
  unfold detach
  split
  · rfl
  · simp only
    split_ifs <;> simp

@[simp] theorem note?_detach (a : Arena) (n m : NodeId) : (a.detach n).note? m = a.note? m := by
  unfold detach
  split
  · rfl
  · simp only
    split_ifs <;> simp

@[simp] theorem root_detach (a : Arena) (n : NodeId) : (a.detach n).root = a.root := by
  unfold detach
  split
  · rfl
  · simp only
    split_ifs <;> simp

section detachAll

variable (h : a.WellFormed)

include h

theorem wellFormed_detachAll (ns : List NodeId) : (a.detachAll ns).WellFormed := by
  induction ns generalizing a with
  | nil => exact h
  | cons n ns ih => exact ih (wellFormed_detach h n)

theorem children_detachAll (ns : List NodeId) (q : NodeId) :
    (a.detachAll ns).children q = without ns (a.children q) := by
  induction ns generalizing a with
  | nil => exact (without_nil _).symm
  | cons n ns ih =>
      have := ih (wellFormed_detach h n)
      rw [children_detach h, without_without] at this
      exact this

theorem parent?_detachAll (ns : List NodeId) (m : NodeId) :
    (a.detachAll ns).parent? m = if m ∈ ns then none else a.parent? m := by
  induction ns generalizing a with
  | nil => simp [detachAll]
  | cons n ns ih =>
      have := ih (wellFormed_detach h n)
      rw [parent?_detach h] at this
      refine Eq.trans this ?_
      by_cases hm : m = n <;> simp [hm]

theorem index_detachAll (ns : List NodeId)
    (hm : ∀ n ∈ ns, ∀ p, a.parent? n = some p → a.parent? m ≠ some p) :
    (a.detachAll ns).index m = a.index m := by
  induction ns generalizing a with
  | nil => rfl
  | cons n ns ih =>
      have hn := index_detach h (hm n List.mem_cons_self)
      have hsub : ∀ k p, (a.detach n).parent? k = some p → a.parent? k = some p := by
        intro k p hk
        rw [parent?_detach h] at hk
        split_ifs at hk
        exact hk
      refine Eq.trans (ih (wellFormed_detach h n) ?_) hn
      intro k hk p hp hmp
      exact hm k (List.mem_cons_of_mem n hk) p (hsub k p hp) (hsub m p hmp)

end detachAll

@[simp] theorem kind?_detachAll (a : Arena) (ns : List NodeId) (m : NodeId) :
    (a.detachAll ns).kind? m = a.kind? m :=
  foldl_keeps (fun a => a.kind? m) detach (fun a n => kind?_detach a n m) ns a

@[simp] theorem note?_detachAll (a : Arena) (ns : List NodeId) (m : NodeId) :
    (a.detachAll ns).note? m = a.note? m :=
  foldl_keeps (fun a => a.note? m) detach (fun a n => note?_detach a n m) ns a

@[simp] theorem root_detachAll (a : Arena) (ns : List NodeId) :
    (a.detachAll ns).root = a.root :=
  foldl_keeps Arena.root detach root_detach ns a

/-! ### Emptying a node -/

/-- Takes all children of a node away from it. -/
def clear (a : Arena) (id : NodeId) : Arena :=
  (a.childNodes id).foldl (fun a c => a.release id c) (a.setList id [])

section clear

@[simp] theorem kind?_clear (a : Arena) (id m : NodeId) : (a.clear id).kind? m = a.kind? m := by
  refine (foldl_keeps (fun a => a.kind? m) _ (fun a n => kind?_release a n m id) _ _).trans ?_
  exact kind?_setList ..

@[simp] theorem note?_clear (a : Arena) (id m : NodeId) : (a.clear id).note? m = a.note? m := by
  refine (foldl_keeps (fun a => a.note? m) _ (fun a n => note?_release a n m id) _ _).trans ?_
  exact note?_setList ..

@[simp] theorem index_clear (a : Arena) (id m : NodeId) : (a.clear id).index m = a.index m := by
  refine (foldl_keeps (fun a => a.index m) _ (fun a n => index_release a n m id) _ _).trans ?_
  exact index_setList ..

@[simp] theorem root_clear (a : Arena) (id : NodeId) : (a.clear id).root = a.root :=
  foldl_keeps Arena.root _ (fun a n => root_release a n id) _ _

@[simp] theorem size_clear (a : Arena) (id : NodeId) : (a.clear id).size = a.size :=
  (foldl_keeps Arena.size _ (fun a n => size_release a id n) _ _).trans (size_setList ..)

theorem children_clear (a : Arena) (id q : NodeId) :
    (a.clear id).children q = if q = id then [] else a.children q := by
  refine (foldl_keeps (fun a => a.children q) _ (fun a n => children_release a n q id) _ _).trans ?_
  rw [children_setList]
  by_cases hq : q = id
  · by_cases hs : id < a.size
    · simp [hq, hs]
    · rw [if_neg fun e => hs e.2, if_pos hq, hq, children,
        (slot?_eq_none_iff a id).mpr (Nat.le_of_not_lt hs)]
  · simp [hq]

variable (h : a.WellFormed)

include h

theorem parent?_clear (id m : NodeId) :
    (a.clear id).parent? m = if a.parent? m = some id then none else a.parent? m := by
  unfold clear
  rw [parent?_foldl_release, parent?_setList]
  by_cases hm : a.parent? m = some id
  · have hc : m ∈ a.childNodes id := mem_nodesOf.mpr (h.mem_children_iff.mpr hm)
    rw [if_pos ⟨hc, hm⟩, if_pos hm]
  · rw [if_neg fun e => hm e.2, if_neg hm]

theorem parent?_of_parent?_clear {id m p : NodeId} (hm : (a.clear id).parent? m = some p) :
    a.parent? m = some p ∧ p ≠ id := by
  rw [parent?_clear h] at hm
  split_ifs at hm with hid
  refine ⟨hm, ?_⟩
  rintro rfl
  exact hid hm

theorem wellFormed_clear (id : NodeId) : (a.clear id).WellFormed := by
  refine .of_linked ?_ (acyclic_mono (fun n p hn => (parent?_of_parent?_clear h hn).1) h.acyclic)
    ?_ ?_
  · intro p i n
    rw [child?, children_clear, index_clear, parent?_clear h]
    have hl := h.linked p i n
    rw [child?] at hl
    by_cases hp : p = id
    · subst hp
      rw [if_pos rfl]
      split_ifs with hn
      · simp
      · simp [hn]
    · rw [if_neg hp, hl]
      by_cases hn : a.parent? n = some id
      · rw [if_pos hn, hn]
        simp [Ne.symm hp]
      · rw [if_neg hn]
  · rw [root_clear, size_clear]
    exact h.root_lt
  · rw [root_clear, parent?_clear h, h.parent?_root]
    rfl

end clear

/-! ### New children in place of the old ones -/

theorem assign_eq (a : Arena) (id : NodeId) (cs : List Child) :
    a.assign id cs = ((a.clear id).detachAll (nodesOf cs)).relist id cs := rfl

@[simp] theorem kind?_assign (a : Arena) (id m : NodeId) (cs : List Child) :
    (a.assign id cs).kind? m = a.kind? m := by
  simp [assign_eq]

@[simp] theorem note?_assign (a : Arena) (id m : NodeId) (cs : List Child) :
    (a.assign id cs).note? m = a.note? m := by
  simp [assign_eq]

@[simp] theorem root_assign (a : Arena) (id : NodeId) (cs : List Child) :
    (a.assign id cs).root = a.root := by
  simp [assign_eq]

section assign

variable (h : a.WellFormed) (hid : id < a.size)

include h

/-- Before the new children are listed they have no parent, and nobody has `id` for one. -/
theorem parent?_detachAll_clear (ns : List NodeId) (m : NodeId) :
    ((a.clear id).detachAll ns).parent? m
      = if m ∈ ns ∨ a.parent? m = some id then none else a.parent? m := by
  rw [parent?_detachAll (wellFormed_clear h id), parent?_clear h]
  by_cases hm : m ∈ ns
  · simp [hm]
  · simp [hm]

include hid

theorem children_assign (q : NodeId) :
    (a.assign id cs).children q = if q = id then cs else without (nodesOf cs) (a.children q) := by
  have hlt : id < ((a.clear id).detachAll (nodesOf cs)).size := by
    rw [size_detachAll, size_clear]
    exact hid
  rw [assign_eq, children_relist q hlt, children_detachAll (wellFormed_clear h id),
    children_clear]
  split_ifs <;> rfl

variable (ha : a.Adoptable id (nodesOf cs))

include ha

theorem parent?_assign (m : NodeId) :
    (a.assign id cs).parent? m
      = if .node m ∈ cs then some id else if a.parent? m = some id then none
        else a.parent? m := by
  rw [assign_eq, parent?_relist m _ ha.nodup, parent?_detachAll_clear h]
  · by_cases hm : Child.node m ∈ cs <;> simp [hm]
  · intro n hn
    rw [size_detachAll, size_clear]
    exact ha.exist n hn
  · rw [size_detachAll, size_clear]
    exact hid

theorem index_assign (hm : .node m ∉ cs)
    (hsib : ∀ n ∈ nodesOf cs, ∀ p, p ≠ id → a.parent? n = some p → a.parent? m ≠ some p) :
    (a.assign id cs).index m = a.index m := by
  rw [assign_eq, index_relist m _ ha.nodup, if_neg hm, index_detachAll (wellFormed_clear h id),
    index_clear]
  · intro n hn p hp hmp
    obtain ⟨hp', hne⟩ := parent?_of_parent?_clear h hp
    exact hsib n hn p hne hp' (parent?_of_parent?_clear h hmp).1
  · intro n hn
    rw [size_detachAll, size_clear]
    exact ha.exist n hn
  · rw [size_detachAll, size_clear]
    exact hid

theorem wellFormed_assign : (a.assign id cs).WellFormed := by
  have hb : ((a.clear id).detachAll (nodesOf cs)).WellFormed :=
    wellFormed_detachAll (wellFormed_clear h id) _
  have hsub : ∀ n p, ((a.clear id).detachAll (nodesOf cs)).parent? n = some p →
      a.parent? n = some p ∧ n ∉ nodesOf cs ∧ p ≠ id := by
    intro n p hn
    rw [parent?_detachAll_clear h] at hn
    split_ifs at hn with hc
    refine ⟨hn, fun hm => hc (.inl hm), ?_⟩
    rintro rfl
    exact hc (.inr hn)
  rw [assign_eq]
  refine wellFormed_relist hb ?_ (ha.of_links ?_ ?_ fun n p hn => (hsub n p hn).1) ?_ ?_
  · rw [size_detachAll, size_clear]
    exact hid
  · rw [size_detachAll, size_clear]
  · rw [root_detachAll, root_clear]
  · intro n hn
    left
    rw [parent?_detachAll_clear h, if_pos (.inl hn)]
  · intro n hn
    exact absurd rfl (hsub n id hn).2.2

end assign

/-! ### More children -/

/-- A node with further children after its own. -/
def extend (a : Arena) (id : NodeId) (cs : List Child) : Arena :=
  (a.detachAll (nodesOf cs)).relist id (without (nodesOf cs) (a.children id) ++ cs)

@[simp] theorem kind?_extend (a : Arena) (id m : NodeId) (cs : List Child) :
    (a.extend id cs).kind? m = a.kind? m := by
  simp [extend]

@[simp] theorem note?_extend (a : Arena) (id m : NodeId) (cs : List Child) :
    (a.extend id cs).note? m = a.note? m := by
  simp [extend]

@[simp] theorem root_extend (a : Arena) (id : NodeId) (cs : List Child) :
    (a.extend id cs).root = a.root := by
  simp [extend]

@[simp] theorem size_extend (a : Arena) (id : NodeId) (cs : List Child) :
    (a.extend id cs).size = a.size := by
  simp [extend]

section extend

variable (h : a.WellFormed) (hid : id < a.size)

include h

theorem adoptable_extend (ha : a.Adoptable id (nodesOf cs)) :
    a.Adoptable id (nodesOf (without (nodesOf cs) (a.children id) ++ cs)) := by
  have hold : ∀ n ∈ nodesOf (without (nodesOf cs) (a.children id)),
      a.parent? n = some id ∧ n ∉ nodesOf cs := by
    intro n hn
    obtain ⟨h1, h2⟩ := mem_without.mp (mem_nodesOf.mp hn)
    exact ⟨h.mem_children_iff.mp h1, h2⟩
  rw [nodesOf_append]
  refine ⟨?_, ?_, ?_, ?_⟩
  · refine List.nodup_append.mpr ⟨nodup_without (h.nodup_childNodes id) _, ha.nodup, ?_⟩
    rintro n hn _ hm rfl
    exact (hold n hn).2 hm
  · intro n hn
    rcases List.mem_append.mp hn with hn | hn
    · exact lt_size_of_parent? (hold n hn).1
    · exact ha.exist n hn
  · intro hr
    rcases List.mem_append.mp hr with hr | hr
    · exact h.ne_root (hold _ hr).1 rfl
    · exact ha.notRoot hr
  · intro n hn
    rcases List.mem_append.mp hn with hn | hn
    · exact h.not_below_parent (hold n hn).1
    · exact ha.notAbove n hn

include hid

theorem children_extend (q : NodeId) :
    (a.extend id cs).children q
      = if q = id then without (nodesOf cs) (a.children id) ++ cs
        else without (nodesOf cs) (a.children q) := by
  have hlt : id < (a.detachAll (nodesOf cs)).size := by
    rw [size_detachAll]
    exact hid
  rw [extend, children_relist q hlt, children_detachAll h]

variable (ha : a.Adoptable id (nodesOf cs))

include ha

theorem parent?_extend (m : NodeId) :
    (a.extend id cs).parent? m = if .node m ∈ cs then some id else a.parent? m := by
  have hx := adoptable_extend h ha
  have hlt : id < (a.detachAll (nodesOf cs)).size := by
    rw [size_detachAll]
    exact hid
  rw [extend, parent?_relist m hlt hx.nodup, parent?_detachAll h]
  · by_cases hm : Child.node m ∈ cs
    · simp [hm]
    · by_cases hc : Child.node m ∈ a.children id
      · have hw : Child.node m ∈ without (nodesOf cs) (a.children id) :=
          mem_without.mpr ⟨hc, fun e => hm (mem_nodesOf.mp e)⟩
        simp [hm, hw, h.mem_children_iff.mp hc]
      · have hw : Child.node m ∉ without (nodesOf cs) (a.children id) :=
          fun e => hc (mem_without.mp e).1
        simp [hm, hw]
  · intro n hn
    rw [size_detachAll]
    exact hx.exist n hn

theorem index_extend (hm : .node m ∉ cs) (hmid : a.parent? m ≠ some id)
    (hsib : ∀ n ∈ nodesOf cs, ∀ p, a.parent? n = some p → a.parent? m ≠ some p) :
    (a.extend id cs).index m = a.index m := by
  have hx := adoptable_extend h ha
  have hlt : id < (a.detachAll (nodesOf cs)).size := by
    rw [size_detachAll]
    exact hid
  have hnot : Child.node m ∉ without (nodesOf cs) (a.children id) ++ cs := by
    intro hc
    rcases List.mem_append.mp hc with hc | hc
    · exact hmid (h.mem_children_iff.mp (mem_without.mp hc).1)
    · exact hm hc
  rw [extend, index_relist m hlt hx.nodup, if_neg hnot, index_detachAll h _ hsib]
  intro n hn
  rw [size_detachAll]
  exact hx.exist n hn

theorem wellFormed_extend : (a.extend id cs).WellFormed := by
  have hx := adoptable_extend h ha
  have hsub : ∀ n p, (a.detachAll (nodesOf cs)).parent? n = some p →
      a.parent? n = some p ∧ n ∉ nodesOf cs := by
    intro n p hn
    rw [parent?_detachAll h] at hn
    split_ifs at hn with hc
    exact ⟨hn, hc⟩
  refine wellFormed_relist (wellFormed_detachAll h _) ?_ (hx.of_links ?_ ?_ fun n p hn =>
    (hsub n p hn).1) ?_ ?_
  · rw [size_detachAll]
    exact hid
  · rw [size_detachAll]
  · rw [root_detachAll]
  · intro n hn
    rw [parent?_detachAll h]
    rw [nodesOf_append] at hn
    by_cases hm : n ∈ nodesOf cs
    · exact .inl (if_pos hm)
    · rw [if_neg hm]
      rcases List.mem_append.mp hn with hn | hn
      · exact .inr (h.mem_children_iff.mp (mem_without.mp (mem_nodesOf.mp hn)).1)
      · exact absurd hn hm
  · intro n hn
    obtain ⟨h1, h2⟩ := hsub n id hn
    exact List.mem_append_left _ (mem_without.mpr ⟨h.mem_children_iff.mpr h1, h2⟩)

end extend

end Arena

end Unstack
