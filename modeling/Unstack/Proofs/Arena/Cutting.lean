import Unstack.Arena.Splice
import Unstack.Proofs.Arena.Moving
import Unstack.Proofs.Outcome

/-! # Cutting, overwriting and splicing

The other half of the edits of a list of children: cutting its end off (`cut`), overwriting one
place (`overwrite`), and putting the children of expansions in their place (`splice`).  As for
moving, every operation has one equation for lists and one for back links, and keeps arenas
well formed. -/

namespace Unstack.Arena

open Outcome

variable {a : Arena} {id m n p q : NodeId} {cs : List Child}

/-! ### Cutting the end off -/

/-- A node with its first `k` children only; the nodes among the others are let go. -/
def cut (a : Arena) (id : NodeId) (k : Nat) : Arena :=
  (nodesOf ((a.children id).drop k)).foldl orphan (a.setList id ((a.children id).take k))

@[simp] theorem kind?_cut (a : Arena) (id m : NodeId) (k : Nat) :
    (a.cut id k).kind? m = a.kind? m :=
  (foldl_keeps (fun a => a.kind? m) orphan (fun a n => kind?_orphan a n m) _ _).trans
    (kind?_setList ..)

@[simp] theorem note?_cut (a : Arena) (id m : NodeId) (k : Nat) :
    (a.cut id k).note? m = a.note? m :=
  (foldl_keeps (fun a => a.note? m) orphan (fun a n => note?_orphan a n m) _ _).trans
    (note?_setList ..)

@[simp] theorem index_cut (a : Arena) (id m : NodeId) (k : Nat) :
    (a.cut id k).index m = a.index m :=
  (foldl_keeps (fun a => a.index m) orphan (fun a n => index_orphan a n m) _ _).trans
    (index_setList ..)

@[simp] theorem root_cut (a : Arena) (id : NodeId) (k : Nat) : (a.cut id k).root = a.root :=
  foldl_keeps Arena.root orphan root_orphan _ _

@[simp] theorem size_cut (a : Arena) (id : NodeId) (k : Nat) : (a.cut id k).size = a.size :=
  (foldl_keeps Arena.size orphan size_orphan _ _).trans (size_setList ..)

theorem children_cut (a : Arena) (id q : NodeId) (k : Nat) :
    (a.cut id k).children q = if q = id then (a.children id).take k else a.children q := by
  refine (foldl_keeps (fun a => a.children q) orphan (fun a n => children_orphan a n q)
    _ _).trans ?_
  rw [children_setList]
  by_cases hq : q = id
  · by_cases hs : id < a.size
    · simp [hq, hs]
    · have hnil : a.children id = [] := by
        rw [children, (slot?_eq_none_iff a id).mpr (Nat.le_of_not_lt hs)]
      simp [hq, hs, hnil]
  · simp [hq]

theorem parent?_cut (a : Arena) (id m : NodeId) (k : Nat) :
    (a.cut id k).parent? m
      = if .node m ∈ (a.children id).drop k then none else a.parent? m := by
  unfold cut
  rw [parent?_foldl_orphan, parent?_setList]
  simp only [mem_nodesOf]

theorem parent?_of_parent?_cut {k : Nat} (hn : (a.cut id k).parent? n = some p) :
    a.parent? n = some p := by
  rw [parent?_cut] at hn
  split_ifs at hn
  exact hn

theorem splitOff_eq (hid : id < a.size) {k : Nat} (hk : k ≤ (a.children id).length) :
    a.splitOff id k = .ok (a.cut id k, (a.children id).drop k) := by
  obtain ⟨s, hs⟩ := exists_slot? hid
  have hc := children_eq hs
  have hle : ¬ s.children.length < k := by
    rw [← hc]
    omega
  simp only [splitOff, slot_eq hs, ok_bind, hle, if_false, pure_eq_ok, cut, hc]

theorem splitOff_error (hid : id < a.size) {k : Nat} (hk : (a.children id).length < k) :
    a.splitOff id k = .error .outOfBounds := by
  obtain ⟨s, hs⟩ := exists_slot? hid
  rw [children_eq hs] at hk
  simp only [splitOff, slot_eq hs, ok_bind, hk, if_true, throw_eq_error]
  rfl

/-- A child is let go exactly when its position is `k` or more. -/
theorem mem_drop_iff (h : a.WellFormed) {k : Nat} :
    .node n ∈ (a.children id).drop k ↔ a.parent? n = some id ∧ k ≤ a.index n := by
  constructor
  · intro hm
    obtain ⟨i, hi⟩ := List.mem_iff_getElem?.mp hm
    rw [List.getElem?_drop] at hi
    obtain ⟨h1, h2⟩ := h.placed id (k + i) n hi
    exact ⟨h1, by omega⟩
  · rintro ⟨h1, h2⟩
    have hi := h.listed n id h1
    refine List.mem_iff_getElem?.mpr ⟨a.index n - k, ?_⟩
    rw [List.getElem?_drop, Nat.add_sub_cancel' h2]
    exact hi

theorem linked_cut (h : a.WellFormed) (id : NodeId) (k : Nat) : (a.cut id k).Linked := by
  intro p i n
  rw [child?, children_cut, index_cut, parent?_cut]
  have hl := h.linked p i n
  rw [child?] at hl
  by_cases hp : p = id
  · subst hp
    rw [if_pos rfl, List.getElem?_take]
    by_cases hi : i < k
    · rw [if_pos hi, hl]
      constructor
      · rintro ⟨h1, h2⟩
        rw [if_neg fun hm => by have := ((mem_drop_iff h).mp hm).2; omega]
        exact ⟨h1, h2⟩
      · rintro ⟨h1, h2⟩
        split_ifs at h1
        exact ⟨h1, h2⟩
    · rw [if_neg hi]
      constructor
      · intro hn
        cases hn
      · rintro ⟨h1, h2⟩
        split_ifs at h1 with hm
        exact absurd ((mem_drop_iff h).mpr ⟨h1, by omega⟩) hm
  · rw [if_neg hp, hl]
    by_cases hm : Child.node n ∈ (a.children id).drop k
    · have := ((mem_drop_iff h).mp hm).1
      simp [hm, this, Ne.symm hp]
    · rw [if_neg hm]

theorem wellFormed_cut (h : a.WellFormed) (id : NodeId) (k : Nat) : (a.cut id k).WellFormed := by
  refine .of_linked (linked_cut h id k)
    (acyclic_mono (fun n p hn => parent?_of_parent?_cut hn) h.acyclic) ?_ ?_
  · rw [root_cut, size_cut]
    exact h.root_lt
  · rw [root_cut, parent?_cut, h.parent?_root]
    split_ifs <;> rfl

/-! ### Overwriting one place -/

/-- Puts a child in the place of the former one, which is let go. -/
def overwrite (a : Arena) (p : NodeId) (i : Nat) (old child : Child) : Arena :=
  let a := a.setList p ((a.children p).set i child)
  let a := old.node?.toList.foldl (fun a n => a.release p n) a
  child.node?.toList.foldl (fun a n => a.place p i n) a

section overwrite

variable (a p) (i : Nat) (old child : Child)

@[simp] theorem kind?_overwrite (m : NodeId) : (a.overwrite p i old child).kind? m = a.kind? m := by
  cases old <;> cases child <;> simp [overwrite, Child.node?]

@[simp] theorem note?_overwrite (m : NodeId) : (a.overwrite p i old child).note? m = a.note? m := by
  cases old <;> cases child <;> simp [overwrite, Child.node?]

@[simp] theorem root_overwrite : (a.overwrite p i old child).root = a.root := by
  cases old <;> cases child <;> simp [overwrite, Child.node?]

@[simp] theorem size_overwrite : (a.overwrite p i old child).size = a.size := by
  cases old <;> cases child <;> simp [overwrite, Child.node?]

theorem children_overwrite (hp : p < a.size) (q : NodeId) :
    (a.overwrite p i old child).children q
      = if q = p then (a.children p).set i child else a.children q := by
  cases old <;> cases child <;> simp [overwrite, Child.node?, children_setList, hp]

theorem parent?_overwrite (hlt : ∀ n, child = .node n → n < a.size) (m : NodeId) :
    (a.overwrite p i old child).parent? m
      = if child = .node m then some p
        else if old = .node m ∧ a.parent? m = some p then none else a.parent? m := by
  have hold : (old.node?.toList.foldl (fun a n => a.release p n)
      (a.setList p ((a.children p).set i child))).parent? m
        = if old = .node m ∧ a.parent? m = some p then none else a.parent? m := by
    cases old with
    | leaf l => simp [Child.node?]
    | node k =>
        simp only [Child.node?, Option.toList_some, List.foldl_cons, List.foldl_nil,
          parent?_release, parent?_setList, Child.node.injEq]
        by_cases hk : k = m
        · simp [hk]
        · simp [hk, Ne.symm hk]
  cases child with
  | leaf l => simpa [overwrite, Child.node?] using hold
  | node k =>
      have hk := hlt k rfl
      have hsize : (old.node?.toList.foldl (fun a n => a.release p n)
          (a.setList p ((a.children p).set i (.node k)))).size = a.size := by
        cases old <;> simp [Child.node?]
      refine (parent?_place _ k m p i).trans ?_
      rw [hsize, hold]
      by_cases hm : m = k
      · simp [hm, hk]
      · simp [hm, Ne.symm hm]

theorem index_overwrite (hlt : ∀ n, child = .node n → n < a.size) (m : NodeId) :
    (a.overwrite p i old child).index m = if child = .node m then i else a.index m := by
  cases child with
  | leaf l => cases old <;> simp [overwrite, Child.node?]
  | node k =>
      have hk := hlt k rfl
      by_cases hm : m = k
      · cases old <;> simp [overwrite, Child.node?, index_place, hm, hk]
      · cases old <;> simp [overwrite, Child.node?, index_place, hm, Ne.symm hm]

end overwrite

/-- The new child stands in its place, and every other place is as before. -/
theorem child?_overwrite {i : Nat} {old child : Child} (hold : a.child? p i = some old) (q : NodeId)
    (j : Nat) (n : NodeId) :
    (a.overwrite p i old child).child? q j = some (.node n) ↔
      if q = p ∧ j = i then child = .node n else a.child? q j = some (.node n) := by
  have hi : i < (a.children p).length := (List.getElem?_eq_some_iff.mp hold).1
  rw [child?, children_overwrite a p i old child (lt_size_of_child? hold)]
  by_cases hq : q = p
  · subst hq
    rw [if_pos rfl, List.getElem?_set]
    by_cases hij : i = j
    · simp [← hij, hi]
    · simp [hij, Ne.symm hij, child?]
  · simp [hq, child?]

theorem linked_overwrite (h : a.WellFormed) {i : Nat} {old child : Child}
    (hold : a.child? p i = some old)
    (hchild : ∀ n, child = .node n → n < a.size ∧ a.parent? n = none) :
    (a.overwrite p i old child).Linked := by
  have hlt : ∀ n, child = .node n → n < a.size := fun n hn => (hchild n hn).1
  intro q j n
  rw [child?_overwrite hold, parent?_overwrite a p i old child hlt,
    index_overwrite a p i old child hlt]
  have hl := h.linked q j n
  by_cases hc : child = .node n
  · -- nothing else lists the new child
    rw [(hchild n hc).2] at hl
    rw [if_pos hc, if_pos hc]
    by_cases hqj : q = p ∧ j = i
    · simp [hqj, hc]
    · rw [if_neg hqj, hl]
      constructor
      · rintro ⟨h1, _⟩
        cases h1
      · rintro ⟨h1, h2⟩
        exact absurd ⟨(Option.some.inj h1).symm, h2.symm⟩ hqj
  · rw [if_neg hc, if_neg hc]
    by_cases ho : old = .node n
    · -- the only place of the former child is taken
      obtain ⟨h1, h2⟩ := h.placed p i n (ho ▸ hold)
      rw [h1, h2] at hl
      have hnone : (if old = .node n ∧ a.parent? n = some p then none else a.parent? n)
          = none := if_pos ⟨ho, h1⟩
      rw [hnone]
      by_cases hqj : q = p ∧ j = i
      · simp [hqj, hc]
      · rw [if_neg hqj, hl]
        constructor
        · rintro ⟨h3, h4⟩
          exact absurd ⟨(Option.some.inj h3).symm, h4.symm⟩ hqj
        · rintro ⟨h3, _⟩
          cases h3
    · have hsame : (if old = .node n ∧ a.parent? n = some p then none else a.parent? n)
          = a.parent? n := if_neg fun e => ho e.1
      rw [hsame, ← hl]
      by_cases hqj : q = p ∧ j = i
      · obtain ⟨rfl, rfl⟩ := hqj
        simp [hc, hold, ho]
      · rw [if_neg hqj]

theorem wellFormed_overwrite (h : a.WellFormed) {i : Nat} {old child : Child}
    (hold : a.child? p i = some old)
    (hchild : ∀ n, child = .node n →
      n < a.size ∧ a.parent? n = none ∧ n ≠ a.root ∧ ¬ a.Below p n) :
    (a.overwrite p i old child).WellFormed := by
  have hpar := parent?_overwrite a p i old child fun n hn => (hchild n hn).1
  refine .of_linked (linked_overwrite h hold fun n hn => ⟨(hchild n hn).1, (hchild n hn).2.1⟩)
    ?_ ?_ ?_
  · refine acyclic_adopt (S := fun n => child = .node n) (fun n hn => (hchild n hn).2.2.2)
      (fun n q hn => ?_) h.acyclic
    rw [hpar] at hn
    split_ifs at hn with hc ho
    · exact .inr ⟨(Option.some.inj hn).symm, hc⟩
    · exact .inl hn
  · rw [root_overwrite, size_overwrite]
    exact h.root_lt
  · rw [root_overwrite, hpar, h.parent?_root, if_neg fun hc => (hchild _ hc).2.2.1 rfl]
    split_ifs <;> rfl

/-- A child that may hang below `p` may be put there once it is taken out of its parent. -/
theorem free_of_detachAll (h : a.WellFormed) {child : Child}
    (hchild : ∀ n, child = .node n → n < a.size ∧ n ≠ a.root ∧ ¬ a.Below p n)
    (hn : child = .node n) :
    n < (a.detachAll child.node?.toList).size ∧
      (a.detachAll child.node?.toList).parent? n = none ∧
      n ≠ (a.detachAll child.node?.toList).root ∧
      ¬ (a.detachAll child.node?.toList).Below p n := by
  obtain ⟨hlt, hroot, habove⟩ := hchild n hn
  have hpar := parent?_detachAll h child.node?.toList
  refine ⟨?_, ?_, ?_, fun hb => habove (hb.mono fun m q hq => ?_)⟩
  · rw [size_detachAll]
    exact hlt
  · rw [hpar, if_pos (mem_node?_toList.mpr hn)]
  · rw [root_detachAll]
    exact hroot
  · rw [hpar] at hq
    split_ifs at hq
    exact hq

/-! ### Splicing -/

/-- What a child adds to the list of its parent: an expansion its children, anything else
itself. -/
def contents (a : Arena) : Child → List Child
  | .leaf l => [.leaf l]
  | .node n => if a.hasKind n .expand then a.children n else [.node n]

/-- The expansions in a list. -/
def expansionsOf (a : Arena) (cs : List Child) : List NodeId :=
  (nodesOf cs).filter (a.hasKind · .expand)

/-- Takes several nodes out of their place and their children away from them. -/
def emptied (a : Arena) (ns : List NodeId) : Arena :=
  ns.foldl (fun a n => (a.orphan n).setList n []) a

/-- Puts the children of every expansion below `id` in its place. -/
def splice (a : Arena) (id : NodeId) : Arena :=
  if (a.children id).any a.isExpansion then
    ((a.setList id []).emptied (a.expansionsOf (a.children id))).relist id
      ((a.children id).flatMap a.contents)
  else a

theorem mem_expansionsOf : n ∈ a.expansionsOf cs ↔ .node n ∈ cs ∧ a.hasKind n .expand := by
  simp [expansionsOf]

@[simp] theorem kind?_emptied (a : Arena) (ns : List NodeId) (m : NodeId) :
    (a.emptied ns).kind? m = a.kind? m :=
  foldl_keeps (fun a => a.kind? m) _ (fun a n => by simp) ns a

@[simp] theorem note?_emptied (a : Arena) (ns : List NodeId) (m : NodeId) :
    (a.emptied ns).note? m = a.note? m :=
  foldl_keeps (fun a => a.note? m) _ (fun a n => by simp) ns a

@[simp] theorem index_emptied (a : Arena) (ns : List NodeId) (m : NodeId) :
    (a.emptied ns).index m = a.index m :=
  foldl_keeps (fun a => a.index m) _ (fun a n => by simp) ns a

@[simp] theorem root_emptied (a : Arena) (ns : List NodeId) : (a.emptied ns).root = a.root :=
  foldl_keeps Arena.root _ (fun a n => by simp) ns a

@[simp] theorem size_emptied (a : Arena) (ns : List NodeId) : (a.emptied ns).size = a.size :=
  foldl_keeps Arena.size _ (fun a n => by simp) ns a

theorem parent?_emptied (a : Arena) (ns : List NodeId) (m : NodeId) :
    (a.emptied ns).parent? m = if m ∈ ns then none else a.parent? m := by
  unfold emptied
  induction ns generalizing a with
  | nil => simp
  | cons n ns ih =>
      rw [List.foldl_cons, ih, parent?_setList, parent?_orphan]
      by_cases hm : m = n <;> simp [hm]

theorem children_emptied (a : Arena) (ns : List NodeId) (q : NodeId) :
    (a.emptied ns).children q = if q ∈ ns then [] else a.children q := by
  unfold emptied
  induction ns generalizing a with
  | nil => simp
  | cons n ns ih =>
      rw [List.foldl_cons, ih, children_setList, children_orphan, size_orphan]
      by_cases hq : q = n
      · by_cases hs : n < a.size
        · simp [hq, hs]
        · have hnil : a.children n = [] := by
            rw [children, (slot?_eq_none_iff a n).mpr (Nat.le_of_not_lt hs)]
          simp [hq, hs, hnil]
      · simp [hq]

theorem hasKind_congr {a b : Arena} (h : ∀ n, b.kind? n = a.kind? n) (k : Kind) :
    (b.hasKind · k) = (a.hasKind · k) := by
  funext n
  unfold hasKind
  rw [h]

theorem contents_congr {a b : Arena} (hk : ∀ n, b.kind? n = a.kind? n)
    (hc : ∀ n ∈ nodesOf cs, b.children n = a.children n) :
    cs.flatMap b.contents = cs.flatMap a.contents := by
  refine List.flatMap_congr fun c hm => ?_
  cases c with
  | leaf l => rfl
  | node n => rw [contents, contents, hc n (mem_nodesOf.mpr hm), congrFun (hasKind_congr hk _) n]

theorem contents_eq_self (hany : ¬ (a.children id).any a.isExpansion) :
    (a.children id).flatMap a.contents = a.children id ∧
      a.expansionsOf (a.children id) = [] := by
  have hnot : ∀ n, .node n ∈ a.children id → a.hasKind n .expand = false := by
    intro n hn
    by_contra hk
    rw [Bool.not_eq_false] at hk
    exact hany (List.any_eq_true.mpr ⟨_, hn, hk⟩)
  constructor
  · have : ∀ c ∈ a.children id, a.contents c = [c] := by
      intro c hc
      cases c with
      | leaf l => rfl
      | node n => simp [contents, hnot n hc]
    rw [List.flatMap_congr this, List.flatMap_singleton']
  · refine List.filter_eq_nil_iff.mpr fun n hn => ?_
    simp [hnot n (mem_nodesOf.mp hn)]

/-- Running through a list that names no node twice. -/
theorem result_gather (id : NodeId) (a : Arena) (cs : List Child) (hcs : (nodesOf cs).Nodup) :
    (gather id a cs).result = .ok (a.emptied (a.expansionsOf cs), cs.flatMap a.contents) := by
  induction cs generalizing a with
  | nil => rfl
  | cons c cs ih =>
      cases c with
      | leaf l =>
          simp only [gather, Traced.result_bind, ih a hcs, ok_bind, Traced.result_pure]
          rfl
      | node n =>
          rw [nodesOf_cons_node, List.nodup_cons] at hcs
          simp only [gather]
          by_cases hn : a.hasKind n .expand
          · -- the expansion is emptied first, which the rest of the list does not notice
            have hkind : ∀ m, ((a.orphan n).setList n []).kind? m = a.kind? m := by simp
            have hexp : ((a.orphan n).setList n []).expansionsOf cs = a.expansionsOf cs := by
              unfold expansionsOf
              rw [hasKind_congr hkind]
            have hcont : cs.flatMap ((a.orphan n).setList n []).contents
                = cs.flatMap a.contents := by
              refine contents_congr hkind fun m hm => ?_
              have hne : m ≠ n := by
                rintro rfl
                exact hcs.1 hm
              simp [children_setList, hne]
            have hrest := ih ((a.orphan n).setList n []) hcs.2
            rw [hexp, hcont] at hrest
            have hhead : a.expansionsOf (.node n :: cs) = n :: a.expansionsOf cs := by
              simp [expansionsOf, hn]
            rw [if_pos hn, hhead]
            simp only [Traced.result_bind, Traced.result_emit, hrest, ok_bind,
              Traced.result_pure, List.flatMap_cons, contents, hn, if_true]
            rfl
          · have hhead : a.expansionsOf (.node n :: cs) = a.expansionsOf cs := by
              simp [expansionsOf, hn]
            rw [if_neg hn, hhead]
            simp only [Traced.result_bind, ih a hcs.2, ok_bind, Traced.result_pure,
              List.flatMap_cons, contents, hn]
            rfl

theorem children_splice (hid : id < a.size) (q : NodeId) :
    (a.splice id).children q
      = if q = id then (a.children id).flatMap a.contents
        else if q ∈ a.expansionsOf (a.children id) then [] else a.children q := by
  unfold splice
  by_cases hany : (a.children id).any a.isExpansion
  · have hlt : id < ((a.setList id []).emptied (a.expansionsOf (a.children id))).size := by
      rw [size_emptied, size_setList]
      exact hid
    rw [if_pos hany, children_relist q hlt, children_emptied, children_setList]
    by_cases hq : q = id
    · rw [if_pos hq, if_pos hq]
    · simp [hq]
  · obtain ⟨h1, h2⟩ := contents_eq_self hany
    rw [if_neg hany, h1, h2, if_neg List.not_mem_nil]
    split_ifs with hq
    · rw [hq]
    · rfl

@[simp] theorem kind?_splice (a : Arena) (id m : NodeId) :
    (a.splice id).kind? m = a.kind? m := by
  unfold splice
  split_ifs <;> simp

@[simp] theorem note?_splice (a : Arena) (id m : NodeId) :
    (a.splice id).note? m = a.note? m := by
  unfold splice
  split_ifs <;> simp

@[simp] theorem root_splice (a : Arena) (id : NodeId) : (a.splice id).root = a.root := by
  unfold splice
  split_ifs <;> simp

@[simp] theorem size_splice (a : Arena) (id : NodeId) : (a.splice id).size = a.size := by
  unfold splice
  split_ifs <;> simp

section splice

variable (h : a.WellFormed)

include h

theorem mem_expansions_iff :
    n ∈ a.expansionsOf (a.children id) ↔ a.parent? n = some id ∧ a.hasKind n .expand := by
  rw [mem_expansionsOf, h.mem_children_iff]

theorem result_spliceExpanded (hid : id < a.size) :
    (a.spliceExpanded id).result = .ok (a.splice id, (a.children id).any a.isExpansion) := by
  obtain ⟨s, hs⟩ := exists_slot? hid
  have hkind : ∀ m, (a.setList id []).kind? m = a.kind? m := by simp
  have hexp : (a.setList id []).expansionsOf (a.children id)
      = a.expansionsOf (a.children id) := by
    unfold expansionsOf
    rw [hasKind_congr hkind]
  have hcont : (a.children id).flatMap (a.setList id []).contents
      = (a.children id).flatMap a.contents := by
    refine contents_congr hkind fun n hn => ?_
    have hne : n ≠ id := h.acyclic.ne_parent (h.mem_children_iff.mp (mem_nodesOf.mp hn))
    simp [children_setList, hne]
  have hgather := result_gather id (a.setList id []) (a.children id) (h.nodup_childNodes id)
  rw [hexp, hcont, children_eq hs] at hgather
  simp only [spliceExpanded, slot_eq hs, Traced.result_bind, Traced.result_liftM, ok_bind,
    splice, children_eq hs]
  by_cases hany : s.children.any a.isExpansion
  · rw [if_pos hany, if_pos hany, hany]
    simp only [Traced.result_bind, hgather, ok_bind, Traced.result_pure]
    rfl
  · rw [if_neg hany, if_neg hany, Bool.eq_false_iff.mpr hany]
    rfl

/-- The nodes of the spliced list: the children that are no expansions, and the children of
expansions. -/
theorem mem_spliced_iff (n : NodeId) :
    .node n ∈ (a.children id).flatMap a.contents ↔
      (a.parent? n = some id ∧ a.hasKind n .expand = false) ∨
        ∃ e ∈ a.expansionsOf (a.children id), a.parent? n = some e := by
  rw [List.mem_flatMap]
  constructor
  · rintro ⟨c, hc, hn⟩
    cases c with
    | leaf l => simp [contents] at hn
    | node e =>
        rw [contents] at hn
        split_ifs at hn with he
        · exact .inr ⟨e, mem_expansionsOf.mpr ⟨hc, he⟩, h.mem_children_iff.mp hn⟩
        · rw [List.mem_singleton] at hn
          cases hn
          exact .inl ⟨h.mem_children_iff.mp hc, by simpa using he⟩
  · rintro (⟨hp, hk⟩ | ⟨e, he, hp⟩)
    · exact ⟨.node n, h.mem_children_iff.mpr hp, by simp [contents, hk]⟩
    · obtain ⟨hc, hk⟩ := mem_expansionsOf.mp he
      exact ⟨.node e, hc, by simpa [contents, hk] using h.mem_children_iff.mpr hp⟩

theorem nodup_spliced (id : NodeId) : (nodesOf ((a.children id).flatMap a.contents)).Nodup := by
  -- over a part of the list: its contents name nobody twice, and only own children
  have key : ∀ cs : List Child, (nodesOf cs).Nodup → (∀ n ∈ nodesOf cs, a.parent? n = some id) →
      (nodesOf (cs.flatMap a.contents)).Nodup ∧ ∀ k ∈ nodesOf (cs.flatMap a.contents),
        (k ∈ nodesOf cs ∧ a.parent? k = some id) ∨ ∃ e ∈ nodesOf cs, a.parent? k = some e := by
    intro cs
    induction cs with
    | nil => exact fun _ _ => ⟨List.nodup_nil, fun k hk => absurd hk List.not_mem_nil⟩
    | cons c cs ih =>
        intro hcs hpar
        cases c with
        | leaf l => exact ih hcs hpar
        | node n =>
            rw [nodesOf_cons_node, List.nodup_cons] at hcs
            have hn := hpar n List.mem_cons_self
            obtain ⟨hnd, hmem⟩ := ih hcs.2 fun k hk => hpar k (List.mem_cons_of_mem n hk)
            have hhead : ∀ k ∈ nodesOf (a.contents (.node n)), (k = n ∧ a.parent? k = some id) ∨
                a.parent? k = some n := by
              intro k hk
              rw [contents] at hk
              split_ifs at hk
              · exact .inr (h.mem_children_iff.mp (mem_nodesOf.mp hk))
              · rw [mem_nodesOf, List.mem_singleton] at hk
                cases hk
                exact .inl ⟨rfl, hn⟩
            rw [List.flatMap_cons, nodesOf_append]
            refine ⟨List.nodup_append.mpr ⟨?_, hnd, ?_⟩, ?_⟩
            · rw [contents]
              split_ifs
              · exact h.nodup_childNodes n
              · exact List.nodup_singleton n
            · rintro k hk _ hk' rfl
              rcases hhead k hk with ⟨rfl, hkid⟩ | hkn <;>
                rcases hmem k hk' with ⟨hkc, hkid'⟩ | ⟨e, he, hke⟩
              · exact hcs.1 hkc
              · rw [hkid] at hke
                cases hke
                exact h.acyclic.ne_parent (hpar _ (List.mem_cons_of_mem _ he)) rfl
              · rw [hkn] at hkid'
                cases hkid'
                exact h.acyclic.ne_parent hn rfl
              · rw [hkn] at hke
                cases hke
                exact hcs.1 he
            · intro k hk
              rcases List.mem_append.mp hk with hk | hk
              · rcases hhead k hk with ⟨rfl, hkid⟩ | hkn
                · exact .inl ⟨List.mem_cons_self, hkid⟩
                · exact .inr ⟨n, List.mem_cons_self, hkn⟩
              · rcases hmem k hk with ⟨hkc, hkid⟩ | ⟨e, he, hke⟩
                · exact .inl ⟨List.mem_cons_of_mem n hkc, hkid⟩
                · exact .inr ⟨e, List.mem_cons_of_mem n he, hke⟩
  exact (key _ (h.nodup_childNodes id) fun n hn => h.mem_children_iff.mp (mem_nodesOf.mp hn)).1

theorem spliced_lt (hm : n ∈ nodesOf ((a.children id).flatMap a.contents)) : n < a.size := by
  rcases (mem_spliced_iff h n).mp (mem_nodesOf.mp hm) with ⟨hp, _⟩ | ⟨e, _, hp⟩ <;>
    exact lt_size_of_parent? hp

/-- The new place of every node: an expansion has none, what is spliced stands below `id`. -/
theorem parent?_splice (hid : id < a.size) (m : NodeId) :
    (a.splice id).parent? m
      = if m ∈ a.expansionsOf (a.children id) then none
        else if .node m ∈ (a.children id).flatMap a.contents then some id else a.parent? m := by
  have hexp : m ∈ a.expansionsOf (a.children id) →
      .node m ∉ (a.children id).flatMap a.contents := by
    intro hm hs
    obtain ⟨hp, hk⟩ := (mem_expansions_iff h).mp hm
    rcases (mem_spliced_iff h m).mp hs with ⟨_, hk'⟩ | ⟨e, he, hpe⟩
    · rw [hk] at hk'
      cases hk'
    · rw [hp] at hpe
      cases hpe
      exact h.acyclic.ne_parent ((mem_expansions_iff h).mp he).1 rfl
  unfold splice
  by_cases hany : (a.children id).any a.isExpansion
  · rw [if_pos hany, parent?_relist m _ (nodup_spliced h id), parent?_emptied, parent?_setList]
    · by_cases hm : m ∈ a.expansionsOf (a.children id)
      · rw [if_neg (hexp hm), if_pos hm, if_pos hm]
      · rw [if_neg hm, if_neg hm]
    · intro n hn
      rw [size_emptied, size_setList]
      exact spliced_lt h hn
    · rw [size_emptied, size_setList]
      exact hid
  · obtain ⟨h1, h2⟩ := contents_eq_self hany
    rw [if_neg hany, h1, h2, if_neg List.not_mem_nil]
    split_ifs with hm
    · exact h.mem_children_iff.mp hm
    · rfl

theorem index_splice (hid : id < a.size) (m : NodeId) :
    (a.splice id).index m
      = if .node m ∈ (a.children id).flatMap a.contents then
          ((a.children id).flatMap a.contents).idxOf (.node m)
        else a.index m := by
  unfold splice
  by_cases hany : (a.children id).any a.isExpansion
  · rw [if_pos hany, index_relist m _ (nodup_spliced h id), index_emptied, index_setList]
    · intro n hn
      rw [size_emptied, size_setList]
      exact spliced_lt h hn
    · rw [size_emptied, size_setList]
      exact hid
  · rw [if_neg hany, (contents_eq_self hany).1]
    split_ifs with hm
    · have hp := h.mem_children_iff.mp hm
      exact (idxOf_node (h.nodup_childNodes id) (h.listed m id hp)).symm
    · rfl

/-- With `id` and its expansions emptied, the other lists hold exactly the nodes that name them,
those apart that the spliced list takes over. -/
theorem child?_emptied (hq : q ≠ id) (i : Nat) (n : NodeId) :
    ((a.setList id []).emptied (a.expansionsOf (a.children id))).child? q i = some (.node n) ↔
      ((a.setList id []).emptied (a.expansionsOf (a.children id))).parent? n = some q ∧
        ((a.setList id []).emptied (a.expansionsOf (a.children id))).index n = i ∧
          .node n ∉ (a.children id).flatMap a.contents := by
  have hne : ¬ (q = id ∧ id < a.size) := fun e => hq e.1
  rw [child?, children_emptied, children_setList, if_neg hne, parent?_emptied, parent?_setList,
    index_emptied, index_setList]
  have hl := h.linked q i n
  rw [child?] at hl
  by_cases hqe : q ∈ a.expansionsOf (a.children id)
  · -- an expansion lists nobody, and its former children are in the spliced list
    rw [if_pos hqe]
    constructor
    · intro hn
      cases hn
    · rintro ⟨h1, h2, h3⟩
      split_ifs at h1
      exact absurd ((mem_spliced_iff h n).mpr (.inr ⟨q, hqe, h1⟩)) h3
  · rw [if_neg hqe, hl]
    constructor
    · rintro ⟨h1, h2⟩
      have hne : n ∉ a.expansionsOf (a.children id) := by
        intro hn
        rw [((mem_expansions_iff h).mp hn).1] at h1
        exact hq (Option.some.inj h1).symm
      rw [if_neg hne]
      refine ⟨h1, h2, fun hs => ?_⟩
      rcases (mem_spliced_iff h n).mp hs with ⟨hp, _⟩ | ⟨e, he, hp⟩
      · rw [hp] at h1
        exact hq (Option.some.inj h1).symm
      · rw [hp] at h1
        cases h1
        exact hqe he
    · rintro ⟨h1, h2, _⟩
      split_ifs at h1
      exact ⟨h1, h2⟩

theorem linked_splice (hid : id < a.size) : (a.splice id).Linked := by
  by_cases hany : (a.children id).any a.isExpansion
  swap
  · rw [splice, if_neg hany]
    exact h.linked
  rw [splice, if_pos hany]
  refine linked_relist ?_ (nodup_spliced h id) ?_ (fun q hq => child?_emptied h hq) ?_
  · rw [size_emptied, size_setList]
    exact hid
  · intro n hn
    rw [size_emptied, size_setList]
    exact spliced_lt h hn
  · intro n hn
    rw [parent?_emptied, parent?_setList] at hn
    split_ifs at hn with hne
    refine (mem_spliced_iff h n).mpr (.inl ⟨hn, ?_⟩)
    by_contra hk
    rw [Bool.not_eq_false] at hk
    exact hne ((mem_expansions_iff h).mpr ⟨hn, hk⟩)

theorem wellFormed_splice (hid : id < a.size) : (a.splice id).WellFormed := by
  -- whoever gets `id` for a parent stood properly below it
  have hlow : ∀ n, .node n ∈ (a.children id).flatMap a.contents → ¬ a.Below id n := by
    intro n hn hb
    rcases (mem_spliced_iff h n).mp hn with ⟨hp, _⟩ | ⟨e, he, hp⟩
    · exact h.not_below_parent hp hb
    · exact h.not_below_parent hp ((below_of_parent ((mem_expansions_iff h).mp he).1).trans hb)
  refine .of_linked (linked_splice h hid) ?_ ?_ ?_
  · refine acyclic_adopt (S := fun n => .node n ∈ (a.children id).flatMap a.contents)
      hlow (fun n p hn => ?_) h.acyclic
    rw [parent?_splice h hid] at hn
    split_ifs at hn with h1 h2
    · exact .inr ⟨(Option.some.inj hn).symm, h2⟩
    · exact .inl hn
  · rw [root_splice, size_splice]
    exact h.root_lt
  · rw [root_splice, parent?_splice h hid]
    split_ifs with h1 h2
    · rfl
    · rcases (mem_spliced_iff h _).mp h2 with ⟨hp, _⟩ | ⟨e, _, hp⟩ <;>
        exact absurd rfl (h.ne_root hp)
    · exact h.parent?_root

end splice

end Unstack.Arena
