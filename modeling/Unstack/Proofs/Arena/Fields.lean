import Mathlib.Data.List.Nodup
import Unstack.Arena.Basic

/-! # The fields of a slot under the primitive changes

A slot has five fields: kind, children, parent, position and note.  This module says for every
primitive change of an arena what becomes of each field of each slot, so that later proofs
never open `Arena.modify` again.

* **One field at a time.**  `setKind`, `setList`, `setNote`, `orphan` and `place` change one
  slot; every field they leave alone has its `simp` lemma.
* **Runs of changes.**  `release` and `orphan` over a list, and `reindex`, have closed forms.
  The one of `reindex` asks that no node is listed twice.
* **Relisting.**  Every change of a list of children ends with `setList` and `reindex` of the
  same node; `relist` names that pair. -/

namespace Unstack

/-! ### Lists of children -/

@[simp] theorem nodesOf_nil : nodesOf [] = [] := rfl

@[simp] theorem nodesOf_cons_leaf (l : Leaf) (cs : List Child) :
    nodesOf (.leaf l :: cs) = nodesOf cs := rfl

@[simp] theorem nodesOf_cons_node (n : NodeId) (cs : List Child) :
    nodesOf (.node n :: cs) = n :: nodesOf cs := rfl

@[simp] theorem nodesOf_append (cs ds : List Child) :
    nodesOf (cs ++ ds) = nodesOf cs ++ nodesOf ds := by
  simp [nodesOf]

@[simp] theorem mem_nodesOf {cs : List Child} {n : NodeId} : n ∈ nodesOf cs ↔ .node n ∈ cs := by
  unfold nodesOf
  rw [List.mem_filterMap]
  constructor
  · rintro ⟨c, hc, h⟩
    cases c with
    | leaf l => cases h
    | node m => cases h; exact hc
  · intro h
    exact ⟨_, h, rfl⟩

theorem mem_node?_toList {c : Child} {n : NodeId} : n ∈ c.node?.toList ↔ c = .node n := by
  cases c <;> simp [Child.node?, eq_comm]

theorem nodesOf_sublist {cs ds : List Child} (h : cs.Sublist ds) :
    (nodesOf cs).Sublist (nodesOf ds) := h.filterMap _

/-- In a list that names no node twice, a node stands at one position only. -/
theorem idxOf_node {cs : List Child} (h : (nodesOf cs).Nodup) {i : Nat} {n : NodeId}
    (hi : cs[i]? = some (.node n)) : cs.idxOf (.node n) = i := by
  induction cs generalizing i with
  | nil => simp at hi
  | cons c cs ih =>
      cases i with
      | zero =>
          rw [List.getElem?_cons_zero] at hi
          cases hi
          exact List.idxOf_cons_self
      | succ i =>
          rw [List.getElem?_cons_succ] at hi
          have hm : Child.node n ∈ cs := List.mem_of_getElem? hi
          have hne : c ≠ .node n := by
            rintro rfl
            rw [nodesOf_cons_node, List.nodup_cons] at h
            exact h.1 (mem_nodesOf.mpr hm)
          have htail : (nodesOf cs).Nodup :=
            List.Nodup.sublist (nodesOf_sublist (List.sublist_cons_self c cs)) h
          rw [List.idxOf_cons_ne _ hne, ih htail hi]

theorem nodup_nodesOf {cs : List Child}
    (h : ∀ (i j : Nat) n, cs[i]? = some (.node n) → cs[j]? = some (.node n) → i = j) :
    (nodesOf cs).Nodup := by
  induction cs with
  | nil => exact List.nodup_nil
  | cons c cs ih =>
      have htail := ih fun i j n hi hj => by
        have := h (i + 1) (j + 1) n (by simpa using hi) (by simpa using hj)
        omega
      cases c with
      | leaf l => exact htail
      | node n =>
          refine List.nodup_cons.mpr ⟨fun hn => ?_, htail⟩
          obtain ⟨i, hi⟩ := List.mem_iff_getElem?.mp (mem_nodesOf.mp hn)
          have := h 0 (i + 1) n rfl (by simpa using hi)
          omega

theorem getElem?_idxOf_node {cs : List Child} {n : NodeId} (h : .node n ∈ cs) :
    cs[cs.idxOf (Child.node n)]? = some (.node n) := by
  rw [List.getElem?_eq_getElem (List.idxOf_lt_length_iff.mpr h), List.getElem_idxOf]

namespace Arena

variable (a : Arena) (id j : NodeId)

/-! ### Slots that are not there -/

theorem slot?_isSome_iff : (a.slot? id).isSome ↔ id < a.size := by
  rw [← not_iff_not, Bool.not_eq_true, Option.isSome_eq_false_iff, Option.isNone_iff_eq_none,
    slot?_eq_none_iff]
  exact Nat.not_lt.symm

theorem lt_size_push (a : Arena) (k : Kind) (o : Option Note) : a.size < (a.push k o).size := by
  rw [size_push]
  exact Nat.lt_succ_self _

theorem exists_slot? {a : Arena} {id : NodeId} (h : id < a.size) : ∃ s, a.slot? id = some s :=
  Option.isSome_iff_exists.mp ((slot?_isSome_iff a id).mpr h)

theorem lt_size_of_slot? {a : Arena} {id : NodeId} {s : Slot} (h : a.slot? id = some s) :
    id < a.size := (slot?_isSome_iff a id).mp (by rw [h]; rfl)

theorem slot_eq {a : Arena} {id : NodeId} {s : Slot} (h : a.slot? id = some s) :
    a.slot id = .ok s := by
  unfold slot
  rw [h]

theorem slot?_of_slot {a : Arena} {id : NodeId} {s : Slot} (h : a.slot id = .ok s) :
    a.slot? id = some s := by
  unfold slot at h
  split at h
  · cases h
    assumption
  · cases h

theorem children_eq {a : Arena} {id : NodeId} {s : Slot} (h : a.slot? id = some s) :
    a.children id = s.children := by
  unfold children
  rw [h]

theorem children_eq_nil {a : Arena} {id : NodeId} (h : a.size ≤ id) : a.children id = [] := by
  unfold children
  rw [(slot?_eq_none_iff a id).mpr h]

theorem parent?_eq {a : Arena} {id : NodeId} {s : Slot} (h : a.slot? id = some s) :
    a.parent? id = s.parent := by
  unfold parent?
  rw [h]
  rfl

theorem index_eq {a : Arena} {id : NodeId} {s : Slot} (h : a.slot? id = some s) :
    a.index id = s.index := by
  unfold index
  rw [h]

theorem kind?_eq {a : Arena} {id : NodeId} {s : Slot} (h : a.slot? id = some s) :
    a.kind? id = some s.kind := by
  unfold kind?
  rw [h]
  rfl

theorem note?_eq {a : Arena} {id : NodeId} {s : Slot} (h : a.slot? id = some s) :
    a.note? id = s.note := by
  unfold note?
  rw [h]
  rfl

theorem lt_size_of_parent? {a : Arena} {n p : NodeId} (h : a.parent? n = some p) :
    n < a.size := by
  by_contra hn
  have hs : a.slot? n = none := (slot?_eq_none_iff a n).mpr (Nat.le_of_not_lt hn)
  rw [parent?, hs] at h
  cases h

theorem lt_size_of_kind? {a : Arena} {n : NodeId} {k : Kind} (h : a.kind? n = some k) :
    n < a.size := by
  obtain ⟨s, hs, -⟩ := Option.map_eq_some_iff.mp h
  exact lt_size_of_slot? hs

theorem lt_size_of_child? {a : Arena} {p i : Nat} {c : Child} (h : a.child? p i = some c) :
    p < a.size := by
  by_contra hn
  have hs : a.slot? p = none := (slot?_eq_none_iff a p).mpr (Nat.le_of_not_lt hn)
  rw [child?, children, hs] at h
  cases h

section congr

variable {a b : Arena} {n : NodeId} (h : b.slot? n = a.slot? n)

include h

theorem kind?_congr : b.kind? n = a.kind? n := by
  rw [kind?, h, ← kind?]

theorem children_congr : b.children n = a.children n := by
  rw [children, h, ← children]

theorem parent?_congr : b.parent? n = a.parent? n := by
  rw [parent?, h, ← parent?]

theorem index_congr : b.index n = a.index n := by
  rw [Arena.index, h, ← Arena.index]

theorem note?_congr : b.note? n = a.note? n := by
  rw [note?, h, ← note?]

end congr

/-- Two slots with the same fields are the same. -/
theorem slot?_congr {a b : Arena} {n : NodeId} (hn : n < a.size) (hb : n < b.size)
    (hk : b.kind? n = a.kind? n) (hc : b.children n = a.children n)
    (hp : b.parent? n = a.parent? n) (hi : b.index n = a.index n)
    (ho : b.note? n = a.note? n) : b.slot? n = a.slot? n := by
  obtain ⟨s, hs⟩ := exists_slot? hn
  obtain ⟨t, ht⟩ := exists_slot? hb
  rw [kind?_eq hs, kind?_eq ht] at hk
  rw [children_eq hs, children_eq ht] at hc
  rw [parent?_eq hs, parent?_eq ht] at hp
  rw [index_eq hs, index_eq ht] at hi
  rw [note?_eq hs, note?_eq ht] at ho
  rw [hs, ht]
  cases s
  cases t
  simp_all

/-- Arenas with the same slots and the same root are the same. -/
theorem ext_slot? {a b : Arena} (h : ∀ n, a.slot? n = b.slot? n) (hr : a.root = b.root) :
    a = b := by
  cases a with
  | mk xs r =>
      cases b with
      | mk ys q =>
          cases hr
          have : xs = ys := Array.ext_getElem? fun n => h n
          rw [this]

theorem ext_fields {a b : Arena} (hr : a.root = b.root) (hs : a.size = b.size)
    (hk : ∀ n, a.kind? n = b.kind? n) (hc : ∀ n, a.children n = b.children n)
    (hp : ∀ n, a.parent? n = b.parent? n) (hi : ∀ n, a.index n = b.index n)
    (ho : ∀ n, a.note? n = b.note? n) : a = b := by
  refine ext_slot? (fun n => ?_) hr
  by_cases hn : n < b.size
  · exact slot?_congr hn (hs ▸ hn) (hk n) (hc n) (hp n) (hi n) (ho n)
  · have hb : b.size ≤ n := Nat.le_of_not_lt hn
    rw [(slot?_eq_none_iff b n).mpr hb, (slot?_eq_none_iff a n).mpr (hs ▸ hb)]

/-! ### Fields that a change leaves alone -/

section untouched

variable {f : Slot → Slot}

theorem kind?_modify (hf : ∀ s, (f s).kind = s.kind) : (a.modify id f).kind? j = a.kind? j := by
  unfold kind?
  rw [slot?_modify]
  split
  · cases a.slot? j <;> simp [hf]
  · rfl

theorem children_modify (hf : ∀ s, (f s).children = s.children) :
    (a.modify id f).children j = a.children j := by
  unfold children
  rw [slot?_modify]
  by_cases h : j = id
  · cases a.slot? j <;> simp [h, hf]
  · rw [if_neg h]

theorem parent?_modify (hf : ∀ s, (f s).parent = s.parent) :
    (a.modify id f).parent? j = a.parent? j := by
  unfold parent?
  rw [slot?_modify]
  split
  · cases a.slot? j <;> simp [hf]
  · rfl

theorem index_modify (hf : ∀ s, (f s).index = s.index) :
    (a.modify id f).index j = a.index j := by
  unfold index
  rw [slot?_modify]
  by_cases h : j = id
  · cases a.slot? j <;> simp [h, hf]
  · rw [if_neg h]

theorem note?_modify (hf : ∀ s, (f s).note = s.note) : (a.modify id f).note? j = a.note? j := by
  unfold note?
  rw [slot?_modify]
  split
  · cases a.slot? j <;> simp [hf]
  · rfl

end untouched

@[simp] theorem children_setKind (k : Kind) : (a.setKind id k).children j = a.children j :=
  children_modify a id j fun _ => rfl

@[simp] theorem parent?_setKind (k : Kind) : (a.setKind id k).parent? j = a.parent? j :=
  parent?_modify a id j fun _ => rfl

@[simp] theorem index_setKind (k : Kind) : (a.setKind id k).index j = a.index j :=
  index_modify a id j fun _ => rfl

@[simp] theorem note?_setKind (k : Kind) : (a.setKind id k).note? j = a.note? j :=
  note?_modify a id j fun _ => rfl

@[simp] theorem root_setKind (k : Kind) : (a.setKind id k).root = a.root := rfl

@[simp] theorem kind?_setList (cs : List Child) : (a.setList id cs).kind? j = a.kind? j :=
  kind?_modify a id j fun _ => rfl

@[simp] theorem parent?_setList (cs : List Child) : (a.setList id cs).parent? j = a.parent? j :=
  parent?_modify a id j fun _ => rfl

@[simp] theorem index_setList (cs : List Child) : (a.setList id cs).index j = a.index j :=
  index_modify a id j fun _ => rfl

@[simp] theorem note?_setList (cs : List Child) : (a.setList id cs).note? j = a.note? j :=
  note?_modify a id j fun _ => rfl

@[simp] theorem root_setList (cs : List Child) : (a.setList id cs).root = a.root := rfl

@[simp] theorem kind?_setNote (o : Option Note) : (a.setNote id o).kind? j = a.kind? j :=
  kind?_modify a id j fun _ => rfl

@[simp] theorem children_setNote (o : Option Note) :
    (a.setNote id o).children j = a.children j :=
  children_modify a id j fun _ => rfl

@[simp] theorem parent?_setNote (o : Option Note) : (a.setNote id o).parent? j = a.parent? j :=
  parent?_modify a id j fun _ => rfl

@[simp] theorem index_setNote (o : Option Note) : (a.setNote id o).index j = a.index j :=
  index_modify a id j fun _ => rfl

@[simp] theorem root_setNote (o : Option Note) : (a.setNote id o).root = a.root := rfl

@[simp] theorem kind?_orphan : (a.orphan id).kind? j = a.kind? j :=
  kind?_modify a id j fun _ => rfl

@[simp] theorem children_orphan : (a.orphan id).children j = a.children j :=
  children_modify a id j fun _ => rfl

@[simp] theorem index_orphan : (a.orphan id).index j = a.index j :=
  index_modify a id j fun _ => rfl

@[simp] theorem note?_orphan : (a.orphan id).note? j = a.note? j :=
  note?_modify a id j fun _ => rfl

@[simp] theorem root_orphan : (a.orphan id).root = a.root := rfl

@[simp] theorem kind?_place (p : NodeId) (i : Nat) : (a.place p i id).kind? j = a.kind? j :=
  kind?_modify a id j fun _ => rfl

@[simp] theorem children_place (p : NodeId) (i : Nat) :
    (a.place p i id).children j = a.children j :=
  children_modify a id j fun _ => rfl

@[simp] theorem note?_place (p : NodeId) (i : Nat) : (a.place p i id).note? j = a.note? j :=
  note?_modify a id j fun _ => rfl

@[simp] theorem root_place (p : NodeId) (i : Nat) : (a.place p i id).root = a.root := rfl

/-! ### Fields that a change sets -/

theorem kind?_setKind (k : Kind) :
    (a.setKind id k).kind? j = if j = id ∧ id < a.size then some k else a.kind? j := by
  unfold setKind kind?
  rw [slot?_modify]
  by_cases h : j = id
  · subst h
    by_cases hs : j < a.size
    · obtain ⟨s, hj⟩ := exists_slot? hs
      simp [hj, hs]
    · simp [(slot?_eq_none_iff a j).mpr (Nat.le_of_not_lt hs), hs]
  · simp [h]

theorem children_setList (cs : List Child) :
    (a.setList id cs).children j = if j = id ∧ id < a.size then cs else a.children j := by
  unfold setList children
  rw [slot?_modify]
  by_cases h : j = id
  · subst h
    by_cases hs : j < a.size
    · obtain ⟨s, hj⟩ := exists_slot? hs
      simp [hj, hs]
    · simp [(slot?_eq_none_iff a j).mpr (Nat.le_of_not_lt hs), hs]
  · simp [h]

theorem note?_setNote (o : Option Note) :
    (a.setNote id o).note? j = if j = id ∧ id < a.size then o else a.note? j := by
  unfold setNote note?
  rw [slot?_modify]
  by_cases h : j = id
  · subst h
    by_cases hs : j < a.size
    · obtain ⟨s, hj⟩ := exists_slot? hs
      simp [hj, hs]
    · simp [(slot?_eq_none_iff a j).mpr (Nat.le_of_not_lt hs), hs]
  · simp [h]

theorem parent?_orphan :
    (a.orphan id).parent? j = if j = id then none else a.parent? j := by
  unfold orphan parent?
  rw [slot?_modify]
  by_cases h : j = id
  · cases hj : a.slot? j <;> simp [h]
  · simp [h]

theorem parent?_place (p : NodeId) (i : Nat) :
    (a.place p i id).parent? j = if j = id ∧ id < a.size then some p else a.parent? j := by
  unfold place parent?
  rw [slot?_modify]
  by_cases h : j = id
  · subst h
    by_cases hs : j < a.size
    · obtain ⟨s, hj⟩ := exists_slot? hs
      simp [hj, hs]
    · simp [(slot?_eq_none_iff a j).mpr (Nat.le_of_not_lt hs), hs]
  · simp [h]

theorem index_place (p : NodeId) (i : Nat) :
    (a.place p i id).index j = if j = id ∧ id < a.size then i else a.index j := by
  unfold place index
  rw [slot?_modify]
  by_cases h : j = id
  · subst h
    by_cases hs : j < a.size
    · obtain ⟨s, hj⟩ := exists_slot? hs
      simp [hj, hs]
    · simp [(slot?_eq_none_iff a j).mpr (Nat.le_of_not_lt hs), hs]
  · simp [h]

/-! ### A new slot

A new slot reads like one that is not there, but for its kind and its note. -/

@[simp] theorem children_push (k : Kind) (o : Option Note) :
    (a.push k o).children j = a.children j := by
  unfold children
  rw [slot?_push]
  split_ifs with h
  · rw [(slot?_eq_none_iff a j).mpr (Nat.le_of_eq h.symm)]
  · rfl

@[simp] theorem parent?_push (k : Kind) (o : Option Note) :
    (a.push k o).parent? j = a.parent? j := by
  unfold parent?
  rw [slot?_push]
  split_ifs with h
  · rw [(slot?_eq_none_iff a j).mpr (Nat.le_of_eq h.symm)]
    rfl
  · rfl

@[simp] theorem index_push (k : Kind) (o : Option Note) :
    (a.push k o).index j = a.index j := by
  unfold index
  rw [slot?_push]
  split_ifs with h
  · rw [(slot?_eq_none_iff a j).mpr (Nat.le_of_eq h.symm)]
  · rfl

theorem kind?_push (k : Kind) (o : Option Note) :
    (a.push k o).kind? j = if j = a.size then some k else a.kind? j := by
  unfold kind?
  rw [slot?_push]
  split_ifs <;> rfl

theorem note?_push (k : Kind) (o : Option Note) :
    (a.push k o).note? j = if j = a.size then o else a.note? j := by
  unfold note?
  rw [slot?_push]
  split_ifs <;> rfl

@[simp] theorem root_push (k : Kind) (o : Option Note) : (a.push k o).root = a.root := rfl

/-! ### Runs of changes -/

/-- What every single change keeps, a run of changes keeps. -/
theorem foldl_keeps {β γ : Type} (F : Arena → γ) (f : Arena → β → Arena)
    (hf : ∀ a x, F (f a x) = F a) (xs : List β) (a : Arena) : F (xs.foldl f a) = F a := by
  induction xs generalizing a with
  | nil => rfl
  | cons x xs ih => rw [List.foldl_cons, ih, hf]

theorem parent?_foldl_orphan (ns : List NodeId) :
    (ns.foldl orphan a).parent? j = if j ∈ ns then none else a.parent? j := by
  induction ns generalizing a with
  | nil => simp
  | cons n ns ih =>
      rw [List.foldl_cons, ih, parent?_orphan]
      by_cases h : j = n <;> simp [h]

theorem parent?_release (p : NodeId) :
    (a.release p id).parent? j
      = if j = id ∧ a.parent? id = some p then none else a.parent? j := by
  unfold release
  by_cases h : a.parent? id = some p
  · simp [h, parent?_orphan]
  · simp [h]

@[simp] theorem kind?_release (p : NodeId) : (a.release p id).kind? j = a.kind? j := by
  unfold release
  split_ifs <;> simp

@[simp] theorem children_release (p : NodeId) :
    (a.release p id).children j = a.children j := by
  unfold release
  split_ifs <;> simp

@[simp] theorem index_release (p : NodeId) : (a.release p id).index j = a.index j := by
  unfold release
  split_ifs <;> simp

@[simp] theorem note?_release (p : NodeId) : (a.release p id).note? j = a.note? j := by
  unfold release
  split_ifs <;> simp

@[simp] theorem root_release (p : NodeId) : (a.release p id).root = a.root := by
  unfold release
  split_ifs <;> rfl

theorem parent?_foldl_release (p : NodeId) (ns : List NodeId) :
    (ns.foldl (fun a c => a.release p c) a).parent? j
      = if j ∈ ns ∧ a.parent? j = some p then none else a.parent? j := by
  induction ns generalizing a with
  | nil => simp
  | cons n ns ih =>
      rw [List.foldl_cons, ih, parent?_release]
      by_cases h : j = n
      · subst h
        by_cases hp : a.parent? j = some p <;> simp [hp]
      · simp [h]

/-! ### Reindexing -/

/-- Storing positions, counted from `k`, with the nodes of a list. -/
theorem slot?_foldl_place (p : NodeId) (cs : List Child) (h : (nodesOf cs).Nodup) (k : Nat)
    (a : Arena) (j : NodeId) :
    ((cs.zipIdx k).foldl (fun a c =>
        match c.1 with
        | .node n => a.place p c.2 n
        | .leaf _ => a) a).slot? j
      = (a.slot? j).map fun s =>
          if .node j ∈ cs then { s with parent := some p, index := k + cs.idxOf (.node j) }
          else s := by
  induction cs generalizing k a with
  | nil => simp
  | cons c cs ih =>
      rw [List.zipIdx_cons, List.foldl_cons]
      cases c with
      | leaf l =>
          rw [ih h]
          have hne : Child.leaf l ≠ .node j := by simp
          simp only [List.mem_cons, hne.symm, false_or, List.idxOf_cons_ne _ hne]
          congr 1
          funext s
          split_ifs
          · rw [Nat.add_assoc, Nat.add_comm 1]
          · rfl
      | node n =>
          rw [nodesOf_cons_node, List.nodup_cons] at h
          rw [ih h.2]
          by_cases hj : j = n
          · subst hj
            have hm : Child.node j ∉ cs := fun hm => h.1 (mem_nodesOf.mpr hm)
            simp [place, hm, List.idxOf_cons_self, Function.comp_def]
          · have hne : Child.node n ≠ .node j := by
              intro he
              exact hj (Child.node.inj he).symm
            simp only [place, slot?_modify, hj, if_false, List.mem_cons, hne.symm, false_or,
              List.idxOf_cons_ne _ hne]
            congr 1
            funext s
            split_ifs
            · rw [Nat.add_assoc, Nat.add_comm 1]
            · rfl

theorem slot?_reindex (h : (a.childNodes id).Nodup) :
    (a.reindex id).slot? j
      = (a.slot? j).map fun s =>
          if .node j ∈ a.children id then
            { s with parent := some id, index := (a.children id).idxOf (.node j) }
          else s := by
  refine (slot?_foldl_place id (a.children id) h 0 a j).trans ?_
  simp only [Nat.zero_add]

@[simp] theorem kind?_reindex : (a.reindex id).kind? j = a.kind? j := by
  refine foldl_keeps (fun a => a.kind? j) _ (fun a c => ?_) _ a
  split
  · exact kind?_place ..
  · rfl

@[simp] theorem children_reindex : (a.reindex id).children j = a.children j := by
  refine foldl_keeps (fun a => a.children j) _ (fun a c => ?_) _ a
  split
  · exact children_place ..
  · rfl

@[simp] theorem note?_reindex : (a.reindex id).note? j = a.note? j := by
  refine foldl_keeps (fun a => a.note? j) _ (fun a c => ?_) _ a
  split
  · exact note?_place ..
  · rfl

@[simp] theorem root_reindex : (a.reindex id).root = a.root := by
  refine foldl_keeps Arena.root _ (fun a c => ?_) _ a
  split <;> rfl

/-! ### Relisting -/

/-- Gives a node a new list of children and stores the positions in it. -/
def relist (cs : List Child) : Arena := (a.setList id cs).reindex id

section relist

variable {a id} {cs : List Child} (hid : id < a.size)

@[simp] theorem kind?_relist : (a.relist id cs).kind? j = a.kind? j := by
  simp [relist]

@[simp] theorem note?_relist : (a.relist id cs).note? j = a.note? j := by
  simp [relist]

@[simp] theorem root_relist : (a.relist id cs).root = a.root := by
  simp [relist]

@[simp] theorem size_relist : (a.relist id cs).size = a.size := by
  simp [relist]

include hid

theorem children_relist : (a.relist id cs).children j = if j = id then cs else a.children j := by
  simp [relist, children_setList, hid]

theorem slot?_relist (hcs : (nodesOf cs).Nodup) :
    (a.relist id cs).slot? j
      = ((a.setList id cs).slot? j).map fun s =>
          if .node j ∈ cs then { s with parent := some id, index := cs.idxOf (.node j) }
          else s := by
  have hself : (a.setList id cs).children id = cs := by simp [children_setList, hid]
  unfold relist
  rw [slot?_reindex _ _ _ (by rw [childNodes, hself]; exact hcs), hself]

theorem parent?_relist (hcs : (nodesOf cs).Nodup) (hlt : ∀ n ∈ nodesOf cs, n < a.size) :
    (a.relist id cs).parent? j = if .node j ∈ cs then some id else a.parent? j := by
  rw [parent?, slot?_relist j hid hcs]
  by_cases hj : Child.node j ∈ cs
  · have hjs : j < (a.setList id cs).size := by
      rw [size_setList]
      exact hlt j (mem_nodesOf.mpr hj)
    obtain ⟨s, hs⟩ := exists_slot? hjs
    simp [hs, hj]
  · simp only [hj, if_false, Option.map_id_fun', id_eq]
    exact parent?_setList ..

theorem index_relist (hcs : (nodesOf cs).Nodup) (hlt : ∀ n ∈ nodesOf cs, n < a.size) :
    (a.relist id cs).index j = if .node j ∈ cs then cs.idxOf (.node j) else a.index j := by
  rw [index, slot?_relist j hid hcs]
  by_cases hj : Child.node j ∈ cs
  · have hjs : j < (a.setList id cs).size := by
      rw [size_setList]
      exact hlt j (mem_nodesOf.mpr hj)
    obtain ⟨s, hs⟩ := exists_slot? hjs
    simp [hs, hj]
  · simp only [hj, if_false, Option.map_id_fun', id_eq]
    exact index_setList ..

end relist

end Arena

end Unstack
