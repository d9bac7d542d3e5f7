import Unstack.Proofs.Arena.Cutting
import Unstack.Proofs.Outcome

/-! # What the edits return

An edit checks what it is given and then works through primitives.  For every edit this module
says exactly when it returns, and what: the arena of `Moving` or `Cutting`. -/

namespace Unstack.Arena

open Outcome

variable {a b : Arena} {id n p : NodeId} {cs : List Child}

/-! ### Checks -/

theorem requireSlots_eq_ok_iff {ids : List NodeId} :
    a.requireSlots ids = .ok () ↔ ∀ i ∈ ids, i < a.size := by
  unfold requireSlots
  split_ifs with h
  · simp only [List.all_eq_true, decide_eq_true_eq] at h
    exact ⟨fun _ => h, fun _ => rfl⟩
  · simp only [List.all_eq_true, decide_eq_true_eq] at h
    constructor
    · intro he
      cases he
    · intro hall
      exact absurd hall h

theorem requireSlots_singleton_eq_ok_iff : a.requireSlots [id] = .ok () ↔ id < a.size := by
  rw [requireSlots_eq_ok_iff]
  simp

theorem requireAdoptable_eq_ok_iff {ns : List NodeId} :
    a.requireAdoptable id ns = .ok () ↔ ∀ n ∈ ns, n ≠ id ∧ n < a.size := by
  induction ns with
  | nil => simp [requireAdoptable]
  | cons n ns ih =>
      rw [requireAdoptable]
      by_cases hn : n = id
      · simp [hn]
      · by_cases hs : a.size ≤ n
        · have hlt : ¬ n < a.size := Nat.not_lt.mpr hs
          simp [hn, hs, hlt]
        · have hlt : n < a.size := Nat.lt_of_not_le hs
          rw [if_neg hn, if_neg hs, ih]
          simp [hn, hlt]

/-- An edit that begins with a look at a slot returns only if the slot exists. -/
theorem lt_size_of_slot_bind {α : Type} {f : Slot → Except Fault α} {r : α}
    (h : (a.slot id >>= f) = .ok r) : id < a.size := by
  obtain ⟨s, hs, -⟩ := exists_of_bind_eq_ok h
  exact lt_size_of_slot? (slot?_of_slot hs)

theorem lt_size_of_result_slot {α : Type} {f : Slot → Traced α} {r : α}
    (h : ((liftM (a.slot id) : Traced Slot) >>= f).result = .ok r) : id < a.size := by
  rw [Traced.result_bind, Traced.result_liftM] at h
  exact lt_size_of_slot_bind h

/-! ### Lists of children -/

theorem setChildren_eq_ok_iff :
    a.setChildren id cs = .ok b ↔
      id < a.size ∧ (∀ n ∈ nodesOf cs, n ≠ id ∧ n < a.size) ∧ b = a.assign id cs := by
  rw [setChildren, check_bind_eq_ok_iff, check_bind_eq_ok_iff, requireSlots_singleton_eq_ok_iff,
    requireAdoptable_eq_ok_iff, pure_eq_ok, Except.ok.injEq, eq_comm]

theorem addNode_eq_ok_iff {k : Kind} {o : Option Note} {r : Arena × NodeId} :
    a.addNode k cs o = .ok r ↔
      (∀ n ∈ nodesOf cs, n < a.size) ∧ r = ((a.push k o).assign a.size cs, a.size) := by
  have hlt : (∀ n ∈ nodesOf cs, n ≠ a.size ∧ n < (a.push k o).size) ↔
      ∀ n ∈ nodesOf cs, n < a.size := by
    refine forall₂_congr fun n _ => ?_
    rw [size_push]
    constructor
    · rintro ⟨h1, h2⟩
      exact Nat.lt_of_le_of_ne (Nat.le_of_lt_succ h2) h1
    · intro h
      exact ⟨Nat.ne_of_lt h, Nat.lt_succ_of_lt h⟩
  rw [← hlt, addNode, check_bind_eq_ok_iff, requireAdoptable_eq_ok_iff, pure_eq_ok,
    Except.ok.injEq, eq_comm]
  rfl

theorem assign_push_nil (h : a.WellFormed) (k : Kind) (o : Option Note) :
    (a.push k o).assign a.size [] = a.push k o := by
  have hp := h.push k o
  have hlt := lt_size_push a k o
  have had : (a.push k o).Adoptable a.size (nodesOf []) := by
    constructor <;> simp
  refine ext_fields (root_assign _ _ _) (size_assign _ _ _) (fun m => kind?_assign _ _ m _)
    (fun m => ?_) (fun m => ?_) (fun m => ?_) (fun m => note?_assign _ _ m _)
  · rw [children_assign hp hlt]
    split_ifs with hm
    · rw [children_push, hm, children_eq_nil (Nat.le_refl _)]
    · exact without_nil _
  · rw [parent?_assign hp hlt had, if_neg List.not_mem_nil, if_neg]
    rw [parent?_push]
    exact fun e => Nat.lt_irrefl _ (h.parent_lt e)
  · exact index_assign hp hlt had List.not_mem_nil (by simp)

theorem addNode_nil (h : a.WellFormed) (k : Kind) (o : Option Note) :
    a.addNode k [] o = .ok (a.push k o, a.size) := by
  rw [addNode_eq_ok_iff, assign_push_nil h]
  exact ⟨by simp, rfl⟩

theorem setRoot_eq_ok_iff :
    a.setRoot id = .ok b ↔ id < a.size ∧ b = { a.detach id with root := id } := by
  rw [setRoot, check_bind_eq_ok_iff, requireSlots_singleton_eq_ok_iff, pure_eq_ok,
    Except.ok.injEq, eq_comm]

theorem annotate_eq_ok_iff {o : Option Note} :
    a.annotate id o = .ok b ↔ id < a.size ∧ b = a.setNote id o := by
  rw [annotate, check_bind_eq_ok_iff, requireSlots_singleton_eq_ok_iff, pure_eq_ok,
    Except.ok.injEq, eq_comm]

theorem pushChildren_eq_ok_iff (h : a.WellFormed) :
    a.pushChildren id cs = .ok b ↔
      id < a.size ∧ (∀ n ∈ nodesOf cs, n < a.size) ∧ b = a.extend id cs := by
  have hbody : ((a.detachAll (nodesOf cs)).setList id
      ((a.detachAll (nodesOf cs)).children id ++ cs)).reindex id = a.extend id cs := by
    rw [children_detachAll h]
    rfl
  rw [pushChildren, check_bind_eq_ok_iff, requireSlots_eq_ok_iff, List.forall_mem_cons, and_assoc,
    pure_eq_ok, Except.ok.injEq, hbody, eq_comm]

theorem replaceChild_eq_ok_iff {i : Nat} {child old : Child} :
    a.replaceChild p i child = .ok (b, old) ↔
      (∀ n, child = .node n → n < a.size) ∧
        (a.detachAll child.node?.toList).child? p i = some old ∧
          b = (a.detachAll child.node?.toList).overwrite p i old child := by
  have hreq : a.requireSlots child.node?.toList = .ok () ↔ ∀ n, child = .node n → n < a.size := by
    simp only [requireSlots_eq_ok_iff, mem_node?_toList]
  rw [← hreq]
  constructor
  · intro he
    obtain ⟨_, h1, he⟩ := exists_of_bind_eq_ok he
    obtain ⟨s, hs, he⟩ := exists_of_bind_eq_ok he
    have hslot := slot?_of_slot hs
    refine ⟨h1, ?_⟩
    rw [child?, children_eq hslot]
    split at he
    · cases he
    · rename_i old' hold
      cases he
      refine ⟨hold, ?_⟩
      rw [overwrite, children_eq hslot]
  · rintro ⟨h1, h2, rfl⟩
    obtain ⟨s, hs⟩ := exists_slot? (lt_size_of_child? h2)
    rw [child?, children_eq hs] at h2
    simp only [replaceChild, h1, ok_bind, slot_eq hs, h2]
    rw [overwrite, children_eq hs]
    rfl

/-! ### Kinds and flags -/

theorem result_retag (hid : id < a.size) (k : Kind) :
    (a.retag id k).result = .ok (a.setKind id k) := by
  obtain ⟨s, hs⟩ := exists_slot? hid
  simp only [retag, slot_eq hs, Traced.result_bind, Traced.result_liftM, ok_bind,
    Traced.result_emit, Traced.result_pure]

theorem result_update (hid : id < a.size) (k : Kind)
    (hcs : ∀ n ∈ nodesOf cs, n ≠ id ∧ n < a.size) :
    (a.update id k cs).result = .ok ((a.setKind id k).assign id cs) := by
  have hset : (a.setKind id k).setChildren id cs = .ok ((a.setKind id k).assign id cs) := by
    refine setChildren_eq_ok_iff.mpr ⟨?_, ?_, rfl⟩
    · rw [size_setKind]
      exact hid
    · rw [size_setKind]
      exact hcs
  simp only [update, Traced.result_bind, result_retag hid, ok_bind]
  exact hset

/-- The arena after the flag of a node has been negated. -/
def negated (a : Arena) (p : NodeId) : Arena :=
  match a.children p with
  | [] => a
  | flag :: _ => a.overwrite p 0 flag (.leaf (.bool !flag.truthy))

theorem negated_eq {flag : Child} {rest : List Child} (h : a.children p = flag :: rest) :
    a.negated p = a.overwrite p 0 flag (.leaf (.bool !flag.truthy)) := by
  rw [negated, h]

theorem result_negateFlag (h : a.WellFormed) (hp : p < a.size) (hc : a.children p ≠ []) :
    (a.negateFlag p).result = .ok (a.negated p) := by
  obtain ⟨s, hs⟩ := exists_slot? hp
  obtain ⟨flag, rest, hflag⟩ := List.exists_cons_of_ne_nil hc
  have hreplace : a.replaceChild p 0 (.leaf (.bool !flag.truthy))
      = .ok (a.overwrite p 0 flag (.leaf (.bool !flag.truthy)), flag) := by
    have hfirst : a.child? p 0 = some flag := by rw [child?, hflag, List.getElem?_cons_zero]
    refine replaceChild_eq_ok_iff.mpr ⟨fun n hn => ?_, hfirst, rfl⟩
    cases hn
  have hs' : s.children = flag :: rest := by rw [← children_eq hs, hflag]
  simp only [negateFlag, slot_eq hs, Traced.result_bind, Traced.result_liftM, ok_bind, hs']
  rw [negated_eq hflag]
  cases flag with
  | leaf l =>
      simp only [Traced.result_bind, Traced.result_pure, Traced.result_liftM]
      rw [hreplace]
      rfl
  | node m =>
      have hm : m < a.size := h.child_lt (p := p) (by rw [hflag]; exact List.mem_cons_self)
      obtain ⟨t, ht⟩ := exists_slot? hm
      simp only [slot_eq ht, Traced.result_bind, Traced.result_emit, ok_bind,
        Traced.result_liftM]
      rw [hreplace]
      rfl

theorem result_negateFlag_nil (hp : p < a.size) (hc : a.children p = []) :
    ∃ f, (a.negateFlag p).result = .error f := by
  obtain ⟨s, hs⟩ := exists_slot? hp
  rw [children_eq hs] at hc
  refine ⟨.noFlagSlot s.kind p, ?_⟩
  simp [negateFlag, slot_eq hs, hc]

end Unstack.Arena
