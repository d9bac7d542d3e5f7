import Unstack.Proofs.Refinement

/-! # Histories of an arena

Callers build an arena and then edit it, call after call.

* **Calls.**  `Call` lists what a caller can ask for, and `Call.run` does it.
* **Promises.**  The calls check that slots exist.  What they do not check is `Call.Admissible`:
  the nodes that are handed over differ from one another, and none of them is the root, the node
  that takes them in, or a node above it.
* **Histories.**  A `History` is a list of calls that were admissible and returned.  One call
  keeps the arena well-formed (`Call.wellFormed_run`), and so does a history. -/

namespace Unstack

open Outcome

namespace Arena

variable {a b : Arena} {id p : NodeId}

/-! ### Calls -/

/-- One call of a caller. -/
inductive Call where
  | addNode (kind : Kind) (children : List Child) (note : Option Note)
  | addLeaves (kind : Kind) (leaves : List Leaf)
  | setRoot (id : NodeId)
  | update (id : NodeId) (kind : Kind) (children : List Child)
  | retag (id : NodeId) (kind : Kind)
  | setChildren (id : NodeId) (children : List Child)
  | pushChildren (id : NodeId) (children : List Child)
  | splitOff (id : NodeId) (start : Nat)
  | replaceChild (parent : NodeId) (i : Nat) (child : Child)
  | negateFlag (id : NodeId)
  | spliceExpanded (id : NodeId)
  | spliceAll
  | annotate (id : NodeId) (note : Option Note)
  /-- Adds the nodes of a method signature. -/
  | declare (signature : Signature) (index : Nat) (rename : Option String)
  | normalize

namespace Call

/-- The arena that a call leaves, if it returns. -/
def run (a : Arena) : Call → Except Fault Arena
  | .addNode kind children note => return (← a.addNode kind children note).1
  | .addLeaves kind leaves => return (a.addLeaves kind leaves).1
  | .setRoot id => a.setRoot id
  | .update id kind children => (a.update id kind children).result
  | .retag id kind => (a.retag id kind).result
  | .setChildren id children => a.setChildren id children
  | .pushChildren id children => a.pushChildren id children
  | .splitOff id start => return (← a.splitOff id start).1
  | .replaceChild parent i child => return (← a.replaceChild parent i child).1
  | .negateFlag id => (a.negateFlag id).result
  | .spliceExpanded id => return (← (a.spliceExpanded id).result).1
  | .spliceAll => a.spliceAll.result
  | .annotate id note => a.annotate id note
  | .declare signature index rename => return (a.graft (signature.toTree index rename)).1
  | .normalize => a.normalize.result

/-- The nodes that a call hands over. -/
def passed : Call → List NodeId
  | .addNode _ children _ | .update _ _ children | .setChildren _ children
  | .pushChildren _ children => nodesOf children
  | .replaceChild _ _ child => child.node?.toList
  | _ => []

/-- The node that takes them in, where it is there already. -/
def target? : Call → Option NodeId
  | .update id _ _ | .setChildren id _ | .pushChildren id _ | .replaceChild id _ _ => some id
  | _ => none

/-- What a caller promises. -/
structure Admissible (c : Call) (a : Arena) : Prop where
  nodup : c.passed.Nodup
  notRoot : a.root ∉ c.passed
  notAbove : ∀ id, c.target? = some id → ∀ n ∈ c.passed, ¬ a.Below id n

/-- With the check that the slots exist, the promise is what adoption needs. -/
theorem Admissible.adoptable {c : Call} (hc : c.Admissible a) (hid : c.target? = some id)
    (hlt : ∀ n ∈ c.passed, n < a.size) : a.Adoptable id c.passed :=
  ⟨hc.nodup, hlt, hc.notRoot, hc.notAbove id hid⟩

end Call

/-! ### One call -/

theorem wellFormed_replaceChild (h : a.WellFormed) {i : Nat} {child old : Child}
    (hchild : ∀ n, child = .node n → n ≠ a.root ∧ ¬ a.Below p n)
    (hr : a.replaceChild p i child = .ok (b, old)) : b.WellFormed := by
  obtain ⟨hlt, hold, rfl⟩ := replaceChild_eq_ok_iff.mp hr
  refine wellFormed_overwrite (wellFormed_detachAll h _) hold fun n hn => ?_
  exact free_of_detachAll h (fun m hm => ⟨hlt m hm, hchild m hm⟩) hn

theorem wellFormed_negateFlag (h : a.WellFormed) (hr : (a.negateFlag p).result = .ok b) :
    b.WellFormed := by
  have hp : p < a.size := lt_size_of_result_slot hr
  cases hc : a.children p with
  | nil =>
      obtain ⟨f, hf⟩ := result_negateFlag_nil hp hc
      rw [hf] at hr
      cases hr
  | cons flag rest =>
      rw [result_negateFlag h hp (by rw [hc]; exact List.cons_ne_nil _ _), negated_eq hc] at hr
      cases hr
      refine wellFormed_overwrite h (by rw [child?, hc, List.getElem?_cons_zero]) fun n hn => ?_
      cases hn

theorem wellFormed_spliceExpanded (h : a.WellFormed) {r : Arena × Bool}
    (hr : (a.spliceExpanded id).result = .ok r) : r.1.WellFormed := by
  have hid : id < a.size := lt_size_of_result_slot hr
  rw [result_spliceExpanded h hid] at hr
  cases hr
  exact wellFormed_splice h hid

theorem wellFormed_spliceBelow {depth : Nat} (h : a.WellFormed)
    (hr : (spliceBelow depth a id).result = .ok b) : b.WellFormed := by
  induction depth generalizing a b id with
  | zero => cases hr
  | succ depth ih =>
      rw [spliceBelow] at hr
      simp only [Traced.result_bind] at hr
      obtain ⟨c, hloop, hr⟩ := exists_of_bind_eq_ok hr
      obtain ⟨r, hsplice, hr⟩ := exists_of_bind_eq_ok hr
      cases hr
      refine wellFormed_spliceExpanded ?_ hsplice
      exact of_result_foldlM (fun _ _ _ h hr => ih h hr) h hloop

theorem wellFormed_normalize (h : a.WellFormed) (hr : a.normalize.result = .ok b) :
    b.WellFormed := by
  obtain ⟨t, ht, -⟩ := exists_shows h h.root_lt
  have hsim := normalize_simulates h ht
  rw [hr] at hsim
  obtain ⟨_, -, hw, -⟩ := hsim.exists_of_ok
  exact hw.wellFormed

/-- **One call.**  An admissible call that returns leaves a well-formed arena. -/
theorem Call.wellFormed_run {c : Call} (h : a.WellFormed) (hc : c.Admissible a)
    (hr : c.run a = .ok b) : b.WellFormed := by
  cases c with
  | addNode k cs o =>
      obtain ⟨r, hadd, he⟩ := exists_of_bind_eq_ok hr
      cases he
      obtain ⟨hlt, rfl⟩ := addNode_eq_ok_iff.mp hadd
      exact wellFormed_alloc h k o hc.nodup hlt hc.notRoot
  | addLeaves k ls =>
      cases hr
      have hnone : nodesOf (ls.map Child.leaf) = [] := by simp [nodesOf, Child.node?]
      refine wellFormed_alloc h k none ?_ ?_ ?_
      all_goals simp [hnone]
  | setRoot id =>
      obtain ⟨hid, rfl⟩ := setRoot_eq_ok_iff.mp hr
      refine (wellFormed_detach h id).withRoot ?_ ?_
      · rw [size_detach]
        exact hid
      · rw [parent?_detach h, if_pos rfl]
  | update id k cs =>
      rw [run, Arena.update, Traced.result_bind] at hr
      obtain ⟨c, hkind, hset⟩ := exists_of_bind_eq_ok hr
      have hid := lt_size_of_result_slot hkind
      rw [result_retag hid] at hkind
      cases hkind
      obtain ⟨hid', hlt, rfl⟩ := setChildren_eq_ok_iff.mp hset
      have had : a.Adoptable id (nodesOf cs) := hc.adoptable rfl fun n hn => by
        rw [← size_setKind a id k]
        exact (hlt n hn).2
      refine wellFormed_assign (h.setKind id k) hid' ?_
      exact had.of_links (size_setKind a id k) rfl (by simp)
  | retag id k =>
      rw [run, result_retag (lt_size_of_result_slot hr)] at hr
      cases hr
      exact h.setKind id k
  | setChildren id cs =>
      obtain ⟨hid, hlt, rfl⟩ := setChildren_eq_ok_iff.mp hr
      exact wellFormed_assign h hid (hc.adoptable rfl fun n hn => (hlt n hn).2)
  | pushChildren id cs =>
      obtain ⟨hid, hlt, rfl⟩ := (pushChildren_eq_ok_iff h).mp hr
      exact wellFormed_extend h hid (hc.adoptable rfl hlt)
  | splitOff id k =>
      obtain ⟨r, hsplit, he⟩ := exists_of_bind_eq_ok hr
      cases he
      have hid := lt_size_of_slot_bind hsplit
      rcases Nat.lt_or_ge (a.children id).length k with hk | hk
      · rw [splitOff_error hid hk] at hsplit
        cases hsplit
      · rw [splitOff_eq hid hk] at hsplit
        cases hsplit
        exact wellFormed_cut h id k
  | replaceChild p i child =>
      obtain ⟨⟨_, old⟩, hreplace, he⟩ := exists_of_bind_eq_ok hr
      cases he
      refine wellFormed_replaceChild h ?_ hreplace
      rintro n rfl
      have hn : n ∈ (Call.replaceChild p i (.node n)).passed := List.mem_singleton_self n
      exact ⟨fun e => hc.notRoot (e ▸ hn), hc.notAbove p rfl n hn⟩
  | negateFlag id => exact wellFormed_negateFlag h hr
  | spliceExpanded id =>
      obtain ⟨r, hsplice, he⟩ := exists_of_bind_eq_ok hr
      cases he
      exact wellFormed_spliceExpanded h hsplice
  | spliceAll => exact wellFormed_spliceBelow h hr
  | annotate id o =>
      obtain ⟨-, rfl⟩ := annotate_eq_ok_iff.mp hr
      exact h.setNote id o
  | declare sig index rename =>
      cases hr
      exact (grafted_graft h _).grown.wellFormed
  | normalize => exact wellFormed_normalize h hr

/-! ### Many calls -/

/-- The calls, in this order, lead from `a` to `b`: each was admissible and returned. -/
inductive History : Arena → List Call → Arena → Prop
  | nil (a : Arena) : History a [] a
  | cons {a b d : Arena} {c : Call} {cs : List Call} (hc : c.Admissible a)
      (hr : c.run a = .ok b) (h : History b cs d) : History a (c :: cs) d

theorem History.wellFormed {cs : List Call} (hist : History a cs b) (h : a.WellFormed) :
    b.WellFormed := by
  induction hist with
  | nil a => exact h
  | cons hc hr _ ih => exact ih (Call.wellFormed_run h hc hr)

/-- **Arenas are well-formed.**  A new arena is, one that was read from a text is, and every
history leads from a well-formed arena to a well-formed one. -/
theorem wellFormed_throughout :
    (∀ k o, (single k o).WellFormed) ∧ (∀ src a, read src = .ok a → a.WellFormed) ∧
      ∀ a cs b, a.WellFormed → History a cs b → b.WellFormed :=
  ⟨wellFormed_single, fun _ _ h => wellFormed_read h, fun _ _ _ h hist => hist.wellFormed h⟩

/-- A jump is built up below a new root and normalised; its test then takes its place, which
leaves the jump without a parent, and is taken out in turn to be the root. -/
theorem wellFormed_throughout_jump :
    ∃ b, History (single (.other "block") none)
      [.addLeaves (.branch .nlt) [.int 1, .int 2],
       .addNode .jumpIf [.leaf (.bool true), .leaf (.text "out"), .node 1] none,
       .addNode .expand [.node 2] none,
       .pushChildren 0 [.node 3, .leaf .nil],
       .negateFlag 2,
       .normalize,
       .replaceChild 0 0 (.node 1),
       .setRoot 1] b ∧ b.WellFormed ∧
      b.root = 1 ∧ b.kind? 1 = some (.compare .lt) ∧ b.children 0 = [.leaf .nil] ∧
      b.children 2 = [.leaf (.bool true), .leaf (.text "out")] ∧ b.parent? 2 = none := by
  have hquiet : ∀ (c : Call) a, c.passed = [] → c.Admissible a := by
    intro c a h
    constructor <;> simp [h]
  have hone : ∀ (c : Call) a n, c.passed = [n] → a.root = 0 → a.parent? 0 = none → n ≠ 0 →
      (∀ id, c.target? = some id → id = 0) → c.Admissible a := by
    intro c a n hc hroot hp hn ht
    refine ⟨by simp [hc], by simp [hc, hroot, hn.symm], fun id hid m hm hb => ?_⟩
    cases ht id hid
    rw [hc, List.mem_singleton] at hm
    rcases hb.cases with h | ⟨q, hq, -⟩
    · exact hn (hm.symm.trans h.symm)
    · rw [hp] at hq
      cases hq
  have hkeep : ∀ k o cs b (P : Arena → Prop), History (single k o) cs b → P b →
      ∃ b, History (single k o) cs b ∧ b.WellFormed ∧ P b := by
    intro k o cs b P hist hb
    obtain ⟨hnew, -, hall⟩ := wellFormed_throughout
    exact ⟨b, hist, hall _ cs b (hnew k o) hist, hb⟩
  refine hkeep _ _ _ _ _ (.cons (hquiet _ _ rfl) rfl <|
    .cons (hone _ _ 1 rfl rfl rfl (by decide) (by simp [Call.target?])) rfl <|
    .cons (hone _ _ 2 rfl rfl rfl (by decide) (by simp [Call.target?])) rfl <|
    .cons (hone _ _ 3 rfl rfl rfl (by decide) (by simp [Call.target?])) rfl <|
    .cons (hquiet _ _ rfl) rfl <| .cons (hquiet _ _ rfl) rfl <|
    .cons (hone _ _ 1 rfl rfl rfl (by decide) (by simp [Call.target?])) rfl <|
    .cons (hquiet _ _ rfl) rfl <| .nil _) ⟨rfl, rfl, rfl, rfl, rfl⟩

end Arena

end Unstack
