import Mathlib.Data.List.Perm.Basic
import Unstack.Proofs.NormalForm

/-! # The order of a walk

A walk lists the children of a node before it visits them, and the handlers rearrange the tree while
it goes on.  Still, over a well-formed arena it hands over exactly the nodes of the tree at its
start, each of them once, children before parents.

* **Post-order.**  `Arena.postorder` lists the nodes of a tree in this order, and names none twice.
* **Local handlers.**  A handler is local if it works at the node it is handed, and changes no more
  of the parent than its flag and its kind (`Arena.Touched`).  Then the siblings that are still to
  come keep their place and everything below them (`Touched.later`).
* **Records.**  `Walk.logged` notes down the nodes on the way.  `Logs x y ids` says that `x` is the
  computation `y` with the record `ids`; a walk with a local handler logs the run of the handler
  over the post-order (`Walk.visit_logs`).  So the walk *is* that run (`Walk.run_eq_foldlM`). -/

namespace Unstack

open Outcome

/-! ### Post-order -/

namespace Arena

variable {a b c w : Arena} {m n p q x y : NodeId} {k : Kind} {t : Tree}

/-- A node and the nodes below it, children before their parent, to a given depth. -/
def postorderBelow (a : Arena) : Nat → NodeId → List NodeId
  | 0, _ => []
  | depth + 1, id => (a.childNodes id).flatMap (postorderBelow a depth) ++ [id]

/-- The nodes of the tree, children before parents and siblings in order. -/
def postorder (a : Arena) : List NodeId := a.postorderBelow (a.size + 1) a.root

theorem perm_postorderBelow (depth : Nat) (n : NodeId) :
    (a.postorderBelow depth n).Perm (a.nodesBelow depth n) := by
  induction depth generalizing n with
  | zero => exact .refl _
  | succ depth ih =>
      rw [postorderBelow, nodesBelow]
      exact (List.perm_append_singleton _ _).trans (.cons _ (.flatMap_left _ fun x _ => ih x))

theorem perm_postorder (a : Arena) : a.postorder.Perm a.descendants := perm_postorderBelow _ _

theorem below_of_mem_postorderBelow (h : a.WellFormed) {depth : Nat}
    (hm : m ∈ a.postorderBelow depth n) : a.Below m n :=
  below_of_mem_nodesBelow h ((perm_postorderBelow depth n).mem_iff.mp hm)

theorem nodup_postorderBelow (h : a.WellFormed) (depth : Nat) (n : NodeId) :
    (a.postorderBelow depth n).Nodup := by
  induction depth generalizing n with
  | zero => exact List.nodup_nil
  | succ depth ih =>
      have hchild : ∀ x ∈ a.childNodes n, a.parent? x = some n := fun x hx =>
        h.mem_children_iff.mp (mem_nodesOf.mp hx)
      refine List.nodup_append.mpr ⟨List.nodup_flatMap.mpr ⟨fun x _ => ih x, ?_⟩,
        List.nodup_singleton n, fun m hm q hq => ?_⟩
      · refine (h.nodup_childNodes n).imp_of_mem fun {x y} hx hy hne => ?_
        intro m hmx hmy
        exact h.disjoint_siblings (hchild x hx) (hchild y hy) hne
          (below_of_mem_postorderBelow h hmx) (below_of_mem_postorderBelow h hmy)
      · rintro rfl
        rw [List.mem_singleton] at hq
        subst hq
        obtain ⟨x, hx, hmx⟩ := List.mem_flatMap.mp hm
        exact h.not_below_parent (hchild x hx) (below_of_mem_postorderBelow h hmx)

/-- The order below a node depends on nothing but the lists there. -/
theorem postorderBelow_congr (h : a.WellFormed)
    (hsame : ∀ m, a.Below m n → b.children m = a.children m) (depth : Nat) :
    b.postorderBelow depth n = a.postorderBelow depth n := by
  induction depth generalizing n with
  | zero => rfl
  | succ depth ih =>
      have hchild : b.childNodes n = a.childNodes n := by
        rw [childNodes, hsame n (.refl a n), childNodes]
      rw [postorderBelow, postorderBelow, hchild]
      refine congrArg (· ++ [n]) (List.flatMap_congr fun x hx => ih fun m hm => hsame m ?_)
      exact hm.trans (below_of_parent (h.mem_children_iff.mp (mem_nodesOf.mp hx)))

/-- Room beyond the height of a tree changes nothing. -/
theorem postorderBelow_eq_of_height {depth depth' : Nat} (hs : a.Shows (.node n) t)
    (hd : t.height ≤ depth) (hd' : t.height ≤ depth') :
    a.postorderBelow depth n = a.postorderBelow depth' n := by
  induction t using Tree.induction generalizing n depth depth' with
  | leaf l => exact absurd hs (by simp [Shows])
  | node k o ts ih =>
      rw [Tree.height] at hd hd'
      obtain ⟨depth, rfl⟩ : ∃ d, depth = d + 1 := ⟨depth - 1, by omega⟩
      obtain ⟨depth', rfl⟩ : ∃ d, depth' = d + 1 := ⟨depth' - 1, by omega⟩
      rw [postorderBelow, postorderBelow]
      refine congrArg (· ++ [n]) (List.flatMap_congr fun x hx => ?_)
      obtain ⟨u, hu, hxu⟩ := exists_of_mem_left (shows_node.mp hs).2.2 (mem_nodesOf.mp hx)
      have hle := Tree.height_le_heights hu
      exact ih u hu hxu (by omega) (by omega)

theorem mem_nodesBelow_of_below (h : a.WellFormed) {depth : Nat} (hs : a.Shows (.node n) t)
    (hd : t.height ≤ depth) (hm : a.Below m n) : m ∈ a.nodesBelow depth n := by
  induction t using Tree.induction generalizing n depth with
  | leaf l => exact absurd hs (by simp [Shows])
  | node k o ts ih =>
      rw [Tree.height] at hd
      obtain ⟨depth, rfl⟩ : ∃ d, depth = d + 1 := ⟨depth - 1, by omega⟩
      rw [nodesBelow]
      rcases Relation.ReflTransGen.cases_tail hm with rfl | ⟨x, hmx, hx⟩
      · exact List.mem_cons_self
      · have hmem : .node x ∈ a.children n := h.mem_children_iff.mpr hx
        obtain ⟨u, hu, hxu⟩ := exists_of_mem_left (shows_node.mp hs).2.2 hmem
        have hle := Tree.height_le_heights hu
        refine List.mem_cons_of_mem _ (List.mem_flatMap.mpr ⟨x, mem_nodesOf.mpr hmem, ?_⟩)
        exact ih u hu hxu (by omega) hmx

/-- The nodes of the tree are those below the root. -/
theorem mem_descendants_iff (h : a.WellFormed) : n ∈ a.descendants ↔ a.Below n a.root := by
  constructor
  · exact below_of_mem_nodesBelow h
  · obtain ⟨t, hs, -⟩ := exists_shows h h.root_lt
    exact mem_nodesBelow_of_below h hs (Nat.le_succ_of_le (hs.height_le h))

theorem mem_postorder_iff (h : a.WellFormed) : n ∈ a.postorder ↔ a.Below n a.root :=
  (perm_postorder a).mem_iff.trans (mem_descendants_iff h)

theorem nodup_postorder (h : a.WellFormed) : a.postorder.Nodup := nodup_postorderBelow h _ _

theorem lt_size_of_mem_postorder (h : a.WellFormed) (hn : n ∈ a.postorder) : n < a.size :=
  lt_of_below ((mem_postorder_iff h).mp hn) h.root_lt

/-! ### What a local handler may do -/

/-- Work at the node `n`, and then something that it asks of its parent, has led from `a` to `b`. -/
def Touched (a : Arena) (n : NodeId) (b : Arena) : Prop := ∃ w d, Worked a w n ∧ b = w.meet n d

/-- What a node asks of its parent changes the parent and its first child only. -/
theorem slot?_meet (hp : a.parent? n = some p) (hq : q ≠ p) (hfirst : a.child? p 0 ≠ some (.node q))
    (d : Demand) : (a.meet n d).slot? q = a.slot? q := by
  have hneg : (a.negated p).slot? q = a.slot? q := by
    cases hcs : a.children p with
    | nil => rw [negated, hcs]
    | cons flag rest =>
        rw [negated_eq hcs]
        cases flag with
        | leaf l => simp [overwrite, Child.node?, setList, hq]
        | node m =>
            have hne : q ≠ m := by
              rintro rfl
              exact hfirst (by rw [child?, hcs, List.getElem?_cons_zero])
            simp only [overwrite, Child.node?, Option.toList_some, Option.toList_none,
              List.foldl_cons, List.foldl_nil, release]
            split_ifs <;> simp [setList, orphan, hq, hne]
  unfold meet
  rw [hp]
  cases d.negate <;> cases d.retag <;> simp [setKind, hq, hneg]

theorem Touched.wellFormed (h : Touched a n b) : b.WellFormed := by
  obtain ⟨w, d, hw, rfl⟩ := h
  cases hp : w.parent? n with
  | none =>
      rw [meet, hp]
      exact hw.wellFormed
  | some p =>
      obtain ⟨t, hs, -⟩ := exists_shows hw.wellFormed (hw.wellFormed.parent_lt hp)
      obtain ⟨k, o, ts, rfl⟩ := hs.exists_node
      exact (settles_meet hw.wellFormed hp hs d).1.1.wellFormed

/-- Seen from the parent, that is work at the parent, and the list to the right of the first place
stays. -/
theorem Touched.worked_parent (ha : a.WellFormed) (hm : a.parent? m = some n)
    (ht : Touched a m b) :
    Worked a b n ∧ ∀ i, (b.children n).drop (i + 1) = (a.children n).drop (i + 1) := by
  obtain ⟨w, d, hw, rfl⟩ := ht
  have hmw : w.parent? m = some n := hw.parent.trans hm
  obtain ⟨t, hs, -⟩ := exists_shows hw.wellFormed (hw.wellFormed.parent_lt hmw)
  obtain ⟨k, o, ts, rfl⟩ := hs.exists_node
  obtain ⟨hmeet, hdrop⟩ := settles_meet hw.wellFormed hmw hs d
  refine ⟨(hw.up ha hm).trans ha hmeet.1, fun i => ?_⟩
  rw [hdrop i, children_congr (hw.outside n (parent_not_zone ha hm))]

/-- **Later siblings are left alone**, with everything below them. -/
theorem Touched.later (ha : a.WellFormed) {i : Nat} (hi : a.child? n i = some (.node m))
    (ht : Touched a m b) (hy : .node y ∈ (a.children n).drop (i + 1)) (hq : a.Below q y) :
    b.slot? q = a.slot? q := by
  obtain ⟨w, d, hw, rfl⟩ := ht
  obtain ⟨hm, hmi⟩ := ha.placed n i m hi
  obtain ⟨j, hj⟩ := List.mem_iff_getElem?.mp hy
  rw [List.getElem?_drop] at hj
  obtain ⟨hyn, hyj⟩ := ha.placed n _ y hj
  have hne : y ≠ m := by
    rintro rfl
    omega
  have hslot : w.slot? q = a.slot? q := by
    refine hw.outside q ?_
    rintro (hqm | hsize)
    · exact ha.disjoint_siblings hyn hm hne hq hqm
    · exact absurd (lt_of_below hq (lt_size_of_parent? hyn)) (Nat.not_lt.mpr hsize)
  rw [← hslot]
  refine slot?_meet (hw.parent.trans hm) ?_ (fun hfirst => ?_) d
  · rintro rfl
    exact ha.not_below_parent hyn hq
  · rw [child?, children_congr (hw.outside n (parent_not_zone ha hm))] at hfirst
    obtain ⟨hqn, hq0⟩ := ha.placed n 0 q hfirst
    rw [ha.eq_of_below hyn hq hqn] at hq0
    omega

/-- A chain of parents stays as long as the slots on it do. -/
theorem below_of_same (h : a.Below q n) (hsame : ∀ m, a.Below m n → b.slot? m = a.slot? m) :
    b.Below q n := by
  induction h using Relation.ReflTransGen.head_induction_on with
  | refl => exact .refl b n
  | head hstep hbelow ih =>
      refine .of_parent ?_ ih
      rw [parent?_congr (hsame _ (.head hstep hbelow))]
      exact hstep

end Arena

namespace Walk

/-- A handler that works at the node it is handed, apart from what it does to the flag and the kind
of the parent. -/
def Local (handle : Handler Traced) : Prop :=
  ∀ (a : Arena) (n : NodeId) (k : Kind) (b : Arena), a.WellFormed → a.kind? n = some k →
    (handle a n k).result = .ok b → a.Touched n b

/-- What a walk does at a node when its children are done. -/
def arrive (handle : Handler Traced) (a : Arena) (id : NodeId) : Traced Arena := do
  let (a, _) ← a.spliceExpanded id
  let s ← Traced.ofExcept (a.slot id)
  handle a id s.kind

/-- The handler, with a record of the nodes that it is handed, the last one first. -/
def logged (handle : Handler Traced) : Handler (StateT (List NodeId) Traced) := fun a id kind => do
  modify (id :: ·)
  liftM (handle a id kind)

/-- Walks the whole tree, and gives the nodes in the order in which they are handed over. -/
def runLogged (handle : Handler Traced) (a : Arena) : Traced (Arena × List NodeId) := do
  let (a, ids) ← (run (logged handle) a).run []
  return (a, ids.reverse)

/-! ### Computations with a record -/

/-- The computation `x` is `y`, and in the end it has put `ids` on record. -/
def Logs {α : Type} (x : StateT (List NodeId) Traced α) (y : Traced α) (ids : List NodeId) : Prop :=
  ∀ log, x.run log = (fun b => (b, ids.reverse ++ log)) <$> y

namespace Logs

variable {α β : Type} {x : StateT (List NodeId) Traced α} {y : Traced α}
  {f : α → StateT (List NodeId) Traced β} {g : α → Traced β} {ids ids' : List NodeId}

theorem of_pure (b : α) : Logs (pure b) (pure b) [] := by
  intro log
  simp

theorem of_lift (y : Traced α) : Logs (liftM y) y [] := by
  intro log
  simp

theorem bind (h : Logs x y ids) (hfg : ∀ b, y.result = .ok b → Logs (f b) (g b) ids') :
    Logs (x >>= f) (y >>= g) (ids ++ ids') := by
  intro log
  rw [StateT.run_bind, h log, map_bind, bind_map_left]
  refine bind_congr_of_result fun b hb => ?_
  rw [hfg b hb, List.reverse_append, List.append_assoc]

theorem of_logged (handle : Handler Traced) (a : Arena) (id : NodeId) (k : Kind) :
    Logs (logged handle a id k) (handle a id k) [id] := by
  intro log
  simp [logged]

end Logs

/-! ### Walks with a local handler -/

open Arena

variable {handle : Handler Traced} {a b c : Arena} {n : NodeId} {t : Tree} {depth : Nat}

theorem arrive_logs (handle : Handler Traced) (a : Arena) (n : NodeId) :
    Logs (do
      let (a, _) ← liftM (a.spliceExpanded n)
      let s ← liftM (Traced.ofExcept (a.slot n))
      logged handle a n s.kind) (arrive handle a n) [n] :=
  (Logs.of_lift _).bind fun r _ => (Logs.of_lift _).bind fun s _ => .of_logged handle r.1 n s.kind

theorem result_arrive (h : a.WellFormed) {k : Kind} (hk : a.kind? n = some k) :
    (arrive handle a n).result = (handle (a.splice n) n k).result := by
  simp only [arrive, Traced.result_bind, Traced.result_ofExcept]
  exact Arena.result_arrive handle h hk

theorem touched_of_arrive (hlocal : Local handle) (h : a.WellFormed) (hn : n < a.size)
    (hr : (arrive handle a n).result = .ok b) : a.Touched n b := by
  obtain ⟨s, hs⟩ := exists_slot? hn
  rw [result_arrive h (kind?_eq hs)] at hr
  have hsplice := (Worked.refl h n).splice h (zone_self a n) hn
  obtain ⟨w, d, hw, rfl⟩ := hlocal _ n s.kind b hsplice.wellFormed
    ((kind?_splice a n n).trans (kind?_eq hs)) hr
  exact ⟨w, d, hsplice.trans h hw, rfl⟩

/-- A visit of `n` logs the run of the handler over the post-order below it, and touches `n` only,
wherever an arena shows `t`. -/
def LogsBelow (handle : Handler Traced) (depth : Nat) (t : Tree) : Prop :=
  ∀ (a : Arena) (n : NodeId), a.WellFormed → a.Shows (.node n) t →
    Logs (visit (logged handle) depth a n) ((a.postorderBelow depth n).foldlM (arrive handle) a)
      (a.postorderBelow depth n) ∧
    ∀ b, ((a.postorderBelow depth n).foldlM (arrive handle) a).result = .ok b → a.Touched n b

/-- **The loop over the children.**  It has come from `a` to `c`, and `rest` is left of the list
that was made at `a`.  What stands there is still as it was. -/
theorem rest_logs (ha : a.WellFormed) {rest : List Child} (i : Nat)
    (hrest : (a.children n).drop i = rest)
    (hvisit : ∀ x t, .node x ∈ rest → a.Shows (.node x) t → LogsBelow handle depth t)
    (hw : Worked a c n) (hlist : (c.children n).drop i = rest)
    (hsame : ∀ x, .node x ∈ rest → ∀ q, a.Below q x → c.slot? q = a.slot? q) :
    Logs ((nodesOf rest).foldlM (fun c x => if c.parent? x = some n then
        visit (logged handle) depth c x else pure c) c)
      (((nodesOf rest).flatMap (a.postorderBelow depth)).foldlM (arrive handle) c)
      ((nodesOf rest).flatMap (a.postorderBelow depth)) ∧
    ∀ b, (((nodesOf rest).flatMap (a.postorderBelow depth)).foldlM (arrive handle) c).result
      = .ok b → Worked a b n := by
  induction rest generalizing c i with
  | nil =>
      refine ⟨.of_pure c, fun b hb => ?_⟩
      cases hb
      exact hw
  | cons x rest ih =>
      have hnext : ∀ d : Arena, (d.children n).drop i = x :: rest →
          (d.children n).drop (i + 1) = rest := by
        intro d hd
        rw [← List.drop_drop, hd, List.drop_succ_cons, List.drop_zero]
      have htail : ∀ y t, .node y ∈ rest → a.Shows (.node y) t → LogsBelow handle depth t :=
        fun y t hy => hvisit y t (List.mem_cons_of_mem _ hy)
      cases x with
      | leaf l =>
          exact ih (i + 1) (hnext a hrest) htail hw (hnext c hlist) fun y hy =>
            hsame y (List.mem_cons_of_mem _ hy)
      | node m =>
          have hget : c.child? n i = some (.node m) := by
            rw [child?, ← List.head?_drop, hlist]
            rfl
          -- the node has not been moved, so the walk does not pass it over
          have hm : c.parent? m = some n := (hw.wellFormed.placed n i m hget).1
          have hmem : .node m ∈ a.children n := by
            refine List.mem_of_mem_drop (i := i) ?_
            rw [hrest]
            exact List.mem_cons_self
          -- below it nothing has changed, so what is visited there is the post-order of `a`
          have hown := hsame m List.mem_cons_self
          obtain ⟨t, hs, -⟩ := exists_shows ha (ha.child_lt hmem)
          have hsc : c.Shows (.node m) t := hs.congr ha fun q hq =>
            ⟨kind?_congr (hown q hq), note?_congr (hown q hq), children_congr (hown q hq)⟩
          obtain ⟨hlogs, htouch⟩ := hvisit m t List.mem_cons_self hs c m hw.wellFormed hsc
          rw [postorderBelow_congr ha fun q hq => children_congr (hown q hq)] at hlogs htouch
          -- and its visit leaves the rest of the list for the rounds to come
          have hlater : ∀ d, ((a.postorderBelow depth m).foldlM (arrive handle) c).result = .ok d →
              Worked a d n ∧ (d.children n).drop (i + 1) = rest ∧
                ∀ y, .node y ∈ rest → ∀ q, a.Below q y → d.slot? q = a.slot? q := by
            intro d hd
            obtain ⟨hwd, hdrop⟩ := (htouch d hd).worked_parent hw.wellFormed hm
            refine ⟨hw.trans ha hwd, (hdrop i).trans (hnext c hlist), fun y hy q hq => ?_⟩
            have hyc := hsame y (List.mem_cons_of_mem _ hy)
            rw [← hyc q hq]
            exact (htouch d hd).later hw.wellFormed hget (by rwa [hnext c hlist])
              (below_of_same hq hyc)
          rw [nodesOf_cons_node, List.flatMap_cons, List.foldlM_cons, List.foldlM_append, if_pos hm]
          constructor
          · refine hlogs.bind fun d hd => ?_
            obtain ⟨hwd, hdrop, hslots⟩ := hlater d hd
            exact (ih (i + 1) (hnext a hrest) htail hwd hdrop hslots).1
          · intro b hb
            rw [Traced.result_bind] at hb
            obtain ⟨d, hd, hb⟩ := exists_of_bind_eq_ok hb
            obtain ⟨hwd, hdrop, hslots⟩ := hlater d hd
            exact (ih (i + 1) (hnext a hrest) htail hwd hdrop hslots).2 b hb

/-- **A walk logs the post-order**, if it may go as deep as the tree is high. -/
theorem visit_logs (hlocal : Local handle) (ht : t.height ≤ depth) : LogsBelow handle depth t := by
  induction t using Tree.induction generalizing depth with
  | leaf l => exact fun a n _ hs => absurd hs (by simp [Shows])
  | node k o ts ih =>
      intro a n h hs
      rw [Tree.height] at ht
      obtain ⟨depth, rfl⟩ : ∃ d, depth = d + 1 := ⟨depth - 1, by omega⟩
      have hvisit : ∀ x t, .node x ∈ a.children n → a.Shows (.node x) t →
          LogsBelow handle depth t := by
        intro x t hx hxt
        obtain ⟨u, hu, hxu⟩ := exists_of_mem_left (shows_node.mp hs).2.2 hx
        have hle := Tree.height_le_heights hu
        rw [hxt.unique hxu]
        exact ih u hu (by omega)
      have hsingle : ∀ c, [n].foldlM (arrive handle) c = arrive handle c n := fun c => by simp
      obtain ⟨hlogs, hworked⟩ := rest_logs h 0 rfl hvisit (.refl h n) rfl fun _ _ _ _ => rfl
      rw [visit, postorderBelow, childNodes, List.foldlM_append]
      constructor
      · refine hlogs.bind fun c _ => ?_
        rw [hsingle]
        exact arrive_logs handle c n
      · intro b hb
        rw [Traced.result_bind] at hb
        obtain ⟨c, hc, hb⟩ := exists_of_bind_eq_ok hb
        rw [hsingle] at hb
        have hw := hworked c hc
        obtain ⟨w, d, hwc, rfl⟩ := touched_of_arrive hlocal hw.wellFormed (hw.lt_size hs.lt_size) hb
        exact ⟨w, d, hw.trans h hwc, rfl⟩

/-! ### Without the record -/

/-- The computation `x` without its record is `y`. -/
def Follows {α : Type} (x : StateT (List NodeId) Traced α) (y : Traced α) : Prop :=
  ∀ log, Prod.fst <$> x.run log = y

namespace Follows

variable {α β γ : Type} {x : StateT (List NodeId) Traced α} {y : Traced α}

theorem of_logs {ids : List NodeId} (h : Logs x y ids) : Follows x y := by
  intro log
  rw [h log, Functor.map_map]
  exact id_map' y

theorem bind {f : α → StateT (List NodeId) Traced β} {g : α → Traced β} (h : Follows x y)
    (hfg : ∀ b, Follows (f b) (g b)) : Follows (x >>= f) (y >>= g) := by
  intro log
  rw [StateT.run_bind, map_bind, ← h log, bind_map_left]
  exact bind_congr fun r => hfg r.1 r.2

theorem foldlM {f : α → γ → StateT (List NodeId) Traced α} {g : α → γ → Traced α}
    (hfg : ∀ b c, Follows (f b c) (g b c)) (cs : List γ) (b : α) :
    Follows (cs.foldlM f b) (cs.foldlM g b) := by
  induction cs generalizing b with
  | nil => exact of_logs (.of_pure b)
  | cons c cs ih =>
      rw [List.foldlM_cons, List.foldlM_cons]
      exact (hfg b c).bind ih

end Follows

/-- A record changes nothing of a walk, whatever the handler. -/
theorem follows_visit (handle : Handler Traced) (depth : Nat) (a : Arena) (n : NodeId) :
    Follows (visit (logged handle) depth a n) (visit handle depth a n) := by
  induction depth generalizing a n with
  | zero => exact .of_logs (.of_lift _)
  | succ depth ih =>
      rw [visit, visit]
      refine (Follows.foldlM (fun c x => ?_) _ a).bind fun c => .of_logs (arrive_logs handle c n)
      split_ifs
      · exact ih c x
      · exact .of_logs (.of_pure c)

/-- **A walk of the whole tree logs its post-order.** -/
theorem run_logs (hlocal : Local handle) (h : a.WellFormed) :
    Logs (run (logged handle) a) (a.postorder.foldlM (arrive handle) a) a.postorder := by
  obtain ⟨t, hs, -⟩ := exists_shows h h.root_lt
  have hle := hs.height_le h
  have hbound : t.height ≤ a.walkBound := Nat.le_trans hle (Nat.le_of_lt (size_lt_walkBound a))
  have hlogs := (visit_logs hlocal hbound a a.root h hs).1
  rwa [postorderBelow_eq_of_height hs hbound (Nat.le_succ_of_le hle)] at hlogs

/-- **A walk is the run of its handler over the post-order** of the tree at its start. -/
theorem run_eq_foldlM (hlocal : Local handle) (h : a.WellFormed) :
    run handle a = a.postorder.foldlM (arrive handle) a := by
  rw [run, ← follows_visit handle a.walkBound a a.root []]
  exact Follows.of_logs (run_logs hlocal h) []

/-- The record of a walk is the post-order, and beside the record stands what the walk gives. -/
theorem runLogged_eq (hlocal : Local handle) (h : a.WellFormed) :
    runLogged handle a = (fun b => (b, a.postorder)) <$> run handle a := by
  rw [runLogged, run_logs hlocal h [], run_eq_foldlM hlocal h, bind_map_left, map_eq_pure_bind]
  simp

theorem fst_runLogged (handle : Handler Traced) (a : Arena) :
    Prod.fst <$> runLogged handle a = run handle a := by
  rw [run, ← follows_visit handle a.walkBound a a.root [], runLogged, map_bind, map_eq_pure_bind]
  rfl

end Walk

/-! ### The order of normalisation -/

namespace Normalize

/-- The rules work at their node, and ask of the parent what `Arena.meet` does. -/
theorem handle_local (slack : Nat) : Walk.Local (handle slack) := by
  intro a n k b h hk hr
  obtain ⟨t, hs, -⟩ := Arena.exists_shows h (Arena.lt_size_of_kind? hk)
  obtain ⟨k', o, ts, rfl⟩ := hs.exists_node
  obtain rfl : k' = k := Option.some.inj ((Arena.shows_node.mp hs).1.symm.trans hk)
  have hsim := Arena.handle_simulates slack h hs
  rw [hr] at hsim
  obtain ⟨r, -, w, hw, rfl⟩ := hsim.exists_of_ok
  exact ⟨w, r.2, hw.1, rfl⟩

end Normalize

namespace Arena

variable {a b : Arena}

/-- **Every node is handed over once, after its children.**  Where normalisation completes, the
record of its walk is the post-order of the tree at the start.  The record changes nothing of the
walk; and the post-order holds each node of the tree once, and no other. -/
theorem normalize_hands_over_postorder (h : a.WellFormed) (hb : a.normalize.result = .ok b) :
    (Walk.runLogged (Normalize.handle a.walkBound) a).result = .ok (b, a.postorder) ∧
    Prod.fst <$> Walk.runLogged (Normalize.handle a.walkBound) a
      = Walk.run (Normalize.handle a.walkBound) a ∧
    a.postorder.Nodup ∧ (∀ n, n ∈ a.postorder ↔ a.Below n a.root) ∧
    ∀ n ∈ a.postorder, n < a.size := by
  refine ⟨?_, Walk.fst_runLogged _ a, nodup_postorder h, fun n => mem_postorder_iff h,
    fun n => lt_size_of_mem_postorder h⟩
  have hrun : (Walk.run (Normalize.handle a.walkBound) a).result = .ok b := hb
  rw [Walk.runLogged_eq (Normalize.handle_local _) h, map_eq_pure_bind, Traced.result_bind, hrun]
  rfl

/-- Here a flag is a node that goes when the reversed test below the jump negates it; the coercion
before the test goes too; and a discarded value makes a new node. -/
theorem normalize_hands_over_postorder_jump :
    ∃ a b : Arena, a.WellFormed ∧
      a.tree = .ok (.plain (.other "body")
        [.plain .jumpIf [.plain (.other "flag") [], .plain (.branch .nlt) [.text "x", .text "y"]],
          .plain .pop [.plain .coerceB [.text "z"]]]) ∧
      a.normalize.result = .ok b ∧ a.size < b.size ∧ b.descendants ≠ a.descendants ∧
      (Walk.runLogged (Normalize.handle a.walkBound) a).result = .ok (b, [1, 2, 3, 4, 5, 6]) := by
  have hwf := wellFormed_ofTree (.plain (.other "body")
    [.plain .jumpIf [.plain (.other "flag") [], .plain (.branch .nlt) [.text "x", .text "y"]],
      .plain .pop [.plain .coerceB [.text "z"]]])
  obtain ⟨hlog, -⟩ := normalize_hands_over_postorder hwf rfl
  exact ⟨_, _, hwf, tree_ofTree _ _ _, rfl, by decide, by decide, hlog⟩

end Arena

end Unstack
