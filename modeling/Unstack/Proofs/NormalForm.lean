import Unstack.Canonical
import Unstack.Proofs.Refinement

/-! # Normal forms

What normalising leaves is canonical, and a canonical tree is left as it is.

* `Tree.Canonical` says on its own what a canonical tree is: no kind that the rules eliminate,
  no expansion below another node, and no coercion directly below a node that takes its operands
  for their truth.
* Every rule keeps it (`canonical_rule`), provided that the children have been opened: an
  expansion may be the outcome of a rule, but then the next node up takes it apart.
* In an arena the check finds nothing exactly where a canonical tree is shown
  (`offenders_eq_nil`, `Shows.canonical_of_offendersAt`), and every step of a walk over one
  returns the arena that it was given (`result_visit_of_canonical`). -/

namespace Unstack

open Outcome

namespace Tree

/-- What a node may have for a child. -/
def Fits (k : Kind) : Tree → Prop
  | .leaf _ => True
  | .node k' _ _ => k' ≠ .expand ∧ (k.consumesBoolean = true → k' ≠ .coerceB)

/-- Normalising has nothing to do. -/
inductive Canonical : Tree → Prop
  | leaf (l : Leaf) : Canonical (.leaf l)
  | node {k : Kind} {ts : List Tree} (o : Option Note) (hk : k.isEliminated = false)
      (hfit : ∀ t ∈ ts, t.Fits k) (hts : ∀ t ∈ ts, Canonical t) : Canonical (.node k o ts)

/-- A canonical tree that is no expansion. -/
structure Closed (t : Tree) : Prop where
  canonical : t.Canonical
  unexpanded : ∀ o ts, t ≠ .node .expand o ts

variable {t t' : Tree} {ts us done : List Tree} {k : Kind} {o : Option Note}

theorem Closed.leaf (l : Leaf) : Closed (.leaf l) := ⟨.leaf l, by simp⟩

theorem Closed.node (h : (Tree.node k o ts).Canonical) (hk : k ≠ .expand) :
    Closed (.node k o ts) :=
  ⟨h, fun o' us e => hk (by cases e; rfl)⟩

/-- Below a node that does not look at truth values, closed trees fit. -/
theorem Closed.fits (h : t.Closed) (hk : k.consumesBoolean = false) : t.Fits k := by
  cases t with
  | leaf l => trivial
  | node k' o' us =>
      refine ⟨?_, fun hc => ?_⟩
      · rintro rfl
        exact h.unexpanded o' us rfl
      · rw [hk] at hc
        cases hc

theorem Canonical.closed_of_mem (h : (Tree.node k o ts).Canonical) (ht : t ∈ ts) : t.Closed := by
  cases h with
  | node _ _ hfit hts =>
      refine ⟨hts t ht, fun o' us e => ?_⟩
      subst e
      exact (hfit _ ht).1 rfl

/-- A node over closed trees. -/
theorem canonical_of_closed (hk : k.isEliminated = false) (hc : k.consumesBoolean = false)
    (hts : ∀ t ∈ ts, t.Closed) (o : Option Note) : (Tree.node k o ts).Canonical :=
  .node o hk (fun t ht => (hts t ht).fits hc) fun t ht => (hts t ht).canonical

theorem closed_of_mem_opened (h : t.Canonical) {u : Tree} (hu : u ∈ t.opened) : u.Closed := by
  cases t with
  | leaf l =>
      cases List.mem_singleton.mp hu
      exact .leaf l
  | node k o ts =>
      by_cases hk : k = .expand
      · subst hk
        exact h.closed_of_mem hu
      · rw [opened_of_ne hk] at hu
        cases List.mem_singleton.mp hu
        exact .node h hk

/-! ### Rules -/

theorem closed_strip (h : t.Closed) (hs : t.strip = .ok t') :
    t'.Closed ∧ ∀ o ts, t' ≠ .node .coerceB o ts := by
  induction t using Tree.induction with
  | leaf l =>
      cases hs
      exact ⟨h, by simp⟩
  | node k o ts ih =>
      by_cases hk : k = .coerceB
      · subst hk
        cases ts with
        | nil => cases hs
        | cons u us =>
            have hu : u ∈ u :: us := List.mem_cons_self
            exact ih u hu (h.canonical.closed_of_mem hu) hs
      · rw [strip_of_ne hk] at hs
        cases hs
        refine ⟨h, fun o' us e => hk ?_⟩
        cases e
        rfl

theorem closed_choice (hts : ∀ t ∈ ts, t.Closed) (h : choice o ts = .ok t) : t.Closed := by
  match ts, h with
  | flag :: condition :: first :: rest, h =>
      have hsecond : (rest.headD (.leaf .nil)).Closed := by
        cases rest with
        | nil => exact .leaf .nil
        | cons second rest => exact hts second (by simp)
      have hcondition := hts condition (by simp)
      have hfirst := hts first (by simp)
      cases h
      refine .node (canonical_of_closed rfl rfl (fun u hu => ?_) o) (by simp)
      split_ifs at hu
      all_goals
        simp only [List.mem_cons, List.not_mem_nil, or_false] at hu
        rcases hu with rfl | rfl | rfl <;> assumption

theorem closed_hoist (hts : ∀ t ∈ ts, t.Closed) (h : hoist ts = .ok us) : ∀ u ∈ us, u.Closed := by
  unfold hoist at h
  split at h
  · rename_i k o args hop
    split_ifs at h
    cases h
    have hc := hts _ (List.mem_of_getElem? hop)
    intro u hu
    rcases List.mem_append.mp hu with hu | hu
    · rcases List.mem_or_eq_of_mem_set hu with hu | rfl
      · exact hts u hu
      · cases hc.canonical with
        | node _ hk hfit hargs =>
            refine .node (.node o hk (fun t ht => hfit t (List.mem_of_mem_take ht)) fun t ht =>
              hargs t (List.mem_of_mem_take ht)) fun e => ?_
            exact hc.unexpanded o args (e ▸ rfl)
    · exact hc.canonical.closed_of_mem (List.mem_of_mem_drop hu)
  · cases h
  · cases h

theorem canonical_ofCondition (c : Condition) (hts : ∀ t ∈ ts, t.Closed) (o : Option Note) :
    (Tree.node (.ofCondition c) o ts).Canonical := by
  refine canonical_of_closed ?_ ?_ hts o
  all_goals cases c <;> rfl

theorem canonical_branchRule {place : Option (Kind × Nat)} {c : Condition} {r : Tree × Demand}
    (hts : ∀ t ∈ ts, t.Closed) (h : branchRule place c o ts = .ok r) : r.1.Canonical := by
  have hmapped := canonical_ofCondition c hts o
  unfold branchRule at h
  split at h
  · cases h
  · split_ifs at h
    · cases h
      exact hmapped
    · cases h
      exact hmapped
    · obtain ⟨t, ht, h⟩ := exists_of_bind_eq_ok h
      cases h
      refine (closed_choice (fun u hu => ?_) ht).canonical
      rcases List.mem_cons.mp hu with rfl | hu
      · exact .leaf _
      · exact hts u hu
    · cases h
      exact hmapped

/-- Without coercions below it, a node that takes its operands for their truth is canonical. -/
theorem canonical_mapM_strip (hk : k.isEliminated = false) (hts : ∀ t ∈ ts, t.Closed)
    (h : ts.mapM strip = .ok us) (o : Option Note) : (Tree.node k o us).Canonical := by
  have hstrip : ∀ u ∈ us, u.Closed ∧ ∀ o ts, u ≠ .node .coerceB o ts := by
    intro u hu
    obtain ⟨t, ht, htu⟩ := exists_of_mem_right (forall₂_of_mapM_eq_ok h) hu
    exact closed_strip (hts t ht) htu
  refine .node o hk (fun u hu => ?_) fun u hu => (hstrip u hu).1.canonical
  obtain ⟨hclosed, hco⟩ := hstrip u hu
  cases u with
  | leaf l => trivial
  | node k' o' vs =>
      refine ⟨?_, fun _ => ?_⟩
      · rintro rfl
        exact hclosed.unexpanded o' vs rfl
      · rintro rfl
        exact hco o' vs rfl

/-- **Every rule gives a canonical tree**, if the children are canonical and opened. -/
theorem canonical_rule {place : Option (Kind × Nat)} {r : Tree × Demand}
    (hts : ∀ t ∈ ts, t.Closed) (h : rule place k o ts = .ok r) : r.1.Canonical := by
  have hsame : ∀ k', k'.isEliminated = false → k'.consumesBoolean = false →
      (.ok (.node k' o ts, .none) : Except Defect (Tree × Demand)) = .ok r → r.1.Canonical := by
    intro k' hk hc he
    cases he
    exact canonical_of_closed hk hc hts o
  have hnop : ∀ o, (Tree.node .nop o []).Canonical := fun o =>
    canonical_of_closed rfl rfl (by simp) o
  have hstrip : k.isEliminated = false →
      (ts.mapM strip >>= fun us => pure (.node k o us, .none)) = .ok r → r.1.Canonical := by
    intro hk he
    obtain ⟨us, hus, he⟩ := exists_of_bind_eq_ok he
    cases he
    exact canonical_mapM_strip hk hts hus o
  cases k with
  | pop =>
      cases ts with
      | nil => cases h
      | cons t ts =>
          cases h
          refine canonical_of_closed rfl rfl (fun u hu => ?_) o
          rcases List.mem_pair.mp hu with rfl | rfl
          · exact hts _ List.mem_cons_self
          · exact .node (hnop o) (by simp)
  | callPropertyVoid => exact hsame .callProperty rfl rfl h
  | callSuperVoid => exact hsame .callSuper rfl rfl h
  | branch c => exact canonical_branchRule hts h
  | ternaryIf =>
      obtain ⟨us, hus, h⟩ := exists_of_bind_eq_ok h
      obtain ⟨t, ht, h⟩ := exists_of_bind_eq_ok h
      cases h
      exact (closed_choice (closed_hoist hts hus) ht).canonical
  | ternaryIfBoolean =>
      obtain ⟨t, ht, h⟩ := exists_of_bind_eq_ok h
      cases h
      exact (closed_choice hts ht).canonical
  | and | or | jumpIf => exact hstrip rfl h
  | kill | debug | debugFile | debugLine =>
      cases h
      exact hnop o
  | nop | expand | callProperty | callSuper | ternary | coerceB => exact hsame _ rfl rfl h
  | compare _ => exact hsame _ rfl rfl h
  | other _ => exact hsame _ rfl rfl h

/-! ### The rewrite -/

theorem canonical_negateFirst (h : ∀ t ∈ ts, t.Canonical) : ∀ t ∈ negateFirst ts, t.Canonical := by
  cases ts with
  | nil => exact h
  | cons t ts =>
      intro u hu
      rcases List.mem_cons.mp hu with rfl | hu
      · exact .leaf _
      · exact h u (List.mem_cons_of_mem _ hu)

theorem canonical_normalizeRest {r : Kind × List Tree}
    (ih : ∀ t ∈ ts, ∀ place r, t.normalizeAt place = .ok r → r.1.Canonical)
    (hdone : ∀ t ∈ done, t.Canonical) (h : normalizeRest k done ts = .ok r) :
    ∀ t ∈ r.2, t.Canonical := by
  induction ts generalizing k done with
  | nil =>
      cases h
      exact hdone
  | cons t ts ihts =>
      rw [normalizeRest_cons] at h
      obtain ⟨s, hs, h⟩ := exists_of_bind_eq_ok h
      have hnew : ∀ u ∈ done ++ [s.1], u.Canonical := by
        intro u hu
        rcases List.mem_append.mp hu with hu | hu
        · exact hdone u hu
        · cases List.mem_singleton.mp hu
          exact ih t List.mem_cons_self _ s hs
      refine ihts (fun u hu => ih u (List.mem_cons_of_mem _ hu)) ?_ h
      split_ifs
      · exact canonical_negateFirst hnew
      · exact hnew

/-- **The rewrite gives canonical trees.** -/
theorem canonical_normalizeAt {place : Option (Kind × Nat)} {r : Tree × Demand}
    (h : t.normalizeAt place = .ok r) : r.1.Canonical := by
  induction t using Tree.induction generalizing place r with
  | leaf l =>
      cases h
      exact .leaf l
  | node k o ts ih =>
      rw [normalizeAt_node] at h
      obtain ⟨s, hs, h⟩ := exists_of_bind_eq_ok h
      have hcan := canonical_normalizeRest (fun t ht place r hr => ih t ht hr) (by simp) hs
      refine canonical_rule (fun u hu => ?_) h
      obtain ⟨t, ht, hut⟩ := List.mem_flatMap.mp hu
      exact closed_of_mem_opened (hcan t ht) hut

theorem canonical_normalize (h : t.normalize = .ok t') : t'.Canonical := by
  unfold normalize at h
  cases hr : t.normalizeAt none with
  | error d =>
      rw [hr] at h
      cases h
  | ok r =>
      rw [hr] at h
      cases h
      exact canonical_normalizeAt hr

end Tree

namespace Arena

variable {a b : Arena} {m n : NodeId} {t : Tree} {ts : List Tree} {k : Kind} {o : Option Note}

/-! ### The check -/

/-- Below a canonical tree everything is canonical, and nothing but its top is an expansion. -/
theorem Shows.canonical_of_below (h : a.WellFormed) (hs : a.Shows (.node n) t)
    (ht : t.Canonical) (hm : a.Below m n) :
    ∃ u, a.Shows (.node m) u ∧ u.Canonical ∧ (m = n ∨ u.Closed) := by
  induction hm using Relation.ReflTransGen.head_induction_on with
  | refl => exact ⟨t, hs, ht, .inl rfl⟩
  | head hstep _ ih =>
      obtain ⟨u, hu, hcan, -⟩ := ih
      obtain ⟨k, o, us, rfl⟩ := hu.exists_node
      obtain ⟨-, -, hus⟩ := shows_node.mp hu
      obtain ⟨v, hv, hshow⟩ := exists_of_mem_left hus (h.mem_children_iff.mpr hstep)
      have hclosed := hcan.closed_of_mem hv
      exact ⟨v, hshow, hclosed.canonical, .inr hclosed⟩

theorem below_of_mem_nodesBelow (h : a.WellFormed) {depth : Nat}
    (hm : m ∈ a.nodesBelow depth n) : a.Below m n := by
  induction depth generalizing n with
  | zero => cases hm
  | succ depth ih =>
      rcases List.mem_cons.mp hm with rfl | hm
      · exact .refl a _
      · obtain ⟨x, hx, hmx⟩ := List.mem_flatMap.mp hm
        exact (ih hmx).trans (below_of_parent (h.mem_children_iff.mp (mem_nodesOf.mp hx)))

/-- What a canonical tree says about one of its nodes. -/
theorem Shows.kinds_of_canonical (hs : a.Shows (.node n) t) (ht : t.Canonical)
    (hk : a.kind? n = some k) :
    k.isEliminated = false ∧
      (k.consumesBoolean = true → ∀ m, .node m ∈ a.children n → a.hasKind m .coerceB = false) := by
  obtain ⟨k', o, ts, rfl⟩ := hs.exists_node
  obtain ⟨hk', -, hts⟩ := shows_node.mp hs
  cases hk.symm.trans hk'
  cases ht with
  | node _ helim hfit _ =>
      refine ⟨helim, fun hc m hm => ?_⟩
      obtain ⟨u, hu, hshow⟩ := exists_of_mem_left hts hm
      obtain ⟨k'', o', us, rfl⟩ := hshow.exists_node
      have hne := (hfit _ hu).2 hc
      rw [hasKind, (shows_node.mp hshow).1]
      simpa using hne

theorem Shows.ne_expand (hs : a.Shows (.node n) t) (ht : t.Closed) (hk : a.kind? n = some k) :
    k ≠ .expand := by
  obtain ⟨k', o, ts, rfl⟩ := hs.exists_node
  cases hk.symm.trans (shows_node.mp hs).1
  rintro rfl
  exact ht.unexpanded o ts rfl

/-- Nothing is wrong at a node if its kind may stay, it is no expansion below another node, and
no coercion directly below it is idle. -/
theorem offendersAt_eq_nil_iff (hk : a.kind? n = some k) :
    a.offendersAt n = [] ↔ k.isEliminated = false ∧ (n ≠ a.root → k ≠ .expand) ∧
      (k.consumesBoolean = true → ∀ m, .node m ∈ a.children n →
        a.hasKind m .coerceB = false) := by
  have hown : (if k.isEliminated || (k == .expand && n != a.root) then [(n, k)] else []) = [] ↔
      k.isEliminated = false ∧ (n ≠ a.root → k ≠ .expand) := by
    cases k.isEliminated with
    | true => simp
    | false => by_cases hroot : n = a.root <;> simp [hroot]
  have hidle : (if k.consumesBoolean then
        ((a.childNodes n).filter (a.hasKind · .coerceB)).map fun c => (c, Kind.coerceB)
      else []) = [] ↔ (k.consumesBoolean = true → ∀ m, .node m ∈ a.children n →
        a.hasKind m .coerceB = false) := by
    cases k.consumesBoolean with
    | true => simp [List.filter_eq_nil_iff, childNodes, mem_nodesOf]
    | false => simp
  simp only [offendersAt, hk, List.append_eq_nil_iff, hown, hidle, and_assoc]

theorem offenders_eq_nil (h : a.WellFormed) (hs : a.Shows (.node a.root) t) (ht : t.Canonical) :
    a.offenders = [] := by
  refine List.flatMap_eq_nil_iff.mpr fun m hm => ?_
  obtain ⟨u, hu, hcan, hroot⟩ := hs.canonical_of_below h ht (below_of_mem_nodesBelow h hm)
  obtain ⟨s, hslot⟩ := exists_slot? hu.lt_size
  have hk := kind?_eq hslot
  obtain ⟨helim, hco⟩ := hu.kinds_of_canonical hcan hk
  refine (offendersAt_eq_nil_iff hk).mpr ⟨helim, fun hne => ?_, hco⟩
  rcases hroot with rfl | hclosed
  · exact absurd rfl hne
  · exact hu.ne_expand hclosed hk

theorem self_mem_nodesBelow {depth : Nat} (hd : 0 < depth) (n : NodeId) :
    n ∈ a.nodesBelow depth n := by
  obtain ⟨d, rfl⟩ := Nat.exists_eq_add_one_of_ne_zero (Nat.ne_of_gt hd)
  exact List.mem_cons_self

/-- Where nothing is wrong at any node of a tree, the tree is canonical. -/
theorem Shows.canonical_of_offendersAt (h : a.WellFormed) {depth : Nat} (hs : a.Shows (.node n) t)
    (hd : t.height ≤ depth) (hall : ∀ m ∈ a.nodesBelow depth n, a.offendersAt m = []) :
    t.Canonical := by
  induction t using Tree.induction generalizing n depth with
  | leaf l => exact .leaf l
  | node k o ts ih =>
      obtain ⟨depth, rfl⟩ : ∃ d, depth = d + 1 := by
        cases depth with
        | zero => exact absurd hd (by simp [Tree.height])
        | succ d => exact ⟨d, rfl⟩
      obtain ⟨hk, -, hts⟩ := shows_node.mp hs
      obtain ⟨helim, -, hidle⟩ := (offendersAt_eq_nil_iff hk).mp (hall n List.mem_cons_self)
      have hchild : ∀ u ∈ ts, u.Fits k ∧ u.Canonical := by
        intro u hu
        obtain ⟨c, hc, hcu⟩ := exists_of_mem_right hts hu
        cases c with
        | leaf l =>
            cases shows_leaf.mp hcu
            exact ⟨trivial, .leaf l⟩
        | node m =>
            have hle : u.height ≤ depth :=
              Nat.le_of_lt_succ (Nat.lt_of_lt_of_le (Tree.height_lt_of_mem hu) hd)
            have hbelow : ∀ q ∈ a.nodesBelow depth m, a.offendersAt q = [] := fun q hq =>
              hall q (List.mem_cons_of_mem _ (List.mem_flatMap.mpr ⟨m, mem_nodesOf.mpr hc, hq⟩))
            refine ⟨?_, ih u hu hcu hle hbelow⟩
            obtain ⟨k', o', us, rfl⟩ := hcu.exists_node
            have hk' := (shows_node.mp hcu).1
            have hpos : 0 < depth := Nat.lt_of_lt_of_le (Nat.succ_pos _) hle
            have hnil := hbelow m (self_mem_nodesBelow hpos m)
            refine ⟨((offendersAt_eq_nil_iff hk').mp hnil).2.1 ?_, fun hconsumes => ?_⟩
            · exact h.ne_root (h.mem_children_iff.mp hc)
            · have hno := hidle hconsumes m hc
              rw [hasKind, hk'] at hno
              simpa using hno
      exact .node o helim (fun u hu => (hchild u hu).1) fun u hu => (hchild u hu).2

/-! ### Walking over a canonical tree -/

theorem result_spliceExpanded_of_closed (hn : n < a.size)
    (hall : ∀ x ∈ a.children n, a.isExpansion x = false) :
    (a.spliceExpanded n).result = .ok (a, false) := by
  obtain ⟨s, hs⟩ := exists_slot? hn
  have hany : s.children.any a.isExpansion = false := by
    rw [← children_eq hs, List.any_eq_false]
    intro x hx
    rw [hall x hx]
    exact Bool.false_ne_true
  simp only [spliceExpanded, slot_eq hs, Traced.result_bind, Traced.result_liftM, ok_bind, hany,
    Bool.false_eq_true, if_false, Traced.result_pure]

/-- A loop each of whose rounds gives the state back gives the state back. -/
theorem result_foldlM_same {α : Type} {f : Arena → α → Traced Arena} {xs : List α}
    (h : ∀ x ∈ xs, (f a x).result = .ok a) : (xs.foldlM f a).result = .ok a := by
  induction xs with
  | nil => rfl
  | cons x xs ih =>
      rw [List.foldlM_cons, Traced.result_bind, h x List.mem_cons_self, ok_bind]
      exact ih fun y hy => h y (List.mem_cons_of_mem _ hy)

theorem result_stripCoercions_same (slack : Nat)
    (hall : ∀ m, .node m ∈ a.children n → a.hasKind m .coerceB = false) :
    (Normalize.stripCoercions slack a n).result = .ok a := by
  refine result_foldlM_same fun i hi => ?_
  obtain ⟨x, hx⟩ : ∃ x, a.child? n i = some x :=
    ⟨_, List.getElem?_eq_getElem (List.mem_range.mp hi)⟩
  rw [Nat.add_right_comm]
  cases x with
  | leaf l => exact result_stripAt_leaf hx
  | node m => exact result_stripAt_other hx (hall m (List.mem_of_getElem? hx))

theorem result_handle_same (slack : Nat) (hs : a.Shows (.node n) t) (ht : t.Canonical)
    (hk : a.kind? n = some k) : (Normalize.handle slack a n k).result = .ok a := by
  obtain ⟨helim, hco⟩ := hs.kinds_of_canonical ht hk
  cases k with
  | and | or | jumpIf => exact result_stripCoercions_same slack (hco rfl)
  | nop | expand | callProperty | callSuper | ternary | coerceB => rfl
  | compare _ => rfl
  | other _ => rfl
  | _ => cases helim

/-- **A visit to a canonical tree changes nothing**, not even slots outside the tree. -/
theorem result_visit_of_canonical (slack : Nat) {depth : Nat} (hs : a.Shows (.node n) t)
    (ht : t.Canonical) (hd : t.height ≤ depth) :
    (Walk.visit (Normalize.handle slack) depth a n).result = .ok a := by
  induction t using Tree.induction generalizing n depth with
  | leaf l => exact absurd hs (by simp [Shows])
  | node k o ts ih =>
      obtain ⟨depth, rfl⟩ : ∃ d, depth = d + 1 := by
        cases depth with
        | zero => exact absurd hd (by simp [Tree.height])
        | succ d => exact ⟨d, rfl⟩
      obtain ⟨hk, -, hts⟩ := shows_node.mp hs
      have hchild : ∀ m, .node m ∈ a.children n → ∃ u ∈ ts, a.Shows (.node m) u := fun m hm =>
        exists_of_mem_left hts hm
      have hloop : ((a.childNodes n).foldlM (fun a x => if a.parent? x = some n then
          Walk.visit (Normalize.handle slack) depth a x else pure a) a).result = .ok a := by
        refine result_foldlM_same fun m hm => ?_
        split_ifs
        · obtain ⟨u, hu, hshow⟩ := hchild m (mem_nodesOf.mp hm)
          refine ih u hu hshow (ht.closed_of_mem hu).canonical ?_
          exact Nat.le_of_lt_succ (Nat.lt_of_lt_of_le (Tree.height_lt_of_mem hu) hd)
        · rfl
      have hsplice : (a.spliceExpanded n).result = .ok (a, false) := by
        refine result_spliceExpanded_of_closed hs.lt_size fun x hx => ?_
        cases x with
        | leaf l => rfl
        | node m =>
            obtain ⟨u, hu, hshow⟩ := hchild m hx
            obtain ⟨s, hslot⟩ := exists_slot? hshow.lt_size
            have hne := hshow.ne_expand (ht.closed_of_mem hu) (kind?_eq hslot)
            rw [isExpansion, hasKind, kind?_eq hslot]
            simpa using hne
      obtain ⟨s, hslot⟩ := exists_slot? hs.lt_size
      rw [result_visit, hloop, ok_bind, hsplice, ok_bind, slot_eq hslot, ok_bind]
      exact result_handle_same slack hs ht (kind?_eq hslot)

/-! ### Normalising -/

/-- What normalising gives, seen as a tree. -/
theorem exists_canonical_of_normalize (h : a.WellFormed) (hb : a.normalize.result = .ok b) :
    b.WellFormed ∧ ∃ t, b.Shows (.node b.root) t ∧ t.Canonical := by
  obtain ⟨t, hs, -⟩ := exists_shows h h.root_lt
  have hsim := normalize_simulates h hs
  rw [hb] at hsim
  obtain ⟨t', ht', hw, hshow⟩ := hsim.exists_of_ok
  refine ⟨hw.wellFormed, t', ?_, Tree.canonical_normalize ht'⟩
  rw [hw.root]
  exact hshow

theorem result_normalize_of_canonical (h : a.WellFormed) (hs : a.Shows (.node a.root) t)
    (ht : t.Canonical) : a.normalize.result = .ok a := by
  have hdepth : t.height ≤ a.walkBound :=
    Nat.le_trans (hs.height_le h) (Nat.le_of_lt (size_lt_walkBound a))
  simp only [normalize, Walk.run, Traced.result_bind, Traced.result_emit, ok_bind]
  exact result_visit_of_canonical a.walkBound hs ht hdepth

/-- **Normalising reaches a normal form and stays there.**  Arenas that are read are well-formed.
If a well-formed arena can be normalised, the check of the outcome finds nothing: no node at or
below the root is of an eliminated kind, none but the root is an expansion, and no coercion is
the child of a node that takes its operands for their truth.  Normalising once more gives the very
same arena back, with all its slots. -/
theorem normalize_reaches_fixed_point :
    (∀ src a, read src = .ok a → a.WellFormed) ∧
      ∀ a b : Arena, a.WellFormed → a.normalize.result = .ok b →
        b.check.result = .ok [] ∧
        (∀ n k, b.Below n b.root → b.kind? n = some k →
          k.isEliminated = false ∧ (n ≠ b.root → k ≠ .expand) ∧
          (k.consumesBoolean = true → ∀ m, .node m ∈ b.children n →
            b.hasKind m .coerceB = false)) ∧
        b.normalize.result = .ok b := by
  refine ⟨fun src a hr => wellFormed_read hr, fun a b h hb => ?_⟩
  obtain ⟨hwf, t, hs, ht⟩ := exists_canonical_of_normalize h hb
  refine ⟨congrArg Except.ok (offenders_eq_nil hwf hs ht), fun n k hn hk => ?_,
    result_normalize_of_canonical hwf hs ht⟩
  obtain ⟨u, hu, hcan, hroot⟩ := hs.canonical_of_below hwf ht hn
  obtain ⟨helim, hco⟩ := hu.kinds_of_canonical hcan hk
  refine ⟨helim, fun hne => ?_, hco⟩
  rcases hroot with rfl | hclosed
  · exact absurd rfl hne
  · exact hu.ne_expand hclosed hk

/-- Coercions over a discarded value, a choice on a reversed comparison, and a hint. -/
theorem normalize_reaches_fixed_point_conjunction :
    ∃ a b : Arena,
      read "(and (coerce_b (coerce_b (pop 1))) (ternary_if nil (if_nlt 1 2 3 4)) (kill 3))"
        = .ok a ∧ a.WellFormed ∧ a.normalize.result = .ok b ∧ b.check.result = .ok [] ∧
      b.normalize.result = .ok b := by
  have hrun : ∀ src k o ts t', read src = .ok (ofTree (.node k o ts)) →
      (Tree.node k o ts).normalize = .ok t' → ∃ a b : Arena, read src = .ok a ∧ a.WellFormed ∧
        a.normalize.result = .ok b ∧ b.check.result = .ok [] ∧ b.normalize.result = .ok b := by
    intro src k o ts t' hread ht'
    have hwf := normalize_reaches_fixed_point.1 _ _ hread
    obtain ⟨b, hb⟩ := exists_normalize_ofTree ht'
    obtain ⟨hcheck, -, hagain⟩ := normalize_reaches_fixed_point.2 _ b hwf hb
    exact ⟨_, b, hread, hwf, hb, hcheck, hagain⟩
  exact hrun _ .and none
    [.plain .coerceB [.plain .coerceB [.plain .pop [.leaf (.int 1)]]],
     .plain .ternaryIf [.leaf .nil, .plain (.branch .nlt)
       [.leaf (.int 1), .leaf (.int 2), .leaf (.int 3), .leaf (.int 4)]],
     .plain .kill [.leaf (.int 3)]] _ rfl rfl

/-- **The check and the normaliser agree on what is canonical.**  On a well-formed arena the check
finds nothing exactly if normalising comes to an end and gives the very same arena back: all
its slots, those outside the tree included, their number, and the root. -/
theorem check_finds_nothing_iff_normalize_idle (h : a.WellFormed) :
    (a.check.result = .ok [] ↔ a.isCanonical = true) ∧
      (a.isCanonical = true ↔ a.normalize.result = .ok a) := by
  have hcheck : a.check.result = .ok [] ↔ a.offenders = [] := by
    rw [check, Except.ok.injEq]
  refine ⟨by rw [hcheck, isCanonical, List.isEmpty_iff], ?_⟩
  rw [isCanonical, List.isEmpty_iff]
  constructor
  · intro hnone
    obtain ⟨t, hs, -⟩ := exists_shows h h.root_lt
    have hall : ∀ m ∈ a.descendants, a.offendersAt m = [] := List.flatMap_eq_nil_iff.mp hnone
    have hcan := hs.canonical_of_offendersAt h (Nat.le_succ_of_le (hs.height_le h)) hall
    exact result_normalize_of_canonical h hs hcan
  · intro hsame
    obtain ⟨-, t, hs, hcan⟩ := exists_canonical_of_normalize h hsame
    exact offenders_eq_nil h hs hcan

/-- An expansion at the top is left alone and so is a coercion that nobody takes for its truth;
below another node the same expansion is an offender, and normalising takes it apart. -/
theorem check_finds_nothing_iff_normalize_idle_expansion :
    ∃ a b : Arena, read "(expand (not (coerce_b 1)) (nop))" = .ok a ∧
      a.WellFormed ∧ a.check.result = .ok [] ∧ a.normalize.result = .ok a ∧
      read "(block (expand (not (coerce_b 1)) (nop)))" = .ok b ∧
      b.WellFormed ∧ b.check.result = .ok [(4, .expand)] ∧ b.normalize.result ≠ .ok b := by
  have hidle : ∀ t, (ofTree t).offenders = [] → (ofTree t).normalize.result = .ok (ofTree t) := by
    intro t hnone
    obtain ⟨hcheck, hnormal⟩ := check_finds_nothing_iff_normalize_idle (wellFormed_ofTree t)
    exact hnormal.mp (hcheck.mp (congrArg Except.ok hnone))
  have hbusy : ∀ t o os, (ofTree t).offenders = o :: os →
      (ofTree t).normalize.result ≠ .ok (ofTree t) := by
    intro t o os hsome hsame
    obtain ⟨hcheck, hnormal⟩ := check_finds_nothing_iff_normalize_idle (wellFormed_ofTree t)
    have hnone := Except.ok.inj (hcheck.mpr (hnormal.mpr hsame))
    rw [hsome] at hnone
    cases hnone
  let t : Tree := .plain .expand
    [.plain (.other "not") [.plain .coerceB [.leaf (.int 1)]], .plain .nop []]
  exact ⟨ofTree t, ofTree (.plain (.other "block") [t]), rfl, wellFormed_ofTree _, by decide,
    hidle t (by decide), rfl, wellFormed_ofTree _, by decide,
    hbusy _ (4, .expand) [] (by decide)⟩

end Arena

end Unstack
