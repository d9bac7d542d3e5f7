import Mathlib.Data.List.Flatten
import Mathlib.Data.List.Infix
import Mathlib.Data.List.Nodup
import Unstack.Pipeline.Stage
import Unstack.Proofs.Walk.Order

/-! # What a check lists, and in which order

A check goes through a tree in pre-order.  It notices an eliminated kind or an expansion when it is
at the node itself, but an idle coercion already when it is at the boolean consumer above it.

* **What is listed.**  The nodes that `Arena.offends` names, each of them once and with its kind
  (`mem_offenders_iff`, `nodup_offenders`).
* **In which order.**  By the places where they are noticed, `Arena.noticedAt`, and in pre-order
  among those noticed at the same place (`pairwise_offenders`).
* **When this is pre-order.**  If nothing else is found between a consumer and an idle coercion
  below it (`offenders_eq_filter_iff`). -/

namespace Unstack

namespace Arena

variable {a : Arena} {m n p c : NodeId} {k : Kind} {t : Tree}

/-! ### Offenders one by one -/

/-- Whether a node takes its operands for their truth. -/
def consumes (a : Arena) (p : NodeId) : Bool := (a.kind? p).any Kind.consumesBoolean

/-- Whether the kind of a node must not be there. -/
def misfit (a : Arena) (n : NodeId) : Bool :=
  (a.kind? n).any fun k => k.isEliminated || (k == .expand && n != a.root)

/-- Whether a node is a coercion whose parent takes it for its truth anyway. -/
def idle (a : Arena) (n : NodeId) : Bool := a.hasKind n .coerceB && (a.parent? n).any a.consumes

/-- Whether a node keeps the tree from being canonical. -/
def offends (a : Arena) (n : NodeId) : Bool := a.misfit n || a.idle n

/-- The node at which a check notices an offender. -/
def noticedAt (a : Arena) (n : NodeId) : NodeId :=
  if a.idle n then (a.parent? n).getD n else n

theorem exists_parent_of_idle (hn : a.idle n = true) : ∃ p, a.parent? n = some p := by
  obtain ⟨p, hp, -⟩ := (Option.any_eq_true _ _).mp (Bool.and_eq_true_iff.mp hn).2
  exact ⟨p, hp⟩

theorem noticedAt_of_idle (hp : a.parent? n = some p) (hn : a.idle n = true) :
    a.noticedAt n = p := by
  rw [noticedAt, if_pos hn, hp]
  rfl

/-- A coercion is no misfit. -/
theorem idle_eq_false_of_misfit (h : a.misfit n = true) : a.idle n = false := by
  obtain ⟨k, hk, hmisfit⟩ := (Option.any_eq_true _ _).mp h
  have hne : (some k == some Kind.coerceB) = false := by
    rw [beq_eq_false_iff_ne]
    rintro ⟨⟩
    cases hmisfit
  rw [idle, hasKind, hk, hne]
  rfl

theorem noticedAt_of_misfit (h : a.misfit n = true) : a.noticedAt n = n := by
  rw [noticedAt, idle_eq_false_of_misfit h]
  rfl

/-- What is noticed at a node: itself, and then idle coercions among its children. -/
def noticed (a : Arena) (p : NodeId) : List NodeId :=
  (if a.misfit p then [p] else []) ++ (a.childNodes p).filter a.idle

theorem map_fst_offendersAt (h : a.WellFormed) (p : NodeId) :
    (a.offendersAt p).map Prod.fst = a.noticed p := by
  have hchild : ∀ c ∈ a.childNodes p,
      a.idle c = (a.hasKind c .coerceB && a.consumes p) := by
    intro c hc
    rw [idle, h.mem_children_iff.mp (mem_nodesOf.mp hc)]
    rfl
  rw [noticed, List.filter_congr hchild, offendersAt, misfit, consumes]
  cases hk : a.kind? p with
  | none =>
      have hnone : a.slot? p = none := by
        rwa [kind?, Option.map_eq_none_iff] at hk
      simp [childNodes, children, hnone, nodesOf]
  | some k =>
      simp only [Option.any_some, List.map_append]
      congr 1
      · split_ifs <;> rfl
      · cases k.consumesBoolean with
        | true => simp [Function.comp_def]
        | false => simp

theorem kind?_of_mem_offendersAt {o : Offender} (ho : o ∈ a.offendersAt p) :
    a.kind? o.1 = some o.2 := by
  unfold offendersAt at ho
  cases hk : a.kind? p with
  | none =>
      rw [hk] at ho
      cases ho
  | some k =>
      rw [hk] at ho
      rcases List.mem_append.mp ho with ho | ho
      · split_ifs at ho
        · rw [List.mem_singleton.mp ho]
          exact hk
        · cases ho
      · split_ifs at ho
        · obtain ⟨c, hc, rfl⟩ := List.mem_map.mp ho
          exact beq_iff_eq.mp (List.mem_filter.mp hc).2
        · cases ho

theorem map_fst_offenders (h : a.WellFormed) :
    a.offenders.map Prod.fst = a.descendants.flatMap a.noticed := by
  rw [offenders, List.map_flatMap]
  exact List.flatMap_congr fun p _ => map_fst_offendersAt h p

theorem noticedAt_of_mem_noticed (h : a.WellFormed) (hn : n ∈ a.noticed p) : a.noticedAt n = p := by
  rcases List.mem_append.mp hn with hn | hn
  · split_ifs at hn with hmisfit
    · rw [List.mem_singleton.mp hn]
      exact noticedAt_of_misfit hmisfit
    · cases hn
  · obtain ⟨hc, hidle⟩ := List.mem_filter.mp hn
    exact noticedAt_of_idle (h.mem_children_iff.mp (mem_nodesOf.mp hc)) hidle

theorem mem_noticed_iff (h : a.WellFormed) :
    n ∈ a.noticed p ↔ a.offends n = true ∧ a.noticedAt n = p := by
  constructor
  · intro hn
    refine ⟨?_, noticedAt_of_mem_noticed h hn⟩
    rw [offends, Bool.or_eq_true]
    rcases List.mem_append.mp hn with hn | hn
    · split_ifs at hn with hmisfit
      · exact .inl (List.mem_singleton.mp hn ▸ hmisfit)
      · cases hn
    · exact .inr (List.mem_filter.mp hn).2
  · rintro ⟨hoff, rfl⟩
    rw [offends, Bool.or_eq_true] at hoff
    rw [noticed, List.mem_append]
    rcases hoff with hmisfit | hidle
    · left
      rw [noticedAt_of_misfit hmisfit, if_pos hmisfit]
      exact List.mem_singleton_self n
    · right
      obtain ⟨p, hp⟩ := exists_parent_of_idle hidle
      rw [noticedAt_of_idle hp hidle]
      exact List.mem_filter.mpr ⟨mem_nodesOf.mpr (h.mem_children_iff.mpr hp), hidle⟩

/-! ### Pre-order -/

/-- One node comes before another one when the nodes of the tree are listed in pre-order. -/
def Precedes (a : Arena) (m n : NodeId) : Prop :=
  a.descendants.idxOf m < a.descendants.idxOf n

theorem Precedes.mem_descendants (h : a.Precedes m n) : m ∈ a.descendants :=
  List.idxOf_lt_length_iff.mp (Nat.lt_of_lt_of_le h List.idxOf_le_length)

theorem Precedes.trans (h : a.Precedes m n) (h' : a.Precedes n p) : a.Precedes m p :=
  Nat.lt_trans h h'

theorem Precedes.not_precedes (h : a.Precedes m n) : ¬a.Precedes n m := Nat.lt_asymm h

theorem not_precedes_self (n : NodeId) : ¬a.Precedes n n := Nat.lt_irrefl _

theorem precedes_or_eq_or_precedes (hm : m ∈ a.descendants) :
    a.Precedes m n ∨ m = n ∨ a.Precedes n m := by
  rcases Nat.lt_trichotomy (a.descendants.idxOf m) (a.descendants.idxOf n) with h | h | h
  · exact .inl h
  · exact .inr (.inl ((List.idxOf_inj hm).mp h))
  · exact .inr (.inr h)

theorem nodup_descendants (h : a.WellFormed) : a.descendants.Nodup :=
  (perm_postorder a).nodup_iff.mp (nodup_postorder h)

theorem pairwise_precedes (h : a.WellFormed) : a.descendants.Pairwise a.Precedes := by
  rw [List.pairwise_iff_getElem]
  intro i j hi hj hij
  rwa [Precedes, (nodup_descendants h).idxOf_getElem, (nodup_descendants h).idxOf_getElem]

/-- The nodes at and below a node stand together in the list for any node above it. -/
theorem exists_infix_nodesBelow {depth : Nat} (hs : a.Shows (.node n) t) (hd : t.height ≤ depth)
    (hp : p ∈ a.nodesBelow depth n) :
    ∃ u d, a.Shows (.node p) u ∧ u.height ≤ d ∧ a.nodesBelow d p <:+: a.nodesBelow depth n := by
  induction t using Tree.induction generalizing n depth with
  | leaf l => exact absurd hs (by simp [Shows])
  | node k o ts ih =>
      by_cases hpn : p = n
      · subst hpn
        exact ⟨_, depth, hs, hd, List.infix_rfl⟩
      rw [Tree.height] at hd
      obtain ⟨depth, rfl⟩ : ∃ d, depth = d + 1 := ⟨depth - 1, by omega⟩
      rw [nodesBelow] at hp ⊢
      obtain ⟨x, hx, hpx⟩ := List.mem_flatMap.mp (List.mem_of_ne_of_mem hpn hp)
      obtain ⟨u, hu, hxu⟩ := exists_of_mem_left (shows_node.mp hs).2.2 (mem_nodesOf.mp hx)
      have hle := Tree.height_le_heights hu
      obtain ⟨v, d, hv, hvd, hinfix⟩ := ih u hu hxu (by omega) hpx
      refine ⟨v, d, hv, hvd, hinfix.trans (List.IsInfix.trans ?_ (List.suffix_cons _ _).isInfix)⟩
      exact List.infix_flatMap_of_mem hx _

/-- In front of everything else below it a node has its children below it, in their order. -/
theorem sublist_nodesBelow {depth : Nat} (hs : a.Shows (.node n) t) (hd : t.height ≤ depth) :
    (n :: a.childNodes n).Sublist (a.nodesBelow depth n) := by
  obtain ⟨k, o, ts, rfl⟩ := hs.exists_node
  rw [Tree.height] at hd
  obtain ⟨depth, rfl⟩ : ∃ d, depth = d + 1 := ⟨depth - 1, by omega⟩
  have hfirst : ∀ x ∈ a.childNodes n, [x].Sublist (a.nodesBelow depth x) := by
    intro x hx
    obtain ⟨u, hu, hxu⟩ := exists_of_mem_left (shows_node.mp hs).2.2 (mem_nodesOf.mp hx)
    obtain ⟨k', o', us, rfl⟩ := hxu.exists_node
    have hle := Tree.height_le_heights hu
    rw [Tree.height] at hle
    exact List.singleton_sublist.mpr (self_mem_nodesBelow (by omega) x)
  have hchildren := List.Sublist.flatMap_right _ hfirst
  rw [List.flatMap_singleton'] at hchildren
  rw [nodesBelow]
  exact hchildren.cons_cons n

section descendants

variable (h : a.WellFormed) (hp : p ∈ a.descendants)

include h hp

/-- Where a node stands among all nodes of the tree: what is below it follows, its children in
their order. -/
theorem exists_split_descendants :
    ∃ before below after, a.descendants = before ++ (p :: below) ++ after ∧
      (a.childNodes p).Sublist below ∧ ∀ m, m ∈ p :: below ↔ a.Below m p := by
  obtain ⟨t, hs, -⟩ := exists_shows h h.root_lt
  obtain ⟨u, d, hu, hd, before, after, hsplit⟩ :=
    exists_infix_nodesBelow hs (Nat.le_succ_of_le (hs.height_le h)) hp
  have hmem : ∀ m, m ∈ a.nodesBelow d p ↔ a.Below m p := fun m =>
    ⟨below_of_mem_nodesBelow h, mem_nodesBelow_of_below h hu hd⟩
  have hsub := sublist_nodesBelow hu hd
  obtain ⟨d, rfl⟩ : ∃ e, d = e + 1 := by
    obtain ⟨k, o, ts, rfl⟩ := hu.exists_node
    rw [Tree.height] at hd
    exact ⟨d - 1, by omega⟩
  rw [nodesBelow] at hsplit hmem hsub
  exact ⟨before, _, after, hsplit.symm, List.cons_sublist_cons.mp hsub, hmem⟩

theorem sublist_descendants : (p :: a.childNodes p).Sublist a.descendants := by
  obtain ⟨before, below, after, hsplit, hsub, -⟩ := exists_split_descendants h hp
  rw [hsplit]
  exact (hsub.cons_cons p).trans
    ((List.sublist_append_right _ _).trans (List.sublist_append_left _ _))

theorem precedes_of_parent (hm : a.parent? m = some p) : a.Precedes p m := by
  have hmem := mem_nodesOf.mpr (h.mem_children_iff.mpr hm)
  exact List.rel_of_pairwise_cons ((pairwise_precedes h).sublist (sublist_descendants h hp)) hmem

/-- Nothing comes before a node that stands below it. -/
theorem not_precedes_of_below (hm : a.Below m p) : ¬a.Precedes m p := by
  obtain ⟨before, below, after, hsplit, -, hmem⟩ := exists_split_descendants h hp
  have hpair := pairwise_precedes h
  rw [hsplit, List.pairwise_append, List.pairwise_append] at hpair
  rcases List.mem_cons.mp ((hmem m).mpr hm) with rfl | hm
  · exact not_precedes_self m
  · exact (List.rel_of_pairwise_cons hpair.1.2.1 hm).not_precedes

/-- What comes between a node and a node below it stands below it as well. -/
theorem below_of_between (hpm : a.Precedes p m) (hmc : a.Precedes m c) (hc : a.Below c p) :
    a.Below m p := by
  obtain ⟨before, below, after, hsplit, -, hmem⟩ := exists_split_descendants h hp
  have hpair := pairwise_precedes h
  have hm := hmc.mem_descendants
  rw [hsplit, List.pairwise_append, List.pairwise_append] at hpair
  rw [hsplit, List.mem_append, List.mem_append] at hm
  obtain ⟨⟨-, -, hbefore⟩, -, hafter⟩ := hpair
  rcases hm with (hm | hm) | hm
  · exact absurd (hbefore m hm p List.mem_cons_self) hpm.not_precedes
  · exact (hmem m).mp hm
  · exact absurd (hafter c (List.mem_append_right _ ((hmem c).mpr hc)) m hm) hmc.not_precedes

end descendants

/-! ### The order of a check -/

/-- One node is noticed before another one, or at the same place and in front of it. -/
def NoticedBefore (a : Arena) (m n : NodeId) : Prop :=
  a.Precedes (a.noticedAt m) (a.noticedAt n) ∨ a.noticedAt m = a.noticedAt n ∧ a.Precedes m n

theorem NoticedBefore.not_noticedBefore (h : a.NoticedBefore m n) : ¬a.NoticedBefore n m := by
  rintro (h' | ⟨he', h'⟩) <;> rcases h with h | ⟨he, h⟩
  · exact h.not_precedes h'
  · rw [he] at h'
    exact not_precedes_self _ h'
  · rw [he'] at h
    exact not_precedes_self _ h
  · exact h.not_precedes h'

/-- A list that is sorted in two ways: what one order says of two members, the other one says. -/
theorem rel_of_pairwise_of_rel {R S : NodeId → NodeId → Prop} {ids : List NodeId}
    (hR : ids.Pairwise R) (hS : ids.Pairwise S) (hasymm : ∀ m n, S m n → ¬S n m) (hm : m ∈ ids)
    (hn : n ∈ ids) (hmn : S m n) : R m n := by
  obtain ⟨i, hi, rfl⟩ := List.mem_iff_getElem.mp hm
  obtain ⟨j, hj, rfl⟩ := List.mem_iff_getElem.mp hn
  rcases Nat.lt_trichotomy i j with hij | rfl | hji
  · exact List.pairwise_iff_getElem.mp hR i j hi hj hij
  · exact absurd hmn (hasymm _ _ hmn)
  · exact absurd (List.pairwise_iff_getElem.mp hS j i hj hi hji) (hasymm _ _ hmn)

theorem noticed_sublist (a : Arena) (p : NodeId) : (a.noticed p).Sublist (p :: a.childNodes p) := by
  rw [noticed]
  split_ifs
  · exact List.filter_sublist.cons_cons p
  · exact List.filter_sublist.cons p

section offenders

variable (h : a.WellFormed)

include h

/-- **The order of a check**: by the places where offenders are noticed, and at one place in
pre-order. -/
theorem pairwise_offenders : (a.offenders.map Prod.fst).Pairwise a.NoticedBefore := by
  rw [map_fst_offenders h, List.pairwise_flatMap]
  constructor
  · intro p hp
    have hsub := (noticed_sublist a p).trans (sublist_descendants h hp)
    refine ((pairwise_precedes h).sublist hsub).imp_of_mem fun hm hn hmn => .inr ⟨?_, hmn⟩
    rw [noticedAt_of_mem_noticed h hm, noticedAt_of_mem_noticed h hn]
  · refine (pairwise_precedes h).imp fun {p q} hpq m hm n hn => .inl ?_
    rwa [noticedAt_of_mem_noticed h hm, noticedAt_of_mem_noticed h hn]

theorem nodup_offenders : (a.offenders.map Prod.fst).Nodup :=
  (pairwise_offenders h).imp_of_mem fun {m n} _ _ hmn he => by
    subst he
    exact hmn.not_noticedBefore hmn

theorem noticedAt_mem_descendants (hn : n ∈ a.descendants) : a.noticedAt n ∈ a.descendants := by
  rw [noticedAt]
  split_ifs with hidle
  · cases hp : a.parent? n with
    | none => exact hn
    | some p =>
        rw [mem_descendants_iff h] at hn ⊢
        rcases hn.cases with rfl | ⟨q, hq, hroot⟩
        · rw [h.parent?_root] at hp
          cases hp
        · rw [hp] at hq
          cases hq
          exact hroot
  · exact hn

/-- **What a check lists** are the offenders among the nodes of the tree. -/
theorem mem_offenders_iff :
    n ∈ a.offenders.map Prod.fst ↔ n ∈ a.descendants ∧ a.offends n = true := by
  rw [map_fst_offenders h, List.mem_flatMap]
  constructor
  · rintro ⟨p, hp, hn⟩
    have hsub := (noticed_sublist a p).trans (sublist_descendants h hp)
    exact ⟨hsub.subset hn, ((mem_noticed_iff h).mp hn).1⟩
  · rintro ⟨hn, hoff⟩
    exact ⟨a.noticedAt n, noticedAt_mem_descendants h hn, (mem_noticed_iff h).mpr ⟨hoff, rfl⟩⟩

theorem perm_offenders : (a.offenders.map Prod.fst).Perm (a.descendants.filter a.offends) := by
  refine (List.perm_ext_iff_of_nodup (nodup_offenders h) ((nodup_descendants h).filter _)).mpr ?_
  intro n
  rw [mem_offenders_iff h, List.mem_filter]

/-- An offender is noticed at itself or before the walk comes to it. -/
theorem noticedAt_eq_or_precedes (hn : n ∈ a.descendants) :
    a.noticedAt n = n ∨ a.parent? n = some (a.noticedAt n) ∧ a.idle n = true ∧
      a.Precedes (a.noticedAt n) n := by
  by_cases hidle : a.idle n = true
  · obtain ⟨p, hp⟩ := exists_parent_of_idle hidle
    have hplace := noticedAt_of_idle hp hidle
    have hmem := noticedAt_mem_descendants h hn
    rw [hplace] at hmem ⊢
    exact .inr ⟨hp, hidle, precedes_of_parent h hmem hp⟩
  · rw [noticedAt, if_neg hidle]
    exact .inl rfl

/-- What precedes a node is noticed before the walk comes to it. -/
theorem noticedAt_precedes (hmn : a.Precedes m n) : a.Precedes (a.noticedAt m) n := by
  rcases noticedAt_eq_or_precedes h hmn.mem_descendants with hself | ⟨-, -, hbefore⟩
  · rwa [hself]
  · exact hbefore.trans hmn

/-- What stands between a consumer and an idle coercion below it, and is noticed in this order, is
another such coercion. -/
theorem idle_of_noticedBefore (hp : a.parent? c = some p) (hidle : a.idle c = true)
    (hpm : a.Precedes p m) (hmc : a.Precedes m c) (hnoticed : a.NoticedBefore m c) :
    a.parent? m = some p ∧ a.idle m = true := by
  rw [NoticedBefore, noticedAt_of_idle hp hidle] at hnoticed
  rcases noticedAt_eq_or_precedes h hmc.mem_descendants with hself | ⟨hq, hidlem, -⟩
  · rw [hself] at hnoticed
    rcases hnoticed with hmp | ⟨rfl, -⟩
    · exact absurd hmp hpm.not_precedes
    · exact absurd hpm (not_precedes_self m)
  · rcases hnoticed with hlt | ⟨heq, -⟩
    · -- then the parent of `m` stands in front of `p` and yet below it
      have hm := below_of_between h hpm.mem_descendants hpm hmc (below_of_parent hp)
      rcases hm.cases with rfl | ⟨q, hq', hqp⟩
      · exact absurd hpm (not_precedes_self m)
      · rw [hq] at hq'
        cases hq'
        exact absurd hlt (not_precedes_of_below h hpm.mem_descendants hqp)
    · exact ⟨heq ▸ hq, hidlem⟩

/-- Two nodes are noticed in pre-order, unless the first one stands between a consumer and an idle
coercion. -/
theorem noticedBefore_of_precedes (hn : n ∈ a.descendants) (hmn : a.Precedes m n)
    (hbetween : ∀ p, a.parent? n = some p → a.idle n = true → a.Precedes p m →
      a.parent? m = some p ∧ a.idle m = true) : a.NoticedBefore m n := by
  rcases noticedAt_eq_or_precedes h hn with hself | ⟨hp, hidle, -⟩
  · rw [NoticedBefore, hself]
    exact .inl (noticedAt_precedes h hmn)
  · have hmem := hmn.mem_descendants
    rcases precedes_or_eq_or_precedes hmem with hmp | hmp | hpm
    · exact .inl (noticedAt_precedes h hmp)
    · rcases noticedAt_eq_or_precedes h hmem with hself | ⟨-, -, hbefore⟩
      · exact .inr ⟨hself.trans hmp, hmn⟩
      · exact .inl (hmp ▸ hbefore)
    · obtain ⟨hq, hidlem⟩ := hbetween _ hp hidle hpm
      exact .inr ⟨noticedAt_of_idle hq hidlem, hmn⟩

/-- **When offenders are listed in pre-order**: if between a boolean consumer and an idle coercion
among its children there are no offenders but other such coercions. -/
theorem offenders_eq_filter_iff :
    a.offenders.map Prod.fst = a.descendants.filter a.offends ↔
      ∀ p c m, a.parent? c = some p → a.idle c = true → a.offends m = true → a.Precedes p m →
        a.Precedes m c → a.parent? m = some p ∧ a.idle m = true := by
  have hfilter : (a.descendants.filter a.offends).Pairwise a.Precedes :=
    (pairwise_precedes h).filter _
  constructor
  · intro he p c m hp hidle hoff hpm hmc
    have hc : c ∈ a.descendants :=
      (mem_descendants_iff h).mpr (.of_parent hp ((mem_descendants_iff h).mp hpm.mem_descendants))
    have hoffc : a.offends c = true := by rw [offends, hidle, Bool.or_true]
    have hsorted := pairwise_offenders h
    rw [he] at hsorted
    exact idle_of_noticedBefore h hp hidle hpm hmc
      (rel_of_pairwise_of_rel hsorted hfilter (fun _ _ hxy => hxy.not_precedes)
        (List.mem_filter.mpr ⟨hmc.mem_descendants, hoff⟩) (List.mem_filter.mpr ⟨hc, hoffc⟩) hmc)
  · intro hbetween
    -- both lists are sorted by where nodes are noticed, and they have the same members
    refine List.Perm.eq_of_pairwise (fun m n _ _ hmn hnm => absurd hnm hmn.not_noticedBefore)
      (pairwise_offenders h) (hfilter.imp_of_mem fun {m n} hm hn hmn => ?_) (perm_offenders h)
    exact noticedBefore_of_precedes h (List.mem_filter.mp hn).1 hmn fun p hp hidle hpm =>
      hbetween p n m hp hidle (List.mem_filter.mp hm).2 hpm hmn

/-- **What a check lists.**  Whatever was found before, a check of a well-formed arena finds the
offenders among the nodes of its tree, each of them once and with its kind: eliminated kinds,
expansions other than the root, and coercions directly below a boolean consumer.  They are listed
where they are noticed, a coercion with the consumer above it and everything else with itself.  This
is the pre-order of the tree exactly if between a consumer and a coercion below it there are no
offenders but other coercions directly below that consumer. -/
theorem check_lists_where_noticed (f : Findings) :
    (Observer.check.observe a f).result = .ok { f with offenders := a.offenders } ∧
      (∀ o ∈ a.offenders, a.kind? o.1 = some o.2) ∧ (a.offenders.map Prod.fst).Nodup ∧
      (∀ n, n ∈ a.offenders.map Prod.fst ↔ n ∈ a.descendants ∧ a.offends n = true) ∧
      (a.offenders.map Prod.fst).Pairwise a.NoticedBefore ∧
      (a.offenders.map Prod.fst = a.descendants.filter a.offends ↔
        ∀ p c m, a.parent? c = some p → a.idle c = true → a.offends m = true → a.Precedes p m →
          a.Precedes m c → a.parent? m = some p ∧ a.idle m = true) := by
  refine ⟨rfl, fun o ho => ?_, nodup_offenders h, fun n => mem_offenders_iff h,
    pairwise_offenders h, offenders_eq_filter_iff h⟩
  obtain ⟨p, -, hp⟩ := List.mem_flatMap.mp ho
  exact kind?_of_mem_offendersAt hp

end offenders

/-- Offenders of every sort, and a coercion that is none. -/
def leftoverTree : Tree :=
  .plain (.other "block")
    [.plain .pop [.text "x"],
      .plain .and
        [.plain .coerceB [.text "a"], .plain (.other "not") [.plain .coerceB [.text "b"]]],
      .plain .expand [.text "y"]]

/-- A finding about an earlier tree is forgotten.  The coercion below `not` is not found. -/
theorem check_lists_where_noticed_leftovers :
    (Observer.check.observe (ofTree leftoverTree) ⟨[(9, .pop)], [3]⟩).result
        = .ok ⟨(ofTree leftoverTree).offenders, [3]⟩ ∧
      (ofTree leftoverTree).offenders.map Prod.fst = [1, 2, 6] ∧
      (ofTree leftoverTree).NoticedBefore 1 2 ∧
      3 ∉ (ofTree leftoverTree).offenders.map Prod.fst := by
  obtain ⟨hresult, -, -, hmem, hsorted, -⟩ :=
    check_lists_where_noticed (wellFormed_ofTree leftoverTree) ⟨[(9, .pop)], [3]⟩
  have hlist : (ofTree leftoverTree).offenders.map Prod.fst = [1, 2, 6] := by decide +kernel
  have hkept : (ofTree leftoverTree).offends 3 = false := by decide +kernel
  refine ⟨hresult, hlist, ?_, fun hthree => ?_⟩
  · rw [hlist] at hsorted
    exact List.rel_of_pairwise_cons hsorted List.mem_cons_self
  · rw [hmem, hkept] at hthree
    cases hthree.2

/-- A coercion is listed in front of an offender that comes before it in pre-order. -/
theorem check_lists_out_of_preorder :
    ∃ a, read "(and (pop x) (coerce_b a))" = .ok a ∧ a.WellFormed ∧
      a.check.result = .ok [(2, .coerceB), (1, .pop)] ∧
      a.descendants.filter a.offends = [1, 2] := by
  have hread : read "(and (pop x) (coerce_b a))" = .ok (ofTree (.plain .and
      [.plain .pop [.text "x"], .plain .coerceB [.text "a"]])) := by
    decide +kernel
  exact ⟨_, hread, wellFormed_ofTree _, by decide +kernel, by decide +kernel⟩

end Arena

end Unstack
