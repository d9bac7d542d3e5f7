import Unstack.Proofs.Arena.Cutting
import Unstack.Proofs.Arena.Shows

/-! # Work at one node

A rule that deals with a node touches the nodes at and below it and adds new slots; everything
else stays as it is, field by field.  `Worked a b n` says that `b` comes from `a` that way.

* `Zone` is what may be touched, `Inner` the same without the node itself.  In any arena that
  work has led to, children of the zone are inner and parents of inner nodes are in the zone
  (`Worked.inner_iff`), so that edits within the zone never reach outside.
* Work can be continued (`Worked.trans`), and work at a node is work at its parent
  (`Worked.up`).
* Every edit of `Moving` and `Cutting` has its lemma `Worked.…`. -/

namespace Unstack.Arena

variable {a b c : Arena} {id n m p x : NodeId} {cs : List Child}

/-- What work at `n` may touch: the nodes at and below it, and new slots. -/
def Zone (a : Arena) (n m : NodeId) : Prop := a.Below m n ∨ a.size ≤ m

/-- The zone of `n` without `n` itself. -/
def Inner (a : Arena) (n m : NodeId) : Prop := a.Zone n m ∧ m ≠ n

theorem zone_self (a : Arena) (n : NodeId) : a.Zone n n := .inl (.refl a n)

/-- The arena `b` comes from `a` by work at the node `n`. -/
structure Worked (a b : Arena) (n : NodeId) : Prop where
  wellFormed : b.WellFormed
  root : b.root = a.root
  size_le : a.size ≤ b.size
  /-- Slots outside the zone are as before. -/
  outside : ∀ m, ¬ a.Zone n m → b.slot? m = a.slot? m
  /-- The node keeps its place. -/
  parent : b.parent? n = a.parent? n
  index : b.index n = a.index n

theorem Worked.refl (h : a.WellFormed) (n : NodeId) : Worked a a n :=
  ⟨h, rfl, Nat.le_refl _, fun _ _ => rfl, rfl, rfl⟩

/-! ### The zone is closed -/

section zone

variable (ha : a.WellFormed) (hw : Worked a b n)

include ha

theorem parent_not_zone (hp : a.parent? n = some p) : ¬ a.Zone n p := by
  rintro (h | h)
  · exact ha.not_below_parent hp h
  · exact absurd (ha.parent_lt hp) (Nat.not_lt.mpr h)

include hw

/-- A node whose parent is in the zone is inner, and conversely. -/
theorem Worked.inner_iff (hp : b.parent? x = some p) : a.Inner n x ↔ a.Zone n p := by
  constructor
  · rintro ⟨hx, hne⟩
    by_contra hz
    -- outside the zone the list of `p` is the old one, so `p` was the parent before
    have hc : .node x ∈ a.children p := by
      rw [← children_congr (hw.outside p hz)]
      exact hw.wellFormed.mem_children_iff.mpr hp
    have hpa := ha.mem_children_iff.mp hc
    rcases hx with hx | hx
    · rcases hx.cases with rfl | ⟨q, hq, hqn⟩
      · exact hne rfl
      · rw [hpa] at hq
        cases hq
        exact hz (.inl hqn)
    · exact absurd (lt_size_of_parent? hpa) (Nat.not_lt.mpr hx)
  · intro hz
    have hne : x ≠ n := by
      rintro rfl
      rw [hw.parent] at hp
      exact parent_not_zone ha hp hz
    refine ⟨?_, hne⟩
    by_contra hx
    have hpa : a.parent? x = some p := by
      rw [← parent?_congr (hw.outside x hx)]
      exact hp
    rcases hz with hz | hz
    · exact hx (.inl (.of_parent hpa hz))
    · exact absurd (ha.parent_lt hpa) (Nat.not_lt.mpr hz)

/-- What stands below the node after the work was below it before, or is new. -/
theorem Worked.zone_of_below (hb : b.Below m n) : a.Zone n m := by
  induction hb using Relation.ReflTransGen.head_induction_on with
  | refl => exact zone_self a n
  | head hstep _ ih => exact ((hw.inner_iff ha hstep).mpr ih).1

theorem Worked.trans (hw' : Worked b c n) : Worked a c n where
  wellFormed := hw'.wellFormed
  root := hw'.root.trans hw.root
  size_le := Nat.le_trans hw.size_le hw'.size_le
  outside m hm := by
    have hmb : ¬ b.Zone n m := by
      rintro (hb | hb)
      · exact hm (hw.zone_of_below ha hb)
      · exact hm (.inr (Nat.le_trans hw.size_le hb))
    rw [hw'.outside m hmb, hw.outside m hm]
  parent := hw'.parent.trans hw.parent
  index := hw'.index.trans hw.index

/-- Work at a node is work at its parent. -/
theorem Worked.up (hp : a.parent? n = some p) : Worked a b p := by
  have hslot : b.slot? p = a.slot? p := hw.outside p (parent_not_zone ha hp)
  refine ⟨hw.wellFormed, hw.root, hw.size_le, fun m hm => hw.outside m ?_, ?_, ?_⟩
  · rintro (hb | hb)
    · exact hm (.inl (hb.trans (below_of_parent hp)))
    · exact hm (.inr hb)
  · exact parent?_congr hslot
  · exact index_congr hslot

omit ha

theorem Worked.lt_size (hn : n < a.size) : n < b.size := Nat.lt_of_lt_of_le hn hw.size_le

/-- Work goes on as long as lists change in the zone only, and links of inner nodes only. -/
theorem Worked.step (hc : c.WellFormed) (hroot : c.root = b.root) (hsize : b.size ≤ c.size)
    (hkind : ∀ m, ¬ a.Zone n m → c.kind? m = b.kind? m)
    (hnote : ∀ m, ¬ a.Zone n m → c.note? m = b.note? m)
    (hlist : ∀ m, ¬ a.Zone n m → c.children m = b.children m)
    (hparent : ∀ m, ¬ a.Inner n m → c.parent? m = b.parent? m)
    (hindex : ∀ m, ¬ a.Inner n m → c.index m = b.index m) : Worked a c n := by
  have hin : ∀ m, ¬ a.Zone n m → ¬ a.Inner n m := fun m hm hi => hm hi.1
  have hself : ¬ a.Inner n n := fun hi => hi.2 rfl
  refine ⟨hc, hroot.trans hw.root, Nat.le_trans hw.size_le hsize, fun m hm => ?_, ?_, ?_⟩
  · have hma : m < b.size := by
      refine Nat.lt_of_lt_of_le ?_ hw.size_le
      exact Nat.lt_of_not_le fun h => hm (.inr h)
    rw [← hw.outside m hm]
    exact slot?_congr hma (Nat.lt_of_lt_of_le hma hsize) (hkind m hm) (hlist m hm)
      (hparent m (hin m hm)) (hindex m (hin m hm)) (hnote m hm)
  · rw [hparent n hself, hw.parent]
  · rw [hindex n hself, hw.index]

/-! ### Edits within the zone -/

theorem Worked.setKind (hid : a.Zone n id) (k : Kind) : Worked a (b.setKind id k) n := by
  refine hw.step (hw.wellFormed.setKind id k) rfl (by simp) (fun m hm => ?_) (by simp) (by simp)
    (by simp) (by simp)
  have hne : ¬ (m = id ∧ id < b.size) := by
    rintro ⟨rfl, _⟩
    exact hm hid
  rw [kind?_setKind, if_neg hne]

theorem Worked.push (k : Kind) (o : Option Note) : Worked a (b.push k o) n := by
  have hold : ∀ m, ¬ a.Zone n m → m ≠ b.size := by
    rintro m hm rfl
    exact hm (.inr hw.size_le)
  refine hw.step (hw.wellFormed.push k o) rfl (by simp) (fun m hm => ?_) (fun m hm => ?_) (by simp)
    (by simp) (by simp)
  · rw [kind?_push, if_neg (hold m hm)]
  · rw [note?_push, if_neg (hold m hm)]

include ha

theorem Worked.cut (hid : a.Zone n id) (k : Nat) : Worked a (b.cut id k) n := by
  refine hw.step (wellFormed_cut hw.wellFormed id k) (by simp) (by simp) (by simp) (by simp)
    (fun m hm => ?_) (fun m hm => ?_) (by simp)
  · have hne : m ≠ id := by
      rintro rfl
      exact hm hid
    rw [children_cut, if_neg hne]
  · rw [parent?_cut, if_neg]
    intro hc
    have hp := hw.wellFormed.mem_children_iff.mp (List.mem_of_mem_drop hc)
    exact hm ((hw.inner_iff ha hp).mpr hid)

theorem Worked.assign (hid : a.Zone n id) (hlt : id < b.size)
    (had : b.Adoptable id (nodesOf cs)) (hcs : ∀ x ∈ nodesOf cs, a.Inner n x) :
    Worked a (b.assign id cs) n := by
  have hwf := hw.wellFormed
  have hnot : ∀ m, ¬ a.Inner n m → Child.node m ∉ cs := fun m hm hc =>
    hm (hcs m (mem_nodesOf.mpr hc))
  refine hw.step (wellFormed_assign hwf hlt had) (by simp) (by simp) (by simp) (by simp)
    (fun m hm => ?_) (fun m hm => ?_) (fun m hm => ?_)
  · have hne : m ≠ id := by
      rintro rfl
      exact hm hid
    rw [children_assign hwf hlt, if_neg hne]
    refine without_eq_self fun x hx hc => ?_
    exact hm ((hw.inner_iff ha (hwf.mem_children_iff.mp hc)).mp (hcs x hx))
  · have hp : b.parent? m ≠ some id := fun hp => hm ((hw.inner_iff ha hp).mpr hid)
    rw [parent?_assign hwf hlt had, if_neg (hnot m hm), if_neg hp]
  · refine index_assign hwf hlt had (hnot m hm) fun x hx p _ hxp hmp => ?_
    exact hm ((hw.inner_iff ha hmp).mpr ((hw.inner_iff ha hxp).mp (hcs x hx)))

theorem Worked.extend (hid : a.Zone n id) (hlt : id < b.size)
    (had : b.Adoptable id (nodesOf cs)) (hcs : ∀ x ∈ nodesOf cs, a.Inner n x) :
    Worked a (b.extend id cs) n := by
  have hwf := hw.wellFormed
  have hnot : ∀ m, ¬ a.Inner n m → Child.node m ∉ cs := fun m hm hc =>
    hm (hcs m (mem_nodesOf.mpr hc))
  refine hw.step (wellFormed_extend hwf hlt had) (by simp) (by simp) (by simp) (by simp)
    (fun m hm => ?_) (fun m hm => ?_) (fun m hm => ?_)
  · have hne : m ≠ id := by
      rintro rfl
      exact hm hid
    rw [children_extend hwf hlt, if_neg hne]
    refine without_eq_self fun x hx hc => ?_
    exact hm ((hw.inner_iff ha (hwf.mem_children_iff.mp hc)).mp (hcs x hx))
  · rw [parent?_extend hwf hlt had, if_neg (hnot m hm)]
  · have hp : b.parent? m ≠ some id := fun hp => hm ((hw.inner_iff ha hp).mpr hid)
    refine index_extend hwf hlt had (hnot m hm) hp fun x hx p hxp hmp => ?_
    exact hm ((hw.inner_iff ha hmp).mpr ((hw.inner_iff ha hxp).mp (hcs x hx)))

theorem Worked.detach (hx : a.Inner n x) : Worked a (b.detach x) n := by
  have hwf := hw.wellFormed
  refine hw.step (wellFormed_detach hwf x) (by simp) (by simp) (by simp) (by simp)
    (fun m hm => ?_) (fun m hm => ?_) (fun m hm => ?_)
  · rw [children_detach hwf]
    refine without_eq_self fun y hy hc => ?_
    rw [List.mem_singleton] at hy
    subst hy
    exact hm ((hw.inner_iff ha (hwf.mem_children_iff.mp hc)).mp hx)
  · have hne : m ≠ x := by
      rintro rfl
      exact hm hx
    rw [parent?_detach hwf, if_neg hne]
  · refine index_detach hwf fun p hxp hmp => ?_
    exact hm ((hw.inner_iff ha hmp).mpr ((hw.inner_iff ha hxp).mp hx))

theorem Worked.overwrite {i : Nat} {old child : Child} (hid : a.Zone n id)
    (hold : b.child? id i = some old)
    (hchild : ∀ x, child = .node x → a.Inner n x ∧
      x < b.size ∧ b.parent? x = none ∧ x ≠ b.root ∧ ¬ b.Below id x) :
    Worked a (b.overwrite id i old child) n := by
  have hwf := hw.wellFormed
  have hlt : id < b.size := lt_size_of_child? hold
  have hnot : ∀ m, ¬ a.Inner n m → child ≠ .node m := fun m hm hc => hm (hchild m hc).1
  have hsize : ∀ x, child = .node x → x < b.size := fun x hx => (hchild x hx).2.1
  refine hw.step (wellFormed_overwrite hwf hold fun x hx => (hchild x hx).2) (by simp) (by simp)
    (by simp) (by simp) (fun m hm => ?_) (fun m hm => ?_) (fun m hm => ?_)
  · have hne : m ≠ id := by
      rintro rfl
      exact hm hid
    rw [children_overwrite b id i old child hlt, if_neg hne]
  · have hp : ¬ (old = .node m ∧ b.parent? m = some id) := fun e =>
      hm ((hw.inner_iff ha e.2).mpr hid)
    rw [parent?_overwrite b id i old child hsize, if_neg (hnot m hm), if_neg hp]
  · rw [index_overwrite b id i old child hsize, if_neg (hnot m hm)]

theorem Worked.splice (hid : a.Zone n id) (hlt : id < b.size) : Worked a (b.splice id) n := by
  have hwf := hw.wellFormed
  have hexp : ∀ e ∈ b.expansionsOf (b.children id), a.Inner n e := fun e he =>
    (hw.inner_iff ha ((mem_expansions_iff hwf).mp he).1).mpr hid
  have hspl : ∀ m, ¬ a.Inner n m → Child.node m ∉ (b.children id).flatMap b.contents := by
    intro m hm hc
    rcases (mem_spliced_iff hwf m).mp hc with ⟨hp, _⟩ | ⟨e, he, hp⟩
    · exact hm ((hw.inner_iff ha hp).mpr hid)
    · exact hm ((hw.inner_iff ha hp).mpr (hexp e he).1)
  refine hw.step (wellFormed_splice hwf hlt) (by simp) (by simp) (by simp) (by simp)
    (fun m hm => ?_) (fun m hm => ?_) (fun m hm => ?_)
  · have hne : m ≠ id := by
      rintro rfl
      exact hm hid
    have hne' : m ∉ b.expansionsOf (b.children id) := fun he => hm (hexp m he).1
    rw [children_splice hlt, if_neg hne, if_neg hne']
  · have hne : m ∉ b.expansionsOf (b.children id) := fun he => hm (hexp m he)
    rw [parent?_splice hwf hlt, if_neg hne, if_neg (hspl m hm)]
  · rw [index_splice hwf hlt, if_neg (hspl m hm)]

end zone

end Unstack.Arena
