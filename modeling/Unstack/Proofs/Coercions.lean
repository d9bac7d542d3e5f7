import Unstack.Proofs.Adoption
import Unstack.Proofs.Stopping

/-! # Chains of coercions

Under a node that takes booleans a coercion stands for its first operand, and stripping puts the
operand in its place until something else stands there.

* **Chains.**  `Arena.Chain` goes from coercions to their first operands.  There is one way to go,
  so what is behind the last coercion is determined by the start (`Arena.operand_of_chain`).
* **Rounds.**  A child that gives way to its operand leaves every other list alone
  (`Arena.exists_lift`).  `Arena.Stripping` says what an arena looks like after some rounds, in
  terms of the arena of before and the list of nodes that were stripped.  A round adds a node to
  that list (`Stripping.round`), and a node is added once, so there are no more rounds than slots
  (`Stripping.run`).
* **Faults.**  A chain that ends in a coercion without children is the only thing that stops it. -/

namespace Unstack.Arena

open Outcome

variable {a b c : Arena} {id m n : NodeId} {i fuel : Nat} {x y : Child} {S : List NodeId}

/-! ### Chains -/

/-- The node is a coercion to a boolean. -/
def Coercion (a : Arena) (m : NodeId) : Prop := a.hasKind m .coerceB = true

/-- The child `y` is the first operand of `x`, which is a node of `P`. -/
def Operand (a : Arena) (P : NodeId → Prop) (x y : Child) : Prop :=
  ∃ m, P m ∧ x = .node m ∧ a.child? m 0 = some y

/-- The child `y` is reached from `x` by going from coercions to their first operands. -/
def Chain (a : Arena) (x y : Child) : Prop := Relation.ReflTransGen (a.Operand a.Coercion) x y

/-- The node is a coercion on the chain of a child of `id`. -/
def Stripped (a : Arena) (id m : NodeId) : Prop :=
  a.Coercion m ∧ ∃ x ∈ a.children id, a.Chain x (.node m)

theorem reach_mono {P Q : NodeId → Prop} (hPQ : ∀ m, P m → Q m)
    (h : Relation.ReflTransGen (a.Operand P) x y) : Relation.ReflTransGen (a.Operand Q) x y :=
  Relation.ReflTransGen.mono (fun _ _ ⟨m, hm, hx, hy⟩ => ⟨m, hPQ m hm, hx, hy⟩) _ _ h

/-- The coercions of a chain stand on every way to something else. -/
theorem operand_of_chain {P : NodeId → Prop} (hxy : Relation.ReflTransGen (a.Operand P) x y)
    (hy : ∀ n, y = .node n → ¬ a.Coercion n) (hm : a.Coercion m) (hxm : a.Chain x (.node m)) :
    P m ∧ ∃ z, a.child? m 0 = some z := by
  induction hxy using Relation.ReflTransGen.head_induction_on with
  | refl =>
      rcases hxm.cases_head with rfl | ⟨_, ⟨n, hn, rfl, -⟩, -⟩
      · exact absurd hm (hy m rfl)
      · exact absurd hn (hy n rfl)
  | head hstep _ ih =>
      obtain ⟨n, hn, rfl, hz⟩ := hstep
      rcases hxm.cases_head with he | ⟨_, ⟨_, -, he, hz'⟩, hrest⟩
      · cases he
        exact ⟨hn, _, hz⟩
      · cases he
        cases hz.symm.trans hz'
        exact ih hrest

/-! ### Rounds -/

/-- A list without its first child if that is a node. -/
def dropOperand : List Child → List Child
  | .node _ :: cs => cs
  | cs => cs

theorem without_first {cs : List Child} (hnd : (nodesOf cs).Nodup) (hy : cs[0]? = some y) :
    without (nodesOf [y]) cs = dropOperand cs := by
  cases cs with
  | nil => cases hy
  | cons z cs =>
      cases hy
      cases y with
      | leaf l => exact without_nil _
      | node n =>
          have hn : n ∉ nodesOf cs := (List.nodup_cons.mp hnd).1
          have hrest : without [n] cs = cs := without_eq_self fun k hk hin => by
            cases List.mem_singleton.mp hk
            exact hn (mem_nodesOf.mpr hin)
          exact (List.filter_cons_of_neg (by simp)).trans hrest

/-- The arena `c` is `b` after the first operand `y` of `m` has taken the place of `m`, which is `i`
in the list of `id`. -/
structure Lifted (b : Arena) (id : NodeId) (i : Nat) (m : NodeId) (y : Child) (c : Arena) : Prop
    extends SameNodes b c where
  wellFormed : c.WellFormed
  own : c.children id = (b.children id).set i y
  source : c.children m = dropOperand (b.children m)
  others : ∀ q, q ≠ id → q ≠ m → c.children q = b.children q
  loose : c.parent? m = none
  /-- No node gets a parent that had none. -/
  orphans : ∀ n, b.parent? n = none → c.parent? n = none

/-- A child can give way to its first operand. -/
theorem exists_lift (h : b.WellFormed) (hm : b.child? id i = some (.node m))
    (hy : b.child? m 0 = some y) :
    ∃ c, b.replaceChild id i y = .ok (c, .node m) ∧ Lifted b id i m y c := by
  have hparent := (h.placed id i m hm).1
  have hne := h.acyclic.ne_parent hparent
  have hbelow : ∀ n, y = .node n → b.parent? n = some m := fun n hn =>
    (h.placed m 0 n (hn ▸ hy)).1
  -- the operand is listed under `m`, and under no other node
  have helsewhere : ∀ q, q ≠ m → without (nodesOf [y]) (b.children q) = b.children q := by
    intro q hq
    refine without_eq_self fun n hn hin => hq ?_
    have hn' : y = .node n := (List.mem_singleton.mp (mem_nodesOf.mp hn)).symm
    exact Option.some.inj ((h.mem_children_iff.mp hin).symm.trans (hbelow n hn'))
  have hold : (b.detachAll y.node?.toList).child? id i = some (.node m) := by
    refine (child?_detachAll_of_lt h fun n hn hid => ?_).trans hm
    exact absurd (Option.some.inj ((hbelow n hn).symm.trans hid)) hne
  obtain ⟨c, hrun, hc, hloose⟩ := exists_replaceChild h (fun n hn =>
    ⟨lt_size_of_parent? (hbelow n hn), h.ne_root (hbelow n hn), fun hb =>
      h.not_below_parent hparent (hb.trans (below_of_parent (hbelow n hn)))⟩) hold
  have hown : c.children id = (b.children id).set i y := by
    rw [hc.own, helsewhere id (Ne.symm hne)]
  refine ⟨c, hrun, hc.toSameNodes, hc.wellFormed, hown, ?_, fun q hq hqm => ?_, hloose m rfl,
    fun n hn => Option.eq_none_iff_forall_ne_some.mpr fun q hq => ?_⟩
  · rw [hc.others m hne]
    exact without_first (h.nodup_childNodes m) hy
  · rw [hc.others q hq, helsewhere q hqm]
  · have hout : ∀ p, b.parent? n ≠ some p := Option.eq_none_iff_forall_ne_some.mp hn
    have hin := hc.wellFormed.mem_children_iff.mpr hq
    by_cases hqid : q = id
    · rw [hqid, hown] at hin
      rcases List.mem_or_eq_of_mem_set hin with hin | he
      · exact hout id (h.mem_children_iff.mp hin)
      · exact hout m (hbelow n he.symm)
    · rw [hc.others q hqid] at hin
      exact hout q (h.mem_children_iff.mp (mem_without.mp hin).1)

/-- The arena `b` is `a` after the coercions of `S` have been stripped from the list of `id`. -/
structure Stripping (a : Arena) (id : NodeId) (S : List NodeId) (b : Arena) : Prop
    extends SameNodes a b where
  wellFormed : b.WellFormed
  nodup : S.Nodup
  notSelf : id ∉ S
  stripped : ∀ m ∈ S, a.Stripped id m
  /-- A child is what is left of the former one. -/
  own : List.Forall₂ (Relation.ReflTransGen (a.Operand (· ∈ S))) (a.children id) (b.children id)
  others : ∀ q, q ≠ id →
    b.children q = if q ∈ S then dropOperand (a.children q) else a.children q
  loose : ∀ m ∈ S, b.parent? m = none

/-- The fault of a coercion without children on the chain of a child of `id`. -/
def Stuck (a : Arena) (id : NodeId) (r : Except Fault Arena) : Prop :=
  ∃ m, a.Stripped id m ∧ a.children m = [] ∧ r = .error (.coercionWithoutOperand m)

/-- What stands at the position in `b` is no coercion. -/
def ClearAt (a : Arena) (id : NodeId) (b : Arena) (i : Nat) : Prop :=
  ∀ m, b.child? id i = some (.node m) → ¬ a.Coercion m

namespace Stripping

theorem start (h : a.WellFormed) (id : NodeId) : Stripping a id [] a where
  toSameNodes := .refl a
  wellFormed := h
  nodup := List.nodup_nil
  notSelf := List.not_mem_nil
  stripped := by simp
  own := List.forall₂_same.mpr fun _ _ => .refl
  others := by simp
  loose := by simp

variable (h : Stripping a id S b)

include h

theorem length_le : S.length ≤ a.size := by
  have hsub : S ⊆ List.range a.size := fun m hm => by
    have hkind : a.kind? m = some .coerceB := by simpa [Coercion, hasKind] using (h.stripped m hm).1
    exact List.mem_range.mpr (lt_size_of_kind? hkind)
  simpa using (List.subperm_of_subset h.nodup hsub).length_le

/-- Whatever stands in the list of `id` is on the chain of a former child. -/
theorem exists_chain (hy : b.child? id i = some y) : ∃ x ∈ a.children id, a.Chain x y := by
  obtain ⟨x, hx, hxy⟩ := exists_getElem?_of_forall₂ h.own hy
  exact ⟨x, List.mem_of_getElem? hx, reach_mono (fun m hm => (h.stripped m hm).1) hxy⟩

/-- A child of `id` still has its children. -/
theorem children_eq_of_child (hm : b.child? id i = some (.node m)) :
    m ∉ S ∧ b.children m = a.children m := by
  have hparent := (h.wellFormed.placed id i m hm).1
  have hnot : m ∉ S := fun hin => by
    rw [h.loose m hin] at hparent
    cases hparent
  refine ⟨hnot, ?_⟩
  rw [h.others m (h.wellFormed.acyclic.ne_parent hparent), if_neg hnot]

/-- **One round** puts the operand of a coercion in its place. -/
theorem round (hm : b.child? id i = some (.node m)) (hco : a.Coercion m)
    (hy : a.child? m 0 = some y) :
    ∃ c, b.replaceChild id i y = .ok (c, .node m) ∧ Stripping a id (m :: S) c ∧
      c.children id = (b.children id).set i y := by
  obtain ⟨hnot, hsame⟩ := h.children_eq_of_child hm
  have hne := h.wellFormed.acyclic.ne_parent (h.wellFormed.placed id i m hm).1
  have hyb : b.child? m 0 = some y := by
    rw [child?, hsame]
    exact hy
  obtain ⟨c, hrun, hc⟩ := exists_lift h.wellFormed hm hyb
  refine ⟨c, hrun, ⟨h.toSameNodes.trans hc.toSameNodes, hc.wellFormed,
    List.nodup_cons.mpr ⟨hnot, h.nodup⟩,
    fun hin => (List.mem_cons.mp hin).elim (Ne.symm hne) h.notSelf, ?_, ?_, fun q hq => ?_, ?_⟩,
    hc.own⟩
  · rw [List.forall_mem_cons]
    exact ⟨⟨hco, h.exists_chain hm⟩, h.stripped⟩
  · obtain ⟨x, hx, hxm⟩ := exists_getElem?_of_forall₂ h.own hm
    have hgrow : ∀ {u v}, Relation.ReflTransGen (a.Operand (· ∈ S)) u v →
        Relation.ReflTransGen (a.Operand (· ∈ m :: S)) u v :=
      reach_mono fun _ => List.mem_cons_of_mem m
    have hset := forall₂_set (i := i) h.own ((hgrow hxm).tail ⟨m, List.mem_cons_self, rfl, hy⟩)
      fun _ _ _ _ _ => hgrow
    obtain ⟨hi, rfl⟩ := List.getElem?_eq_some_iff.mp hx
    rwa [List.set_getElem_self hi, ← hc.own] at hset
  · by_cases hqm : q = m
    · rw [hqm, hc.source, hsame, if_pos List.mem_cons_self]
    · rw [hc.others q hq hqm, h.others q hq]
      simp [hqm]
  · rw [List.forall_mem_cons]
    exact ⟨hc.loose, fun n hn => hc.orphans n (h.loose n hn)⟩

/-- **All rounds at one position.**  Each makes the list of stripped nodes longer, and the list has
no repetitions, so room for every slot is enough. -/
theorem run (hi : i < (a.children id).length) (hfuel : a.size < S.length + fuel) :
    a.Stuck id (Normalize.stripAt id i fuel b).result ∨
    ∃ T c, (Normalize.stripAt id i fuel b).result = .ok c ∧ Stripping a id T c ∧
      a.ClearAt id c i ∧ ∀ j, j ≠ i → c.child? id j = b.child? id j := by
  induction fuel generalizing S b with
  | zero =>
      have := h.length_le
      omega
  | succ fuel ih =>
      have hlt : i < (b.children id).length := h.own.length_eq ▸ hi
      obtain ⟨x, hx⟩ : ∃ x, b.child? id i = some x := ⟨_, List.getElem?_eq_getElem hlt⟩
      cases x with
      | leaf l =>
          refine .inr ⟨S, b, result_stripAt_leaf hx, h, fun m hm => ?_, fun _ _ => rfl⟩
          cases hx.symm.trans hm
      | node m =>
          have hsame := h.hasKind m .coerceB
          by_cases hco : a.Coercion m
          case neg =>
            have hno : b.hasKind m .coerceB = false := hsame.trans (Bool.eq_false_iff.mpr hco)
            refine .inr ⟨S, b, result_stripAt_other hx hno, h, fun n hn => ?_, fun _ _ => rfl⟩
            cases hx.symm.trans hn
            exact hco
          rw [result_stripAt_coercion hx (hsame.trans hco), (h.children_eq_of_child hx).2]
          cases hcs : a.children m with
          | nil => exact .inl ⟨m, ⟨hco, h.exists_chain hx⟩, hcs, rfl⟩
          | cons y rest =>
              obtain ⟨c, hrun, hc, hown⟩ := h.round hx hco (by rw [child?, hcs]; rfl)
              simp only [hrun, ok_bind]
              refine (ih hc (by simp only [List.length_cons]; omega)).imp_right ?_
              rintro ⟨T, d, hd, hT, hdone, hrest⟩
              refine ⟨T, d, hd, hT, hdone, fun j hj => (hrest j hj).trans ?_⟩
              rw [child?, hown]
              exact List.getElem?_set_ne (Ne.symm hj)

/-- **All positions.**  What is done stays done. -/
theorem run_all (slack : Nat) {is : List Nat} (his : ∀ i ∈ is, i < (a.children id).length) :
    let r := (is.foldlM (fun b i => Normalize.stripAt id i (b.size + 1 + slack) b) b).result
    a.Stuck id r ∨ ∃ T c, r = .ok c ∧ Stripping a id T c ∧
      ∀ i, i ∈ is ∨ a.ClearAt id b i → a.ClearAt id c i := by
  intro r
  induction is generalizing S b with
  | nil => exact .inr ⟨S, b, rfl, h, fun i hi => hi.resolve_left List.not_mem_nil⟩
  | cons i is ih =>
      obtain ⟨hi, his'⟩ := List.forall_mem_cons.mp his
      have hroom : a.size < S.length + (b.size + 1 + slack) := by
        have hsize := h.size
        omega
      have hr : r = (Normalize.stripAt id i (b.size + 1 + slack) b).result >>= fun c =>
          (is.foldlM (fun b i => Normalize.stripAt id i (b.size + 1 + slack) b) c).result := by
        simp only [r, List.foldlM_cons, Traced.result_bind]
      rcases h.run hi hroom with ⟨m, hm, hnil, herror⟩ | ⟨T, c, hok, hc, hdone, hrest⟩
      · exact .inl ⟨m, hm, hnil, by rw [hr, herror, error_bind]⟩
      · rw [hr, hok, ok_bind]
        refine (ih hc his').imp_right ?_
        rintro ⟨U, d, hd, hU, hall⟩
        refine ⟨U, d, hd, hU, fun j hj => hall j ?_⟩
        by_cases hji : j = i
        · exact .inr (hji ▸ hdone)
        · rw [ClearAt, hrest j hji]
          exact hj.imp_left fun hin => (List.mem_cons.mp hin).resolve_left hji

end Stripping

/-! ### Whole chains -/

/-- The arena `b` is `a` after all coercions have been stripped from the list of `id`. -/
structure Unwrapped (a : Arena) (id : NodeId) (b : Arena) : Prop extends SameNodes a b where
  wellFormed : b.WellFormed
  /-- In the place of a child is the first thing on its chain that is no coercion. -/
  own : List.Forall₂ (fun x y => a.Chain x y ∧ ∀ m, y = .node m → ¬ a.Coercion m)
    (a.children id) (b.children id)
  loose : ∀ m, a.Stripped id m → b.parent? m = none
  /-- Nodes that were stripped have lost the operand that is listed elsewhere now. -/
  operands : ∀ m, a.Stripped id m → b.children m = dropOperand (a.children m)
  others : ∀ q, q ≠ id → ¬ a.Stripped id q → b.children q = a.children q

theorem Stripping.unwrapped (h : Stripping a id S b) (hdone : ∀ i, a.ClearAt id b i) :
    Unwrapped a id b ∧ ∀ m, a.Stripped id m → a.children m ≠ [] := by
  have hend : ∀ y ∈ b.children id, ∀ m, y = .node m → ¬ a.Coercion m := by
    rintro _ hy m rfl
    obtain ⟨i, hi⟩ := List.mem_iff_getElem?.mp hy
    exact hdone i m hi
  have hmem : ∀ m, a.Stripped id m → m ∈ S ∧ ∃ z, a.child? m 0 = some z := by
    rintro m ⟨hm, x, hx, hxm⟩
    obtain ⟨y, hy, hxy⟩ := exists_of_mem_left h.own hx
    exact operand_of_chain hxy (hend y hy) hm hxm
  refine ⟨⟨h.toSameNodes, h.wellFormed, ?_, fun m hm => h.loose m (hmem m hm).1, fun m hm => ?_,
    fun q hq hnot => ?_⟩, fun m hm hnil => ?_⟩
  · refine forall₂_imp_of_mem h.own fun x _ y hy hxy => ⟨?_, hend y hy⟩
    exact reach_mono (fun m hm => (h.stripped m hm).1) hxy
  · have hS := (hmem m hm).1
    rw [h.others m fun he => h.notSelf (he ▸ hS), if_pos hS]
  · rw [h.others q hq, if_neg fun hin => hnot (h.stripped q hin)]
  · obtain ⟨-, z, hz⟩ := hmem m hm
    rw [child?, hnil] at hz
    cases hz

/-- **Stripping unwraps whole chains in place.**  The bound on the rounds never decides, so the
rounds come to an end by themselves.  They stop with a fault exactly if the chain of some child ends
in a coercion without children, and the fault names such a coercion.  Otherwise each child gives way
to the first thing on its chain that is no coercion; the coercions on the way are left without a
parent and without that operand, and all else stays as it was. -/
theorem stripCoercions_unwraps (h : a.WellFormed) (id : NodeId) (slack : Nat) :
    let run := Normalize.stripCoercions slack a id
    run = Normalize.stripCoercions 0 a id ∧
    ((∃ e, run.result = .error e) ↔ ∃ m, a.Stripped id m ∧ a.children m = []) ∧
    (∀ e, run.result = .error e →
      ∃ m, a.Stripped id m ∧ a.children m = [] ∧ e = .coercionWithoutOperand m) ∧
    ∀ b, run.result = .ok b → Unwrapped a id b := by
  have hall : ∀ slack, a.Stuck id (Normalize.stripCoercions slack a id).result ∨
      ∃ b, (Normalize.stripCoercions slack a id).result = .ok b ∧ Unwrapped a id b ∧
        ∀ m, a.Stripped id m → a.children m ≠ [] := by
    intro slack
    refine ((Stripping.start h id).run_all slack fun i => List.mem_range.mp).imp_right ?_
    rintro ⟨T, b, hb, hT, hdone⟩
    refine ⟨b, hb, hT.unwrapped fun i m hm => hdone i (.inl ?_) m hm⟩
    have hlt := (List.getElem?_eq_some_iff.mp hm).1
    exact List.mem_range.mpr (hT.own.length_eq ▸ hlt)
  intro run
  refine ⟨?_, ?_⟩
  · have hroom := Normalize.handle_upTo (Nat.zero_le slack) a id .and
    refine (hroom.eq fun hcyclic => ?_).symm
    rcases hall 0 with ⟨m, -, -, hm⟩ | ⟨b, hb, -⟩
    · cases hcyclic.symm.trans hm
    · cases hcyclic.symm.trans hb
  · rcases hall slack with ⟨m, hm, hnil, herror⟩ | ⟨b, hb, hunwrapped, hfull⟩
    · refine ⟨iff_of_true ⟨_, herror⟩ ⟨m, hm, hnil⟩, fun e he => ?_, fun b hb => ?_⟩
      · cases he.symm.trans herror
        exact ⟨m, hm, hnil, rfl⟩
      · cases herror.symm.trans hb
    · refine ⟨iff_of_false ?_ fun ⟨m, hm, hnil⟩ => hfull m hm hnil, fun e he => ?_, fun c hc => ?_⟩
      · rintro ⟨e, he⟩
        cases he.symm.trans hb
      · cases he.symm.trans hb
      · cases hc.symm.trans hb
        exact hunwrapped

/-- Stacked coercions with a leaf behind them, a coercion of a node with something behind it, and a
coercion without children that is on no chain; under `or`, one that is. -/
theorem stripCoercions_unwraps_stacked :
    ∃ a b c : Arena, a.WellFormed ∧
      a.tree = .ok (.plain .and
        [.plain .coerceB [.plain .coerceB [.text "z", .plain (.other "g") []]],
          .plain .coerceB [.plain (.other "f") [.text "x"], .text "w"], .text "y",
          .plain (.other "h") [.plain .coerceB []]]) ∧
      (Normalize.stripCoercions 0 a 8).result = .ok b ∧
      b.children 8 = [.leaf (.text "z"), .node 4, .leaf (.text "y"), .node 7] ∧
      b.parent? 2 = none ∧ b.parent? 3 = none ∧ b.children 5 = [.leaf (.text "w")] ∧
      b.children 7 = a.children 7 ∧ b.WellFormed ∧ c.WellFormed ∧
      c.tree = .ok (.plain .or [.plain .coerceB [.plain .coerceB []]]) ∧
      (∃ e, (Normalize.stripCoercions 0 c 3).result = .error e) ∧
      Normalize.stripCoercions 9 c 3 = Normalize.stripCoercions 0 c 3 := by
  have ha := wellFormed_ofTree (.plain .and
    [.plain .coerceB [.plain .coerceB [.text "z", .plain (.other "g") []]],
      .plain .coerceB [.plain (.other "f") [.text "x"], .text "w"], .text "y",
      .plain (.other "h") [.plain .coerceB []]])
  have hc := wellFormed_ofTree (.plain .or [.plain .coerceB [.plain .coerceB []]])
  have hlist : ((Normalize.stripCoercions 0 (ofTree (.plain .and
      [.plain .coerceB [.plain .coerceB [.text "z", .plain (.other "g") []]],
        .plain .coerceB [.plain (.other "f") [.text "x"], .text "w"], .text "y",
        .plain (.other "h") [.plain .coerceB []]])) 8).result.map (children · 8))
      = .ok [.leaf (.text "z"), .node 4, .leaf (.text "y"), .node 7] := by
    decide +kernel
  cases hb : (Normalize.stripCoercions 0 (ofTree (.plain .and
      [.plain .coerceB [.plain .coerceB [.text "z", .plain (.other "g") []]],
        .plain .coerceB [.plain (.other "f") [.text "x"], .text "w"], .text "y",
        .plain (.other "h") [.plain .coerceB []]])) 8).result with
  | error e =>
      rw [hb] at hlist
      cases hlist
  | ok b =>
      rw [hb] at hlist
      have hunwrapped := (stripCoercions_unwraps ha 8 0).2.2.2 b hb
      refine ⟨_, b, _, ha, tree_ofTree _ _ _, hb, Except.ok.inj hlist,
        hunwrapped.loose 2 ⟨rfl, .node 3, by decide, .single ⟨3, rfl, rfl, rfl⟩⟩,
        hunwrapped.loose 3 ⟨rfl, .node 3, by decide, .refl⟩,
        hunwrapped.operands 5 ⟨rfl, .node 5, by decide, .refl⟩,
        hunwrapped.others 7 (by decide) fun hin => Bool.false_ne_true hin.1,
        hunwrapped.wellFormed, hc, tree_ofTree _ _ _, ?_, (stripCoercions_unwraps hc 3 9).1⟩
      exact (stripCoercions_unwraps hc 3 0).2.1.mpr
        ⟨1, ⟨rfl, .node 2, by decide, .single ⟨2, rfl, rfl, rfl⟩⟩, rfl⟩

end Unstack.Arena
