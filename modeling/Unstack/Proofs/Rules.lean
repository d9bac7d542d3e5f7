import Unstack.Normalize
import Unstack.Proofs.Arena.Edits
import Unstack.Proofs.Arena.Work
import Unstack.Proofs.Rewrite

/-! # The rules of an arena and the rules of trees

Every rule of `Unstack.Normalize`, applied to a node of a well-formed arena, does what
`Tree.rule` does to the tree that the node shows: it stops with a fault exactly when the tree
has the corresponding defect, and otherwise the node shows the new tree.

* `Simulates` compares the two outcomes.
* `Settles` is what a rule that asks nothing of the parent leaves behind: work at the node, and
  the new tree in its place.
* `Dealt` adds what a branch asks of its parent: `Arena.meet` carries it out. -/

namespace Unstack

open Outcome

/-- An outcome over arenas agrees with one over trees: both give something, and the two things
are related, or both fail for the same reason. -/
def Simulates {α β : Type} (R : α → β → Prop) : Except Fault α → Except Defect β → Prop
  | .ok x, .ok y => R x y
  | .error f, .error d => f.defect? = some d
  | _, _ => False

namespace Simulates

variable {α β γ δ : Type} {R : α → β → Prop} {S : γ → δ → Prop}

theorem of_ok {x : α} {y : β} (h : R x y) : Simulates R (.ok x) (.ok y) := h

theorem of_error {f : Fault} {d : Defect} (h : f.defect? = some d) :
    Simulates R (.error f) (.error d) := h

theorem exists_ok {r : Except Fault α} {y : β} (h : Simulates R r (.ok y)) :
    ∃ x, r = .ok x ∧ R x y := by
  cases r with
  | error f => exact h.elim
  | ok x => exact ⟨x, rfl, h⟩

theorem exists_error {r : Except Fault α} {d : Defect} (h : Simulates R r (.error d)) :
    ∃ f, r = .error f ∧ f.defect? = some d := by
  cases r with
  | error f => exact ⟨f, rfl, h⟩
  | ok x => exact h.elim

theorem exists_of_ok {x : α} {s : Except Defect β} (h : Simulates R (.ok x) s) :
    ∃ y, s = .ok y ∧ R x y := by
  cases s with
  | error d => exact h.elim
  | ok y => exact ⟨y, rfl, h⟩

theorem exists_of_error {f : Fault} {s : Except Defect β} (h : Simulates R (.error f) s) :
    ∃ d, s = .error d ∧ f.defect? = some d := by
  cases s with
  | error d => exact ⟨d, rfl, h⟩
  | ok y => exact h.elim

theorem mono {R' : α → β → Prop} {r : Except Fault α} {s : Except Defect β}
    (h : Simulates R r s) (hR : ∀ x y, R x y → R' x y) : Simulates R' r s := by
  cases r <;> cases s
  case ok.ok x y => exact hR x y h
  all_goals exact h

theorem bind {r : Except Fault α} {s : Except Defect β} {f : α → Except Fault γ}
    {g : β → Except Defect δ} (h : Simulates R r s)
    (hfg : ∀ x y, R x y → Simulates S (f x) (g y)) : Simulates S (r >>= f) (s >>= g) := by
  cases r <;> cases s
  case ok.ok x y => exact hfg x y h
  case error.error f d => exact h
  all_goals exact h.elim

theorem map_right {S : α → δ → Prop} {r : Except Fault α} {s : Except Defect β} {g : β → δ}
    (h : Simulates R r s) (hg : ∀ x y, R x y → S x (g y)) :
    Simulates S r (s >>= fun y => pure (g y)) := by
  cases r <;> cases s
  case ok.ok x y => exact hg x y h
  all_goals exact h

end Simulates

namespace Arena

variable {a b c : Arena} {n p q x : NodeId} {k : Kind} {o : Option Note} {xs : List Child}
  {t : Tree} {ts : List Tree}

/-! ### Rebuilding a node -/

/-- A child of a node shows the same tree as long as only the node itself and new slots
change. -/
theorem Shows.of_own (hb : b.WellFormed) {x : Child} (hx : x ∈ b.children n) (h : b.Shows x t)
    (hsame : ∀ q, q ≠ n → q < b.size → c.kind? q = b.kind? q ∧ c.note? q = b.note? q ∧
      c.children q = b.children q) : c.Shows x t := by
  cases x with
  | leaf l => exact shows_leaf.mpr (shows_leaf.mp h)
  | node m =>
      have hm : b.parent? m = some n := hb.mem_children_iff.mp hx
      refine h.congr hb fun q hq => hsame q ?_ (lt_of_below hq h.lt_size)
      rintro rfl
      exact hb.not_below_parent hm hq

section two

variable {m : NodeId} (hb : b.WellFormed) (hm : .node m ∈ b.children n)
  (hsame : ∀ q, q ≠ n → q ≠ m → c.kind? q = b.kind? q ∧ c.note? q = b.note? q ∧
    c.children q = b.children q)

include hb hm hsame

/-- A child of `n` other than `m` shows the same tree if only `n` and its child `m` change. -/
theorem Shows.of_sibling {x : Child} (hx : x ∈ b.children n) (hne : x ≠ .node m)
    (h : b.Shows x t) : c.Shows x t := by
  cases x with
  | leaf l => exact shows_leaf.mpr (shows_leaf.mp h)
  | node z =>
      have hz : b.parent? z = some n := hb.mem_children_iff.mp hx
      have hmn : b.parent? m = some n := hb.mem_children_iff.mp hm
      refine h.congr hb fun q hq => hsame q ?_ ?_
      · rintro rfl
        exact hb.not_below_parent hz hq
      · rintro rfl
        rcases hq.cases with rfl | ⟨p, hp, hpz⟩
        · exact hne rfl
        · rw [hmn] at hp
          cases hp
          exact hb.not_below_parent hz hpz

/-- So does a child of `m`. -/
theorem Shows.of_grandchild {x : Child} (hx : x ∈ b.children m) (h : b.Shows x t) :
    c.Shows x t := by
  cases x with
  | leaf l => exact shows_leaf.mpr (shows_leaf.mp h)
  | node z =>
      have hz : b.parent? z = some m := hb.mem_children_iff.mp hx
      have hmn : b.parent? m = some n := hb.mem_children_iff.mp hm
      refine h.congr hb fun q hq => hsame q ?_ ?_
      · rintro rfl
        exact hb.not_below_parent hz ((below_of_parent hmn).trans hq)
      · rintro rfl
        exact hb.not_below_parent hz hq

end two

/-- The arena `c` differs from `b` in the kind and the list of `n` only, links apart. -/
structure Rebuilt (b c : Arena) (n : NodeId) (k : Kind) (xs : List Child) : Prop where
  kind : c.kind? n = some k
  note : c.note? n = b.note? n
  list : c.children n = xs
  others : ∀ q, q ≠ n → c.kind? q = b.kind? q ∧ c.note? q = b.note? q ∧
    c.children q = b.children q

/-- New children for a node, out of its own and such without a parent. -/
theorem Worked.update (ha : a.WellFormed) (hw : Worked a b n) (hn : n < b.size)
    (xs : List Child) (had : b.Adoptable n (nodesOf xs)) (hin : ∀ x ∈ nodesOf xs, a.Inner n x)
    (hown : ∀ x ∈ nodesOf xs, ∀ q, b.parent? x = some q → q = n) (k : Kind) :
    ∃ c, (b.update n k xs).result = .ok c ∧ Worked a c n ∧ Rebuilt b c n k xs := by
  have hk := hw.setKind (zone_self a n) k
  have hlt : n < (b.setKind n k).size := by
    rw [size_setKind]
    exact hn
  have had' : (b.setKind n k).Adoptable n (nodesOf xs) :=
    had.of_links (by simp) (by simp) fun x q hx => by rwa [parent?_setKind] at hx
  refine ⟨_, result_update hn k fun x hx => ⟨had.ne hx, had.exist x hx⟩,
    hk.assign ha (zone_self a n) hlt had' hin, ?_, ?_, ?_, fun q hq => ⟨?_, ?_, ?_⟩⟩
  · rw [kind?_assign, kind?_setKind, if_pos ⟨rfl, hn⟩]
  · rw [note?_assign, note?_setKind]
  · rw [children_assign hk.wellFormed hlt, if_pos rfl]
  · rw [kind?_assign, kind?_setKind, if_neg fun e => hq e.1]
  · rw [note?_assign, note?_setKind]
  · rw [children_assign hk.wellFormed hlt, if_neg hq, children_setKind]
    refine without_eq_self fun x hx hc => hq ?_
    exact hown x hx q (hw.wellFormed.mem_children_iff.mp hc)

/-! ### What a rule leaves behind -/

/-- Work at the node has led from `a` to `b`, where the node shows the tree. -/
def Settles (a : Arena) (n : NodeId) (b : Arena) (t : Tree) : Prop :=
  Worked a b n ∧ b.Shows (.node n) t

theorem Settles.after (ha : a.WellFormed) (hw : Worked a b n) (h : Settles b n c t) :
    Settles a n c t := ⟨hw.trans ha h.1, h.2⟩

/-- Where a node stands: the kind of its parent, and its position there. -/
def standing (a : Arena) (n : NodeId) : Option (Kind × Nat) :=
  (a.parent? n).bind fun p => (a.kind? p).map fun k => (k, a.index n)

theorem Worked.standing_eq (ha : a.WellFormed) (hw : Worked a b n) :
    b.standing n = a.standing n := by
  unfold standing
  rw [hw.parent, hw.index]
  cases hp : a.parent? n with
  | none => rfl
  | some p =>
      rw [Option.bind_some, Option.bind_some, kind?_congr (hw.outside p (parent_not_zone ha hp))]

/-- Carries out what a node asks of its parent. -/
def meet (a : Arena) (n : NodeId) (d : Demand) : Arena :=
  match a.parent? n with
  | none => a
  | some p =>
    let a := if d.negate then a.negated p else a
    if d.retag then a.setKind p .ternaryIfBoolean else a

/-- A rule has led from `a` to `b`: the node shows the tree, and what it asked of its parent is
done. -/
def Dealt (a : Arena) (n : NodeId) (b : Arena) (r : Tree × Demand) : Prop :=
  ∃ w, Settles a n w r.1 ∧ b = w.meet n r.2

theorem meet_none (a : Arena) (n : NodeId) : a.meet n .none = a := by
  unfold meet
  split <;> rfl

theorem meet_retag (hp : a.parent? n = some p) (negate : Bool) :
    a.meet n ⟨negate, true⟩ = (a.meet n ⟨negate, false⟩).setKind p .ternaryIfBoolean := by
  simp [meet, hp]

@[simp] theorem size_negated (a : Arena) (p : NodeId) : (a.negated p).size = a.size := by
  unfold negated
  split
  · rfl
  · exact size_overwrite ..

@[simp] theorem size_meet (a : Arena) (n : NodeId) (d : Demand) : (a.meet n d).size = a.size := by
  unfold meet
  cases a.parent? n with
  | none => rfl
  | some p => cases d.negate <;> cases d.retag <;> simp

theorem Settles.dealt (h : Settles a n b t) : Dealt a n b (t, .none) :=
  ⟨b, h, (meet_none b n).symm⟩

theorem Dealt.after (ha : a.WellFormed) (hw : Worked a b n) {r : Tree × Demand}
    (h : Dealt b n c r) : Dealt a n c r := by
  obtain ⟨w, hs, rfl⟩ := h
  exact ⟨w, hs.after ha hw, rfl⟩

/-! ### Statements -/

theorem Rebuilt.shows_own (hb : b.WellFormed) (hr : Rebuilt b c n k xs) {x : Child}
    (hx : x ∈ b.children n) (h : b.Shows x t) : c.Shows x t :=
  h.of_own hb hx fun q hq _ => hr.others q hq

theorem Rebuilt.shows (hr : Rebuilt b c n k xs) (hall : List.Forall₂ c.Shows xs ts) :
    c.Shows (.node n) (.node k (b.note? n) ts) := by
  refine shows_node.mpr ⟨hr.kind, hr.note, ?_⟩
  rw [hr.list]
  exact hall

/-- A new kind alone. -/
theorem settles_setKind (h : a.WellFormed) (hs : a.Shows (.node n) (.node k o ts)) (k' : Kind) :
    Settles a n (a.setKind n k') (.node k' o ts) := by
  obtain ⟨-, rfl, hts⟩ := shows_node.mp hs
  have hr : Rebuilt a (a.setKind n k') n k' (a.children n) := by
    refine ⟨?_, by simp, by simp, fun q hq => ⟨?_, by simp, by simp⟩⟩
    · rw [kind?_setKind, if_pos ⟨rfl, hs.lt_size⟩]
    · rw [kind?_setKind, if_neg fun e => hq e.1]
  refine ⟨(Worked.refl h n).setKind (zone_self a n) k', hr.shows ?_⟩
  exact forall₂_imp_of_mem hts fun x hx t _ hxt => hr.shows_own h hx hxt

/-- Nodes properly below a node may become its children. -/
theorem adoptable_of_below (h : a.WellFormed) {ns : List NodeId} (hnd : ns.Nodup)
    (hns : ∀ x ∈ ns, ∃ p, a.parent? x = some p ∧ a.Below p n) : a.Adoptable n ns where
  nodup := hnd
  exist x hx := by
    obtain ⟨p, hp, -⟩ := hns x hx
    exact lt_size_of_parent? hp
  notRoot hr := by
    obtain ⟨p, hp, -⟩ := hns _ hr
    exact h.ne_root hp rfl
  notAbove x hx hnx := by
    obtain ⟨p, hp, hpn⟩ := hns x hx
    exact h.not_below_parent hp (hpn.trans hnx)

theorem inner_of_below (h : a.WellFormed) (hp : a.parent? x = some p) (hpn : a.Below p n) :
    a.Inner n x := by
  refine ⟨.inl (.of_parent hp hpn), ?_⟩
  rintro rfl
  exact h.not_below_parent hp hpn

theorem result_hint_settles (h : a.WellFormed) (hs : a.Shows (.node n) (.node k o ts)) :
    ∃ b, (Normalize.hint a n).result = .ok b ∧ Settles a n b (.node .nop o []) := by
  obtain ⟨-, rfl, -⟩ := shows_node.mp hs
  have hnil : ∀ {P : NodeId → Prop}, ∀ x ∈ nodesOf ([] : List Child), P x := by simp
  obtain ⟨b, hres, hw, hr⟩ := (Worked.refl h n).update h hs.lt_size []
    (adoptable_of_below h List.nodup_nil hnil) hnil hnil .nop
  exact ⟨b, hres, hw, hr.shows .nil⟩

/-- One child of a node stays, and a new slot comes after it. -/
theorem exists_update_push (h : a.WellFormed) (hn : n < a.size) {operand : Child}
    (hop : operand ∈ a.children n) (k k' : Kind) (o : Option Note) :
    ∃ c, ((a.push k' o).update n k [operand, .node a.size]).result = .ok c ∧ Worked a c n ∧
      Rebuilt (a.push k' o) c n k [operand, .node a.size] := by
  have hpar : ∀ x ∈ nodesOf [operand, .node a.size], a.parent? x = some n ∨ x = a.size := by
    intro x hx
    rw [mem_nodesOf, List.mem_pair] at hx
    rcases hx with rfl | hx
    · exact .inl (h.mem_children_iff.mp hop)
    · cases hx
      exact .inr rfl
  have hlt : n < (a.push k' o).size := by
    rw [size_push]
    exact Nat.lt_succ_of_lt hn
  refine ((Worked.refl h n).push k' o).update h hlt _ ⟨?_, fun x hx => ?_, fun hr => ?_,
    fun x hx hb => ?_⟩ (fun x hx => ?_) (fun x hx q hq => ?_) k
  · cases operand with
    | leaf l => exact List.nodup_singleton _
    | node x =>
        have hx : x < a.size := h.child_lt hop
        refine List.nodup_cons.mpr ⟨fun hmem => ?_, List.nodup_singleton _⟩
        exact Nat.ne_of_lt hx (List.mem_singleton.mp hmem)
  · rw [size_push]
    rcases hpar x hx with hp | rfl
    · exact Nat.lt_succ_of_lt (lt_size_of_parent? hp)
    · exact Nat.lt_succ_self _
  · rcases hpar _ hr with hp | hsize
    · exact h.ne_root hp rfl
    · exact Nat.ne_of_lt h.root_lt hsize
  · have hb' : a.Below n x := hb.mono fun m q hq => by rwa [parent?_push] at hq
    rcases hpar x hx with hp | rfl
    · exact h.not_below_parent hp hb'
    · exact Nat.lt_irrefl _ (h.lt_of_above hb' hn)
  · rcases hpar x hx with hp | rfl
    · exact inner_of_below h hp (.refl a n)
    · exact ⟨.inr (Nat.le_refl _), Nat.ne_of_gt hn⟩
  · rw [parent?_push] at hq
    rcases hpar x hx with hp | rfl
    · exact Option.some.inj (hq.symm.trans hp)
    · exact absurd (lt_size_of_parent? hq) (Nat.lt_irrefl _)

theorem pop_simulates (h : a.WellFormed) (hs : a.Shows (.node n) (.node .pop o ts))
    (place : Option (Kind × Nat)) :
    Simulates (Dealt a n) (Normalize.pop a n).result (Tree.rule place .pop o ts) := by
  obtain ⟨-, rfl, hts⟩ := shows_node.mp hs
  have hn : n < a.size := hs.lt_size
  cases hcs : a.children n with
  | nil =>
      rw [hcs] at hts
      cases hts
      rw [Normalize.pop, child?, hcs]
      rfl
  | cons operand rest =>
      have hop : operand ∈ a.children n := by
        rw [hcs]
        exact List.mem_cons_self
      rw [hcs] at hts
      obtain ⟨t, ts, ht, -, rfl⟩ := List.forall₂_cons_left_iff.mp hts
      obtain ⟨c, hres, hw, hr⟩ := exists_update_push h hn hop .expand .nop (a.note? n)
      simp only [Normalize.pop, child?, hcs, List.getElem?_cons_zero, Traced.result_bind,
        Traced.result_liftM, addNode_nil h, ok_bind, hres, Tree.rule]
      refine .of_ok (Settles.dealt ⟨hw, shows_node.mpr ⟨hr.kind, ?_, ?_⟩⟩)
      · rw [hr.note, note?_push, if_neg (Nat.ne_of_lt hn)]
      rw [hr.list]
      refine .cons ?_ (.cons ?_ .nil)
      · refine ht.of_own h hop fun q hq hlt => ?_
        obtain ⟨hk, ho, hc⟩ := hr.others q hq
        rw [hk, ho, hc, kind?_push, note?_push, children_push, if_neg (Nat.ne_of_lt hlt),
          if_neg (Nat.ne_of_lt hlt)]
        exact ⟨rfl, rfl, rfl⟩
      · obtain ⟨hk, ho, hc⟩ := hr.others a.size (Nat.ne_of_gt hn)
        refine shows_node.mpr ⟨?_, ?_, ?_⟩
        · rw [hk, kind?_push, if_pos rfl]
        · rw [ho, note?_push, if_pos rfl]
        · rw [hc, children_push, children_eq_nil (Nat.le_refl _)]
          exact .nil

/-! ### Choices -/

/-- A node is emptied and gets some of its own children back. -/
theorem exists_update_cut (h : a.WellFormed) (hn : n < a.size) (xs : List Child)
    (hnd : (nodesOf xs).Nodup) (hxs : ∀ x ∈ nodesOf xs, .node x ∈ a.children n) (k : Kind) :
    ∃ c, ((a.cut n 0).update n k xs).result = .ok c ∧ Worked a c n ∧ Rebuilt a c n k xs := by
  have hpar : ∀ x ∈ nodesOf xs, a.parent? x = some n := fun x hx =>
    h.mem_children_iff.mp (hxs x hx)
  have hcut : ∀ m p, (a.cut n 0).parent? m = some p → a.parent? m = some p := fun m p hp =>
    parent?_of_parent?_cut hp
  have had : a.Adoptable n (nodesOf xs) :=
    adoptable_of_below h hnd fun x hx => ⟨n, hpar x hx, .refl a n⟩
  obtain ⟨c, hres, hw, hr⟩ := ((Worked.refl h n).cut h (zone_self a n) 0).update h
    (by rwa [size_cut]) xs (had.of_links (by simp) (by simp) hcut)
    (fun x hx => inner_of_below h (hpar x hx) (.refl a n))
    (fun x hx q hq => Option.some.inj ((hcut x q hq).symm.trans (hpar x hx))) k
  refine ⟨c, hres, hw, hr.kind, ?_, hr.list, fun q hq => ?_⟩
  · rw [hr.note, note?_cut]
  · obtain ⟨hk, ho, hc⟩ := hr.others q hq
    rw [hk, ho, hc, kind?_cut, note?_cut, children_cut, if_neg hq]
    exact ⟨rfl, rfl, rfl⟩

theorem Shows.truthy_eq {x : Child} (h : a.Shows x t) : x.truthy = t.truthy := by
  cases x with
  | leaf l =>
      rw [shows_leaf.mp h]
      rfl
  | node m =>
      obtain ⟨k, o, ts, rfl⟩ := h.exists_node
      rfl

/-- The condition and the two values of a choice name no node twice. -/
theorem sublist_choice (flag condition first : Child) (rest : List Child) :
    (nodesOf [condition, first, rest.headD (.leaf .nil)]).Sublist
      (nodesOf (flag :: condition :: first :: rest)) := by
  cases rest with
  | nil =>
      have hleaf : nodesOf [condition, first, .leaf .nil] = nodesOf [condition, first] := by
        rw [show [condition, first, Child.leaf .nil] = [condition, first] ++ [.leaf .nil] from rfl,
          nodesOf_append]
        exact List.append_nil _
      rw [List.headD_nil, hleaf]
      exact nodesOf_sublist (List.sublist_cons_self _ _)
  | cons second rest =>
      refine nodesOf_sublist (.cons _ (.cons_cons _ (.cons_cons _ (.cons_cons _ ?_))))
      exact List.nil_sublist rest

theorem ternaryIfBoolean_simulates (h : a.WellFormed) (hn : n < a.size)
    (hts : List.Forall₂ a.Shows (a.children n) ts) :
    Simulates (Settles a n) (Normalize.ternaryIfBoolean a n).result
      (Tree.choice (a.note? n) ts) := by
  have hcut : a.splitOff n 0 = .ok (a.cut n 0, a.children n) := splitOff_eq hn (Nat.zero_le _)
  have hnd := h.nodup_childNodes n
  unfold childNodes at hnd
  simp only [Normalize.ternaryIfBoolean, hcut, Traced.result_bind, Traced.result_liftM, ok_bind]
  match hcs : a.children n, ts, hts with
  | [], _, .nil => exact .of_error rfl
  | [_], _, .cons _ .nil => exact .of_error rfl
  | [_, _], _, .cons _ (.cons _ .nil) => exact .of_error rfl
  | flag :: condition :: first :: rest, tf :: tc :: tx :: trest,
      .cons hflag (.cons hcond (.cons hfirst hrest)) =>
      rw [hcs] at hnd
      have hperm : (if flag.truthy then [condition, first, rest.headD (.leaf .nil)]
          else [condition, rest.headD (.leaf .nil), first]).Perm
            [condition, first, rest.headD (.leaf .nil)] := by
        split_ifs
        · exact .refl _
        · exact .cons _ (.swap _ _ _)
      have hsub := sublist_choice flag condition first rest
      obtain ⟨c, hres, hw, hr⟩ := exists_update_cut h hn _
        ((hperm.filterMap _).nodup_iff.mpr (hnd.sublist hsub))
        (fun x hx => by
          rw [hcs]
          exact mem_nodesOf.mp (hsub.subset ((hperm.filterMap _).mem_iff.mp hx))) .ternary
      have hown : ∀ x ∈ flag :: condition :: first :: rest, ∀ t, a.Shows x t → c.Shows x t := by
        intro x hx t hxt
        exact hr.shows_own h (by rwa [hcs]) hxt
      have hcond' := hown condition (by simp) tc hcond
      have hfirst' := hown first (by simp) tx hfirst
      have hsecond' : c.Shows (rest.headD (.leaf .nil)) (trest.headD (.leaf .nil)) := by
        cases hrest with
        | nil => exact shows_leaf.mpr rfl
        | cons hsecond _ => exact hown _ (by simp) _ hsecond
      rw [hres, Tree.choice]
      refine .of_ok ⟨hw, hr.shows ?_⟩
      rw [hflag.truthy_eq]
      split_ifs
      · exact .cons hcond' (.cons hfirst' (.cons hsecond' .nil))
      · exact .cons hcond' (.cons hsecond' (.cons hfirst' .nil))

/-- The last children of a child `m` of `n` move to the end of `n`. -/
theorem exists_raise (h : a.WellFormed) {m : NodeId} (hm : .node m ∈ a.children n) (j : Nat) :
    ∃ c, (a.cut m j).pushChildren n ((a.children m).drop j) = .ok c ∧ Worked a c n ∧
      c.children n = a.children n ++ (a.children m).drop j ∧
      c.children m = (a.children m).take j ∧
      (∀ q, q ≠ n → q ≠ m → c.children q = a.children q) ∧
      ∀ q, c.kind? q = a.kind? q ∧ c.note? q = a.note? q := by
  have hmn : a.parent? m = some n := h.mem_children_iff.mp hm
  have hne : n ≠ m := (h.acyclic.ne_parent hmn).symm
  have hlt : n < (a.cut m j).size := by
    rw [size_cut]
    exact h.parent_lt hmn
  have hwf := wellFormed_cut h m j
  have hpar : ∀ x ∈ nodesOf ((a.children m).drop j), a.parent? x = some m := fun x hx =>
    h.mem_children_iff.mp (List.mem_of_mem_drop (mem_nodesOf.mp hx))
  have hfree : ∀ x ∈ nodesOf ((a.children m).drop j), ∀ q, .node x ∉ (a.cut m j).children q := by
    intro x hx q hc
    have hp := hwf.mem_children_iff.mp hc
    rw [parent?_cut, if_pos (mem_nodesOf.mp hx)] at hp
    cases hp
  have hnd : (nodesOf ((a.children m).drop j)).Nodup :=
    (h.nodup_childNodes m).sublist (nodesOf_sublist (List.drop_sublist _ _))
  have had : (a.cut m j).Adoptable n (nodesOf ((a.children m).drop j)) := by
    refine (adoptable_of_below h hnd fun x hx => ⟨m, hpar x hx, below_of_parent hmn⟩).of_links
      (by simp) (by simp) fun x p hp => ?_
    exact parent?_of_parent?_cut hp
  have hw := (Worked.refl h n).cut h (.inl (below_of_parent hmn)) j
  refine ⟨_, (pushChildren_eq_ok_iff hwf).mpr ⟨hlt, had.exist, rfl⟩,
    hw.extend h (zone_self a n) hlt had fun x hx => ?_, ?_, ?_, fun q hqn hqm => ?_, fun q => ?_⟩
  · exact inner_of_below h (hpar x hx) (below_of_parent hmn)
  · rw [children_extend hwf hlt, if_pos rfl, without_eq_self fun x hx => hfree x hx n,
      children_cut, if_neg hne]
  · rw [children_extend hwf hlt, if_neg hne.symm, without_eq_self fun x hx => hfree x hx m,
      children_cut, if_pos rfl]
  · rw [children_extend hwf hlt, if_neg hqn, without_eq_self fun x hx => hfree x hx q,
      children_cut, if_neg hqm]
  · simp

theorem ne_of_nodup {flag : Child} {m : NodeId} {rest : List Child}
    (hnd : (nodesOf (flag :: .node m :: rest)).Nodup) : flag ≠ .node m ∧ .node m ∉ rest := by
  constructor
  · rintro rfl
    rw [nodesOf_cons_node, List.nodup_cons, nodesOf_cons_node] at hnd
    exact hnd.1 List.mem_cons_self
  · intro hm
    have htail := hnd.sublist (nodesOf_sublist (List.sublist_cons_self flag _))
    rw [nodesOf_cons_node, List.nodup_cons] at htail
    exact htail.1 (mem_nodesOf.mpr hm)

/-- The last arguments of the second child of `n` move to the end of `n`. -/
theorem exists_hoist (h : a.WellFormed) {flag : Child} {m : NodeId} {rest : List Child} {u : Tree}
    {k' : Kind} {o' : Option Note} {args us : List Tree}
    (hcs : a.children n = flag :: .node m :: rest)
    (hs : a.Shows (.node n) (.node k o (u :: .node k' o' args :: us))) (j : Nat) :
    ∃ c, (a.cut m j).pushChildren n ((a.children m).drop j) = .ok c ∧
      Settles a n c
        (.node k o ((u :: .node k' o' (args.take j) :: us) ++ args.drop j)) := by
  have hm : .node m ∈ a.children n := by
    rw [hcs]
    simp
  have hnd : (nodesOf (flag :: .node m :: rest)).Nodup := by
    rw [← hcs]
    exact h.nodup_childNodes n
  obtain ⟨hflagm, hrestm⟩ := ne_of_nodup hnd
  obtain ⟨c, hres, hw, hcn, hcm, hlist, hother⟩ := exists_raise h hm j
  have hframe : ∀ q, q ≠ n → q ≠ m → c.kind? q = a.kind? q ∧ c.note? q = a.note? q ∧
      c.children q = a.children q := fun q hqn hqm =>
    ⟨(hother q).1, (hother q).2, hlist q hqn hqm⟩
  obtain ⟨hkn, hon, hts⟩ := shows_node.mp hs
  rw [hcs] at hts
  obtain ⟨hflag, htail⟩ := List.forall₂_cons.mp hts
  obtain ⟨hop, hrest⟩ := List.forall₂_cons.mp htail
  obtain ⟨hk, ho, hargs⟩ := shows_node.mp hop
  have hvalues : List.Forall₂ c.Shows (a.children m) args :=
    forall₂_imp_of_mem hargs fun x hx t _ hxt => hxt.of_grandchild h hm hframe hx
  refine ⟨c, hres, hw, shows_node.mpr ⟨(hother n).1.trans hkn, (hother n).2.trans hon, ?_⟩⟩
  rw [hcn, hcs]
  refine List.rel_append (.cons ?_ (.cons ?_ ?_)) (List.forall₂_drop _ hvalues)
  · exact hflag.of_sibling h hm hframe (by rw [hcs]; simp) hflagm
  · refine shows_node.mpr ⟨(hother m).1.trans hk, (hother m).2.trans ho, ?_⟩
    rw [hcm]
    exact List.forall₂_take _ hvalues
  · refine forall₂_imp_of_mem hrest fun x hx t _ hxt => ?_
    refine hxt.of_sibling h hm hframe ?_ fun e => hrestm (e ▸ hx)
    rw [hcs]
    exact List.mem_cons_of_mem _ (List.mem_cons_of_mem _ hx)

theorem ternaryIf_simulates (h : a.WellFormed) (hn : n < a.size)
    (hts : List.Forall₂ a.Shows (a.children n) ts) :
    Simulates (Settles a n) (Normalize.ternaryIf a n).result
      (Tree.hoist ts >>= Tree.choice (a.note? n)) := by
  obtain ⟨s, hslot⟩ := exists_slot? hn
  have hs : a.Shows (.node n) (.node s.kind (a.note? n) ts) :=
    shows_node.mpr ⟨kind?_eq hslot, rfl, hts⟩
  unfold Normalize.ternaryIf child?
  match hcs : a.children n, ts, hts with
  | [], _, .nil => exact .of_error rfl
  | [_], _, .cons _ .nil => exact .of_error rfl
  | _ :: .leaf l :: _, _ :: u :: _, .cons _ (.cons hop _) =>
      rw [shows_leaf.mp hop]
      exact .of_error rfl
  | flag :: .node m :: rest, u :: v :: us, .cons _ (.cons hop _) =>
      obtain ⟨k, o, args, rfl⟩ := hop.exists_node
      obtain ⟨-, -, hargs⟩ := shows_node.mp hop
      simp only [List.getElem?_cons_succ, List.getElem?_cons_zero, Tree.hoist, hargs.length_eq]
      by_cases hlen : args.length < 2
      · rw [if_pos hlen, if_pos hlen]
        exact .of_error rfl
      · rw [if_neg hlen, if_neg hlen]
        have hcut : a.splitOff m (args.length - 2) = .ok
            (a.cut m (args.length - 2), (a.children m).drop (args.length - 2)) := by
          refine splitOff_eq hop.lt_size ?_
          rw [hargs.length_eq]
          exact Nat.sub_le _ _
        obtain ⟨c, hres, hw, hshow⟩ := exists_hoist h hcs hs (args.length - 2)
        obtain ⟨hwk, hshow⟩ := settles_setKind hw.wellFormed hshow .ternaryIfBoolean
        obtain ⟨-, hnote, hlist⟩ := shows_node.mp hshow
        have hnc : n < c.size := hw.lt_size hn
        have hsim := ternaryIfBoolean_simulates hwk.wellFormed (hwk.lt_size hnc) hlist
        simp only [Traced.result_bind, Traced.result_liftM, hcut, ok_bind, hres,
          result_retag hnc, List.set_cons_succ, List.set_cons_zero]
        rw [hnote] at hsim
        exact hsim.mono fun d t hd => hd.after h (hw.trans h hwk)

/-! ### Coercions -/

/-- The first child of a child takes the place of the child. -/
theorem exists_replace (h : a.WellFormed) {m : NodeId} {i : Nat} {operand : Child}
    {rest : List Child} (hm : a.child? n i = some (.node m))
    (hop : a.children m = operand :: rest) (hs : a.Shows (.node n) (.node k o ts))
    (ht : a.Shows operand t) :
    ∃ c old, a.replaceChild n i operand = .ok (c, old) ∧
      Settles a n c (.node k o (ts.set i t)) := by
  obtain ⟨hk, ho, hts⟩ := shows_node.mp hs
  obtain ⟨hmn, hmi⟩ := h.placed n i m hm
  have hmem : .node m ∈ a.children n := List.mem_of_getElem? hm
  have hopm : operand ∈ a.children m := by
    rw [hop]
    exact List.mem_cons_self
  have hne : n ≠ m := (h.acyclic.ne_parent hmn).symm
  have hpar : ∀ x, operand = .node x → a.parent? x = some m := by
    rintro x rfl
    exact h.mem_children_iff.mp hopm
  have hlist : ∀ q, q ≠ m → (a.detachAll operand.node?.toList).children q = a.children q := by
    intro q hq
    rw [children_detachAll h]
    refine without_eq_self fun x hx hc => hq ?_
    exact Option.some.inj
      ((h.mem_children_iff.mp hc).symm.trans (hpar x (mem_node?_toList.mp hx)))
  have hw : Worked a (a.detachAll operand.node?.toList) n := by
    cases operand with
    | leaf l => exact .refl h n
    | node x =>
        exact (Worked.refl h n).detach h (inner_of_below h (hpar x rfl) (below_of_parent hmn))
  have hold : (a.detachAll operand.node?.toList).child? n i = some (.node m) := by
    rw [child?, hlist n hne]
    exact hm
  have hlt : n < (a.detachAll operand.node?.toList).size := hw.lt_size hs.lt_size
  refine ⟨_, _, replaceChild_eq_ok_iff.mpr
    ⟨fun x hx => lt_size_of_parent? (hpar x hx), hold, rfl⟩, ?_, ?_⟩
  · refine hw.overwrite h (zone_self a n) hold fun x hx => ⟨?_, free_of_detachAll h ?_ hx⟩
    · exact inner_of_below h (hpar x hx) (below_of_parent hmn)
    · intro y hy
      refine ⟨lt_size_of_parent? (hpar y hy), h.ne_root (hpar y hy), fun hb => ?_⟩
      exact h.not_below_parent (hpar y hy) ((below_of_parent hmn).trans hb)
  · have hframe : ∀ q, q ≠ n → q ≠ m →
        ((a.detachAll operand.node?.toList).overwrite n i (.node m) operand).kind? q = a.kind? q ∧
        ((a.detachAll operand.node?.toList).overwrite n i (.node m) operand).note? q = a.note? q ∧
        ((a.detachAll operand.node?.toList).overwrite n i (.node m) operand).children q
          = a.children q := by
      intro q hqn hqm
      rw [children_overwrite _ _ _ _ _ hlt, if_neg hqn, hlist q hqm]
      simp
    refine shows_node.mpr ⟨by simpa using hk, by simpa using ho, ?_⟩
    rw [children_overwrite _ _ _ _ _ hlt, if_pos rfl, hlist n hne]
    refine forall₂_set hts (ht.of_grandchild h hmem hframe hopm) fun j hj x hx y hxy => ?_
    refine hxy.of_sibling h hmem hframe (List.mem_of_getElem? hx) ?_
    rintro rfl
    exact hj ((h.placed n j m hx).2.symm.trans hmi)

theorem result_stripAt_leaf {i fuel : Nat} {l : Leaf} (hx : a.child? n i = some (.leaf l)) :
    (Normalize.stripAt n i (fuel + 1) a).result = .ok a := by
  obtain ⟨s, hs⟩ := exists_slot? (lt_size_of_child? hx)
  rw [child?, children_eq hs] at hx
  simp only [Normalize.stripAt, Traced.result_bind, Traced.result_liftM, slot_eq hs, ok_bind, hx,
    Traced.result_pure]

theorem result_stripAt_other {i fuel : Nat} {m : NodeId} (hx : a.child? n i = some (.node m))
    (hm : a.hasKind m .coerceB = false) :
    (Normalize.stripAt n i (fuel + 1) a).result = .ok a := by
  obtain ⟨s, hs⟩ := exists_slot? (lt_size_of_child? hx)
  rw [child?, children_eq hs] at hx
  simp only [Normalize.stripAt, Traced.result_bind, Traced.result_liftM, slot_eq hs, ok_bind, hx,
    hm, Bool.false_eq_true, if_false, Traced.result_pure]

theorem result_stripAt_coercion {i fuel : Nat} {m : NodeId}
    (hx : a.child? n i = some (.node m)) (hm : a.hasKind m .coerceB = true) :
    (Normalize.stripAt n i (fuel + 1) a).result
      = match a.children m with
        | [] => .error (.coercionWithoutOperand m)
        | operand :: _ => a.replaceChild n i operand >>= fun r =>
            (Normalize.stripAt n i fuel r.1).result := by
  obtain ⟨s, hs⟩ := exists_slot? (lt_size_of_child? hx)
  rw [child?, children_eq hs] at hx
  simp only [Normalize.stripAt, Traced.result_bind, Traced.result_liftM, slot_eq hs, ok_bind, hx,
    hm, if_true]
  unfold child?
  cases a.children m with
  | nil => rfl
  | cons operand rest =>
      simp only [List.getElem?_cons_zero, Traced.result_bind, Traced.result_emit, ok_bind,
        Traced.result_liftM]

theorem settles_set_self (h : a.WellFormed) {i : Nat} (hs : a.Shows (.node n) (.node k o ts))
    (hi : ts[i]? = some t) : Settles a n a (.node k o (ts.set i t)) := by
  obtain ⟨hlt, rfl⟩ := List.getElem?_eq_some_iff.mp hi
  rw [List.set_getElem_self hlt]
  exact ⟨.refl h n, hs⟩

/-- The rounds at one position: each goes one coercion deeper. -/
theorem stripAt_simulates (h : a.WellFormed) {i fuel : Nat}
    (hs : a.Shows (.node n) (.node k o ts)) (hi : ts[i]? = some t) (hfuel : t.height < fuel) :
    Simulates (fun b u => Settles a n b (.node k o (ts.set i u)))
      (Normalize.stripAt n i fuel a).result t.strip := by
  induction t using Tree.induction generalizing a ts fuel with
  | leaf l =>
      obtain ⟨fuel, rfl⟩ : ∃ f, fuel = f + 1 := ⟨fuel - 1, by omega⟩
      obtain ⟨x, hx, hxt⟩ := exists_getElem?_of_forall₂ (shows_node.mp hs).2.2 hi
      cases x with
      | leaf l' =>
          rw [result_stripAt_leaf hx]
          exact .of_ok (settles_set_self h hs hi)
      | node m =>
          obtain ⟨k', o', us, hnode⟩ := hxt.exists_node
          cases hnode
  | node k' o' us ih =>
      obtain ⟨fuel, rfl⟩ : ∃ f, fuel = f + 1 := ⟨fuel - 1, by omega⟩
      obtain ⟨x, hx, hxt⟩ := exists_getElem?_of_forall₂ (shows_node.mp hs).2.2 hi
      cases x with
      | leaf l' => cases shows_leaf.mp hxt
      | node m =>
          obtain ⟨hk', -, hus⟩ := shows_node.mp hxt
          by_cases hco : k' = .coerceB
          · subst hco
            have hm : a.hasKind m .coerceB = true := by simp [hasKind, hk']
            rw [result_stripAt_coercion hx hm]
            cases hcs : a.children m with
            | nil =>
                rw [hcs] at hus
                cases hus
                exact .of_error rfl
            | cons operand rest =>
                rw [hcs] at hus
                obtain ⟨u, us, hu, -, rfl⟩ := List.forall₂_cons_left_iff.mp hus
                obtain ⟨c, old, hres, hw, hshow⟩ := exists_replace h hx hcs hs hu
                have hlen : i < ts.length := (List.getElem?_eq_some_iff.mp hi).1
                have hstep := ih u List.mem_cons_self hw.wellFormed hshow
                  (List.getElem?_set_self hlen)
                  (Nat.lt_of_lt_of_le (Tree.height_lt_of_mem List.mem_cons_self)
                    (Nat.le_of_lt_succ hfuel))
                simp only [hres, ok_bind, Tree.strip]
                refine hstep.mono fun b v hb => ?_
                rw [List.set_set] at hb
                exact hb.after h hw
          · have hm : a.hasKind m .coerceB = false := by simp [hasKind, hk', hco]
            rw [result_stripAt_other hx hm, Tree.strip_of_ne hco]
            exact .of_ok (settles_set_self h hs hi)

/-- Position after position: the children before `done` have been stripped. -/
theorem strip_foldlM_simulates (slack : Nat) (h : a.WellFormed) (done : List Tree)
    {rest : List Tree} (hs : a.Shows (.node n) (.node k o (done ++ rest))) :
    Simulates (fun b us => Settles a n b (.node k o (done ++ us)))
      ((List.range' done.length rest.length).foldlM
        (fun a i => Normalize.stripAt n i (a.size + 1 + slack) a) a).result
      (rest.mapM Tree.strip) := by
  induction rest generalizing a done with
  | nil => exact .of_ok ⟨.refl h n, hs⟩
  | cons t rest ih =>
      have hi : (done ++ t :: rest)[done.length]? = some t := by simp
      have hheight : t.height < a.size + 1 + slack := by
        obtain ⟨x, -, hxt⟩ := exists_getElem?_of_forall₂ (shows_node.mp hs).2.2 hi
        have := hxt.height_le h
        omega
      rw [List.length_cons, List.range'_succ, List.foldlM_cons, List.mapM_cons,
        Traced.result_bind]
      refine (stripAt_simulates h hs hi hheight).bind fun b u hb => ?_
      have hb' : Settles a n b (.node k o ((done ++ [u]) ++ rest)) := by
        simpa using hb
      have hrest := ih hb'.1.wellFormed _ hb'.2
      rw [List.length_append, List.length_singleton] at hrest
      refine hrest.map_right fun c us hc => ?_
      rw [List.append_assoc] at hc
      exact hc.after h hb'.1

theorem stripCoercions_simulates (slack : Nat) (h : a.WellFormed)
    (hs : a.Shows (.node n) (.node k o ts)) :
    Simulates (fun b us => Settles a n b (.node k o us))
      (Normalize.stripCoercions slack a n).result (ts.mapM Tree.strip) := by
  have hloop := strip_foldlM_simulates slack h [] hs
  rw [Normalize.stripCoercions, (shows_node.mp hs).2.2.length_eq, List.range_eq_range']
  exact hloop

/-! ### Branches -/

theorem requireParent_eq (hp : a.parent? n = some p) : Normalize.requireParent a n = .ok p := by
  obtain ⟨s, hs⟩ := exists_slot? (lt_size_of_parent? hp)
  rw [parent?_eq hs] at hp
  simp only [Normalize.requireParent, slot_eq hs, ok_bind, hp, pure_eq_ok]

theorem requireParent_error (hk : a.kind? n = some k) (hn : n < a.size)
    (hp : a.parent? n = none) :
    Normalize.requireParent a n = .error (.needsParent k n) := by
  obtain ⟨s, hs⟩ := exists_slot? hn
  rw [parent?_eq hs] at hp
  rw [kind?_eq hs] at hk
  cases hk
  simp only [Normalize.requireParent, slot_eq hs, ok_bind, hp, throw_eq_error]

theorem result_mapCondition (h : a.WellFormed) (hp : a.parent? n = some p) (c : Condition) :
    (Normalize.mapCondition a n c).result
      = .ok ((a.setKind n (.ofCondition c)).meet n ⟨c.reversed, false⟩) := by
  have hk := h.setKind n (.ofCondition c)
  have hp' : (a.setKind n (.ofCondition c)).parent? n = some p := by
    rw [parent?_setKind]
    exact hp
  have hlist : (a.setKind n (.ofCondition c)).children p ≠ [] :=
    List.ne_nil_of_mem (hk.mem_children_iff.mpr hp')
  simp only [Normalize.mapCondition, Traced.result_bind, result_retag (lt_size_of_parent? hp),
    ok_bind, meet, hp']
  cases c.reversed with
  | false => rfl
  | true =>
      simp only [if_true, Traced.result_bind, Traced.result_liftM, requireParent_eq hp', ok_bind,
        result_negateFlag hk (hk.parent_lt hp') hlist]
      rfl

/-- A branch that becomes a choice of its own. -/
theorem fold_simulates (h : a.WellFormed) (hs : a.Shows (.node n) (.node k o ts))
    (flag : Bool) :
    Simulates (Settles a n)
      ((a.cut n 0).update n .ternaryIfBoolean (.leaf (.bool flag) :: a.children n) >>=
        (Normalize.ternaryIfBoolean · n)).result
      (Tree.choice o (.leaf (.bool flag) :: ts)) := by
  obtain ⟨-, rfl, hts⟩ := shows_node.mp hs
  obtain ⟨c, hres, hw, hr⟩ := exists_update_cut h hs.lt_size (.leaf (.bool flag) :: a.children n)
    (h.nodup_childNodes n) (fun x hx => mem_nodesOf.mp hx) .ternaryIfBoolean
  have hshow : List.Forall₂ c.Shows (c.children n) (.leaf (.bool flag) :: ts) := by
    rw [hr.list]
    refine .cons (shows_leaf.mpr rfl) ?_
    exact forall₂_imp_of_mem hts fun x hx t _ hxt => hr.shows_own h hx hxt
  have hsim := ternaryIfBoolean_simulates hw.wellFormed (hw.lt_size hs.lt_size) hshow
  rw [hr.note] at hsim
  rw [Traced.result_bind, hres, ok_bind]
  exact hsim.mono fun d t hd => hd.after h hw

theorem branch_simulates (h : a.WellFormed) {c : Condition}
    (hs : a.Shows (.node n) (.node (.branch c) o ts)) :
    Simulates (Dealt a n) (Normalize.branch a n c).result
      (Tree.branchRule (a.standing n) c o ts) := by
  obtain ⟨hk, hnote, hts⟩ := shows_node.mp hs
  have hn := hs.lt_size
  cases hp : a.parent? n with
  | none =>
      simp only [Normalize.branch, Traced.result_bind, Traced.result_liftM,
        requireParent_error hk hn hp, error_bind, standing, hp, Option.bind_none, Tree.branchRule]
      exact .of_error rfl
  | some p =>
      obtain ⟨s, hps⟩ := exists_slot? (h.parent_lt hp)
      have hkp : a.kind? p = some s.kind := kind?_eq hps
      have hmapped := settles_setKind h hs (.ofCondition c)
      have hstand : a.standing n = some (s.kind, a.index n) := by
        rw [standing, hp, Option.bind_some, hkp]
        rfl
      have hhas : ∀ k, a.hasKind p k = true ↔ s.kind = k := by
        intro k
        rw [hasKind, hkp, beq_iff_eq, Option.some.injEq]
      simp only [Normalize.branch, Traced.result_bind, Traced.result_liftM, requireParent_eq hp,
        ok_bind, hstand, Tree.branchRule, Bool.or_eq_true, Bool.and_eq_true, hhas, beq_iff_eq]
      by_cases hjump : s.kind = .jumpIf ∨ c.comparison?.isSome = true
      · rw [if_pos hjump, if_pos hjump, Traced.result_bind, Traced.result_emit, ok_bind,
          result_mapCondition h hp]
        exact .of_ok ⟨_, hmapped, rfl⟩
      rw [if_neg hjump, if_neg hjump]
      by_cases hslot : s.kind = .ternaryIf ∧ a.index n = 1
      · rw [if_pos hslot, if_pos hslot]
        have hpm : p < ((a.setKind n (.ofCondition c)).meet n ⟨c.reversed, false⟩).size := by
          rw [size_meet, size_setKind]
          exact h.parent_lt hp
        have hpk : (a.setKind n (.ofCondition c)).parent? n = some p := by
          rw [parent?_setKind]
          exact hp
        simp only [Traced.result_bind, Traced.result_emit, ok_bind, result_mapCondition h hp,
          result_retag hpm]
        exact .of_ok ⟨_, hmapped, (meet_retag hpk c.reversed).symm⟩
      rw [if_neg hslot, if_neg hslot, hts.length_eq]
      by_cases hlen : ts.length = 2
      · rw [if_pos hlen, if_pos hlen]
        have hcut : a.splitOff n 0 = .ok (a.cut n 0, a.children n) :=
          splitOff_eq hn (Nat.zero_le _)
        have hfold := fold_simulates h hs c.reversed
        rw [Traced.result_bind] at hfold
        simp only [Traced.result_bind, Traced.result_emit, Traced.result_liftM, ok_bind, hcut]
        exact hfold.map_right fun d t hd => hd.dealt
      · rw [if_neg hlen, if_neg hlen, result_mapCondition h hp]
        exact .of_ok ⟨_, hmapped, rfl⟩

/-! ### All rules -/

/-- **Every rule of the arena does what the rule of trees does**: for a node of a well-formed
arena that shows a tree, in the place where the node stands. -/
theorem handle_simulates (slack : Nat) (h : a.WellFormed)
    (hs : a.Shows (.node n) (.node k o ts)) :
    Simulates (Dealt a n) (Normalize.handle slack a n k).result
      (Tree.rule (a.standing n) k o ts) := by
  obtain ⟨-, hnote, hts⟩ := shows_node.mp hs
  have hn := hs.lt_size
  have hidle : Dealt a n a (.node k o ts, .none) := Settles.dealt ⟨.refl h n, hs⟩
  have hretag : ∀ k', Simulates (Dealt a n) (a.retag n k').result
      (.ok (.node k' o ts, .none)) := by
    intro k'
    rw [result_retag hn]
    exact .of_ok (settles_setKind h hs k').dealt
  have hhint : Simulates (Dealt a n) (Normalize.hint a n).result
      (.ok (.node .nop o [], .none)) := by
    obtain ⟨b, hres, hb⟩ := result_hint_settles h hs
    rw [hres]
    exact .of_ok hb.dealt
  have hstrip : Simulates (Dealt a n) (Normalize.stripCoercions slack a n).result
      (ts.mapM Tree.strip >>= fun us => pure (.node k o us, .none)) :=
    (stripCoercions_simulates slack h hs).map_right fun b us hb => hb.dealt
  cases k with
  | pop => exact pop_simulates h hs _
  | callPropertyVoid => exact hretag .callProperty
  | callSuperVoid => exact hretag .callSuper
  | branch c => exact branch_simulates h hs
  | ternaryIf =>
      have hsim := ternaryIf_simulates h hn hts
      rw [hnote] at hsim
      have hmap := hsim.map_right fun b t hb => hb.dealt
      rw [bind_assoc] at hmap
      exact hmap
  | ternaryIfBoolean =>
      have hsim := ternaryIfBoolean_simulates h hn hts
      rw [hnote] at hsim
      exact hsim.map_right fun b t hb => hb.dealt
  | and | or | jumpIf => exact hstrip
  | kill | debug | debugFile | debugLine => exact hhint
  | nop | expand | callProperty | callSuper | ternary | coerceB => exact .of_ok hidle
  | compare _ => exact .of_ok hidle
  | other _ => exact .of_ok hidle

end Arena

end Unstack
