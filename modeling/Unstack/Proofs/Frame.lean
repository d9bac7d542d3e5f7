import Unstack.Proofs.Arena.Numbered
import Unstack.Proofs.Walk.Order

/-! # The frame of normalisation

What normalisation leaves alone, and what it adds.

* **Confined changes.**  `Confined ns a b` says that `b` comes from `a` with the slots and the notes
  that `a` has, and that kinds and lists of children have changed at the nodes `ns` only.  There are
  two exceptions: a choice becomes one with a flag when a test in its condition slot is done, and
  lists elsewhere may lose nodes, but an empty one stays empty.
* **Rules.**  The rule for a node, and the splicing before it, are confined to the node
  (`Confined.handle`, `Confined.splice`).  The rule for a discarded value first adds a `nop`
  (`confined_pop`), with the note of the node.
* **Runs.**  So what a run over a list of nodes does is confined to them, once the `nop`s of the
  discarded values among them are there (`confined_of_foldlM`); and a walk is such a run. -/

namespace Unstack

open Outcome

namespace Arena

variable {a b c : Arena} {m n p : NodeId} {ns ns' : List NodeId} {k : Kind} {cs : List Child}

/-- The changes from `a` to `b` are confined to the nodes `ns`. -/
structure Confined (ns : List NodeId) (a b : Arena) : Prop where
  size : b.size = a.size
  note : ∀ m, b.note? m = a.note? m
  /-- Elsewhere, only choices change their kind, from the one form to the other. -/
  kind : ∀ m ∉ ns, b.kind? m = a.kind? m ∨
    a.kind? m = some .ternaryIf ∧ b.kind? m = some .ternaryIfBoolean
  /-- Elsewhere, no node gets its first child. -/
  bare : ∀ m ∉ ns, a.children m = [] → b.children m = []

namespace Confined

theorem refl (ns : List NodeId) (a : Arena) : Confined ns a a :=
  ⟨rfl, fun _ => rfl, fun _ _ => .inl rfl, fun _ _ h => h⟩

theorem trans (h : Confined ns a b) (h' : Confined ns b c) : Confined ns a c where
  size := h'.size.trans h.size
  note m := (h'.note m).trans (h.note m)
  kind m hm := by
    rcases h.kind m hm with hab | ⟨ha, hb⟩ <;> rcases h'.kind m hm with hbc | ⟨hb', hc⟩
    · exact .inl (hbc.trans hab)
    · exact .inr ⟨hab.symm.trans hb', hc⟩
    · exact .inr ⟨ha, hbc.trans hb⟩
    · rw [hb] at hb'
      cases hb'
  bare m hm ha := h'.bare m hm (h.bare m hm ha)

theorem mono (h : Confined ns a b) (hns : ns ⊆ ns') : Confined ns' a b :=
  ⟨h.size, h.note, fun m hm => h.kind m fun e => hm (hns e),
    fun m hm => h.bare m fun e => hm (hns e)⟩

/-- Elsewhere, a kind that is not one of a choice is neither lost nor given. -/
theorem kind?_eq_iff (h : Confined ns a b) (hm : m ∉ ns) (hif : k ≠ .ternaryIf)
    (hflag : k ≠ .ternaryIfBoolean) : b.kind? m = some k ↔ a.kind? m = some k := by
  rcases h.kind m hm with hk | ⟨ha, hb⟩
  · rw [hk]
  · rw [ha, hb, Option.some.injEq, Option.some.injEq]
    exact iff_of_false hflag.symm hif.symm

/-! ### Primitive changes -/

variable (h : Confined ns a b)

include h

theorem of_lists (hsize : c.size = b.size) (hnote : ∀ m, c.note? m = b.note? m)
    (hkind : ∀ m, c.kind? m = b.kind? m)
    (hlist : ∀ m ∉ ns, b.children m = [] → c.children m = []) : Confined ns a c :=
  h.trans ⟨hsize, hnote, fun m _ => .inl (hkind m), hlist⟩

theorem foldl {β : Type} {f : Arena → β → Arena}
    (hf : ∀ c x, Confined ns a c → Confined ns a (f c x)) (xs : List β) :
    Confined ns a (xs.foldl f b) := by
  induction xs generalizing b with
  | nil => exact h
  | cons x xs ih => exact ih (hf b x h)

theorem setKind (hn : n ∈ ns) (k : Kind) : Confined ns a (b.setKind n k) := by
  refine h.trans ⟨size_setKind b n k, fun m => note?_setKind b n m k, fun m hm => .inl ?_,
    fun m _ hb => by rwa [children_setKind]⟩
  have hne : m ≠ n := fun e => hm (e ▸ hn)
  rw [kind?_setKind, if_neg fun e => hne e.1]

theorem setList (n : NodeId) (cs : List Child) (hlist : n ∈ ns ∨ (b.children n = [] → cs = [])) :
    Confined ns a (b.setList n cs) := by
  refine h.of_lists (size_setList b n cs) (fun m => note?_setList b n m cs)
    (fun m => kind?_setList b n m cs) fun m hm hb => ?_
  rw [children_setList]
  split_ifs with hmn
  · obtain ⟨rfl, -⟩ := hmn
    exact (hlist.resolve_left hm) hb
  · exact hb

theorem orphan (n : NodeId) : Confined ns a (b.orphan n) :=
  h.of_lists (size_orphan b n) (fun m => note?_orphan b n m) (fun m => kind?_orphan b n m)
    fun m _ hb => by rwa [children_orphan]

theorem place (p : NodeId) (i : Nat) (n : NodeId) : Confined ns a (b.place p i n) :=
  h.of_lists (size_place b p i n) (fun m => note?_place b n m p i) (fun m => kind?_place b n m p i)
    fun m _ hb => by rwa [children_place]

theorem release (p n : NodeId) : Confined ns a (b.release p n) := by
  unfold Arena.release
  split_ifs
  · exact h.orphan n
  · exact h

theorem reindex (p : NodeId) : Confined ns a (b.reindex p) :=
  h.of_lists (size_reindex b p) (fun m => note?_reindex b p m) (fun m => kind?_reindex b p m)
    fun m _ hb => by rwa [children_reindex]

theorem detach (n : NodeId) : Confined ns a (b.detach n) := by
  unfold Arena.detach
  split
  · exact h
  · simp only
    split_ifs
    · refine ((h.orphan n).setList _ _ (.inr fun hb => ?_)).reindex _
      rw [hb, List.eraseIdx_nil]
    · exact h.orphan n

theorem detachAll (ids : List NodeId) : Confined ns a (b.detachAll ids) :=
  h.foldl (fun _ n hc => hc.detach n) ids

theorem assign (hn : n ∈ ns) (cs : List Child) : Confined ns a (b.assign n cs) := by
  unfold Arena.assign
  have hreleased := (h.setList n [] (.inl hn)).foldl (fun c x hc => hc.release n x)
    (b.childNodes n)
  exact ((hreleased.detachAll _).setList n cs (.inl hn)).reindex n

theorem splice (hn : n ∈ ns) : Confined ns a (b.splice n) := by
  unfold Arena.splice
  split_ifs
  · have hempty := (h.setList n [] (.inl hn)).foldl
      (fun c x hc => (hc.orphan x).setList x [] (.inr fun _ => rfl)) (b.expansionsOf (b.children n))
    exact (hempty.setList n _ (.inl hn)).reindex n
  · exact h

/-- A new slot in both. -/
theorem push (k : Kind) (o : Option Note) : Confined ns (a.push k o) (b.push k o) where
  size := by rw [size_push, size_push, h.size]
  note m := by rw [note?_push, note?_push, h.size, h.note]
  kind m hm := by
    rw [kind?_push, kind?_push, h.size]
    split_ifs
    · exact .inl rfl
    · exact h.kind m hm
  bare m hm ha := by
    rw [children_push] at ha ⊢
    exact h.bare m hm ha

/-! ### Edits -/

theorem retag (hn : n ∈ ns) (hr : (b.retag n k).result = .ok c) : Confined ns a c := by
  rw [result_retag (lt_size_of_result_slot hr)] at hr
  cases hr
  exact h.setKind hn k

theorem update (hn : n ∈ ns) (hr : (b.update n k cs).result = .ok c) : Confined ns a c := by
  rw [Arena.update, Traced.result_bind] at hr
  obtain ⟨d, hd, hr⟩ := exists_of_bind_eq_ok hr
  obtain ⟨-, -, rfl⟩ := setChildren_eq_ok_iff.mp hr
  exact (h.retag hn hd).assign hn cs

theorem splitOff {i : Nat} {r : Arena × List Child} (hr : b.splitOff n i = .ok r) :
    Confined ns a r.1 := by
  have hn := lt_size_of_slot_bind hr
  by_cases hi : i ≤ (b.children n).length
  · rw [splitOff_eq hn hi] at hr
    cases hr
    refine Confined.foldl (h.setList n _ (.inr fun hb => ?_)) (fun c x hc => hc.orphan x) _
    rw [hb, List.take_nil]
  · rw [splitOff_error hn (Nat.lt_of_not_le hi)] at hr
    cases hr

theorem pushChildren (hn : n ∈ ns) (hr : b.pushChildren n cs = .ok c) : Confined ns a c := by
  obtain ⟨-, -, hr⟩ := exists_of_bind_eq_ok hr
  cases hr
  exact ((h.detachAll _).setList n _ (.inl hn)).reindex n

theorem replaceChild {i : Nat} {child : Child} {r : Arena × Child}
    (hr : b.replaceChild p i child = .ok r) : Confined ns a r.1 := by
  obtain ⟨c, old⟩ := r
  obtain ⟨-, -, rfl⟩ := replaceChild_eq_ok_iff.mp hr
  have hset := (h.detachAll child.node?.toList).setList p
    (((b.detachAll child.node?.toList).children p).set i child)
    (.inr fun hb => by rw [hb, List.set_nil])
  have hreleased := hset.foldl (fun c x hc => hc.release p x) old.node?.toList
  exact hreleased.foldl (fun c x hc => hc.place p i x) child.node?.toList

theorem negateFlag (hr : (b.negateFlag p).result = .ok c) : Confined ns a c := by
  simp only [Arena.negateFlag, Traced.result_bind, Traced.result_liftM] at hr
  obtain ⟨s, -, hr⟩ := exists_of_bind_eq_ok hr
  have hreplace : ∀ child, (do
      let r ← liftM (b.replaceChild p 0 child)
      pure r.1 : Traced Arena).result = .ok c → Confined ns a c := by
    intro child hr
    rw [Traced.result_bind] at hr
    obtain ⟨r, hreplace, hr⟩ := exists_of_bind_eq_ok hr
    cases hr
    exact h.replaceChild hreplace
  split at hr
  · cases hr
  · split at hr
    · exact hreplace _ hr
    · rw [Traced.result_bind] at hr
      obtain ⟨t, -, hr⟩ := exists_of_bind_eq_ok hr
      exact hreplace _ hr

/-! ### Rules -/

theorem ternaryIfBoolean (hn : n ∈ ns) (hr : (Normalize.ternaryIfBoolean b n).result = .ok c) :
    Confined ns a c := by
  rw [Normalize.ternaryIfBoolean, Traced.result_bind] at hr
  obtain ⟨⟨d, parts⟩, hcut, hr⟩ := exists_of_bind_eq_ok hr
  simp only at hr
  split at hr
  · exact (h.splitOff hcut).update hn hr
  · cases hr

theorem ternaryIf (hn : n ∈ ns) (hr : (Normalize.ternaryIf b n).result = .ok c) :
    Confined ns a c := by
  unfold Normalize.ternaryIf at hr
  split at hr
  · simp only at hr
    split_ifs at hr
    · cases hr
    · simp only [Traced.result_bind, Traced.result_liftM] at hr
      obtain ⟨r, hcut, hr⟩ := exists_of_bind_eq_ok hr
      obtain ⟨d, hpush, hr⟩ := exists_of_bind_eq_ok hr
      obtain ⟨e, hretag, hr⟩ := exists_of_bind_eq_ok hr
      have hd := (h.splitOff hcut).pushChildren hn hpush
      exact (hd.retag hn hretag).ternaryIfBoolean hn hr
  · cases hr
  · cases hr

theorem mapCondition {t : Condition} (hn : n ∈ ns)
    (hr : (Normalize.mapCondition b n t).result = .ok c) : Confined ns a c := by
  rw [Normalize.mapCondition, Traced.result_bind] at hr
  obtain ⟨d, hretag, hr⟩ := exists_of_bind_eq_ok hr
  have hd := h.retag hn hretag
  split_ifs at hr
  · rw [Traced.result_bind] at hr
    obtain ⟨p, -, hr⟩ := exists_of_bind_eq_ok hr
    exact hd.negateFlag hr
  · cases hr
    exact hd

/-- A test in the condition slot turns its choice into one with a flag. -/
theorem retag_choice (hp : a.hasKind p .ternaryIf = true)
    (hr : (b.retag p .ternaryIfBoolean).result = .ok c) : Confined ns a c := by
  rw [result_retag (lt_size_of_result_slot hr)] at hr
  cases hr
  refine ⟨(size_setKind ..).trans h.size, fun m => (note?_setKind ..).trans (h.note m),
    fun m hm => ?_, fun m hm ha => ?_⟩
  · rw [kind?_setKind]
    split_ifs with hmp
    · obtain ⟨rfl, -⟩ := hmp
      exact .inr ⟨beq_iff_eq.mp hp, rfl⟩
    · exact h.kind m hm
  · rw [children_setKind]
    exact h.bare m hm ha

theorem stripAt {i fuel : Nat} (hr : (Normalize.stripAt n i fuel b).result = .ok c) :
    Confined ns a c := by
  induction fuel generalizing b with
  | zero => cases hr
  | succ fuel ih =>
      rw [Normalize.stripAt, Traced.result_bind] at hr
      obtain ⟨s, -, hr⟩ := exists_of_bind_eq_ok hr
      split at hr
      · cases hr
      · cases hr
        exact h
      · split_ifs at hr
        · split at hr
          · cases hr
          · simp only [Traced.result_bind, Traced.result_emit, ok_bind, Traced.result_liftM] at hr
            obtain ⟨r, hreplace, hr⟩ := exists_of_bind_eq_ok hr
            exact ih (h.replaceChild hreplace) hr
        · cases hr
          exact h

omit h

theorem branch {t : Condition} (hn : n ∈ ns) (hr : (Normalize.branch a n t).result = .ok b) :
    Confined ns a b := by
  have h := Confined.refl ns a
  rw [Normalize.branch, Traced.result_bind] at hr
  obtain ⟨p, -, hr⟩ := exists_of_bind_eq_ok hr
  split_ifs at hr with hjump hslot hfold
  · exact h.mapCondition hn hr
  · simp only [Traced.result_bind, Traced.result_emit, ok_bind] at hr
    obtain ⟨d, hmap, hr⟩ := exists_of_bind_eq_ok hr
    rw [Bool.and_eq_true] at hslot
    exact (h.mapCondition hn hmap).retag_choice hslot.1 hr
  · simp only [Traced.result_bind, Traced.result_emit, ok_bind, Traced.result_liftM] at hr
    obtain ⟨r, hcut, hr⟩ := exists_of_bind_eq_ok hr
    obtain ⟨d, hupdate, hr⟩ := exists_of_bind_eq_ok hr
    exact ((h.splitOff hcut).update hn hupdate).ternaryIfBoolean hn hr
  · exact h.mapCondition hn hr

/-- **A rule is confined to its node**, if it is not the one for discarded values. -/
theorem handle {slack : Nat} (hk : k ≠ .pop) (hn : n ∈ ns)
    (hr : (Normalize.handle slack a n k).result = .ok b) : Confined ns a b := by
  have h := Confined.refl ns a
  cases k with
  | pop => exact absurd rfl hk
  | callPropertyVoid | callSuperVoid => exact h.retag hn hr
  | branch t => exact Confined.branch hn hr
  | ternaryIf => exact h.ternaryIf hn hr
  | ternaryIfBoolean => exact h.ternaryIfBoolean hn hr
  | and | or | jumpIf => exact of_result_foldlM (fun c i d hc hd => hc.stripAt hd) h hr
  | kill | debug | debugFile | debugLine => exact h.update hn hr
  | _ =>
      cases hr
      exact h

end Confined

/-! ### New nodes -/

/-- Makes room for what the rule of a node needs: a discarded value leaves a `nop` with its note. -/
def prepared (a : Arena) (n : NodeId) : Arena :=
  if a.hasKind n .pop then a.push .nop (a.note? n) else a

/-- The rule for a discarded value is confined to its node, once the new node is there. -/
theorem confined_pop (h : a.WellFormed) (hn : n ∈ ns) (hr : (Normalize.pop a n).result = .ok b) :
    Confined ns (a.push .nop (a.note? n)) b := by
  unfold Normalize.pop at hr
  split at hr
  · cases hr
  · simp only [Traced.result_bind, Traced.result_liftM, addNode_nil h, ok_bind] at hr
    exact (Confined.refl ns _).update hn hr

/-- **What a walk does at a node is confined to it**, once there is room. -/
theorem confined_arrive {slack : Nat} (h : a.WellFormed) (hn : n < a.size)
    (hr : (Walk.arrive (Normalize.handle slack) a n).result = .ok b) :
    Confined [n] (a.prepared n) b := by
  obtain ⟨s, hs⟩ := exists_slot? hn
  have hk := kind?_eq hs
  have hsplice := (Confined.refl [n] a).splice (List.mem_singleton_self n)
  -- splicing changes neither the kind nor the note, so it may as well come after the new node
  rw [Walk.result_arrive h hk] at hr
  unfold prepared
  split_ifs with hpop
  · rw [hasKind, beq_iff_eq, hk, Option.some.injEq] at hpop
    rw [hpop] at hr
    have hrule := confined_pop (wellFormed_splice h hn) (List.mem_singleton_self n) hr
    rw [note?_splice] at hrule
    exact (hsplice.push .nop (a.note? n)).trans hrule
  · rw [hasKind, beq_iff_eq, hk, Option.some.injEq] at hpop
    exact hsplice.trans (Confined.handle hpop (List.mem_singleton_self n) hr)

/-! ### Runs -/

/-- The discarded values among the nodes, in order. -/
def popsOf (a : Arena) (ns : List NodeId) : List NodeId := ns.filter (a.hasKind · .pop)

/-- The arena with one more `nop` for each of the nodes, with its note. -/
def withNops (a : Arena) (ns : List NodeId) : Arena :=
  a.pushAll (ns.map fun n => ⟨.nop, [], none, 0, a.note? n⟩)

theorem size_withNops (a : Arena) (ns : List NodeId) :
    (a.withNops ns).size = a.size + ns.length := by
  rw [withNops, size_pushAll, List.length_map]

theorem slot?_withNops (hm : m < a.size) (ns : List NodeId) :
    (a.withNops ns).slot? m = a.slot? m :=
  Array.getElem?_append_left hm

theorem slot?_withNops_new {i : Nat} (hi : ns[i]? = some n) :
    (a.withNops ns).slot? (a.size + i) = some ⟨.nop, [], none, 0, a.note? n⟩ := by
  have happend : (a.withNops ns).slot? (a.size + i)
      = (ns.map fun n => (⟨.nop, [], none, 0, a.note? n⟩ : Slot)).toArray[i]? := by
    refine (Array.getElem?_append_right (Nat.le_add_right _ _)).trans ?_
    rw [Nat.add_sub_cancel_left]
  rw [happend, List.getElem?_toArray, List.getElem?_map, hi, Option.map_some]

theorem withNops_concat (a : Arena) (ns : List NodeId) (n : NodeId) :
    a.withNops (ns ++ [n]) = (a.withNops ns).push .nop (a.note? n) := by
  rw [push_eq_pushAll, withNops, withNops, pushAll_pushAll, List.map_append, List.map_singleton]

/-- **One node more.**  A node that has not been dealt with is a discarded value if it was one at
the start, and has the note that it had. -/
theorem Confined.prepared (h : Confined ns (a.withNops (a.popsOf ns)) b) (hn : n < a.size)
    (hns : n ∉ ns) : Confined ns (a.withNops (a.popsOf (ns ++ [n]))) (b.prepared n) := by
  have hslot := slot?_withNops hn (a.popsOf ns)
  have hpop : b.hasKind n .pop = a.hasKind n .pop := by
    have hiff := h.kind?_eq_iff (k := .pop) hns (by decide) (by decide)
    rw [kind?_congr hslot] at hiff
    rw [Bool.eq_iff_iff, hasKind, hasKind, beq_iff_eq, beq_iff_eq]
    exact hiff
  have hnote : b.note? n = a.note? n := (h.note n).trans (note?_congr hslot)
  unfold Arena.prepared popsOf
  rw [List.filter_append, hpop, hnote]
  split_ifs with hp
  · rw [List.filter_singleton, hp, cond_true, withNops_concat]
    exact h.push .nop (a.note? n)
  · rw [List.filter_singleton, Bool.eq_false_of_not_eq_true hp, cond_false, List.append_nil]
    exact h

/-- **A run is confined to its nodes**, once there is a `nop` for every discarded value among them.
The nodes `ns` have been dealt with on the way to `b`. -/
theorem confined_of_foldlM {slack : Nat} (ns : List NodeId) {todo : List NodeId} (hb : b.WellFormed)
    (h : Confined ns (a.withNops (a.popsOf ns)) b) (hnodup : (ns ++ todo).Nodup)
    (hlt : ∀ n ∈ todo, n < a.size)
    (hr : (todo.foldlM (Walk.arrive (Normalize.handle slack)) b).result = .ok c) :
    Confined (ns ++ todo) (a.withNops (a.popsOf (ns ++ todo))) c := by
  induction todo generalizing ns b with
  | nil =>
      cases hr
      rw [List.append_nil]
      exact h
  | cons n todo ih =>
      have hn : n < a.size := hlt n List.mem_cons_self
      have hns : n ∉ ns := fun e =>
        (List.nodup_append.mp hnodup).2.2 n e n List.mem_cons_self rfl
      have hnb : n < b.size := by
        rw [h.size, size_withNops]
        exact Nat.lt_add_right _ hn
      rw [List.foldlM_cons, Traced.result_bind] at hr
      obtain ⟨d, hd, hr⟩ := exists_of_bind_eq_ok hr
      have hdone : Confined (ns ++ [n]) (a.withNops (a.popsOf (ns ++ [n]))) d :=
        ((h.prepared hn hns).mono (List.subset_append_left _ _)).trans
          ((confined_arrive hb hnb hd).mono (List.subset_append_right _ _))
      have hwf := (Walk.touched_of_arrive (Normalize.handle_local slack) hb hnb hd).wellFormed
      rw [List.append_cons] at hnodup ⊢
      exact ih _ hwf hdone hnodup (fun m hm => hlt m (List.mem_cons_of_mem _ hm)) hr

/-! ### The frame -/

/-- The discarded values of the tree, in post-order. -/
def pops (a : Arena) : List NodeId := a.popsOf a.postorder

theorem confined_normalize (h : a.WellFormed) (hr : a.normalize.result = .ok b) :
    Confined a.postorder (a.withNops a.pops) b := by
  have hrun : (Walk.run (Normalize.handle a.walkBound) a).result = .ok b := hr
  rw [Walk.run_eq_foldlM (Normalize.handle_local _) h] at hrun
  exact confined_of_foldlM [] h (.refl [] a) (nodup_postorder h)
    (fun n => lt_size_of_mem_postorder h) hrun

/-- **What normalisation leaves alone, and what it adds.**  The root stays the root, and a slot that
is not in the tree stays as it is in every field.  No slot loses its note or gets another.  Every
discarded value of the tree leaves one new slot, in post-order: a `nop` without children, with the
note of the discarded value.  And the tree of the result holds no other nodes than these and those
of before. -/
theorem normalize_adds_nops_only (h : a.WellFormed) (hb : a.normalize.result = .ok b) :
    b.root = a.root ∧
    (∀ n < a.size, ¬ a.Below n a.root → b.slot? n = a.slot? n) ∧
    (∀ n < a.size, b.note? n = a.note? n) ∧
    (a.pops.Nodup ∧ ∀ n, n ∈ a.pops ↔ a.Below n a.root ∧ a.kind? n = some .pop) ∧
    b.size = a.size + a.pops.length ∧
    (∀ i n, a.pops[i]? = some n → b.kind? (a.size + i) = some .nop ∧
      b.children (a.size + i) = [] ∧ b.note? (a.size + i) = a.note? n) ∧
    ∀ n, b.Below n b.root → a.Below n a.root ∨ ∃ i < a.pops.length, n = a.size + i := by
  obtain ⟨t, hs, -⟩ := exists_shows h h.root_lt
  have hsim := normalize_simulates h hs
  rw [hb] at hsim
  obtain ⟨u, -, hw, -⟩ := hsim.exists_of_ok
  have hc := confined_normalize h hb
  have hsize : b.size = a.size + a.pops.length := hc.size.trans (size_withNops a a.pops)
  refine ⟨hw.root, fun n hn hout => hw.outside n ?_, fun n hn => ?_, ⟨?_, fun n => ?_⟩, hsize,
    fun i n hi => ?_, fun n hn => ?_⟩
  · rintro (hbelow | hnew)
    · exact hout hbelow
    · exact absurd hn (Nat.not_lt.mpr hnew)
  · exact (hc.note n).trans (note?_congr (slot?_withNops hn a.pops))
  · exact (nodup_postorder h).filter _
  · rw [pops, popsOf, List.mem_filter, mem_postorder_iff h, hasKind, beq_iff_eq]
  · have hslot : (a.withNops a.pops).slot? (a.size + i) = _ := slot?_withNops_new hi
    have hnew : a.size + i ∉ a.postorder := fun hm =>
      absurd (lt_size_of_mem_postorder h hm) (Nat.not_lt.mpr (Nat.le_add_right _ _))
    refine ⟨?_, hc.bare _ hnew (children_eq hslot), (hc.note _).trans (note?_eq hslot)⟩
    exact (hc.kind?_eq_iff hnew (by decide) (by decide)).mpr (kind?_eq hslot)
  · rw [hw.root] at hn
    rcases hw.zone_of_below h hn with hbelow | hnew
    · exact .inl hbelow
    · have hlt : n < b.size := lt_of_below hn (hw.lt_size h.root_lt)
      rw [hsize] at hlt
      exact .inr ⟨n - a.size, Nat.sub_lt_left_of_lt_add hnew hlt, (Nat.add_sub_cancel' hnew).symm⟩

/-- One discarded value below another, and one below a hint, which drops it: its `nop` is made all
the same, but it is not in the tree of the result.  Slot 0 has never been in the tree. -/
theorem normalize_adds_nops_only_nested :
    ∃ a b : Arena, a.WellFormed ∧
      a.tree = .ok (.plain (.other "body")
        [.node .pop (some ⟨some 7, none⟩) [.plain (.other "call")
            [.node .pop (some ⟨some 8, none⟩) [.text "x"]]],
          .plain .kill [.node .pop (some ⟨some 9, none⟩) [.text "y"]]]) ∧
      a.normalize.result = .ok b ∧ a.pops = [1, 3, 4] ∧ b.size = a.size + 3 ∧
      b.slot? 0 = a.slot? 0 ∧ b.note? a.size = some ⟨some 8, none⟩ ∧
      b.note? (a.size + 1) = some ⟨some 7, none⟩ ∧ b.note? (a.size + 2) = some ⟨some 9, none⟩ ∧
      b.kind? (a.size + 2) = some .nop ∧ a.size + 2 ∉ b.descendants := by
  have hwf := wellFormed_ofTree (.plain (.other "body")
    [.node .pop (some ⟨some 7, none⟩) [.plain (.other "call")
        [.node .pop (some ⟨some 8, none⟩) [.text "x"]]],
      .plain .kill [.node .pop (some ⟨some 9, none⟩) [.text "y"]]])
  obtain ⟨-, hout, -, -, hsize, hnew, -⟩ := normalize_adds_nops_only hwf rfl
  have hnot := mt (mem_descendants_iff hwf).mpr (show 0 ∉ _ by decide)
  exact ⟨_, _, hwf, tree_ofTree _ _ _, rfl, rfl, hsize, hout 0 (by decide) hnot, (hnew 0 1 rfl).2.2,
    (hnew 1 3 rfl).2.2, (hnew 2 4 rfl).2.2, (hnew 2 4 rfl).1, by decide⟩

end Arena

end Unstack
