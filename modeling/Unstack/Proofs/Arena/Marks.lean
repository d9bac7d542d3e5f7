import Unstack.Normalize
import Unstack.Proofs.Arena.Edits

/-! # Marks

Normalising never looks at notes, and a node that it has no rule for keeps its kind and its note.
So a node of unknown kind can be followed: its number is put into its note, and the tree that comes
out says where it went.

* `Arena.mark` puts the marks of a marking in the place of all notes.
* `Arena.Suits` says that only nodes of unknown kinds are marked.
* `Arena.alike_normalize`: an arena and the marked one fare alike, and the marks still suit the
  result. -/

namespace Unstack

open Outcome

/-! ### Outcomes that are alike -/

/-- Two outcomes agree: both give something, and the two things are related, or both are the same
fault. -/
inductive Alike {α β : Type} (R : α → β → Prop) : Except Fault α → Except Fault β → Prop
  | of_ok {x : α} {y : β} (h : R x y) : Alike R (.ok x) (.ok y)
  | of_error (e : Fault) : Alike R (.error e) (.error e)

namespace Alike

variable {α β γ δ : Type} {R : α → β → Prop} {S : γ → δ → Prop}

theorem exists_ok {r : Except Fault α} {y : β} (h : Alike R r (.ok y)) :
    ∃ x, r = .ok x ∧ R x y := by
  cases h with
  | of_ok h => exact ⟨_, rfl, h⟩

theorem bind {r : Except Fault α} {s : Except Fault β} {f : α → Except Fault γ}
    {g : β → Except Fault δ} (h : Alike R r s) (hfg : ∀ x y, R x y → Alike S (f x) (g y)) :
    Alike S (r >>= f) (s >>= g) := by
  cases h with
  | of_ok h => exact hfg _ _ h
  | of_error e => exact .of_error e

/-- A first part that does not depend on the side. -/
theorem bind_same {ε : Type} {r : Except Fault ε} {f : ε → Except Fault γ}
    {g : ε → Except Fault δ} (hfg : ∀ x, r = .ok x → Alike S (f x) (g x)) :
    Alike S (r >>= f) (r >>= g) := by
  cases r with
  | error e => exact of_error e
  | ok x => exact hfg x rfl

/-- Loops whose rounds are alike. -/
theorem foldlM {ε : Type} {f : α → ε → Traced α} {g : β → ε → Traced β} (xs : List ε)
    (hfg : ∀ x y i, R x y → Alike R (f x i).result (g y i).result) {x : α} {y : β} (h : R x y) :
    Alike R (xs.foldlM f x).result (xs.foldlM g y).result := by
  induction xs generalizing x y with
  | nil => exact .of_ok h
  | cons i xs ih =>
      rw [List.foldlM_cons, List.foldlM_cons, Traced.result_bind, Traced.result_bind]
      exact (hfg x y i h).bind fun _ _ => ih

end Alike

/-! ### Markings -/

/-- The nodes that are marked, each with the name of its kind. -/
abbrev Marking := NodeId → Option String

/-- The note of a node under a marking: the number of a marked node, and nothing otherwise. -/
def Marking.note? (K : Marking) (n : NodeId) : Option Note := (K n).map fun _ => ⟨some n, none⟩

theorem Marking.note?_eq_none {K : Marking} {n : NodeId} (h : K n = none) : K.note? n = none := by
  rw [note?, h, Option.map_none]

namespace Arena

/-- The arena with marks in the place of notes. -/
def mark (K : Marking) (a : Arena) : Arena :=
  { a with slots := a.slots.mapIdx fun n s => { s with note := K.note? n } }

/-- Marked nodes have the unknown kinds that the marking says. -/
def Suits (K : Marking) (a : Arena) : Prop := ∀ n s, K n = some s → a.kind? n = some (.other s)

variable {K : Marking} {a b : Arena} {id n p : NodeId} {cs : List Child}

theorem Suits.eq_none (h : a.Suits K) {k : Kind} (hk : a.kind? id = some k)
    (hother : ∀ s, k ≠ .other s) : K id = none := by
  cases hid : K id with
  | none => rfl
  | some s =>
      have hkind := h id s hid
      rw [hk] at hkind
      exact absurd (Option.some.inj hkind) (hother s)

theorem Suits.congr (h : a.Suits K) (hk : ∀ n, b.kind? n = a.kind? n) : b.Suits K :=
  fun n s hn => (hk n).trans (h n s hn)

theorem Suits.setKind (h : a.Suits K) (hid : K id = none) (k : Kind) :
    (a.setKind id k).Suits K := by
  intro n s hn
  have hne : n ≠ id := by
    rintro rfl
    rw [hid] at hn
    cases hn
  rw [kind?_setKind, if_neg fun hn => hne hn.1]
  exact h n s hn

/-- A slot that is not there is not marked. -/
theorem Suits.eq_none_of_size_le (h : a.Suits K) (hid : a.size ≤ id) : K id = none := by
  cases hmark : K id with
  | none => rfl
  | some s =>
      have hkind := h id s hmark
      rw [kind?, (slot?_eq_none_iff a id).mpr hid] at hkind
      cases hkind

theorem Suits.push (h : a.Suits K) (k : Kind) (o : Option Note) : (a.push k o).Suits K := by
  intro n s hn
  have hne : n ≠ a.size := by
    rintro rfl
    rw [h.eq_none_of_size_le (Nat.le_refl _)] at hn
    cases hn
  rw [kind?_push, if_neg hne]
  exact h n s hn

/-! ### What marks leave alone -/

theorem slot?_mark (n : NodeId) :
    (a.mark K).slot? n = (a.slot? n).map fun s => { s with note := K.note? n } :=
  Array.getElem?_mapIdx

@[simp] theorem root_mark : (a.mark K).root = a.root := rfl

@[simp] theorem size_mark : (a.mark K).size = a.size := Array.size_mapIdx

@[simp] theorem kind?_mark : (a.mark K).kind? n = a.kind? n := by
  rw [kind?, slot?_mark, Option.map_map]
  rfl

@[simp] theorem children_mark : (a.mark K).children n = a.children n := by
  rw [children, slot?_mark, children]
  cases a.slot? n <;> rfl

@[simp] theorem parent?_mark : (a.mark K).parent? n = a.parent? n := by
  rw [parent?, slot?_mark, parent?]
  cases a.slot? n <;> rfl

@[simp] theorem index_mark : (a.mark K).index n = a.index n := by
  rw [index, slot?_mark, index]
  cases a.slot? n <;> rfl

@[simp] theorem child?_mark (i : Nat) : (a.mark K).child? n i = a.child? n i := by
  rw [child?, children_mark, child?]

@[simp] theorem childNodes_mark : (a.mark K).childNodes n = a.childNodes n := by
  rw [childNodes, children_mark, childNodes]

@[simp] theorem hasKind_mark (k : Kind) : (a.mark K).hasKind n k = a.hasKind n k := by
  rw [hasKind, kind?_mark, hasKind]

theorem note?_mark (h : n < a.size) : (a.mark K).note? n = K.note? n := by
  obtain ⟨s, hs⟩ := exists_slot? h
  rw [note?, slot?_mark, hs]
  rfl

section own

variable {s : String} (h : a.Suits K) (hn : K n = some s)

include h hn

theorem Suits.note?_mark : (a.mark K).note? n = some ⟨some n, none⟩ := by
  obtain ⟨r, hr, -⟩ := Option.map_eq_some_iff.mp (h n s hn)
  rw [Arena.note?_mark (lt_size_of_slot? hr), Marking.note?, hn, Option.map_some]

/-- The note of a marked node is its own. -/
theorem Suits.eq_of_note? {m : NodeId} (hm : (a.mark K).note? m = (a.mark K).note? n) : m = n := by
  rw [h.note?_mark hn, note?, slot?_mark, Option.bind_eq_some_iff] at hm
  obtain ⟨r, hr, hnote⟩ := hm
  obtain ⟨r', -, rfl⟩ := Option.map_eq_some_iff.mp hr
  obtain ⟨_, -, hmark⟩ := Option.map_eq_some_iff.mp hnote
  exact Option.some.inj (Note.mk.inj hmark).1

end own

theorem slot_mark (id : NodeId) :
    (a.mark K).slot id = (a.slot id).map fun s => { s with note := K.note? id } := by
  rw [slot, slot?_mark, slot]
  cases a.slot? id <;> rfl

theorem linkCount_mark : (a.mark K).linkCount = a.linkCount := by
  rw [linkCount, linkCount, mark, ← Array.foldl_toList, ← Array.foldl_toList, Array.toList_mapIdx,
    List.mapIdx_eq_zipIdx_map, List.foldl_map]
  conv_rhs => rw [← List.zipIdx_map_fst 0 a.slots.toList, List.foldl_map]

@[simp] theorem walkBound_mark : (a.mark K).walkBound = a.walkBound := by
  rw [walkBound, linkCount_mark, size_mark, walkBound]

/-! ### Primitive changes of a marked arena -/

theorem modify_mark {f : Slot → Slot}
    (hf : ∀ s o, f { s with note := o } = { f s with note := o }) :
    (a.mark K).modify id f = (a.modify id f).mark K := by
  refine ext_slot? (fun n => ?_) rfl
  rw [slot?_modify, slot?_mark, slot?_mark, slot?_modify]
  split_ifs with h
  · cases a.slot? n with
    | none => rfl
    | some s => exact congrArg some (hf s _)
  · rfl

@[simp] theorem setKind_mark (k : Kind) : (a.mark K).setKind id k = (a.setKind id k).mark K :=
  modify_mark fun _ _ => rfl

@[simp] theorem setList_mark : (a.mark K).setList id cs = (a.setList id cs).mark K :=
  modify_mark fun _ _ => rfl

@[simp] theorem orphan_mark : (a.mark K).orphan id = (a.orphan id).mark K :=
  modify_mark fun _ _ => rfl

@[simp] theorem place_mark (i : Nat) : (a.mark K).place p i id = (a.place p i id).mark K :=
  modify_mark fun _ _ => rfl

@[simp] theorem release_mark : (a.mark K).release p id = (a.release p id).mark K := by
  rw [release, parent?_mark, orphan_mark, release, apply_ite (mark K)]

theorem foldl_mark {β : Type} {f : Arena → β → Arena}
    (hf : ∀ a x, f (a.mark K) x = (f a x).mark K) (xs : List β) (a : Arena) :
    xs.foldl f (a.mark K) = (xs.foldl f a).mark K := by
  induction xs generalizing a with
  | nil => rfl
  | cons x xs ih => rw [List.foldl_cons, hf, ih, List.foldl_cons]

@[simp] theorem reindex_mark : (a.mark K).reindex id = (a.reindex id).mark K := by
  rw [reindex, children_mark, reindex]
  refine foldl_mark (fun a c => ?_) _ a
  cases c.1 with
  | leaf l => rfl
  | node n => exact place_mark c.2

@[simp] theorem detach_mark : (a.mark K).detach id = (a.detach id).mark K := by
  rw [detach, parent?_mark, detach]
  cases a.parent? id with
  | none => rfl
  | some p =>
      simp only [orphan_mark, child?_mark, index_mark, children_mark, setList_mark, reindex_mark]
      rw [apply_ite (mark K)]

@[simp] theorem detachAll_mark (ns : List NodeId) :
    (a.mark K).detachAll ns = (a.detachAll ns).mark K :=
  foldl_mark (fun _ _ => detach_mark) ns a

@[simp] theorem assign_mark : (a.mark K).assign id cs = (a.assign id cs).mark K := by
  simp only [assign, childNodes_mark, setList_mark]
  rw [foldl_mark (fun _ _ => release_mark)]
  simp only [detachAll_mark, setList_mark, reindex_mark]

theorem overwrite_mark (i : Nat) (old child : Child) :
    (a.mark K).overwrite p i old child = (a.overwrite p i old child).mark K := by
  simp only [overwrite, children_mark, setList_mark]
  rw [foldl_mark fun _ _ => release_mark, foldl_mark fun _ _ => place_mark i]

/-- The new slot of a marked arena is not marked, whatever its note was to be. -/
theorem push_mark (h : a.Suits K) (k : Kind) (o : Option Note) :
    (a.mark K).push k none = (a.push k o).mark K := by
  have hnone : K.note? a.size = none :=
    Marking.note?_eq_none (h.eq_none_of_size_le (Nat.le_refl _))
  refine ext_slot? (fun n => ?_) rfl
  rw [slot?_push, slot?_mark, slot?_mark, slot?_push, size_mark]
  split_ifs with hn
  · rw [hn, Option.map_some, hnone]
  · rfl

/-! ### Edits of a marked arena -/

/-- The second arena is the first one with its marks, which suit it. -/
structure Marked (K : Marking) (a b : Arena) : Prop where
  eq_mark : b = a.mark K
  suits : a.Suits K

/-- An arena and something that does not depend on the marks. -/
def MarkedWith {α : Type} (K : Marking) (x y : Arena × α) : Prop := Marked K x.1 y.1 ∧ x.2 = y.2

theorem marked (h : a.Suits K) : Marked K a (a.mark K) := ⟨rfl, h⟩

theorem alike_slot_bind {α β : Type} {S : α → β → Prop} {f : Slot → Except Fault α}
    {g : Slot → Except Fault β}
    (hfg : ∀ s, a.slot? id = some s → Alike S (f s) (g { s with note := K.note? id })) :
    Alike S (a.slot id >>= f) ((a.mark K).slot id >>= g) := by
  rw [slot_mark]
  cases hs : a.slot? id with
  | none =>
      rw [slot, hs]
      exact .of_error _
  | some s =>
      rw [slot_eq hs]
      exact hfg s hs

theorem requireSlots_mark (ids : List NodeId) :
    (a.mark K).requireSlots ids = a.requireSlots ids := by
  rw [requireSlots, size_mark, requireSlots]

theorem requireAdoptable_mark (ns : List NodeId) :
    (a.mark K).requireAdoptable id ns = a.requireAdoptable id ns := by
  induction ns with
  | nil => rfl
  | cons n ns ih => rw [requireAdoptable, ih, size_mark, requireAdoptable]

section edits

variable (h : a.Suits K)

include h

theorem alike_setChildren :
    Alike (Marked K) (a.setChildren id cs) ((a.mark K).setChildren id cs) := by
  rw [setChildren, setChildren, requireSlots_mark, requireAdoptable_mark, assign_mark]
  refine .bind_same fun _ _ => .bind_same fun _ _ => ?_
  exact .of_ok ⟨rfl, h.congr fun n => kind?_assign a id n cs⟩

/-- A new node without children is not marked. -/
theorem alike_addNode (k : Kind) (o : Option Note) :
    Alike (MarkedWith K) (a.addNode k [] o) ((a.mark K).addNode k [] none) := by
  rw [addNode, addNode, alloc, alloc, push_mark h k o, size_mark, requireAdoptable_mark,
    assign_mark]
  refine .bind_same fun _ _ => .of_ok ⟨⟨rfl, (h.push k o).congr fun n => ?_⟩, rfl⟩
  exact kind?_assign _ _ n _

theorem alike_splitOff (i : Nat) :
    Alike (MarkedWith K) (a.splitOff id i) ((a.mark K).splitOff id i) := by
  rw [splitOff, splitOff]
  refine alike_slot_bind fun s hs => ?_
  dsimp only
  split_ifs with hlt
  · exact .of_error _
  · rw [setList_mark, foldl_mark fun _ _ => orphan_mark]
    refine .of_ok ⟨⟨rfl, h.congr fun n => ?_⟩, rfl⟩
    have hkind := kind?_cut a id n i
    rwa [cut, children_eq hs] at hkind

theorem alike_pushChildren :
    Alike (Marked K) (a.pushChildren id cs) ((a.mark K).pushChildren id cs) := by
  rw [pushChildren, pushChildren, requireSlots_mark]
  refine .bind_same fun _ _ => ?_
  simp only [detachAll_mark, children_mark, setList_mark, reindex_mark]
  exact .of_ok ⟨rfl, h.congr fun n => by simp⟩

theorem alike_replaceChild (id : NodeId) (i : Nat) (child : Child) :
    Alike (MarkedWith K) (a.replaceChild id i child) ((a.mark K).replaceChild id i child) := by
  rw [replaceChild, replaceChild, requireSlots_mark]
  refine .bind_same fun _ _ => ?_
  rw [detachAll_mark]
  refine alike_slot_bind fun s hs => ?_
  cases hold : s.children[i]? with
  | none => exact .of_error _
  | some old =>
      have hover :=
        overwrite_mark (K := K) (a := a.detachAll child.node?.toList) (p := id) i old child
      simp only [overwrite, children_mark, children_eq hs] at hover
      dsimp only
      rw [hover]
      refine .of_ok ⟨⟨rfl, h.congr fun n => ?_⟩, rfl⟩
      have hkind := kind?_overwrite (a.detachAll child.node?.toList) id i old child n
      rwa [overwrite, children_eq hs, kind?_detachAll] at hkind

theorem alike_retag (hid : K id = none) (k : Kind) :
    Alike (Marked K) (a.retag id k).result ((a.mark K).retag id k).result := by
  simp only [retag, Traced.result_bind, Traced.result_liftM, Traced.result_emit]
  refine alike_slot_bind fun s _ => ?_
  rw [setKind_mark]
  exact .of_ok ⟨rfl, h.setKind hid k⟩

theorem alike_update (hid : K id = none) (k : Kind) :
    Alike (Marked K) (a.update id k cs).result ((a.mark K).update id k cs).result := by
  simp only [update, Traced.result_bind, Traced.result_liftM]
  refine (alike_retag h hid k).bind ?_
  rintro b _ ⟨rfl, hb⟩
  exact alike_setChildren hb

theorem alike_negateFlag :
    Alike (Marked K) (a.negateFlag id).result ((a.mark K).negateFlag id).result := by
  simp only [negateFlag, Traced.result_bind, Traced.result_liftM]
  refine alike_slot_bind fun s _ => ?_
  cases hs : s.children with
  | nil => exact .of_error _
  | cons flag rest =>
      have hreplace := alike_replaceChild h id 0 (.leaf (.bool !flag.truthy))
      cases flag with
      | leaf l =>
          simp only [Traced.result_bind, Traced.result_pure, Traced.result_liftM]
          exact hreplace.bind fun _ _ hxy => .of_ok hxy.1
      | node m =>
          simp only [Traced.result_bind, Traced.result_liftM]
          refine alike_slot_bind fun t _ => ?_
          exact hreplace.bind fun _ _ hxy => .of_ok hxy.1

end edits

theorem alike_gather (h : a.Suits K) (cs : List Child) :
    Alike (MarkedWith K) (gather id a cs).result (gather id (a.mark K) cs).result := by
  induction cs generalizing a with
  | nil => exact .of_ok ⟨marked h, rfl⟩
  | cons c cs ih =>
      cases c with
      | leaf l =>
          simp only [gather, Traced.result_bind]
          exact (ih h).bind fun _ _ hxy => .of_ok ⟨hxy.1, congrArg (.leaf l :: ·) hxy.2⟩
      | node n =>
          rw [gather, gather, hasKind_mark]
          split_ifs with hk
          · simp only [Traced.result_bind, Traced.result_emit, ok_bind, orphan_mark, setList_mark,
              children_mark]
            have hsuits : ((a.orphan n).setList n []).Suits K := h.congr fun m => by simp
            exact (ih hsuits).bind fun _ _ hxy => .of_ok ⟨hxy.1, congrArg (a.children n ++ ·) hxy.2⟩
          · simp only [Traced.result_bind]
            exact (ih h).bind fun _ _ hxy => .of_ok ⟨hxy.1, congrArg (.node n :: ·) hxy.2⟩

theorem alike_spliceExpanded (h : a.Suits K) :
    Alike (MarkedWith K) (a.spliceExpanded id).result ((a.mark K).spliceExpanded id).result := by
  have hexpansion : (a.mark K).isExpansion = a.isExpansion := by
    funext c
    cases c with
    | leaf l => rfl
    | node n => exact hasKind_mark _
  simp only [spliceExpanded, Traced.result_bind, Traced.result_liftM]
  refine alike_slot_bind fun s _ => ?_
  rw [hexpansion]
  split_ifs with hany
  · simp only [Traced.result_bind, setList_mark]
    refine (alike_gather (h.congr fun n => kind?_setList a id n []) s.children).bind ?_
    rintro ⟨b, ds⟩ ⟨_, _⟩ ⟨⟨rfl, hb⟩, rfl⟩
    simp only [setList_mark, reindex_mark]
    exact .of_ok ⟨⟨rfl, hb.congr fun n => by simp⟩, rfl⟩
  · exact .of_ok ⟨marked h, rfl⟩

end Arena

/-! ### The rules -/

namespace Normalize

open Arena

variable {K : Marking} {a : Arena} {id : NodeId}

theorem requireParent_mark : requireParent (a.mark K) id = requireParent a id := by
  rw [requireParent, slot_mark, requireParent]
  cases a.slot id <;> rfl

section rules

variable (h : a.Suits K) (hid : K id = none)

include h hid

theorem alike_pop : Alike (Marked K) (pop a id).result (pop (a.mark K) id).result := by
  rw [pop, pop, child?_mark]
  cases hchild : a.child? id 0 with
  | none => exact .of_error _
  | some operand =>
      rw [note?_mark (lt_size_of_child? hchild), Marking.note?_eq_none hid]
      simp only [Traced.result_bind, Traced.result_liftM]
      refine (alike_addNode h .nop (a.note? id)).bind ?_
      rintro ⟨b, m⟩ ⟨_, _⟩ ⟨⟨rfl, hb⟩, rfl⟩
      exact alike_update hb hid .expand

theorem alike_ternaryIfBoolean :
    Alike (Marked K) (ternaryIfBoolean a id).result (ternaryIfBoolean (a.mark K) id).result := by
  simp only [ternaryIfBoolean, Traced.result_bind, Traced.result_liftM]
  refine (alike_splitOff h 0).bind ?_
  rintro ⟨b, cs⟩ ⟨_, _⟩ ⟨⟨rfl, hb⟩, rfl⟩
  dsimp only
  split
  · exact alike_update hb hid .ternary
  · exact .of_error _

theorem alike_ternaryIf :
    Alike (Marked K) (ternaryIf a id).result (ternaryIf (a.mark K) id).result := by
  rw [ternaryIf, ternaryIf, child?_mark]
  split
  · rename_i operator hop
    dsimp only
    rw [children_mark]
    split_ifs with hcount
    · exact .of_error _
    · simp only [Traced.result_bind, Traced.result_liftM]
      refine (alike_splitOff h _).bind ?_
      rintro ⟨b, values⟩ ⟨_, _⟩ ⟨⟨rfl, hb⟩, rfl⟩
      refine (alike_pushChildren hb).bind ?_
      rintro c _ ⟨rfl, hc⟩
      refine (alike_retag hc hid .ternaryIfBoolean).bind ?_
      rintro d _ ⟨rfl, hd⟩
      exact alike_ternaryIfBoolean hd hid
  · exact .of_error _
  · exact .of_error _

theorem alike_mapCondition (c : Condition) :
    Alike (Marked K) (mapCondition a id c).result (mapCondition (a.mark K) id c).result := by
  simp only [mapCondition, Traced.result_bind]
  refine (alike_retag h hid _).bind ?_
  rintro b _ ⟨rfl, hb⟩
  split_ifs with hrev
  · simp only [Traced.result_bind, Traced.result_liftM]
    rw [requireParent_mark]
    exact .bind_same fun p _ => alike_negateFlag hb
  · exact .of_ok (marked hb)

theorem alike_branch (c : Condition) :
    Alike (Marked K) (branch a id c).result (branch (a.mark K) id c).result := by
  simp only [branch, Traced.result_bind, Traced.result_liftM]
  rw [requireParent_mark]
  refine .bind_same fun p _ => ?_
  rw [hasKind_mark, hasKind_mark, index_mark, children_mark]
  split_ifs with hmap hslot hfold
  · simp only [Traced.result_bind, Traced.result_emit, ok_bind]
    exact alike_mapCondition h hid c
  · simp only [Traced.result_bind, Traced.result_emit, ok_bind]
    have hp : a.kind? p = some .ternaryIf := eq_of_beq (Bool.and_eq_true_iff.mp hslot).1
    refine (alike_mapCondition h hid c).bind ?_
    rintro b _ ⟨rfl, hb⟩
    exact alike_retag hb (h.eq_none hp nofun) .ternaryIfBoolean
  · simp only [Traced.result_bind, Traced.result_emit, Traced.result_liftM, ok_bind]
    refine (alike_splitOff h 0).bind ?_
    rintro ⟨b, cs⟩ ⟨_, _⟩ ⟨⟨rfl, hb⟩, rfl⟩
    refine (alike_update hb hid _).bind ?_
    rintro d _ ⟨rfl, hd⟩
    exact alike_ternaryIfBoolean hd hid
  · exact alike_mapCondition h hid c

end rules

theorem alike_stripAt (h : a.Suits K) (i fuel : Nat) :
    Alike (Marked K) (stripAt id i fuel a).result (stripAt id i fuel (a.mark K)).result := by
  induction fuel generalizing a with
  | zero => exact .of_error _
  | succ fuel ih =>
      simp only [stripAt, Traced.result_bind, Traced.result_liftM]
      refine alike_slot_bind fun s _ => ?_
      dsimp only
      split
      · exact .of_error _
      · exact .of_ok (marked h)
      · rename_i n _
        rw [hasKind_mark, child?_mark]
        split_ifs with hk
        · split
          · exact .of_error _
          · rename_i operand _
            simp only [Traced.result_bind, Traced.result_emit, Traced.result_liftM, ok_bind]
            refine (alike_replaceChild h id i operand).bind ?_
            rintro ⟨b, _⟩ ⟨_, _⟩ ⟨⟨rfl, hb⟩, rfl⟩
            exact ih hb
        · exact .of_ok (marked h)

theorem alike_stripCoercions (h : a.Suits K) (slack : Nat) :
    Alike (Marked K) (stripCoercions slack a id).result
      (stripCoercions slack (a.mark K) id).result := by
  rw [stripCoercions, stripCoercions, children_mark]
  refine .foldlM _ ?_ (marked h)
  rintro b _ i ⟨rfl, hb⟩
  rw [size_mark]
  exact alike_stripAt hb i _

/-- The rules do not see the marks: those of unknown kinds change nothing, and the others apply to
nodes that are not marked. -/
theorem alike_handle (h : a.Suits K) (slack : Nat) {k : Kind} (hk : a.kind? id = some k) :
    Alike (Marked K) (handle slack a id k).result (handle slack (a.mark K) id k).result := by
  cases k with
  | other s => exact .of_ok (marked h)
  | nop | expand | callProperty | callSuper | ternary | coerceB | compare c =>
      exact .of_ok (marked h)
  | pop => exact alike_pop h (h.eq_none hk nofun)
  | callPropertyVoid => exact alike_retag h (h.eq_none hk nofun) _
  | callSuperVoid => exact alike_retag h (h.eq_none hk nofun) _
  | branch c => exact alike_branch h (h.eq_none hk nofun) c
  | ternaryIf => exact alike_ternaryIf h (h.eq_none hk nofun)
  | ternaryIfBoolean => exact alike_ternaryIfBoolean h (h.eq_none hk nofun)
  | and | or | jumpIf => exact alike_stripCoercions h slack
  | kill | debug | debugFile | debugLine => exact alike_update h (h.eq_none hk nofun) _

theorem alike_visit (slack depth : Nat) (h : a.Suits K) :
    Alike (Marked K) (Walk.visit (handle slack) depth a id).result
      (Walk.visit (handle slack) depth (a.mark K) id).result := by
  induction depth generalizing a id with
  | zero => exact .of_error _
  | succ depth ih =>
      simp only [Walk.visit, Traced.result_bind]
      rw [childNodes_mark]
      refine Alike.bind (R := Marked K) (.foldlM _ ?_ (marked h)) ?_
      · rintro b _ m ⟨rfl, hb⟩
        rw [parent?_mark]
        split_ifs
        · exact ih hb
        · exact .of_ok (marked hb)
      · rintro b _ ⟨rfl, hb⟩
        refine (alike_spliceExpanded hb).bind ?_
        rintro ⟨c, _⟩ ⟨_, _⟩ ⟨⟨rfl, hc⟩, rfl⟩
        refine alike_slot_bind fun s hs => ?_
        exact alike_handle hc slack (kind?_eq hs)

end Normalize

/-- **Marks are not seen.**  An arena and the marked one are normalised alike, and the marks suit
the result. -/
theorem Arena.alike_normalize {K : Marking} {a : Arena} (h : a.Suits K) :
    Alike (Marked K) a.normalize.result (a.mark K).normalize.result := by
  simp only [normalize, Walk.run, Traced.result_bind, Traced.result_emit, ok_bind, walkBound_mark,
    root_mark]
  exact Normalize.alike_visit _ _ h

end Unstack
