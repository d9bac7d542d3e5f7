import Unstack.Proofs.Meaning

/-! # What normalising leaves of a tree

The nodes that are in a normalised tree, foretold from the tree before.

* **Negations.**  A test against truth that has nothing but its operand asks its parent for a
  negated flag, wherever it stands.  `Tree.flipped` are the children of a node after all such
  requests: the first of them, a flag or not, has become a boolean.
* **Foretold.**  `Tree.foreseen` lists the nodes of unknown kinds and the `nop` nodes that will be
  left, with the leaves they will have.  What stood in the place of a flag is gone; a test or a
  `pop` hands its operand, which may be a leaf by then, to its parent (`Tree.risen`).
* **Operands and steps.**  `Tree.Operand` and `Tree.Step` say of which trees this is true.  They are
  normalised without a defect, and what was foretold is left (`exists_settled`, `exists_placed`,
  `exists_normalize_of_steps`). -/

namespace Unstack

open Outcome

/-! ### Nodes -/

/-- What is seen of a node: its kind, its note and its leaf children. -/
structure Entry where
  kind : Kind
  note : Option Note
  leaves : List Leaf

/-- The kinds that are followed: those without a rule, and `nop`. -/
def Kind.isTracked : Kind → Bool
  | .other _ | .nop => true
  | _ => false

namespace Tree

/-- The leaf that a tree is. -/
def leaf? : Tree → Option Leaf
  | .leaf l => some l
  | .node .. => none

@[simp] theorem leaf?_leaf (l : Leaf) : leaf? (.leaf l) = some l := rfl

@[simp] theorem leaf?_node (k : Kind) (o : Option Note) (ts : List Tree) :
    leaf? (.node k o ts) = none := rfl

mutual

/-- The nodes of a tree, parents before children. -/
def nodes : Tree → List Entry
  | .leaf _ => []
  | .node k o ts => ⟨k, o, ts.filterMap leaf?⟩ :: nodesAll ts

/-- The nodes of several trees. -/
def nodesAll : List Tree → List Entry
  | [] => []
  | t :: ts => t.nodes ++ nodesAll ts

end

/-- The nodes of the kinds that are followed. -/
def tracked (t : Tree) : List Entry := t.nodes.filter (·.kind.isTracked)

theorem nodesAll_eq_flatMap (ts : List Tree) : nodesAll ts = ts.flatMap nodes := by
  induction ts with
  | nil => rfl
  | cons t ts ih => rw [nodesAll, ih, List.flatMap_cons]

theorem tracked_leaf (l : Leaf) : tracked (.leaf l) = [] := rfl

theorem tracked_node (k : Kind) (o : Option Note) (ts : List Tree) :
    tracked (.node k o ts)
      = (if k.isTracked then [⟨k, o, ts.filterMap leaf?⟩] else []) ++ ts.flatMap tracked := by
  have hbelow : (nodesAll ts).filter (·.kind.isTracked) = ts.flatMap tracked := by
    rw [nodesAll_eq_flatMap, List.filter_flatMap]
    rfl
  unfold tracked
  rw [nodes, List.filter_cons, hbelow]
  split <;> rfl

/-! ### Negations -/

/-- A test against truth that has nothing but its operand. -/
def isNegation : Tree → Bool
  | .node (.branch .falsy) _ [_] => true
  | _ => false

/-- The children of a node after every negation among them has negated the first of them. -/
def flipped (ts : List Tree) : List Tree := negateFirst^[ts.countP isNegation] ts

theorem length_iterate_negateFirst (n : Nat) (ts : List Tree) :
    (negateFirst^[n] ts).length = ts.length := by
  induction n generalizing ts with
  | zero => rfl
  | succ n ih => rw [Function.iterate_succ_apply, ih, length_negateFirst]

theorem length_flipped (ts : List Tree) : (flipped ts).length = ts.length :=
  length_iterate_negateFirst _ ts

theorem iterate_negateFirst_cons (n : Nat) (t : Tree) (ts : List Tree) :
    negateFirst^[n + 1] (t :: ts) = .leaf (.bool (t.truthy ^^ decide ((n + 1) % 2 = 1))) :: ts := by
  induction n generalizing t with
  | zero => simp [negateFirst]
  | succ n ih =>
      rw [Function.iterate_succ_apply, negateFirst, ih]
      have hparity : decide ((n + 1 + 1) % 2 = 1) = !decide ((n + 1) % 2 = 1) := by
        rw [Bool.eq_not, ne_eq, decide_eq_decide]
        omega
      rw [hparity]
      cases t.truthy <;> cases decide ((n + 1) % 2 = 1) <;> rfl

theorem flipped_of_any_eq_false {ts : List Tree} (h : ts.any isNegation = false) :
    flipped ts = ts := by
  have hcount : ts.countP isNegation = 0 := by
    rw [List.countP_eq_zero]
    exact fun t ht => List.any_eq_false.mp h t ht
  rw [flipped, hcount]
  rfl

/-- With a negation among them, the first of several trees becomes a boolean: its truth, turned
around once for each negation. -/
theorem flipped_of_any {t : Tree} {ts : List Tree} (h : (t :: ts).any isNegation = true) :
    flipped (t :: ts)
      = .leaf (.bool (t.truthy ^^ decide ((t :: ts).countP isNegation % 2 = 1))) :: ts := by
  have hpos : 0 < (t :: ts).countP isNegation := by
    rw [List.countP_pos_iff]
    exact List.any_eq_true.mp h
  obtain ⟨n, hn⟩ := Nat.exists_eq_add_of_lt hpos
  rw [Nat.zero_add] at hn
  rw [flipped, hn, iterate_negateFirst_cons]

/-! ### What is foretold -/

end Tree

/-- The kinds of which only the operand is left in the end. -/
def Kind.dissolves : Kind → Bool
  | .pop | .branch .truthy | .branch .falsy => true
  | _ => false

namespace Tree

/-- The leaf that a tree adds to the leaves of its parent in the end. -/
def risen : Tree → Option Leaf
  | .leaf l => some l
  | .node k _ [t] =>
    if k.dissolves then if t.isNegation then some (.bool false) else t.risen else none
  | .node .. => none

/-- What is left of a node itself. -/
def own (k : Kind) (o : Option Note) (ts : List Tree) : List Entry :=
  match k with
  | .other s => [⟨.other s, o, (flipped ts).filterMap risen⟩]
  | .pop | .kill | .debug | .debugFile | .debugLine => [⟨.nop, o, []⟩]
  | _ => []

mutual

/-- The nodes of the kinds that are followed, as they will be left. -/
def foreseen : Tree → List Entry
  | .leaf _ => []
  | .node k o ts => own k o ts ++ foreseenBelow (ts.any isNegation) ts

/-- The same for the children of a node; the first of them may be gone. -/
def foreseenBelow (gone : Bool) : List Tree → List Entry
  | [] => []
  | t :: ts => (if gone then [] else t.foreseen) ++ foreseenBelow false ts

end

theorem foreseenBelow_false (ts : List Tree) : foreseenBelow false ts = ts.flatMap foreseen := by
  induction ts with
  | nil => rfl
  | cons t ts ih =>
      rw [foreseenBelow, ih, List.flatMap_cons]
      rfl

theorem foreseen_leaf (l : Leaf) : foreseen (.leaf l) = [] := by rw [foreseen]

theorem foreseen_node (k : Kind) (o : Option Note) (ts : List Tree) :
    foreseen (.node k o ts) = own k o ts ++ (flipped ts).flatMap foreseen := by
  rw [foreseen]
  congr 1
  cases hany : ts.any isNegation with
  | false => rw [flipped_of_any_eq_false hany, foreseenBelow_false]
  | true =>
      cases ts with
      | nil => cases hany
      | cons t ts =>
          rw [flipped_of_any hany, foreseenBelow, foreseenBelow_false, List.flatMap_cons,
            foreseen_leaf]
          rfl

/-! ### Operands and steps -/

/-- Trees that leave one part: values, and tests wherever they stand. -/
inductive Operand : Tree → Prop
  | leaf (l : Leaf) : Operand (.leaf l)
  | operator {k : Kind} {ts : List Tree} (o : Option Note)
      (hk : (∃ s, k = .other s) ∨ k = .callProperty ∨ k = .callPropertyVoid ∨ k = .callSuperVoid)
      (hts : ∀ t ∈ ts, Operand t) : Operand (.node k o ts)
  | coercion {x : Tree} (o : Option Note) (hx : Operand x) : Operand (.node .coerceB o [x])
  | connective {k : Kind} {ts : List Tree} (o : Option Note) (hk : k = .and ∨ k = .or)
      (hts : ∀ t ∈ ts, Operand t) : Operand (.node k o ts)
  | comparing {v w x y : Tree} {c : Condition} (flag : Leaf) (o o' : Option Note)
      (hc : c ≠ .truthy ∧ c ≠ .falsy) (hv : Operand v) (hw : Operand w) (hx : Operand x)
      (hy : Operand y) :
      Operand (.node .ternaryIf o [.leaf flag, .node (.branch c) o' [v, w, x, y]])
  | testing {v x y : Tree} {c : Condition} (flag : Leaf) (o o' : Option Note)
      (hc : c = .truthy ∨ c = .falsy) (hv : Operand v) (hx : Operand x) (hy : Operand y) :
      Operand (.node .ternaryIf o [.leaf flag, .node (.branch c) o' [v, x, y]])
  /-- A test with a value of its own. -/
  | folding {v x : Tree} {c : Condition} (o : Option Note) (hc : c = .truthy ∨ c = .falsy)
      (hv : Operand v) (hx : Operand x) : Operand (.node (.branch c) o [v, x])
  /-- A test with nothing but its operand. -/
  | bare {v : Tree} {c : Condition} (o : Option Note) (hc : c = .truthy ∨ c = .falsy)
      (hv : Operand v) : Operand (.node (.branch c) o [v])

/-- Trees that may stand in a block. -/
inductive Step : Tree → Prop
  | operand {x : Tree} (hx : Operand x) : Step x
  | pop {x : Tree} (o : Option Note) (hx : Operand x) : Step (.node .pop o [x])
  | jumpComparing {v w : Tree} {c : Condition} (flag label : Leaf) (o o' : Option Note)
      (hc : c ≠ .truthy ∧ c ≠ .falsy) (hv : Operand v) (hw : Operand w) :
      Step (.node .jumpIf o [.leaf flag, .leaf label, .node (.branch c) o' [v, w]])
  | jumpTesting {v : Tree} {c : Condition} (flag label : Leaf) (o o' : Option Note)
      (hc : c = .truthy ∨ c = .falsy) (hv : Operand v) :
      Step (.node .jumpIf o [.leaf flag, .leaf label, .node (.branch c) o' [v]])
  | hint {k : Kind} (o : Option Note) (ls : List Leaf)
      (hk : k = .kill ∨ k = .debug ∨ k = .debugFile ∨ k = .debugLine) :
      Step (.node k o (ls.map .leaf))

/-! ### Children that ask for a negated flag -/

variable {t r u : Tree} {ts rs us : List Tree} {k : Kind} {o o' : Option Note}

/-- A child and what it becomes in an ordinary place.  It asks for a negated flag if it is a
negation, and for nothing else. -/
structure Moved (t r : Tree) : Prop where
  normal : ∀ k i, k ≠ .jumpIf → k ≠ .ternaryIf →
    t.normalizeAt (some (k, i)) = .ok (r, ⟨t.isNegation, false⟩)
  truthy : r.truthy = t.truthy

theorem normalizeRest_of_moved (h : List.Forall₂ Moved ts rs) (hjump : k ≠ .jumpIf)
    (hternary : k ≠ .ternaryIf) (done : List Tree) :
    normalizeRest k done ts = .ok (k, negateFirst^[ts.countP isNegation] (done ++ rs)) := by
  induction h generalizing done with
  | nil => rw [normalizeRest, List.append_nil, List.countP_nil, Function.iterate_zero_apply]
  | @cons t r ts rs hmoved _ ih =>
      rw [normalizeRest_cons, hmoved.normal k done.length hjump hternary, ok_bind]
      have hkind : (⟨t.isNegation, false⟩ : Demand).kind k = k := rfl
      rw [hkind, ih, List.countP_cons]
      cases t.isNegation with
      | false => simp
      | true =>
          have hne : done ++ [r] ≠ [] := List.append_ne_nil_of_right_ne_nil _ (by simp)
          simp only [if_true, Function.iterate_succ_apply, ← negateFirst_append hne,
            List.append_assoc, List.singleton_append]

/-- The requests change the children and what they become alike. -/
theorem forall₂_flipped {R : Tree → Tree → Prop} (hleaf : ∀ l, R (.leaf l) (.leaf l))
    (htruthy : ∀ t r, R t r → r.truthy = t.truthy) (h : List.Forall₂ R ts rs) (n : Nat) :
    List.Forall₂ R (negateFirst^[n] ts) (negateFirst^[n] rs) := by
  induction n generalizing ts rs with
  | zero => exact h
  | succ n ih =>
      rw [Function.iterate_succ_apply, Function.iterate_succ_apply]
      apply ih
      cases h with
      | nil => exact .nil
      | cons hr hrs =>
          rw [negateFirst, negateFirst, htruthy _ _ hr]
          exact .cons (hleaf _) hrs

/-! ### Parts -/

/-- A part of a normal tree that an operand has become. -/
structure Becomes (t u : Tree) : Prop where
  tracked : u.tracked.Perm t.foreseen
  leaf : u.leaf? = t.risen
  /-- Under a node that takes it for its truth, it loses nothing but coercions. -/
  strip : ∃ v, u.strip = .ok v ∧ v.tracked = u.tracked

theorem becomes_leaf (l : Leaf) : Becomes (.leaf l) (.leaf l) :=
  ⟨by rw [foreseen_leaf, tracked_leaf], rfl, _, rfl, rfl⟩

theorem perm_of_becomes (h : List.Forall₂ Becomes ts us) :
    (us.flatMap Tree.tracked).Perm (ts.flatMap foreseen) := by
  induction h with
  | nil => exact .nil
  | cons hb _ ih => exact hb.tracked.append ih

theorem leaves_of_becomes (h : List.Forall₂ Becomes ts us) :
    us.filterMap leaf? = ts.filterMap risen := by
  induction h with
  | nil => rfl
  | cons hb _ ih => rw [List.filterMap_cons, List.filterMap_cons, hb.leaf, ih]

theorem exists_mapM_strip (h : List.Forall₂ Becomes ts us) :
    ∃ vs, us.mapM strip = .ok vs ∧ vs.flatMap Tree.tracked = us.flatMap Tree.tracked := by
  induction h with
  | nil => exact ⟨[], rfl, rfl⟩
  | cons hb _ ih =>
      obtain ⟨v, hv, htracked⟩ := hb.strip
      obtain ⟨vs, hvs, hall⟩ := ih
      refine ⟨v :: vs, ?_, ?_⟩
      · rw [List.mapM_cons, hv, ok_bind, hvs]
        rfl
      · rw [List.flatMap_cons, List.flatMap_cons, htracked, hall]

/-- An operand and what it becomes. -/
structure Settled (t r : Tree) : Prop extends Moved t r where
  part : ∃ u, r.opened = [u] ∧ Becomes t u

theorem settled_leaf (l : Leaf) : Settled (.leaf l) (.leaf l) where
  normal _ _ _ _ := rfl
  truthy := rfl
  part := ⟨_, rfl, becomes_leaf l⟩

theorem exists_parts (h : List.Forall₂ Settled ts rs) :
    ∃ us, rs.flatMap opened = us ∧ List.Forall₂ Becomes ts us := by
  induction h with
  | nil => exact ⟨[], rfl, .nil⟩
  | cons hs _ ih =>
      obtain ⟨u, hu, hb⟩ := hs.part
      obtain ⟨us, hus, hall⟩ := ih
      exact ⟨u :: us, by rw [List.flatMap_cons, hu, hus, List.singleton_append], .cons hb hall⟩

/-- A node of operands: its rule is applied to the parts that they become. -/
theorem exists_normalizeAt (h : List.Forall₂ Settled ts rs) (hjump : k ≠ .jumpIf)
    (hternary : k ≠ .ternaryIf) (o : Option Note) :
    ∃ us, List.Forall₂ Becomes (flipped ts) us ∧
      ∀ place, normalizeAt place (.node k o ts) = rule place k o us := by
  have hflipped := forall₂_flipped settled_leaf (fun _ _ hs => hs.truthy) h (ts.countP isNegation)
  obtain ⟨us, hus, hparts⟩ := exists_parts hflipped
  refine ⟨us, hparts, fun place => ?_⟩
  have hmoved : List.Forall₂ Moved ts rs := h.imp fun _ _ hs => hs.toMoved
  rw [normalizeAt_node, normalizeRest_of_moved hmoved hjump hternary, ok_bind, List.nil_append, hus]

/-! ### Operands -/

theorem risen_of_not_dissolves (h : k.dissolves = false) (o : Option Note) (ts : List Tree) :
    risen (.node k o ts) = none := by
  unfold risen
  split
  · cases ‹Tree.node k o ts = .leaf _›
  · rename_i heq
    cases heq
    rw [h]
    rfl
  · rfl

/-- A node that dissolves leaves its parent what its operand leaves to it. -/
theorem risen_of_dissolves (h : k.dissolves = true) (o : Option Note) {v v' : Tree}
    (hv : flipped [v] = [v']) : risen (.node k o [v]) = risen v' := by
  have hrisen : risen (.node k o [v])
      = if v.isNegation then some (.bool false) else v.risen := by
    rw [risen, if_pos h]
  rw [hrisen]
  cases hneg : v.isNegation with
  | false =>
      rw [flipped_of_any_eq_false (by simp [hneg])] at hv
      cases hv
      rfl
  | true =>
      have htruthy : v.truthy = true := by
        cases v with
        | leaf l => cases hneg
        | node k o ts => rfl
      rw [flipped_of_any (by simp [hneg])] at hv
      cases hv
      simp [htruthy, hneg, risen]

theorem foreseen_branch (c : Condition) (o : Option Note) (ts : List Tree) :
    foreseen (.node (.branch c) o ts) = (flipped ts).flatMap foreseen := foreseen_node _ o ts

/-- What a choice with a flag keeps is below its operator. -/
theorem foreseen_choice (flag : Leaf) (t : Tree) :
    foreseen (.node .ternaryIf o [.leaf flag, t]) = foreseen t := by
  simp [foreseen, foreseenBelow, own]

/-- What a jump keeps is below its condition. -/
theorem foreseen_jump (flag label : Leaf) (t : Tree) :
    foreseen (.node .jumpIf o [.leaf flag, .leaf label, t]) = foreseen t := by
  simp [foreseen, foreseenBelow, own]

theorem becomes_node {k' : Kind} (h : List.Forall₂ Becomes (flipped ts) us)
    (hown : (if k'.isTracked then [⟨k', o, us.filterMap leaf?⟩] else []) = own k o ts)
    (hk : k.dissolves = false) (hk' : k' ≠ .coerceB) :
    Becomes (.node k o ts) (.node k' o us) := by
  refine ⟨?_, (risen_of_not_dissolves hk o ts).symm, _, strip_of_ne hk' _ _, rfl⟩
  rw [tracked_node, hown, foreseen_node]
  exact (perm_of_becomes h).append_left _

/-- An operand that becomes a node and asks for nothing. -/
theorem settled_of_becomes {k' : Kind}
    (hnormal : ∀ kind i, kind ≠ .jumpIf → kind ≠ .ternaryIf →
      normalizeAt (some (kind, i)) (.node k o ts) = .ok (.node k' o us, .none))
    (hneg : isNegation (.node k o ts) = false) (hk' : k' ≠ .expand)
    (hb : Becomes (.node k o ts) (.node k' o us)) : Settled (.node k o ts) (.node k' o us) where
  normal kind i hjump hternary := by
    rw [hneg, hnormal kind i hjump hternary]
    rfl
  truthy := rfl
  part := ⟨_, opened_of_ne hk' _ _, hb⟩

theorem settled_operator (hk : (∃ s, k = .other s) ∨ k = .callProperty ∨ k = .callPropertyVoid ∨
    k = .callSuperVoid) (h : List.Forall₂ Settled ts rs) (o : Option Note) :
    ∃ r, Settled (.node k o ts) r := by
  rcases hk with ⟨s, rfl⟩ | rfl | rfl | rfl
  · obtain ⟨us, hus, hrule⟩ := exists_normalizeAt (k := .other s) h (by simp) (by simp) o
    have hown : own (.other s) o ts = [⟨.other s, o, us.filterMap leaf?⟩] := by
      rw [leaves_of_becomes hus]
      rfl
    exact ⟨_, settled_of_becomes (fun _ _ _ _ => hrule _) rfl (by simp)
      (becomes_node hus hown.symm rfl (by simp))⟩
  · obtain ⟨us, hus, hrule⟩ := exists_normalizeAt (k := .callProperty) h (by simp) (by simp) o
    exact ⟨_, settled_of_becomes (fun _ _ _ _ => hrule _) rfl (by simp)
      (becomes_node hus rfl rfl (by simp))⟩
  · obtain ⟨us, hus, hrule⟩ := exists_normalizeAt (k := .callPropertyVoid) h (by simp) (by simp) o
    exact ⟨_, settled_of_becomes (fun _ _ _ _ => hrule _) rfl (by simp)
      (becomes_node hus rfl rfl (by simp))⟩
  · obtain ⟨us, hus, hrule⟩ := exists_normalizeAt (k := .callSuperVoid) h (by simp) (by simp) o
    exact ⟨_, settled_of_becomes (fun _ _ _ _ => hrule _) rfl (by simp)
      (becomes_node hus rfl rfl (by simp))⟩

/-- The part that a single operand becomes. -/
theorem exists_of_single {v : Tree} (h : List.Forall₂ Becomes (flipped [v]) us) :
    ∃ v' u, flipped [v] = [v'] ∧ us = [u] ∧ Becomes v' u := by
  obtain ⟨v', hv'⟩ := List.length_eq_one_iff.mp (length_flipped [v])
  rw [hv'] at h
  cases h with
  | cons hb hnil =>
      cases hnil
      exact ⟨v', _, hv', rfl, hb⟩

theorem settled_coercion {x rx : Tree} (h : Settled x rx) (o : Option Note) :
    ∃ r, Settled (.node .coerceB o [x]) r := by
  obtain ⟨us, hus, hrule⟩ :=
    exists_normalizeAt (k := .coerceB) (.cons h .nil) (by simp) (by simp) o
  obtain ⟨x', u, hx', rfl, hb⟩ := exists_of_single hus
  have htracked : tracked (.node .coerceB o [u]) = u.tracked := by
    rw [tracked_node, List.flatMap_cons, List.flatMap_nil, List.append_nil]
    rfl
  refine ⟨_, settled_of_becomes (fun _ _ _ _ => hrule _) rfl (by simp) ⟨?_, rfl, ?_⟩⟩
  · rw [htracked, foreseen_node, hx', List.flatMap_cons, List.flatMap_nil, List.append_nil]
    exact hb.tracked
  · obtain ⟨v, hv, hsame⟩ := hb.strip
    exact ⟨v, hv, by rw [hsame, htracked]⟩

theorem settled_connective (hk : k = .and ∨ k = .or) (h : List.Forall₂ Settled ts rs)
    (o : Option Note) : ∃ r, Settled (.node k o ts) r := by
  have hordinary : k ≠ .jumpIf ∧ k ≠ .ternaryIf ∧ k ≠ .coerceB ∧ k ≠ .expand := by
    rcases hk with rfl | rfl <;> simp
  obtain ⟨us, hus, hrule⟩ := exists_normalizeAt h hordinary.1 hordinary.2.1 o
  obtain ⟨vs, hvs, hsame⟩ := exists_mapM_strip hus
  have htracked : (node k o vs).tracked = us.flatMap Tree.tracked := by
    rw [tracked_node, hsame]
    rcases hk with rfl | rfl <;> rfl
  have hforeseen : foreseen (.node k o ts) = (flipped ts).flatMap foreseen := by
    rw [foreseen_node]
    rcases hk with rfl | rfl <;> rfl
  refine ⟨.node k o vs, settled_of_becomes (fun _ _ _ _ => ?_) ?_ hordinary.2.2.2 ⟨?_, ?_, ?_⟩⟩
  · rw [hrule]
    rcases hk with rfl | rfl <;> rw [rule, hvs] <;> rfl
  · rcases hk with rfl | rfl <;> rfl
  · rw [htracked, hforeseen]
    exact perm_of_becomes hus
  · rw [risen_of_not_dissolves (by rcases hk with rfl | rfl <;> rfl)]
    rfl
  · exact ⟨_, strip_of_ne hordinary.2.2.1 _ _, rfl⟩

/-! ### Choices -/

/-- A choice keeps its condition and its values. -/
theorem exists_choice (o : Option Note) (flag c x y : Tree) (rest : List Tree)
    (hy : rest.headD (.leaf .nil) = y) :
    ∃ us, choice o (flag :: c :: x :: rest) = .ok (.node .ternary o us) ∧
      (us.flatMap Tree.tracked).Perm (c.tracked ++ (x.tracked ++ y.tracked)) := by
  subst hy
  cases hflag : flag.truthy with
  | true =>
      refine ⟨[c, x, rest.headD (.leaf .nil)], by simp [choice, hflag], ?_⟩
      simp
  | false =>
      refine ⟨[c, rest.headD (.leaf .nil), x], by simp [choice, hflag], ?_⟩
      simpa using List.perm_append_comm.append_left c.tracked

/-- An operand that becomes a choice. -/
theorem settled_of_choice (us : List Tree)
    (hnormal : ∀ kind i, kind ≠ .jumpIf → kind ≠ .ternaryIf →
      normalizeAt (some (kind, i)) (.node k o ts) = .ok (.node .ternary o us, .none))
    (hneg : isNegation (.node k o ts) = false) (hrisen : risen (.node k o ts) = none)
    (hperm : (us.flatMap Tree.tracked).Perm (foreseen (.node k o ts))) :
    ∃ r, Settled (.node k o ts) r := by
  refine ⟨_, settled_of_becomes hnormal hneg (by simp) ⟨?_, hrisen.symm, ?_⟩⟩
  · rw [tracked_node]
    exact hperm
  · exact ⟨_, strip_of_ne (by simp) _ _, rfl⟩

theorem comparison?_of_compares {c : Condition} (h : c ≠ .truthy ∧ c ≠ .falsy) :
    ∃ r, c.comparison? = some r := by
  cases c
  case truthy => exact absurd rfl h.1
  case falsy => exact absurd rfl h.2
  all_goals exact ⟨_, rfl⟩

theorem comparison?_of_tests {c : Condition} (h : c = .truthy ∨ c = .falsy) :
    c.comparison? = none := by
  rcases h with rfl | rfl <;> rfl

/-- A branch that compares becomes its comparison. -/
theorem exists_branch_comparing {c : Condition} (hc : c ≠ .truthy ∧ c ≠ .falsy)
    (h : List.Forall₂ Settled ts rs) (o : Option Note) :
    ∃ r us, List.Forall₂ Becomes (flipped ts) us ∧ ∀ place,
      normalizeAt (some place) (.node (.branch c) o ts)
        = .ok (.node (.compare r) o us, ⟨c.reversed, false⟩) := by
  obtain ⟨r, hr⟩ := comparison?_of_compares hc
  obtain ⟨us, hus, hrule⟩ := exists_normalizeAt (k := .branch c) h (by simp) (by simp) o
  refine ⟨r, us, hus, fun place => ?_⟩
  have hsome : place.1 = .jumpIf ∨ c.comparison?.isSome = true := .inr (by rw [hr]; rfl)
  rw [hrule, rule, branchRule, if_pos hsome, Kind.ofCondition, hr]

theorem settled_comparing {v w x y rv rz rx ry : Tree} {c : Condition}
    (hc : c ≠ .truthy ∧ c ≠ .falsy) (hv : Settled v rv) (hw : Settled w rz) (hx : Settled x rx)
    (hy : Settled y ry) (flag : Leaf) (o o' : Option Note) :
    ∃ r, Settled (.node .ternaryIf o [.leaf flag, .node (.branch c) o' [v, w, x, y]]) r := by
  obtain ⟨r, us, hus, hbranch⟩ :=
    exists_branch_comparing hc (.cons hv (.cons hw (.cons hx (.cons hy .nil)))) o'
  have hlength : us.length = 4 := by rw [← hus.length_eq, length_flipped]; rfl
  obtain ⟨u₁, u₂, u₃, u₄, rfl⟩ : ∃ u₁ u₂ u₃ u₄, us = [u₁, u₂, u₃, u₄] := by
    match us, hlength with
    | [u₁, u₂, u₃, u₄], _ => exact ⟨u₁, u₂, u₃, u₄, rfl⟩
  let flag' := Tree.leaf (Interpretation.turned flag c.reversed)
  obtain ⟨vs, hvs, hperm⟩ :=
    exists_choice o flag' (.node (.compare r) o' [u₁, u₂]) u₃ u₄ [u₄] rfl
  refine settled_of_choice vs (fun _ _ _ _ => ?_) rfl (risen_of_not_dissolves rfl _ _) ?_
  · rw [normalizeAt_node, normalizeRest_cons_of_none _ rfl, List.nil_append,
      Interpretation.normalizeRest_last flag [] (hbranch (.ternaryIf, 1)), ok_bind]
    have hhoist : hoist [flag', .node (.compare r) o' [u₁, u₂, u₃, u₄]]
        = .ok [flag', .node (.compare r) o' [u₁, u₂], u₃, u₄] := rfl
    change (hoist [flag', .node (.compare r) o' [u₁, u₂, u₃, u₄]]
      >>= fun us => choice o us >>= fun t => pure (t, Demand.none)) = _
    rw [hhoist, ok_bind, hvs]
    rfl
  · rw [foreseen_choice, foreseen_branch]
    refine hperm.trans (List.Perm.trans (.of_eq ?_) (perm_of_becomes hus))
    simp [tracked_node, Kind.isTracked]

theorem settled_testing {v x y rv rx ry : Tree} {c : Condition} (hc : c = .truthy ∨ c = .falsy)
    (hv : Settled v rv) (hx : Settled x rx) (hy : Settled y ry) (flag : Leaf)
    (o o' : Option Note) :
    ∃ r, Settled (.node .ternaryIf o [.leaf flag, .node (.branch c) o' [v, x, y]]) r := by
  obtain ⟨us, hus, hrule⟩ := exists_normalizeAt (k := .branch c)
    (.cons hv (.cons hx (.cons hy .nil))) (by simp) (by simp) o'
  have hlength : us.length = 3 := by rw [← hus.length_eq, length_flipped]; rfl
  obtain ⟨u₁, u₂, u₃, rfl⟩ := List.length_eq_three.mp hlength
  have hbranch : normalizeAt (some (.ternaryIf, 1)) (.node (.branch c) o' [v, x, y])
      = .ok (.node .expand o' [u₁, u₂, u₃], ⟨c.reversed, true⟩) := by
    have hnone := comparison?_of_tests hc
    have hother : ¬(Kind.ternaryIf = .jumpIf ∨ c.comparison?.isSome = true) := by simp [hnone]
    rw [hrule, rule, branchRule, if_neg hother, if_pos ⟨rfl, rfl⟩, Kind.ofCondition, hnone]
  let flag' := Tree.leaf (Interpretation.turned flag c.reversed)
  obtain ⟨vs, hvs, hperm⟩ := exists_choice o flag' u₁ u₂ u₃ [u₃] rfl
  refine settled_of_choice vs (fun _ _ _ _ => ?_) rfl (risen_of_not_dissolves rfl _ _) ?_
  · rw [normalizeAt_node, normalizeRest_cons_of_none _ rfl, List.nil_append,
      Interpretation.normalizeRest_last flag [] hbranch, ok_bind]
    change (choice o [flag', u₁, u₂, u₃] >>= fun t => pure (t, Demand.none)) = _
    rw [hvs]
    rfl
  · rw [foreseen_choice, foreseen_branch]
    refine hperm.trans (List.Perm.trans (.of_eq ?_) (perm_of_becomes hus))
    simp

/-! ### Tests outside choices -/

theorem branchRule_of_tests {c : Condition} (hc : c = .truthy ∨ c = .falsy) (hjump : k ≠ .jumpIf)
    (hternary : k ≠ .ternaryIf) (i : Nat) (us : List Tree) :
    branchRule (some (k, i)) c o us
      = if us.length = 2 then
          choice o (.leaf (.bool c.reversed) :: us) >>= fun t => .ok (t, .none)
        else .ok (.node .expand o us, ⟨c.reversed, false⟩) := by
  have hnone := comparison?_of_tests hc
  have hother : ¬(k = .jumpIf ∨ c.comparison?.isSome = true) := by simp [hnone, hjump]
  have hslot : ¬(k = .ternaryIf ∧ i = 1) := fun h => hternary h.1
  rw [branchRule, if_neg hother, if_neg hslot, Kind.ofCondition, hnone]
  rfl

section tests

variable {v x rv rx : Tree} {c : Condition} (hc : c = .truthy ∨ c = .falsy) (hv : Settled v rv)

include hc hv

theorem settled_folding (hx : Settled x rx) (o : Option Note) :
    ∃ r, Settled (.node (.branch c) o [v, x]) r := by
  obtain ⟨us, hus, hrule⟩ := exists_normalizeAt (k := .branch c)
    (.cons hv (.cons hx .nil)) (by simp) (by simp) o
  have hlength : us.length = 2 := by rw [← hus.length_eq, length_flipped]; rfl
  obtain ⟨u₁, u₂, rfl⟩ := List.length_eq_two.mp hlength
  obtain ⟨vs, hvs, hperm⟩ := exists_choice o (.leaf (.bool c.reversed)) u₁ u₂ (.leaf .nil) [] rfl
  have hneg : isNegation (.node (.branch c) o [v, x]) = false := by rcases hc with rfl | rfl <;> rfl
  refine settled_of_choice vs (fun k i hjump hternary => ?_) hneg rfl ?_
  · rw [hrule, rule, branchRule_of_tests hc hjump hternary, if_pos hlength, hvs, ok_bind]
  · rw [foreseen_branch]
    refine hperm.trans (List.Perm.trans (.of_eq ?_) (perm_of_becomes hus))
    simp [tracked_leaf]

theorem settled_bare (o : Option Note) : ∃ r, Settled (.node (.branch c) o [v]) r := by
  obtain ⟨us, hus, hrule⟩ :=
    exists_normalizeAt (k := .branch c) (.cons hv .nil) (by simp) (by simp) o
  obtain ⟨v', u, hv', rfl, hb⟩ := exists_of_single hus
  have hdissolves : (Kind.branch c).dissolves = true := by rcases hc with rfl | rfl <;> rfl
  have hreversed : isNegation (.node (.branch c) o [v]) = c.reversed := by
    rcases hc with rfl | rfl <;> rfl
  refine ⟨.node .expand o [u], ⟨⟨fun k i hjump hternary => ?_, rfl⟩, u, rfl, ?_, ?_, hb.strip⟩⟩
  · rw [hrule, rule, branchRule_of_tests hc hjump hternary, if_neg (by simp), hreversed]
  · rw [foreseen_branch, hv', List.flatMap_cons, List.flatMap_nil, List.append_nil]
    exact hb.tracked
  · rw [risen_of_dissolves hdissolves o hv']
    exact hb.leaf

end tests

/-- **Operands** are normalised without a defect, and leave what was foretold. -/
theorem exists_settled (h : t.Operand) : ∃ r, Settled t r := by
  have hall : ∀ ts : List Tree, (∀ t ∈ ts, ∃ r, Settled t r) → ∃ rs, List.Forall₂ Settled ts rs :=
    fun ts hts => exists_forall₂ hts
  induction h with
  | leaf l => exact ⟨_, settled_leaf l⟩
  | @operator k ts o hk hts ih =>
      obtain ⟨rs, hrs⟩ := hall ts ih
      exact settled_operator hk hrs o
  | coercion o hx ih =>
      obtain ⟨rx, hrx⟩ := ih
      exact settled_coercion hrx o
  | @connective k ts o hk hts ih =>
      obtain ⟨rs, hrs⟩ := hall ts ih
      exact settled_connective hk hrs o
  | comparing flag o o' hc hv hw hx hy ihv ihw ihx ihy =>
      obtain ⟨rv, hrv⟩ := ihv
      obtain ⟨rz, hrw⟩ := ihw
      obtain ⟨rx, hrx⟩ := ihx
      obtain ⟨ry, hry⟩ := ihy
      exact settled_comparing hc hrv hrw hrx hry flag o o'
  | testing flag o o' hc hv hx hy ihv ihx ihy =>
      obtain ⟨rv, hrv⟩ := ihv
      obtain ⟨rx, hrx⟩ := ihx
      obtain ⟨ry, hry⟩ := ihy
      exact settled_testing hc hrv hrx hry flag o o'
  | folding o hc hv hx ihv ihx =>
      obtain ⟨rv, hrv⟩ := ihv
      obtain ⟨rx, hrx⟩ := ihx
      exact settled_folding hc hrv hrx o
  | bare o hc hv ih =>
      obtain ⟨rv, hrv⟩ := ih
      exact settled_bare hc hrv o

/-! ### Steps -/

/-- A step and what it becomes. -/
structure Placed (t r : Tree) : Prop extends Moved t r where
  tracked : (r.opened.flatMap Tree.tracked).Perm t.foreseen
  leaves : r.opened.filterMap leaf? = t.risen.toList

theorem Settled.placed (h : Settled t r) : Placed t r := by
  obtain ⟨u, hu, hb⟩ := h.part
  refine ⟨h.toMoved, ?_, ?_⟩
  · rw [hu, List.flatMap_cons, List.flatMap_nil, List.append_nil]
    exact hb.tracked
  · rw [hu, ← hb.leaf]
    cases hleaf : u.leaf? <;> simp [hleaf]

theorem placed_pop {x rx : Tree} (h : Settled x rx) (o : Option Note) :
    ∃ r, Placed (.node .pop o [x]) r := by
  obtain ⟨us, hus, hrule⟩ := exists_normalizeAt (k := .pop) (.cons h .nil) (by simp) (by simp) o
  obtain ⟨x', u, hx', rfl, hb⟩ := exists_of_single hus
  refine ⟨.node .expand o [u, .node .nop o []], ⟨⟨fun _ _ _ _ => hrule _, rfl⟩, ?_, ?_⟩⟩
  · have hforeseen : foreseen (.node .pop o [x]) = ⟨.nop, o, []⟩ :: x'.foreseen := by
      rw [foreseen_node, hx', List.flatMap_cons, List.flatMap_nil, List.append_nil]
      rfl
    have hopened : (opened (.node .expand o [u, .node .nop o []])).flatMap Tree.tracked
        = u.tracked ++ [⟨.nop, o, []⟩] := by
      simp [opened, tracked_node, Kind.isTracked]
    rw [hforeseen, hopened]
    exact (hb.tracked.append_right _).trans List.perm_append_comm
  · rw [risen_of_dissolves rfl o hx', ← hb.leaf]
    cases hleaf : u.leaf? <;> simp [opened, hleaf]

theorem placed_hint (hk : k = .kill ∨ k = .debug ∨ k = .debugFile ∨ k = .debugLine)
    (o : Option Note) (ls : List Leaf) :
    Placed (.node k o (ls.map .leaf)) (.node .nop o []) := by
  have hordinary : k ≠ .jumpIf ∧ k ≠ .ternaryIf ∧ k.dissolves = false := by
    rcases hk with rfl | rfl | rfl | rfl <;> simp [Kind.dissolves]
  have hleaves : List.Forall₂ Settled (ls.map .leaf) (ls.map .leaf) := by
    induction ls with
    | nil => exact .nil
    | cons l ls ih => exact .cons (settled_leaf l) ih
  obtain ⟨us, -, hrule⟩ := exists_normalizeAt hleaves hordinary.1 hordinary.2.1 o
  have hforeseen : foreseen (.node k o (ls.map .leaf)) = [⟨.nop, o, []⟩] := by
    have hflipped : flipped (ls.map .leaf) = ls.map .leaf :=
      flipped_of_any_eq_false (by simp [isNegation])
    have hnone : (ls.map Tree.leaf).flatMap foreseen = [] := by simp [foreseen_leaf]
    rw [foreseen_node, hflipped, hnone]
    rcases hk with rfl | rfl | rfl | rfl <;> rfl
  refine ⟨⟨fun _ _ _ _ => ?_, rfl⟩, ?_, ?_⟩
  · rw [hrule]
    rcases hk with rfl | rfl | rfl | rfl <;> rfl
  · rw [hforeseen]
    exact .refl _
  · rw [risen_of_not_dissolves hordinary.2.2]
    rfl

/-- A jump whose branch leaves one part. -/
theorem placed_jump {b b' : Tree} {reversed : Bool} (flag label : Leaf)
    (hbranch : normalizeAt (some (.jumpIf, 2)) b = .ok (b', ⟨reversed, false⟩))
    (hopened : b'.opened = [u]) (htracked : u.tracked.Perm b.foreseen)
    (hstrip : ∃ v, u.strip = .ok v ∧ v.tracked = u.tracked) (o : Option Note) :
    ∃ r, Placed (.node .jumpIf o [.leaf flag, .leaf label, b]) r := by
  obtain ⟨v, hv, hsame⟩ := hstrip
  let flag' := Tree.leaf (Interpretation.turned flag reversed)
  have hlist : [flag', .leaf label, b'].flatMap opened = [flag', .leaf label, u] := by
    rw [List.flatMap_cons, List.flatMap_cons, List.flatMap_cons, hopened]
    rfl
  have hmapM : [flag', .leaf label, u].mapM strip = .ok [flag', .leaf label, v] := by
    simp [hv, strip, flag']
  refine ⟨.node .jumpIf o [flag', .leaf label, v], ⟨⟨fun _ _ _ _ => ?_, rfl⟩, ?_, ?_⟩⟩
  · rw [normalizeAt_node, normalizeRest_cons_of_none _ rfl, normalizeRest_cons_of_none _ rfl,
      List.nil_append, List.singleton_append,
      Interpretation.normalizeRest_last flag [.leaf label] hbranch, ok_bind]
    change rule _ .jumpIf o ([flag', .leaf label, b'].flatMap opened) = _
    rw [hlist, rule, hmapM]
    rfl
  · rw [foreseen_jump]
    have hjump : (opened (.node .jumpIf o [flag', .leaf label, v])).flatMap Tree.tracked
        = u.tracked := by
      simp [opened, tracked_node, Kind.isTracked, tracked_leaf, hsame, flag']
    rw [hjump]
    exact htracked
  · rw [risen_of_not_dissolves rfl]
    rfl

/-- **Steps** are normalised without a defect, and leave what was foretold. -/
theorem exists_placed (h : t.Step) : ∃ r, Placed t r := by
  cases h with
  | operand hx =>
      obtain ⟨r, hr⟩ := exists_settled hx
      exact ⟨r, hr.placed⟩
  | pop o hx =>
      obtain ⟨rx, hrx⟩ := exists_settled hx
      exact placed_pop hrx o
  | @jumpComparing v w c flag label o o' hc hv hw =>
      obtain ⟨rv, hrv⟩ := exists_settled hv
      obtain ⟨rz, hrw⟩ := exists_settled hw
      obtain ⟨r, us, hus, hbranch⟩ := exists_branch_comparing hc (.cons hrv (.cons hrw .nil)) o'
      refine placed_jump flag label (hbranch _) rfl ?_ ⟨_, rfl, rfl⟩ o
      rw [tracked_node, foreseen_branch]
      exact perm_of_becomes hus
  | @jumpTesting v c flag label o o' hc hv =>
      obtain ⟨rv, hrv⟩ := exists_settled hv
      obtain ⟨us, hus, hrule⟩ :=
        exists_normalizeAt (k := .branch c) (.cons hrv .nil) (by simp) (by simp) o'
      obtain ⟨v', u, hv', rfl, hb⟩ := exists_of_single hus
      have hbranch : normalizeAt (some (.jumpIf, 2)) (.node (.branch c) o' [v])
          = .ok (.node .expand o' [u], ⟨c.reversed, false⟩) := by
        rw [hrule, rule, branchRule, if_pos (.inl rfl), Kind.ofCondition, comparison?_of_tests hc]
      refine placed_jump flag label hbranch rfl ?_ hb.strip o
      rw [foreseen_branch, hv', List.flatMap_cons, List.flatMap_nil, List.append_nil]
      exact hb.tracked
  | hint o ls hk => exact ⟨_, placed_hint hk o ls⟩

/-! ### Blocks -/

theorem perm_of_placed (h : List.Forall₂ Placed ts rs) :
    ((rs.flatMap opened).flatMap Tree.tracked).Perm (ts.flatMap foreseen) := by
  induction h with
  | nil => exact .nil
  | cons hp _ ih =>
      rw [List.flatMap_cons, List.flatMap_append, List.flatMap_cons]
      exact hp.tracked.append ih

theorem leaves_of_placed (h : List.Forall₂ Placed ts rs) :
    (rs.flatMap opened).filterMap leaf? = ts.filterMap risen := by
  induction h with
  | nil => rfl
  | @cons t r ts rs hp _ ih =>
      rw [List.flatMap_cons, List.filterMap_append, hp.leaves, ih, List.filterMap_cons]
      cases t.risen <;> rfl

/-- **A block of steps** is normalised without a defect, and leaves what was foretold. -/
theorem exists_normalize_of_steps (s : String) (o : Option Note) (h : ∀ t ∈ ts, t.Step) :
    ∃ t', normalize (.node (.other s) o ts) = .ok t' ∧
      t'.tracked.Perm (foreseen (.node (.other s) o ts)) := by
  obtain ⟨rs, hrs⟩ := exists_forall₂ fun t ht => exists_placed (h t ht)
  have hleaf (l : Leaf) : Placed (.leaf l) (.leaf l) := (settled_leaf l).placed
  have hflipped := forall₂_flipped hleaf (fun _ _ hp => hp.truthy) hrs (ts.countP isNegation)
  have hmoved : List.Forall₂ Moved ts rs := hrs.imp fun _ _ hp => hp.toMoved
  refine ⟨.node (.other s) o ((negateFirst^[ts.countP isNegation] rs).flatMap opened), ?_, ?_⟩
  · rw [normalize, normalizeAt_node, normalizeRest_of_moved hmoved (by simp) (by simp), ok_bind,
      List.nil_append]
    rfl
  · rw [tracked_node, foreseen_node, leaves_of_placed hflipped]
    exact (perm_of_placed hflipped).append_left _

end Tree

end Unstack
