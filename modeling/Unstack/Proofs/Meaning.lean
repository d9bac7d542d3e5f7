import Unstack.Proofs.Refinement

/-! # What branches mean

A meaning of trees that knows nothing of the rules, and the proof that normalising keeps it.

* **Interpretations.**  An `Interpretation` fixes values, their truth, and what the operators
  do; it is arbitrary but for two laws: a comparison gives a value of its own truth, and a
  coercion keeps the truth of its operand.  `holds` reads each of the fourteen conditions.
* **Meaning.**  `eval` reads a tree from the leaves up.  The part of a branch below a jump or a
  choice is a `test` that still waits for its flag.  A program means a list of effects: values
  that are computed, and jumps with the outcome of their test.
* **Programs.**  `Expression`, `Statement` and `Program` say which trees are read.
* **Preservation.**  A rule may negate a flag, reverse a condition, swap two values, open a node
  or drop a coercion; the lemmas `kept_…` and `done_…` show that these cancel out. -/

namespace Unstack

open Outcome

universe u

variable {V : Type u}

/-! ### Interpretations -/

/-- What the parts of a program stand for. -/
structure Interpretation (V : Type u) where
  truth : V → Bool
  constant : Leaf → V
  /-- The operators about which nothing is known. -/
  apply : Kind → List V → V
  relation : Comparison → V → V → Bool
  ofBool : Bool → V
  truth_ofBool : ∀ b, truth (ofBool b) = b
  coerce : V → V
  truth_coerce : ∀ v, truth (coerce v) = truth v
  /-- `and` and `or` depend on the truth of their operands only. -/
  conj : List Bool → V
  disj : List Bool → V

/-- What a tree stands for. -/
inductive Reading (V : Type u) where
  | constant (l : Leaf)
  | value (v : V)
  /-- A condition with its operands, and with the values of a choice after them. -/
  | test (c : Condition) (vs : List V)
  | jump (label : Leaf) (taken : Bool)
  | silent

/-- What a statement does. -/
inductive Effect (V : Type u) where
  | value (v : V)
  | jump (label : Leaf) (taken : Bool)

namespace Interpretation

variable (I : Interpretation V)

/-- Whether a condition holds of its operands. -/
def holds : Condition → List V → Option Bool
  | .eq, [x, y] => some (I.relation .eq x y)
  | .ne, [x, y] => some (I.relation .ne x y)
  | .ge, [x, y] => some (I.relation .ge x y)
  | .nge, [x, y] => some !(I.relation .ge x y)
  | .gt, [x, y] => some (I.relation .gt x y)
  | .ngt, [x, y] => some !(I.relation .gt x y)
  | .le, [x, y] => some (I.relation .le x y)
  | .nle, [x, y] => some !(I.relation .le x y)
  | .lt, [x, y] => some (I.relation .lt x y)
  | .nlt, [x, y] => some !(I.relation .lt x y)
  | .strictEq, [x, y] => some (I.relation .strictEq x y)
  | .strictNe, [x, y] => some !(I.relation .strictEq x y)
  | .truthy, [x] => some (I.truth x)
  | .falsy, [x] => some !(I.truth x)
  | _, _ => none

/-- The value of a reading that has one. -/
def value? : Reading V → Option V
  | .constant l => some (I.constant l)
  | .value v => some v
  | .test .. | .jump .. | .silent => none

/-- The operators on values.  A void call is read as the call, and a discarded value as the
value. -/
def operator : Kind → List V → Option V
  | .other s, vs => some (I.apply (.other s) vs)
  | .callProperty, vs => some (I.apply .callProperty vs)
  | .callPropertyVoid, vs => some (I.apply .callProperty vs)
  | .callSuper, vs => some (I.apply .callSuper vs)
  | .callSuperVoid, vs => some (I.apply .callSuper vs)
  | .compare c, [x, y] => some (I.ofBool (I.relation c x y))
  | .coerceB, [x] => some (I.coerce x)
  | .and, vs => some (I.conj (vs.map I.truth))
  | .or, vs => some (I.disj (vs.map I.truth))
  | .ternary, [c, x, y] => some (if I.truth c then x else y)
  | .pop, [x] => some x
  | _, _ => none

/-- A jump is taken if its test comes out as its flag says. -/
def jump : List (Reading V) → Option (Reading V)
  | [.constant flag, .constant label, .test c vs] =>
    (I.holds c vs).map fun b => .jump label (b == flag.truthy)
  | [.constant flag, .constant label, d] =>
    (I.value? d).map fun v => .jump label (I.truth v == flag.truthy)
  | _ => none

/-- A choice with a flag takes its first value if the condition comes out as the flag says. -/
def flagged : List (Reading V) → Option (Reading V)
  | [.constant flag, c, x, y] =>
    (I.value? c).bind fun c => (I.value? x).bind fun x => (I.value? y).map fun y =>
      .value (if I.truth c == flag.truthy then x else y)
  | _ => none

/-- The same with a test that carries the two values. -/
def tested : List (Reading V) → Option (Reading V)
  | [.constant flag, .test c [v, x, y]] =>
    (I.holds c [v]).map fun b => .value (if b == flag.truthy then x else y)
  | [.constant flag, .test c [v, w, x, y]] =>
    (I.holds c [v, w]).map fun b => .value (if b == flag.truthy then x else y)
  | _ => none

/-- What a node makes of its children. -/
def node (k : Kind) (ds : List (Reading V)) : Option (Reading V) :=
  match k with
  | .jumpIf => I.jump ds
  | .ternaryIfBoolean => I.flagged ds
  | .ternaryIf => I.tested ds
  | .branch c => (ds.mapM I.value?).map (.test c)
  | .nop | .kill | .debug | .debugFile | .debugLine => some .silent
  | k => ((ds.mapM I.value?).bind (I.operator k)).map .value

mutual

/-- What a tree stands for, if it can be read. -/
def eval : Tree → Option (Reading V)
  | .leaf l => some (.constant l)
  | .node k _ ts => (evalAll ts).bind (I.node k)

def evalAll : List Tree → Option (List (Reading V))
  | [] => some []
  | t :: ts => (eval t).bind fun d => (evalAll ts).map (d :: ·)

end

/-- The effects of a statement. -/
def effects : Reading V → Option (List (Effect V))
  | .constant l => some [.value (I.constant l)]
  | .value v => some [.value v]
  | .jump label taken => some [.jump label taken]
  | .silent => some []
  | .test .. => none

/-- The effects of statements, one after the other. -/
def run (ts : List Tree) : Option (List (Effect V)) :=
  (I.evalAll ts).bind fun ds => (ds.mapM I.effects).map List.flatten

/-- The effects of a program. -/
def meaning : Tree → Option (List (Effect V))
  | .node (.other _) _ ts => I.run ts
  | _ => none

end Interpretation

/-! ### Programs -/

namespace Tree

/-- Trees that have a value. -/
inductive Expression : Tree → Prop
  | leaf (l : Leaf) : Expression (.leaf l)
  | apply {k : Kind} {ts : List Tree} (o : Option Note)
      (hk : (∃ s, k = .other s) ∨ k = .callProperty ∨ k = .callPropertyVoid ∨ k = .callSuper ∨
        k = .callSuperVoid) (hts : ∀ t ∈ ts, Expression t) : Expression (.node k o ts)
  | compare {x y : Tree} (c : Comparison) (o : Option Note) (hx : Expression x)
      (hy : Expression y) : Expression (.node (.compare c) o [x, y])
  | coercion {x : Tree} (o : Option Note) (hx : Expression x) : Expression (.node .coerceB o [x])
  | connective {k : Kind} {ts : List Tree} (o : Option Note) (hk : k = .and ∨ k = .or)
      (hts : ∀ t ∈ ts, Expression t) : Expression (.node k o ts)
  | ternary {c x y : Tree} (o : Option Note) (hc : Expression c) (hx : Expression x)
      (hy : Expression y) : Expression (.node .ternary o [c, x, y])
  | flagged {c x y : Tree} (flag : Leaf) (o : Option Note) (hc : Expression c)
      (hx : Expression x) (hy : Expression y) :
      Expression (.node .ternaryIfBoolean o [.leaf flag, c, x, y])
  | comparing {v w x y : Tree} {c : Condition} (flag : Leaf) (o o' : Option Note)
      (ht : c ≠ .truthy) (hf : c ≠ .falsy) (hv : Expression v) (hw : Expression w)
      (hx : Expression x) (hy : Expression y) :
      Expression (.node .ternaryIf o [.leaf flag, .node (.branch c) o' [v, w, x, y]])
  | testing {v x y : Tree} {c : Condition} (flag : Leaf) (o o' : Option Note)
      (hc : c = .truthy ∨ c = .falsy) (hv : Expression v) (hx : Expression x)
      (hy : Expression y) :
      Expression (.node .ternaryIf o [.leaf flag, .node (.branch c) o' [v, x, y]])

/-- Trees that do something. -/
inductive Statement : Tree → Prop
  | jump {x : Tree} (flag label : Leaf) (o : Option Note) (hx : Expression x) :
      Statement (.node .jumpIf o [.leaf flag, .leaf label, x])
  | jumpComparing {v w : Tree} {c : Condition} (flag label : Leaf) (o o' : Option Note)
      (ht : c ≠ .truthy) (hf : c ≠ .falsy) (hv : Expression v) (hw : Expression w) :
      Statement (.node .jumpIf o [.leaf flag, .leaf label, .node (.branch c) o' [v, w]])
  | jumpTesting {v : Tree} {c : Condition} (flag label : Leaf) (o o' : Option Note)
      (hc : c = .truthy ∨ c = .falsy) (hv : Expression v) :
      Statement (.node .jumpIf o [.leaf flag, .leaf label, .node (.branch c) o' [v]])
  | pop {x : Tree} (o : Option Note) (hx : Expression x) : Statement (.node .pop o [x])
  | hint {k : Kind} (o : Option Note) (ls : List Leaf)
      (hk : k = .kill ∨ k = .debug ∨ k = .debugFile ∨ k = .debugLine) :
      Statement (.node k o (ls.map .leaf))
  | expression {x : Tree} (hx : Expression x) : Statement x

/-- Statements one after the other. -/
inductive Program : Tree → Prop
  | block {ts : List Tree} (s : String) (o : Option Note) (hts : ∀ t ∈ ts, Statement t) :
      Program (.node (.other s) o ts)

end Tree

namespace Interpretation

variable (I : Interpretation V)

/-! ### Conditions -/

/-- A comparing condition is its comparison, turned around if it is reversed. -/
theorem holds_of_comparing {c : Condition} (ht : c ≠ .truthy) (hf : c ≠ .falsy) :
    ∃ k, c.comparison? = some k ∧
      ∀ x y, I.holds c [x, y] = some (I.relation k x y ^^ c.reversed) := by
  cases c
  case truthy => exact absurd rfl ht
  case falsy => exact absurd rfl hf
  all_goals exact ⟨_, rfl, fun x y => by simp [holds, Condition.reversed]⟩

theorem holds_of_testing {c : Condition} (hc : c = .truthy ∨ c = .falsy) :
    c.comparison? = none ∧ ∀ x, I.holds c [x] = some (I.truth x ^^ c.reversed) := by
  rcases hc with rfl | rfl
  all_goals exact ⟨rfl, fun x => by simp [holds, Condition.reversed]⟩

/-! ### Values -/

/-- The tree can be read as a value. -/
def HasValue (t : Tree) (v : V) : Prop := ∃ d, I.eval t = some d ∧ I.value? d = some v

/-- The kinds that are read by `operator`. -/
def Operates (k : Kind) : Prop :=
  ∀ ds, I.node k ds = ((ds.mapM I.value?).bind (I.operator k)).map .value

variable {I} {t t' : Tree} {ts ts' : List Tree} {k : Kind} {o o' : Option Note} {v : V}
  {vs : List V}

theorem hasValue_leaf (l : Leaf) : I.HasValue (.leaf l) (I.constant l) := ⟨_, rfl, rfl⟩

theorem exists_readings (h : List.Forall₂ I.HasValue ts vs) :
    ∃ ds, I.evalAll ts = some ds ∧ ds.mapM I.value? = some vs := by
  induction h with
  | nil => exact ⟨[], rfl, rfl⟩
  | cons hv _ ih =>
      obtain ⟨d, hd, hdv⟩ := hv
      obtain ⟨ds, hds, hvs⟩ := ih
      refine ⟨d :: ds, ?_, ?_⟩
      · rw [evalAll, hd, hds]
        rfl
      · rw [List.mapM_cons, hdv, hvs]
        rfl

theorem forall₂_of_readings {ds : List (Reading V)} (hds : I.evalAll ts = some ds)
    (hvs : ds.mapM I.value? = some vs) : List.Forall₂ I.HasValue ts vs := by
  induction ts generalizing ds vs with
  | nil =>
      cases hds
      cases hvs
      exact .nil
  | cons t ts ih =>
      rw [evalAll] at hds
      obtain ⟨d, hd, hds⟩ := Option.bind_eq_some_iff.mp hds
      obtain ⟨es, hes, rfl⟩ := Option.map_eq_some_iff.mp hds
      rw [List.mapM_cons] at hvs
      obtain ⟨v, hv, hvs⟩ := Option.bind_eq_some_iff.mp hvs
      obtain ⟨ws, hws, hvs⟩ := Option.bind_eq_some_iff.mp hvs
      cases hvs
      exact .cons ⟨d, hd, hv⟩ (ih hes hws)

theorem hasValue_operator (hk : I.Operates k) (h : List.Forall₂ I.HasValue ts vs)
    (hv : I.operator k vs = some v) : I.HasValue (.node k o ts) v := by
  obtain ⟨ds, hds, hvs⟩ := exists_readings h
  refine ⟨.value v, ?_, rfl⟩
  rw [eval, hds, Option.bind_some, hk, hvs, Option.bind_some, hv]
  rfl

/-- The operand of a coercion has a value of the same truth. -/
theorem hasValue_coercion (h : I.HasValue (.node .coerceB o ts) v) :
    ∃ x w, ts = [x] ∧ I.HasValue x w ∧ I.truth w = I.truth v := by
  obtain ⟨d, hd, hv⟩ := h
  obtain ⟨ds, hds, hnode⟩ := Option.bind_eq_some_iff.mp hd
  obtain ⟨w, hw, rfl⟩ := Option.map_eq_some_iff.mp hnode
  obtain ⟨vs, hvs, hop⟩ := Option.bind_eq_some_iff.mp hw
  cases hv
  match ts, vs, forall₂_of_readings hds hvs with
  | [], [], .nil => cases hop
  | [x], [u], .cons hx .nil =>
      cases hop
      exact ⟨x, u, rfl, hx, (I.truth_coerce u).symm⟩
  | _ :: _ :: _, _ :: _ :: _, _ => cases hop

/-- Stripping keeps the truth. -/
theorem HasValue.exists_strip (h : I.HasValue t v) :
    ∃ u w, t.strip = .ok u ∧ I.HasValue u w ∧ I.truth w = I.truth v := by
  induction t using Tree.induction generalizing v with
  | leaf l => exact ⟨_, v, rfl, h, rfl⟩
  | node k o ts ih =>
      by_cases hk : k = .coerceB
      · subst hk
        obtain ⟨x, w, rfl, hx, hw⟩ := hasValue_coercion h
        obtain ⟨u, w', hu, hw', htruth⟩ := ih x List.mem_cons_self hx
        exact ⟨u, w', hu, hw', htruth.trans hw⟩
      · exact ⟨_, v, Tree.strip_of_ne hk o ts, h, rfl⟩

theorem exists_mapM_strip (h : List.Forall₂ I.HasValue ts vs) :
    ∃ us ws, ts.mapM Tree.strip = .ok us ∧ List.Forall₂ I.HasValue us ws ∧
      ws.map I.truth = vs.map I.truth := by
  induction h with
  | nil => exact ⟨[], [], rfl, .nil, rfl⟩
  | cons hv _ ih =>
      obtain ⟨u, w, hu, hw, htruth⟩ := hv.exists_strip
      obtain ⟨us, ws, hus, hws, hmap⟩ := ih
      refine ⟨u :: us, w :: ws, ?_, .cons hw hws, ?_⟩
      · rw [List.mapM_cons, hu, ok_bind, hus]
        rfl
      · rw [List.map_cons, List.map_cons, htruth, hmap]

/-! ### Choices -/

theorem eval_branch (c : Condition) (h : List.Forall₂ I.HasValue ts vs) :
    I.eval (.node (.branch c) o ts) = some (.test c vs) := by
  obtain ⟨ds, hds, hvs⟩ := exists_readings h
  simp only [eval, hds, Option.bind_some, node, hvs, Option.map_some]

section choice

variable {c x y : Tree} {vc vx vy : V} (hx : I.HasValue x vx) (hy : I.HasValue y vy)

include hx hy

theorem hasValue_flagged (flag : Leaf) (hc : I.HasValue c vc) :
    I.HasValue (.node .ternaryIfBoolean o [.leaf flag, c, x, y])
      (if I.truth vc == flag.truthy then vx else vy) := by
  obtain ⟨dc, hdc, hvc⟩ := hc
  obtain ⟨dx, hdx, hvx⟩ := hx
  obtain ⟨dy, hdy, hvy⟩ := hy
  refine ⟨.value _, ?_, rfl⟩
  simp only [eval, evalAll, hdc, hdx, hdy, Option.bind_some, Option.map_some, node, flagged, hvc,
    hvx, hvy]

/-- A choice that becomes a `ternary` takes the value that its flag says. -/
theorem exists_choice (flag : Leaf) (hc : I.HasValue c vc) :
    ∃ t', Tree.choice o [.leaf flag, c, x, y] = .ok t' ∧ t'.opened = [t'] ∧
      I.HasValue t' (if I.truth vc == flag.truthy then vx else vy) := by
  refine ⟨_, rfl, rfl, ?_⟩
  have hop : I.Operates .ternary := fun _ => rfl
  cases hflag : flag.truthy with
  | true =>
      have hv : I.operator .ternary [vc, vx, vy]
          = some (if I.truth vc == true then vx else vy) := by
        simp [operator]
      have h := hasValue_operator (o := o) hop (.cons hc (.cons hx (.cons hy .nil))) hv
      simpa [Tree.truthy, hflag] using h
  | false =>
      have hv : I.operator .ternary [vc, vy, vx]
          = some (if I.truth vc == false then vx else vy) := by
        cases hvc : I.truth vc <;> simp [operator, hvc]
      have h := hasValue_operator (o := o) hop (.cons hc (.cons hy (.cons hx .nil))) hv
      simpa [Tree.truthy, hflag] using h

theorem hasValue_comparing (flag : Leaf) {c : Condition} {v w : Tree} {vv vw : V} {b : Bool}
    (hv : I.HasValue v vv) (hw : I.HasValue w vw) (hb : I.holds c [vv, vw] = some b) :
    I.HasValue (.node .ternaryIf o [.leaf flag, .node (.branch c) o' [v, w, x, y]])
      (if b == flag.truthy then vx else vy) := by
  have htest := eval_branch (o := o') c (.cons hv (.cons hw (.cons hx (.cons hy .nil))))
  refine ⟨.value _, ?_, rfl⟩
  rw [eval, evalAll, evalAll, evalAll, htest, eval]
  simp only [Option.bind_some, Option.map_some, node, tested, hb]

theorem hasValue_testing (flag : Leaf) {c : Condition} {v : Tree} {vv : V} {b : Bool}
    (hv : I.HasValue v vv) (hb : I.holds c [vv] = some b) :
    I.HasValue (.node .ternaryIf o [.leaf flag, .node (.branch c) o' [v, x, y]])
      (if b == flag.truthy then vx else vy) := by
  have htest := eval_branch (o := o') c (.cons hv (.cons hx (.cons hy .nil)))
  refine ⟨.value _, ?_, rfl⟩
  rw [eval, evalAll, evalAll, evalAll, htest, eval]
  simp only [Option.bind_some, Option.map_some, node, tested, hb]

end choice

/-! ### Flags -/

/-- The flag after a demand. -/
def turned (flag : Leaf) (reverse : Bool) : Leaf := if reverse then .bool !flag.truthy else flag

theorem negateFirst_leaf (flag : Leaf) (reverse : Bool) (ts : List Tree) :
    (if reverse then Tree.negateFirst (.leaf flag :: ts) else .leaf flag :: ts)
      = .leaf (turned flag reverse) :: ts := by
  cases reverse <;> rfl

/-- A reversed test against a negated flag comes out as the test against the flag. -/
theorem beq_turned (flag : Leaf) (reverse b : Bool) :
    (b == (turned flag reverse).truthy) = ((b ^^ reverse) == flag.truthy) := by
  cases reverse with
  | false => simp [turned]
  | true =>
      have hflag : (turned flag true).truthy = !flag.truthy := rfl
      rw [hflag]
      cases flag.truthy <;> cases b <;> rfl

/-! ### Expressions -/

/-- An expression and what it becomes, wherever it stands. -/
structure Kept (I : Interpretation V) (t t' : Tree) : Prop where
  normal : ∀ place, t.normalizeAt place = .ok (t', .none)
  opened : t'.opened = [t']
  value : ∃ v, I.HasValue t v ∧ I.HasValue t' v

theorem kept_leaf (l : Leaf) : I.Kept (.leaf l) (.leaf l) :=
  ⟨fun _ => rfl, rfl, _, hasValue_leaf l, hasValue_leaf l⟩

theorem normalizeAt_of_kept (h : List.Forall₂ I.Kept ts ts') (place : Option (Kind × Nat)) :
    Tree.normalizeAt place (.node k o ts) = Tree.rule place k o ts' := by
  have hopened : ts'.flatMap Tree.opened = ts' := by
    induction h with
    | nil => rfl
    | cons hkept _ ih => rw [List.flatMap_cons, hkept.opened, ih, List.singleton_append]
  rw [Tree.normalizeAt_node, Tree.normalizeRest_of_none (h.imp fun _ _ hk => hk.normal), ok_bind,
    List.nil_append, hopened]

theorem exists_values (h : List.Forall₂ I.Kept ts ts') :
    ∃ vs, List.Forall₂ I.HasValue ts vs ∧ List.Forall₂ I.HasValue ts' vs := by
  induction h with
  | nil => exact ⟨[], .nil, .nil⟩
  | cons hkept _ ih =>
      obtain ⟨v, hv, hv'⟩ := hkept.value
      obtain ⟨vs, hvs, hvs'⟩ := ih
      exact ⟨v :: vs, .cons hv hvs, .cons hv' hvs'⟩

/-- A node whose rule leaves the children alone. -/
theorem kept_operator {k' : Kind} (h : List.Forall₂ I.Kept ts ts')
    (hrule : ∀ place, Tree.rule place k o ts' = .ok (.node k' o ts', .none))
    (hk' : k' ≠ .expand) (hop : I.Operates k) (hop' : I.Operates k')
    (hvalue : ∀ vs : List V, vs.length = ts.length →
      ∃ v, I.operator k vs = some v ∧ I.operator k' vs = some v) :
    I.Kept (.node k o ts) (.node k' o ts') := by
  obtain ⟨vs, hvs, hvs'⟩ := exists_values h
  obtain ⟨v, hv, hv'⟩ := hvalue vs hvs.length_eq.symm
  refine ⟨fun place => ?_, Tree.opened_of_ne hk' _ _, v, hasValue_operator hop hvs hv,
    hasValue_operator hop' hvs' hv'⟩
  rw [normalizeAt_of_kept h, hrule]

theorem kept_connective (hk : k = .and ∨ k = .or) (h : List.Forall₂ I.Kept ts ts') :
    ∃ t', I.Kept (.node k o ts) t' := by
  obtain ⟨vs, hvs, hvs'⟩ := exists_values h
  obtain ⟨us, ws, hus, hws, hmap⟩ := exists_mapM_strip hvs'
  have hsame : I.operator k ws = I.operator k vs := by
    rcases hk with rfl | rfl
    all_goals simp only [operator, hmap]
  have hop : I.Operates k := by
    rcases hk with rfl | rfl
    all_goals exact fun _ => rfl
  obtain ⟨v, hv⟩ : ∃ v, I.operator k vs = some v := by
    rcases hk with rfl | rfl
    all_goals exact ⟨_, rfl⟩
  refine ⟨.node k o us, fun place => ?_, ?_, v, hasValue_operator hop hvs hv,
    hasValue_operator hop hws (hsame.trans hv)⟩
  · rw [normalizeAt_of_kept h]
    rcases hk with rfl | rfl
    all_goals
      rw [Tree.rule, hus]
      rfl
  · rcases hk with rfl | rfl
    all_goals rfl

/-- A comparing branch becomes its comparison, and asks for a negated flag if it is reversed. -/
theorem normalizeAt_comparing (h : List.Forall₂ I.Kept ts ts') {c : Condition} {r : Comparison}
    (hc : c.comparison? = some r) (place : Kind × Nat) :
    Tree.normalizeAt (some place) (.node (.branch c) o ts)
      = .ok (.node (.compare r) o ts', ⟨c.reversed, false⟩) := by
  have hsome : place.1 = .jumpIf ∨ c.comparison?.isSome = true := .inr (by rw [hc]; rfl)
  rw [normalizeAt_of_kept h, Tree.rule, Tree.branchRule, if_pos hsome, Kind.ofCondition, hc]

/-- A test for truth below a choice hands its operands over. -/
theorem normalizeAt_testing (h : List.Forall₂ I.Kept ts ts') {c : Condition}
    (hc : c.comparison? = none) :
    Tree.normalizeAt (some (.ternaryIf, 1)) (.node (.branch c) o ts)
      = .ok (.node .expand o ts', ⟨c.reversed, true⟩) := by
  have hnone : ¬ (Kind.ternaryIf = .jumpIf ∨ c.comparison?.isSome = true) := by simp [hc]
  rw [normalizeAt_of_kept h, Tree.rule, Tree.branchRule, if_neg hnone, if_pos ⟨rfl, rfl⟩,
    Kind.ofCondition, hc]

/-- So does a test below a jump. -/
theorem normalizeAt_testing_jump (h : List.Forall₂ I.Kept ts ts') {c : Condition}
    (hc : c.comparison? = none) (i : Nat) :
    Tree.normalizeAt (some (.jumpIf, i)) (.node (.branch c) o ts)
      = .ok (.node .expand o ts', ⟨c.reversed, false⟩) := by
  rw [normalizeAt_of_kept h, Tree.rule, Tree.branchRule, if_pos (.inl rfl), Kind.ofCondition, hc]

/-- The last child of a node with a flag has a demand. -/
theorem normalizeRest_last (flag : Leaf) (us : List Tree) {d : Demand}
    (h : Tree.normalizeAt (some (k, us.length + 1)) t = .ok (t', d)) :
    Tree.normalizeRest k (.leaf flag :: us) [t]
      = .ok (d.kind k, .leaf (turned flag d.negate) :: (us ++ [t'])) := by
  rw [Tree.normalizeRest_cons, List.length_cons, h, ok_bind, Tree.normalizeRest]
  exact congrArg (fun ts => Except.ok (d.kind k, ts)) (negateFirst_leaf flag d.negate (us ++ [t']))

section choice

variable {c x x' y y' : Tree} (hx : I.Kept x x') (hy : I.Kept y y')

include hx hy

theorem kept_flagged {c' : Tree} (flag : Leaf) (hc : I.Kept c c') :
    ∃ t', I.Kept (.node .ternaryIfBoolean o [.leaf flag, c, x, y]) t' := by
  obtain ⟨vc, hvc, hvc'⟩ := hc.value
  obtain ⟨vx, hvx, hvx'⟩ := hx.value
  obtain ⟨vy, hvy, hvy'⟩ := hy.value
  obtain ⟨t', ht', hopened, hvalue⟩ := exists_choice hvx' hvy' (o := o) flag hvc'
  refine ⟨t', fun place => ?_, hopened, _, hasValue_flagged hvx hvy flag hvc, hvalue⟩
  rw [normalizeAt_of_kept (.cons (kept_leaf flag) (.cons hc (.cons hx (.cons hy .nil)))),
    Tree.rule, ht']
  rfl

theorem kept_comparing {c : Condition} {v v' w w' : Tree} (flag : Leaf) (ht : c ≠ .truthy)
    (hf : c ≠ .falsy) (hv : I.Kept v v') (hw : I.Kept w w') :
    ∃ t', I.Kept (.node .ternaryIf o [.leaf flag, .node (.branch c) o' [v, w, x, y]]) t' := by
  obtain ⟨r, hr, hholds⟩ := I.holds_of_comparing ht hf
  obtain ⟨vv, hvv, hvv'⟩ := hv.value
  obtain ⟨vw, hvw, hvw'⟩ := hw.value
  obtain ⟨vx, hvx, hvx'⟩ := hx.value
  obtain ⟨vy, hvy, hvy'⟩ := hy.value
  have hcompare : I.HasValue (.node (.compare r) o' [v', w']) (I.ofBool (I.relation r vv vw)) :=
    hasValue_operator (fun _ => rfl) (.cons hvv' (.cons hvw' .nil)) rfl
  obtain ⟨t', ht', hopened, hvalue⟩ :=
    exists_choice hvx' hvy' (o := o) (turned flag c.reversed) hcompare
  rw [I.truth_ofBool, beq_turned] at hvalue
  refine ⟨t', fun place => ?_, hopened, _,
    hasValue_comparing hvx hvy flag hvv hvw (hholds vv vw), hvalue⟩
  have hbranch := normalizeAt_comparing (o := o')
    (.cons hv (.cons hw (.cons hx (.cons hy .nil)))) hr (.ternaryIf, 1)
  rw [Tree.normalizeAt_node, Tree.normalizeRest_cons_of_none _ rfl, List.nil_append,
    normalizeRest_last flag [] hbranch, ok_bind]
  have hhoist : Tree.hoist [.leaf (turned flag c.reversed), .node (.compare r) o' [v', w', x', y']]
      = .ok [.leaf (turned flag c.reversed), .node (.compare r) o' [v', w'], x', y'] := rfl
  change (Tree.hoist [.leaf (turned flag c.reversed), .node (.compare r) o' [v', w', x', y']]
    >>= fun us => Tree.choice o us >>= fun t => pure (t, Demand.none)) = _
  rw [hhoist, ok_bind, ht']
  rfl

theorem kept_testing {c : Condition} {v v' : Tree} (flag : Leaf)
    (hc : c = .truthy ∨ c = .falsy) (hv : I.Kept v v') :
    ∃ t', I.Kept (.node .ternaryIf o [.leaf flag, .node (.branch c) o' [v, x, y]]) t' := by
  obtain ⟨hnone, hholds⟩ := I.holds_of_testing hc
  obtain ⟨vv, hvv, hvv'⟩ := hv.value
  obtain ⟨vx, hvx, hvx'⟩ := hx.value
  obtain ⟨vy, hvy, hvy'⟩ := hy.value
  obtain ⟨t', ht', hopened, hvalue⟩ :=
    exists_choice hvx' hvy' (o := o) (turned flag c.reversed) hvv'
  rw [beq_turned] at hvalue
  refine ⟨t', fun place => ?_, hopened, _,
    hasValue_testing hvx hvy flag hvv (hholds vv), hvalue⟩
  have hbranch := normalizeAt_testing (o := o') (.cons hv (.cons hx (.cons hy .nil))) hnone
  rw [Tree.normalizeAt_node, Tree.normalizeRest_cons_of_none _ rfl, List.nil_append,
    normalizeRest_last flag [] hbranch, ok_bind]
  change (Tree.choice o [.leaf (turned flag c.reversed), v', x', y'] >>= _) = _
  rw [ht']
  rfl

end choice

/-- **Expressions keep their value.** -/
theorem exists_kept (I : Interpretation V) (h : t.Expression) : ∃ t', I.Kept t t' := by
  have hall : ∀ ts : List Tree, (∀ t ∈ ts, ∃ t', I.Kept t t') → ∃ ts', List.Forall₂ I.Kept ts ts' :=
    fun ts hts => exists_forall₂ hts
  induction h with
  | leaf l => exact ⟨.leaf l, kept_leaf l⟩
  | @apply k ts o hk hts ih =>
      obtain ⟨ts', hts'⟩ := hall ts ih
      rcases hk with ⟨s, rfl⟩ | rfl | rfl | rfl | rfl
      all_goals
        exact ⟨_, kept_operator hts' (fun _ => rfl) (by simp) (fun _ => rfl) (fun _ => rfl)
          fun vs _ => ⟨_, rfl, rfl⟩⟩
  | compare c o hx hy ihx ihy =>
      obtain ⟨x', hx'⟩ := ihx
      obtain ⟨y', hy'⟩ := ihy
      refine ⟨_, kept_operator (.cons hx' (.cons hy' .nil)) (fun _ => rfl) (by simp)
        (fun _ => rfl) (fun _ => rfl) fun vs hlen => ?_⟩
      obtain ⟨v, w, rfl⟩ := List.length_eq_two.mp hlen
      exact ⟨_, rfl, rfl⟩
  | coercion o hx ihx =>
      obtain ⟨x', hx'⟩ := ihx
      refine ⟨_, kept_operator (.cons hx' .nil) (fun _ => rfl) (by simp) (fun _ => rfl)
        (fun _ => rfl) fun vs hlen => ?_⟩
      obtain ⟨v, rfl⟩ := List.length_eq_one_iff.mp hlen
      exact ⟨_, rfl, rfl⟩
  | @connective k ts o hk hts ih =>
      obtain ⟨ts', hts'⟩ := hall ts ih
      exact kept_connective hk hts'
  | ternary o hc hx hy ihc ihx ihy =>
      obtain ⟨c', hc'⟩ := ihc
      obtain ⟨x', hx'⟩ := ihx
      obtain ⟨y', hy'⟩ := ihy
      refine ⟨_, kept_operator (.cons hc' (.cons hx' (.cons hy' .nil))) (fun _ => rfl) (by simp)
        (fun _ => rfl) (fun _ => rfl) fun vs hlen => ?_⟩
      obtain ⟨u, v, w, rfl⟩ := List.length_eq_three.mp hlen
      exact ⟨_, rfl, rfl⟩
  | flagged flag o hc hx hy ihc ihx ihy =>
      obtain ⟨c', hc'⟩ := ihc
      obtain ⟨x', hx'⟩ := ihx
      obtain ⟨y', hy'⟩ := ihy
      exact kept_flagged hx' hy' flag hc'
  | comparing flag o o' ht hf hv hw hx hy ihv ihw ihx ihy =>
      obtain ⟨v', hv'⟩ := ihv
      obtain ⟨w', hw'⟩ := ihw
      obtain ⟨x', hx'⟩ := ihx
      obtain ⟨y', hy'⟩ := ihy
      exact kept_comparing hx' hy' flag ht hf hv' hw'
  | testing flag o o' hc hv hx hy ihv ihx ihy =>
      obtain ⟨v', hv'⟩ := ihv
      obtain ⟨x', hx'⟩ := ihx
      obtain ⟨y', hy'⟩ := ihy
      exact kept_testing hx' hy' flag hc hv'

/-! ### Statements -/

theorem evalAll_append (ts us : List Tree) :
    I.evalAll (ts ++ us) = (I.evalAll ts).bind fun ds => (I.evalAll us).map (ds ++ ·) := by
  induction ts with
  | nil =>
      rw [List.nil_append, evalAll, Option.bind_some]
      exact Option.map_id'.symm
  | cons t ts ih =>
      rw [List.cons_append, evalAll, evalAll, ih]
      cases I.eval t with
      | none => rfl
      | some d =>
          cases I.evalAll ts with
          | none => rfl
          | some ds => cases I.evalAll us <;> rfl

theorem run_append {us : List Tree} {es fs : List (Effect V)} (hts : I.run ts = some es)
    (hus : I.run us = some fs) : I.run (ts ++ us) = some (es ++ fs) := by
  obtain ⟨ds, hds, hes⟩ := Option.bind_eq_some_iff.mp hts
  obtain ⟨es', hes', rfl⟩ := Option.map_eq_some_iff.mp hes
  obtain ⟨cs, hcs, hfs⟩ := Option.bind_eq_some_iff.mp hus
  obtain ⟨fs', hfs', rfl⟩ := Option.map_eq_some_iff.mp hfs
  rw [run, evalAll_append, hds, hcs, Option.bind_some, Option.map_some, Option.bind_some,
    List.mapM_append, hes', hfs']
  exact congrArg some List.flatten_append

theorem run_of_reading {d : Reading V} {es : List (Effect V)} (hd : I.eval t = some d)
    (hes : I.effects d = some es) : I.run [t] = some es := by
  simp [run, evalAll, hd, hes]

theorem HasValue.run_eq (h : I.HasValue t v) : I.run [t] = some [.value v] := by
  obtain ⟨d, hd, hv⟩ := h
  refine run_of_reading hd ?_
  cases d <;> cases hv <;> rfl

/-- A statement and what it becomes. -/
structure Done (I : Interpretation V) (t t' : Tree) : Prop where
  normal : ∀ place, t.normalizeAt place = .ok (t', .none)
  same : ∃ es, I.run [t] = some es ∧ I.run t'.opened = some es

theorem Kept.done (h : I.Kept t t') : I.Done t t' := by
  obtain ⟨v, hv, hv'⟩ := h.value
  refine ⟨h.normal, _, hv.run_eq, ?_⟩
  rw [h.opened]
  exact hv'.run_eq

theorem done_pop (h : I.Kept t t') :
    I.Done (.node .pop o [t]) (.node .expand o [t', .node .nop o []]) := by
  obtain ⟨v, hv, hv'⟩ := h.value
  refine ⟨fun place => ?_, [.value v], ?_, ?_⟩
  · rw [normalizeAt_of_kept (.cons h .nil)]
    rfl
  · have hpop : I.HasValue (.node .pop o [t]) v :=
      hasValue_operator (fun _ => rfl) (.cons hv .nil) rfl
    exact hpop.run_eq
  · have hnop : I.run [.node .nop o []] = some [] := rfl
    exact run_append hv'.run_eq hnop

theorem done_hint (o : Option Note) (ls : List Leaf)
    (hk : k = .kill ∨ k = .debug ∨ k = .debugFile ∨ k = .debugLine) :
    I.Done (.node k o (ls.map .leaf)) (.node .nop o []) := by
  have hkept : List.Forall₂ I.Kept (ls.map .leaf) (ls.map .leaf) := by
    induction ls with
    | nil => exact .nil
    | cons l ls ih => exact .cons (kept_leaf l) ih
  obtain ⟨vs, hvs, -⟩ := exists_values hkept
  obtain ⟨ds, hds, -⟩ := exists_readings hvs
  refine ⟨fun place => ?_, [], run_of_reading (d := .silent) ?_ rfl, rfl⟩
  · rw [normalizeAt_of_kept hkept]
    rcases hk with rfl | rfl | rfl | rfl
    all_goals rfl
  · rw [eval, hds, Option.bind_some]
    rcases hk with rfl | rfl | rfl | rfl
    all_goals rfl

/-! ### Jumps -/

theorem run_jump (flag label : Leaf) (h : I.HasValue t v) :
    I.run [.node .jumpIf o [.leaf flag, .leaf label, t]]
      = some [.jump label (I.truth v == flag.truthy)] := by
  obtain ⟨d, hd, hv⟩ := h
  have hjump : I.jump [.constant flag, .constant label, d]
      = some (.jump label (I.truth v == flag.truthy)) := by
    cases d <;> cases hv <;> rfl
  refine run_of_reading (d := .jump label (I.truth v == flag.truthy)) ?_ rfl
  simp only [eval, evalAll, hd, Option.bind_some, Option.map_some, node, hjump]

theorem run_jump_branch (flag label : Leaf) {c : Condition} {b : Bool}
    (h : List.Forall₂ I.HasValue ts vs) (hb : I.holds c vs = some b) :
    I.run [.node .jumpIf o [.leaf flag, .leaf label, .node (.branch c) o' ts]]
      = some [.jump label (b == flag.truthy)] := by
  refine run_of_reading (d := .jump label (b == flag.truthy)) ?_ rfl
  rw [eval, evalAll, evalAll, evalAll, evalAll, eval_branch c h, eval, eval]
  simp only [Option.bind_some, Option.map_some, node, jump, hb]

/-- A jump whose children are done: its operand may be a coercion still. -/
theorem exists_rule_jump (flag label : Leaf) (h : I.HasValue t v) (o : Option Note) :
    ∃ t', (∀ place, Tree.rule place .jumpIf o [.leaf flag, .leaf label, t] = .ok (t', .none)) ∧
      I.run t'.opened = some [.jump label (I.truth v == flag.truthy)] := by
  obtain ⟨u, w, hu, hw, htruth⟩ := h.exists_strip
  have hstrip : [.leaf flag, .leaf label, t].mapM Tree.strip
      = .ok [.leaf flag, .leaf label, u] := by
    simp [hu, Tree.strip]
  refine ⟨.node .jumpIf o [.leaf flag, .leaf label, u], fun place => ?_, ?_⟩
  · rw [Tree.rule, hstrip]
    rfl
  · rw [← htruth]
    exact run_jump flag label hw

theorem exists_done_jump (flag label : Leaf) (h : I.Kept t t') :
    ∃ u, I.Done (.node .jumpIf o [.leaf flag, .leaf label, t]) u := by
  obtain ⟨v, hv, hv'⟩ := h.value
  obtain ⟨u, hrule, hrun⟩ := exists_rule_jump flag label hv' o
  refine ⟨u, fun place => ?_, _, run_jump flag label hv, hrun⟩
  rw [normalizeAt_of_kept (.cons (kept_leaf flag) (.cons (kept_leaf label) (.cons h .nil))), hrule]

/-- A jump on a branch.  The branch leaves an operand `t`, opened or not, and the flag makes up
for a reversed condition. -/
theorem exists_done_jump_branch (flag label : Leaf) {c : Condition}
    (hbranch : Tree.normalizeAt (some (.jumpIf, 2)) (.node (.branch c) o' ts)
      = .ok (t', ⟨c.reversed, false⟩)) (hopened : t'.opened = [t]) (ht : I.HasValue t v)
    (hts : List.Forall₂ I.HasValue ts vs) (hb : I.holds c vs = some (I.truth v ^^ c.reversed)) :
    ∃ u, I.Done (.node .jumpIf o [.leaf flag, .leaf label, .node (.branch c) o' ts]) u := by
  obtain ⟨u, hrule, hrun⟩ := exists_rule_jump (turned flag c.reversed) label ht o
  rw [beq_turned] at hrun
  refine ⟨u, fun place => ?_, _, run_jump_branch flag label hts hb, hrun⟩
  have hlist : ([.leaf (turned flag c.reversed), .leaf label, t'] : List Tree).flatMap Tree.opened
      = [.leaf (turned flag c.reversed), .leaf label, t] := by
    rw [List.flatMap_cons, List.flatMap_cons, List.flatMap_cons, hopened]
    rfl
  rw [Tree.normalizeAt_node, Tree.normalizeRest_cons_of_none _ rfl,
    Tree.normalizeRest_cons_of_none _ rfl, List.nil_append, List.singleton_append,
    normalizeRest_last flag [.leaf label] hbranch, ok_bind]
  change Tree.rule place .jumpIf o (List.flatMap Tree.opened
    [.leaf (turned flag c.reversed), .leaf label, t']) = _
  rw [hlist, hrule]

/-- **Statements keep their effects.** -/
theorem exists_done (I : Interpretation V) (h : t.Statement) : ∃ t', I.Done t t' := by
  cases h with
  | jump flag label o hx =>
      obtain ⟨x', hx'⟩ := exists_kept I hx
      exact exists_done_jump flag label hx'
  | jumpComparing flag label o o' ht hf hv hw =>
      obtain ⟨r, hr, hholds⟩ := I.holds_of_comparing ht hf
      obtain ⟨v', hv'⟩ := exists_kept I hv
      obtain ⟨w', hw'⟩ := exists_kept I hw
      obtain ⟨vv, hvv, hvv'⟩ := hv'.value
      obtain ⟨vw, hvw, hvw'⟩ := hw'.value
      have hcompare : I.HasValue (.node (.compare r) o' [v', w']) (I.ofBool (I.relation r vv vw)) :=
        hasValue_operator (fun _ => rfl) (.cons hvv' (.cons hvw' .nil)) rfl
      refine exists_done_jump_branch flag label
        (normalizeAt_comparing (.cons hv' (.cons hw' .nil)) hr _) rfl hcompare
        (.cons hvv (.cons hvw .nil)) ?_
      rw [hholds, I.truth_ofBool]
  | jumpTesting flag label o o' hc hv =>
      obtain ⟨hnone, hholds⟩ := I.holds_of_testing hc
      obtain ⟨v', hv'⟩ := exists_kept I hv
      obtain ⟨vv, hvv, hvv'⟩ := hv'.value
      exact exists_done_jump_branch flag label
        (normalizeAt_testing_jump (.cons hv' .nil) hnone _) rfl hvv' (.cons hvv .nil) (hholds vv)
  | pop o hx =>
      obtain ⟨x', hx'⟩ := exists_kept I hx
      exact ⟨_, done_pop hx'⟩
  | hint o ls hk => exact ⟨_, done_hint o ls hk⟩
  | expression hx =>
      obtain ⟨x', hx'⟩ := exists_kept I hx
      exact ⟨x', hx'.done⟩

theorem run_of_done (h : List.Forall₂ I.Done ts ts') :
    ∃ es, I.run ts = some es ∧ I.run (ts'.flatMap Tree.opened) = some es := by
  induction h with
  | nil => exact ⟨[], rfl, rfl⟩
  | cons hdone _ ih =>
      obtain ⟨es, hes, hes'⟩ := hdone.same
      obtain ⟨fs, hfs, hfs'⟩ := ih
      exact ⟨es ++ fs, run_append hes hfs, run_append hes' hfs'⟩

/-- **Programs keep their meaning.** -/
theorem exists_normalize (I : Interpretation V) (h : t.Program) :
    ∃ t' es, t.normalize = .ok t' ∧ I.meaning t = some es ∧ I.meaning t' = some es := by
  cases h with
  | block s o hts =>
      obtain ⟨ts', hts'⟩ := exists_forall₂ fun t ht => exists_done I (hts t ht)
      obtain ⟨es, hes, hes'⟩ := run_of_done hts'
      refine ⟨.node (.other s) o (ts'.flatMap Tree.opened), es, ?_, hes, hes'⟩
      rw [Tree.normalize, Tree.normalizeAt_node,
        Tree.normalizeRest_of_none (hts'.imp fun _ _ hd => hd.normal), ok_bind]
      rfl

/-- Values that are their own truth; among them false is less than true. -/
def boolean : Interpretation Bool where
  truth := id
  constant := Leaf.truthy
  apply _ vs := vs.all id
  relation
    | .eq, x, y | .strictEq, x, y => x == y
    | .ne, x, y => x != y
    | .lt, x, y => !x && y
    | .le, x, y => !x || y
    | .gt, x, y => x && !y
    | .ge, x, y => x || !y
  ofBool := id
  truth_ofBool _ := rfl
  coerce := id
  truth_coerce _ := rfl
  conj bs := bs.all id
  disj bs := bs.any id

end Interpretation

/-- **Normalising keeps what branches mean.**  An arena that holds a program can be normalised, and
under every interpretation the tree that it holds then has the effects of the program: the same
values in the same order, and the same jumps, taken or not as before. -/
theorem Arena.normalize_preserves_meaning (a : Arena) (h : a.WellFormed) (t : Tree)
    (ht : a.tree = .ok t) (hp : t.Program) :
    ∃ b t', a.normalize.result = .ok b ∧ b.tree = .ok t' ∧
      ∀ (V : Type u) (I : Interpretation V),
        ∃ es, I.meaning t = some es ∧ I.meaning t' = some es := by
  have hsim := normalize_simulates h ((tree_eq_ok_iff h).mp ht)
  obtain ⟨t', -, ht', -⟩ := Interpretation.boolean.exists_normalize hp
  rw [ht'] at hsim
  obtain ⟨b, hb, hw, hshow⟩ := hsim.exists_ok
  refine ⟨b, t', hb, ?_, fun V I => ?_⟩
  · rw [tree_eq_ok_iff hw.wellFormed, hw.root]
    exact hshow
  · obtain ⟨u, es, hu, hes, hes'⟩ := I.exists_normalize hp
    rw [ht'] at hu
    cases hu
    exact ⟨es, hes, hes'⟩

/-- A jump on a reversed comparison that is taken, and a discarded choice on a reversed test of a
coercion. -/
theorem Arena.normalize_preserves_meaning_block :
    ∃ (a b : Arena) (t t' : Tree), a.WellFormed ∧ a.tree = .ok t ∧ t.Program ∧
      t = .node (.other "block") none
        [.plain .jumpIf [.leaf (.bool false), .text "out",
          .plain (.branch .nlt) [.leaf .nil, .leaf (.bool true)]],
         .plain .pop [.plain .ternaryIf [.leaf .nil, .plain (.branch .falsy)
          [.plain .coerceB [.leaf (.int 1)], .leaf .nil, .leaf (.bool true)]]]] ∧
      a.normalize.result = .ok b ∧ b.tree = .ok t' ∧
      Interpretation.boolean.meaning t' = some [.jump (.text "out") true, .value false] := by
  have hrun : ∀ k o ts es, (Tree.node k o ts).Program →
      Interpretation.boolean.meaning (.node k o ts) = some es →
      ∃ (a b : Arena) (t' : Tree), a.WellFormed ∧ a.tree = .ok (.node k o ts) ∧
        a.normalize.result = .ok b ∧ b.tree = .ok t' ∧
        Interpretation.boolean.meaning t' = some es := by
    intro k o ts es hp hes
    obtain ⟨b, t', hb, hbt, hall⟩ := normalize_preserves_meaning (ofTree (.node k o ts))
      (wellFormed_ofTree _) _ (tree_ofTree k o ts) hp
    obtain ⟨es', hes', hest'⟩ := hall Bool Interpretation.boolean
    rw [hes] at hes'
    cases hes'
    exact ⟨_, b, t', wellFormed_ofTree _, tree_ofTree k o ts, hb, hbt, hest'⟩
  have hp : (Tree.node (.other "block") none
      [.plain .jumpIf [.leaf (.bool false), .text "out",
        .plain (.branch .nlt) [.leaf .nil, .leaf (.bool true)]],
       .plain .pop [.plain .ternaryIf [.leaf .nil, .plain (.branch .falsy)
        [.plain .coerceB [.leaf (.int 1)], .leaf .nil, .leaf (.bool true)]]]]).Program := by
    refine .block _ _ fun t ht => ?_
    rcases List.mem_pair.mp ht with rfl | rfl
    · exact .jumpComparing _ _ _ _ (by decide) (by decide) (.leaf _) (.leaf _)
    · exact .pop _ (.testing _ _ _ (.inr rfl) (.coercion _ (.leaf _)) (.leaf _) (.leaf _))
  obtain ⟨a, b, t', hwf, ht, hb, hbt, hes⟩ := hrun _ _ _ _ hp rfl
  exact ⟨a, b, _, t', hwf, ht, hp, rfl, hb, hbt, hes⟩

end Unstack
