import Unstack.Proofs.Body.Rendering
import Unstack.Proofs.NormalForm
import Unstack.Proofs.Remains

/-! # Method bodies are normalised

Every proper body can be read and normalised, and the result is canonical.

* **Shape.**  The tree of a body is a block of steps (`Stmt.step_tree`), so that normalising meets
  no defect.
* **Listing.**  The nodes that an arena lists are the nodes of the tree that it shows
  (`Arena.map_nodesBelow`).
* **Counting.**  Only statements are foretold to leave a `nop` (`Tree.Operand.nopFree`), and each
  that does leaves one. -/

namespace Unstack

open Outcome

/-! ### The shape of bodies -/

namespace Expr

theorem tests_ofTest (positive : Bool) :
    Condition.ofTest positive = .truthy ∨ Condition.ofTest positive = .falsy := by
  cases positive
  · exact .inr rfl
  · exact .inl rfl

mutual

theorem operand_tree (e : Expr) (h : e.Proper) : e.tree.Operand := by
  cases e with
  | localVar n | int n | name word =>
      exact .operator none (.inl ⟨_, rfl⟩) (by simpa using .leaf _)
  | text value => exact .operator none (.inl ⟨_, rfl⟩) (by simpa using .leaf _)
  | coerceB e => exact .coercion none (operand_tree e h)
  | binary op lhs rhs =>
      refine .operator none (.inl ⟨op, rfl⟩) ?_
      simpa using ⟨operand_tree lhs h.2.1, operand_tree rhs h.2.2⟩
  | and a b =>
      refine .connective none (.inl rfl) ?_
      simpa using ⟨operand_tree a h.1, operand_tree b h.2⟩
  | or a b =>
      refine .connective none (.inr rfl) ?_
      simpa using ⟨operand_tree a h.1, operand_tree b h.2⟩
  | call receiver method args =>
      refine .operator none (.inr (.inl rfl)) ?_
      simpa using ⟨operand_tree receiver h.1, .leaf _, operand_trees args h.2.2⟩
  | ternaryCompare flag c lhs rhs ifTrue ifFalse =>
      obtain ⟨hc, hlhs, hrhs, htrue, hfalse⟩ := h
      exact .comparing _ none none hc (operand_tree lhs hlhs) (operand_tree rhs hrhs)
        (operand_tree ifTrue htrue) (operand_tree ifFalse hfalse)
  | ternaryTest flag positive test ifTrue ifFalse =>
      obtain ⟨htest, htrue, hfalse⟩ := h
      exact .testing _ none none (tests_ofTest positive) (operand_tree test htest)
        (operand_tree ifTrue htrue) (operand_tree ifFalse hfalse)
  | selfContained positive test value =>
      exact .folding none (tests_ofTest positive) (operand_tree test h.1) (operand_tree value h.2)
  | bare positive test => exact .bare none (tests_ofTest positive) (operand_tree test h)

theorem operand_trees (es : List Expr) (h : AllProper es) : ∀ t ∈ trees es, t.Operand := by
  cases es with
  | nil => exact fun _ ht => absurd ht List.not_mem_nil
  | cons e es =>
      exact List.forall_mem_cons.mpr ⟨operand_tree e h.1, operand_trees es h.2⟩

end

end Expr

theorem Stmt.step_tree (s : Stmt) (h : s.Proper) : s.tree.Step := by
  cases s with
  | pop e => exact .pop none (e.operand_tree h)
  | callVoid receiver name args =>
      refine .operand (.operator none (.inr (.inr (.inl rfl))) ?_)
      simpa using ⟨receiver.operand_tree h.1, .leaf _, Expr.operand_trees args h.2.2⟩
  | callSuperVoid name args =>
      refine .operand (.operator none (.inr (.inr (.inr rfl))) ?_)
      simpa using ⟨(Expr.localVar 0).operand_tree trivial, .leaf _, Expr.operand_trees args h.2⟩
  | jumpCompare label c lhs rhs =>
      exact .jumpComparing _ _ none none h.1 (lhs.operand_tree h.2.1) (rhs.operand_tree h.2.2)
  | jumpTest label positive test =>
      exact .jumpTesting _ _ none none (Expr.tests_ofTest positive) (test.operand_tree h)
  | setLocal n e =>
      refine .operand (.operator none (.inl ⟨_, rfl⟩) ?_)
      simpa using ⟨.leaf _, e.operand_tree h⟩
  | returnValue e =>
      refine .operand (.operator none (.inl ⟨_, rfl⟩) ?_)
      simpa using e.operand_tree h
  | kill n => exact .hint none [_] (.inl rfl)
  | debugLine n => exact .hint none [_] (.inr (.inr (.inr rfl)))
  | debugFile file => exact .hint none [_] (.inr (.inr (.inl rfl)))
  | debug name => exact .hint none [_, _, _, _] (.inr (.inl rfl))

/-! ### The nodes that an arena lists -/

/-- The leaf that a child is. -/
def Child.leaf? : Child → Option Leaf
  | .leaf l => some l
  | .node _ => none

namespace Arena

variable {a b : Arena} {n : NodeId} {t : Tree}

/-- The leaves among the children of a node, in order. -/
def leavesOf (a : Arena) (n : NodeId) : List Leaf := (a.children n).filterMap Child.leaf?

/-- What is seen of a node. -/
def seen? (a : Arena) (n : NodeId) : Option Entry :=
  (a.kind? n).map fun k => ⟨k, a.note? n, a.leavesOf n⟩

theorem leaves_of_shows {cs : List Child} {ts : List Tree} (h : List.Forall₂ a.Shows cs ts) :
    cs.filterMap Child.leaf? = ts.filterMap Tree.leaf? := by
  induction h with
  | nil => rfl
  | @cons c t cs ts hshow _ ih =>
      have hleaf : c.leaf? = t.leaf? := by
        cases c with
        | leaf l =>
            rw [shows_leaf.mp hshow]
            rfl
        | node m =>
            obtain ⟨k, o, ts, rfl⟩ := hshow.exists_node
            rfl
      rw [List.filterMap_cons, List.filterMap_cons, hleaf, ih]

theorem map_flatMap_nodesOf {f : NodeId → List NodeId} {cs : List Child} {ts : List Tree}
    (h : List.Forall₂ (fun c u => (c.node?.toList.flatMap f).map a.seen? = u.nodes.map some)
      cs ts) :
    ((nodesOf cs).flatMap f).map a.seen? = (ts.flatMap Tree.nodes).map some := by
  induction h with
  | nil => rfl
  | @cons c u cs ts hc _ ih =>
      have hsplit : (nodesOf (c :: cs)).flatMap f
          = c.node?.toList.flatMap f ++ (nodesOf cs).flatMap f := by
        cases c <;> simp [Child.node?]
      rw [hsplit, List.map_append, hc, ih, List.flatMap_cons, List.map_append]

/-- **The nodes that are listed** below a node are the nodes of the tree that it shows. -/
theorem map_nodesBelow {depth : Nat} (h : a.Shows (.node n) t) (hd : t.height ≤ depth) :
    (a.nodesBelow depth n).map a.seen? = t.nodes.map some := by
  induction t using Tree.induction generalizing n depth with
  | leaf l => exact absurd h (by simp [Shows])
  | node k o ts ih =>
      cases depth with
      | zero => exact absurd hd (by simp [Tree.height])
      | succ depth =>
          obtain ⟨hk, ho, hts⟩ := shows_node.mp h
          have hheight : ∀ u ∈ ts, u.height ≤ depth := fun u hu => by
            have := Tree.height_lt_of_mem (k := k) (o := o) hu
            omega
          have hentry : a.seen? n = some ⟨k, o, ts.filterMap Tree.leaf?⟩ := by
            rw [seen?, hk, Option.map_some, ho, leavesOf, leaves_of_shows hts]
          have hbelow : ((a.childNodes n).flatMap (a.nodesBelow depth)).map a.seen?
              = (ts.flatMap Tree.nodes).map some := by
            refine map_flatMap_nodesOf (forall₂_imp_of_mem hts fun c _ u hu hshow => ?_)
            cases c with
            | leaf l =>
                rw [shows_leaf.mp hshow]
                rfl
            | node m => simpa [Child.node?] using ih u hu hshow (hheight u hu)
          rw [nodesBelow, List.map_cons, hentry, hbelow, Tree.nodes, Tree.nodesAll_eq_flatMap,
            List.map_cons]

theorem countP_descendants (hwf : a.WellFormed) (h : a.Shows (.node a.root) t) (k : Kind) :
    a.descendants.countP (a.hasKind · k) = t.nodes.countP (·.kind == k) := by
  have hlist := map_nodesBelow h (Nat.le_succ_of_le (h.height_le hwf))
  have hcount := congrArg (List.countP fun e => e.any (·.kind == k)) hlist
  rw [List.countP_map, List.countP_map] at hcount
  refine Eq.trans (List.countP_congr fun m _ => ?_) hcount
  cases hm : a.kind? m <;> simp [hasKind, seen?, hm]

end Arena

/-! ### Counting -/

namespace Tree

variable {t : Tree} {ts : List Tree} {k : Kind} {o : Option Note}

/-- No `nop` is foretold of the tree. -/
def NopFree (t : Tree) : Prop := ∀ e ∈ t.foreseen, e.kind ≠ .nop

theorem mem_flipped (h : t ∈ flipped ts) : t ∈ ts ∨ ∃ l, t = .leaf l := by
  cases hany : ts.any isNegation with
  | false =>
      rw [flipped_of_any_eq_false hany] at h
      exact .inl h
  | true =>
      cases ts with
      | nil => cases hany
      | cons u us =>
          rw [flipped_of_any hany] at h
          rcases List.mem_cons.mp h with rfl | h
          · exact .inr ⟨_, rfl⟩
          · exact .inl (List.mem_cons_of_mem u h)

theorem nopFree_leaf (l : Leaf) : NopFree (.leaf l) := by
  intro e he
  rw [foreseen_leaf] at he
  exact absurd he List.not_mem_nil

/-- Below nodes without a `nop`, only the node itself can leave one. -/
theorem countP_foreseen_node (h : ∀ t ∈ ts, NopFree t) :
    (foreseen (.node k o ts)).countP (·.kind == .nop) = (own k o ts).countP (·.kind == .nop) := by
  have hbelow : ((flipped ts).flatMap foreseen).countP (·.kind == .nop) = 0 := by
    rw [List.countP_eq_zero]
    intro e he
    obtain ⟨t, ht, he⟩ := List.mem_flatMap.mp he
    rcases mem_flipped ht with hmem | ⟨l, rfl⟩
    · simpa using h t hmem e he
    · simpa using nopFree_leaf l e he
  rw [foreseen_node, List.countP_append, hbelow, Nat.add_zero]

theorem nopFree_node (hown : (own k o ts).countP (·.kind == .nop) = 0)
    (h : ∀ t ∈ ts, NopFree t) : NopFree (.node k o ts) := by
  intro e he
  have hcount := countP_foreseen_node (k := k) (o := o) h
  rw [hown, List.countP_eq_zero] at hcount
  simpa using hcount e he

theorem nopFree_branch (c : Condition) (h : ∀ t ∈ ts, NopFree t) :
    NopFree (.node (.branch c) o ts) := nopFree_node rfl h

theorem Operand.nopFree (h : t.Operand) : NopFree t := by
  induction h with
  | leaf l => exact nopFree_leaf l
  | @operator k ts o hk hts ih =>
      refine nopFree_node ?_ ih
      rcases hk with ⟨s, rfl⟩ | rfl | rfl | rfl <;> rfl
  | coercion o hx ih => exact nopFree_node rfl (by simpa using ih)
  | @connective k ts o hk hts ih =>
      refine nopFree_node ?_ ih
      rcases hk with rfl | rfl <;> rfl
  | comparing flag o o' hc hv hw hx hy ihv ihw ihx ihy =>
      refine nopFree_node rfl ?_
      simpa using ⟨nopFree_leaf flag, nopFree_branch _ (by simpa using ⟨ihv, ihw, ihx, ihy⟩)⟩
  | testing flag o o' hc hv hx hy ihv ihx ihy =>
      refine nopFree_node rfl ?_
      simpa using ⟨nopFree_leaf flag, nopFree_branch _ (by simpa using ⟨ihv, ihx, ihy⟩)⟩
  | folding o hc hv hx ihv ihx => exact nopFree_branch _ (by simpa using ⟨ihv, ihx⟩)
  | bare o hc hv ih => exact nopFree_branch _ (by simpa using ih)

/-- Of a step, only its own node can leave a `nop`. -/
theorem Step.countP_foreseen (h : (node k o ts).Step) :
    (foreseen (.node k o ts)).countP (·.kind == .nop) = (own k o ts).countP (·.kind == .nop) := by
  cases h with
  | operand hx =>
      have hzero : (foreseen (.node k o ts)).countP (·.kind == .nop) = 0 := by
        rw [List.countP_eq_zero]
        exact fun e he => by simpa using hx.nopFree e he
      rw [foreseen_node, List.countP_append] at hzero ⊢
      omega
  | pop o hx => exact countP_foreseen_node (by simpa using hx.nopFree)
  | jumpComparing flag label o o' hc hv hw =>
      refine countP_foreseen_node ?_
      simpa using ⟨nopFree_leaf flag, nopFree_leaf label,
        nopFree_branch _ (by simpa using ⟨hv.nopFree, hw.nopFree⟩)⟩
  | jumpTesting flag label o o' hc hv =>
      refine countP_foreseen_node ?_
      simpa using ⟨nopFree_leaf flag, nopFree_leaf label,
        nopFree_branch _ (by simpa using hv.nopFree)⟩
  | hint o ls hk => exact countP_foreseen_node (by simpa using fun l _ => nopFree_leaf l)

end Tree

theorem Stmt.countP_foreseen (s : Stmt) (h : s.Proper) :
    s.tree.foreseen.countP (·.kind == .nop) = if s.leavesNop then 1 else 0 := by
  have hstep := s.step_tree h
  cases s <;> exact hstep.countP_foreseen

namespace Body

theorem countP_foreseen (b : Body) (h : b.Proper) :
    b.tree.foreseen.countP (·.kind == .nop) = b.nopCount := by
  have hflipped : Tree.flipped (b.stmts.map Stmt.tree) = b.stmts.map Stmt.tree := by
    apply Tree.flipped_of_any_eq_false
    rw [List.any_map, List.any_eq_false]
    intro s _
    cases s <;> simp [Stmt.tree, Tree.plain, Tree.isNegation]
  have hsum (ss : List Stmt) (hss : ∀ s ∈ ss, s.Proper) :
      ((ss.map Stmt.tree).flatMap Tree.foreseen).countP (·.kind == .nop)
        = ss.countP Stmt.leavesNop := by
    induction ss with
    | nil => rfl
    | cons s ss ih =>
        rw [List.map_cons, List.flatMap_cons, List.countP_append, List.countP_cons,
          ih fun s hs => hss s (List.mem_cons_of_mem _ hs),
          s.countP_foreseen (hss s List.mem_cons_self), Nat.add_comm]
  rw [tree, Tree.plain, Tree.foreseen_node, hflipped, List.countP_append, hsum b.stmts h]
  exact Nat.zero_add _

/-- **Every proper body is handled.**  Its text is read as the tree of the body, where quoted texts
are as they were; normalising meets no fault; nothing is wrong with the result; and it has a `nop`
for each statement that leaves one. -/
theorem normalize_render (b : Body) (h : b.Proper) :
    ∃ a c, Arena.read b.render = .ok a ∧ a.tree = .ok b.tree ∧ a.normalize.result = .ok c ∧
      c.check.result = .ok [] ∧ c.descendants.countP (c.hasKind · .nop) = b.nopCount := by
  obtain ⟨hread, htree⟩ := b.read_render h
  have hwf := Arena.wellFormed_read hread
  have hshows := (Arena.tree_eq_ok_iff hwf).mp htree
  have hsteps : ∀ t ∈ b.stmts.map Stmt.tree, t.Step := by
    simpa using fun s hs => s.step_tree (h s hs)
  obtain ⟨t, ht, hperm⟩ := Tree.exists_normalize_of_steps "block" none hsteps
  have hsim := Arena.normalize_simulates hwf hshows
  rw [tree, Tree.plain, ht] at hsim
  obtain ⟨c, hc, hworked, hshow⟩ := hsim.exists_ok
  rw [← hworked.root] at hshow
  refine ⟨_, c, hread, htree, hc, ?_, ?_⟩
  · have hcanonical := Tree.canonical_normalize ht
    exact congrArg Except.ok (Arena.offenders_eq_nil hworked.wellFormed hshow hcanonical)
  · have htracked : t.nodes.countP (·.kind == .nop) = t.tracked.countP (·.kind == .nop) := by
      rw [Tree.tracked, List.countP_filter]
      refine List.countP_congr fun e _ => ?_
      cases e.kind <;> simp [Kind.isTracked]
    rw [Arena.countP_descendants hworked.wellFormed hshow, htracked, hperm.countP_eq]
    exact b.countP_foreseen h

/-- A body with quoted texts full of delimiters and with reversed tests in odd places. -/
theorem normalize_render_delimiters :
    let b : Body := ⟨[.pop (.bare false (.text "\"\\;\n)")), .setLocal 1 (.bare false (.name "x")),
      .debug "(a b"]⟩
    ∃ a c, Arena.read b.render = .ok a ∧ a.tree = .ok b.tree ∧ a.normalize.result = .ok c ∧
      c.check.result = .ok [] ∧ c.descendants.countP (c.hasKind · .nop) = 2 := by
  intro b
  have hproper : b.Proper := List.forall_mem_cons.mpr ⟨trivial, List.forall_mem_cons.mpr
    ⟨isSymbol_of_all (by decide), List.forall_mem_cons.mpr
      ⟨trivial, fun _ hs => absurd hs List.not_mem_nil⟩⟩⟩
  exact normalize_render b hproper

end Body

end Unstack
