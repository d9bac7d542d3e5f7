import Unstack.Proofs.Refinement

/-! # Where normalising stops

Over a well-formed arena a run of the normaliser comes to an end, and nothing but a rule that finds
its node malformed can end it early.

* **Bounds.**  A walk counts its levels and the rounds at one position.  More room changes nothing
  unless a run is out of room (`Traced.UpTo`), and in a well-formed arena no run is: room for every
  slot of the start is enough for the levels, and room for every slot there is by then for the
  rounds (`Arena.visit_eq_of_size_le`).  So the bounds never decide an answer.
* **Faults.**  `Fault.OfRule` lists the faults of the rules.  They are the only ones, because every
  fault reports a defect of the tree (`Unstack.Proofs.Refinement`), and below the top a defect is
  never that a branch has no parent (`Tree.inner_of_normalizeAt`).
* **The top.**  A branch without a parent is the root itself (`Arena.needsParent_at_root`). -/

namespace Unstack

open Outcome

/-! ### Runs that may be out of room -/

namespace Traced

variable {α β γ : Type}

/-- The first run is the second one, unless it is out of room. -/
def UpTo (x y : Traced α) : Prop := x.result = .error .cyclic ∨ x = y

namespace UpTo

theorem refl (x : Traced α) : UpTo x x := .inr rfl

theorem eq {x y : Traced α} (h : UpTo x y) (hx : x.result ≠ .error .cyclic) : x = y :=
  h.resolve_left hx

theorem bind {x y : Traced α} {f g : α → Traced β} (h : UpTo x y) (hfg : ∀ a, UpTo (f a) (g a)) :
    UpTo (x >>= f) (y >>= g) := by
  rcases h with hx | rfl
  · left
    rw [result_bind, hx, error_bind]
  · by_cases hout : ∃ a, x.result = .ok a ∧ (f a).result = .error .cyclic
    · obtain ⟨a, hx, ha⟩ := hout
      left
      rw [result_bind, hx, ok_bind, ha]
    · right
      exact bind_congr_of_result fun a hx => (hfg a).eq fun ha => hout ⟨a, hx, ha⟩

theorem foldlM {f g : α → γ → Traced α} (hfg : ∀ a c, UpTo (f a c) (g a c)) (cs : List γ) (a : α) :
    UpTo (cs.foldlM f a) (cs.foldlM g a) := by
  induction cs generalizing a with
  | nil => exact refl _
  | cons c cs ih =>
      rw [List.foldlM_cons, List.foldlM_cons]
      exact (hfg a c).bind ih

end UpTo

end Traced

/-! ### More room changes nothing -/

namespace Normalize

open Traced

theorem stripAt_upTo (id : NodeId) (i : Nat) {fuel fuel' : Nat} (hle : fuel ≤ fuel') (a : Arena) :
    UpTo (stripAt id i fuel a) (stripAt id i fuel' a) := by
  induction fuel generalizing fuel' a with
  | zero => exact .inl rfl
  | succ fuel ih =>
      obtain ⟨fuel', rfl⟩ : ∃ f, fuel' = f + 1 := ⟨fuel' - 1, by omega⟩
      rw [stripAt, stripAt]
      refine (UpTo.refl _).bind fun s => ?_
      cases s.children[i]? with
      | none => exact .refl _
      | some c =>
          cases c with
          | leaf l => exact .refl _
          | node n =>
              dsimp only
              split_ifs
              · cases a.child? n 0 with
                | none => exact .refl _
                | some operand =>
                    refine (UpTo.refl _).bind fun _ => (UpTo.refl _).bind fun r => ?_
                    exact ih (by omega) r.1
              · exact .refl _

theorem handle_upTo {slack slack' : Nat} (hle : slack ≤ slack') (a : Arena) (id : NodeId)
    (k : Kind) : UpTo (handle slack a id k) (handle slack' a id k) := by
  have hstrip : UpTo (stripCoercions slack a id) (stripCoercions slack' a id) :=
    .foldlM (fun a i => stripAt_upTo id i (by omega) a) _ a
  cases k with
  | and | or | jumpIf => exact hstrip
  | _ => exact .refl _

theorem visit_upTo {slack slack' depth depth' : Nat} (hs : slack ≤ slack') (hd : depth ≤ depth')
    (a : Arena) (id : NodeId) :
    UpTo (Walk.visit (handle slack) depth a id) (Walk.visit (handle slack') depth' a id) := by
  induction depth generalizing depth' a id with
  | zero => exact .inl rfl
  | succ depth ih =>
      obtain ⟨depth', rfl⟩ : ∃ d, depth' = d + 1 := ⟨depth' - 1, by omega⟩
      rw [Walk.visit, Walk.visit]
      refine (UpTo.foldlM (fun a c => ?_) _ a).bind fun a => ?_
      · split_ifs
        · exact ih (by omega) a c
        · exact .refl _
      · refine (UpTo.refl _).bind fun r => (UpTo.refl _).bind fun s => ?_
        exact handle_upTo hs r.1 id s.kind

end Normalize

namespace Arena

variable {a : Arena} {n : NodeId} {t : Tree}

theorem result_visit_ne_cyclic (h : a.WellFormed) (hs : a.Shows (.node n) t) (slack : Nat)
    {depth : Nat} (hd : a.size ≤ depth) :
    (Walk.visit (Normalize.handle slack) depth a n).result ≠ .error .cyclic := by
  intro hcyclic
  have hsim := refined slack (Nat.le_trans (hs.height_le h) hd) a n h hs
  rw [hcyclic] at hsim
  obtain ⟨d, -, hd⟩ := hsim.exists_of_error
  cases hd

/-- **Bounds do not matter.**  With room for every slot, visits of a node are one and the same run,
whatever the bounds. -/
theorem visit_eq_of_size_le (h : a.WellFormed) (hn : n < a.size) (slack slack' : Nat)
    {depth depth' : Nat} (hd : a.size ≤ depth) (hd' : a.size ≤ depth') :
    Walk.visit (Normalize.handle slack) depth a n
      = Walk.visit (Normalize.handle slack') depth' a n := by
  obtain ⟨t, hs, -⟩ := exists_shows h hn
  have hleft := (Normalize.visit_upTo (Nat.le_max_left slack slack') (Nat.le_max_left depth depth')
    a n).eq (result_visit_ne_cyclic h hs slack hd)
  have hright := (Normalize.visit_upTo (Nat.le_max_right slack slack')
    (Nat.le_max_right depth depth') a n).eq (result_visit_ne_cyclic h hs slack' hd')
  rw [hleft, hright]

end Arena

/-! ### Defects below the top -/

/-- A defect that a node below another one can have. -/
def Defect.Inner : Defect → Prop
  | .needsParent _ => False
  | .tooFewChildren count => count < 3
  | .popWithoutOperand | .coercionWithoutOperand | .noOperator _ | .noBranchValues => True

namespace Tree

variable {t : Tree} {ts : List Tree} {k : Kind} {o : Option Note} {d : Defect}
  {place : Option (Kind × Nat)}

theorem inner_of_choice (h : choice o ts = .error d) : d.Inner := by
  unfold choice at h
  split at h
  · cases h
  · rename_i hts
    cases h
    match ts, hts with
    | [], _ | [_], _ | [_, _], _ => simp [Defect.Inner]
    | flag :: condition :: first :: rest, hts => exact absurd rfl (hts flag condition first rest)

theorem inner_of_hoist (h : hoist ts = .error d) : d.Inner := by
  unfold hoist at h
  split at h
  · split_ifs at h
    cases h
    trivial
  all_goals
    cases h
    trivial

theorem inner_of_strip (h : strip t = .error d) : d.Inner := by
  induction t using Tree.induction with
  | leaf l => cases h
  | node k o ts ih =>
      by_cases hk : k = .coerceB
      · subst hk
        cases ts with
        | nil =>
            cases h
            trivial
        | cons u us =>
            rw [strip] at h
            exact ih u List.mem_cons_self h
      · rw [strip_of_ne hk] at h
        cases h

theorem inner_of_mapM_strip (h : ts.mapM strip = .error d) : d.Inner := by
  induction ts with
  | nil => cases h
  | cons t ts ih =>
      rw [List.mapM_cons] at h
      rcases error_or_of_bind_eq_error h with hstrip | ⟨u, -, h⟩
      · exact inner_of_strip hstrip
      · rcases error_or_of_bind_eq_error h with hrest | ⟨us, -, h⟩
        · exact ih hrest
        · cases h

/-- What a rule reports of a node with a parent, or of one that is no branch. -/
theorem inner_of_rule (hk : place ≠ none ∨ ∀ c, k ≠ .branch c)
    (h : rule place k o ts = .error d) : d.Inner := by
  cases k with
  | pop =>
      cases ts with
      | nil =>
          cases h
          trivial
      | cons t ts => cases h
  | branch c =>
      cases place with
      | none => exact absurd rfl (hk.resolve_left (fun hne => hne rfl) c)
      | some q =>
          unfold rule branchRule at h
          dsimp only at h
          split_ifs at h
          rcases error_or_of_bind_eq_error h with hchoice | ⟨u, -, h⟩
          · exact inner_of_choice hchoice
          · cases h
  | ternaryIf =>
      rcases error_or_of_bind_eq_error h with hhoist | ⟨us, -, h⟩
      · exact inner_of_hoist hhoist
      · rcases error_or_of_bind_eq_error h with hchoice | ⟨u, -, h⟩
        · exact inner_of_choice hchoice
        · cases h
  | ternaryIfBoolean =>
      rcases error_or_of_bind_eq_error h with hchoice | ⟨u, -, h⟩
      · exact inner_of_choice hchoice
      · cases h
  | and | or | jumpIf =>
      rcases error_or_of_bind_eq_error h with hstrip | ⟨us, -, h⟩
      · exact inner_of_mapM_strip hstrip
      · cases h
  | _ => cases h

/-- The loop over the children reports what it finds at a child. -/
theorem inner_of_normalizeRest (hts : ∀ t ∈ ts, ∀ q d, normalizeAt (some q) t = .error d → d.Inner)
    {done : List Tree} (h : normalizeRest k done ts = .error d) : d.Inner := by
  induction ts generalizing k done with
  | nil =>
      rw [normalizeRest] at h
      cases h
  | cons t ts ih =>
      rw [normalizeRest_cons] at h
      rcases error_or_of_bind_eq_error h with hchild | ⟨r, -, hrest⟩
      · exact hts t List.mem_cons_self _ d hchild
      · exact ih (fun u hu => hts u (List.mem_cons_of_mem _ hu)) hrest

/-- The kind of a node when its rule is applied: the one it had, or that of a choice with a flag. -/
theorem kind_of_normalizeRest {done : List Tree} {r : Kind × List Tree}
    (h : normalizeRest k done ts = .ok r) : r.1 = k ∨ r.1 = .ternaryIfBoolean := by
  induction ts generalizing k done with
  | nil =>
      rw [normalizeRest] at h
      cases h
      exact .inl rfl
  | cons t ts ih =>
      rw [normalizeRest_cons] at h
      obtain ⟨u, -, hrest⟩ := exists_of_bind_eq_ok h
      refine (ih hrest).elim (fun hkind => ?_) .inr
      rw [hkind, Demand.kind]
      split_ifs
      · exact .inr rfl
      · exact .inl rfl

theorem branch_of_normalizeRest {done : List Tree} {r : Kind × List Tree} {c : Condition}
    (h : normalizeRest k done ts = .ok r) (hr : r.1 = .branch c) : k = .branch c := by
  rcases kind_of_normalizeRest h with hown | hchoice
  · exact hown.symm.trans hr
  · rw [hr] at hchoice
    cases hchoice

/-- A node with a parent has no defect that only the top can have. -/
theorem inner_of_normalizeAt {q : Kind × Nat} (h : normalizeAt (some q) t = .error d) :
    d.Inner := by
  induction t using Tree.induction generalizing q d with
  | leaf l =>
      rw [normalizeAt] at h
      cases h
  | node k o ts ih =>
      rw [normalizeAt_node] at h
      rcases error_or_of_bind_eq_error h with hrest | ⟨r, -, hrule⟩
      · exact inner_of_normalizeRest (fun t ht q d hd => ih t ht hd) hrest
      · exact inner_of_rule (.inl (Option.some_ne_none q)) hrule

theorem normalizeAt_none_eq_error (h : t.normalize = .error d) : normalizeAt none t = .error d := by
  unfold normalize at h
  cases hrun : normalizeAt none t with
  | error e =>
      rw [hrun] at h
      cases h
      rfl
  | ok r =>
      rw [hrun] at h
      cases h

/-- At the top there is one defect more. -/
theorem inner_or_needsParent (h : t.normalize = .error d) : d.Inner ∨ ∃ c, d = .needsParent c := by
  have htop := normalizeAt_none_eq_error h
  cases t with
  | leaf l =>
      rw [normalizeAt] at htop
      cases htop
  | node k o ts =>
      rw [normalizeAt_node] at htop
      rcases error_or_of_bind_eq_error htop with hrest | ⟨r, -, hrule⟩
      · exact .inl (inner_of_normalizeRest (fun t _ q d hd => inner_of_normalizeAt hd) hrest)
      · by_cases hbranch : ∃ c, r.1 = .branch c
        · obtain ⟨c, hc⟩ := hbranch
          rw [hc, rule, branchRule] at hrule
          cases hrule
          exact .inr ⟨c, rfl⟩
        · exact .inl (inner_of_rule (.inr fun c hc => hbranch ⟨c, hc⟩) hrule)

end Tree

/-! ### Faults -/

/-- The faults that a rule raises at a malformed node.  A slot or a position that does not exist, a
parent without a flag, a node as its own child and a walk without an end are not among them. -/
inductive Fault.OfRule : Fault → Prop
  | needsParent (c : Condition) (id : NodeId) : OfRule (.needsParent (.branch c) id)
  | popWithoutOperand (id : NodeId) : OfRule (.popWithoutOperand id)
  | coercionWithoutOperand (id : NodeId) : OfRule (.coercionWithoutOperand id)
  | noOperator (id : NodeId) (found : Option Leaf) : OfRule (.noOperator id found)
  | noBranchValues (id operator : NodeId) : OfRule (.noBranchValues id operator)
  | tooFewChildren (id : NodeId) {count : Nat} (h : count < 3) : OfRule (.tooFewChildren id count)

theorem Fault.ofRule_of_defect? {f : Fault} {d : Defect} (h : f.defect? = some d)
    (hd : d.Inner ∨ ∃ c, d = .needsParent c) : f.OfRule := by
  cases f with
  | needsParent k id =>
      cases k with
      | branch c => exact .needsParent c id
      | _ => cases h
  | popWithoutOperand id => exact .popWithoutOperand id
  | coercionWithoutOperand id => exact .coercionWithoutOperand id
  | noOperator id found => exact .noOperator id found
  | noBranchValues id operator => exact .noBranchValues id operator
  | tooFewChildren id count =>
      cases h
      rcases hd with hd | ⟨c, hc⟩
      · exact .tooFewChildren id hd
      · cases hc
  | _ => cases h

theorem Fault.not_inner_of_needsParent {k : Kind} {n : NodeId} {d : Defect}
    (h : (Fault.needsParent k n).defect? = some d) : ¬ d.Inner := by
  cases k with
  | branch c =>
      cases h
      exact id
  | _ => cases h

namespace Arena

variable {a : Arena} {k : Kind} {n : NodeId} {o : Option Note} {ts : List Tree}

theorem result_branch_of_orphan {c : Condition} (hk : a.kind? n = some (.branch c))
    (hn : n < a.size) (hp : a.parent? n = none) :
    (Normalize.branch a n c).result = .error (.needsParent (.branch c) n) := by
  rw [Normalize.branch, Traced.result_bind, Traced.result_liftM, requireParent_error hk hn hp,
    error_bind]

/-- A rule that misses a parent is one for branches, and it misses the parent of its own node. -/
theorem needsParent_of_handle {slack : Nat} {k' : Kind} {m : NodeId} (h : a.WellFormed)
    (hs : a.Shows (.node n) (.node k o ts)) (hp : a.parent? n = none)
    (hr : (Normalize.handle slack a n k).result = .error (.needsParent k' m)) :
    m = n ∧ k' = k ∧ ∃ c, k = .branch c := by
  by_cases hbranch : ∃ c, k = .branch c
  · obtain ⟨c, rfl⟩ := hbranch
    rw [Normalize.handle, result_branch_of_orphan (shows_node.mp hs).1 hs.lt_size hp] at hr
    cases hr
    exact ⟨rfl, rfl, c, rfl⟩
  · have hsim := handle_simulates slack h hs
    rw [hr] at hsim
    obtain ⟨d, hrule, hd⟩ := hsim.exists_of_error
    refine absurd (Tree.inner_of_rule (.inr fun c hc => hbranch ⟨c, hc⟩) hrule) ?_
    exact Fault.not_inner_of_needsParent hd

/-- **A branch without a parent is the root.** -/
theorem needsParent_at_root (h : a.WellFormed)
    (hr : a.normalize.result = .error (.needsParent k n)) :
    n = a.root ∧ a.kind? a.root = some k ∧ ∃ c, k = .branch c := by
  obtain ⟨t, hs, -⟩ := exists_shows h h.root_lt
  obtain ⟨k', o, ts, rfl⟩ := hs.exists_node
  obtain ⟨depth, hdepth⟩ : ∃ d, a.walkBound = d + 1 :=
    ⟨a.walkBound - 1, by have := size_lt_walkBound a; omega⟩
  have hts : ∀ t ∈ ts, Refined a.walkBound depth t := by
    intro t ht
    have hlt : t.height < (Tree.node k' o ts).height := Tree.height_lt_of_mem ht
    have hle := hs.height_le h
    have hbound := size_lt_walkBound a
    exact refined _ (by omega)
  have hloop := rest_simulates hts h [] hs
    (show (a.children a.root).drop 0 = a.children a.root from rfl)
  simp only [normalize, Walk.run, hdepth, Traced.result_bind, Traced.result_emit, ok_bind,
    result_visit] at hr
  rw [← hdepth, childNodes] at hr
  rcases error_or_of_bind_eq_error hr with hfault | ⟨b, hb, hfault⟩
  · -- a fault at a child is one that a node with a parent can have
    rw [hfault] at hloop
    obtain ⟨d, hrest, hd⟩ := hloop.exists_of_error
    refine absurd (Tree.inner_of_normalizeRest (fun t _ q d hd => ?_) hrest) ?_
    · exact Tree.inner_of_normalizeAt hd
    · exact Fault.not_inner_of_needsParent hd
  · -- a fault at the root is that of its rule, and the children have not made it a branch
    rw [hb] at hloop
    obtain ⟨r, hrest, hw, hshow⟩ := hloop.exists_of_ok
    obtain ⟨hws, hsplice⟩ := settles_splice hw.wellFormed hshow
    rw [result_arrive _ hw.wellFormed (shows_node.mp hshow).1] at hfault
    have horphan : (b.splice a.root).parent? a.root = none :=
      hws.parent.trans (hw.parent.trans h.parent?_root)
    obtain ⟨rfl, rfl, c, hc⟩ := needsParent_of_handle hws.wellFormed hsplice horphan hfault
    refine ⟨rfl, ?_, c, hc⟩
    rw [hc, ← Tree.branch_of_normalizeRest hrest hc]
    exact (shows_node.mp hs).1

/-- **Only malformed nodes stop the normaliser, and it always stops.**  On a well-formed arena the
bounds of a walk decide nothing: with a level for every slot, and at each position a round for every
slot that there is by then, or with any more of them, the run is the same.  It returns, or it ends
with the fault of a rule; and if the fault is that a branch has no parent, that is the root. -/
theorem normalize_stops_at_rules_only (a : Arena) (h : a.WellFormed) :
    (∀ slack depth, a.size ≤ depth →
      Walk.visit (Normalize.handle slack) depth a a.root
        = Walk.run (Normalize.handle a.walkBound) a) ∧
    ((∃ b, a.normalize.result = .ok b) ∨ ∃ f, a.normalize.result = .error f ∧ f.OfRule) ∧
    ∀ k n, a.normalize.result = .error (.needsParent k n) →
      n = a.root ∧ a.kind? a.root = some k ∧ ∃ c, k = .branch c := by
  refine ⟨fun slack depth hd => ?_, ?_, fun k n hr => needsParent_at_root h hr⟩
  · exact visit_eq_of_size_le h h.root_lt slack _ hd (Nat.le_of_lt (size_lt_walkBound a))
  · obtain ⟨t, hs, -⟩ := exists_shows h h.root_lt
    have hsim := normalize_simulates h hs
    cases hr : a.normalize.result with
    | ok b => exact .inl ⟨b, rfl⟩
    | error f =>
        rw [hr] at hsim
        obtain ⟨d, ht, hd⟩ := hsim.exists_of_error
        exact .inr ⟨f, rfl, Fault.ofRule_of_defect? hd (Tree.inner_or_needsParent ht)⟩

/-- A reversed comparison as the root.  Before it is found to have no parent, the coercions in front
of its first operand are stripped, and a discarded value below them has made a new slot. -/
theorem normalize_stops_at_rules_only_comparison :
    ∃ a : Arena, a.WellFormed ∧
      a.tree = .ok (.plain (.branch .nlt)
        [.plain .and [.plain .coerceB [.plain .coerceB [.plain .pop [.text "a"]]]], .text "b"]) ∧
      a.normalize.result = .error (.needsParent (.branch .nlt) a.root) ∧
      a.kind? a.root = some (.branch .nlt) ∧
      Walk.visit (Normalize.handle 0) a.size a a.root
        = Walk.run (Normalize.handle a.walkBound) a := by
  have hwf := wellFormed_ofTree (.plain (.branch .nlt)
    [.plain .and [.plain .coerceB [.plain .coerceB [.plain .pop [.text "a"]]]], .text "b"])
  obtain ⟨hbounds, -, htop⟩ := normalize_stops_at_rules_only _ hwf
  obtain ⟨-, hkind, -⟩ := htop (.branch .nlt) 5 rfl
  exact ⟨_, hwf, tree_ofTree _ _ _, rfl, hkind, hbounds 0 _ (Nat.le_refl _)⟩

end Arena

end Unstack
