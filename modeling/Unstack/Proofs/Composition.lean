import Unstack.Proofs.Stopping

/-! # Bodies, one statement after another

A body is a node whose kind has no rule.  If none of its children is a branch, they are normalised
one by one, each as if it stood alone: only branches look at the place where they stand, and only
they ask anything of their parent.

* `Tree.normalizeAt_of_not_isBranch` says so of one child, and `Tree.normalizeRest_of_not_isBranch`
  of the children of a node.
* So a body is normalised by `Tree.normalizeEach`, which respects `++`
  (`Tree.normalizeEach_append`). -/

namespace Unstack

open Outcome

namespace Tree

variable {k : Kind} {o : Option Note} {t : Tree} {ts us : List Tree}

/-- Whether the tree is a branch. -/
def isBranch : Tree → Bool
  | .node (.branch _) _ _ => true
  | _ => false

/-! ### Away from branches -/

/-- A rule that is not for branches takes no notice of the place, and asks for nothing. -/
theorem rule_of_ne_branch (hk : ∀ c, k ≠ .branch c) (place : Option (Kind × Nat))
    (o : Option Note) (ts : List Tree) :
    rule place k o ts = (rule none k o ts >>= fun r => pure (r.1, .none)) := by
  have hthen : ∀ {α : Type} (x : Except Defect α) (f : α → Tree),
      (x >>= fun y => pure (f y, Demand.none)) =
        ((x >>= fun y => pure (f y, Demand.none)) >>= fun r => pure (r.1, .none)) := by
    intro α x f
    cases x <;> rfl
  cases k with
  | branch c => exact absurd rfl (hk c)
  | pop => cases ts <;> rfl
  | ternaryIf =>
      simp only [rule, bind_assoc]
      rfl
  | ternaryIfBoolean => exact hthen (choice o ts) id
  | and => exact hthen (ts.mapM strip) (.node .and o)
  | or => exact hthen (ts.mapM strip) (.node .or o)
  | jumpIf => exact hthen (ts.mapM strip) (.node .jumpIf o)
  | _ => rfl

theorem normalize_node (k : Kind) (o : Option Note) (ts : List Tree) :
    normalize (.node k o ts) = (normalizeRest k [] ts >>= fun r =>
      rule none r.1 o (r.2.flatMap opened) >>= fun u => pure u.1) := by
  rw [← bind_assoc, ← normalizeAt_node, normalize]
  cases normalizeAt none (.node k o ts) <;> rfl

/-- **A tree that is no branch is normalised in any place as it is alone.** -/
theorem normalizeAt_of_not_isBranch (h : t.isBranch = false) (place : Option (Kind × Nat)) :
    normalizeAt place t = (t.normalize >>= fun u => pure (u, .none)) := by
  cases t with
  | leaf l => rfl
  | node k o ts =>
      rw [normalizeAt_node, normalize_node, bind_assoc]
      cases hrest : normalizeRest k [] ts with
      | error d => rfl
      | ok r =>
          have hbranch : ∀ c, r.1 ≠ .branch c := by
            intro c hc
            rw [branch_of_normalizeRest hrest hc] at h
            cases h
          rw [ok_bind, ok_bind, rule_of_ne_branch hbranch place, bind_assoc]
          rfl

/-- So are the children of a node, if none of them is a branch. -/
theorem normalizeRest_of_not_isBranch (h : ∀ t ∈ ts, t.isBranch = false) (k : Kind)
    (done : List Tree) :
    normalizeRest k done ts = (ts.mapM normalize >>= fun us => pure (k, done ++ us)) := by
  induction ts generalizing done with
  | nil =>
      rw [normalizeRest, List.mapM_nil, pure_bind, List.append_nil]
      rfl
  | cons t ts ih =>
      obtain ⟨ht, hts⟩ := List.forall_mem_cons.mp h
      rw [normalizeRest_cons, normalizeAt_of_not_isBranch ht, List.mapM_cons]
      simp only [bind_assoc, pure_bind]
      refine bind_congr fun u => ?_
      have hrest := ih hts (done ++ [u])
      simp only [List.append_assoc, List.singleton_append] at hrest
      exact hrest

/-! ### Bodies -/

/-- Normalises the statements of a body. -/
def normalizeEach (ts : List Tree) : Except Defect (List Tree) := do
  let us ← ts.mapM normalize
  return us.flatMap opened

theorem normalizeEach_append (ts us : List Tree) :
    normalizeEach (ts ++ us) = do
      let ts ← normalizeEach ts
      let us ← normalizeEach us
      return ts ++ us := by
  simp [normalizeEach]

theorem normalize_body (h : ∀ t ∈ ts, t.isBranch = false) (s : String) (o : Option Note) :
    normalize (.node (.other s) o ts)
      = (normalizeEach ts >>= fun us => pure (.node (.other s) o us)) := by
  rw [normalize_node, normalizeRest_of_not_isBranch h, normalizeEach, bind_assoc, bind_assoc]
  refine bind_congr fun us => ?_
  rw [pure_bind, pure_bind, List.nil_append]
  rfl

end Tree

namespace Arena

variable {a b c : Arena} {o : Option Note} {s : String} {ts : List Tree}

/-- An arena that holds a body ends up with the statements of `Tree.normalizeEach` below its root,
or with its defect. -/
theorem normalize_body_simulates (h : a.WellFormed) (ht : a.tree = .ok (.node (.other s) o ts))
    (hts : ∀ t ∈ ts, t.isBranch = false) :
    Simulates (fun b us => b.tree = .ok (.node (.other s) o us)) a.normalize.result
      (Tree.normalizeEach ts) := by
  have hsim := normalize_simulates h ((tree_eq_ok_iff h).mp ht)
  rw [Tree.normalize_body hts] at hsim
  cases heach : Tree.normalizeEach ts with
  | error d =>
      rw [heach] at hsim
      obtain ⟨f, hf, hd⟩ := hsim.exists_error
      rw [hf]
      exact .of_error hd
  | ok us =>
      rw [heach] at hsim
      obtain ⟨b, hb, hw, hshow⟩ := hsim.exists_ok
      rw [hb]
      refine .of_ok ((tree_eq_ok_iff hw.wellFormed).mpr ?_)
      rw [hw.root]
      exact hshow

/-- **A body is normalised one statement after another.**  Three arenas hold bodies of one kind:
with the statements `A`, with the statements `B`, and with both, and no statement is a branch.  If
the first two can be normalised, so can the third, and below its root stand the statements of the
one result and then those of the other.  If one of the two fails, so does the third, with the first
defect there is. -/
theorem normalize_body_append (s : String) {A B : List Tree} (hA : ∀ t ∈ A, t.isBranch = false)
    (hB : ∀ t ∈ B, t.isBranch = false) (o p q : Option Note) (ha : a.WellFormed) (hb : b.WellFormed)
    (hc : c.WellFormed) (hat : a.tree = .ok (.node (.other s) o A))
    (hbt : b.tree = .ok (.node (.other s) p B))
    (hct : c.tree = .ok (.node (.other s) q (A ++ B))) :
    (∀ a' b', a.normalize.result = .ok a' → b.normalize.result = .ok b' →
      ∃ c' us vs, c.normalize.result = .ok c' ∧ a'.tree = .ok (.node (.other s) o us) ∧
        b'.tree = .ok (.node (.other s) p vs) ∧ c'.tree = .ok (.node (.other s) q (us ++ vs))) ∧
    (∀ f, a.normalize.result = .error f →
      ∃ g d, c.normalize.result = .error g ∧ f.defect? = some d ∧ g.defect? = some d) ∧
    ∀ f, b.normalize.result = .error f → ∃ g, c.normalize.result = .error g ∧
      ∀ a', a.normalize.result = .ok a' → ∃ d, f.defect? = some d ∧ g.defect? = some d := by
  have hAB : ∀ t ∈ A ++ B, t.isBranch = false := List.forall_mem_append.mpr ⟨hA, hB⟩
  have hsimA := normalize_body_simulates ha hat hA
  have hsimB := normalize_body_simulates hb hbt hB
  have hsimC := normalize_body_simulates hc hct hAB
  rw [Tree.normalizeEach_append] at hsimC
  refine ⟨fun a' b' hra hrb => ?_, fun f hra => ?_, fun f hrb => ?_⟩
  · rw [hra] at hsimA
    rw [hrb] at hsimB
    obtain ⟨us, hus, ha'⟩ := hsimA.exists_of_ok
    obtain ⟨vs, hvs, hb'⟩ := hsimB.exists_of_ok
    rw [hus, hvs] at hsimC
    obtain ⟨c', hrc, hc'⟩ := hsimC.exists_ok
    exact ⟨c', us, vs, hrc, ha', hb', hc'⟩
  · rw [hra] at hsimA
    obtain ⟨d, hus, hd⟩ := hsimA.exists_of_error
    rw [hus] at hsimC
    obtain ⟨g, hrc, hg⟩ := hsimC.exists_error
    exact ⟨g, d, hrc, hd, hg⟩
  · rw [hrb] at hsimB
    obtain ⟨d, hvs, hd⟩ := hsimB.exists_of_error
    rw [hvs] at hsimC
    cases hus : Tree.normalizeEach A with
    | error e =>
        rw [hus] at hsimA hsimC
        obtain ⟨f', hra, -⟩ := hsimA.exists_error
        obtain ⟨g, hrc, -⟩ := hsimC.exists_error
        refine ⟨g, hrc, fun a' hra' => ?_⟩
        rw [hra] at hra'
        cases hra'
    | ok us =>
        rw [hus] at hsimC
        obtain ⟨g, hrc, hg⟩ := hsimC.exists_error
        exact ⟨g, hrc, fun _ _ => ⟨d, hd, hg⟩⟩

/-- A discarded value that holds a branch, then a hint and a choice.  With a choice that has no
values at the end instead, the body fails as that choice does alone. -/
theorem normalize_body_append_statements :
    ∃ A B C : List Tree,
      A = [.plain .pop [.plain (.other "call") [.plain (.branch .nlt) [.text "x", .text "y"]]]] ∧
      B = [.plain .debugLine [.text "z"],
        .plain .ternaryIfBoolean [.text "c", .text "u", .text "v"]] ∧
      C = [.plain .kill [], .plain .ternaryIf [.text "c", .plain (.other "op") []]] ∧
      (∃ a b c us vs, (ofTree (.plain (.other "body") A)).normalize.result = .ok a ∧
        (ofTree (.plain (.other "body") B)).normalize.result = .ok b ∧
        (ofTree (.plain (.other "body") (A ++ B))).normalize.result = .ok c ∧
        a.tree = .ok (.plain (.other "body") us) ∧ b.tree = .ok (.plain (.other "body") vs) ∧
        c.tree = .ok (.plain (.other "body") (us ++ vs))) ∧
      ∃ g, (ofTree (.plain (.other "body") (A ++ C))).normalize.result = .error g ∧
        g.defect? = some .noBranchValues := by
  have hA : ∀ t ∈ [Tree.plain .pop [.plain (.other "call")
      [.plain (.branch .nlt) [.text "x", .text "y"]]]], t.isBranch = false := by decide
  have hB : ∀ t ∈ [Tree.plain .debugLine [.text "z"],
      .plain .ternaryIfBoolean [.text "c", .text "u", .text "v"]], t.isBranch = false := by decide
  have hC : ∀ t ∈ [Tree.plain .kill [],
      .plain .ternaryIf [.text "c", .plain (.other "op") []]], t.isBranch = false := by decide
  have hwf : ∀ ts, (ofTree (.plain (.other "body") ts)).WellFormed := fun _ => wellFormed_ofTree _
  have htree : ∀ ts, (ofTree (.plain (.other "body") ts)).tree = .ok (.plain (.other "body") ts) :=
    fun _ => tree_ofTree _ _ _
  obtain ⟨hok, -, -⟩ := normalize_body_append "body" hA hB none none none (hwf _) (hwf _) (hwf _)
    (htree _) (htree _) (htree _)
  obtain ⟨-, -, hfails⟩ := normalize_body_append "body" hA hC none none none (hwf _) (hwf _) (hwf _)
    (htree _) (htree _) (htree _)
  obtain ⟨c, us, vs, hc, hus, hvs, ht⟩ := hok _ _ rfl rfl
  obtain ⟨g, hg, hd⟩ := hfails _ rfl
  obtain ⟨d, hd, hgd⟩ := hd _ rfl
  cases hd
  exact ⟨_, _, _, rfl, rfl, rfl, ⟨_, _, c, us, vs, rfl, rfl, hc, hus, hvs, ht⟩, g, hg, hgd⟩

end Arena

end Unstack
