import Unstack.Pipeline.Stage
import Unstack.Proofs.Pipeline

/-! # Additions that fail, and additions taken back

Neither leaves a trace in a pipeline: the row of transforms, the edges and the table are what they
were, entry by entry.

* **Failing.**  Everything is looked up before anything is changed.  The error names the transform,
  and the dependency that is missing (`add_eq_error_iff`).
* **Taking back.**  A new transform stands last in the row, so its removal moves nothing.  Its edges
  are those that lead to it, and they are the newest ones (`Graph.removeNode_last`); its entry in
  the table is the first one (`PlaceTable.erase_insert`).
* **Later calls.**  What a call does depends on the pipeline only (`Record.pipeline_ofCalls`), so
  whatever is called afterwards finds and leaves the same. -/

namespace Unstack

/-! ### The table and the graph -/

namespace PlaceTable

variable {m : PlaceTable} {id : String}

theorem erase_eq_self (h : m.get? id = none) : m.erase id = m := by
  obtain ⟨es⟩ := m
  have hkeys : ∀ e ∈ es, (e.1 != id) = true := by
    induction es with
    | nil => exact nofun
    | cons e es ih =>
        rw [get?_cons] at h
        split_ifs at h with hid
        exact List.forall_mem_cons.mpr ⟨bne_iff_ne.mpr (Ne.symm hid), ih h⟩
  exact congrArg PlaceTable.mk (List.filter_eq_self.mpr hkeys)

/-- An entry for a new name can be taken out again. -/
theorem erase_insert (h : m.get? id = none) (i : Nat) : (m.insert id i).erase id = m := by
  have hdrop : (m.insert id i).erase id = (m.erase id).erase id := by simp [insert, erase]
  rw [hdrop, erase_eq_self h, erase_eq_self h]

end PlaceTable

namespace Graph

variable {β : Type} {g : Graph β} {x : β} {es : List (Nat × Nat)}

theorem swapRemove_concat (xs : List β) (x : β) : swapRemove (xs ++ [x]) xs.length = xs := by
  simp [swapRemove]

/-- Removing the last node and the edges to it gives back the graph without them. -/
theorem removeNode_last (h : g.InRange) (hes : ∀ e ∈ es, e.2 = g.size) :
    (⟨g.nodes ++ [x], es ++ g.edges⟩ : Graph β).removeNode g.size = (some x, g) := by
  have hnode : (⟨g.nodes ++ [x], es ++ g.edges⟩ : Graph β).node? g.size = some x := by
    simp [node?, size]
  have hnew : es.filter (fun e => e.1 != g.size && e.2 != g.size) = [] := by
    refine List.filter_eq_nil_iff.mpr fun e he => ?_
    simp [hes e he]
  have hold : g.edges.filter (fun e => e.1 != g.size && e.2 != g.size) = g.edges := by
    refine List.filter_eq_self.mpr fun e he => ?_
    obtain ⟨h₁, h₂⟩ := h e he
    simp [Nat.ne_of_lt h₁, Nat.ne_of_lt h₂]
  -- the last node is the one that is removed, so no place changes
  have hstay : ∀ j, moved ((⟨g.nodes ++ [x], es ++ g.edges⟩ : Graph β).size - 1) g.size j = j := by
    intro j
    have hlast : (⟨g.nodes ++ [x], es ++ g.edges⟩ : Graph β).size - 1 = g.size := by simp [size]
    rw [hlast, moved]
    split_ifs with hj
    · exact hj.symm
    · rfl
  rw [removeNode, hnode]
  simp only [List.filter_append, hnew, hold, List.nil_append, hstay]
  rw [List.map_id'' fun _ => rfl]
  exact congrArg (fun nodes => (some x, (⟨nodes, g.edges⟩ : Graph β))) (swapRemove_concat _ _)

end Graph

namespace Pipeline

variable {α : Type} {p q : Pipeline α} {t : Transform α} {d : String} {e : PipelineError}

/-! ### One addition -/

/-- The dependency that is missed is not there. -/
theorem missing_of_placesOf {ds : List String} (h : p.placesOf ds = .error d) :
    d ∈ ds ∧ p.contains d = false := by
  induction ds with
  | nil => cases h
  | cons d' ds ih =>
      rw [placesOf] at h
      cases hd' : p.table.get? d' with
      | none =>
          rw [hd'] at h
          cases h
          refine ⟨List.mem_cons_self, ?_⟩
          rw [contains, hd']
          rfl
      | some i =>
          rw [hd'] at h
          cases hplaces : p.placesOf ds with
          | ok places =>
              rw [hplaces] at h
              cases h
          | error d'' =>
              rw [hplaces] at h
              cases h
              obtain ⟨hmem, hmissing⟩ := ih hplaces
              exact ⟨List.mem_cons_of_mem d' hmem, hmissing⟩

/-- Why an addition fails, and that it changes nothing then. -/
theorem add_eq_error_iff : p.add t = (.error e, q) ↔ q = p ∧
    (p.contains t.id = true ∧ e = .duplicate t.id ∨
      p.contains t.id = false ∧
        ∃ d, p.placesOf t.dependencies = .error d ∧ e = .unknownDependency t.id d) := by
  unfold add
  cases p.contains t.id with
  | true => simp [eq_comm, and_comm]
  | false =>
      cases p.placesOf t.dependencies with
      | error d => simp [eq_comm, and_comm]
      | ok places => simp

/-- Nothing can be added after itself: it is there already, or it is missing. -/
theorem exists_add_error (h : t.id ∈ t.dependencies) : ∃ e, p.add t = (.error e, p) := by
  cases hadd : p.add t with
  | mk result q =>
      cases result with
      | error e => exact ⟨e, by rw [eq_of_add_error hadd]⟩
      | ok u =>
          obtain ⟨hnew, places, hplaces, -⟩ := add_eq_ok_iff.mp hadd
          obtain ⟨i, -, hi⟩ := exists_of_mem_left (forall₂_of_placesOf hplaces) h
          rw [contains, hi] at hnew
          cases hnew

/-- **Taking back an addition** gives the transform and the pipeline of before. -/
theorem remove_add (h : p.Consistent) (hadd : p.add t = (.ok (), q)) :
    q.remove t.id = (some t, p) := by
  obtain ⟨hnew, places, -, rfl⟩ := add_eq_ok_iff.mp hadd
  have hget : p.table.get? t.id = none := by
    rwa [contains, Option.isSome_eq_false_iff, Option.isNone_iff_eq_none] at hnew
  have htable : (p.append t places).table = p.table.insert t.id p.graph.size := rfl
  have hplace : (p.append t places).table.get? t.id = some p.graph.size := by
    rw [htable, PlaceTable.get?_insert, if_pos rfl]
  have hgraph : (p.append t places).graph.removeNode p.graph.size = (some t, p.graph) := by
    rw [graph_append]
    refine Graph.removeNode_last h.inRange fun e he => ?_
    obtain ⟨j, -, rfl⟩ := List.mem_map.mp (List.mem_reverse.mp he)
    rfl
  have hfree : p.graph.node? p.graph.size = none := List.getElem?_eq_none (Nat.le_refl _)
  simp only [remove, hplace, hgraph, hfree]
  rw [htable, PlaceTable.erase_insert hget]

/-! ### Histories -/

/-- What a call leaves. -/
def called (p : Pipeline α) : Call α → Pipeline α
  | .add t => (p.add t).2
  | .remove id => (p.remove id).2

theorem Record.pipeline_call (r : Record α) (c : Call α) :
    (r.call c).pipeline = r.pipeline.called c := by
  cases c with
  | add t =>
      simp only [Record.call, called]
      split <;> rename_i h <;> rw [h]
  | remove id =>
      simp only [Record.call, called]
      split <;> rename_i h <;> rw [h]

/-- The pipeline after some calls, without their record. -/
theorem Record.pipeline_ofCalls (cs : List (Call α)) :
    (ofCalls cs).pipeline = cs.foldl called empty := by
  have hfold : ∀ (cs : List (Call α)) (r : Record α),
      (cs.foldl Record.call r).pipeline = cs.foldl called r.pipeline := by
    intro cs
    induction cs with
    | nil => exact fun r => rfl
    | cons c cs ih =>
        intro r
        rw [List.foldl_cons, List.foldl_cons, ih, Record.pipeline_call]
  exact hfold cs _

/-- Calls that leave a pipeline as it was may be left out of a history. -/
theorem Record.pipeline_ofCalls_idle (idle : List (Call α)) {cs : List (Call α)}
    (h : idle.foldl called (ofCalls cs).pipeline = (ofCalls cs).pipeline) (ds : List (Call α)) :
    (ofCalls (cs ++ (idle ++ ds))).pipeline = (ofCalls (cs ++ ds)).pipeline := by
  rw [pipeline_ofCalls] at h
  rw [pipeline_ofCalls, pipeline_ofCalls, List.foldl_append, List.foldl_append, List.foldl_append,
    h]

/-- **Additions that fail and additions taken back.**  After any calls, an addition that fails
changes nothing: its name is taken, or one of its dependencies is not there, and an addition after
itself always fails.  If an addition succeeds, removing the transform right away gives it back and
leaves the pipeline of before.  Either way later calls leave what they leave without the addition,
so the order of the transforms and what they do to a tree are the same. -/
theorem add_fails_or_is_taken_back :
    (∀ {α : Type} (cs ds : List (Call α)) (t : Transform α),
      let p := (Record.ofCalls cs).pipeline
      (∀ e q, p.add t = (.error e, q) → q = p ∧
        (e = .duplicate t.id ∧ p.contains t.id = true ∨
          ∃ d ∈ t.dependencies, e = .unknownDependency t.id d ∧ p.contains d = false) ∧
        (Record.ofCalls (cs ++ .add t :: ds)).pipeline = (Record.ofCalls (cs ++ ds)).pipeline) ∧
      (t.id ∈ t.dependencies → ∃ e, p.add t = (.error e, p)) ∧
      ∀ q, p.add t = (.ok (), q) → q.remove t.id = (some t, p) ∧
        (Record.ofCalls (cs ++ .add t :: .remove t.id :: ds)).pipeline
          = (Record.ofCalls (cs ++ ds)).pipeline) ∧
    ∀ (cs ds : List (Call Stage)) (t : Transform Stage) (q : Pipeline Stage) (a : Arena)
      (f : Findings), (Record.ofCalls cs).pipeline.add t = (.ok (), q) →
      let undone := (Record.ofCalls (cs ++ .add t :: .remove t.id :: ds)).pipeline
      let without := (Record.ofCalls (cs ++ ds)).pipeline
      undone.order = without.order ∧ undone.apply a f = without.apply a f := by
  have hundone : ∀ {α : Type} (cs ds : List (Call α)) (t : Transform α) (q : Pipeline α),
      (Record.ofCalls cs).pipeline.add t = (.ok (), q) →
      q.remove t.id = (some t, (Record.ofCalls cs).pipeline) ∧
        (Record.ofCalls (cs ++ .add t :: .remove t.id :: ds)).pipeline
          = (Record.ofCalls (cs ++ ds)).pipeline := by
    intro α cs ds t q hadd
    have hremove := remove_add (Record.faithful_ofCalls cs).consistent hadd
    refine ⟨hremove, Record.pipeline_ofCalls_idle [.add t, .remove t.id] ?_ ds⟩
    simp only [List.foldl_cons, List.foldl_nil, called, hadd, hremove]
  refine ⟨fun cs ds t => ⟨fun e q hadd => ?_, exists_add_error, hundone cs ds t⟩,
    fun cs ds t q a f hadd => ?_⟩
  · obtain ⟨rfl, hwhy⟩ := add_eq_error_iff.mp hadd
    refine ⟨rfl, ?_, Record.pipeline_ofCalls_idle [.add t] ?_ ds⟩
    · rcases hwhy with ⟨hthere, he⟩ | ⟨-, d, hplaces, he⟩
      · exact .inl ⟨he, hthere⟩
      · obtain ⟨hmem, hmissing⟩ := missing_of_placesOf hplaces
        exact .inr ⟨d, hmem, he, hmissing⟩
    · simp only [List.foldl_cons, List.foldl_nil, called, hadd]
  · intro undone without
    have hsame : undone = without := (hundone cs ds t q hadd).2
    rw [hsame]
    exact ⟨rfl, rfl⟩

/-- A history of stages in which the removal of `mark` moves `clean` into the first place. -/
def stagedHistory : List (Call Stage) :=
  [.add ⟨"mark", [], .change (.mark "x")⟩, .add ⟨"count", ["mark"], .observe .count⟩,
    .add ⟨"clean", ["count", "mark"], .change .normalize⟩, .remove "mark"]

/-- A name that is taken, an addition after itself, and two additions that are taken back, one of
them with a dependency named twice and the other in front of a removal. -/
theorem add_fails_or_is_taken_back_moved :
    (∃ q, (Record.ofCalls movedHistory).pipeline.add ⟨"b", [], ()⟩ = (.error (.duplicate "b"), q) ∧
      q = (Record.ofCalls movedHistory).pipeline) ∧
    (∃ e, (Record.ofCalls movedHistory).pipeline.add ⟨"e", ["a", "e"], ()⟩
      = (.error e, (Record.ofCalls movedHistory).pipeline)) ∧
    (∃ q, (Record.ofCalls movedHistory).pipeline.add ⟨"d", ["c", "b", "c"], ()⟩ = (.ok (), q) ∧
      q.remove "d" = (some ⟨"d", ["c", "b", "c"], ()⟩, (Record.ofCalls movedHistory).pipeline)) ∧
    ∀ a f, (Record.ofCalls (stagedHistory ++ [.add ⟨"drop", ["clean"], .change .dropNops⟩,
        .remove "drop", .remove "count"])).pipeline.apply a f
      = (Record.ofCalls (stagedHistory ++ [.remove "count"])).pipeline.apply a f := by
  obtain ⟨hall, hstages⟩ := add_fails_or_is_taken_back
  have htaken : (Record.ofCalls movedHistory).pipeline.add ⟨"b", [], ()⟩
      = (.error (.duplicate "b"), (Record.ofCalls movedHistory).pipeline) := by
    decide +kernel
  have hmoved : ((Record.ofCalls movedHistory).pipeline.add ⟨"d", ["c", "b", "c"], ()⟩).1
      = .ok () := by
    decide +kernel
  have hstaged : ((Record.ofCalls stagedHistory).pipeline.add
      ⟨"drop", ["clean"], .change .dropNops⟩).1 = .ok () := by
    decide +kernel
  refine ⟨⟨_, htaken, ((hall _ [] _).1 _ _ htaken).1⟩, (hall _ [] _).2.1 (by simp),
    ⟨_, Prod.ext hmoved rfl, ((hall _ [] _).2.2 _ (Prod.ext hmoved rfl)).1⟩, fun a f => ?_⟩
  exact (hstages stagedHistory [.remove "count"] _ _ a f (Prod.ext hstaged rfl)).2

end Pipeline

end Unstack
