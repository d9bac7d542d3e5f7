import Unstack.Pipeline.Basic
import Unstack.Proofs.Graph

/-! # The bookkeeping of pipelines

A pipeline names its transforms, its graph numbers them, and a removal gives another transform a new
number.  Seen by names none of this shows.

* **The view.**  `Pipeline.idAt` gives the name at a place and `Pipeline.Links` the edges between
  names; `Pipeline.Consistent` says that the table has exactly the places of the transforms.
* **Calls.**  An addition links the new transform to its dependencies (`links_append_iff`).  A
  removal takes a transform and its links away and nothing else (`mem_nodes_remove_iff`,
  `links_remove_iff`), although it moves another transform (`remove_eq`).
* **Histories.**  A `Record` keeps the calls that have succeeded.  After any calls it says what is
  in the pipeline and which links there are (`Record.Faithful`).
* **Order.**  A link leads from an older transform to a newer one, whatever their places.  So the
  graph has no cycle, and a transform comes after those it is linked to
  (`Consistent.exists_order`). -/

namespace Unstack

namespace PlaceTable

theorem get?_cons (e : String × Nat) (es : List (String × Nat)) (id : String) :
    (⟨e :: es⟩ : PlaceTable).get? id
      = if id = e.1 then some e.2 else (⟨es⟩ : PlaceTable).get? id := by
  obtain ⟨k, i⟩ := e
  show ((k, i) :: es).lookup id = _
  rw [List.lookup_cons]
  by_cases hid : id = k
  · rw [if_pos hid, beq_iff_eq.mpr hid]
  · rw [if_neg hid, beq_false_of_ne hid]
    rfl

theorem get?_erase (m : PlaceTable) (id id' : String) :
    (m.erase id).get? id' = if id' = id then none else m.get? id' := by
  obtain ⟨es⟩ := m
  induction es with
  | nil => simp [erase, get?]
  | cons e es ih =>
      rw [get?_cons]
      by_cases he : e.1 = id
      · have hdrop : (⟨e :: es⟩ : PlaceTable).erase id = (⟨es⟩ : PlaceTable).erase id := by
          simp [erase, he]
        rw [hdrop, ih, he]
        split_ifs <;> rfl
      · have hkeep : (⟨e :: es⟩ : PlaceTable).erase id
            = ⟨e :: ((⟨es⟩ : PlaceTable).erase id).entries⟩ := by
          simp [erase, he]
        rw [hkeep, get?_cons, ih]
        split_ifs with h1 h2
        · exact absurd (h1.symm.trans h2) he
        all_goals rfl

theorem get?_insert (m : PlaceTable) (id id' : String) (i : Nat) :
    (m.insert id i).get? id' = if id' = id then some i else m.get? id' := by
  rw [insert, get?_cons, get?_erase]
  split_ifs <;> rfl

end PlaceTable

namespace Pipeline

open Outcome

variable {α : Type} {p q : Pipeline α} {t u : Transform α} {id d : String} {i j : Nat}

/-! ### The view by names -/

/-- The name of the transform at a place. -/
def idAt (p : Pipeline α) (i : Nat) : Option String := (p.graph.node? i).map Transform.id

/-- An edge leads from the transform `d` to the transform `id`. -/
def Links (p : Pipeline α) (d id : String) : Prop :=
  ∃ i j, (i, j) ∈ p.graph.edges ∧ p.idAt i = some d ∧ p.idAt j = some id

/-- The table and the graph agree. -/
structure Consistent (p : Pipeline α) : Prop where
  /-- The table has exactly the places of the transforms. -/
  table : ∀ id i, p.table.get? id = some i ↔ p.idAt i = some id
  inRange : p.graph.InRange

theorem idAt_eq_some_iff : p.idAt i = some id ↔ ∃ t, p.graph.node? i = some t ∧ t.id = id :=
  Option.map_eq_some_iff

theorem mem_nodes_iff : t ∈ p.graph.nodes ↔ ∃ i, p.graph.node? i = some t :=
  List.mem_iff_getElem?

namespace Consistent

variable (h : p.Consistent)

include h

theorem contains_iff : p.contains id = true ↔ ∃ t ∈ p.graph.nodes, t.id = id := by
  rw [contains, Option.isSome_iff_exists]
  constructor
  · rintro ⟨i, hi⟩
    obtain ⟨t, ht, hid⟩ := idAt_eq_some_iff.mp ((h.table id i).mp hi)
    exact ⟨t, mem_nodes_iff.mpr ⟨i, ht⟩, hid⟩
  · rintro ⟨t, ht, hid⟩
    obtain ⟨i, hi⟩ := mem_nodes_iff.mp ht
    exact ⟨i, (h.table id i).mpr (idAt_eq_some_iff.mpr ⟨t, hi, hid⟩)⟩

/-- No two places hold transforms of the same name. -/
theorem place_unique (hi : p.idAt i = some id) (hj : p.idAt j = some id) : i = j :=
  Option.some.inj (((h.table id i).mpr hi).symm.trans ((h.table id j).mpr hj))

theorem contains_of_links (hl : p.Links d id) : p.contains d = true ∧ p.contains id = true := by
  obtain ⟨i, j, -, hi, hj⟩ := hl
  exact ⟨Option.isSome_iff_exists.mpr ⟨i, (h.table d i).mpr hi⟩,
    Option.isSome_iff_exists.mpr ⟨j, (h.table id j).mpr hj⟩⟩

end Consistent

theorem consistent_empty : (empty : Pipeline α).Consistent := by
  constructor
  · intro id i
    simp [empty, Graph.empty, PlaceTable.get?, idAt, Graph.node?]
  · intro e he
    cases he

/-! ### Adding -/

theorem forall₂_of_placesOf {ds : List String} {places : List Nat}
    (h : p.placesOf ds = .ok places) :
    List.Forall₂ (fun d i => p.table.get? d = some i) ds places := by
  induction ds generalizing places with
  | nil =>
      cases h
      exact .nil
  | cons d ds ih =>
      rw [placesOf] at h
      cases hd : p.table.get? d with
      | none =>
          rw [hd] at h
          cases h
      | some i =>
          rw [hd] at h
          cases hds : p.placesOf ds with
          | error e =>
              simp only [hds] at h
              cases h
          | ok is =>
              simp only [hds] at h
              cases h
              exact .cons hd (ih hds)

/-- What an addition that succeeds has found and done. -/
theorem add_eq_ok_iff : p.add t = (.ok (), q) ↔ p.contains t.id = false ∧
    ∃ places, p.placesOf t.dependencies = .ok places ∧ q = p.append t places := by
  unfold add
  cases p.contains t.id with
  | true => simp
  | false =>
      cases p.placesOf t.dependencies with
      | error d => simp
      | ok places => simp [eq_comm]

theorem eq_of_add_error {e : PipelineError} (h : p.add t = (.error e, q)) : q = p := by
  unfold add at h
  split_ifs at h with hc
  · exact (Prod.mk.inj h).2.symm
  · split at h
    · exact (Prod.mk.inj h).2.symm
    · cases h

theorem graph_append (p : Pipeline α) (t : Transform α) (places : List Nat) :
    (p.append t places).graph
      = ⟨p.graph.nodes ++ [t], (places.map fun j => (j, p.length)).reverse ++ p.graph.edges⟩ := by
  have hfold : ∀ (places : List Nat) (g : Graph (Transform α)) (i : Nat),
      places.foldl (fun g j => g.addEdge j i) g
        = ⟨g.nodes, (places.map fun j => (j, i)).reverse ++ g.edges⟩ := by
    intro places
    induction places with
    | nil => simp
    | cons j places ih =>
        intro g i
        rw [List.foldl_cons, ih]
        simp [Graph.addEdge]
  simp [append, Graph.addNode, hfold, length]

theorem idAt_append (places : List Nat) :
    (p.append t places).idAt i = if i = p.length then some t.id else p.idAt i := by
  simp only [idAt, Graph.node?, graph_append, List.getElem?_append]
  have hlen : p.length = p.graph.nodes.length := rfl
  by_cases hi : i = p.length
  · simp [hi, hlen]
  · by_cases hlt : i < p.graph.nodes.length
    · simp [hlt, hi]
    · have hgt : p.graph.nodes.length < i := by omega
      simp [hlt, hi, Nat.sub_ne_zero_of_lt hgt]

theorem lt_length_of_idAt (h : p.idAt i = some id) : i < p.length := by
  obtain ⟨t, ht, -⟩ := idAt_eq_some_iff.mp h
  exact Graph.node?_eq_some_lt ht

section append

variable (h : p.Consistent) (hnew : p.contains t.id = false) {places : List Nat}
  (hplaces : p.placesOf t.dependencies = .ok places)

include h

include hplaces in
/-- A place is the source of a new edge if a dependency stands there. -/
theorem mem_places_iff : i ∈ places ↔ ∃ d ∈ t.dependencies, p.idAt i = some d := by
  have hall := forall₂_of_placesOf hplaces
  constructor
  · intro hi
    obtain ⟨d, hd, hget⟩ := exists_of_mem_right hall hi
    exact ⟨d, hd, (h.table d i).mp hget⟩
  · rintro ⟨d, hd, hid⟩
    obtain ⟨j, hj, hget⟩ := exists_of_mem_left hall hd
    rw [h.place_unique hid ((h.table d j).mp hget)]
    exact hj

include hplaces in
theorem places_lt (hi : i ∈ places) : i < p.length := by
  obtain ⟨d, -, hd⟩ := (mem_places_iff h hplaces).mp hi
  exact lt_length_of_idAt hd

include hplaces in
theorem mem_edges_append_iff {e : Nat × Nat} : e ∈ (p.append t places).graph.edges ↔
    (e.2 = p.length ∧ ∃ d ∈ t.dependencies, p.idAt e.1 = some d) ∨ e ∈ p.graph.edges := by
  simp only [graph_append, List.mem_append, List.mem_reverse, List.mem_map]
  refine or_congr_left ?_
  rw [← mem_places_iff h hplaces]
  constructor
  · rintro ⟨j, hj, rfl⟩
    exact ⟨rfl, hj⟩
  · rintro ⟨he, hj⟩
    exact ⟨e.1, hj, by rw [← he]⟩

include hplaces in
theorem links_append_iff :
    (p.append t places).Links d id ↔ p.Links d id ∨ (d ∈ t.dependencies ∧ id = t.id) := by
  have hold : ∀ i, i < p.length → (p.append t places).idAt i = p.idAt i := fun i hi => by
    rw [idAt_append, if_neg (Nat.ne_of_lt hi)]
  have hlast : (p.append t places).idAt p.length = some t.id := by rw [idAt_append, if_pos rfl]
  constructor
  · rintro ⟨i, j, he, hi, hj⟩
    rcases (mem_edges_append_iff h hplaces).mp he with ⟨rfl, d', hd', hid'⟩ | he
    · rw [hold i (lt_length_of_idAt hid'), hid'] at hi
      rw [hlast] at hj
      cases hi
      cases hj
      exact .inr ⟨hd', rfl⟩
    · rw [hold i (h.inRange _ he).1] at hi
      rw [hold j (h.inRange _ he).2] at hj
      exact .inl ⟨i, j, he, hi, hj⟩
  · rintro (⟨i, j, he, hi, hj⟩ | ⟨hd, rfl⟩)
    · refine ⟨i, j, (mem_edges_append_iff h hplaces).mpr (.inr he), ?_, ?_⟩
      · rw [hold i (h.inRange _ he).1, hi]
      · rw [hold j (h.inRange _ he).2, hj]
    · obtain ⟨i, hi, hget⟩ := exists_of_mem_left (forall₂_of_placesOf hplaces) hd
      have hid := (h.table d i).mp hget
      refine ⟨i, p.length, (mem_edges_append_iff h hplaces).mpr (.inl ⟨rfl, d, hd, hid⟩), ?_, hlast⟩
      rw [hold i (places_lt h hplaces hi), hid]

include hnew hplaces

theorem consistent_append : (p.append t places).Consistent := by
  have hget : ∀ id, (p.append t places).table.get? id
      = if id = t.id then some p.length else p.table.get? id := fun id => by
    simp only [append, Graph.addNode, PlaceTable.get?_insert]
    rfl
  have hsize : (p.append t places).graph.size = p.length + 1 := by
    rw [graph_append, Graph.size, List.length_append]
    rfl
  have hnone : ∀ i, p.idAt i ≠ some t.id := by
    intro i hi
    rw [contains, (h.table _ i).mpr hi] at hnew
    cases hnew
  constructor
  · intro id i
    rw [hget, idAt_append]
    by_cases hid : id = t.id <;> by_cases hi : i = p.length
    · simp [hid, hi]
    · simp [hid, hi, hnone i, eq_comm]
    · have hfree : p.table.get? id ≠ some p.length := fun hg =>
        Nat.lt_irrefl _ (lt_length_of_idAt ((h.table id _).mp hg))
      simp [hid, hi, hfree, eq_comm]
    · simp [hid, hi, h.table id i]
  · intro e he
    rw [hsize]
    rcases (mem_edges_append_iff h hplaces).mp he with ⟨he, d, -, hd⟩ | he
    · exact ⟨Nat.lt_succ_of_lt (lt_length_of_idAt hd), he ▸ Nat.lt_succ_self _⟩
    · exact ⟨Nat.lt_succ_of_lt (h.inRange e he).1, Nat.lt_succ_of_lt (h.inRange e he).2⟩

end append

/-! ### Removing -/

section remove

variable (h : p.Consistent) (hi : p.table.get? id = some i) (ht : p.graph.node? i = some t)

include h hi ht

/-- What a removal gives back and what it leaves: the table follows the node that was moved. -/
theorem remove_eq :
    (p.remove id).1 = some t ∧ (p.remove id).2.graph = (p.graph.removeNode i).2 ∧
      ∀ id', (p.remove id).2.table.get? id' = if id' = id then none else
        (p.table.get? id').map (Graph.moved (p.length - 1) i) := by
  have hgiven : (p.graph.removeNode i).1 = some t := by rw [Graph.removeNode, ht]
  have hlt := Graph.node?_eq_some_lt ht
  simp only [remove, hi]
  cases hmoved : (p.graph.removeNode i).2.node? i with
  | none =>
      refine ⟨hgiven, rfl, fun id' => ?_⟩
      -- nothing was moved, so the transform was the last one
      have hlast : p.length - 1 = i := by
        by_contra hne
        have hend : p.length - 1 < p.graph.nodes.length := Nat.sub_one_lt_of_lt hlt
        have hfilled := (Graph.node?_removeNode_iff ht).mpr
          ⟨p.length - 1, hne, if_pos rfl, List.getElem?_eq_getElem hend⟩
        rw [hmoved] at hfilled
        cases hfilled
      rw [PlaceTable.get?_erase, hlast]
      cases p.table.get? id' <;> simp
  | some m =>
      refine ⟨hgiven, rfl, fun id' => ?_⟩
      obtain ⟨k, hki, hk, hm⟩ := (Graph.node?_removeNode_iff ht).mp hmoved
      have hlast : k = p.length - 1 := by
        by_contra hne
        exact hki ((if_neg hne).symm.trans hk)
      have hidm : p.table.get? m.id = some k :=
        (h.table _ k).mpr (idAt_eq_some_iff.mpr ⟨m, hm, rfl⟩)
      have hne : m.id ≠ id := by
        intro he
        rw [he, hi] at hidm
        exact hki (Option.some.inj hidm).symm
      rw [PlaceTable.get?_insert, PlaceTable.get?_erase]
      by_cases hid : id' = m.id
      · rw [if_pos hid, hid, if_neg hne, hidm, Option.map_some, Graph.moved, if_pos hlast]
      · rw [if_neg hid]
        refine if_congr Iff.rfl rfl ?_
        cases hget : p.table.get? id' with
        | none => rfl
        | some j =>
            have hj : j ≠ p.length - 1 := by
              intro he
              rw [← hlast] at he
              have := (h.table id' j).mp hget
              rw [he] at this
              exact hid (Option.some.inj (this.symm.trans ((h.table _ k).mp hidm)))
            rw [Option.map_some, Graph.moved, if_neg hj]

/-- The transforms that are left, seen by their places. -/
theorem node?_remove_iff : (p.remove id).2.graph.node? j = some u ↔
    ∃ k, k ≠ i ∧ Graph.moved (p.length - 1) i k = j ∧ p.graph.node? k = some u := by
  rw [(remove_eq h hi ht).2.1]
  exact Graph.node?_removeNode_iff ht

theorem idAt_remove_iff {id' : String} : (p.remove id).2.idAt j = some id' ↔
    ∃ k, k ≠ i ∧ Graph.moved (p.length - 1) i k = j ∧ p.idAt k = some id' := by
  simp only [idAt_eq_some_iff, node?_remove_iff h hi ht]
  constructor
  · rintro ⟨u, ⟨k, hk, hj, hu⟩, he⟩
    exact ⟨k, hk, hj, u, hu, he⟩
  · rintro ⟨k, hk, hj, u, hu, he⟩
    exact ⟨u, ⟨k, hk, hj, hu⟩, he⟩

omit ht in
/-- A place is the one of `id` if the transform there has that name. -/
theorem ne_place_iff {id' : String} {k : Nat} (hk : p.idAt k = some id') : k ≠ i ↔ id' ≠ id := by
  rw [not_iff_not]
  constructor
  · rintro rfl
    exact Option.some.inj (hk.symm.trans ((h.table id k).mp hi))
  · rintro rfl
    exact h.place_unique hk ((h.table _ i).mp hi)

theorem mem_nodes_remove_iff :
    u ∈ (p.remove id).2.graph.nodes ↔ u ∈ p.graph.nodes ∧ u.id ≠ id := by
  simp only [mem_nodes_iff, node?_remove_iff h hi ht]
  constructor
  · rintro ⟨j, k, hk, -, hu⟩
    exact ⟨⟨k, hu⟩, (ne_place_iff h hi (idAt_eq_some_iff.mpr ⟨u, hu, rfl⟩)).mp hk⟩
  · rintro ⟨⟨k, hu⟩, hne⟩
    exact ⟨_, k, (ne_place_iff h hi (idAt_eq_some_iff.mpr ⟨u, hu, rfl⟩)).mpr hne, rfl, hu⟩

theorem links_remove_iff {id' : String} :
    (p.remove id).2.Links d id' ↔ p.Links d id' ∧ d ≠ id ∧ id' ≠ id := by
  have hedges : ∀ e, e ∈ (p.remove id).2.graph.edges ↔ ∃ a b, (a, b) ∈ p.graph.edges ∧ a ≠ i ∧
      b ≠ i ∧ e = (Graph.moved (p.length - 1) i a, Graph.moved (p.length - 1) i b) := by
    intro e
    rw [(remove_eq h hi ht).2.1]
    exact Graph.mem_edges_removeNode_iff ht
  constructor
  · rintro ⟨j, k, he, hj, hk⟩
    obtain ⟨a, b, hab, ha, hb, he⟩ := (hedges _).mp he
    cases he
    obtain ⟨a', ha', hmove, hida⟩ := (idAt_remove_iff h hi ht).mp hj
    obtain ⟨b', hb', hmove', hidb⟩ := (idAt_remove_iff h hi ht).mp hk
    rw [Graph.moved_inj ha' ha hmove] at hida
    rw [Graph.moved_inj hb' hb hmove'] at hidb
    exact ⟨⟨a, b, hab, hida, hidb⟩, (ne_place_iff h hi hida).mp ha, (ne_place_iff h hi hidb).mp hb⟩
  · rintro ⟨⟨a, b, hab, hida, hidb⟩, hd, hid'⟩
    have ha := (ne_place_iff h hi hida).mpr hd
    have hb := (ne_place_iff h hi hidb).mpr hid'
    exact ⟨_, _, (hedges _).mpr ⟨a, b, hab, ha, hb, rfl⟩,
      (idAt_remove_iff h hi ht).mpr ⟨a, ha, rfl, hida⟩,
      (idAt_remove_iff h hi ht).mpr ⟨b, hb, rfl, hidb⟩⟩

theorem consistent_remove : (p.remove id).2.Consistent := by
  obtain ⟨-, hgraph, hget⟩ := remove_eq h hi ht
  refine ⟨fun id' j => ?_, hgraph ▸ h.inRange.removeNode ht⟩
  rw [hget, idAt_remove_iff h hi ht]
  constructor
  · intro hj
    split_ifs at hj with hid
    obtain ⟨k, hk, rfl⟩ := Option.map_eq_some_iff.mp hj
    have hidk := (h.table id' k).mp hk
    exact ⟨k, (ne_place_iff h hi hidk).mpr hid, rfl, hidk⟩
  · rintro ⟨k, hk, rfl, hidk⟩
    rw [if_neg ((ne_place_iff h hi hidk).mp hk), (h.table id' k).mpr hidk, Option.map_some]

end remove

theorem remove_eq_none (hi : p.table.get? id = none) : p.remove id = (none, p) := by
  simp only [remove, hi]

/-- A removal gives back the transform of that name. -/
theorem Consistent.remove_fst_iff (h : p.Consistent) :
    (p.remove id).1 = some t ↔ t ∈ p.graph.nodes ∧ t.id = id := by
  cases hi : p.table.get? id with
  | none =>
      rw [remove_eq_none hi]
      constructor
      · intro he
        cases he
      · rintro ⟨ht, rfl⟩
        have hin := h.contains_iff.mpr ⟨t, ht, rfl⟩
        rw [contains, hi] at hin
        cases hin
  | some i =>
      obtain ⟨u, hu, hid⟩ := idAt_eq_some_iff.mp ((h.table id i).mp hi)
      rw [(remove_eq h hi hu).1, Option.some.injEq]
      constructor
      · rintro rfl
        exact ⟨mem_nodes_iff.mpr ⟨i, hu⟩, hid⟩
      · rintro ⟨ht, hid'⟩
        obtain ⟨j, hj⟩ := mem_nodes_iff.mp ht
        have hij := h.place_unique ((h.table id i).mp hi) (idAt_eq_some_iff.mpr ⟨t, hj, hid'⟩)
        rw [← hij, hu] at hj
        exact Option.some.inj hj

/-! ### Order -/

theorem idxOf_lt_of_sublist {xs : List String} {x y : String} (h : [x, y].Sublist xs)
    (hnd : xs.Nodup) : xs.idxOf x < xs.idxOf y := by
  induction xs with
  | nil => cases h
  | cons z xs ih =>
      obtain ⟨hz, hnd⟩ := List.nodup_cons.mp hnd
      cases h with
      | cons _ h =>
          have hx : z ≠ x := fun e => hz (e ▸ h.subset (by simp))
          have hy : z ≠ y := fun e => hz (e ▸ h.subset (by simp))
          rw [List.idxOf_cons_ne _ hx, List.idxOf_cons_ne _ hy]
          exact Nat.succ_lt_succ (ih h hnd)
      | cons_cons _ h =>
          have hy : x ≠ y := fun e => hz (e ▸ h.subset (by simp))
          rw [List.idxOf_cons_self, List.idxOf_cons_ne _ hy]
          exact Nat.succ_pos _

/-- **Transforms can be put in order** if links lead to names of a higher rank. -/
theorem Consistent.exists_order (h : p.Consistent) {rank : String → Nat}
    (hrank : ∀ d id, p.Links d id → rank d < rank id) :
    ∃ order, p.order = .ok order ∧ order.Nodup ∧ (∀ id, id ∈ order ↔ p.contains id = true) ∧
      order.length = p.length ∧ ∀ d id, p.Links d id → order.idxOf d < order.idxOf id := by
  have hfilled : ∀ i, i < p.length → ∃ id, p.idAt i = some id := fun i hi =>
    ⟨_, congrArg (Option.map Transform.id) (List.getElem?_eq_getElem hi)⟩
  have hrising : p.graph.Rising fun i => rank ((p.idAt i).getD "") := by
    intro e he
    obtain ⟨d, hd⟩ := hfilled e.1 (h.inRange e he).1
    obtain ⟨id, hid⟩ := hfilled e.2 (h.inRange e he).2
    simp only [hd, hid, Option.getD_some]
    exact hrank d id ⟨e.1, e.2, he, hd, hid⟩
  obtain ⟨places, hsort, hnd, hall, hedges⟩ := Graph.exists_sort h.inRange hrising
  have horder : p.order = .ok (places.filterMap p.idAt) := by
    simp only [order, ordered, hsort, Except.map, List.map_filterMap]
    rfl
  have hmem : ∀ id, id ∈ places.filterMap p.idAt ↔ p.contains id = true := by
    intro id
    rw [contains, Option.isSome_iff_exists, List.mem_filterMap]
    constructor
    · rintro ⟨i, -, hi⟩
      exact ⟨i, (h.table id i).mpr hi⟩
    · rintro ⟨i, hi⟩
      have hid := (h.table id i).mp hi
      exact ⟨i, (hall i).mpr (lt_length_of_idAt hid), hid⟩
  have hnd' : (places.filterMap p.idAt).Nodup :=
    hnd.filterMap fun i j id hi hj => h.place_unique hi hj
  refine ⟨_, horder, hnd', hmem, ?_, fun d id hlink => ?_⟩
  · have hsome : ∀ i ∈ places, (p.idAt i).isSome = true := fun i hi =>
      Option.isSome_iff_exists.mpr (hfilled i ((hall i).mp hi))
    have hperm : places.Perm (List.range p.length) :=
      (List.perm_ext_iff_of_nodup hnd List.nodup_range).mpr fun i =>
        (hall i).trans List.mem_range.symm
    rw [List.filterMap_length_eq_length.mpr hsome, hperm.length_eq, List.length_range]
  · obtain ⟨i, j, he, hi, hj⟩ := hlink
    have hsub := (hedges _ he).filterMap p.idAt
    simp only [List.filterMap_cons, hi, hj, List.filterMap_nil] at hsub
    exact idxOf_lt_of_sublist hsub hnd'

/-! ### Histories -/

/-- A call that may change a pipeline. -/
inductive Call (α : Type) where
  | add (t : Transform α)
  | remove (id : String)

/-- A call that has succeeded. -/
inductive Change (α : Type) where
  | added (t : Transform α)
  | removed (id : String)
deriving DecidableEq

/-- The name that a change is about. -/
def Change.name : Change α → String
  | added t => t.id
  | removed id => id

/-- A pipeline and how it came about. -/
structure Record (α : Type) where
  pipeline : Pipeline α
  /-- The calls that have succeeded, the latest first. -/
  changes : List (Change α)

/-- Carries out a call and notes it down if it succeeds. -/
def Record.call (r : Record α) : Call α → Record α
  | .add t =>
    match r.pipeline.add t with
    | (.ok (), p) => ⟨p, .added t :: r.changes⟩
    | (.error _, p) => ⟨p, r.changes⟩
  | .remove id =>
    match r.pipeline.remove id with
    | (some _, p) => ⟨p, .removed id :: r.changes⟩
    | (none, p) => ⟨p, r.changes⟩

/-- The record of a sequence of calls on a new pipeline. -/
def Record.ofCalls (cs : List (Call α)) : Record α := cs.foldl call ⟨empty, []⟩

/-- The transform was the last one to be added under its name, and was not removed since. -/
def Live (cs : List (Change α)) (t : Transform α) : Prop :=
  ∃ newer older, cs = newer ++ .added t :: older ∧ ∀ c ∈ newer, c.name ≠ t.id

/-- When a name was last added: how many changes there had been before. -/
def birth (id : String) : List (Change α) → Nat
  | [] => 0
  | .added t :: cs => if t.id = id then cs.length else birth id cs
  | .removed _ :: cs => birth id cs

section changes

variable {c : Change α} {cs newer older : List (Change α)}

theorem live_cons_of_ne (hc : c ≠ .added t) : Live (c :: cs) t ↔ Live cs t ∧ c.name ≠ t.id := by
  constructor
  · rintro ⟨newer, older, he, hnew⟩
    cases newer with
    | nil => exact absurd (List.cons.inj he).1 hc
    | cons c' newer =>
        obtain ⟨rfl, rfl⟩ := List.cons.inj he
        exact ⟨⟨newer, older, rfl, fun c hc => hnew c (List.mem_cons_of_mem _ hc)⟩,
          hnew _ List.mem_cons_self⟩
  · rintro ⟨⟨newer, older, rfl, hnew⟩, hne⟩
    refine ⟨c :: newer, older, rfl, fun c' hc' => ?_⟩
    rcases List.mem_cons.mp hc' with rfl | hc'
    · exact hne
    · exact hnew c' hc'

theorem live_added_self : Live (.added t :: cs) t := ⟨[], cs, rfl, by simp⟩

theorem birth_lt_length (h : Live cs t) : birth t.id cs < cs.length := by
  induction cs with
  | nil =>
      obtain ⟨newer, older, he, -⟩ := h
      cases newer <;> cases he
  | cons c cs ih =>
      by_cases hc : c = .added t
      · subst hc
        simp [birth]
      · obtain ⟨hlive, hne⟩ := (live_cons_of_ne hc).mp h
        have hlt := ih hlive
        cases c with
        | added u =>
            have hu : u.id ≠ t.id := hne
            simp only [birth, hu, if_false, List.length_cons]
            omega
        | removed id =>
            simp only [birth, List.length_cons]
            omega

end changes

/-- What a record says about its pipeline. -/
structure Record.Faithful (r : Record α) : Prop where
  consistent : r.pipeline.Consistent
  live : ∀ t, t ∈ r.pipeline.graph.nodes ↔ Live r.changes t
  /-- A dependency that was not removed is still linked. -/
  linked : ∀ newer t older, r.changes = newer ++ .added t :: older → (∀ c ∈ newer, c.name ≠ t.id) →
    ∀ d ∈ t.dependencies, .removed d ∉ newer → r.pipeline.Links d t.id
  /-- Links lead from older transforms to newer ones. -/
  aging : ∀ d id, r.pipeline.Links d id → birth d r.changes < birth id r.changes

namespace Record.Faithful

variable {r : Record α} (h : r.Faithful)

include h

theorem birth_lt (hd : r.pipeline.contains d = true) : birth d r.changes < r.changes.length := by
  obtain ⟨t, ht, rfl⟩ := h.consistent.contains_iff.mp hd
  exact birth_lt_length ((h.live t).mp ht)

theorem added {places : List Nat} (hnew : r.pipeline.contains t.id = false)
    (hplaces : r.pipeline.placesOf t.dependencies = .ok places) :
    (⟨r.pipeline.append t places, .added t :: r.changes⟩ : Record α).Faithful := by
  have hcons := h.consistent
  have hother : ∀ id, r.pipeline.contains id = true → id ≠ t.id := by
    rintro id hid rfl
    rw [hnew] at hid
    cases hid
  refine ⟨consistent_append hcons hnew hplaces, fun u => ?_, ?_, ?_⟩
  · rw [graph_append, List.mem_append, List.mem_singleton, h.live u]
    by_cases hu : u = t
    · subst hu
      exact iff_of_true (.inr rfl) live_added_self
    · have hc : Change.added t ≠ .added u := fun e => hu (by cases e; rfl)
      rw [live_cons_of_ne hc]
      constructor
      · rintro (hlive | he)
        · have hin := hcons.contains_iff.mpr ⟨u, (h.live u).mpr hlive, rfl⟩
          exact ⟨hlive, (hother _ hin).symm⟩
        · exact absurd he hu
      · exact fun hlive => .inl hlive.1
  · intro newer u older he hnewer d hd hnot
    rw [links_append_iff hcons hplaces]
    cases newer with
    | nil =>
        obtain ⟨he, -⟩ := List.cons.inj he
        cases he
        exact .inr ⟨hd, rfl⟩
    | cons c newer =>
        have hrest : r.changes = newer ++ .added u :: older := (List.cons.inj he).2
        have hnewer' : ∀ c ∈ newer, c.name ≠ u.id :=
          fun c hc => hnewer c (List.mem_cons_of_mem _ hc)
        exact .inl (h.linked newer u older hrest hnewer' d hd
          fun hin => hnot (List.mem_cons_of_mem _ hin))
  · intro d id hlink
    rcases (links_append_iff hcons hplaces).mp hlink with hlink | ⟨hd, rfl⟩
    · obtain ⟨hind, hinid⟩ := hcons.contains_of_links hlink
      simp only [birth, (hother d hind).symm, (hother id hinid).symm, if_false]
      exact h.aging d id hlink
    · have hind : r.pipeline.contains d = true := by
        obtain ⟨i, -, hget⟩ := exists_of_mem_left (forall₂_of_placesOf hplaces) hd
        rw [contains, hget]
        rfl
      simp only [birth, (hother d hind).symm, if_false, if_true]
      exact h.birth_lt hind

theorem removed {i : Nat} (hi : r.pipeline.table.get? id = some i)
    (ht : r.pipeline.graph.node? i = some t) :
    (⟨(r.pipeline.remove id).2, .removed id :: r.changes⟩ : Record α).Faithful := by
  have hcons := h.consistent
  refine ⟨consistent_remove hcons hi ht, fun u => ?_, ?_, ?_⟩
  · rw [mem_nodes_remove_iff hcons hi ht, h.live u, live_cons_of_ne (by simp), Change.name, ne_comm]
  · intro newer u older he hnewer d hd hnot
    cases newer with
    | nil => cases (List.cons.inj he).1
    | cons c newer =>
        obtain ⟨rfl, hrest⟩ : .removed id = c ∧ r.changes = newer ++ .added u :: older :=
          List.cons.inj he
        have hnewer' : ∀ c ∈ newer, c.name ≠ u.id :=
          fun c hc => hnewer c (List.mem_cons_of_mem _ hc)
        have hlink := h.linked newer u older hrest hnewer' d hd
          fun hin => hnot (List.mem_cons_of_mem _ hin)
        refine (links_remove_iff hcons hi ht).mpr ⟨hlink, ?_, ?_⟩
        · rintro rfl
          exact hnot List.mem_cons_self
        · exact (hnewer _ List.mem_cons_self).symm
  · intro d id' hlink
    exact h.aging d id' ((links_remove_iff hcons hi ht).mp hlink).1

/-- **One call** keeps a record faithful, whether it succeeds or not. -/
theorem call (c : Call α) : (r.call c).Faithful := by
  cases c with
  | add t =>
      simp only [Record.call]
      split
      · rename_i p hadd
        obtain ⟨hnew, places, hplaces, rfl⟩ := add_eq_ok_iff.mp hadd
        exact h.added hnew hplaces
      · rename_i e p hadd
        rw [eq_of_add_error hadd]
        exact h
  | remove id =>
      cases hi : r.pipeline.table.get? id with
      | none =>
          simp only [Record.call, remove_eq_none hi]
          exact h
      | some i =>
          obtain ⟨t, ht, -⟩ := idAt_eq_some_iff.mp ((h.consistent.table id i).mp hi)
          have hgiven := (remove_eq h.consistent hi ht).1
          have hcall : r.call (.remove id) =
              ⟨(r.pipeline.remove id).2, .removed id :: r.changes⟩ := by
            simp only [Record.call]
            split
            · rename_i hrem
              rw [hrem]
            · rename_i hrem
              rw [hrem] at hgiven
              cases hgiven
          rw [hcall]
          exact h.removed hi ht

end Record.Faithful

/-- **Every sequence of calls** leaves a faithful record. -/
theorem Record.faithful_ofCalls (cs : List (Call α)) : (ofCalls cs).Faithful := by
  have hstart : (⟨empty, []⟩ : Record α).Faithful := by
    refine ⟨consistent_empty, fun t => ?_, ?_, ?_⟩
    · refine iff_of_false (by simp [empty, Graph.empty]) ?_
      rintro ⟨newer, older, he, -⟩
      cases newer <;> cases he
    · intro newer t older he
      cases newer <;> cases he
    · rintro d id ⟨i, j, he, -⟩
      cases he
  have hfold : ∀ (cs : List (Call α)) (r : Record α), r.Faithful →
      (cs.foldl Record.call r).Faithful := by
    intro cs
    induction cs with
    | nil => exact fun r h => h
    | cons c cs ih => exact fun r h => ih _ (h.call c)
  exact hfold cs _ hstart

/-- **Bookkeeping and order after any calls.**  Whatever was called on a new pipeline, with success
or without, a name is there exactly if its last addition was not followed by a removal, and a
removal gives back the transform of that addition.  The transforms can be put in order: the order
names each of them once, as many as there are, and a transform comes after each of its dependencies
that was not removed since the transform was added. -/
theorem order_after_calls (cs : List (Call α)) :
    let r := Record.ofCalls cs
    (∀ id, r.pipeline.contains id = true ↔ ∃ t, Live r.changes t ∧ t.id = id) ∧
    (∀ id t, (r.pipeline.remove id).1 = some t ↔ Live r.changes t ∧ t.id = id) ∧
    ∃ order, r.pipeline.order = .ok order ∧ order.Nodup ∧
      (∀ id, id ∈ order ↔ r.pipeline.contains id = true) ∧ r.pipeline.length = order.length ∧
      ∀ newer t older, r.changes = newer ++ .added t :: older → (∀ c ∈ newer, c.name ≠ t.id) →
        ∀ d ∈ t.dependencies, .removed d ∉ newer → order.idxOf d < order.idxOf t.id := by
  intro r
  have h : r.Faithful := Record.faithful_ofCalls cs
  refine ⟨fun id => ?_, fun id t => ?_, ?_⟩
  · simp only [h.consistent.contains_iff, h.live]
  · rw [h.consistent.remove_fst_iff, h.live]
  · obtain ⟨order, horder, hnd, hmem, hlength, hlinks⟩ := h.consistent.exists_order h.aging
    refine ⟨order, horder, hnd, hmem, hlength.symm, fun newer t older he hnewer d hd hnot => ?_⟩
    exact hlinks d t.id (h.linked newer t older he hnewer d hd hnot)

/-- A history in which the removal of `a` moves `c` into the first place, and a new `a` comes after
`c`.  A second `b` is refused, and so is the removal of what is not there. -/
def movedHistory : List (Call Unit) :=
  [.add ⟨"a", [], ()⟩, .add ⟨"b", ["a"], ()⟩, .add ⟨"c", ["b", "a", "b"], ()⟩, .remove "a",
    .add ⟨"b", ["a"], ()⟩, .remove "d", .add ⟨"a", ["c"], ()⟩]

theorem order_after_calls_moved :
    (Record.ofCalls movedHistory).changes = [.added ⟨"a", ["c"], ()⟩, .removed "a",
        .added ⟨"c", ["b", "a", "b"], ()⟩, .added ⟨"b", ["a"], ()⟩, .added ⟨"a", [], ()⟩] ∧
      ((Record.ofCalls movedHistory).pipeline.remove "a").1 = some ⟨"a", ["c"], ()⟩ ∧
      ∃ order, (Record.ofCalls movedHistory).pipeline.order = .ok order ∧ order.length = 3 ∧
        order.idxOf "b" < order.idxOf "c" ∧ order.idxOf "c" < order.idxOf "a" := by
  obtain ⟨-, hremove, order, horder, -, -, hlength, hafter⟩ := order_after_calls movedHistory
  have hchanges : (Record.ofCalls movedHistory).changes = [.added ⟨"a", ["c"], ()⟩, .removed "a",
      .added ⟨"c", ["b", "a", "b"], ()⟩, .added ⟨"b", ["a"], ()⟩, .added ⟨"a", [], ()⟩] := by
    decide +kernel
  have hthree : (Record.ofCalls movedHistory).pipeline.length = 3 := by decide +kernel
  refine ⟨hchanges, (hremove _ _).mpr ⟨⟨[], _, hchanges, by simp⟩, rfl⟩, order, horder,
    hlength.symm.trans hthree, ?_, ?_⟩
  · exact hafter [.added ⟨"a", ["c"], ()⟩, .removed "a"] ⟨"c", ["b", "a", "b"], ()⟩ _ hchanges
      (by simp [Change.name]) "b" (by simp) (by simp)
  · exact hafter [] ⟨"a", ["c"], ()⟩ _ hchanges (by simp) "c" (by simp) (by simp)

end Pipeline

end Unstack
