import Mathlib.Data.List.Dedup
import Unstack.Proofs.Undoing

/-! # Dependencies as a set

A pipeline is told by lists which transforms a new one runs after.  Only the set of names matters:
names that are repeated or come in another order lead to the same order of transforms.

* **A stack is a row of visits** (`Graph.drain_eq_foldlM`), and a second visit of a node is idle, so
  the search of a graph needs the successors of a node without their repetitions
  (`Graph.finishOrder_congr`).
* **Edges go in at the front.**  The edges of a new transform stand before all others and lead to
  one node, so their order is the same for each source, and a removal treats equal edges alike
  (`Pipeline.dedup_successors_append`, `Graph.dedup_successors_removeNode`).
* **Histories.**  Each call keeps two pipelines alike (`Pipeline.Alike.called`). -/

namespace Unstack

/-! ### Lists up to repetition -/

section dedup

variable {α β : Type} [DecidableEq α] [DecidableEq β] {xs ys : List α}

/-- Repetitions can be taken out before a list is mapped and filtered. -/
theorem dedup_filterMap_dedup (f : α → Option β) (xs : List α) :
    (xs.dedup.filterMap f).dedup = (xs.filterMap f).dedup := by
  induction xs with
  | nil => rfl
  | cons x xs ih =>
      have hmem : ∀ y, y ∈ xs.dedup.filterMap f ↔ y ∈ xs.filterMap f := fun y => by
        simp [List.mem_filterMap]
      by_cases hx : x ∈ xs
      · rw [List.dedup_cons_of_mem hx, ih]
        cases hy : f x with
        | none => rw [List.filterMap_cons_none hy]
        | some y =>
            have hin : y ∈ xs.filterMap f := List.mem_filterMap.mpr ⟨x, hx, hy⟩
            rw [List.filterMap_cons_some hy, List.dedup_cons_of_mem hin]
      · rw [List.dedup_cons_of_notMem hx]
        cases hy : f x with
        | none => rw [List.filterMap_cons_none hy, List.filterMap_cons_none hy, ih]
        | some y =>
            rw [List.filterMap_cons_some hy, List.filterMap_cons_some hy]
            by_cases hin : y ∈ xs.filterMap f
            · rw [List.dedup_cons_of_mem hin, List.dedup_cons_of_mem ((hmem y).mpr hin), ih]
            · rw [List.dedup_cons_of_notMem hin,
                List.dedup_cons_of_notMem fun h => hin ((hmem y).mp h), ih]

theorem dedup_filterMap_congr (f : α → Option β) (h : xs.dedup = ys.dedup) :
    (xs.filterMap f).dedup = (ys.filterMap f).dedup := by
  rw [← dedup_filterMap_dedup, h, dedup_filterMap_dedup]

theorem mem_congr_of_dedup (h : xs.dedup = ys.dedup) (x : α) : x ∈ xs ↔ x ∈ ys := by
  rw [← List.mem_dedup, h, List.mem_dedup]

/-- Something new in front counts once. -/
theorem dedup_replicate_append {x : α} (hx : x ∉ xs) (n : Nat) :
    (List.replicate n x ++ xs).dedup = if n = 0 then xs.dedup else x :: xs.dedup := by
  induction n with
  | zero => rfl
  | succ n ih =>
      rw [List.replicate_succ, List.cons_append, if_neg (Nat.succ_ne_zero n)]
      by_cases hn : n = 0
      · rw [hn, List.replicate_zero, List.nil_append, List.dedup_cons_of_notMem hx]
      · have hmem : x ∈ List.replicate n x ++ xs :=
          List.mem_append_left _ (List.mem_replicate.mpr ⟨hn, rfl⟩)
        rw [List.dedup_cons_of_mem hmem, ih, if_neg hn]

end dedup

namespace Outcome

variable {ε σ α β : Type}

theorem bind_congr_of_ok {r : Except ε α} {f f' : α → Except ε β}
    (h : ∀ x, r = .ok x → f x = f' x) : r >>= f = r >>= f' := by
  cases r with
  | error e => rfl
  | ok x => exact h x rfl

/-- Loops agree if their rounds do wherever they can come. -/
theorem foldlM_congr_of_ok {P : σ → Prop} {f f' : σ → α → Except ε σ} {s : σ}
    (hf : ∀ s x, P s → f s x = f' s x) (hP : ∀ s x s', P s → f s x = .ok s' → P s')
    (xs : List α) (hs : P s) : xs.foldlM f s = xs.foldlM f' s := by
  induction xs generalizing s with
  | nil => rfl
  | cons x xs ih =>
      rw [List.foldlM_cons, List.foldlM_cons, ← hf s x hs]
      exact bind_congr_of_ok fun t ht => ih (hP s x t hs ht)

end Outcome

/-! ### Searches -/

namespace Graph

open Outcome

variable {β γ : Type} {g : Graph β} {g' : Graph γ} {s t : Search} {i j : Nat} {rest : List Nat}

theorem drain_of_nil (hs : s.stack = []) : g.drain s = .ok s := by
  rw [drain]
  split
  · rfl
  · rename_i h
    rw [hs] at h
    cases h

theorem drain_of_cons (hs : s.stack = i :: rest) :
    g.drain s = if i ∈ s.unreached then
        if i ∈ g.successors i then .error i else g.drain (g.enter s i)
      else g.drain (s.leave i rest) := by
  rw [drain]
  split
  · rename_i h
    rw [hs] at h
    cases h
  · rename_i h
    rw [hs] at h
    cases h
    rfl

/-- **A stack is worked off from the top.**  What stands below waits. -/
theorem drain_append (s : Search) (below : List Nat) :
    g.drain { s with stack := s.stack ++ below }
      = g.drain s >>= fun t => g.drain { t with stack := below } := by
  fun_induction drain g s with
  | case1 s hs => rw [hs, List.nil_append, ok_bind]
  | case2 s i rest hs hi hself =>
      rw [drain_of_cons (congrArg (· ++ below) hs), if_pos hi, if_pos hself, error_bind]
  | case3 s i rest hs hi hself ih =>
      rw [drain_of_cons (congrArg (· ++ below) hs), if_pos hi, if_neg hself, ← ih]
      simp only [enter, next, List.append_assoc]
  | case4 s i rest hs hi ih =>
      rw [drain_of_cons (congrArg (· ++ below) hs), if_neg hi, ← ih]
      rfl

/-- The node was reached and is finished. -/
structure Search.Done (s : Search) (i : Nat) : Prop where
  reached : i ∉ s.unreached
  finished : i ∈ s.finished

theorem Search.Done.leave (h : s.Done i) (j : Nat) (rest : List Nat) : (s.leave j rest).Done i :=
  ⟨h.reached, Search.mem_finished_leave.mpr (.inr h.finished)⟩

/-- What a search leaves: the stack is empty, what was on it is done, and what was done stays so. -/
theorem after_drain (h : g.drain s = .ok t) :
    t.stack = [] ∧ t.unreached.length ≤ s.unreached.length ∧
      ∀ i, i ∈ s.stack ∨ s.Done i → t.Done i := by
  fun_induction drain g s with
  | case1 s hs =>
      cases h
      refine ⟨hs, Nat.le_refl _, fun i hi => hi.resolve_left ?_⟩
      rw [hs]
      exact List.not_mem_nil
  | case2 s i rest hs hi hself => cases h
  | case3 s i rest hs hi hself ih =>
      obtain ⟨hstack, hlength, hdone⟩ := ih h
      refine ⟨hstack, Nat.le_trans hlength List.length_erase_le, fun k hk => hdone k ?_⟩
      rcases hk with hk | hk
      · exact .inl (List.mem_append_right _ hk)
      · exact .inr ⟨fun hu => hk.reached (List.mem_of_mem_erase hu), hk.finished⟩
  | case4 s i rest hs hi ih =>
      obtain ⟨hstack, hlength, hdone⟩ := ih h
      refine ⟨hstack, hlength, fun k hk => hdone k ?_⟩
      rcases hk with hk | hk
      · rw [hs] at hk
        rcases List.mem_cons.mp hk with rfl | hk
        · exact .inr ⟨hi, Search.mem_finished_leave.mpr (.inl rfl)⟩
        · exact .inl hk
      · exact .inr (hk.leave i rest)

/-- A search from one node. -/
def visit (g : Graph β) (s : Search) (i : Nat) : Except Nat Search :=
  g.drain { s with stack := [i] }

theorem visit_of_reached (hi : i ∉ s.unreached) :
    g.visit s i = .ok (Search.leave { s with stack := [i] } i []) := by
  rw [visit, drain_of_cons rfl, if_neg hi, drain_of_nil rfl]

theorem visit_of_loop (hi : i ∈ s.unreached) (hself : i ∈ g.successors i) :
    g.visit s i = .error i := by
  rw [visit, drain_of_cons rfl, if_pos hi, if_pos hself]

/-- Another visit of a node that is done changes nothing. -/
theorem visit_of_done (hs : s.stack = []) (h : s.Done i) : g.visit s i = .ok s := by
  rw [visit_of_reached h.reached, Search.leave, if_pos (List.contains_iff_mem.mpr h.finished), ← hs]

theorem after_visit (h : g.visit s i = .ok t) :
    t.stack = [] ∧ t.unreached.length ≤ s.unreached.length := by
  obtain ⟨hstack, hlength, -⟩ := after_drain h
  exact ⟨hstack, hlength⟩

/-- **A stack is a row of visits.** -/
theorem drain_eq_foldlM (is : List Nat) (hs : s.stack = []) :
    g.drain { s with stack := is } = is.foldlM g.visit s := by
  induction is generalizing s with
  | nil =>
      have hsame : { s with stack := [] } = s := by rw [← hs]
      rw [hsame, drain_of_nil hs]
      rfl
  | cons i is ih =>
      have hsplit := drain_append (g := g) { s with stack := [i] } is
      rw [List.foldlM_cons]
      exact hsplit.trans (bind_congr_of_ok fun t ht => ih (after_visit ht).1)

/-- A visit of a new node visits its successors and then comes back. -/
theorem visit_of_unreached (hs : s.stack = []) (hi : i ∈ s.unreached)
    (hself : i ∉ g.successors i) :
    g.visit s i = (g.next s i).foldlM g.visit { s with unreached := s.unreached.erase i } >>=
      fun t => g.visit t i := by
  have hrow := drain_eq_foldlM (g := g) (s := { s with unreached := s.unreached.erase i })
    (g.next s i) hs
  rw [visit, drain_of_cons rfl, if_pos hi, if_neg hself, ← hrow]
  exact drain_append { s with unreached := s.unreached.erase i, stack := g.next s i } [i]

/-- In a row of visits only the first one of a node counts. -/
theorem foldlM_visit_dedup (is : List Nat) (hs : s.stack = []) :
    is.reverse.foldlM g.visit s = is.dedup.reverse.foldlM g.visit s := by
  induction is with
  | nil => rfl
  | cons i is ih =>
      rw [List.reverse_cons, List.foldlM_append, ih]
      by_cases hi : i ∈ is
      · rw [List.dedup_cons_of_mem hi]
        refine (bind_congr_of_ok fun t ht => ?_).trans (bind_pure _)
        rw [← ih, ← drain_eq_foldlM _ hs] at ht
        obtain ⟨hstack, -, hdone⟩ := after_drain ht
        have hvisit : g.visit t i = .ok t :=
          visit_of_done hstack (hdone i (.inl (List.mem_reverse.mpr hi)))
        rw [List.foldlM_cons, hvisit]
        rfl
      · rw [List.dedup_cons_of_notMem hi, List.reverse_cons, List.foldlM_append]

/-! ### Graphs with the same successors -/

section congr

variable (h : ∀ i, (g.successors i).dedup = (g'.successors i).dedup)

include h

theorem foldlM_next_congr (hs : s.stack = []) (u : Search) (i : Nat) :
    (g.next u i).foldlM g.visit s = (g'.next u i).foldlM g.visit s := by
  have hfilter : ∀ P : Nat → Bool,
      ((g.successors i).filter P).dedup = ((g'.successors i).filter P).dedup := fun P => by
    rw [← List.filterMap_eq_filter]
    exact dedup_filterMap_congr _ (h i)
  rw [next, next, foldlM_visit_dedup _ hs, hfilter, ← foldlM_visit_dedup _ hs]

/-- **Visits agree.**  The induction is on the number of nodes that have not been reached. -/
theorem visit_congr (hs : s.stack = []) (i : Nat) : g.visit s i = g'.visit s i := by
  induction hn : s.unreached.length using Nat.strongRecOn generalizing s i with
  | ind n ih =>
      by_cases hi : i ∈ s.unreached
      case neg => rw [visit_of_reached hi, visit_of_reached hi]
      have hmem := mem_congr_of_dedup (h i) i
      by_cases hself : i ∈ g.successors i
      case pos => rw [visit_of_loop hi hself, visit_of_loop hi (hmem.mp hself)]
      have hself' : i ∉ g'.successors i := fun hin => hself (hmem.mpr hin)
      have herase : (s.unreached.erase i).length < n := by
        have hpos := List.length_pos_of_mem hi
        rw [List.length_erase_of_mem hi, ← hn]
        omega
      have hrow : (g.next s i).foldlM g.visit { s with unreached := s.unreached.erase i }
          = (g'.next s i).foldlM g'.visit { s with unreached := s.unreached.erase i } :=
        (foldlM_next_congr h (by exact hs) s i).trans <|
          foldlM_congr_of_ok (P := fun t => t.stack = [] ∧ t.unreached.length < n)
            (fun t j ht => ih _ ht.2 ht.1 j rfl)
            (fun t j t' ht ht' =>
              ⟨(after_visit ht').1, Nat.lt_of_le_of_lt (after_visit ht').2 ht.2⟩)
            (g'.next s i) ⟨hs, herase⟩
      rw [visit_of_unreached hs hi hself, visit_of_unreached hs hi hself', ← hrow]
      refine bind_congr_of_ok fun t ht => ?_
      rw [← drain_eq_foldlM _ (by exact hs)] at ht
      obtain ⟨hstack, hlength, -⟩ := after_drain ht
      exact ih _ (Nat.lt_of_le_of_lt hlength herase) hstack i rfl

/-- **Sorting needs the sets of successors only**, with the oldest edge to each. -/
theorem finishOrder_congr (hsize : g.size = g'.size) : g.finishOrder = g'.finishOrder := by
  have hround : ∀ (s : Search) (i : Nat), s.stack = [] →
      (if i ∈ s.unreached then g.drain { s with stack := [i] } else .ok s)
        = if i ∈ s.unreached then g'.drain { s with stack := [i] } else .ok s := by
    intro s i hs
    exact if_congr Iff.rfl (visit_congr h hs i) rfl
  have hstays : ∀ (s : Search) (i : Nat) (t : Search), s.stack = [] →
      (if i ∈ s.unreached then g.drain { s with stack := [i] } else .ok s) = .ok t →
      t.stack = [] := by
    intro s i t hs ht
    split_ifs at ht with hi
    · exact (after_visit ht).1
    · cases ht
      exact hs
  simp only [finishOrder, hsize]
  rw [foldlM_congr_of_ok (P := fun s => s.stack = []) hround hstays _ rfl]

end congr

theorem finishOrder_of_sort {order : List Nat} (h : g.sort = .ok order) :
    g.finishOrder = .ok order := by
  obtain ⟨order', hfinish, h⟩ := exists_of_bind_eq_ok h
  obtain ⟨_, -, h⟩ := exists_of_bind_eq_ok h
  cases h
  exact hfinish

/-! ### Removing a node -/

theorem map_swapRemove {α : Type} (f : β → α) (xs : List β) (i : Nat) :
    (swapRemove xs i).map f = swapRemove (xs.map f) i := by
  cases hlast : xs.getLast? with
  | none => simp [swapRemove, hlast]
  | some x => simp [swapRemove, hlast, List.map_dropLast, List.map_set]

/-- Where an edge leads after the removal of the node at `i`, if it stays. -/
def follow (last i j : Nat) : Option Nat := if j = i then none else some (moved last i j)

theorem successors_follow (es : List (Nat × Nat)) {last k : Nat} (hk : k ≠ i) :
    (((es.filter fun e => e.1 != i && e.2 != i).map
        fun e => (moved last i e.1, moved last i e.2)).filter (·.1 == moved last i k)).map Prod.snd
      = ((es.filter (·.1 == k)).map Prod.snd).filterMap (follow last i) := by
  induction es with
  | nil => rfl
  | cons e es ih =>
      obtain ⟨source, target⟩ := e
      by_cases hsource : source = k
      · by_cases htarget : target = i
        · simp [hsource, htarget, follow, ih]
        · simp [hsource, hk, htarget, follow, ih]
      · by_cases hleft : source = i
        · simp [hleft, hk.symm, ih]
        · have hmoved : moved last i source ≠ moved last i k := fun he =>
            hsource (moved_inj hleft hk he)
          by_cases htarget : target = i
          · simp [hsource, htarget, ih]
          · simp [hsource, hleft, hmoved, htarget, ih]

/-- After a removal, a node that stays has the successors that stay. -/
theorem successors_removeNode {x : β} (hx : g.node? i = some x) {k : Nat} (hk : k ≠ i) :
    (g.removeNode i).2.successors (moved (g.size - 1) i k)
      = (g.successors k).filterMap (follow (g.size - 1) i) := by
  rw [removeNode, hx]
  exact successors_follow g.edges hk

/-- A place that no node has moved to or stayed in has no successors. -/
theorem successors_removeNode_eq_nil {x : β} (hx : g.node? i = some x)
    (hj : ∀ k, k ≠ i → moved (g.size - 1) i k ≠ j) : (g.removeNode i).2.successors j = [] := by
  refine List.eq_nil_iff_forall_not_mem.mpr fun y hy => ?_
  obtain ⟨a, b, -, ha, -, he⟩ := (mem_edges_removeNode_iff hx).mp (mem_successors.mp hy)
  exact hj a ha (Prod.mk.inj he).1.symm

/-- **A removal** keeps successors alike. -/
theorem dedup_successors_removeNode {x : β} {y : γ} (hx : g.node? i = some x)
    (hy : g'.node? i = some y) (hsize : g.size = g'.size)
    (h : ∀ i, (g.successors i).dedup = (g'.successors i).dedup) (j : Nat) :
    ((g.removeNode i).2.successors j).dedup = ((g'.removeNode i).2.successors j).dedup := by
  by_cases hj : ∃ k, k ≠ i ∧ moved (g.size - 1) i k = j
  · obtain ⟨k, hk, rfl⟩ := hj
    rw [successors_removeNode hx hk, hsize, successors_removeNode hy hk]
    exact dedup_filterMap_congr _ (h k)
  · have hnone : ∀ k, k ≠ i → moved (g.size - 1) i k ≠ j := fun k hk he => hj ⟨k, hk, he⟩
    rw [successors_removeNode_eq_nil hx hnone, successors_removeNode_eq_nil hy (hsize ▸ hnone)]

end Graph

/-! ### Pipelines -/

namespace Transform

variable {α : Type}

/-- What a transform is, apart from its dependencies. -/
def work (t : Transform α) : String × α := (t.id, t.action)

/-- The transforms differ in the order and the repetition of the names of their dependencies at
most. -/
structure Alike (t u : Transform α) : Prop where
  id : t.id = u.id
  action : t.action = u.action
  dependencies : ∀ d, d ∈ t.dependencies ↔ d ∈ u.dependencies

theorem Alike.symm {t u : Transform α} (h : t.Alike u) : u.Alike t :=
  ⟨h.id.symm, h.action.symm, fun d => (h.dependencies d).symm⟩

theorem Alike.work_eq {t u : Transform α} (h : t.Alike u) : t.work = u.work :=
  Prod.ext h.id h.action

end Transform

namespace Pipeline

open Outcome

variable {α : Type} {p q : Pipeline α} {t u : Transform α}

/-- The calls differ in the order and the repetition of the names of dependencies at most. -/
inductive Call.Alike : Call α → Call α → Prop
  | add {t u : Transform α} (h : t.Alike u) : Alike (.add t) (.add u)
  | remove (id : String) : Alike (.remove id) (.remove id)

/-- The pipelines have the same transforms in the same places, and from each of them edges to the
same others, but for repetitions. -/
structure Alike (p q : Pipeline α) : Prop where
  table : p.table = q.table
  nodes : p.graph.nodes.map Transform.work = q.graph.nodes.map Transform.work
  successors : ∀ i, (p.graph.successors i).dedup = (q.graph.successors i).dedup

namespace Alike

variable (h : Alike p q)

include h

theorem symm : Alike q p := ⟨h.table.symm, h.nodes.symm, fun i => (h.successors i).symm⟩

theorem contains_eq (id : String) : p.contains id = q.contains id := by
  rw [contains, contains, h.table]

theorem size_eq : p.graph.size = q.graph.size := by
  have hlen := congrArg List.length h.nodes
  rwa [List.length_map, List.length_map] at hlen

theorem node_eq (i : Nat) :
    (p.graph.node? i).map Transform.work = (q.graph.node? i).map Transform.work := by
  rw [Graph.node?, Graph.node?, ← List.getElem?_map, ← List.getElem?_map, h.nodes]

end Alike

/-! ### Adding -/

theorem mem_places_iff_get? {ds : List String} {places : List Nat}
    (hplaces : p.placesOf ds = .ok places) {i : Nat} :
    i ∈ places ↔ ∃ d ∈ ds, p.table.get? d = some i := by
  have hall := forall₂_of_placesOf hplaces
  constructor
  · exact fun hi => exists_of_mem_right hall hi
  · rintro ⟨d, hd, hget⟩
    obtain ⟨j, hj, hget'⟩ := exists_of_mem_left hall hd
    cases hget.symm.trans hget'
    exact hj

/-- The same names are found in the same places, whatever their order. -/
theorem Alike.exists_placesOf (h : Alike p q) {ds es : List String} {places : List Nat}
    (hds : ∀ d, d ∈ ds ↔ d ∈ es) (hplaces : p.placesOf ds = .ok places) :
    ∃ places', q.placesOf es = .ok places' ∧ ∀ i, i ∈ places ↔ i ∈ places' := by
  cases hq : q.placesOf es with
  | error d =>
      obtain ⟨hd, hmissing⟩ := missing_of_placesOf hq
      obtain ⟨i, -, hget⟩ := exists_of_mem_left (forall₂_of_placesOf hplaces) ((hds d).mpr hd)
      rw [← h.contains_eq, contains, hget] at hmissing
      cases hmissing
  | ok places' =>
      refine ⟨places', rfl, fun i => ?_⟩
      rw [mem_places_iff_get? hplaces, mem_places_iff_get? hq, h.table]
      exact exists_congr fun d => and_congr_left' (hds d)

/-- A new transform is a successor of its dependencies, as often as they are named. -/
theorem successors_append (p : Pipeline α) (t : Transform α) (places : List Nat) (i : Nat) :
    (p.append t places).graph.successors i
      = List.replicate (places.count i) p.graph.size ++ p.graph.successors i := by
  have hnew : (((places.map fun j => (j, p.length)).reverse.filter (·.1 == i)).map Prod.snd)
      = List.replicate (places.count i) p.graph.size := by
    refine List.eq_replicate_iff.mpr ⟨?_, fun j hj => ?_⟩
    · simp [List.filter_reverse, List.filter_map, List.count_eq_length_filter, Function.comp_def]
    · obtain ⟨e, he, rfl⟩ := List.mem_map.mp hj
      obtain ⟨k, -, rfl⟩ := List.mem_map.mp (List.mem_reverse.mp (List.mem_filter.mp he).1)
      rfl
  rw [graph_append, Graph.successors, List.filter_append, List.map_append, hnew, Graph.successors]

theorem dedup_successors_append (h : p.Consistent) (t : Transform α) (places : List Nat) (i : Nat) :
    ((p.append t places).graph.successors i).dedup
      = if i ∈ places then p.graph.size :: (p.graph.successors i).dedup
        else (p.graph.successors i).dedup := by
  have hnew : p.graph.size ∉ p.graph.successors i := fun hin =>
    Nat.lt_irrefl _ (h.inRange.lt hin)
  rw [successors_append, dedup_replicate_append hnew]
  by_cases hi : i ∈ places
  · rw [if_neg (Nat.pos_iff_ne_zero.mp (List.count_pos_iff.mpr hi)), if_pos hi]
  · rw [if_pos (List.count_eq_zero.mpr hi), if_neg hi]

/-- **An addition** that succeeds on one pipeline succeeds on the other. -/
theorem Alike.add (h : Alike p q) (hp : p.Consistent) (hq : q.Consistent) (htu : t.Alike u)
    {p' : Pipeline α} (hadd : p.add t = (.ok (), p')) :
    ∃ q', q.add u = (.ok (), q') ∧ Alike p' q' := by
  obtain ⟨hnew, places, hplaces, rfl⟩ := add_eq_ok_iff.mp hadd
  obtain ⟨places', hplaces', hmem⟩ := h.exists_placesOf htu.dependencies hplaces
  rw [h.contains_eq, htu.id] at hnew
  refine ⟨_, add_eq_ok_iff.mpr ⟨hnew, places', hplaces', rfl⟩, ?_, ?_, fun i => ?_⟩
  · show p.table.insert t.id p.graph.size = q.table.insert u.id q.graph.size
    rw [h.table, htu.id, h.size_eq]
  · rw [graph_append, graph_append, List.map_append, List.map_append, h.nodes, List.map_singleton,
      List.map_singleton, htu.work_eq]
  · rw [dedup_successors_append hp, dedup_successors_append hq, h.successors, h.size_eq]
    exact if_congr (hmem i) rfl rfl

/-! ### Removing -/

theorem table_remove {id : String} {i : Nat} (hi : p.table.get? id = some i) :
    (p.remove id).2.table = (((p.graph.removeNode i).2.node? i).map Transform.id).elim
      (p.table.erase id) ((p.table.erase id).insert · i) := by
  simp only [remove, hi]
  cases (p.graph.removeNode i).2.node? i <;> rfl

/-- **A removal** takes the same transform out of both pipelines. -/
theorem Alike.remove (h : Alike p q) (hp : p.Consistent) (hq : q.Consistent) (id : String) :
    Alike (p.remove id).2 (q.remove id).2 := by
  cases hi : p.table.get? id with
  | none =>
      rw [remove_eq_none hi, remove_eq_none (h.table ▸ hi)]
      exact h
  | some i =>
      have hi' : q.table.get? id = some i := h.table ▸ hi
      obtain ⟨t, ht, -⟩ := idAt_eq_some_iff.mp ((hp.table id i).mp hi)
      obtain ⟨u, hu, -⟩ := idAt_eq_some_iff.mp ((hq.table id i).mp hi')
      have hgraph := (remove_eq hp hi ht).2.1
      have hgraph' := (remove_eq hq hi' hu).2.1
      have hnodes : (p.graph.removeNode i).2.nodes.map Transform.work
          = (q.graph.removeNode i).2.nodes.map Transform.work := by
        rw [Graph.removeNode, Graph.removeNode, ht, hu]
        simp only [Graph.map_swapRemove, h.nodes]
      refine ⟨?_, ?_, fun j => ?_⟩
      · have hmoved : ((p.graph.removeNode i).2.node? i).map Transform.id
            = ((q.graph.removeNode i).2.node? i).map Transform.id := by
          have hwork := congrArg (fun ws => ws[i]?.map Prod.fst) hnodes
          simp only [List.getElem?_map, Option.map_map] at hwork
          exact hwork
        rw [table_remove hi, table_remove hi', hmoved, h.table]
      · rw [hgraph, hgraph', hnodes]
      · rw [hgraph, hgraph']
        exact Graph.dedup_successors_removeNode ht hu h.size_eq h.successors j

/-! ### Histories -/

/-- **One call** on each pipeline, with the same names in other places of the same lists. -/
theorem Alike.called (h : Alike p q) (hp : p.Consistent) (hq : q.Consistent) {c d : Call α}
    (hcd : Call.Alike c d) : Alike (p.called c) (q.called d) := by
  cases hcd with
  | remove id => exact h.remove hp hq id
  | @add t u htu =>
      show Alike (p.add t).2 (q.add u).2
      rcases hadd : p.add t with ⟨_ | _, p'⟩
      · rcases hadd' : q.add u with ⟨_ | _, q'⟩
        · rw [eq_of_add_error hadd, eq_of_add_error hadd']
          exact h
        · obtain ⟨_, hok, -⟩ := h.symm.add hq hp htu.symm hadd'
          cases hadd.symm.trans hok
      · obtain ⟨q', hadd', h'⟩ := h.add hp hq htu hadd
        rw [hadd']
        exact h'

/-- **All calls** of two histories. -/
theorem Record.alike_ofCalls {cs ds : List (Call α)} (h : List.Forall₂ Call.Alike cs ds) :
    Alike (ofCalls cs).pipeline (ofCalls ds).pipeline := by
  have hfold : ∀ {r r' : Record α}, r.Faithful → r'.Faithful → Alike r.pipeline r'.pipeline →
      Alike (cs.foldl call r).pipeline (ds.foldl call r').pipeline := by
    induction h with
    | nil => exact fun _ _ halike => halike
    | @cons c d cs ds hcd _ ih =>
        intro r r' hr hr' halike
        refine ih (hr.call c) (hr'.call d) ?_
        rw [pipeline_call, pipeline_call]
        exact halike.called hr.consistent hr'.consistent hcd
  exact hfold (faithful_ofCalls []) (faithful_ofCalls []) ⟨rfl, rfl, fun _ => rfl⟩

theorem exists_sort_of_order {order : List String} (h : p.order = .ok order) :
    ∃ places, p.graph.sort = .ok places := by
  cases hsort : p.graph.sort with
  | ok places => exact ⟨places, rfl⟩
  | error i =>
      rw [Pipeline.order, ordered, hsort] at h
      cases h

/-- Pipelines that are alike have their transforms in the same order. -/
theorem Alike.exists_ordered (h : Alike p q) {order order' : List String}
    (horder : p.order = .ok order) (horder' : q.order = .ok order') :
    ∃ ts us, p.ordered = .ok ts ∧ q.ordered = .ok us ∧
      ts.map Transform.work = us.map Transform.work := by
  obtain ⟨places, hsort⟩ := exists_sort_of_order horder
  obtain ⟨places', hsort'⟩ := exists_sort_of_order horder'
  have hplaces : (.ok places : Except Nat (List Nat)) = .ok places' := by
    rw [← Graph.finishOrder_of_sort hsort, ← Graph.finishOrder_of_sort hsort']
    exact Graph.finishOrder_congr h.successors h.size_eq
  cases hplaces
  refine ⟨places.filterMap p.graph.node?, places.filterMap q.graph.node?, ?_, ?_, ?_⟩
  · rw [ordered, hsort]
  · rw [ordered, hsort']
  · rw [List.map_filterMap, List.map_filterMap]
    exact List.filterMap_congr fun i _ => h.node_eq i

theorem order_eq_ok {ts : List (Transform α)} (h : p.ordered = .ok ts) :
    p.order = .ok ((ts.map Transform.work).map Prod.fst) := by
  rw [Pipeline.order, h, List.map_map]
  rfl

theorem apply_eq_ok {p : Pipeline Stage} {ts : List (Transform Stage)} (h : p.ordered = .ok ts)
    (a : Arena) (f : Findings) :
    p.apply a f = .ok ((ts.map Transform.work).foldlM (fun w t => do
      Traced.emit (.runningTransform t.1)
      t.2.run w) (a, f)) := by
  rw [apply, h, List.foldlM_map]
  rfl

/-- **The order depends on the sets of dependencies only.**  Take two histories in which the same
transforms are added and removed, where the names of a transform's dependencies may stand in another
order and be repeated.  After as many calls of the one as of the other, the transforms are in the
same order, and so they do the same to every tree. -/
theorem order_of_dependency_sets :
    (∀ {α : Type} {cs ds : List (Call α)}, List.Forall₂ Call.Alike cs ds → ∀ n,
      ∃ order, (Record.ofCalls (cs.take n)).pipeline.order = .ok order ∧
        (Record.ofCalls (ds.take n)).pipeline.order = .ok order) ∧
    ∀ {cs ds : List (Call Stage)}, List.Forall₂ Call.Alike cs ds → ∀ n a f,
      ∃ run, (Record.ofCalls (cs.take n)).pipeline.apply a f = .ok run ∧
        (Record.ofCalls (ds.take n)).pipeline.apply a f = .ok run := by
  have hordered : ∀ {α : Type} {cs ds : List (Call α)}, List.Forall₂ Call.Alike cs ds → ∀ n,
      ∃ ts us, (Record.ofCalls (cs.take n)).pipeline.ordered = .ok ts ∧
        (Record.ofCalls (ds.take n)).pipeline.ordered = .ok us ∧
        ts.map Transform.work = us.map Transform.work := by
    intro α cs ds h n
    have hc := Record.faithful_ofCalls (cs.take n)
    have hd := Record.faithful_ofCalls (ds.take n)
    obtain ⟨order, horder, -⟩ := hc.consistent.exists_order hc.aging
    obtain ⟨order', horder', -⟩ := hd.consistent.exists_order hd.aging
    exact (Record.alike_ofCalls (List.forall₂_take n h)).exists_ordered horder horder'
  refine ⟨fun {α} {cs ds} h n => ?_, fun {cs ds} h n a f => ?_⟩
  · obtain ⟨ts, us, hts, hus, hwork⟩ := hordered h n
    exact ⟨_, order_eq_ok hts, hwork ▸ order_eq_ok hus⟩
  · obtain ⟨ts, us, hts, hus, hwork⟩ := hordered h n
    exact ⟨_, apply_eq_ok hts a f, hwork ▸ apply_eq_ok hus a f⟩

/-- A history with two transforms to start from, one that is refused and a removal after which
another transform takes the first place. -/
def branchedHistory (first second : List String) : List (Call Stage) :=
  [.add ⟨"mark", [], .change (.mark "x")⟩, .add ⟨"drop", [], .change .dropNops⟩,
    .add ⟨"clean", first, .change .normalize⟩, .add ⟨"late", "none" :: first, .observe .check⟩,
    .add ⟨"count", second, .observe .count⟩, .remove "mark",
    .add ⟨"check", second, .observe .check⟩]

/-- The graphs differ in how many edges they have, and the orders do not. -/
theorem order_of_dependency_sets_branched :
    let cs := branchedHistory ["mark", "drop"] ["drop", "clean"]
    let ds := branchedHistory ["drop", "mark", "drop"] ["clean", "drop", "clean"]
    List.Forall₂ Call.Alike cs ds ∧
    (Record.ofCalls cs).pipeline.graph.edges.length = 5 ∧
    (Record.ofCalls ds).pipeline.graph.edges.length = 8 ∧
    (∃ order, (Record.ofCalls (cs.take 5)).pipeline.order = .ok order ∧
      (Record.ofCalls (ds.take 5)).pipeline.order = .ok order) ∧
    (∃ order, (Record.ofCalls cs).pipeline.order = .ok order ∧
      (Record.ofCalls ds).pipeline.order = .ok order) ∧
    ∀ a f, ∃ run, (Record.ofCalls cs).pipeline.apply a f = .ok run ∧
      (Record.ofCalls ds).pipeline.apply a f = .ok run := by
  intro cs ds
  have hfirst : ∀ d, d ∈ ["mark", "drop"] ↔ d ∈ ["drop", "mark", "drop"] := by grind
  have hlate : ∀ d, d ∈ ["none", "mark", "drop"] ↔ d ∈ ["none", "drop", "mark", "drop"] := by grind
  have hsecond : ∀ d, d ∈ ["drop", "clean"] ↔ d ∈ ["clean", "drop", "clean"] := by grind
  have hall : List.Forall₂ Call.Alike cs ds :=
    .cons (.add ⟨rfl, rfl, fun _ => Iff.rfl⟩) <| .cons (.add ⟨rfl, rfl, fun _ => Iff.rfl⟩) <|
      .cons (.add ⟨rfl, rfl, hfirst⟩) <| .cons (.add ⟨rfl, rfl, hlate⟩) <|
      .cons (.add ⟨rfl, rfl, hsecond⟩) <| .cons (.remove "mark") <|
      .cons (.add ⟨rfl, rfl, hsecond⟩) .nil
  exact ⟨hall, by decide +kernel, by decide +kernel, order_of_dependency_sets.1 hall 5,
    order_of_dependency_sets.1 hall 7, order_of_dependency_sets.2 hall 7⟩

end Pipeline

end Unstack
