import Mathlib.Data.List.Nodup
import Unstack.Graph
import Unstack.Proofs.Outcome

/-! # Sorting a graph without cycles

A graph whose edges all lead to nodes of a higher rank is sorted: the search comes to an end
without an error, and in its order every edge goes forward.

* **What a search keeps.**  `Search.Sound` says of a search under way that finished nodes have
  their successors behind them, that a node which was reached but is not finished waits on the
  stack, and that its successors are finished or stand above it there.
* **Why no cycle is met.**  Everything above the first entry of a waiting node has a higher rank.
  So a successor of the node on top is finished, or has not been reached
  (`Sound.successor_of_top`).
* **Steps and runs.**  Entering and leaving a node keep a search sound, and so does the whole
  search (`exists_drain`, `exists_finishOrder`).

A last section says what a removal leaves: every other node with its edges, the last one in the
place that was freed. -/

namespace Unstack.Graph

open Outcome

variable {β : Type} {g : Graph β} {s : Search} {x y : β} {i j k : Nat} {rank : Nat → Nat}
  {rest order seen : List Nat}

theorem mem_successors : j ∈ g.successors i ↔ (i, j) ∈ g.edges := by
  simp [successors]

theorem mem_predecessors : j ∈ g.predecessors i ↔ (j, i) ∈ g.edges := by
  simp [predecessors]

/-- Edges join nodes that are there. -/
def InRange (g : Graph β) : Prop := ∀ e ∈ g.edges, e.1 < g.size ∧ e.2 < g.size

/-- Edges lead to nodes of a higher rank. -/
def Rising (g : Graph β) (rank : Nat → Nat) : Prop := ∀ e ∈ g.edges, rank e.1 < rank e.2

theorem InRange.lt (h : g.InRange) (hj : j ∈ g.successors i) : j < g.size :=
  (h (i, j) (mem_successors.mp hj)).2

theorem Rising.lt (h : g.Rising rank) (hj : j ∈ g.successors i) : rank i < rank j :=
  h (i, j) (mem_successors.mp hj)

theorem Rising.not_mem_successors (h : g.Rising rank) : i ∉ g.successors i := fun hi =>
  Nat.lt_irrefl _ (h.lt hi)

/-- Every node of a list has its successors behind it. -/
def Closed (g : Graph β) : List Nat → Prop
  | [] => True
  | i :: is => (∀ j ∈ g.successors i, j ∈ is) ∧ g.Closed is

theorem Closed.of_append {front back : List Nat} (h : g.Closed (front ++ i :: back))
    (hj : j ∈ g.successors i) : j ∈ back := by
  induction front with
  | nil => exact h.1 j hj
  | cons x front ih => exact ih h.2

/-! ### What a search keeps -/

/-- The node was reached and is not finished. -/
structure Search.Open (g : Graph β) (s : Search) (i : Nat) : Prop where
  lt_size : i < g.size
  reached : i ∉ s.unreached
  unfinished : i ∉ s.finished

/-- What holds of a search under way. -/
structure Search.Sound (g : Graph β) (rank : Nat → Nat) (s : Search) : Prop where
  nodup_unreached : s.unreached.Nodup
  nodup_finished : s.finished.Nodup
  finished_lt : ∀ i ∈ s.finished, i < g.size
  finished_reached : ∀ i ∈ s.finished, i ∉ s.unreached
  stack_lt : ∀ i ∈ s.stack, i < g.size
  closed : g.Closed s.finished
  waiting : ∀ i, s.Open g i → i ∈ s.stack
  /-- The successors of an open node are finished or stand above it. -/
  pending : ∀ above i below, s.stack = above ++ i :: below → s.Open g i →
    ∀ j ∈ g.successors i, j ∈ s.finished ∨ j ∈ above
  /-- What stands above the first entry of an open node has a higher rank. -/
  rising : ∀ above i below, s.stack = above ++ i :: below → s.Open g i → i ∉ above →
    ∀ x ∈ above, rank i < rank x

/-- An entry of a stack that has grown is new, or stands where it stood. -/
theorem mem_or_append_of_append_eq {new old above below : List Nat}
    (h : new ++ old = above ++ k :: below) :
    k ∈ new ∨ ∃ above', above = new ++ above' ∧ old = above' ++ k :: below := by
  rcases List.append_eq_append_iff.mp h with ⟨above', rfl, rfl⟩ | ⟨bs, rfl, hold⟩
  · exact .inr ⟨above', rfl, rfl⟩
  · cases bs with
    | nil => exact .inr ⟨[], by simp, hold.symm⟩
    | cons b bs =>
        obtain ⟨rfl, -⟩ := List.cons.inj hold
        exact .inl (by simp)

/-- Below the top of a stack stands everything but the top. -/
theorem eq_or_mem_of_append {above below : List Nat} (h : i :: rest = above ++ k :: below) :
    (k = i ∧ above = []) ∨ i ∈ above := by
  cases above with
  | nil => exact .inl ⟨(List.cons.inj h).1.symm, rfl⟩
  | cons x above =>
      obtain ⟨rfl, -⟩ := List.cons.inj h
      exact .inr List.mem_cons_self

/-! ### Entering a node -/

section enter

variable (hrange : g.InRange) (hrising : g.Rising rank) (h : s.Sound g rank)
  (hs : s.stack = i :: rest) (hi : i ∈ s.unreached)

include h

theorem Search.Sound.mem_unreached_enter :
    j ∈ (g.enter s i).unreached ↔ j ≠ i ∧ j ∈ s.unreached :=
  h.nodup_unreached.mem_erase_iff

theorem Search.Sound.mem_next :
    j ∈ g.next s i ↔ j ∈ g.successors i ∧ j ≠ i ∧ j ∈ s.unreached := by
  simp [next, h.nodup_unreached.mem_erase_iff]

/-- The node that is entered is open now; the others were open before. -/
theorem Search.Sound.open_of_enter (hk : (g.enter s i).Open g k) (hne : k ≠ i) : s.Open g k :=
  ⟨hk.lt_size, fun hu => hk.reached (h.mem_unreached_enter.mpr ⟨hne, hu⟩), hk.unfinished⟩

theorem Search.Sound.not_mem_next_of_open (hk : (g.enter s i).Open g k) : k ∉ g.next s i :=
  fun hin => hk.reached (h.mem_unreached_enter.mpr (h.mem_next.mp hin).2)

include hs hi hrange hrising

/-- A successor of the node on top is finished or unreached: an open one would stand on the stack
below the top, and so have a lower rank. -/
theorem Search.Sound.successor_of_top (hj : j ∈ g.successors i) :
    j ∈ s.finished ∨ j ∈ g.next s i := by
  have hne : j ≠ i := by
    rintro rfl
    exact hrising.not_mem_successors hj
  by_contra hnot
  rw [not_or, h.mem_next] at hnot
  have hopen : s.Open g j := ⟨hrange.lt hj, fun hu => hnot.2 ⟨hj, hne, hu⟩, hnot.1⟩
  obtain ⟨above, below, hsplit, hfirst⟩ := List.eq_append_cons_of_mem (h.waiting j hopen)
  rcases eq_or_mem_of_append (hs.symm.trans hsplit) with ⟨he, -⟩ | htop
  · exact hne he
  · exact Nat.lt_asymm (h.rising _ _ _ hsplit hopen hfirst i htop) (hrising.lt hj)

theorem Search.Sound.pending_enter {above below : List Nat}
    (hsplit : (g.enter s i).stack = above ++ k :: below) (hk : (g.enter s i).Open g k)
    (hj : j ∈ g.successors k) : j ∈ s.finished ∨ j ∈ above := by
  rcases mem_or_append_of_append_eq hsplit with hin | ⟨above', rfl, hold⟩
  · exact absurd hin (h.not_mem_next_of_open hk)
  by_cases hki : k = i
  · subst hki
    exact (h.successor_of_top hrange hrising hs hi hj).imp_right (List.mem_append_left _)
  · have hopen := h.open_of_enter hk hki
    exact (h.pending above' k below hold hopen j hj).imp_right (List.mem_append_right _)

omit hrange hi in
theorem Search.Sound.rising_enter {above below : List Nat} {x : Nat}
    (hsplit : (g.enter s i).stack = above ++ k :: below) (hk : (g.enter s i).Open g k)
    (hfirst : k ∉ above) (hx : x ∈ above) : rank k < rank x := by
  rcases mem_or_append_of_append_eq hsplit with hin | ⟨above', rfl, hold⟩
  · exact absurd hin (h.not_mem_next_of_open hk)
  have hafter : k ∉ above' := fun ha => hfirst (List.mem_append_right _ ha)
  rcases eq_or_mem_of_append (hs.symm.trans hold) with ⟨rfl, rfl⟩ | htop
  · -- only its successors stand above the node that is entered
    rw [List.append_nil] at hx
    exact hrising.lt (h.mem_next.mp hx).1
  · have hki : k ≠ i := by
      rintro rfl
      exact hafter htop
    have hup := h.rising above' k below hold (h.open_of_enter hk hki) hafter
    rcases List.mem_append.mp hx with hx | hx
    · exact Nat.lt_trans (hup i htop) (hrising.lt (h.mem_next.mp hx).1)
    · exact hup x hx

/-- **Entering a node** keeps a search sound. -/
theorem Search.Sound.enter : (g.enter s i).Sound g rank where
  nodup_unreached := h.nodup_unreached.erase i
  nodup_finished := h.nodup_finished
  finished_lt := h.finished_lt
  finished_reached x hx hu := h.finished_reached x hx (h.mem_unreached_enter.mp hu).2
  stack_lt x hx := by
    rcases List.mem_append.mp hx with hx | hx
    · exact hrange.lt (h.mem_next.mp hx).1
    · exact h.stack_lt x hx
  closed := h.closed
  waiting k hk := by
    refine List.mem_append_right _ ?_
    by_cases hki : k = i
    · rw [hki, hs]
      exact List.mem_cons_self
    · exact h.waiting k (h.open_of_enter hk hki)
  pending _ _ _ hsplit hk _ hj := h.pending_enter hrange hrising hs hi hsplit hk hj
  rising _ _ _ hsplit hk hfirst _ hx := h.rising_enter hrising hs hsplit hk hfirst hx

end enter

/-! ### Leaving a node -/

theorem Search.mem_finished_leave : j ∈ (s.leave i rest).finished ↔ j = i ∨ j ∈ s.finished := by
  by_cases hf : i ∈ s.finished
  · simp only [Search.leave, List.contains_iff_mem, hf, if_true]
    constructor
    · exact .inr
    · rintro (rfl | hj)
      · exact hf
      · exact hj
  · simp [Search.leave, hf]

/-- **Leaving a node** keeps a search sound. -/
theorem Search.Sound.leave (h : s.Sound g rank) (hs : s.stack = i :: rest)
    (hi : i ∉ s.unreached) : (s.leave i rest).Sound g rank := by
  have hlt : i < g.size := h.stack_lt i (by rw [hs]; exact List.mem_cons_self)
  have hopen : ∀ k, (s.leave i rest).Open g k → k ≠ i ∧ s.Open g k := by
    intro k hk
    have hk' := hk.unfinished
    rw [Search.mem_finished_leave, not_or] at hk'
    exact ⟨hk'.1, hk.lt_size, hk.reached, hk'.2⟩
  -- nothing is left above the node, so its successors are finished
  have hdone : i ∉ s.finished → ∀ j ∈ g.successors i, j ∈ s.finished := by
    intro hf j hj
    rcases h.pending [] i rest hs ⟨hlt, hi, hf⟩ j hj with hj | hj
    · exact hj
    · cases hj
  have hlist : (s.leave i rest).finished.Nodup ∧ g.Closed (s.leave i rest).finished := by
    by_cases hf : i ∈ s.finished
    · simpa [Search.leave, hf] using ⟨h.nodup_finished, h.closed⟩
    · simpa [Search.leave, hf, Closed] using ⟨h.nodup_finished, hdone hf, h.closed⟩
  refine ⟨h.nodup_unreached, hlist.1, ?_, ?_, ?_, hlist.2, ?_, ?_, ?_⟩
  · intro x hx
    rcases Search.mem_finished_leave.mp hx with rfl | hx
    · exact hlt
    · exact h.finished_lt x hx
  · intro x hx
    rcases Search.mem_finished_leave.mp hx with rfl | hx
    · exact hi
    · exact h.finished_reached x hx
  · intro x hx
    exact h.stack_lt x (by rw [hs]; exact List.mem_cons_of_mem _ hx)
  · intro k hk
    have hin := h.waiting k (hopen k hk).2
    rw [hs] at hin
    exact (List.mem_cons.mp hin).resolve_left (hopen k hk).1
  · intro above k below hsplit hk j hj
    rw [Search.mem_finished_leave]
    have hold : s.stack = (i :: above) ++ k :: below := by
      rw [hs]
      exact congrArg (i :: ·) hsplit
    rcases h.pending _ k below hold (hopen k hk).2 j hj with hf | ha
    · exact .inl (.inr hf)
    · exact (List.mem_cons.mp ha).imp_left .inl
  · intro above k below hsplit hk hfirst x hx
    have hold : s.stack = (i :: above) ++ k :: below := by
      rw [hs]
      exact congrArg (i :: ·) hsplit
    refine h.rising _ k below hold (hopen k hk).2 ?_ x (List.mem_cons_of_mem _ hx)
    rw [List.mem_cons, not_or]
    exact ⟨(hopen k hk).1, hfirst⟩

/-! ### The whole search -/

section run

variable (hrange : g.InRange) (hrising : g.Rising rank)

include hrange hrising

/-- **A sound search comes to an end.**  What was on the stack is reached by then. -/
theorem exists_drain (h : s.Sound g rank) :
    ∃ s', g.drain s = .ok s' ∧ s'.Sound g rank ∧ s'.stack = [] ∧
      ∀ j ∈ s'.unreached, j ∈ s.unreached ∧ j ∉ s.stack := by
  fun_induction drain g s with
  | case1 s hs => exact ⟨s, rfl, h, hs, fun j hj => ⟨hj, by simp [hs]⟩⟩
  | case2 s i rest hs hi hself => exact absurd hself hrising.not_mem_successors
  | case3 s i rest hs hi hself ih =>
      obtain ⟨s', hdrain, hsound, hstack, hun⟩ := ih (h.enter hrange hrising hs hi)
      refine ⟨s', hdrain, hsound, hstack, fun j hj => ?_⟩
      obtain ⟨hj, hnot⟩ := hun j hj
      exact ⟨(h.mem_unreached_enter.mp hj).2, fun hin => hnot (List.mem_append_right _ hin)⟩
  | case4 s i rest hs hi ih =>
      obtain ⟨s', hdrain, hsound, hstack, hun⟩ := ih (h.leave hs hi)
      refine ⟨s', hdrain, hsound, hstack, fun j hj => ⟨(hun j hj).1, ?_⟩⟩
      rw [hs, List.mem_cons, not_or]
      refine ⟨?_, (hun j hj).2⟩
      rintro rfl
      exact hi (hun j hj).1

omit hrange hrising in
/-- A search may start anew from a node when nothing is left on the stack. -/
theorem Search.Sound.start (h : s.Sound g rank) (hs : s.stack = []) (hlt : i < g.size) :
    Search.Sound g rank { s with stack := [i] } := by
  have hopen : ∀ k, ¬ ({ s with stack := [i] } : Search).Open g k := by
    intro k hk
    have hin := h.waiting k ⟨hk.lt_size, hk.reached, hk.unfinished⟩
    rw [hs] at hin
    cases hin
  refine ⟨h.nodup_unreached, h.nodup_finished, h.finished_lt, h.finished_reached, ?_, h.closed,
    fun k hk => absurd hk (hopen k), fun _ k _ _ hk => absurd hk (hopen k),
    fun _ k _ _ hk => absurd hk (hopen k)⟩
  intro x hx
  rw [List.mem_singleton.mp hx]
  exact hlt

/-- One search after another from each node that is still unreached. -/
theorem exists_foldlM_drain {is : List Nat} (h : s.Sound g rank) (hs : s.stack = [])
    (his : ∀ i ∈ is, i < g.size) :
    ∃ s', is.foldlM (fun s i =>
        if i ∈ s.unreached then g.drain { s with stack := [i] } else .ok s) s = .ok s' ∧
      s'.Sound g rank ∧ s'.stack = [] ∧ ∀ j ∈ s'.unreached, j ∈ s.unreached ∧ j ∉ is := by
  induction is generalizing s with
  | nil => exact ⟨s, rfl, h, hs, fun j hj => ⟨hj, by simp⟩⟩
  | cons i is ih =>
      have hone : ∃ s', (if i ∈ s.unreached then g.drain { s with stack := [i] } else .ok s)
          = .ok s' ∧ s'.Sound g rank ∧ s'.stack = [] ∧
            ∀ j ∈ s'.unreached, j ∈ s.unreached ∧ j ≠ i := by
        by_cases hi : i ∈ s.unreached
        · rw [if_pos hi]
          have hstart := h.start hs (his i List.mem_cons_self)
          obtain ⟨s', hdrain, hsound, hstack, hun⟩ := exists_drain hrange hrising hstart
          refine ⟨s', hdrain, hsound, hstack, fun j hj => ⟨(hun j hj).1, ?_⟩⟩
          exact fun he => (hun j hj).2 (List.mem_singleton.mpr he)
        · rw [if_neg hi]
          exact ⟨s, rfl, h, hs, fun j hj => ⟨hj, fun he => hi (he ▸ hj)⟩⟩
      obtain ⟨s₁, hrun, hsound, hstack, hun⟩ := hone
      obtain ⟨s₂, hrest, hsound₂, hstack₂, hun₂⟩ :=
        ih hsound hstack fun i hi => his i (List.mem_cons_of_mem _ hi)
      refine ⟨s₂, ?_, hsound₂, hstack₂, fun j hj => ?_⟩
      · rw [List.foldlM_cons, hrun, ok_bind, hrest]
      · obtain ⟨hj₁, hnot⟩ := hun₂ j hj
        obtain ⟨hj₀, hne⟩ := hun j hj₁
        exact ⟨hj₀, by simp [hne, hnot]⟩

/-- The search finishes every node once, and no node before its successors. -/
theorem exists_finishOrder :
    ∃ order, g.finishOrder = .ok order ∧ order.Nodup ∧ (∀ i, i ∈ order ↔ i < g.size) ∧
      g.Closed order := by
  have hstart : Search.Sound g rank ⟨[], List.range g.size, []⟩ := by
    refine ⟨List.nodup_range, List.nodup_nil, by simp, by simp, by simp, trivial, ?_, by simp,
      by simp⟩
    intro i hi
    exact absurd (List.mem_range.mpr hi.lt_size) hi.reached
  obtain ⟨s, hrun, hsound, hstack, hun⟩ :=
    exists_foldlM_drain hrange hrising hstart rfl fun _ hi => List.mem_range.mp hi
  refine ⟨s.finished, ?_, hsound.nodup_finished, fun i => ⟨hsound.finished_lt i, fun hi => ?_⟩,
    hsound.closed⟩
  · rw [finishOrder, hrun]
    rfl
  · by_contra hnot
    have hreached : i ∉ s.unreached := fun hu => (hun i hu).2 (hun i hu).1
    have hin := hsound.waiting i ⟨hi, hreached, hnot⟩
    rw [hstack] at hin
    cases hin

end run

/-! ### The order -/

/-- In an order that is closed and names every node once, the predecessors of a node stand in front
of it. -/
theorem Closed.mem_front {front back : List Nat} (h : g.Closed (front ++ i :: back))
    (hnd : (front ++ i :: back).Nodup) (hj : j ∈ g.predecessors i)
    (hmem : j ∈ front ++ i :: back) : j ∈ front ∨ j = i := by
  rcases List.mem_append.mp hmem with hfront | hback
  · exact .inl hfront
  rcases List.mem_cons.mp hback with rfl | hback
  · exact .inr rfl
  obtain ⟨b, c, rfl⟩ := List.append_of_mem hback
  have hi : i ∈ c := by
    have h' : g.Closed ((front ++ i :: b) ++ j :: c) := by simpa using h
    exact h'.of_append (mem_successors.mpr (mem_predecessors.mp hj))
  have htwice := (List.nodup_cons.mp (List.nodup_append.mp hnd).2.1).1
  exact absurd (List.mem_append_right _ (List.mem_cons_of_mem _ hi)) htwice

theorem requireForward_eq_ok
    (h : ∀ front i back, order = front ++ i :: back → ∀ j ∈ g.predecessors i,
      j ∈ seen ∨ j ∈ front ∨ j = i) : g.requireForward seen order = .ok () := by
  induction order generalizing seen with
  | nil => rfl
  | cons i is ih =>
      have hnone : (g.predecessors i).filter (!(i :: seen).contains ·) = [] := by
        refine List.filter_eq_nil_iff.mpr fun j hj => ?_
        rcases h [] i is rfl j hj with hj | hj | hj
        · simp [hj]
        · cases hj
        · simp [hj]
      rw [requireForward]
      simp only [hnone, List.getLast?_nil]
      refine ih fun front k back he j hj => ?_
      rcases h (i :: front) k back (congrArg (i :: ·) he) j hj with hj | hj | hj
      · exact .inl (List.mem_cons_of_mem _ hj)
      · rcases List.mem_cons.mp hj with rfl | hj
        · exact .inl List.mem_cons_self
        · exact .inr (.inl hj)
      · exact .inr (.inr hj)

theorem Closed.sublist (h : g.Closed order) (hi : i ∈ order) (hj : j ∈ g.successors i) :
    [i, j].Sublist order := by
  obtain ⟨front, back, rfl⟩ := List.append_of_mem hi
  have hback : [j].Sublist back := List.singleton_sublist.mpr (h.of_append hj)
  exact (hback.cons_cons i).trans (List.sublist_append_right front _)

/-- **A graph without cycles is sorted.**  If edges lead to higher ranks, there is an order; it
names every node once, and every edge goes forward in it. -/
theorem exists_sort (hrange : g.InRange) (hrising : g.Rising rank) :
    ∃ order, g.sort = .ok order ∧ order.Nodup ∧ (∀ i, i ∈ order ↔ i < g.size) ∧
      ∀ e ∈ g.edges, [e.1, e.2].Sublist order := by
  obtain ⟨order, hfinish, hnd, hall, hclosed⟩ := exists_finishOrder hrange hrising
  have hforward : g.requireForward [] order = .ok () := by
    refine requireForward_eq_ok fun front i back he j hj => .inr ?_
    subst he
    have hlt := (hrange (j, i) (mem_predecessors.mp hj)).1
    exact hclosed.mem_front hnd hj ((hall j).mpr hlt)
  refine ⟨order, ?_, hnd, hall, fun e he => ?_⟩
  · rw [sort, hfinish, ok_bind, hforward, ok_bind]
    rfl
  · exact hclosed.sublist ((hall e.1).mpr (hrange e he).1) (mem_successors.mpr he)

/-! ### Removing a node -/

theorem node?_eq_some_lt (h : g.node? i = some x) : i < g.size :=
  (List.getElem?_eq_some_iff.mp h).1

theorem getElem?_swapRemove {xs : List β} (hi : i < xs.length) :
    (swapRemove xs i)[j]? =
      if j < xs.length - 1 then if j = i then xs[xs.length - 1]? else xs[j]? else none := by
  obtain ⟨last, hlast⟩ : ∃ last, xs.getLast? = some last :=
    ⟨_, List.getLast?_eq_some_getLast (List.ne_nil_of_length_pos (Nat.zero_lt_of_lt hi))⟩
  have hend : xs[xs.length - 1]? = some last := by rw [← List.getLast?_eq_getElem?, hlast]
  simp only [swapRemove, hlast, hend]
  rw [List.getElem?_dropLast, List.length_set]
  by_cases hj : j < xs.length - 1
  · rw [if_pos hj, if_pos hj]
    by_cases hij : j = i
    · subst hij
      rw [List.getElem?_set_self hi, if_pos rfl]
    · rw [List.getElem?_set_ne (fun e => hij e.symm), if_neg hij]
  · rw [if_neg hj, if_neg hj]

@[simp] theorem moved_self (i j : Nat) : moved i i j = j := by
  unfold moved
  split_ifs with h
  · exact h.symm
  · rfl

theorem moved_inj {last a b : Nat} (ha : a ≠ i) (hb : b ≠ i)
    (h : moved last i a = moved last i b) : a = b := by
  unfold moved at h
  split_ifs at h <;> omega

/-- What stands in the graph after a removal stood there before, the last node in its old place. -/
theorem node?_removeNode_iff (hx : g.node? i = some x) :
    (g.removeNode i).2.node? j = some y ↔
      ∃ k, k ≠ i ∧ moved (g.size - 1) i k = j ∧ g.node? k = some y := by
  have hi : i < g.nodes.length := node?_eq_some_lt hx
  have hnode : (g.removeNode i).2.node? j = (swapRemove g.nodes i)[j]? := by
    rw [removeNode, hx, node?]
  rw [hnode, getElem?_swapRemove hi]
  constructor
  · intro h
    split_ifs at h with hj hij
    · subst hij
      refine ⟨g.size - 1, ?_, if_pos rfl, h⟩
      exact Nat.ne_of_gt hj
    · refine ⟨j, hij, if_neg ?_, h⟩
      exact Nat.ne_of_lt hj
  · rintro ⟨k, hki, rfl, hk⟩
    have hlt := node?_eq_some_lt hk
    unfold moved
    have hsize : g.size = g.nodes.length := rfl
    by_cases hlast : k = g.size - 1
    · have hi' : i < g.nodes.length - 1 := by omega
      rw [if_pos hlast, if_pos hi', if_pos rfl, ← hsize, ← hlast]
      exact hk
    · have hk' : k < g.nodes.length - 1 := by omega
      rw [if_neg hlast, if_pos hk', if_neg hki]
      exact hk

theorem mem_edges_removeNode_iff (hx : g.node? i = some x) {e : Nat × Nat} :
    e ∈ (g.removeNode i).2.edges ↔
      ∃ a b, (a, b) ∈ g.edges ∧ a ≠ i ∧ b ≠ i ∧
        e = (moved (g.size - 1) i a, moved (g.size - 1) i b) := by
  simp only [removeNode, hx, List.mem_map, List.mem_filter, Prod.exists, Bool.and_eq_true,
    bne_iff_ne]
  constructor
  · rintro ⟨a, b, ⟨hab, ha, hb⟩, rfl⟩
    exact ⟨a, b, hab, ha, hb, rfl⟩
  · rintro ⟨a, b, hab, ha, hb, rfl⟩
    exact ⟨a, b, ⟨hab, ha, hb⟩, rfl⟩

theorem InRange.removeNode (h : g.InRange) (hx : g.node? i = some x) :
    (g.removeNode i).2.InRange := by
  have hi := node?_eq_some_lt hx
  -- a place other than `i` is still filled after the move
  have hfilled : ∀ k, k < g.size → k ≠ i → moved (g.size - 1) i k < (g.removeNode i).2.size := by
    intro k hk hki
    have hnode : g.node? k = some (g.nodes.get ⟨k, hk⟩) := List.getElem?_eq_getElem hk
    exact node?_eq_some_lt ((node?_removeNode_iff hx).mpr ⟨k, hki, rfl, hnode⟩)
  intro e he
  obtain ⟨a, b, hab, ha, hb, rfl⟩ := (mem_edges_removeNode_iff hx).mp he
  exact ⟨hfilled a (h _ hab).1 ha, hfilled b (h _ hab).2 hb⟩

end Unstack.Graph
