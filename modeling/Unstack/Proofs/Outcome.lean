import Mathlib.Data.List.Forall2
import Unstack.Traced

/-! # Outcomes

How outcomes that may be a fault are taken apart and compared, alone and in lists. -/

namespace Unstack

/-! ### Lists compared one by one -/

theorem forall₂_imp_of_mem {α β : Type} {R S : α → β → Prop} {xs : List α} {ys : List β}
    (h : List.Forall₂ R xs ys) (hRS : ∀ x ∈ xs, ∀ y ∈ ys, R x y → S x y) :
    List.Forall₂ S xs ys := by
  induction h with
  | nil => exact .nil
  | cons hxy _ ih =>
      refine .cons (hRS _ List.mem_cons_self _ List.mem_cons_self hxy) (ih fun x hx y hy => ?_)
      exact hRS x (List.mem_cons_of_mem _ hx) y (List.mem_cons_of_mem _ hy)

theorem forall₂_unique_of_mem {α β : Type} {R : α → β → Prop} {xs : List α} {ys zs : List β}
    (h : List.Forall₂ R xs ys) (h' : List.Forall₂ R xs zs)
    (hR : ∀ y ∈ ys, ∀ x z, R x y → R x z → y = z) : ys = zs := by
  induction h generalizing zs with
  | nil =>
      cases h'
      rfl
  | cons hxy _ ih =>
      cases h' with
      | cons hxz h' =>
          rw [hR _ List.mem_cons_self _ _ hxy hxz,
            ih h' fun y hy => hR y (List.mem_cons_of_mem _ hy)]

theorem exists_forall₂ {α β : Type} {R : α → β → Prop} {xs : List α}
    (h : ∀ x ∈ xs, ∃ y, R x y) : ∃ ys, List.Forall₂ R xs ys := by
  induction xs with
  | nil => exact ⟨[], .nil⟩
  | cons x xs ih =>
      obtain ⟨y, hy⟩ := h x List.mem_cons_self
      obtain ⟨ys, hys⟩ := ih fun x hx => h x (List.mem_cons_of_mem _ hx)
      exact ⟨y :: ys, .cons hy hys⟩

theorem exists_of_mem_left {α β : Type} {R : α → β → Prop} {xs : List α} {ys : List β}
    (h : List.Forall₂ R xs ys) {x : α} (hx : x ∈ xs) : ∃ y ∈ ys, R x y := by
  induction h with
  | nil => cases hx
  | cons hxy _ ih =>
      rcases List.mem_cons.mp hx with rfl | hx
      · exact ⟨_, List.mem_cons_self, hxy⟩
      · obtain ⟨y, hy, hr⟩ := ih hx
        exact ⟨y, List.mem_cons_of_mem _ hy, hr⟩

theorem exists_of_mem_right {α β : Type} {R : α → β → Prop} {xs : List α} {ys : List β}
    (h : List.Forall₂ R xs ys) {y : β} (hy : y ∈ ys) : ∃ x ∈ xs, R x y := by
  induction h with
  | nil => cases hy
  | cons hxy _ ih =>
      rcases List.mem_cons.mp hy with rfl | hy
      · exact ⟨_, List.mem_cons_self, hxy⟩
      · obtain ⟨x, hx, hr⟩ := ih hy
        exact ⟨x, List.mem_cons_of_mem _ hx, hr⟩

theorem forall₂_flatMap {α β γ δ : Type} {R : α → β → Prop} {S : γ → δ → Prop} {xs : List α}
    {ys : List β} {f : α → List γ} {g : β → List δ} (h : List.Forall₂ R xs ys)
    (hfg : ∀ x ∈ xs, ∀ y, R x y → List.Forall₂ S (f x) (g y)) :
    List.Forall₂ S (xs.flatMap f) (ys.flatMap g) := by
  induction h with
  | nil => exact .nil
  | cons hxy _ ih =>
      rw [List.flatMap_cons, List.flatMap_cons]
      refine List.rel_append (hfg _ List.mem_cons_self _ hxy) (ih fun x hx => ?_)
      exact hfg x (List.mem_cons_of_mem _ hx)

theorem exists_getElem?_of_forall₂ {α β : Type} {R : α → β → Prop} {xs : List α} {ys : List β}
    {i : Nat} {y : β} (h : List.Forall₂ R xs ys) (hi : ys[i]? = some y) :
    ∃ x, xs[i]? = some x ∧ R x y := by
  induction h generalizing i with
  | nil => cases hi
  | cons hhead _ ih =>
      cases i with
      | zero =>
          cases hi
          exact ⟨_, rfl, hhead⟩
      | succ i => exact ih hi

/-- One position of two lists is replaced; the comparison of the others may change. -/
theorem forall₂_set {α β : Type} {R S : α → β → Prop} {xs : List α} {ys : List β} {i : Nat}
    {x : α} {y : β} (h : List.Forall₂ R xs ys) (hxy : S x y)
    (hRS : ∀ j, j ≠ i → ∀ x ∈ xs[j]?, ∀ y, R x y → S x y) :
    List.Forall₂ S (xs.set i x) (ys.set i y) := by
  induction h generalizing i with
  | nil => exact .nil
  | cons hhead htail ih =>
      cases i with
      | zero =>
          refine .cons hxy (forall₂_imp_of_mem htail fun x hx y _ hr => ?_)
          obtain ⟨j, hj⟩ := List.mem_iff_getElem?.mp hx
          exact hRS (j + 1) (Nat.succ_ne_zero j) x hj y hr
      | succ i =>
          refine .cons (hRS 0 (Nat.succ_ne_zero i).symm _ rfl _ hhead) (ih fun j hj => ?_)
          exact hRS (j + 1) fun e => hj (Nat.succ.inj e)

namespace Outcome

variable {ε α β : Type}

/-! ### One outcome after another -/

@[simp] theorem ok_bind (x : α) (f : α → Except ε β) : (Except.ok x >>= f) = f x := rfl

@[simp] theorem error_bind (e : ε) (f : α → Except ε β) : (Except.error e >>= f) = .error e := rfl

@[simp] theorem pure_eq_ok (x : α) : (pure x : Except ε α) = .ok x := rfl

@[simp] theorem throw_eq_error (e : ε) : (throw e : Except ε α) = .error e := rfl

theorem exists_of_bind_eq_ok {r : Except ε α} {f : α → Except ε β} {y : β}
    (h : (r >>= f) = .ok y) : ∃ x, r = .ok x ∧ f x = .ok y := by
  cases r with
  | error e => cases h
  | ok x => exact ⟨x, rfl, h⟩

theorem error_or_of_bind_eq_error {r : Except ε α} {f : α → Except ε β} {e : ε}
    (h : (r >>= f) = .error e) : r = .error e ∨ ∃ x, r = .ok x ∧ f x = .error e := by
  cases r with
  | error e' =>
      cases h
      exact .inl rfl
  | ok x => exact .inr ⟨x, rfl, h⟩

/-- A check that comes first. -/
theorem check_bind_eq_ok_iff {r : Except ε Unit} {s : Except ε β} {y : β} :
    (r >>= fun _ => s) = .ok y ↔ r = .ok () ∧ s = .ok y := by
  cases r with
  | error e => simp
  | ok u => simp

theorem mapM_eq_ok {f : α → Except ε β} {xs : List α} (ys : List β)
    (h : List.Forall₂ (fun x y => f x = .ok y) xs ys) : xs.mapM f = .ok ys := by
  induction h with
  | nil => rfl
  | cons hxy _ ih =>
      rw [List.mapM_cons, hxy, ok_bind, ih]
      rfl

theorem forall₂_of_mapM_eq_ok {f : α → Except ε β} {xs : List α} {ys : List β}
    (h : xs.mapM f = .ok ys) : List.Forall₂ (fun x y => f x = .ok y) xs ys := by
  induction xs generalizing ys with
  | nil =>
      cases h
      exact .nil
  | cons x xs ih =>
      rw [List.mapM_cons] at h
      obtain ⟨y, hy, h⟩ := exists_of_bind_eq_ok h
      obtain ⟨zs, hzs, h⟩ := exists_of_bind_eq_ok h
      cases h
      exact .cons hy (ih hzs)

/-- What comes after a computation matters only where the computation gives something. -/
theorem bind_congr_of_result {x : Traced α} {f g : α → Traced β}
    (h : ∀ a, x.result = .ok a → f a = g a) : x >>= f = x >>= g := by
  show Traced.andThen x f = Traced.andThen x g
  cases hx : x.result with
  | error e => simp only [Traced.andThen, hx]
  | ok a => simp only [Traced.andThen, hx, h a hx]

/-- What every round of a loop keeps, the loop keeps. -/
theorem of_result_foldlM {P : α → Prop} {f : α → β → Traced α}
    (hf : ∀ x y x', P x → (f x y).result = .ok x' → P x') {ys : List β} {x x' : α} (hx : P x)
    (h : (ys.foldlM f x).result = .ok x') : P x' := by
  induction ys generalizing x with
  | nil =>
      cases h
      exact hx
  | cons y ys ih =>
      rw [List.foldlM_cons, Traced.result_bind] at h
      obtain ⟨z, hz, h⟩ := exists_of_bind_eq_ok h
      exact ih (hf x y z hx hz) h

end Outcome

end Unstack
