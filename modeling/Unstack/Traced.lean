import Unstack.Event

/-! # Traced results

A traced result is the outcome of a computation that may stop with a fault, together with the
events it reported on the way.  The events up to a fault are kept.

`Traced.result` forgets the events; it commutes with every operation, so statements about
outcomes never mention events. -/

namespace Unstack

/-- The events of a computation and its outcome. -/
structure Traced (α : Type) where
  events : List Event
  result : Except Fault α

namespace Traced

variable {α β : Type}

/-- A value, without events. -/
def ok (a : α) : Traced α := ⟨[], .ok a⟩

/-- A fault, without events. -/
def fail (f : Fault) : Traced α := ⟨[], .error f⟩

/-- A single event. -/
def emit (e : Event) : Traced Unit := ⟨[e], .ok ()⟩

/-- An outcome, without events. -/
def ofExcept (r : Except Fault α) : Traced α := ⟨[], r⟩

/-- One computation after another; a fault of the first one ends both. -/
def andThen (x : Traced α) (f : α → Traced β) : Traced β :=
  match x.result with
  | .ok a => ⟨x.events ++ (f a).events, (f a).result⟩
  | .error e => ⟨x.events, .error e⟩

instance : Monad Traced where
  pure := ok
  bind := andThen

instance : MonadLift (Except Fault) Traced where
  monadLift := ofExcept

/-! ### Outcomes -/

@[simp] theorem result_pure (a : α) : (pure a : Traced α).result = .ok a := rfl

@[simp] theorem result_fail (f : Fault) : (fail f : Traced α).result = .error f := rfl

@[simp] theorem result_emit (e : Event) : (emit e).result = .ok () := rfl

@[simp] theorem result_ofExcept (r : Except Fault α) : (ofExcept r).result = r := rfl

@[simp] theorem result_liftM (r : Except Fault α) : (liftM r : Traced α).result = r := rfl

@[simp] theorem result_bind (x : Traced α) (f : α → Traced β) :
    (x >>= f).result = x.result >>= fun a => (f a).result := by
  show (andThen x f).result = _
  unfold andThen
  cases x.result <;> rfl

@[ext] theorem ext {x y : Traced α} (he : x.events = y.events) (hr : x.result = y.result) :
    x = y := by
  cases x; cases y; simp_all

/-! ### Laws -/

theorem andThen_ok (x : Traced α) : andThen x ok = x := by
  unfold andThen
  cases h : x.result <;> ext1 <;> simp [h, ok]

theorem ok_andThen (a : α) (f : α → Traced β) : andThen (ok a) f = f a := by
  simp [andThen, ok]

theorem andThen_assoc {γ : Type} (x : Traced α) (f : α → Traced β) (g : β → Traced γ) :
    andThen (andThen x f) g = andThen x fun a => andThen (f a) g := by
  cases hx : x.result with
  | error e => simp [andThen, hx]
  | ok a => cases hf : (f a).result <;> simp [andThen, hx, hf]

instance : LawfulMonad Traced :=
  LawfulMonad.mk' Traced (fun x => andThen_ok x) (fun a f => ok_andThen a f)
    (fun x f g => andThen_assoc x f g)

end Traced

end Unstack
