import BoundaryTag.Event

set_option autoImplicit false

/-! # Traced computations

A traced computation has a result, which may be a fault, and the events up to its end. What it
computes does not depend on the events: `result` turns the steps of a traced computation into the
steps of a plain one (`result_bind` and the lemmas beside it). -/

namespace BoundaryTag

/-- A result, or a fault, and what happened on the way. -/
structure Traced (α : Type) where
  events : List Event
  result : Except Fault α

namespace Traced

variable {α β : Type}

/-- The second step runs if the first has a result, and its events come after. -/
protected def bind (x : Traced α) (f : α → Traced β) : Traced β :=
  match x.result with
  | .error fault => ⟨x.events, .error fault⟩
  | .ok a =>
    let y := f a
    ⟨x.events ++ y.events, y.result⟩

instance : Monad Traced where
  pure a := ⟨[], .ok a⟩
  bind := Traced.bind

/-- A computation without events. -/
instance : MonadLift (Except Fault) Traced where
  monadLift x := ⟨[], x⟩

/-- Notes an event. -/
def record (e : Event) : Traced Unit :=
  ⟨[e], .ok ()⟩

/-- Notes an event if a condition holds. -/
def recordIf (c : Prop) [Decidable c] (e : Event) : Traced Unit :=
  ⟨if c then [e] else [], .ok ()⟩

/-- Ends abnormally. -/
def fail (fault : Fault) : Traced α :=
  ⟨[], .error fault⟩

@[simp] theorem result_pure (a : α) : (pure a : Traced α).result = .ok a := rfl

@[simp] theorem events_pure (a : α) : (pure a : Traced α).events = [] := rfl

@[simp] theorem result_lift (x : Except Fault α) : (liftM x : Traced α).result = x := rfl

@[simp] theorem events_lift (x : Except Fault α) : (liftM x : Traced α).events = [] := rfl

@[simp] theorem result_record (e : Event) : (record e).result = .ok () := rfl

@[simp] theorem events_record (e : Event) : (record e).events = [e] := rfl

@[simp] theorem result_recordIf (c : Prop) [Decidable c] (e : Event) :
    (recordIf c e).result = .ok () := rfl

@[simp] theorem result_fail (fault : Fault) : (fail fault : Traced α).result = .error fault := rfl

theorem result_bind (x : Traced α) (f : α → Traced β) :
    (x >>= f).result = x.result >>= fun a => (f a).result := by
  show (Traced.bind x f).result = _
  unfold Traced.bind
  cases x.result <;> rfl

theorem result_bind_eq_ok_iff {x : Traced α} {f : α → Traced β} {b : β} :
    (x >>= f).result = .ok b ↔ ∃ a, x.result = .ok a ∧ (f a).result = .ok b := by
  rw [result_bind]
  cases x.result <;> simp [bind, Except.bind]

private theorem map_id_eq (x : Traced α) : id <$> x = x := by
  obtain ⟨events, result⟩ := x
  cases result <;> simp [Functor.map, Traced.bind]

private theorem bind_bind_eq {γ : Type} (x : Traced α) (f : α → Traced β) (g : β → Traced γ) :
    x >>= f >>= g = x >>= fun a => f a >>= g := by
  show Traced.bind (Traced.bind x f) g = Traced.bind x fun a => Traced.bind (f a) g
  obtain ⟨events, result⟩ := x
  cases result with
  | error fault => rfl
  | ok a =>
    simp only [Traced.bind]
    cases (f a).result <;> simp [List.append_assoc]

instance : LawfulMonad Traced :=
  LawfulMonad.mk' Traced map_id_eq (fun _ _ => rfl) bind_bind_eq

end Traced

end BoundaryTag
