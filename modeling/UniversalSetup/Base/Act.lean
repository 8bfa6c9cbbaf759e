/-!
# Actions that may be cut short

An action changes a state and returns a result, throws an exception or ends in a crash of the
process. Whatever it did to the state before it was cut short stays done.
-/

namespace Usk

/-- Why an action does not return. -/
inductive Stop where
  | thrown (message : String)
  | crashed
deriving DecidableEq

/-- An action over a state. -/
def Act (σ α : Type) : Type :=
  σ → Except Stop α × σ

namespace Act

variable {σ α β : Type}

/-- One action after the other; the second is not reached if the first does not return. -/
protected def bind (x : Act σ α) (f : α → Act σ β) : Act σ β := fun s =>
  match x s with
  | (.ok a, s') => f a s'
  | (.error stop, s') => (.error stop, s')

instance : Monad (Act σ) where
  pure a := fun s => (.ok a, s)
  bind := Act.bind

def throw (message : String) : Act σ α := fun s =>
  (.error (.thrown message), s)

def get : Act σ σ := fun s =>
  (.ok s, s)

def set (s : σ) : Act σ Unit := fun _ =>
  (.ok (), s)

/-- The result of a computation that may throw. -/
def ofExcept : Except String α → Act σ α
  | .ok a => fun s => (.ok a, s)
  | .error message => throw message

/-- What is still done when an action throws. The exception goes on; one in `cleanup` is lost. -/
def onThrow (x : Act σ α) (cleanup : Act σ Unit) : Act σ α := fun s =>
  match x s with
  | (.error (.thrown message), s') => (.error (.thrown message), (cleanup s').2)
  | outcome => outcome

variable {x : Act σ α} {f : α → Act σ β} {cleanup : Act σ Unit} {s s' : σ} {a : α}

theorem bind_of_ok (h : x s = (.ok a, s')) : (x >>= f) s = f a s' := by
  show Act.bind x f s = f a s'
  rw [Act.bind, h]

theorem bind_of_error {stop : Stop} (h : x s = (.error stop, s')) :
    (x >>= f) s = (.error stop, s') := by
  show Act.bind x f s = (.error stop, s')
  rw [Act.bind, h]

theorem bind_eq_ok {b : β} :
    (x >>= f) s = (.ok b, s') ↔ ∃ a t, x s = (.ok a, t) ∧ f a t = (.ok b, s') := by
  constructor
  · intro h
    cases hx : x s with
    | mk outcome t =>
      cases outcome with
      | ok a => exact ⟨a, t, rfl, by rwa [bind_of_ok hx] at h⟩
      | error stop =>
        rw [bind_of_error hx] at h
        cases h
  · rintro ⟨a, t, hx, hf⟩
    rw [bind_of_ok hx, hf]

theorem ofExcept_eq_ok {x : Except String α} :
    ofExcept x s = (.ok a, s') ↔ x = .ok a ∧ s' = s := by
  cases x with
  | ok b =>
    constructor
    · intro h
      cases h
      exact ⟨rfl, rfl⟩
    · rintro ⟨h, rfl⟩
      cases h
      rfl
  | error message =>
    constructor
    · intro h
      cases h
    · rintro ⟨h, -⟩
      cases h

theorem onThrow_of_ok (h : x s = (.ok a, s')) : x.onThrow cleanup s = (.ok a, s') := by
  rw [onThrow, h]

theorem onThrow_of_thrown {message : String} (h : x s = (.error (.thrown message), s')) :
    x.onThrow cleanup s = (.error (.thrown message), (cleanup s').2) := by
  rw [onThrow, h]

end Act

end Usk
