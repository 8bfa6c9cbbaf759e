/-!
# Comparing outcomes

Two relations between computations that may fail. `Follows` compares a run that may be stopped from
outside with the same run left alone. `Agree` compares two computations of the same thing, the first
of which has limits of its own.
-/

namespace Usk.Outcome

variable {ε α β γ δ : Type} {x : Except ε α} {f : α → Except ε γ}

/-! ## A run that may be stopped -/

/-- The same outcome, unless the run was stopped. -/
def Follows (stops : ε → Prop) (x y : Except ε α) : Prop :=
  x = y ∨ ∃ e, stops e ∧ x = .error e

namespace Follows

variable {stops : ε → Prop}

theorem refl (x : Except ε α) : Follows stops x x :=
  .inl rfl

/-- Steps that follow each other make up runs that follow each other. -/
theorem bind {y : Except ε α} {f g : α → Except ε β} (hx : Follows stops x y)
    (hf : ∀ a, y = .ok a → Follows stops (f a) (g a)) : Follows stops (x >>= f) (y >>= g) := by
  rcases hx with rfl | ⟨e, he, rfl⟩
  · cases x with
    | error e => exact refl _
    | ok a => exact hf a rfl
  · exact .inr ⟨e, he, rfl⟩

/-- A run that comes to an end was not stopped. -/
theorem eq_of_ok {y : Except ε α} {a : α} (h : Follows stops x y) (hx : x = .ok a) : y = .ok a := by
  rcases h with rfl | ⟨e, -, rfl⟩
  · exact hx
  · cases hx

end Follows

/-! ## Two computations of the same thing -/

/-- Both succeed with related results, or both fail, or only the first fails and is excused. -/
inductive Agree (excused : ε → Prop) (R : α → β → Prop) : Except ε α → Except ε β → Prop
  | ok {a : α} {b : β} : R a b → Agree excused R (.ok a) (.ok b)
  | failed (e e' : ε) : Agree excused R (.error e) (.error e')
  | limited {e : ε} (b : β) : excused e → Agree excused R (.error e) (.ok b)

namespace Agree

variable {excused : ε → Prop} {R : α → β → Prop} {Q : γ → δ → Prop}

/-- A failure that is excused agrees with everything. -/
theorem of_excused {e : ε} (h : excused e) (y : Except ε β) : Agree excused R (.error e) y := by
  cases y with
  | ok b => exact .limited b h
  | error e' => exact .failed e e'

theorem bind {y : Except ε β} {g : β → Except ε δ} (h : Agree excused R x y)
    (hf : ∀ a b, y = .ok b → R a b → Agree excused Q (f a) (g b)) :
    Agree excused Q (x >>= f) (y >>= g) := by
  cases h with
  | ok h => exact hf _ _ rfl h
  | failed e e' => exact .failed e e'
  | limited b h => exact of_excused h (g b)

theorem of_ok {x : Except ε α} {y : Except ε β} {a : α} {b : β} (hx : x = .ok a) (hy : y = .ok b)
    (h : Agree excused R x y) : R a b := by
  rw [hx, hy] at h
  cases h with
  | ok h => exact h

/-- The same first step. -/
theorem same {g : α → Except ε δ} (hf : ∀ a, x = .ok a → Agree excused Q (f a) (g a)) :
    Agree excused Q (x >>= f) (x >>= g) := by
  cases x with
  | ok a => exact hf a rfl
  | error e => exact .failed e e

/-- A first step of the first computation that succeeds. -/
theorem left {a : α} {y : Except ε δ} (hx : x = .ok a) (h : Agree excused Q (f a) y) :
    Agree excused Q (x >>= f) y := by
  rw [hx]
  exact h

/-- A first step of the second computation that succeeds. -/
theorem right {x : Except ε γ} {y : Except ε β} {b : β} {g : β → Except ε δ} (hy : y = .ok b)
    (h : Agree excused Q x (g b)) : Agree excused Q x (y >>= g) := by
  rw [hy]
  exact h

/-- A first step that only the first computation takes and that can only fail excused. -/
theorem skip {y : Except ε δ} (hx : ∀ e, x = .error e → excused e)
    (hf : ∀ a, x = .ok a → Agree excused Q (f a) y) : Agree excused Q (x >>= f) y := by
  cases x with
  | ok a => exact hf a rfl
  | error e => exact of_excused (hx e rfl) y

end Agree

end Usk.Outcome
