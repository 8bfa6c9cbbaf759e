import Mathlib.Algebra.Group.Nat.Defs

/-!
# Unsigned 64-bit arithmetic

Code over `std::uint64_t` computes modulo `2 ^ 64`. Such code is written here over an `Arith`, the
three operations that it uses, so that it can be run twice: with operations that wrap around, as the
machine has them, and with operations that refuse to leave the range. Where both runs agree, nothing
wrapped around on the way.
-/

namespace Usk

/-- Addition, subtraction and multiplication, each of which may refuse. -/
structure Arith where
  add : Nat → Nat → Except String Nat
  sub : Nat → Nat → Except String Nat
  mul : Nat → Nat → Except String Nat

namespace Arith

/-- Arithmetic modulo `2 ^ 64`. -/
def wrapping : Arith where
  add a b := .ok ((a + b) % 2 ^ 64)
  sub a b := .ok ((a + 2 ^ 64 - b) % 2 ^ 64)
  mul a b := .ok (a * b % 2 ^ 64)

/-- Arithmetic that stops where `wrapping` would leave the natural numbers below `2 ^ 64`. -/
def checked : Arith where
  add a b := if a + b < 2 ^ 64 then .ok (a + b) else .error "addition wraps around"
  sub a b := if b ≤ a then .ok (a - b) else .error "subtraction wraps around"
  mul a b := if a * b < 2 ^ 64 then .ok (a * b) else .error "multiplication wraps around"

variable {a b c : Nat}

theorem checked_add : checked.add a b = .ok c ↔ a + b < 2 ^ 64 ∧ a + b = c := by
  show (if a + b < 2 ^ 64 then _ else _) = _ ↔ _
  split
  · next h => exact ⟨fun hc => ⟨h, Except.ok.inj hc⟩, fun hc => congrArg Except.ok hc.2⟩
  · next h => exact ⟨fun hc => (by cases hc), fun hc => absurd hc.1 h⟩

theorem checked_sub : checked.sub a b = .ok c ↔ b ≤ a ∧ a - b = c := by
  show (if b ≤ a then _ else _) = _ ↔ _
  split
  · next h => exact ⟨fun hc => ⟨h, Except.ok.inj hc⟩, fun hc => congrArg Except.ok hc.2⟩
  · next h => exact ⟨fun hc => (by cases hc), fun hc => absurd hc.1 h⟩

theorem checked_mul : checked.mul a b = .ok c ↔ a * b < 2 ^ 64 ∧ a * b = c := by
  show (if a * b < 2 ^ 64 then _ else _) = _ ↔ _
  split
  · next h => exact ⟨fun hc => ⟨h, Except.ok.inj hc⟩, fun hc => congrArg Except.ok hc.2⟩
  · next h => exact ⟨fun hc => (by cases hc), fun hc => absurd hc.1 h⟩

theorem wrapping_add (h : a + b < 2 ^ 64) : wrapping.add a b = checked.add a b := by
  show Except.ok ((a + b) % 2 ^ 64) = if a + b < 2 ^ 64 then _ else _
  rw [if_pos h, Nat.mod_eq_of_lt h]

theorem wrapping_sub (ha : a < 2 ^ 64) (h : b ≤ a) : wrapping.sub a b = checked.sub a b := by
  have heq : a + 2 ^ 64 - b = (a - b) + 2 ^ 64 := by omega
  show Except.ok ((a + 2 ^ 64 - b) % 2 ^ 64) = if b ≤ a then _ else _
  rw [if_pos h, heq, Nat.add_mod_right, Nat.mod_eq_of_lt (by omega)]

theorem wrapping_mul (h : a * b < 2 ^ 64) : wrapping.mul a b = checked.mul a b := by
  show Except.ok (a * b % 2 ^ 64) = if a * b < 2 ^ 64 then _ else _
  rw [if_pos h, Nat.mod_eq_of_lt h]

/-- Two programs with the same beginning agree if they agree on everything it can return. -/
theorem bind_congr {α β : Type} {x : Except String α} {f g : α → Except String β}
    (h : ∀ a, x = .ok a → f a = g a) : (x >>= f) = (x >>= g) := by
  cases x with
  | error e => rfl
  | ok a => exact h a rfl

end Arith

end Usk
