/-
What running a C function can come to.

Most calls return.  A loop that makes no progress never does, `exit` ends the
process, and a step the C standard gives no meaning to (freeing memory that malloc
never handed out, writing a structure field through an array that ends before it)
ends the run as well: nothing may be said about what follows.
-/
import Mathlib

namespace ChordDht

inductive Outcome (α : Type) where
  | returns (a : α)
  | diverges
  | exits
  | faults
  deriving DecidableEq, Repr

namespace Outcome

variable {α β : Type}

def bind (x : Outcome α) (f : α → Outcome β) : Outcome β :=
  match x with
  | .returns a => f a
  | .diverges => .diverges
  | .exits => .exits
  | .faults => .faults

instance : Monad Outcome where
  pure := .returns
  bind := bind

@[simp] theorem returns_bind (a : α) (f : α → Outcome β) : (.returns a >>= f) = f a := rfl

@[simp] theorem diverges_bind (f : α → Outcome β) : (.diverges >>= f) = .diverges := rfl

@[simp] theorem exits_bind (f : α → Outcome β) : (.exits >>= f) = .exits := rfl

@[simp] theorem faults_bind (f : α → Outcome β) : (.faults >>= f) = .faults := rfl

@[simp] theorem pure_eq (a : α) : (pure a : Outcome α) = .returns a := rfl

theorem bind_eq_returns {x : Outcome α} {f : α → Outcome β} {b : β} :
    (x >>= f) = .returns b ↔ ∃ a, x = .returns a ∧ f a = .returns b := by
  cases x <;> simp

/-- There is at most one value to return. -/
theorem bind_eq_faults {x : Outcome α} {f : α → Outcome β} :
    (x >>= f) = .faults ↔ x = .faults ∨ ∃ a, x = .returns a ∧ f a = .faults := by
  cases x <;> simp

theorem map_eq_faults {x : Outcome α} {f : α → β} : (x >>= fun a => pure (f a)) = .faults ↔ x = .faults := by
  cases x <;> simp

theorem forall_returns {x : Outcome α} {a : α} (h : x = .returns a) {R : α → Prop} :
    (∀ b, x = .returns b → R b) ↔ R a := by
  constructor
  · intro hall
    exact hall a h
  · intro hR b hb
    rw [h, returns.injEq] at hb
    rwa [← hb]

/-- A condition on what is returned can be decided. -/
instance decidableForallReturns {R : α → Prop} [DecidablePred R] :
    (x : Outcome α) → Decidable (∀ a, x = .returns a → R a)
  | .returns _ => decidable_of_iff _ (forall_returns rfl).symm
  | .diverges => .isTrue fun _ h => by cases h
  | .exits => .isTrue fun _ h => by cases h
  | .faults => .isTrue fun _ h => by cases h

theorem bind_assoc {γ : Type} (x : Outcome α) (f : α → Outcome β) (g : β → Outcome γ) :
    x >>= f >>= g = x >>= fun a => f a >>= g := by
  cases x <;> rfl

/-! ### Two programs that come to the same -/

/-- Both runs end the same way, and what they return is related by `R`. -/
inductive Rel (R : α → β → Prop) : Outcome α → Outcome β → Prop
  | returns {a : α} {b : β} (h : R a b) : Rel R (.returns a) (.returns b)
  | diverges : Rel R .diverges .diverges
  | exits : Rel R .exits .exits
  | faults : Rel R .faults .faults

/-- Related steps make related runs. -/
theorem Rel.bind {γ δ : Type} {R : α → β → Prop} {S : γ → δ → Prop} {x : Outcome α} {y : Outcome β}
    {f : α → Outcome γ} {g : β → Outcome δ} (h : Rel R x y) (hfg : ∀ a b, R a b → Rel S (f a) (g b)) :
    Rel S (x >>= f) (y >>= g) := by
  cases h with
  | returns h => exact hfg _ _ h
  | diverges => exact .diverges
  | exits => exact .exits
  | faults => exact .faults

theorem Rel.bind_self {γ δ : Type} {S : γ → δ → Prop} (x : Outcome α) {f : α → Outcome γ} {g : α → Outcome δ}
    (hfg : ∀ a, x = .returns a → Rel S (f a) (g a)) : Rel S (x >>= f) (x >>= g) := by
  cases x with
  | returns a => exact hfg a rfl
  | diverges => exact .diverges
  | exits => exact .exits
  | faults => exact .faults

/-- The left run may go on where the right one is done. -/
theorem Rel.bind_left {γ : Type} {R : α → β → Prop} {S : γ → β → Prop} {x : Outcome α} {y : Outcome β}
    {f : α → Outcome γ} (h : Rel R x y)
    (hf : ∀ a b, y = .returns b → R a b → ∃ c, f a = .returns c ∧ S c b) : Rel S (x >>= f) y := by
  cases h with
  | returns h =>
      obtain ⟨c, hc, hS⟩ := hf _ _ rfl h
      rw [returns_bind, hc]
      exact .returns hS
  | diverges => exact .diverges
  | exits => exact .exits
  | faults => exact .faults

/-- If the left run returns, so does the right one. -/
theorem Rel.returns_left {R : α → β → Prop} {a : α} {y : Outcome β} (h : Rel R (.returns a) y) :
    ∃ b, y = .returns b ∧ R a b := by
  cases h with
  | returns h => exact ⟨_, rfl, h⟩

/-- If the right run returns, so does the left one. -/
theorem Rel.returns_right {R : α → β → Prop} {x : Outcome α} {b : β} (h : Rel R x (.returns b)) :
    ∃ a, x = .returns a ∧ R a b := by
  cases h with
  | returns h => exact ⟨_, rfl, h⟩

theorem Rel.diverges_right {R : α → β → Prop} {x : Outcome α} (h : Rel R x .diverges) :
    x = .diverges := by
  cases h
  rfl

theorem Rel.exits_right {R : α → β → Prop} {x : Outcome α} (h : Rel R x .exits) : x = .exits := by
  cases h
  rfl

theorem Rel.faults_right {R : α → β → Prop} {x : Outcome α} (h : Rel R x .faults) : x = .faults := by
  cases h
  rfl

end Outcome

end ChordDht
