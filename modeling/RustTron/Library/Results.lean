import Mathlib

/-!
# Results

Where a computation with early returns of an error returns a value.

## Main definitions

* `Yields x Q E`: the computation `x` returns a value with `Q`, or an error with `E`

## Main results

* `bind_eq_ok_iff`, `pure_eq_ok_iff`, `toOption_eq_some_iff`, `throw_ne_ok`: the steps of a computation that returned
* `Yields.bind`, `Yields.pure`, `Yields.throw`, `Yields.ite`: what a computation yields, by its steps
-/

namespace RustTron

variable {ε ε' α β : Type}

theorem ok_bind (a : α) (f : α → Except ε β) : (Except.ok a >>= f) = f a := rfl

theorem error_bind (e : ε) (f : α → Except ε β) : (Except.error e >>= f) = .error e := rfl

theorem bind_eq_ok_iff {x : Except ε α} {f : α → Except ε β} {b : β} :
    (x >>= f) = .ok b ↔ ∃ a, x = .ok a ∧ f a = .ok b := by
  cases x <;> simp [bind, Except.bind]

theorem pure_eq_ok_iff {a b : α} : (pure a : Except ε α) = .ok b ↔ a = b := by
  simp [pure, Except.pure]

theorem toOption_eq_some_iff {x : Except ε α} {a : α} : x.toOption = some a ↔ x = .ok a := by
  cases x <;> simp [Except.toOption]

theorem mapError_eq_ok_iff {x : Except ε α} {f : ε → ε'} {a : α} :
    x.mapError f = .ok a ↔ x = .ok a := by
  cases x <;> simp [Except.mapError]

theorem throw_ne_ok {e : ε} {b : α} : (throw e : Except ε α) ≠ .ok b := by
  simp [throw, throwThe, MonadExceptOf.throw]

/-! ## What a computation yields -/

/-- The computation returns a value with `Q`, or an error with `E`. -/
def Yields (x : Except ε α) (Q : α → Prop) (E : ε → Prop) : Prop :=
  match x with
  | .ok a => Q a
  | .error e => E e

namespace Yields

variable {x : Except ε α} {Q Q' : α → Prop} {E E' : ε → Prop}

theorem pure {a : α} (h : Q a) : Yields (Pure.pure a : Except ε α) Q E := h

theorem throw {e : ε} (h : E e) : Yields (MonadExcept.throw e : Except ε α) Q E := h

theorem bind {f : α → Except ε β} {R : β → Prop} (h : Yields x Q E)
    (hf : ∀ a, Q a → Yields (f a) R E) : Yields (x >>= f) R E := by
  cases x with
  | ok a => exact hf a h
  | error e => exact h

theorem ite {p : Prop} [Decidable p] {y : Except ε α} (hx : p → Yields x Q E)
    (hy : ¬ p → Yields y Q E) : Yields (if p then x else y) Q E := by
  split
  · exact hx ‹_›
  · exact hy ‹_›

theorem mono (h : Yields x Q E) (hQ : ∀ a, Q a → Q' a) (hE : ∀ e, E e → E' e) : Yields x Q' E' := by
  cases x with
  | ok a => exact hQ a h
  | error e => exact hE e h

end Yields

end RustTron
