import RustTron.Library.Prog

/-!
# What a program does to a view of the state

A view of the state, such as the number of values on a stack, is followed through a program: from a
state that is seen as `v`, the program returns a value together with what the state is then seen
as, and whatever it fails with is not one of the errors that are ruled out.

## Main definitions

* `Prog.Tracks view bad v x Q`: from every state seen as `v`, `x` returns a value and a state seen
  as `Q` says, or fails with an error that is not `bad`

## Main results

* `Prog.Tracks.bind`: the views of two programs one after the other
* `Prog.Tracks.zoom`: a program over a part of the state
-/

namespace Prog

variable {σ τ ε ε' α β μ ν : Type}

/-- From every state seen as `v`, `x` returns a value and a state seen as `Q` says, or fails with an
error that is not `bad`. -/
def Tracks (view : σ → μ) (bad : ε → Prop) (v : μ) (x : Prog σ ε α) (Q : α → μ → Prop) : Prop :=
  ∀ s, view s = v → match x s with
    | (.ok a, s') => Q a (view s')
    | (.error e, _) => ¬ bad e

namespace Tracks

variable {view : σ → μ} {bad : ε → Prop} {v : μ} {Q : α → μ → Prop} {R : β → μ → Prop}

theorem of_ok {x : Prog σ ε α} {s s' : σ} {a : α} (h : Tracks view bad (view s) x Q)
    (hr : x s = (.ok a, s')) : Q a (view s') := by
  have := h s rfl
  rwa [hr] at this

theorem of_error {x : Prog σ ε α} {s s' : σ} {e : ε} (h : Tracks view bad (view s) x Q)
    (hr : x s = (.error e, s')) : ¬ bad e := by
  have := h s rfl
  rwa [hr] at this

theorem pure {a : α} (h : Q a v) : Tracks view bad v (Pure.pure a : Prog σ ε α) Q := by
  rintro s rfl
  exact h

theorem throw {e : ε} (h : ¬ bad e) :
    Tracks view bad v (MonadExcept.throw e : Prog σ ε α) Q := fun _ _ => h

theorem bind {x : Prog σ ε α} {f : α → Prog σ ε β} (hx : Tracks view bad v x Q)
    (hf : ∀ a v', Q a v' → Tracks view bad v' (f a) R) : Tracks view bad v (x >>= f) R := by
  intro s hs
  have hQ := hx s hs
  rw [bind_run]
  rcases hr : x s with ⟨e | a, s'⟩ <;> rw [hr] at hQ
  · exact hQ
  · exact hf a (view s') hQ s' rfl

theorem throw_bind {e : ε} {f : α → Prog σ ε β} (h : ¬ bad e) :
    Tracks view bad v ((MonadExcept.throw e : Prog σ ε α) >>= f) R := fun _ _ => h

theorem get_bind {f : σ → Prog σ ε β} (h : ∀ s, view s = v → Tracks view bad v (f s) R) :
    Tracks view bad v (MonadState.get >>= f) R :=
  fun s hs => h s hs s hs

/-- What leaves the view alone goes on from it. -/
theorem modify_bind {g : σ → σ} {f : PUnit → Prog σ ε β} (hg : ∀ s, view (g s) = view s)
    (h : Tracks view bad v (f ⟨⟩) R) :
    Tracks view bad v ((modify g : Prog σ ε PUnit) >>= f) R :=
  fun s hs => h (g s) ((hg s).trans hs)

theorem set_bind {t : σ} {f : PUnit → Prog σ ε β} (h : Tracks view bad (view t) (f ⟨⟩) R) :
    Tracks view bad v ((MonadStateOf.set t : Prog σ ε PUnit) >>= f) R :=
  fun _ _ => h t rfl

theorem conseq {x : Prog σ ε α} {Q' : α → μ → Prop} (h : Tracks view bad v x Q)
    (hQ : ∀ a v', Q a v' → Q' a v') : Tracks view bad v x Q' := by
  intro s hs
  have := h s hs
  rcases hr : x s with ⟨e | a, s'⟩ <;> rw [hr] at this
  · exact this
  · exact hQ a _ this

theorem ite {c : Prop} [Decidable c] {x y : Prog σ ε α} (hx : c → Tracks view bad v x Q)
    (hy : ¬ c → Tracks view bad v y Q) : Tracks view bad v (if c then x else y) Q := by
  split
  · exact hx ‹_›
  · exact hy ‹_›

/-- A program over a part of the state, whose view tells how the whole is seen. -/
theorem zoom {part : σ → τ} {update : σ → τ → σ} {f : ε' → ε} {bad' : ε' → Prop}
    {view' : τ → ν} {v' : ν} {x : Prog τ ε' α} {S : α → ν → Prop} (hx : Tracks view' bad' v' x S)
    (hp : ∀ s, view s = v → view' (part s) = v') (hb : ∀ e, ¬ bad' e → ¬ bad (f e))
    (hQ : ∀ s a t, view s = v → S a (view' t) → Q a (view (update s t))) :
    Tracks view bad v (Prog.zoom part update f x) Q := by
  intro s hs
  have hS := hx (part s) (hp s hs)
  rw [Prog.zoom]
  rcases hr : x (part s) with ⟨e | a, t⟩ <;> rw [hr] at hS
  · exact hb e hS
  · exact hQ s a t hs hS

/-- A result that is at hand: the view stays. -/
theorem ofExcept_bind {f : ε' → ε} {r : Except ε' α} {g : α → Prog σ ε β}
    (he : ∀ e, r = .error e → ¬ bad (f e)) (hok : ∀ a, r = .ok a → Tracks view bad v (g a) R) :
    Tracks view bad v (Prog.ofExcept f r >>= g) R := by
  cases r with
  | error e => exact fun _ _ => he e rfl
  | ok a => exact hok a rfl

end Tracks

end Prog
