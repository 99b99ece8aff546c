import RustTron.Library.Prog

/-!
# Programs that run alike

Two programs that differ only where a precondition keeps a run from going are the same from the
states of the precondition.

## Main definitions

* `Prog.Alike P x y`: from every state of `P`, the two programs have one run

## Main results

* `Prog.Alike.bind`: what comes after is compared from the states that the first part leaves
-/

namespace Prog

variable {σ ε α β : Type}

/-- From every state of `P`, the two programs have one run. -/
def Alike (P : σ → Prop) (x y : Prog σ ε α) : Prop := ∀ s, P s → x s = y s

namespace Alike

variable {P : σ → Prop} {Q : α → σ → Prop} {E : σ → Prop}

theorem refl (x : Prog σ ε α) : Alike P x x := fun _ _ => rfl

theorem of_eq {x y : Prog σ ε α} (h : ∀ s, P s → Alike (· = s) x y) : Alike P x y :=
  fun s hs => h s hs s rfl

theorem mono {P' : σ → Prop} {x y : Prog σ ε α} (h : Alike P' x y) (hP : ∀ s, P s → P' s) :
    Alike P x y := fun s hs => h s (hP s hs)

/-- A first part that runs alike, and then the rest from the states that it leaves. -/
theorem bind {x y : Prog σ ε α} {f g : α → Prog σ ε β} (hxy : Alike P x y) (hy : Triple P y Q E)
    (hfg : ∀ a, Alike (Q a) (f a) (g a)) : Alike P (x >>= f) (y >>= g) := by
  intro s hs
  have hQ := hy s hs
  rw [bind_run, bind_run, hxy s hs]
  rcases hr : y s with ⟨_ | a, s'⟩
  · rfl
  · rw [hr] at hQ
    exact hfg a s' hQ

theorem bind_right {x : Prog σ ε α} {f g : α → Prog σ ε β} (hx : Triple P x Q E)
    (hfg : ∀ a, Alike (Q a) (f a) (g a)) : Alike P (x >>= f) (x >>= g) :=
  bind (refl x) hx hfg

theorem bind_left {x y : Prog σ ε α} (f : α → Prog σ ε β) (hxy : Alike P x y) :
    Alike P (x >>= f) (y >>= f) := by
  intro s hs
  rw [bind_run, bind_run, hxy s hs]

theorem get_bind {f g : σ → Prog σ ε β} (h : ∀ s, P s → Alike (· = s) (f s) (g s)) :
    Alike P (get >>= f) (get >>= g) := fun s hs => h s hs s rfl

theorem modify_bind {u v : σ → σ} {f g : PUnit → Prog σ ε β} {s : σ} (huv : u s = v s)
    (h : Alike (· = v s) (f ⟨⟩) (g ⟨⟩)) :
    Alike (· = s) ((modify u : Prog σ ε PUnit) >>= f) ((modify v : Prog σ ε PUnit) >>= g) := by
  rintro _ rfl
  have hr := h _ rfl
  rw [bind_of_ok (modify_run u _), bind_of_ok (modify_run v _), huv]
  exact hr

/-- A part that only the first program has, and that returns a value and leaves the state. -/
theorem run_bind {x : Prog σ ε α} {f : α → Prog σ ε β} {y : Prog σ ε β} {s : σ} {a : α}
    (hx : x s = (.ok a, s)) (h : Alike (· = s) (f a) y) : Alike (· = s) (x >>= f) y := by
  rintro _ rfl
  rw [bind_of_ok hx]
  exact h _ rfl

theorem ite {c : Prop} [Decidable c] {x x' y y' : Prog σ ε α} (hx : c → Alike P x y)
    (hy : ¬ c → Alike P x' y') : Alike P (if c then x else x') (if c then y else y') := by
  split
  · exact hx ‹_›
  · exact hy ‹_›

end Alike

end Prog
