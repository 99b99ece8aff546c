import Mathlib

/-!
# Programs over a state that may fail

A method of the source that takes `&mut self` and returns a `Result` is a `Prog`: it may fail at
any point, and keeps what it has already done to the state when it does. The judgment `Triple`
relates the state before a program to its value and the state it leaves, or the state it fails in.

## Main definitions

* `Prog σ ε α`: programs over the state `σ` that return an `α` or fail with an `ε`
* `Prog.attempt`: run a program and hand over its result, as a `match` on a `Result` does
* `Prog.zoom`, `Prog.mapError`: a program over a part of the state, or with other errors
* `Prog.Triple P x Q E`: from every state of `P`, `x` returns a value and a state of `Q`, or fails
  in a state of `E`
* `Prog.Returns x P`: every value that `x` returns is one of `P`
* `Prog.Keeps I x`: `x` keeps the invariant `I`, whether it fails or not
* `Prog.Follows R x y Q`: what `x` returns, `y` returns as well from every related state

## Main results

* `Prog.Triple.bind`, `Prog.Triple.attempt`, `Prog.Triple.zoom`: the rules of the constructions
* `Prog.Keeps.bind`, `Prog.Keeps.forM`: the rules for an invariant kept by every step
* `Prog.Follows.bind`, `Prog.Follows.get_bind`: the rules for two runs side by side
-/

/-- Programs over the state `σ` that return an `α` or fail with an `ε`. -/
def Prog (σ ε α : Type) : Type := σ → Except ε α × σ

namespace Prog

variable {σ τ ε ε' α β : Type}
variable {x : Prog σ ε α} {f : α → Prog σ ε β}

/-- Return a value. -/
protected def pure (a : α) : Prog σ ε α := fun s => (.ok a, s)

/-- Run `x`, then `f` of its value. -/
protected def bind (x : Prog σ ε α) (f : α → Prog σ ε β) : Prog σ ε β := fun s =>
  match x s with
  | (.ok a, s') => f a s'
  | (.error e, s') => (.error e, s')

/-- Fail. -/
def fail (e : ε) : Prog σ ε α := fun s => (.error e, s)

/-- Run `x` and hand over its result. -/
def attempt (x : Prog σ ε α) : Prog σ ε' (Except ε α) := fun s =>
  match x s with
  | (r, s') => (.ok r, s')

/-- Run a program on the part `part` of the state, and its failures through `f`. -/
def zoom (part : σ → τ) (update : σ → τ → σ) (f : ε → ε') (x : Prog τ ε α) : Prog σ ε' α := fun s =>
  match x (part s) with
  | (.ok a, t) => (.ok a, update s t)
  | (.error e, t) => (.error (f e), update s t)

/-- Run `x`, and its failures through `f`. -/
def mapError (f : ε → ε') (x : Prog σ ε α) : Prog σ ε' α := zoom (fun s => s) (fun _ s => s) f x

instance : Monad (Prog σ ε) where
  pure := Prog.pure
  bind := Prog.bind

instance : MonadStateOf σ (Prog σ ε) where
  get := fun s => (.ok s, s)
  set := fun s _ => (.ok (), s)
  modifyGet := fun f s => match f s with | (a, s') => (.ok a, s')

instance : MonadExceptOf ε (Prog σ ε) where
  throw := fail
  tryCatch := fun x h s => match x s with
    | (.ok a, s') => (.ok a, s')
    | (.error e, s') => h e s'

/-- A result as a program: `?` on it. -/
def ofExcept (f : ε → ε') : Except ε α → Prog σ ε' α
  | .ok a => pure a
  | .error e => fail (f e)

def okOr (o : Option α) (e : ε) : Prog σ ε α :=
  match o with
  | some a => pure a
  | none => fail e

theorem pure_run (a : α) (s : σ) : (pure a : Prog σ ε α) s = (.ok a, s) := rfl

theorem bind_run (x : Prog σ ε α) (f : α → Prog σ ε β) (s : σ) :
    (x >>= f) s = match x s with
      | (.ok a, s') => f a s'
      | (.error e, s') => (.error e, s') := rfl

theorem throw_run (e : ε) (s : σ) : (throw e : Prog σ ε α) s = (.error e, s) := rfl

theorem get_run (s : σ) : (get : Prog σ ε σ) s = (.ok s, s) := rfl

theorem set_run (s s' : σ) : (set s' : Prog σ ε PUnit) s = (.ok ⟨⟩, s') := rfl

theorem modify_run (f : σ → σ) (s : σ) : (modify f : Prog σ ε PUnit) s = (.ok ⟨⟩, f s) := rfl

theorem bind_of_ok {s s' : σ} {a : α} (h : x s = (.ok a, s')) : (x >>= f) s = f a s' := by
  rw [bind_run, h]

theorem bind_of_error {s s' : σ} {e : ε} (h : x s = (.error e, s')) :
    (x >>= f) s = (.error e, s') := by
  rw [bind_run, h]

/-- A program that goes on to return a value leaves the state it comes to. -/
theorem bind_pure_state (x : Prog σ ε α) (b : β) (s : σ) :
    ((x >>= fun _ => pure b) s).2 = (x s).2 := by
  rw [bind_run]
  rcases x s with ⟨_ | _, t⟩ <;> rfl

theorem ofExcept_ok_run (f : ε → ε') (a : α) (s : σ) :
    (ofExcept f (.ok a) : Prog σ ε' α) s = (.ok a, s) := rfl

theorem ofExcept_error_run (f : ε → ε') (e : ε) (s : σ) :
    (ofExcept f (.error e) : Prog σ ε' α) s = (.error (f e), s) := rfl

theorem attempt_of_eq {s s' : σ} {r : Except ε α} (h : x s = (r, s')) :
    (attempt x : Prog σ ε' _) s = (.ok r, s') := by
  rw [attempt, h]

theorem zoom_of_ok {part : σ → τ} {update : σ → τ → σ} {f : ε → ε'} {x : Prog τ ε α} {s : σ}
    {a : α} {t : τ} (h : x (part s) = (.ok a, t)) : zoom part update f x s = (.ok a, update s t) := by
  rw [zoom, h]

theorem zoom_of_error {part : σ → τ} {update : σ → τ → σ} {f : ε → ε'} {x : Prog τ ε α} {s : σ}
    {e : ε} {t : τ} (h : x (part s) = (.error e, t)) :
    zoom part update f x s = (.error (f e), update s t) := by
  rw [zoom, h]

theorem zoom_eq_ok {part : σ → τ} {update : σ → τ → σ} {f : ε → ε'} {x : Prog τ ε α} {s s' : σ}
    {a : α} :
    zoom part update f x s = (.ok a, s') ↔ ∃ t, x (part s) = (.ok a, t) ∧ s' = update s t := by
  rcases hx : x (part s) with ⟨e | b, t⟩
  · simp [zoom_of_error hx]
  · simp only [zoom_of_ok hx, Prod.mk.injEq, Except.ok.injEq]
    constructor
    · rintro ⟨rfl, rfl⟩
      exact ⟨t, ⟨rfl, rfl⟩, rfl⟩
    · rintro ⟨u, ⟨rfl, rfl⟩, rfl⟩
      exact ⟨rfl, rfl⟩

theorem mapError_of_ok {f : ε → ε'} {s s' : σ} {a : α} (h : x s = (.ok a, s')) :
    mapError f x s = (.ok a, s') := zoom_of_ok h

theorem mapError_of_error {f : ε → ε'} {s s' : σ} {e : ε} (h : x s = (.error e, s')) :
    mapError f x s = (.error (f e), s') := zoom_of_error h

/-- From every state of `P`, `x` returns a value and a state of `Q`, or fails in a state of `E`. -/
def Triple (P : σ → Prop) (x : Prog σ ε α) (Q : α → σ → Prop) (E : σ → Prop) : Prop :=
  ∀ s, P s → match x s with
    | (.ok a, s') => Q a s'
    | (.error _, s') => E s'

namespace Triple

variable {P : σ → Prop} {Q : β → σ → Prop} {R : α → σ → Prop} {E : σ → Prop}

theorem of_run {s s' : σ} {a : α} (h : Triple P x R E) (hP : P s) (hr : x s = (.ok a, s')) :
    R a s' := by
  have := h s hP
  rwa [hr] at this

theorem of_run_error {s s' : σ} {e : ε} (h : Triple P x R E) (hP : P s) (hr : x s = (.error e, s')) :
    E s' := by
  have := h s hP
  rwa [hr] at this

/-! The rules from one state, which a run of the program follows. -/

theorem of_eq (h : ∀ s, P s → Triple (· = s) x R E) : Triple P x R E :=
  fun s hs => h s hs s rfl

theorem get_bind {f : σ → Prog σ ε β} {s : σ} (h : Triple (· = s) (f s) Q E) :
    Triple (· = s) (MonadState.get >>= f) Q E := by
  rintro _ rfl
  exact h _ rfl

theorem modify_bind {g : σ → σ} {f : PUnit → Prog σ ε β} {s : σ}
    (h : Triple (· = g s) (f ⟨⟩) Q E) : Triple (· = s) ((modify g : Prog σ ε PUnit) >>= f) Q E := by
  rintro _ rfl
  exact h _ rfl

theorem throw_bind {e : ε} (h : ∀ s, P s → E s) :
    Triple P ((MonadExcept.throw e : Prog σ ε α) >>= f) Q E := h

/-- A program whose run is known goes on from the state it leaves. -/
theorem run_bind {s s' : σ} {a : α} (hx : x s = (.ok a, s')) (h : Triple (· = s') (f a) Q E) :
    Triple (· = s) (x >>= f) Q E := by
  rintro _ rfl
  rw [bind_of_ok hx]
  exact h s' rfl

/-- A program that only reads goes on from the state it began in. -/
theorem reads_bind {s : σ} (hx : ∀ s, (x s).2 = s) (hE : E s) (hf : ∀ a, Triple (· = s) (f a) Q E) :
    Triple (· = s) (x >>= f) Q E := by
  intro s' hs
  subst s'
  have hst := hx s
  rw [bind_run]
  rcases hr : x s with ⟨_ | a, s₁⟩ <;> rw [hr] at hst <;> cases hst
  · exact hE
  · exact hf a _ rfl

theorem pure {a : α} (h : ∀ s, P s → R a s) : Triple P (Pure.pure a : Prog σ ε α) R E := h

theorem throw {e : ε} (h : ∀ s, P s → E s) :
    Triple P (MonadExcept.throw e : Prog σ ε α) R E := h

theorem get {R : σ → σ → Prop} (h : ∀ s, P s → R s s) :
    Triple P (MonadState.get : Prog σ ε σ) R E := h

theorem modify {f : σ → σ} {R : PUnit → σ → Prop} (h : ∀ s, P s → R ⟨⟩ (f s)) :
    Triple P (modify f : Prog σ ε PUnit) R E := h

theorem set {s : σ} {R : PUnit → σ → Prop} (h : R ⟨⟩ s) :
    Triple P (MonadStateOf.set s : Prog σ ε PUnit) R E := fun _ _ => h

theorem bind (hx : Triple P x R E) (hf : ∀ a, Triple (R a) (f a) Q E) : Triple P (x >>= f) Q E := by
  intro s hs
  have hR := hx s hs
  rw [bind_run]
  rcases hr : x s with ⟨_ | a, s'⟩ <;> rw [hr] at hR
  · exact hR
  · exact hf a s' hR

theorem conseq {P' : σ → Prop} {R' : α → σ → Prop} {E' : σ → Prop} (hx : Triple P' x R' E')
    (hP : ∀ s, P s → P' s) (hR : ∀ a s, R' a s → R a s) (hE : ∀ s, E' s → E s) :
    Triple P x R E := by
  intro s hs
  have h := hx s (hP s hs)
  rcases hr : x s with ⟨_ | a, s'⟩ <;> rw [hr] at h
  · exact hE _ h
  · exact hR _ _ h

theorem any : Triple P x (fun _ _ => True) fun _ => True := by
  intro s _
  rcases x s with ⟨_ | a, s'⟩ <;> trivial

theorem and {R' : α → σ → Prop} {E' : σ → Prop} (hx : Triple P x R E) (hx' : Triple P x R' E') :
    Triple P x (fun a s => R a s ∧ R' a s) fun s => E s ∧ E' s := by
  intro s hs
  have h := hx s hs
  have h' := hx' s hs
  rcases hr : x s with ⟨_ | a, s'⟩ <;> rw [hr] at h h'
  · exact ⟨h, h'⟩
  · exact ⟨h, h'⟩

theorem ofExcept {f : ε → ε'} {r : Except ε α} (hok : ∀ a s, r = .ok a → P s → R a s)
    (he : ∀ s, P s → E s) : Triple P (ofExcept f r : Prog σ ε' α) R E := by
  intro s hs
  cases r with
  | error e => exact he s hs
  | ok a => exact hok a s rfl hs

theorem attempt {F : σ → Prop} (hx : Triple P x R E) :
    Triple P (attempt x : Prog σ ε' (Except ε α))
      (fun r s => match r with
        | .ok a => R a s
        | .error _ => E s) F := by
  intro s hs
  have h := hx s hs
  simp only [Prog.attempt]
  rcases hr : x s with ⟨_ | a, s'⟩ <;> rw [hr] at h <;> exact h

theorem zoom {part : σ → τ} {update : σ → τ → σ} {f : ε → ε'} {x : Prog τ ε α}
    (h : ∀ s, P s → match x (part s) with
      | (.ok a, t) => R a (update s t)
      | (.error _, t) => E (update s t)) : Triple P (zoom part update f x) R E := by
  intro s hs
  have h := h s hs
  simp only [Prog.zoom]
  rcases hr : x (part s) with ⟨_ | a, t⟩ <;> rw [hr] at h <;> exact h

theorem mapError {f : ε → ε'} (h : Triple P x R E) : Triple P (mapError f x) R E :=
  zoom h

theorem ite {c : Prop} [Decidable c] {x y : Prog σ ε α} (hx : c → Triple P x R E)
    (hy : ¬ c → Triple P y R E) : Triple P (if c then x else y) R E := by
  split
  · exact hx ‹_›
  · exact hy ‹_›

end Triple

/-- Every value that `x` returns, from any state, is one of `P`. -/
def Returns (x : Prog σ ε α) (P : α → Prop) : Prop := ∀ s a s', x s = (.ok a, s') → P a

namespace Returns

variable {P : β → Prop} {R : α → Prop}

theorem pure {a : α} (h : R a) : Returns (Pure.pure a : Prog σ ε α) R := by
  intro s a' s' hr
  cases hr
  exact h

theorem throw {e : ε} : Returns (MonadExcept.throw e : Prog σ ε α) R := by
  intro s a s' hr
  cases hr

theorem ofExcept {f : ε → ε'} {r : Except ε α} (h : ∀ a, r = .ok a → R a) :
    Returns (ofExcept f r : Prog σ ε' α) R := by
  intro s a s' hr
  cases r with
  | error e => cases hr
  | ok a' =>
    cases hr
    exact h a rfl

theorem bind (hx : Returns x R) (hf : ∀ a, R a → Returns (f a) P) : Returns (x >>= f) P := by
  intro s b s' hr
  rw [bind_run] at hr
  rcases hr₁ : x s with ⟨e | a, s₁⟩ <;> rw [hr₁] at hr
  · cases hr
  · exact hf a (hx s a s₁ hr₁) s₁ b s' hr

/-- Nothing is asked of the first value. -/
theorem bind_any (hf : ∀ a, Returns (f a) P) : Returns (x >>= f) P :=
  bind (R := fun _ => True) (fun _ _ _ _ => trivial) fun a _ => hf a

theorem ite {c : Prop} [Decidable c] {x y : Prog σ ε α} (hx : c → Returns x R)
    (hy : ¬ c → Returns y R) : Returns (if c then x else y) R := by
  split
  · exact hx ‹_›
  · exact hy ‹_›

end Returns

theorem Triple.returns {P : σ → Prop} {Q : α → σ → Prop} {E : σ → Prop} {R : α → Prop}
    (h : Triple P x Q E) (hR : Returns x R) : Triple P x (fun a s => Q a s ∧ R a) E := by
  intro s hs
  have hQ := h s hs
  rcases hr : x s with ⟨_ | a, s'⟩ <;> rw [hr] at hQ
  · exact hQ
  · exact ⟨hQ, hR s a s' hr⟩

/-- `x` keeps the invariant `I`, whether it fails or not. -/
def Keeps (I : σ → Prop) (x : Prog σ ε α) : Prop := Triple I x (fun _ => I) I

namespace Keeps

variable {I : σ → Prop}

theorem state {s : σ} (h : Keeps I x) (hs : I s) : I (x s).2 := by
  have := h s hs
  rcases hr : x s with ⟨_ | a, s'⟩ <;> rw [hr] at this <;> exact this

theorem of_state (h : ∀ s, I s → I (x s).2) : Keeps I x := by
  intro s hs
  have := h s hs
  rcases hr : x s with ⟨_ | a, s'⟩ <;> rw [hr] at this <;> exact this

theorem from_state {s : σ} (h : Keeps I x) (hs : I s) : Triple (· = s) x (fun _ => I) I := by
  rintro _ rfl
  exact h _ hs

theorem pure {a : α} : Keeps I (Pure.pure a : Prog σ ε α) := fun _ hs => hs

theorem throw {e : ε} : Keeps I (MonadExcept.throw e : Prog σ ε α) := fun _ hs => hs

theorem get : Keeps I (MonadState.get : Prog σ ε σ) := fun _ hs => hs

theorem modify {f : σ → σ} (h : ∀ s, I s → I (f s)) : Keeps I (modify f : Prog σ ε PUnit) := h

theorem bind (hx : Keeps I x) (hf : ∀ a, Keeps I (f a)) : Keeps I (x >>= f) :=
  Triple.bind hx hf

theorem throw_bind {e : ε} : Keeps I ((MonadExcept.throw e : Prog σ ε α) >>= f) := fun _ hs => hs

theorem ofExcept {f : ε → ε'} {r : Except ε α} : Keeps I (ofExcept f r : Prog σ ε' α) :=
  Triple.ofExcept (fun _ _ _ hs => hs) fun _ hs => hs

theorem attempt (hx : Keeps I x) : Keeps I (attempt x : Prog σ ε' _) :=
  of_state fun s hs => by
    have := hx.state hs
    rw [Prog.attempt]
    rcases hr : x s with ⟨r, s'⟩
    rw [hr] at this
    exact this

theorem zoom {part : σ → τ} {update : σ → τ → σ} {f : ε → ε'} {x : Prog τ ε α}
    (h : ∀ s, I s → I (update s (x (part s)).2)) : Keeps I (zoom part update f x) :=
  of_state fun s hs => by
    have := h s hs
    rw [Prog.zoom]
    rcases hr : x (part s) with ⟨_ | a, t⟩ <;> rw [hr] at this <;> exact this

theorem mapError {f : ε → ε'} (hx : Keeps I x) : Keeps I (mapError f x) :=
  Triple.mapError hx

theorem ite {c : Prop} [Decidable c] {x y : Prog σ ε α} (hx : c → Keeps I x)
    (hy : ¬ c → Keeps I y) : Keeps I (if c then x else y) :=
  Triple.ite hx hy

/-- **Loops**: an invariant that each round keeps holds at the end. -/
theorem forM {xs : List α} {body : α → Prog σ ε PUnit} (h : ∀ a ∈ xs, Keeps I (body a)) :
    Keeps I (xs.forM body) := by
  induction xs with
  | nil => exact pure
  | cons a xs ih =>
    exact bind (h a List.mem_cons_self) fun _ => ih fun b hb => h b (List.mem_cons_of_mem _ hb)

end Keeps

/-- Where `x` returns a value, `y` returns the same value from every state related by `R`, and the
two states left are related by `Q`. -/
def Follows (R : σ → τ → Prop) (x : Prog σ ε α) (y : Prog τ ε' α) (Q : α → σ → τ → Prop) : Prop :=
  ∀ s t, R s t → ∀ a s', x s = (.ok a, s') → ∃ t', y t = (.ok a, t') ∧ Q a s' t'

namespace Follows

variable {R : σ → τ → Prop} {S : α → σ → τ → Prop} {Q : β → σ → τ → Prop}

theorem pure {a : α} (h : ∀ s t, R s t → S a s t) :
    Follows R (Pure.pure a : Prog σ ε α) (Pure.pure a : Prog τ ε' α) S := by
  intro s t hR a' s' hr
  cases hr
  exact ⟨t, rfl, h s t hR⟩

theorem throw_bind {γ : Type} {e : ε} {f : γ → Prog σ ε α} {y : Prog τ ε' α} :
    Follows R ((MonadExcept.throw e : Prog σ ε γ) >>= f) y S := by
  intro s t hR a s' hr
  cases hr

theorem ofExcept_bind {γ ε₁ ε₂ : Type} {h : γ → ε₁} {h' : γ → ε₂} {r : Except γ α}
    {f : α → Prog σ ε₁ β} {g : α → Prog τ ε₂ β}
    (hf : ∀ a, r = .ok a → Follows R (f a) (g a) Q) :
    Follows R (ofExcept h r >>= f) (ofExcept h' r >>= g) Q := by
  intro s t hR b s' hr
  cases r with
  | error e => cases hr
  | ok a => exact hf a rfl s t hR b s' hr

theorem modify {f : σ → σ} {g : τ → τ} {S : PUnit → σ → τ → Prop}
    (h : ∀ s t, R s t → S ⟨⟩ (f s) (g t)) :
    Follows R (modify f : Prog σ ε PUnit) (modify g : Prog τ ε' PUnit) S := by
  intro s t hR a s' hr
  cases hr
  exact ⟨g t, rfl, h s t hR⟩

theorem bind {y : Prog τ ε' α} {g : α → Prog τ ε' β} (hx : Follows R x y S)
    (hf : ∀ a, Follows (S a) (f a) (g a) Q) : Follows R (x >>= f) (y >>= g) Q := by
  intro s t hR b s' hr
  rw [bind_run] at hr
  rcases hr₁ : x s with ⟨e | a, s₁⟩ <;> rw [hr₁] at hr
  · cases hr
  · obtain ⟨t₁, hy, hS⟩ := hx s t hR a s₁ hr₁
    obtain ⟨t', hg, hQ⟩ := hf a s₁ t₁ hS b s' hr
    exact ⟨t', (bind_of_ok hy).trans hg, hQ⟩

/-- What the two runs read may differ, but only as far as `R` allows. -/
theorem get_bind {f : σ → Prog σ ε α} {g : τ → Prog τ ε' α}
    (h : ∀ s t, R s t → Follows R (f s) (g t) S) : Follows R (get >>= f) (get >>= g) S :=
  fun s t hR a s' hr => h s t hR s t hR a s' hr

theorem ite {c : Prop} [Decidable c] {x x' : Prog σ ε α} {y y' : Prog τ ε' α}
    (hx : c → Follows R x y S) (hy : ¬ c → Follows R x' y' S) :
    Follows R (if c then x else x') (if c then y else y') S := by
  split
  · exact hx ‹_›
  · exact hy ‹_›

theorem mapError {ε₁ ε₂ : Type} {f : ε → ε₁} {g : ε' → ε₂} {y : Prog τ ε' α} (h : Follows R x y S) :
    Follows R (mapError f x) (mapError g y) S := by
  intro s t hR a s' hr
  rw [Prog.mapError, zoom] at hr
  rcases hr₁ : x s with ⟨e | a', s₁⟩ <;> rw [hr₁] at hr <;> cases hr
  obtain ⟨t', hy, hS⟩ := h s t hR _ _ hr₁
  exact ⟨t', mapError_of_ok hy, hS⟩

end Follows

end Prog
