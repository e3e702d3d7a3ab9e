/-
  Programs over a mutable state that may fail, and triples about them.

  A program returns a value or an error together with the state it leaves; the
  state reached before a failure is kept.  `Sat P x Q E` says that from every
  state in `P`, `x` either returns a value with the outcome in `Q` or an error
  with the outcome in `E`.
-/
import Mathlib

namespace Lib

variable {ε σ α β : Type}

/-- A program with errors in `ε`, state `σ` and result `α`. -/
def Prog (ε σ α : Type) := σ → Except ε α × σ

namespace Prog

protected def pure (a : α) : Prog ε σ α := fun s => (.ok a, s)

protected def bind (x : Prog ε σ α) (f : α → Prog ε σ β) : Prog ε σ β := fun s =>
  match x s with
  | (.ok a, s') => f a s'
  | (.error e, s') => (.error e, s')

instance : Monad (Prog ε σ) where
  pure := Prog.pure
  bind := Prog.bind

/-- Fail with `e`. -/
def fail (e : ε) : Prog ε σ α := fun s => (.error e, s)

/-- Read the state. -/
def get : Prog ε σ σ := fun s => (.ok s, s)

/-- Update the state. -/
def modify (f : σ → σ) : Prog ε σ Unit := fun s => (.ok (), f s)

theorem pure_run (a : α) (s : σ) : (pure a : Prog ε σ α) s = (.ok a, s) := rfl

theorem bind_ok {x : Prog ε σ α} {f : α → Prog ε σ β} {s s' : σ} {a : α}
    (h : x s = (.ok a, s')) : (x >>= f) s = f a s' := by
  show Prog.bind x f s = _
  simp [Prog.bind, h]

theorem bind_error {x : Prog ε σ α} {f : α → Prog ε σ β} {s s' : σ} {e : ε}
    (h : x s = (.error e, s')) : (x >>= f) s = (.error e, s') := by
  show Prog.bind x f s = _
  simp [Prog.bind, h]

theorem bind_run (x : Prog ε σ α) (f : α → Prog ε σ β) (s : σ) :
    (x >>= f) s = match x s with
      | (.ok a, s') => f a s'
      | (.error e, s') => (.error e, s') := by
  rcases hx : x s with ⟨a | a, s'⟩
  · rw [bind_error hx]
  · rw [bind_ok hx]

/-- A sequence that returns went through both its parts. -/
theorem bind_inv {x : Prog ε σ α} {f : α → Prog ε σ β} {s s' : σ} {b : β}
    (h : (x >>= f) s = (.ok b, s')) : ∃ a s₁, x s = (.ok a, s₁) ∧ f a s₁ = (.ok b, s') := by
  rcases hx : x s with ⟨e | a, s₁⟩
  · rw [bind_error hx] at h
    cases h
  · rw [bind_ok hx] at h
    exact ⟨a, s₁, rfl, h⟩

/-- The same where the first part is run under a condition only. -/
theorem when_inv {c : Prop} [Decidable c] {x : Prog ε σ Unit} {f : Unit → Prog ε σ β}
    {s s' : σ} {b : β} (h : (if c then x >>= f else f ()) s = (.ok b, s')) :
    ∃ s₁, (if c then x else pure ()) s = (.ok (), s₁) ∧ f () s₁ = (.ok b, s') := by
  split_ifs at h with hc
  · rw [if_pos hc]
    obtain ⟨a, s₁, h1, h2⟩ := bind_inv h
    exact ⟨s₁, h1, h2⟩
  · rw [if_neg hc]
    exact ⟨s, rfl, h⟩

theorem get_run (s : σ) : (get : Prog ε σ σ) s = (.ok s, s) := rfl

theorem modify_run (f : σ → σ) (s : σ) : (modify f : Prog ε σ Unit) s = (.ok (), f s) := rfl

theorem fail_run (e : ε) (s : σ) : (fail e : Prog ε σ α) s = (.error e, s) := rfl

/-! ## Triples -/

/-- From every state in `P`, `x` ends in `Q` (with its value) or in `E` (with
    its error). -/
def Sat (P : σ → Prop) (x : Prog ε σ α) (Q : α → σ → Prop) (E : ε → σ → Prop) : Prop :=
  ∀ s, P s → match x s with
    | (.ok a, s') => Q a s'
    | (.error e, s') => E e s'

variable {P P' : σ → Prop} {Q Q' : α → σ → Prop} {E E' : ε → σ → Prop}

theorem Sat.pure {a : α} (h : ∀ s, P s → Q a s) : Sat P (Pure.pure a : Prog ε σ α) Q E := h

theorem Sat.fail {e : ε} (h : ∀ s, P s → E e s) : Sat P (Prog.fail e : Prog ε σ α) Q E := h

theorem Sat.get {Q : σ → σ → Prop} (h : ∀ s, P s → Q s s) : Sat P (Prog.get : Prog ε σ σ) Q E := h

theorem Sat.modify {f : σ → σ} {Q : Unit → σ → Prop} (h : ∀ s, P s → Q () (f s)) :
    Sat P (Prog.modify f : Prog ε σ Unit) Q E := h

theorem Sat.true (P : σ → Prop) (x : Prog ε σ α) :
    Sat P x (fun _ _ => True) (fun _ _ => True) := by
  intro s _
  rcases x s with ⟨_ | _, _⟩ <;> trivial

theorem Sat.bind {x : Prog ε σ α} {f : α → Prog ε σ β} {R : β → σ → Prop}
    (hx : Sat P x Q E) (hf : ∀ a, Sat (Q a) (f a) R E) : Sat P (x >>= f) R E := by
  intro s hs
  have h := hx s hs
  rcases hxs : x s with ⟨a | a, s'⟩ <;> rw [hxs] at h
  · rw [bind_error hxs]; exact h
  · rw [bind_ok hxs]; exact hf a s' h

theorem Sat.conseq {x : Prog ε σ α} (h : Sat P x Q E) (hP : ∀ s, P' s → P s)
    (hQ : ∀ a s, Q a s → Q' a s) (hE : ∀ e s, E e s → E' e s) : Sat P' x Q' E' := by
  intro s hs
  have h := h s (hP s hs)
  rcases hxs : x s with ⟨a | a, s'⟩ <;> rw [hxs] at h
  · exact hE _ _ h
  · exact hQ _ _ h

theorem Sat.and {x : Prog ε σ α} {Q' : α → σ → Prop} {E' : ε → σ → Prop} (h : Sat P x Q E)
    (h' : Sat P x Q' E') : Sat P x (fun a s => Q a s ∧ Q' a s) (fun e s => E e s ∧ E' e s) := by
  intro s hs
  have h := h s hs
  have h' := h' s hs
  rcases hxs : x s with ⟨a | a, s'⟩ <;> rw [hxs] at h h' <;> exact ⟨h, h'⟩

theorem Sat.pre {x : Prog ε σ α} (h : Sat P x Q E) (hP : ∀ s, P' s → P s) : Sat P' x Q E :=
  h.conseq hP (fun _ _ => id) fun _ _ => id

/-- Reason about one starting state at a time. -/
theorem Sat.of_forall {x : Prog ε σ α} (h : ∀ s₀, P s₀ → Sat (· = s₀) x Q E) : Sat P x Q E :=
  fun s hs => h s hs s rfl

/-- Reading the state splits the reasoning into one starting state at a time. -/
theorem Sat.get_bind {f : σ → Prog ε σ β} {R : β → σ → Prop}
    (h : ∀ s₀, P s₀ → Sat (· = s₀) (f s₀) R E) : Sat P (Prog.get >>= f) R E :=
  fun s hs => h s hs s rfl

theorem Sat.modify_bind {g : σ → σ} {x : Prog ε σ β} {M : σ → Prop} {R : β → σ → Prop}
    (h : Sat M x R E) (hg : ∀ s, P s → M (g s)) :
    Sat P (Prog.modify g >>= fun _ => x) R E :=
  fun s hs => h (g s) (hg s hs)

theorem Sat.map {x : Prog ε σ α} {f : α → β} {R : β → σ → Prop} (h : Sat P x Q E)
    (hf : ∀ a s, Q a s → R (f a) s) : Sat P (f <$> x) R E :=
  Sat.bind h fun a => Sat.pure (hf a)

theorem Sat.ok {x : Prog ε σ α} (h : Sat P x Q E) {s s' : σ} (hs : P s) {a : α}
    (hx : x s = (.ok a, s')) : Q a s' := by
  have := h s hs
  rwa [hx] at this

theorem Sat.error {x : Prog ε σ α} (h : Sat P x Q E) {s s' : σ} (hs : P s) {e : ε}
    (hx : x s = (.error e, s')) : E e s' := by
  have := h s hs
  rwa [hx] at this

end Prog

end Lib
