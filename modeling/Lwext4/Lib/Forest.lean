/-
  Parent functions: a forest given by the function from a node to its parent.

  `Under up r x` says that following `up` from `x` reaches `r`.  A node that
  is hung elsewhere keeps the forest when its new parent does not lie under
  it (`Under.move`).
-/
import Mathlib

namespace Lib.Forest

variable {α : Type} {up : α → α} {r c q x y : α}

/-- `r` is `x` or lies above it. -/
def Under (up : α → α) (r x : α) : Prop := ∃ n, up^[n] x = r

theorem Under.refl : Under up r r := ⟨0, rfl⟩

theorem Under.of_up (h : Under up r (up x)) : Under up r x := by
  obtain ⟨n, hn⟩ := h
  exact ⟨n + 1, by rw [Function.iterate_succ_apply]; exact hn⟩

theorem Under.parent (h : Under up r x) : Under up (up r) x := by
  obtain ⟨n, hn⟩ := h
  exact ⟨n + 1, by rw [Function.iterate_succ_apply', hn]⟩

theorem under_iff : Under up r x ↔ x = r ∨ Under up r (up x) := by
  constructor
  · rintro ⟨n, hn⟩
    cases n with
    | zero => exact .inl hn
    | succ n => exact .inr ⟨n, by rw [← Function.iterate_succ_apply]; exact hn⟩
  · rintro (rfl | h)
    · exact .refl
    · exact h.of_up

/-- Above a node whose parent it is itself there is nothing else. -/
theorem under_fixed (h : up x = x) : Under up r x ↔ x = r := by
  constructor
  · rintro ⟨n, hn⟩
    rw [Function.iterate_fixed h n] at hn
    exact hn
  · rintro rfl
    exact .refl

/-- Only the root of a forest comes back to itself. -/
theorem Under.cycle (h : Under up r x) (hr : up r = r) {n : ℕ} (hn : up^[n + 1] x = x) : x = r := by
  obtain ⟨k, hk⟩ := h
  have hround : up^[(n + 1) * k] x = x := by
    rw [Function.iterate_mul]
    exact Function.iterate_fixed hn k
  have hle : (n + 1) * k = n * k + k := Nat.succ_mul n k
  rw [hle, Function.iterate_add_apply, hk, Function.iterate_fixed hr] at hround
  exact hround.symm

/-- Induction from the root down to a node. -/
theorem Under.induct {P : α → Prop} (h : Under up r x) (root : P r)
    (step : ∀ y, Under up r (up y) → P (up y) → P y) : P x := by
  obtain ⟨n, hn⟩ := h
  induction n generalizing x with
  | zero =>
    have : x = r := hn
    exact this ▸ root
  | succ n ih =>
    rw [Function.iterate_succ_apply] at hn
    exact step x ⟨n, hn⟩ (ih hn)

/-! ## Hanging a node elsewhere -/

section
variable [DecidableEq α]

theorem iterate_update (h : ¬ Under up c x) (n : ℕ) :
    (Function.update up c q)^[n] x = up^[n] x := by
  induction n with
  | zero => rfl
  | succ n ih =>
    rw [Function.iterate_succ_apply', Function.iterate_succ_apply', ih,
      Function.update_of_ne]
    exact fun e => h ⟨n, e⟩

theorem under_update (h : ¬ Under up c x) :
    Under (Function.update up c q) r x ↔ Under up r x := by
  unfold Under
  simp only [iterate_update h]

/-- **A node hung on a node that does not lie under it keeps the forest.** -/
theorem Under.move (hx : Under up r x) (hq : Under up r q) (hc : ¬ Under up c q) :
    Under (Function.update up c q) r x := by
  refine hx.induct .refl fun y _ ih => ?_
  by_cases hy : y = c
  · subst hy
    refine .of_up ?_
    rw [Function.update_self]
    exact (under_update hc).mpr hq
  · refine .of_up ?_
    rw [Function.update_of_ne hy]
    exact ih

end

end Lib.Forest
