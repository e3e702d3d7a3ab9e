/-
  Binary search for the end of the keys up to a bound.

  The search keeps a first and a last index of the part not yet decided.  The
  keys need be in order where it looks only.
-/
import Mathlib

namespace Lib

variable {κ : Type} [LinearOrder κ]

/-- The first index from `p` on whose key is above `x`, `q` being the last one;
    indices below `p` are decided. -/
def upperBound (key : ℕ → κ) (x : κ) : (fuel p q : ℕ) → ℕ
  | 0, p, _ => p
  | fuel + 1, p, q =>
    if p ≤ q then
      let m := p + (q - p) / 2
      if x < key m then upperBound key x fuel p (m - 1) else upperBound key x fuel (m + 1) q
    else p

/-- Keys in order between two indices. -/
def OrderedOn (key : ℕ → κ) (p q : ℕ) : Prop := ∀ i j, p ≤ i → i ≤ j → j ≤ q → key i ≤ key j

variable {key : ℕ → κ} {x : κ} {fuel p q i : ℕ}

theorem OrderedOn.mono {p' q' : ℕ} (h : OrderedOn key p q) (hp : p ≤ p') (hq : q' ≤ q) :
    OrderedOn key p' q' :=
  fun i j hi hij hj => h i j (hp.trans hi) hij (hj.trans hq)

/-- Where the search ends, whatever the keys are. -/
theorem upperBound_range (hp : 0 < p) (hpq : p ≤ q + 1) :
    p ≤ upperBound key x fuel p q ∧ upperBound key x fuel p q ≤ q + 1 := by
  induction fuel generalizing p q with
  | zero => exact ⟨le_rfl, hpq⟩
  | succ fuel ih =>
    rw [upperBound]
    split_ifs with h
    · dsimp only
      split_ifs with hx
      · have := @ih p (p + (q - p) / 2 - 1) hp (by omega)
        omega
      · have := @ih (p + (q - p) / 2 + 1) q (by omega) (by omega)
        omega
    · exact ⟨le_rfl, hpq⟩

/-- **The search finds** the boundary between the keys up to `x` and the keys
    above it. -/
theorem upperBound_spec (hp : 0 < p) (hpq : p ≤ q + 1) (hfuel : q + 1 - p ≤ fuel)
    (h : OrderedOn key p q) :
    (∀ i, p ≤ i → i < upperBound key x fuel p q → key i ≤ x) ∧
      (∀ i, upperBound key x fuel p q ≤ i → i ≤ q → x < key i) := by
  induction fuel generalizing p q with
  | zero =>
    refine ⟨fun i h1 h2 => ?_, fun i h1 h2 => ?_⟩
    · rw [upperBound] at h2
      omega
    · rw [upperBound] at h1
      omega
  | succ fuel ih =>
    rw [upperBound]
    split_ifs with hle
    · dsimp only
      have hm1 : p ≤ p + (q - p) / 2 := by omega
      have hm2 : p + (q - p) / 2 ≤ q := by omega
      generalize p + (q - p) / 2 = m at hm1 hm2
      split_ifs with hx
      · obtain ⟨hlow, hhigh⟩ := @ih p (m - 1) hp (by omega) (by omega) (h.mono le_rfl (by omega))
        refine ⟨hlow, fun i h1 h2 => ?_⟩
        rcases Nat.lt_or_ge i m with him | him
        · exact hhigh i h1 (by omega)
        · exact lt_of_lt_of_le hx (h m i hm1 him h2)
      · obtain ⟨hlow, hhigh⟩ :=
          @ih (m + 1) q (by omega) (by omega) (by omega) (h.mono (by omega) le_rfl)
        refine ⟨fun i h1 h2 => ?_, hhigh⟩
        rcases Nat.lt_or_ge m i with him | him
        · exact hlow i him h2
        · exact (h i m h1 him hm2).trans (not_lt.1 hx)
    · refine ⟨fun i h1 h2 => ?_, fun i h1 h2 => ?_⟩ <;> omega

end Lib
