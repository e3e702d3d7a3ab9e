/-
  Records of various lengths packed one behind the other.

  `Packed P a c es` says that the records `es` fill the range from `a` to `c`
  without a gap, where `P a b e` says that the record `e` lies in `[a, b)`.
  Records can be taken apart and put together (`packed_append`), and a change
  outside their range does not affect them (`Packed.mono`).
-/
import Mathlib

namespace Lib

/-- The records fill the range. -/
inductive Packed {α : Type} (P : ℕ → ℕ → α → Prop) : ℕ → ℕ → List α → Prop
  | nil {a} : Packed P a a []
  | cons {a b c e es} : P a b e → a < b → Packed P b c es → Packed P a c (e :: es)

variable {α : Type} {P Q : ℕ → ℕ → α → Prop} {a b c : ℕ} {e : α} {es es₁ es₂ : List α}

theorem Packed.le (h : Packed P a c es) : a ≤ c := by
  induction h with
  | nil => exact le_rfl
  | cons _ hlt _ ih => exact hlt.le.trans ih

/-- Every record takes at least one place. -/
theorem Packed.length_le (h : Packed P a c es) : a + es.length ≤ c := by
  induction h with
  | nil => exact le_rfl
  | cons _ hlt _ ih =>
    rw [List.length_cons]
    omega

theorem Packed.eq_nil (h : Packed P a a es) : es = [] := by
  have := h.length_le
  exact List.length_eq_zero_iff.1 (by omega)

theorem packed_append : Packed P a c (es₁ ++ es₂) ↔ ∃ b, Packed P a b es₁ ∧ Packed P b c es₂ := by
  constructor
  · intro h
    induction es₁ generalizing a with
    | nil => exact ⟨a, .nil, h⟩
    | cons e es ih =>
      cases h with
      | cons he hlt h =>
        obtain ⟨b, h1, h2⟩ := ih h
        exact ⟨b, .cons he hlt h1, h2⟩
  · rintro ⟨b, h1, h2⟩
    induction h1 with
    | nil => exact h2
    | cons he hlt _ ih => exact .cons he hlt (ih h2)

theorem Packed.append (h1 : Packed P a b es₁) (h2 : Packed P b c es₂) : Packed P a c (es₁ ++ es₂) :=
  packed_append.2 ⟨b, h1, h2⟩

/-- What holds of each record in its place. -/
theorem Packed.mono (h : Packed P a c es) (hPQ : ∀ i j e, a ≤ i → j ≤ c → P i j e → Q i j e) :
    Packed Q a c es := by
  induction h with
  | nil => exact .nil
  | cons he hlt h ih =>
    have hle := h.le
    exact .cons (hPQ _ _ _ le_rfl hle he) hlt
      (ih fun i j e h1 h2 => hPQ i j e (hlt.le.trans h1) h2)

theorem Packed.single (he : P a b e) (hlt : a < b) : Packed P a b [e] := .cons he hlt .nil

/-- Each record has its place. -/
theorem Packed.mem (h : Packed P a c es) (he : e ∈ es) :
    ∃ i j, P i j e ∧ a ≤ i ∧ i < j ∧ j ≤ c := by
  obtain ⟨l₁, l₂, rfl⟩ := List.append_of_mem he
  obtain ⟨i, h1, h2⟩ := packed_append.1 h
  cases h2 with
  | cons he hlt h2 => exact ⟨i, _, he, h1.le, hlt, h2.le⟩

/-- What divides the length of each record divides the length of the range. -/
theorem Packed.dvd {n : ℕ} (h : Packed P a c es) (hP : ∀ i j e, P i j e → n ∣ j - i) : n ∣ c - a := by
  induction h with
  | nil => simp
  | cons he hlt h ih =>
    have hle := h.le
    rw [← Nat.sub_add_sub_cancel hle hlt.le]
    exact Nat.dvd_add ih (hP _ _ _ he)

theorem Packed.ne_nil (h : Packed P a c es) (hlt : a < c) : es ≠ [] := by
  rintro rfl
  cases h
  exact absurd hlt (lt_irrefl _)

end Lib
