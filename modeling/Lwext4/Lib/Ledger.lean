/-
  Who holds what is allocated.

  Of the things that an allocator says are `used`, one party holds those of a
  list and others hold the rest (`Held`).  A call takes some things that are not
  used and gives some back; if what the party holds after it, with what it has
  given back, is what it held before, with what it has taken, then the party
  holds its things again (`Held.settle`).
-/
import Mathlib

namespace Lib

variable {α : Type}

/-- One party holds the things of the list, each once, others those of `base`, and
    nothing else is used. -/
structure Held (base used : α → Bool) (held : List α) : Prop where
  nodup : held.Nodup
  apart : ∀ x ∈ held, base x = false
  used : ∀ x, used x = true ↔ base x = true ∨ x ∈ held

/-- What is used once `taken` have been handed out and `freed` have come back. -/
def settle [DecidableEq α] (used : α → Bool) (taken freed : List α) (x : α) : Bool :=
  (used x || decide (x ∈ taken)) && !decide (x ∈ freed)

namespace Held
variable {base used : α → Bool} {held held' taken freed : List α}

theorem new (base : α → Bool) : Held base base [] where
  nodup := List.nodup_nil
  apart _ h := absurd h List.not_mem_nil
  used _ := by rw [or_iff_left List.not_mem_nil]

theorem not_used (h : Held base used held) {x : α} (hx : used x = false) :
    base x = false ∧ x ∉ held := by
  have hno := mt (h.used x).2 (by rw [hx]; decide)
  rwa [not_or, Bool.not_eq_true] at hno

variable [DecidableEq α]

/-- **A call that loses nothing** leaves the party what it should hold. -/
theorem settle (h : Held base used held) (hfresh : taken.Nodup)
    (hunused : ∀ x ∈ taken, used x = false) (hp : (held' ++ freed).Perm (held ++ taken)) :
    Held base (settle used taken freed) held' := by
  have hall : (held' ++ freed).Nodup := by
    refine hp.nodup_iff.2 (List.nodup_append.2 ⟨h.nodup, hfresh, ?_⟩)
    rintro x hx y hy rfl
    exact (h.not_used (hunused x hy)).2 hx
  have hbase : ∀ x ∈ held' ++ freed, base x = false := by
    intro x hx
    rcases List.mem_append.1 (hp.mem_iff.1 hx) with hx | hx
    · exact h.apart x hx
    · exact (h.not_used (hunused x hx)).1
  obtain ⟨hnodup, -, hdisj⟩ := List.nodup_append.1 hall
  refine ⟨hnodup, fun x hx => hbase x (List.mem_append_left _ hx), fun x => ?_⟩
  have hmem : x ∈ held' ∨ x ∈ freed ↔ x ∈ held ∨ x ∈ taken := by
    rw [← List.mem_append, hp.mem_iff, List.mem_append]
  have hused : Lib.settle used taken freed x = true ↔
      (base x = true ∨ x ∈ held' ∨ x ∈ freed) ∧ x ∉ freed := by
    rw [hmem, ← or_assoc, ← h.used]
    simp [Lib.settle]
  rw [hused]
  constructor
  · rintro ⟨hx | hx | hx, hno⟩
    · exact .inl hx
    · exact .inr hx
    · exact absurd hx hno
  · rintro (hx | hx)
    · refine ⟨.inl hx, fun hfreed => ?_⟩
      rw [hbase x (List.mem_append_right _ hfreed)] at hx
      cases hx
    · exact ⟨.inr (.inl hx), fun hfreed => hdisj x hx x hfreed rfl⟩

/-- Others take what is not used. -/
theorem otherTakes (h : Held base used held) {b : α} (hb : used b = false) :
    Held (Function.update base b true) (Function.update used b true) held where
  nodup := h.nodup
  apart x hx := by
    have hne : x ≠ b := by
      rintro rfl
      exact (h.not_used hb).2 hx
    rw [Function.update_of_ne hne]
    exact h.apart x hx
  used x := by
    by_cases hx : x = b
    · subst hx
      simp
    · rw [Function.update_of_ne hx, Function.update_of_ne hx]
      exact h.used x

/-- Others give back what they hold. -/
theorem otherFrees (h : Held base used held) {b : α} (hb : base b = true) :
    Held (Function.update base b false) (Function.update used b false) held where
  nodup := h.nodup
  apart x hx := by
    rw [Function.update_apply]
    split_ifs
    · rfl
    · exact h.apart x hx
  used x := by
    by_cases hx : x = b
    · subst hx
      have hno : x ∉ held := fun hmem => by
        rw [h.apart x hmem] at hb
        cases hb
      simp [hno]
    · rw [Function.update_of_ne hx, Function.update_of_ne hx]
      exact h.used x

end Held

end Lib
