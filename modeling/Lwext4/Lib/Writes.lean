/-
  Lists of writes to a store: what a place holds when they have been made one
  after the other.
-/
import Mathlib

namespace Lib

variable {κ β : Type} [DecidableEq κ]

/-- The writes, one after the other. -/
def putAll (ws : List (κ × β)) (d : κ → β) : κ → β :=
  ws.foldl (fun d w => Function.update d w.1 w.2) d

theorem putAll_cons (w : κ × β) (ws : List (κ × β)) (d : κ → β) :
    putAll (w :: ws) d = putAll ws (Function.update d w.1 w.2) := rfl

/-- A place that no write goes to keeps what it held. -/
theorem putAll_of_notMem {ws : List (κ × β)} {d : κ → β} {a : κ} (h : a ∉ ws.map Prod.fst) :
    putAll ws d a = d a := by
  induction ws generalizing d with
  | nil => rfl
  | cons w ws ih =>
    rw [List.map_cons, List.mem_cons, not_or] at h
    rw [putAll_cons, ih h.2, Function.update_of_ne h.1]

/-- **With different places each holds what was written to it.** -/
theorem putAll_of_mem {ws : List (κ × β)} {d : κ → β} {a : κ} {b : β}
    (hnd : (ws.map Prod.fst).Nodup) (h : (a, b) ∈ ws) : putAll ws d a = b := by
  induction ws generalizing d with
  | nil => cases h
  | cons w ws ih =>
    rw [List.map_cons, List.nodup_cons] at hnd
    rw [putAll_cons]
    rcases List.mem_cons.1 h with rfl | h
    · rw [putAll_of_notMem hnd.1, Function.update_self]
    · exact ih hnd.2 h

/-! ## Writes made again -/

section Absorb

variable {α σ : Type} {f : σ → α → σ} {as bs : List α}

/-- A write is lost where a later one goes to the same place. -/
theorem foldl_absorb_one (key : α → κ)
    (hsame : ∀ a ∈ as, ∀ b ∈ as, ∀ s, key a = key b → f (f s b) a = f s a)
    (hcomm : ∀ a ∈ as, ∀ b ∈ as, ∀ s, key a ≠ key b → f (f s b) a = f (f s a) b)
    {b : α} (hb : b ∈ as) (s : σ) : as.foldl f (f s b) = as.foldl f s := by
  induction as generalizing s with
  | nil => cases hb
  | cons a as ih =>
    rw [List.foldl_cons, List.foldl_cons]
    by_cases hab : key a = key b
    · rw [hsame a List.mem_cons_self b hb s hab]
    · have hb' : b ∈ as := by
        rcases List.mem_cons.1 hb with rfl | hb
        · exact absurd rfl hab
        · exact hb
      rw [hcomm a List.mem_cons_self b hb s hab]
      refine ih (fun a ha b hb => hsame a (List.mem_cons_of_mem _ ha) b (List.mem_cons_of_mem _ hb))
        (fun a ha b hb => hcomm a (List.mem_cons_of_mem _ ha) b (List.mem_cons_of_mem _ hb)) hb' _

/-- **Writes can be made again**: what some of them did before is lost in all of them. -/
theorem foldl_absorb (key : α → κ)
    (hsame : ∀ a ∈ as, ∀ b ∈ as, ∀ s, key a = key b → f (f s b) a = f s a)
    (hcomm : ∀ a ∈ as, ∀ b ∈ as, ∀ s, key a ≠ key b → f (f s b) a = f (f s a) b)
    (hsub : bs ⊆ as) (s : σ) : as.foldl f (bs.foldl f s) = as.foldl f s := by
  induction bs using List.reverseRecOn with
  | nil => rfl
  | append_singleton bs b ih =>
    obtain ⟨hbs, hb⟩ := List.append_subset.1 hsub
    rw [List.foldl_append, List.foldl_cons, List.foldl_nil,
      foldl_absorb_one key hsame hcomm (hb List.mem_cons_self), ih hbs]

end Absorb

end Lib
