/-
  Positions on a ring of blocks.

  Offsets count on for ever; offset `k` is the block `pos first size k` of a
  ring of `size` blocks that begins at `first`.
-/
import Mathlib

namespace Ring

/-- The block at offset `k`. -/
def pos (first size k : ℕ) : ℕ := first + k % size

variable {first size i j k n : ℕ}

theorem le_pos : first ≤ pos first size k := Nat.le_add_right ..

theorem pos_lt (hs : 0 < size) : pos first size k < first + size :=
  Nat.add_lt_add_left (Nat.mod_lt _ hs) _

theorem pos_zero : pos first size 0 = first := by
  rw [pos, Nat.zero_mod, Nat.add_zero]

theorem pos_add_size : pos first size (k + size) = pos first size k := by
  rw [pos, pos, Nat.add_mod_right]

/-- One subtraction brings an offset of at most `size` back into the ring. -/
theorem pos_add (hn : n ≤ size) (hs : 0 < size) : pos first size (k + n) =
    if first + size ≤ pos first size k + n then pos first size k + n - size
    else pos first size k + n := by
  have hk : k % size < size := Nat.mod_lt _ hs
  have hadd : (k + n) % size = (k % size + n) % size := by rw [Nat.mod_add_mod]
  unfold pos
  rw [hadd]
  split_ifs with h
  · have hmod : (k % size + n) % size = k % size + n - size := by
      rw [Nat.mod_eq_sub_mod (by omega), Nat.mod_eq_of_lt (by omega)]
    omega
  · rw [Nat.mod_eq_of_lt (by omega)]
    omega

/-- Offsets less than a round apart are different blocks. -/
theorem pos_inj (h : pos first size i = pos first size j) (hle : i ≤ j) (hlt : j < i + size) : i = j := by
  have hmod : i % size = j % size := Nat.add_left_cancel h
  have hdvd : size ∣ j - i := (Nat.modEq_iff_dvd' hle).1 hmod
  obtain ⟨q, hq⟩ := hdvd
  cases q with
  | zero => omega
  | succ q =>
    have hge : size ≤ size * (q + 1) := Nat.le_mul_of_pos_right _ (Nat.succ_pos q)
    omega

theorem pos_ne (hle : i < j) (hlt : j < i + size) : pos first size i ≠ pos first size j :=
  fun h => absurd (pos_inj h hle.le hlt) hle.ne

end Ring
