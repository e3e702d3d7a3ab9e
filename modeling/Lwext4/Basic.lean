/-
  Common ground of the lwext4 model: error codes and 32-bit arithmetic.

  Integers are `ℕ` wherever the source cannot overflow.  Where a `uint32_t`
  wraps and the wrapped value is used, the wrap is written out with `u32` and
  `sub32`.
-/
import Mathlib

namespace Lwext4

/-- The error codes the modelled functions return.  `EOK` is success and is
    not a constructor. -/
inductive Errno where
  | EIO | ENOMEM | EINVAL | ENOSPC | ENXIO | ENOTSUP | EPERM | ENOENT | EEXIST | ENODATA | ERANGE
  | EROFS | ENOTEMPTY | ENOTDIR | ENODEV | BAD_DX_DIR
  deriving DecidableEq, Repr

/-- How a call ends when it does not return `EOK`: with an error code, or in
    the endless loop of a failed `ext4_assert`. -/
inductive Stop where
  | rc (e : Errno)
  | assert
  deriving DecidableEq, Repr

/-- The value stored in a `uint32_t`. -/
@[irreducible] def u32 (n : ℕ) : ℕ := n % 2 ^ 32

/-- Subtraction of `uint32_t` values. -/
@[irreducible] def sub32 (a b : ℕ) : ℕ := (a + (2 ^ 32 - b)) % 2 ^ 32

/-- The value stored in a `uint64_t`. -/
@[irreducible] def u64 (n : ℕ) : ℕ := n % 2 ^ 64

/-- Subtraction of `uint64_t` values. -/
@[irreducible] def sub64 (a b : ℕ) : ℕ := (a + (2 ^ 64 - b)) % 2 ^ 64

theorem u32_of_lt {n : ℕ} (h : n < 2 ^ 32) : u32 n = n := by
  rw [u32, Nat.mod_eq_of_lt h]

theorem u32_lt (n : ℕ) : u32 n < 2 ^ 32 := by
  rw [u32]; exact Nat.mod_lt _ (by decide)

theorem u32_u32_add (q n : ℕ) : u32 (u32 q + n) = u32 (q + n) := by
  unfold u32
  exact Nat.mod_add_mod ..

theorem sub32_of_le {a b : ℕ} (h : b ≤ a) (ha : a < 2 ^ 32) : sub32 a b = a - b := by
  unfold sub32
  rw [show a + (2 ^ 32 - b) = a - b + 2 ^ 32 by omega, Nat.add_mod_right,
    Nat.mod_eq_of_lt (by omega)]

theorem u64_of_lt {n : ℕ} (h : n < 2 ^ 64) : u64 n = n := by
  rw [u64, Nat.mod_eq_of_lt h]

theorem sub64_of_le {a b : ℕ} (h : b ≤ a) (ha : a < 2 ^ 64) : sub64 a b = a - b := by
  unfold sub64
  rw [show a + (2 ^ 64 - b) = a - b + 2 ^ 64 by omega, Nat.add_mod_right,
    Nat.mod_eq_of_lt (by omega)]

end Lwext4
