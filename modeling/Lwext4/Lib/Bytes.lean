/-
  Memory as bytes, and numbers stored in it.

  A memory is a function from addresses to bytes.  `Mem.write` stores a list of
  bytes, `Mem.read` reads one back; what is read outside the bytes written is
  what was there before.  `putBE` and `getBE` store and load a number of a
  given width in big-endian order, `putLE` and `getLE` in little-endian order.
-/
import Mathlib

namespace Lib

abbrev Byte := BitVec 8

abbrev Mem := ℕ → Byte

/-! ## Numbers as bytes -/

/-- The `w` low bytes of a number, least significant first. -/
def leBytes : ℕ → ℕ → List Byte
  | 0, _ => []
  | w + 1, n => BitVec.ofNat 8 n :: leBytes w (n / 256)

/-- The number with the given bytes, least significant first. -/
def leVal : List Byte → ℕ
  | [] => 0
  | b :: bs => b.toNat + 256 * leVal bs

@[simp] theorem length_leBytes (w n : ℕ) : (leBytes w n).length = w := by
  induction w generalizing n with
  | zero => rfl
  | succ w ih => simp [leBytes, ih]

theorem leVal_leBytes (w n : ℕ) : leVal (leBytes w n) = n % 256 ^ w := by
  induction w generalizing n with
  | zero => simp [leBytes, leVal, Nat.mod_one]
  | succ w ih =>
    have h : 256 ^ (w + 1) = 256 * 256 ^ w := Nat.pow_succ'
    rw [leBytes, leVal, ih, BitVec.toNat_ofNat, h, Nat.mod_mul]

theorem leVal_lt (bs : List Byte) : leVal bs < 256 ^ bs.length := by
  induction bs with
  | nil => simp [leVal]
  | cons b bs ih =>
    have hb := b.isLt
    rw [leVal, List.length_cons, Nat.pow_succ]
    omega

theorem leVal_append (as bs : List Byte) :
    leVal (as ++ bs) = leVal as + 256 ^ as.length * leVal bs := by
  induction as with
  | nil => simp [leVal]
  | cons a as ih =>
    rw [List.cons_append, leVal, leVal, ih, List.length_cons, Nat.pow_succ', Nat.mul_add,
      Nat.mul_assoc, Nat.add_assoc]

/-- The `w` low bytes of a number, most significant first. -/
def beBytes (w n : ℕ) : List Byte := (leBytes w n).reverse

/-- The number with the given bytes, most significant first. -/
def beVal (bs : List Byte) : ℕ := leVal bs.reverse

@[simp] theorem length_beBytes (w n : ℕ) : (beBytes w n).length = w := by simp [beBytes]

theorem beVal_beBytes (w n : ℕ) : beVal (beBytes w n) = n % 256 ^ w := by
  rw [beVal, beBytes, List.reverse_reverse, leVal_leBytes]

theorem beVal_lt (bs : List Byte) : beVal bs < 256 ^ bs.length := by
  have h := leVal_lt bs.reverse
  rwa [List.length_reverse] at h

/-! ## Reading and writing -/

namespace Mem

/-- The `n` bytes from address `a` on. -/
def read (m : Mem) : (a n : ℕ) → List Byte
  | _, 0 => []
  | a, n + 1 => m a :: read m (a + 1) n

/-- Store bytes from address `a` on. -/
def write (m : Mem) (a : ℕ) (bs : List Byte) : Mem := fun i =>
  if a ≤ i then (bs[i - a]?).getD (m i) else m i

@[simp] theorem length_read (m : Mem) (a n : ℕ) : (m.read a n).length = n := by
  induction n generalizing a with
  | zero => rfl
  | succ n ih => simp [read, ih]

theorem read_congr {m m' : Mem} {a n : ℕ} (h : ∀ i, a ≤ i → i < a + n → m i = m' i) :
    m.read a n = m'.read a n := by
  induction n generalizing a with
  | zero => rfl
  | succ n ih =>
    rw [read, read, h a le_rfl (by omega), ih fun i h1 h2 => h i (by omega) (by omega)]

theorem mem_read {m : Mem} {a n i : ℕ} (h1 : a ≤ i) (h2 : i < a + n) : m i ∈ m.read a n := by
  induction n generalizing a with
  | zero => omega
  | succ n ih =>
    rw [read, List.mem_cons]
    rcases Nat.eq_or_lt_of_le h1 with rfl | h1
    · exact .inl rfl
    · exact .inr (ih h1 (by omega))

theorem read_append (m : Mem) (a n k : ℕ) :
    m.read a (n + k) = m.read a n ++ m.read (a + n) k := by
  induction n generalizing a with
  | zero => simp [read]
  | succ n ih => rw [Nat.succ_add, read, read, ih, List.cons_append, Nat.add_assoc, Nat.add_comm 1]

/-- Outside the bytes written nothing changes. -/
theorem write_of_lt {m : Mem} {a i : ℕ} (bs : List Byte) (h : i < a) : m.write a bs i = m i :=
  if_neg (Nat.not_le.2 h)

theorem write_of_ge {m : Mem} {a i : ℕ} {bs : List Byte} (h : a + bs.length ≤ i) :
    m.write a bs i = m i := by
  rw [write, if_pos (by omega), List.getElem?_eq_none (by omega), Option.getD_none]

theorem read_write_of_disjoint {m : Mem} {a c n : ℕ} {bs : List Byte}
    (h : c + n ≤ a ∨ a + bs.length ≤ c) : (m.write a bs).read c n = m.read c n := by
  refine read_congr fun i h1 h2 => ?_
  rcases h with h | h
  · exact write_of_lt bs (by omega)
  · exact write_of_ge (by omega)

theorem write_nil (m : Mem) (a : ℕ) : m.write a [] = m := by
  funext i
  simp [write]

theorem write_cons (m : Mem) (a : ℕ) (b : Byte) (bs : List Byte) :
    (m.write a (b :: bs)) = (m.write a [b]).write (a + 1) bs := by
  funext i
  unfold write
  rcases Nat.lt_trichotomy i a with h | h | h
  · simp [Nat.not_le.2 h, show ¬ a + 1 ≤ i by omega]
  · subst h
    simp
  · have h1 : i - a = (i - (a + 1)) + 1 := by omega
    have h2 : (([b] : List Byte)[i - a]?) = none := List.getElem?_eq_none (by
      rw [List.length_singleton]
      omega)
    simp [h.le, show a + 1 ≤ i by omega, h1]

/-- What has been written is read back. -/
theorem read_write (m : Mem) (a : ℕ) (bs : List Byte) : (m.write a bs).read a bs.length = bs := by
  induction bs generalizing m a with
  | nil => rfl
  | cons b bs ih =>
    rw [write_cons, List.length_cons, read, ih]
    congr 1
    rw [write_of_lt bs (Nat.lt_succ_self a), write]
    simp

theorem getElem?_read (m : Mem) (a n i : ℕ) :
    (m.read a n)[i]? = if i < n then some (m (a + i)) else none := by
  induction n generalizing a i with
  | zero => simp [read]
  | succ n ih =>
    rw [read]
    cases i with
    | zero => simp
    | succ i =>
      rw [List.getElem?_cons_succ, ih, Nat.add_right_comm, Nat.add_assoc]
      simp only [Nat.add_lt_add_iff_right]

/-- Two writes one behind the other. -/
theorem write_append (m : Mem) (a : ℕ) (xs ys : List Byte) :
    m.write a (xs ++ ys) = (m.write a xs).write (a + xs.length) ys := by
  induction xs generalizing m a with
  | nil => rw [write_nil]; rfl
  | cons x xs ih =>
    rw [List.cons_append, write_cons, ih, write_cons m a x xs, List.length_cons, Nat.add_right_comm,
      Nat.add_assoc]

/-- Bytes copied to a buffer are read from there. -/
theorem read_write_read (q m : Mem) {c n u k : ℕ} (h : u + k ≤ n) :
    (q.write 0 (m.read c n)).read u k = m.read (c + u) k := by
  refine List.ext_getElem? fun i => ?_
  rw [getElem?_read, getElem?_read]
  by_cases hi : i < k
  · rw [if_pos hi, if_pos hi, write, if_pos (Nat.zero_le _), Nat.sub_zero, getElem?_read,
      if_pos (by omega), Option.getD_some, Nat.add_assoc]
  · rw [if_neg hi, if_neg hi]

/-- Bytes copied from another memory. -/
theorem write_read_apply (m q : Mem) {a c n i : ℕ} (h1 : a ≤ i) (h2 : i < a + n) :
    m.write a (q.read c n) i = q (c + (i - a)) := by
  rw [write, if_pos h1, getElem?_read, if_pos (by omega), Option.getD_some]

/-- Read, modify, write: only the modified bytes change. -/
theorem write_patch (m q : Mem) {c n u : ℕ} {bs : List Byte} (h : u + bs.length ≤ n) :
    m.write c (((q.write 0 (m.read c n)).write u bs).read 0 n) = m.write (c + u) bs := by
  funext i
  unfold write
  by_cases hc : c ≤ i
  · rw [if_pos hc, getElem?_read]
    by_cases hi : i - c < n
    · rw [if_pos hi, Option.getD_some, if_pos (Nat.zero_le _), Nat.zero_add, Nat.sub_zero, getElem?_read,
        if_pos hi, Option.getD_some, Nat.add_sub_cancel' hc]
      by_cases hu : u ≤ i - c
      · rw [if_pos hu, if_pos (by omega), Nat.sub_sub]
      · rw [if_neg hu, if_neg (by omega)]
    · have hnone : bs[i - (c + u)]? = none := List.getElem?_eq_none (by omega)
      rw [if_neg hi, Option.getD_none, hnone, Option.getD_none, ite_self]
  · rw [if_neg hc, if_neg (by omega)]

/-- Move `n` bytes from address `src` to `dst`; the two may overlap. -/
def move (m : Mem) (dst src n : ℕ) : Mem := fun i =>
  if dst ≤ i ∧ i < dst + n then m (src + (i - dst)) else m i

/-- Set `n` bytes from address `a` on. -/
def fill (m : Mem) (a n : ℕ) (b : Byte) : Mem := fun i => if a ≤ i ∧ i < a + n then b else m i

theorem read_move_of_disjoint {m : Mem} {dst src n c k : ℕ} (h : c + k ≤ dst ∨ dst + n ≤ c) :
    (m.move dst src n).read c k = m.read c k :=
  read_congr fun i h1 h2 => if_neg (by omega)

/-- What has been moved is read at its new place. -/
theorem read_move {m : Mem} {dst src n c k : ℕ} (h : c + k ≤ n) :
    (m.move dst src n).read (dst + c) k = m.read (src + c) k := by
  induction k generalizing c with
  | zero => rfl
  | succ k ih =>
    rw [read, read, Nat.add_assoc dst, Nat.add_assoc src, ih (by omega), move, if_pos (by omega),
      Nat.add_sub_cancel_left]

theorem read_fill {m : Mem} {a n c k : ℕ} {b : Byte} (h1 : a ≤ c) (h2 : c + k ≤ a + n) :
    (m.fill a n b).read c k = List.replicate k b := by
  induction k generalizing c with
  | zero => rfl
  | succ k ih =>
    rw [read, List.replicate_succ, ih (by omega) (by omega), fill, if_pos (by omega)]

theorem read_fill_of_disjoint {m : Mem} {a n c k : ℕ} {b : Byte} (h : c + k ≤ a ∨ a + n ≤ c) :
    (m.fill a n b).read c k = m.read c k :=
  read_congr fun i h1 h2 => if_neg (by omega)

end Mem

/-! ## Numbers in memory -/

/-- Store a number in `w` bytes, most significant first. -/
def putBE (m : Mem) (a w n : ℕ) : Mem := m.write a (beBytes w n)

/-- Load a number of `w` bytes, most significant first. -/
def getBE (m : Mem) (a w : ℕ) : ℕ := beVal (m.read a w)

/-- Store a number in `w` bytes, least significant first. -/
def putLE (m : Mem) (a w n : ℕ) : Mem := m.write a (leBytes w n)

/-- Load a number of `w` bytes, least significant first. -/
def getLE (m : Mem) (a w : ℕ) : ℕ := leVal (m.read a w)

theorem getBE_putBE (m : Mem) (a w n : ℕ) : getBE (putBE m a w n) a w = n % 256 ^ w := by
  have h := Mem.read_write m a (beBytes w n)
  rw [length_beBytes] at h
  rw [getBE, putBE, h, beVal_beBytes]

theorem getLE_putLE (m : Mem) (a w n : ℕ) : getLE (putLE m a w n) a w = n % 256 ^ w := by
  have h := Mem.read_write m a (leBytes w n)
  rw [length_leBytes] at h
  rw [getLE, putLE, h, leVal_leBytes]

theorem getBE_lt (m : Mem) (a w : ℕ) : getBE m a w < 256 ^ w := by
  have h := beVal_lt (m.read a w)
  rwa [Mem.length_read] at h

theorem getLE_lt (m : Mem) (a w : ℕ) : getLE m a w < 256 ^ w := by
  have h := leVal_lt (m.read a w)
  rwa [Mem.length_read] at h

/-- A number in two parts. -/
theorem getLE_add (m : Mem) (a n k : ℕ) :
    getLE m a (n + k) = getLE m a n + 256 ^ n * getLE m (a + n) k := by
  rw [getLE, Mem.read_append, leVal_append, Mem.length_read]
  rfl

theorem getBE_write_of_disjoint {m : Mem} {a c w : ℕ} {bs : List Byte}
    (h : c + w ≤ a ∨ a + bs.length ≤ c) : getBE (m.write a bs) c w = getBE m c w := by
  rw [getBE, Mem.read_write_of_disjoint h, getBE]

theorem getLE_write_of_disjoint {m : Mem} {a c w : ℕ} {bs : List Byte}
    (h : c + w ≤ a ∨ a + bs.length ≤ c) : getLE (m.write a bs) c w = getLE m c w := by
  rw [getLE, Mem.read_write_of_disjoint h, getLE]

theorem getBE_putBE_of_disjoint {m : Mem} {a c w w' n : ℕ} (h : c + w' ≤ a ∨ a + w ≤ c) :
    getBE (putBE m a w n) c w' = getBE m c w' :=
  getBE_write_of_disjoint (by rwa [length_beBytes])

theorem getLE_putLE_of_disjoint {m : Mem} {a c w w' n : ℕ} (h : c + w' ≤ a ∨ a + w ≤ c) :
    getLE (putLE m a w n) c w' = getLE m c w' :=
  getLE_write_of_disjoint (by rwa [length_leBytes])

theorem getBE_congr {m m' : Mem} {a w : ℕ} (h : ∀ i, a ≤ i → i < a + w → m i = m' i) :
    getBE m a w = getBE m' a w := by
  rw [getBE, getBE, Mem.read_congr h]

theorem getLE_congr {m m' : Mem} {a w : ℕ} (h : ∀ i, a ≤ i → i < a + w → m i = m' i) :
    getLE m a w = getLE m' a w := by
  rw [getLE, getLE, Mem.read_congr h]

/-- The same bytes at another place are the same number. -/
theorem getLE_shift {m m' : Mem} {a c w : ℕ} (h : ∀ j < w, m (a + j) = m' (c + j)) :
    getLE m a w = getLE m' c w := by
  have hread : m.read a w = m'.read c w := by
    refine List.ext_getElem? fun i => ?_
    rw [Mem.getElem?_read, Mem.getElem?_read]
    split_ifs with hi
    · rw [h i hi]
    · rfl
  rw [getLE, getLE, hread]

theorem putBE_of_lt {m : Mem} {a w n i : ℕ} (h : i < a) : putBE m a w n i = m i :=
  Mem.write_of_lt _ h

theorem putBE_of_ge {m : Mem} {a w n i : ℕ} (h : a + w ≤ i) : putBE m a w n i = m i :=
  Mem.write_of_ge (by rwa [length_beBytes])

theorem putLE_of_lt {m : Mem} {a w n i : ℕ} (h : i < a) : putLE m a w n i = m i :=
  Mem.write_of_lt _ h

theorem putLE_of_ge {m : Mem} {a w n i : ℕ} (h : a + w ≤ i) : putLE m a w n i = m i :=
  Mem.write_of_ge (by rwa [length_leBytes])

/-- What is stored does not depend on what was there. -/
theorem putLE_congr {m m' : Mem} {a w n i : ℕ} (h1 : a ≤ i) (h2 : i < a + w) :
    putLE m a w n i = putLE m' a w n i := by
  have h : i - a < (leBytes w n).length := by
    rw [length_leBytes]
    omega
  rw [putLE, putLE, Mem.write, Mem.write, if_pos h1, if_pos h1, List.getElem?_eq_getElem h]
  rfl

/-- What is stored does not depend on what was there. -/
theorem putBE_congr {m m' : Mem} {a w n i : ℕ} (h1 : a ≤ i) (h2 : i < a + w) :
    putBE m a w n i = putBE m' a w n i := by
  have h : i - a < (beBytes w n).length := by
    rw [length_beBytes]
    omega
  rw [putBE, putBE, Mem.write, Mem.write, if_pos h1, if_pos h1, List.getElem?_eq_getElem h]
  rfl

theorem getLE_eq_zero_iff {m : Mem} {a w : ℕ} :
    getLE m a w = 0 ↔ ∀ i, a ≤ i → i < a + w → m i = 0 := by
  induction w generalizing a with
  | zero => exact iff_of_true rfl fun i h1 h2 => by omega
  | succ w ih =>
    have hsucc : getLE m a (w + 1) = (m a).toNat + 256 * getLE m (a + 1) w := rfl
    have hzero : (m a).toNat = 0 ↔ m a = 0 := by
      rw [← BitVec.toNat_inj]
      rfl
    rw [hsucc, Nat.add_eq_zero_iff, hzero, Nat.mul_eq_zero, or_iff_right (by decide), ih]
    constructor
    · rintro ⟨h0, h⟩ i h1 h2
      rcases Nat.eq_or_lt_of_le h1 with rfl | h1
      · exact h0
      · exact h i h1 (by omega)
    · exact fun h => ⟨h a le_rfl (by omega), fun i h1 h2 => h i (by omega) (by omega)⟩

/-! ## The lowest byte -/

theorem beVal_concat (bs : List Byte) (b : Byte) : beVal (bs ++ [b]) = b.toNat + 256 * beVal bs := by
  rw [beVal, List.reverse_append, List.reverse_singleton, List.singleton_append, leVal, beVal]

/-- The last byte of a number is its lowest. -/
theorem getBE_mod (m : Mem) (a w : ℕ) : getBE m a (w + 1) % 256 = (m (a + w)).toNat := by
  have hb := (m (a + w)).isLt
  rw [getBE, Mem.read_append, Mem.read, Mem.read, beVal_concat, Nat.add_mul_mod_self_left]
  exact Nat.mod_eq_of_lt hb

theorem putBE_last (m : Mem) (a w n : ℕ) : putBE m a (w + 1) n (a + w) = BitVec.ofNat 8 n := by
  have h := getBE_mod (putBE m a (w + 1) n) a w
  rw [getBE_putBE, Nat.mod_mod_of_dvd _ ⟨256 ^ w, Nat.pow_succ'⟩] at h
  apply BitVec.eq_of_toNat_eq
  rw [BitVec.toNat_ofNat, ← h]

end Lib
