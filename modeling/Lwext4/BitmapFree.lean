/-
  `ext4_bmap_bits_free` as compiled: bit numbers are `uint32_t`, and with
  `CONFIG_UNALIGNED_ACCESS` whole words are zeroed before the byte loop.

  Main result: `bmapBitsFree32_exact`.  Each loop clears the range it steps over
  (`ClearedFrom`); the ranges are adjacent and add up to the one asked for.
-/
import Lwext4.Bitmap
import Lwext4.Lib.Bytes

namespace Lwext4

open Lib

variable {bmap b b' : Bmap} {sbit bcnt bits i p w : ℕ}

/-- The leading loop. -/
def bitsFreeHead32 (bmap : Bmap) (i : ℕ) : ℕ → Bmap × ℕ × ℕ
  | 0 => (bmap, i, 0)
  | bcnt + 1 =>
    if i &&& 7 = 0 then (bmap, i, bcnt + 1)
    else bitsFreeHead32 (bmapBitClr bmap i) (u32 (i + 1)) bcnt

/-- The word loops: zeroes `n` words of `w` bytes from byte `p` on. -/
def bitsFreeWords (bmap : Bmap) (w p : ℕ) : ℕ → Bmap
  | 0 => bmap
  | n + 1 => bitsFreeWords (putLE bmap p w 0) w (p + w) n

/-- The byte loop and the trailing one, from byte `p` on. -/
def bitsFreeRest (bmap : Bmap) (p bcnt : ℕ) : Bmap :=
  let bmap := bitsFreeBytes bmap p (bcnt / 8)
  bitsFreeTail bmap (8 * (p + bcnt / 8)) (bcnt % 8)

/-- What follows the leading loop with `CONFIG_UNALIGNED_ACCESS`. -/
def bitsFreeUnaligned (bmap : Bmap) (p bcnt : ℕ) : Bmap :=
  let bmap := bitsFreeWords bmap 4 p (bcnt / 32)
  let p := p + 4 * (bcnt / 32)
  let bcnt := bcnt % 32
  let bmap := bitsFreeWords bmap 2 p (bcnt / 16)
  let p := p + 2 * (bcnt / 16)
  bitsFreeRest bmap p (bcnt % 16)

/-- `ext4_bmap_bits_free`; the flag is `CONFIG_UNALIGNED_ACCESS`. -/
def bmapBitsFree32 (unaligned : Bool) (bmap : Bmap) (sbit bcnt : ℕ) : Bmap :=
  let (bmap, i, bcnt) := bitsFreeHead32 bmap sbit bcnt
  if unaligned then bitsFreeUnaligned bmap (i >>> 3) bcnt else bitsFreeRest bmap (i >>> 3) bcnt

/-! ## The bits decide the bytes -/

theorem bmap_ext (h : ∀ j, bmapIsBitSet b j = bmapIsBitSet b' j) : b = b' := by
  funext p
  refine BitVec.eq_of_getLsbD_eq fun k hk => ?_
  have hbit := h (8 * p + k)
  rw [bmapIsBitSet_eq, bmapIsBitSet_eq] at hbit
  rwa [show (8 * p + k) / 8 = p by omega, show (8 * p + k) % 8 = k by omega] at hbit

/-! ## What the loops clear -/

/-- Every byte of a word of zero is zero. -/
theorem putLE_zero (h1 : p ≤ i) (h2 : i < p + w) : putLE bmap p w 0 i = 0#8 := by
  have h : getLE (putLE bmap p w 0) p w = 0 := by
    rw [getLE_putLE, Nat.zero_mod]
  exact getLE_eq_zero_iff.mp h i h1 h2

theorem clearedFrom_word (bmap : Bmap) (w p : ℕ) :
    ClearedFrom bmap (putLE bmap p w 0) (8 * p) (8 * w) := by
  intro j
  rw [bmapIsBitSet_eq, bmapIsBitSet_eq]
  by_cases hin : p ≤ j / 8 ∧ j / 8 < p + w
  · have hbits : 8 * p ≤ j ∧ j < 8 * p + 8 * w := by omega
    rw [putLE_zero hin.1 hin.2]
    simp [hbits]
  · have hbits : ¬(8 * p ≤ j ∧ j < 8 * p + 8 * w) := by omega
    have hbyte : putLE bmap p w 0 (j / 8) = bmap (j / 8) := by
      obtain h | h := Nat.lt_or_ge (j / 8) p
      · exact putLE_of_lt h
      · exact putLE_of_ge (by omega)
    rw [hbyte, decide_eq_false hbits, Bool.not_false, Bool.and_true]

theorem clearedFrom_words (w : ℕ) : ∀ (n p : ℕ) (bmap : Bmap),
    ClearedFrom bmap (bitsFreeWords bmap w p n) (8 * p) (8 * (w * n))
  | 0, p, bmap => .refl bmap _
  | n + 1, p, bmap => by
    have h := clearedFrom_words w n (p + w) (putLE bmap p w 0)
    have hsum : 8 * (w * (n + 1)) = 8 * w + 8 * (w * n) := by
      rw [Nat.mul_succ]
      omega
    rw [hsum]
    exact (clearedFrom_word bmap w p).trans (by rwa [← Nat.mul_add])

theorem clearedFrom_rest (bmap : Bmap) (p bcnt : ℕ) :
    ClearedFrom bmap (bitsFreeRest bmap p bcnt) (8 * p) bcnt := by
  have hbytes := clearedFrom_bytes (bcnt / 8) p bmap
  have htail := clearedFrom_tail (bcnt % 8) (8 * (p + bcnt / 8)) (bitsFreeBytes bmap p (bcnt / 8))
  rw [Nat.mul_add] at htail
  have h := hbytes.trans htail
  rwa [Nat.div_add_mod, ← Nat.mul_add] at h

theorem clearedFrom_unaligned (bmap : Bmap) (p bcnt : ℕ) :
    ClearedFrom bmap (bitsFreeUnaligned bmap p bcnt) (8 * p) bcnt := by
  have h4 := clearedFrom_words 4 (bcnt / 32) p bmap
  have h2 := clearedFrom_words 2 (bcnt % 32 / 16) (p + 4 * (bcnt / 32))
    (bitsFreeWords bmap 4 p (bcnt / 32))
  have hrest := clearedFrom_rest
    (bitsFreeWords (bitsFreeWords bmap 4 p (bcnt / 32)) 2 (p + 4 * (bcnt / 32)) (bcnt % 32 / 16))
    (p + 4 * (bcnt / 32) + 2 * (bcnt % 32 / 16)) (bcnt % 32 % 16)
  rw [Nat.mul_add] at h2 hrest
  rw [Nat.mul_add 8 p] at hrest
  have h := h4.trans (h2.trans hrest)
  rwa [show 8 * (4 * (bcnt / 32)) + (8 * (2 * (bcnt % 32 / 16)) + bcnt % 32 % 16) = bcnt by omega]
    at h

/-- The bit number does not wrap before the bits are used up. -/
theorem bitsFreeHead32_eq : ∀ (bcnt i : ℕ) (bmap : Bmap), i + bcnt ≤ 2 ^ 32 →
    let r := bitsFreeHead bmap i bcnt
    (bitsFreeHead32 bmap i bcnt).1 = r.1 ∧ (bitsFreeHead32 bmap i bcnt).2.2 = r.2.2 ∧
      (r.2.2 ≠ 0 → (bitsFreeHead32 bmap i bcnt).2.1 = r.2.1)
  | 0, i, bmap, _ => ⟨rfl, rfl, fun _ => rfl⟩
  | bcnt + 1, i, bmap, hle => by
    unfold bitsFreeHead bitsFreeHead32
    split_ifs with h
    · exact ⟨rfl, rfl, fun _ => rfl⟩
    · obtain hlt | heq := Nat.lt_or_eq_of_le (show i + 1 ≤ 2 ^ 32 by omega)
      · rw [u32_of_lt hlt]
        exact bitsFreeHead32_eq bcnt (i + 1) (bmapBitClr bmap i) (by omega)
      · -- the last bit number there is: nothing is left
        obtain rfl : bcnt = 0 := by omega
        exact ⟨rfl, rfl, fun h0 => absurd rfl h0⟩

/-- **Exactly the given range is cleared**, in either configuration. -/
theorem clearedFrom_bitsFree32 (unaligned : Bool) (bmap : Bmap) (h : sbit + bcnt ≤ 2 ^ 32) :
    ClearedFrom bmap (bmapBitsFree32 unaligned bmap sbit bcnt) sbit bcnt := by
  obtain ⟨hb, hc, hi⟩ := bitsFreeHead32_eq bcnt sbit bmap h
  obtain ⟨hsum, hle, hal, hhead⟩ := clearedFrom_head bcnt sbit bmap
  rw [bmapBitsFree32]
  generalize bitsFreeHead32 bmap sbit bcnt = r32 at *
  generalize bitsFreeHead bmap sbit bcnt = r at *
  obtain ⟨b32, i32, c32⟩ := r32
  obtain ⟨b, i, c⟩ := r
  simp only at hb hc hi hsum hle hal hhead ⊢
  subst hb hc
  have hrest : ∀ p, ClearedFrom b32
      (if unaligned then bitsFreeUnaligned b32 p c32 else bitsFreeRest b32 p c32) (8 * p) c32 := by
    intro p
    cases unaligned
    · exact clearedFrom_rest b32 p c32
    · exact clearedFrom_unaligned b32 p c32
  rw [shr_three]
  obtain hc0 | hc0 := Nat.eq_zero_or_pos c32
  · -- the leading loop did it all, wherever the others start
    have hdone := hrest (i32 / 8)
    rw [hc0] at hdone ⊢
    rw [show i - sbit = bcnt by omega] at hhead
    intro j
    have hnone : ¬(8 * (i32 / 8) ≤ j ∧ j < 8 * (i32 / 8) + 0) := by omega
    rw [hdone j, decide_eq_false hnone, Bool.not_false, Bool.and_true]
    exact hhead j
  · have hal8 : i % 8 = 0 := hal.resolve_left hc0.ne'
    rw [hi hc0.ne']
    have hnext := hrest (i / 8)
    rw [show 8 * (i / 8) = sbit + (i - sbit) by omega] at hnext
    have hall := hhead.trans hnext
    rwa [show i - sbit + c32 = bcnt by omega] at hall

/-- Both configurations compute what the block allocator's model computes. -/
theorem bmapBitsFree32_eq (unaligned : Bool) (bmap : Bmap) (h : sbit + bcnt ≤ 2 ^ 32) :
    bmapBitsFree32 unaligned bmap sbit bcnt = bmapBitsFree bmap sbit bcnt := by
  refine bmap_ext fun j => ?_
  rw [clearedFrom_bitsFree32 unaligned bmap h j, isBitSet_bitsFree]

/-- **What `ext4_bmap_bits_free` does** to a bitmap whose bits have `uint32_t`
    numbers. -/
theorem bmapBitsFree32_exact (unaligned : Bool) (bmap : Bmap) (hin : sbit + bcnt ≤ bits)
    (hbits : bits ≤ 2 ^ 32) :
    (∀ j, bmapIsBitSet (bmapBitsFree32 unaligned bmap sbit bcnt) j =
      if sbit ≤ j ∧ j < sbit + bcnt then false else bmapIsBitSet bmap j) ∧
    bmapBitsFree32 true bmap sbit bcnt = bmapBitsFree32 false bmap sbit bcnt := by
  have hle := hin.trans hbits
  constructor
  · intro j
    rw [clearedFrom_bitsFree32 unaligned bmap hle j]
    split_ifs with hj
    · rw [decide_eq_true hj, Bool.not_true, Bool.and_false]
    · rw [decide_eq_false hj, Bool.not_false, Bool.and_true]
  · rw [bmapBitsFree32_eq true bmap hle, bmapBitsFree32_eq false bmap hle]

/-- Bits 3 to 60 of a bitmap of 64: a head, a word, two bytes and a tail. -/
theorem bmapBitsFree32_exact_word :
    (∀ j, bmapIsBitSet (bmapBitsFree32 true (fun _ => 0xFF#8) 3 58) j =
      if 3 ≤ j ∧ j < 3 + 58 then false else bmapIsBitSet (fun _ => 0xFF#8) j) ∧
    bmapBitsFree32 true (fun _ => 0xFF#8) 3 58 = bmapBitsFree32 false (fun _ => 0xFF#8) 3 58 :=
  @bmapBitsFree32_exact 3 58 64 true _ (by decide) (by decide)

end Lwext4
