/-
  `ext4_bitmap.c`: bitmaps as byte buffers.

  A buffer is the bytes found from its start address on, so a scan that runs
  past the bitmap block reads what follows it in memory.  The default build
  (`CONFIG_UNALIGNED_ACCESS` off) is modelled.

  Every operation is described by its effect on single bits
  (`bmapIsBitSet`): `isBitSet_bitSet`, `isBitSet_bitClr`, `isBitSet_bitsFree`
  and, for the search, `bmapBitFindClr_eq`.
-/
import Lwext4.Basic

namespace Lwext4

/-- A bitmap buffer. -/
abbrev Bmap := ℕ → BitVec 8

/-- `ext4_bmap_bit_set`. -/
def bmapBitSet (bmap : Bmap) (bit : ℕ) : Bmap :=
  Function.update bmap (bit >>> 3) (bmap (bit >>> 3) ||| 1#8 <<< (bit &&& 7))

/-- `ext4_bmap_bit_clr`. -/
def bmapBitClr (bmap : Bmap) (bit : ℕ) : Bmap :=
  Function.update bmap (bit >>> 3) (bmap (bit >>> 3) &&& ~~~(1#8 <<< (bit &&& 7)))

/-- `ext4_bmap_is_bit_set`. -/
def bmapIsBitSet (bmap : Bmap) (bit : ℕ) : Bool :=
  bmap (bit >>> 3) &&& 1#8 <<< (bit &&& 7) != 0#8

/-- `ext4_bmap_is_bit_clr`. -/
def bmapIsBitClr (bmap : Bmap) (bit : ℕ) : Bool := !bmapIsBitSet bmap bit

/-! ## Single bits -/

theorem and_seven (n : ℕ) : n &&& 7 = n % 8 := Nat.and_two_pow_sub_one_eq_mod n 3

theorem shr_three (n : ℕ) : n >>> 3 = n / 8 := Nat.shiftRight_eq_div_pow n 3

/-- A byte masked with one bit is nonzero iff that bit is on. -/
theorem and_mask_ne_zero (v : BitVec 8) {k : ℕ} (hk : k < 8) :
    (v &&& 1#8 <<< k != 0#8) = v.getLsbD k := by
  have h : ∀ k : Fin 8, ∀ v : BitVec 8, (v &&& 1#8 <<< k.1 != 0#8) = v.getLsbD k.1 := by
    decide +kernel
  exact h ⟨k, hk⟩ v

theorem bmapIsBitSet_eq (bmap : Bmap) (i : ℕ) :
    bmapIsBitSet bmap i = (bmap (i / 8)).getLsbD (i % 8) := by
  rw [bmapIsBitSet, shr_three, and_seven, and_mask_ne_zero _ (Nat.mod_lt _ (by decide))]

theorem getLsbD_one_shiftLeft {a b : ℕ} (hb : b < 8) :
    (1#8 <<< a).getLsbD b = decide (a = b) := by
  rw [BitVec.getLsbD_shiftLeft, BitVec.getLsbD_one]
  rcases lt_trichotomy a b with h | h | h
  · have hne : a ≠ b := by omega
    have : b - a ≠ 0 := by omega
    simp [hne, this]
  · simp [h, hb]
  · have hne : a ≠ b := by omega
    simp [h, hne]

/-- Two bits are the same iff they agree on byte and offset. -/
theorem bit_eq_iff (i j : ℕ) : j = i ↔ j / 8 = i / 8 ∧ j % 8 = i % 8 := by omega

@[simp] theorem isBitSet_bitSet (bmap : Bmap) (i j : ℕ) :
    bmapIsBitSet (bmapBitSet bmap i) j = (decide (j = i) || bmapIsBitSet bmap j) := by
  rw [bmapIsBitSet_eq, bmapIsBitSet_eq, bmapBitSet, shr_three, and_seven]
  by_cases hb : j / 8 = i / 8
  · rw [hb, Function.update_self, BitVec.getLsbD_or,
      getLsbD_one_shiftLeft (Nat.mod_lt _ (by decide)), Bool.or_comm]
    simp only [bit_eq_iff i j, hb, true_and, eq_comm]
  · have hne : j ≠ i := fun h => hb (by rw [h])
    rw [Function.update_of_ne hb]
    simp [hne]

@[simp] theorem isBitSet_bitClr (bmap : Bmap) (i j : ℕ) :
    bmapIsBitSet (bmapBitClr bmap i) j = (!decide (j = i) && bmapIsBitSet bmap j) := by
  rw [bmapIsBitSet_eq, bmapIsBitSet_eq, bmapBitClr, shr_three, and_seven]
  by_cases hb : j / 8 = i / 8
  · have hj : j % 8 < 8 := Nat.mod_lt _ (by decide)
    rw [hb, Function.update_self, BitVec.getLsbD_and, BitVec.getLsbD_not,
      getLsbD_one_shiftLeft hj, Bool.and_comm]
    simp only [bit_eq_iff i j, hb, true_and, hj, decide_true, Bool.true_and, eq_comm]
  · have hne : j ≠ i := fun h => hb (by rw [h])
    rw [Function.update_of_ne hb]
    simp [hne]

/-! ## Clearing a range -/

/-- The leading loop of `ext4_bmap_bits_free`: clears bits up to the next byte
    boundary and returns the position reached and the bits left. -/
def bitsFreeHead (bmap : Bmap) (i : ℕ) : ℕ → Bmap × ℕ × ℕ
  | 0 => (bmap, i, 0)
  | bcnt + 1 =>
    if i &&& 7 = 0 then (bmap, i, bcnt + 1)
    else bitsFreeHead (bmapBitClr bmap i) (i + 1) bcnt

/-- The byte loop: zeroes `n` bytes from byte `p` on. -/
def bitsFreeBytes (bmap : Bmap) (p : ℕ) : ℕ → Bmap
  | 0 => bmap
  | n + 1 => bitsFreeBytes (Function.update bmap p 0#8) (p + 1) n

/-- The trailing loop: clears `n` bits from bit `i` on. -/
def bitsFreeTail (bmap : Bmap) (i : ℕ) : ℕ → Bmap
  | 0 => bmap
  | n + 1 => bitsFreeTail (bmapBitClr bmap i) (i + 1) n

/-- `ext4_bmap_bits_free`. -/
def bmapBitsFree (bmap : Bmap) (sbit bcnt : ℕ) : Bmap :=
  let (bmap, i, bcnt) := bitsFreeHead bmap sbit bcnt
  let bmap := bitsFreeBytes bmap (i >>> 3) (bcnt / 8)
  bitsFreeTail bmap (8 * (i >>> 3 + bcnt / 8)) (bcnt % 8)

/-- The bits of `[s, s + n)` are off, the others as before. -/
def ClearedFrom (bmap bmap' : Bmap) (s n : ℕ) : Prop :=
  ∀ j, bmapIsBitSet bmap' j = (bmapIsBitSet bmap j && !decide (s ≤ j ∧ j < s + n))

theorem ClearedFrom.refl (bmap : Bmap) (s : ℕ) : ClearedFrom bmap bmap s 0 := by
  intro j
  have : ¬ (s ≤ j ∧ j < s + 0) := by omega
  rw [decide_eq_false this, Bool.not_false, Bool.and_true]

/-- Clearing two adjacent ranges one after the other clears their union. -/
theorem ClearedFrom.trans {b₁ b₂ b₃ : Bmap} {s n m : ℕ} (h₁ : ClearedFrom b₁ b₂ s n)
    (h₂ : ClearedFrom b₂ b₃ (s + n) m) : ClearedFrom b₁ b₃ s (n + m) := by
  intro j
  rw [h₂ j, h₁ j, Bool.and_assoc, ← Bool.not_or, ← Bool.decide_or]
  congr 2
  rw [decide_eq_decide]
  omega

theorem clearedFrom_bitClr (bmap : Bmap) (i : ℕ) : ClearedFrom bmap (bmapBitClr bmap i) i 1 := by
  intro j
  rw [isBitSet_bitClr, Bool.and_comm]
  congr 2
  rw [decide_eq_decide]
  omega

theorem clearedFrom_update (bmap : Bmap) (p : ℕ) :
    ClearedFrom bmap (Function.update bmap p 0#8) (8 * p) 8 := by
  intro j
  rw [bmapIsBitSet_eq, bmapIsBitSet_eq]
  by_cases hp : j / 8 = p
  · have : 8 * p ≤ j ∧ j < 8 * p + 8 := by omega
    simp [hp, this]
  · have : ¬ (8 * p ≤ j ∧ j < 8 * p + 8) := by omega
    rw [Function.update_of_ne hp]
    simp [this]

theorem clearedFrom_tail : ∀ (n i : ℕ) (bmap : Bmap),
    ClearedFrom bmap (bitsFreeTail bmap i n) i n
  | 0, i, bmap => .refl bmap i
  | n + 1, i, bmap => by
    have h := clearedFrom_tail n (i + 1) (bmapBitClr bmap i)
    rw [show n + 1 = 1 + n by omega]
    exact (clearedFrom_bitClr bmap i).trans (by rwa [show 1 + n = n + 1 by omega])

theorem clearedFrom_bytes : ∀ (n p : ℕ) (bmap : Bmap),
    ClearedFrom bmap (bitsFreeBytes bmap p n) (8 * p) (8 * n)
  | 0, p, bmap => .refl bmap _
  | n + 1, p, bmap => by
    have h := clearedFrom_bytes n (p + 1) (Function.update bmap p 0#8)
    rw [show 8 * (n + 1) = 8 + 8 * n by omega]
    exact (clearedFrom_update bmap p).trans (by rwa [show 8 * p + 8 = 8 * (p + 1) by omega])

/-- The leading loop clears what it steps over and stops at a byte boundary
    unless no bits are left. -/
theorem clearedFrom_head : ∀ (bcnt i : ℕ) (bmap : Bmap),
    let r := bitsFreeHead bmap i bcnt
    r.2.1 + r.2.2 = i + bcnt ∧ i ≤ r.2.1 ∧ (r.2.2 = 0 ∨ r.2.1 % 8 = 0) ∧
      ClearedFrom bmap r.1 i (r.2.1 - i)
  | 0, i, bmap => ⟨rfl, le_rfl, .inl rfl, by
    rw [bitsFreeHead, Nat.sub_self]; exact ClearedFrom.refl bmap i⟩
  | bcnt + 1, i, bmap => by
    unfold bitsFreeHead
    split_ifs with h
    · rw [and_seven] at h
      exact ⟨rfl, le_rfl, .inr h, by simpa using ClearedFrom.refl bmap i⟩
    · obtain ⟨h1, h2, h3, h4⟩ := clearedFrom_head bcnt (i + 1) (bmapBitClr bmap i)
      refine ⟨by omega, by omega, h3, ?_⟩
      have := (clearedFrom_bitClr bmap i).trans h4
      rwa [show 1 + ((bitsFreeHead (bmapBitClr bmap i) (i + 1) bcnt).2.1 - (i + 1)) =
        (bitsFreeHead (bmapBitClr bmap i) (i + 1) bcnt).2.1 - i by omega] at this

/-- **`ext4_bmap_bits_free` clears exactly the given range.** -/
theorem isBitSet_bitsFree (bmap : Bmap) (sbit bcnt j : ℕ) :
    bmapIsBitSet (bmapBitsFree bmap sbit bcnt) j =
      (bmapIsBitSet bmap j && !decide (sbit ≤ j ∧ j < sbit + bcnt)) := by
  obtain ⟨hsum, hle, hal, hhead⟩ := clearedFrom_head bcnt sbit bmap
  simp only [bmapBitsFree, shr_three]
  generalize bitsFreeHead bmap sbit bcnt = r at *
  obtain ⟨b, i, c⟩ := r
  simp only at hsum hle hal hhead ⊢
  rcases hal with rfl | hal
  · have := hhead j
    rw [show i - sbit = bcnt by omega] at this
    simpa [bitsFreeBytes, bitsFreeTail] using this
  · have hi : i = 8 * (i / 8) := by omega
    have hbytes := clearedFrom_bytes (c / 8) (i / 8) b
    have htail := clearedFrom_tail (c % 8) (8 * (i / 8) + 8 * (c / 8))
      (bitsFreeBytes b (i / 8) (c / 8))
    have h := hhead.trans (by
      rw [show sbit + (i - sbit) = 8 * (i / 8) by omega]; exact hbytes.trans htail)
    rw [show i - sbit + (8 * (c / 8) + c % 8) = bcnt by omega] at h
    rw [show 8 * (i / 8 + c / 8) = 8 * (i / 8) + 8 * (c / 8) by omega]
    exact h j

/-! ## Searching for a clear bit -/

/-- How the leading loop of `ext4_bmap_bit_find_clr` ends: it returns (`ENOSPC`
    or a bit), or goes on at the next byte boundary. -/
inductive FindHead where
  | ret (r : Option ℕ)
  | goOn (i bcnt : ℕ)

/-- The leading loop.  It reports `sbit`, not the bit `i` it looked at. -/
def findClrHead (bmap : Bmap) (sbit i : ℕ) : ℕ → FindHead
  | 0 => if i &&& 7 = 0 then .goOn i 0 else .ret none
  | bcnt + 1 =>
    if i &&& 7 = 0 then .goOn i (bcnt + 1)
    else if bmapIsBitClr bmap i then .ret (some sbit)
    else findClrHead bmap sbit (i + 1) bcnt

/-- The bit loops: the first clear bit among the `n` bits from `i` on. -/
def findClrBits (bmap : Bmap) (i : ℕ) : ℕ → Option ℕ
  | 0 => none
  | n + 1 => if bmapIsBitClr bmap i then some i else findClrBits bmap (i + 1) n

/-- The byte loop followed by the trailing bits: `n` whole bytes from byte `p`
    on, then `rest` bits. -/
def findClrBytes (bmap : Bmap) (p rest : ℕ) : ℕ → Option ℕ
  | 0 => findClrBits bmap (8 * p) rest
  | n + 1 =>
    match (if bmap p != 0xFF#8 then findClrBits bmap (8 * p) 8 else none) with
    | some bit => some bit
    | none => findClrBytes bmap (p + 1) rest n

/-- `ext4_bmap_bit_find_clr`; `none` is `ENOSPC`. -/
def bmapBitFindClr (bmap : Bmap) (sbit ebit : ℕ) : Option ℕ :=
  match findClrHead bmap sbit sbit (sub32 ebit sbit) with
  | .ret r => r
  | .goOn i bcnt => findClrBytes bmap (i >>> 3) (bcnt % 8) (bcnt / 8)

theorem findClrBits_add (bmap : Bmap) : ∀ (n m i : ℕ),
    findClrBits bmap i (n + m) = (findClrBits bmap i n).or (findClrBits bmap (i + n) m)
  | 0, m, i => by simp [findClrBits]
  | n + 1, m, i => by
    rw [show n + 1 + m = n + m + 1 by omega, findClrBits, findClrBits]
    split_ifs
    · rfl
    · rw [findClrBits_add bmap n m (i + 1), show i + 1 + n = i + (n + 1) by omega]

theorem findClrBits_some {bmap : Bmap} : ∀ {n i k : ℕ}, findClrBits bmap i n = some k →
    i ≤ k ∧ k < i + n ∧ bmapIsBitSet bmap k = false
  | 0, _, _, h => by simp [findClrBits] at h
  | n + 1, i, k, h => by
    rw [findClrBits] at h
    split_ifs at h with hc
    · obtain rfl := Option.some.inj h
      exact ⟨le_rfl, by omega, by simpa [bmapIsBitClr] using hc⟩
    · obtain ⟨h1, h2, h3⟩ := findClrBits_some h
      exact ⟨by omega, by omega, h3⟩

theorem findClrBits_none {bmap : Bmap} : ∀ {n i : ℕ}, findClrBits bmap i n = none →
    ∀ k, i ≤ k → k < i + n → bmapIsBitSet bmap k = true
  | 0, _, _, k, h1, h2 => by omega
  | n + 1, i, h, k, h1, h2 => by
    rw [findClrBits] at h
    split_ifs at h with hc
    rcases Nat.eq_or_lt_of_le h1 with rfl | h1
    · simpa [bmapIsBitClr] using hc
    · exact findClrBits_none h k h1 (by omega)

theorem findClrBits_eq_none {bmap : Bmap} {n i : ℕ}
    (h : ∀ k, i ≤ k → k < i + n → bmapIsBitSet bmap k = true) : findClrBits bmap i n = none := by
  by_contra hne
  obtain ⟨k, hk⟩ := Option.ne_none_iff_exists'.1 hne
  obtain ⟨h1, h2, h3⟩ := findClrBits_some hk
  rw [h k h1 h2] at h3
  cases h3

/-- A byte `0xFF` holds no clear bit. -/
theorem findClrBits_full {bmap : Bmap} {p : ℕ} (h : bmap p = 0xFF#8) :
    findClrBits bmap (8 * p) 8 = none := by
  refine findClrBits_eq_none fun k h1 h2 => ?_
  have hall : ∀ k : Fin 8, (0xFF#8).getLsbD k.1 = true := by decide
  rw [bmapIsBitSet_eq, show k / 8 = p by omega, h]
  exact hall ⟨k % 8, Nat.mod_lt _ (by decide)⟩

theorem findClrBytes_eq (bmap : Bmap) (rest : ℕ) : ∀ (n p : ℕ),
    findClrBytes bmap p rest n = findClrBits bmap (8 * p) (8 * n + rest)
  | 0, p => by simp [findClrBytes]
  | n + 1, p => by
    have hbyte : (if bmap p != 0xFF#8 then findClrBits bmap (8 * p) 8 else none) =
        findClrBits bmap (8 * p) 8 := by
      split_ifs with h
      · rfl
      · rw [findClrBits_full (by simpa using h)]
    rw [findClrBytes, hbyte, show 8 * (n + 1) + rest = 8 + (8 * n + rest) by omega,
      findClrBits_add, findClrBytes_eq bmap rest n (p + 1), show 8 * (p + 1) = 8 * p + 8 by omega]
    cases findClrBits bmap (8 * p) 8 <;> rfl

/-- The number of bits the leading loop looks at. -/
def headBits (sbit bcnt : ℕ) : ℕ := min bcnt ((8 - sbit % 8) % 8)

theorem findClrHead_eq (bmap : Bmap) (sbit : ℕ) : ∀ (bcnt i : ℕ),
    (match findClrHead bmap sbit i bcnt with
      | .ret r => r
      | .goOn i bcnt => findClrBytes bmap (i >>> 3) (bcnt % 8) (bcnt / 8)) =
      ((findClrBits bmap i (headBits i bcnt)).map fun _ => sbit).or
        (findClrBits bmap (i + headBits i bcnt) (bcnt - headBits i bcnt))
  | 0, i => by
    unfold findClrHead headBits
    split_ifs <;> simp [findClrBits, findClrBytes]
  | bcnt + 1, i => by
    rw [findClrHead]
    split_ifs with h0 hc
    · rw [and_seven] at h0
      have hh : headBits i (bcnt + 1) = 0 := by unfold headBits; omega
      simp only [hh, Nat.add_zero, Nat.sub_zero]
      rw [findClrBytes_eq, shr_three, show 8 * (i / 8) = i by omega, Nat.div_add_mod]
      rfl
    · rw [and_seven] at h0
      obtain ⟨m, hm⟩ : ∃ m, headBits i (bcnt + 1) = m + 1 :=
        ⟨headBits i (bcnt + 1) - 1, by unfold headBits; omega⟩
      simp only [hm, findClrBits, hc, if_true, Option.map_some, Option.some_or]
    · rw [and_seven] at h0
      have hm : headBits i (bcnt + 1) = headBits (i + 1) bcnt + 1 := by
        unfold headBits; omega
      rw [findClrHead_eq bmap sbit bcnt (i + 1), hm, findClrBits, if_neg hc]
      congr 2 <;> omega

/-- **What `ext4_bmap_bit_find_clr` returns**: `sbit` when a bit before the
    first byte boundary is clear, otherwise the first clear bit of the rest. -/
theorem bmapBitFindClr_eq (bmap : Bmap) (sbit ebit : ℕ) :
    let bcnt := sub32 ebit sbit
    bmapBitFindClr bmap sbit ebit =
      ((findClrBits bmap sbit (headBits sbit bcnt)).map fun _ => sbit).or
        (findClrBits bmap (sbit + headBits sbit bcnt) (bcnt - headBits sbit bcnt)) :=
  findClrHead_eq bmap sbit _ sbit

/-- When the bits before the first byte boundary are on, the search is exact. -/
theorem bmapBitFindClr_of_head {bmap : Bmap} {sbit ebit : ℕ} (hle : sbit ≤ ebit)
    (he : ebit < 2 ^ 32)
    (hhead : ∀ k, sbit ≤ k → k < sbit + (8 - sbit % 8) % 8 → k < ebit →
      bmapIsBitSet bmap k = true) :
    bmapBitFindClr bmap sbit ebit = findClrBits bmap sbit (ebit - sbit) := by
  have hnone : findClrBits bmap sbit (headBits sbit (ebit - sbit)) = none :=
    findClrBits_eq_none fun k h1 h2 => hhead k h1 (by unfold headBits at h2; omega)
      (by unfold headBits at h2; omega)
  have hsplit := findClrBits_add bmap (headBits sbit (ebit - sbit))
    (ebit - sbit - headBits sbit (ebit - sbit)) sbit
  rw [show headBits sbit (ebit - sbit) + (ebit - sbit - headBits sbit (ebit - sbit)) =
    ebit - sbit by unfold headBits; omega, hnone, Option.none_or] at hsplit
  rw [bmapBitFindClr_eq, sub32_of_le hle he, hnone, hsplit]
  rfl

end Lwext4
