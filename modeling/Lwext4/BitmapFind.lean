/-
  What `ext4_bmap_bit_find_clr` promises: the least clear bit of a range, the
  same with and without `CONFIG_UNALIGNED_ACCESS`, from the bytes of the range.

  Main result: `bmapBitFindClr_exact_iff`.  The leading loop reports `sbit`
  whichever bit it finds, so the promise is kept unless the least clear bit is
  another one in the byte of `sbit`.
-/
import Lwext4.Bitmap
import Lwext4.Lib.Bytes

namespace Lwext4

open Lib

variable {bmap : Bmap} {sbit ebit i k n p rest : ℕ}

/-! ## With `CONFIG_UNALIGNED_ACCESS` -/

/-- The loop that skips words of `w` bytes without a clear bit: where it stops,
    and how many words are left. -/
def skipWords (bmap : Bmap) (w p : ℕ) : ℕ → ℕ × ℕ
  | 0 => (p, 0)
  | n + 1 => if getLE bmap p w ≠ 256 ^ w - 1 then (p, n + 1) else skipWords bmap w (p + w) n

/-- The loops behind the leading one, from a byte boundary on. -/
def findClrWords (bmap : Bmap) (p bcnt : ℕ) : Option ℕ :=
  let (p, n) := skipWords bmap 4 p (bcnt / 32)
  let bcnt := 32 * n + bcnt % 32
  if n ≠ 0 then findClrBytes bmap p (bcnt % 8) (bcnt / 8)
  else
    let (p, n) := skipWords bmap 2 p (bcnt / 16)
    let bcnt := 16 * n + bcnt % 16
    findClrBytes bmap p (bcnt % 8) (bcnt / 8)

/-- `ext4_bmap_bit_find_clr` with `CONFIG_UNALIGNED_ACCESS`. -/
def bmapBitFindClrUnaligned (bmap : Bmap) (sbit ebit : ℕ) : Option ℕ :=
  match findClrHead bmap sbit sbit (sub32 ebit sbit) with
  | .ret r => r
  | .goOn i bcnt => findClrWords bmap (i >>> 3) bcnt

/-- A word of all ones has bytes of all ones. -/
theorem byte_of_getLE_full {w : ℕ} (h : getLE bmap p w = 256 ^ w - 1) (hk : p ≤ k) (hw : k < p + w) :
    bmap k = 0xFF#8 := by
  induction w generalizing p with
  | zero => omega
  | succ w ih =>
    have hs : getLE bmap p (w + 1) = (bmap p).toNat + 256 * getLE bmap (p + 1) w := rfl
    have hb := (bmap p).isLt
    have hr := getLE_lt bmap (p + 1) w
    rw [hs, Nat.pow_succ'] at h
    obtain rfl | hlt := hk.eq_or_lt
    · exact BitVec.eq_of_toNat_eq (show (bmap p).toNat = 255 by omega)
    · have hrest : getLE bmap (p + 1) w = 256 ^ w - 1 := by
        generalize 256 ^ w = m at *
        generalize getLE bmap (p + 1) w = x at *
        omega
      exact ih hrest hlt (by omega)

theorem findClrBits_word {w : ℕ} (h : getLE bmap p w = 256 ^ w - 1) :
    findClrBits bmap (8 * p) (8 * w) = none := by
  refine findClrBits_eq_none fun k h1 h2 => ?_
  have hall : ∀ k : Fin 8, (0xFF#8).getLsbD k.1 = true := by decide
  rw [bmapIsBitSet_eq, byte_of_getLE_full h (by omega) (by omega)]
  exact hall ⟨k % 8, Nat.mod_lt _ (by decide)⟩

/-- The bits that are skipped are on. -/
theorem findClrBits_skipWords (w : ℕ) : ∀ n p,
    findClrBits bmap (8 * p) (8 * w * n + rest) =
      findClrBits bmap (8 * (skipWords bmap w p n).1) (8 * w * (skipWords bmap w p n).2 + rest)
  | 0, p => rfl
  | n + 1, p => by
    rw [skipWords]
    split
    · rfl
    · rename_i h
      have hfull := findClrBits_word (not_not.mp h)
      have hsum : 8 * w * (n + 1) + rest = 8 * w + (8 * w * n + rest) := by
        rw [Nat.mul_succ]
        omega
      have hnext : 8 * p + 8 * w = 8 * (p + w) := (Nat.mul_add 8 p w).symm
      rw [hsum, findClrBits_add, hfull, Option.none_or, hnext]
      exact findClrBits_skipWords w n (p + w)

theorem findClrBytes_bits (p n : ℕ) :
    findClrBytes bmap p (n % 8) (n / 8) = findClrBits bmap (8 * p) n := by
  rw [findClrBytes_eq, Nat.div_add_mod]

theorem findClrWords_eq (p bcnt : ℕ) :
    findClrWords bmap p bcnt = findClrBits bmap (8 * p) bcnt := by
  have h4 := @findClrBits_skipWords bmap (bcnt % 32) 4 (bcnt / 32) p
  rw [show 8 * 4 * (bcnt / 32) + bcnt % 32 = bcnt by omega] at h4
  rw [findClrWords]
  generalize skipWords bmap 4 p (bcnt / 32) = r at *
  obtain ⟨q, n⟩ := r
  simp only at h4 ⊢
  rw [h4]
  split
  · exact findClrBytes_bits q (32 * n + bcnt % 32)
  · have h2 := @findClrBits_skipWords bmap ((32 * n + bcnt % 32) % 16) 2 ((32 * n + bcnt % 32) / 16) q
    rw [show 8 * 2 * ((32 * n + bcnt % 32) / 16) + (32 * n + bcnt % 32) % 16
      = 32 * n + bcnt % 32 by omega] at h2
    rw [findClrBytes_bits]
    exact h2.symm

/-- **The configurations agree.** -/
theorem bmapBitFindClrUnaligned_eq (bmap : Bmap) (sbit ebit : ℕ) :
    bmapBitFindClrUnaligned bmap sbit ebit = bmapBitFindClr bmap sbit ebit := by
  rw [bmapBitFindClrUnaligned, bmapBitFindClr]
  cases findClrHead bmap sbit sbit (sub32 ebit sbit) with
  | ret r => rfl
  | goOn i bcnt =>
    simp only
    rw [findClrWords_eq, findClrBytes_bits]

/-! ## Which bytes matter -/

theorem isBitSet_congr {bmap' : Bmap} (h : bmap' (i / 8) = bmap (i / 8)) :
    bmapIsBitSet bmap' i = bmapIsBitSet bmap i := by
  rw [bmapIsBitSet_eq, bmapIsBitSet_eq, h]

theorem findClrBits_congr {bmap' : Bmap} : ∀ n i,
    (∀ k, i ≤ k → k < i + n → bmapIsBitSet bmap' k = bmapIsBitSet bmap k) →
      findClrBits bmap' i n = findClrBits bmap i n
  | 0, _, _ => rfl
  | n + 1, i, h => by
    rw [findClrBits, findClrBits, bmapIsBitClr, bmapIsBitClr, h i le_rfl (by omega),
      findClrBits_congr n (i + 1) fun k h1 h2 => h k (by omega) (by omega)]

/-- **Only the bytes of the range matter.** -/
theorem bmapBitFindClr_congr {bmap' : Bmap} (hle : sbit ≤ ebit) (he : ebit < 2 ^ 32)
    (h : ∀ q, q ≤ (ebit - 1) / 8 → bmap' q = bmap q) :
    bmapBitFindClr bmap' sbit ebit = bmapBitFindClr bmap sbit ebit := by
  have hbit : ∀ k, k < ebit → bmapIsBitSet bmap' k = bmapIsBitSet bmap k :=
    fun k hk => isBitSet_congr (h _ (by omega))
  have hhead : headBits sbit (ebit - sbit) ≤ ebit - sbit := Nat.min_le_left _ _
  rw [bmapBitFindClr_eq, bmapBitFindClr_eq, sub32_of_le hle he,
    findClrBits_congr _ _ fun k _ h2 => hbit k (by omega),
    findClrBits_congr _ _ fun k _ h2 => hbit k (by omega)]

/-! ## The least clear bit -/

/-- Bit `k` is the least clear bit from `sbit` on, below `ebit`. -/
structure LeastClr (bmap : Bmap) (sbit ebit k : ℕ) : Prop where
  ge : sbit ≤ k
  lt : k < ebit
  clr : bmapIsBitClr bmap k = true
  least : ∀ j, sbit ≤ j → j < k → bmapIsBitClr bmap j = false

/-- `ext4_bmap_bit_find_clr` is exact on a range: it fails only where no bit is
    clear, finds the least clear bit otherwise, does so in both configurations,
    and does not depend on the bytes behind the range. -/
structure FindsLeast (bmap : Bmap) (sbit ebit : ℕ) : Prop where
  ok : ∀ k, bmapBitFindClr bmap sbit ebit = some k → LeastClr bmap sbit ebit k
  nospc : bmapBitFindClr bmap sbit ebit = none →
    ∀ k, sbit ≤ k → k < ebit → bmapIsBitClr bmap k = false
  unaligned : bmapBitFindClrUnaligned bmap sbit ebit = bmapBitFindClr bmap sbit ebit
  bytes : ∀ bmap' : Bmap, (∀ q, q ≤ (ebit - 1) / 8 → bmap' q = bmap q) →
    bmapBitFindClr bmap' sbit ebit = bmapBitFindClr bmap sbit ebit

/-- The least clear bit is not one behind `sbit` in the same byte. -/
def HeadExact (bmap : Bmap) (sbit ebit : ℕ) : Prop :=
  ∀ k, sbit < k → k < ebit → sbit % 8 ≠ 0 → k / 8 = sbit / 8 → bmapIsBitClr bmap k = true →
    ∃ j, sbit ≤ j ∧ j < k ∧ bmapIsBitClr bmap j = true

theorem findClrBits_least {n i k : ℕ} (h : findClrBits bmap i n = some k) :
    LeastClr bmap i (i + n) k := by
  induction n generalizing i with
  | zero => cases h
  | succ n ih =>
    rw [findClrBits] at h
    by_cases hc : bmapIsBitClr bmap i = true
    · rw [if_pos hc] at h
      obtain rfl := Option.some.inj h
      exact ⟨le_rfl, by omega, hc, fun j h1 h2 => absurd h1 (by omega)⟩
    · rw [if_neg hc] at h
      obtain ⟨h1, h2, h3, h4⟩ := ih h
      refine ⟨by omega, by omega, h3, fun j hj hk => ?_⟩
      obtain rfl | hlt := hj.eq_or_lt
      · simpa using hc
      · exact h4 j hlt hk

theorem LeastClr.eq {k k' : ℕ} (h : LeastClr bmap sbit ebit k) (h' : LeastClr bmap sbit ebit k') :
    k = k' := by
  obtain hlt | heq | hlt := lt_trichotomy k k'
  · have := h'.least k h.ge hlt
    rw [h.clr] at this
    cases this
  · exact heq
  · have := h.least k' h'.ge hlt
    rw [h'.clr] at this
    cases this

theorem findClrBits_clr (h : findClrBits bmap sbit n = none) (h1 : sbit ≤ k) (h2 : k < sbit + n) :
    bmapIsBitClr bmap k = false := by
  rw [bmapIsBitClr, findClrBits_none h k h1 h2]
  rfl

/-- **When the search is exact.** -/
theorem bmapBitFindClr_exact_iff (bmap : Bmap) (sbit ebit : ℕ) (hle : sbit ≤ ebit)
    (he : ebit < 2 ^ 32) : FindsLeast bmap sbit ebit ↔ HeadExact bmap sbit ebit := by
  have heq := bmapBitFindClr_eq bmap sbit ebit
  have hhead : headBits sbit (ebit - sbit) ≤ ebit - sbit := Nat.min_le_left _ _
  have hend : sbit + (ebit - sbit) = ebit := by omega
  simp only [sub32_of_le hle he] at heq
  constructor
  · intro h k h1 h2 h8 hbyte hclr
    by_contra hnone
    have hleast : LeastClr bmap sbit ebit k := by
      refine ⟨h1.le, h2, hclr, fun j hj hk => ?_⟩
      by_contra hj'
      exact hnone ⟨j, hj, hk, by simpa using hj'⟩
    cases hf : findClrBits bmap sbit (headBits sbit (ebit - sbit)) with
    | none =>
      have := findClrBits_clr hf h1.le (by unfold headBits; omega)
      rw [hclr] at this
      cases this
    | some k' =>
      rw [hf, Option.map_some, Option.some_or] at heq
      have := (h.ok sbit heq).eq hleast
      omega
  · intro h
    refine ⟨fun k hk => ?_, fun hn k h1 h2 => ?_, bmapBitFindClrUnaligned_eq bmap sbit ebit,
      fun bmap' => bmapBitFindClr_congr hle he⟩
    · cases hf : findClrBits bmap sbit (headBits sbit (ebit - sbit)) with
      | none =>
        rw [hf, Option.map_none, Option.none_or, hk] at heq
        obtain ⟨h1, h2, h3, h4⟩ := findClrBits_least heq.symm
        refine ⟨by omega, by omega, h3, fun j hj hjk => ?_⟩
        by_cases hjh : j < sbit + headBits sbit (ebit - sbit)
        · exact findClrBits_clr hf hj hjh
        · exact h4 j (Nat.not_lt.mp hjh) hjk
      | some k' =>
        rw [hf, Option.map_some, Option.some_or, hk] at heq
        obtain rfl := Option.some.inj heq
        obtain ⟨h1, h2, h3, h4⟩ := findClrBits_least hf
        -- the bit found is `sbit` itself: another one would be the least clear bit
        obtain rfl | hlt := h1.eq_or_lt
        · exact ⟨le_rfl, by omega, h3, fun j hj hjk => absurd hj (by omega)⟩
        · unfold headBits at h2
          obtain ⟨j, hj, hjk, hclr⟩ := h k' hlt (by omega) (by omega) (by omega) h3
          rw [h4 j hj hjk] at hclr
          cases hclr
    · rw [hn, eq_comm, Option.or_eq_none_iff, Option.map_eq_none_iff] at heq
      by_cases hkh : k < sbit + headBits sbit (ebit - sbit)
      · exact findClrBits_clr heq.1 h1 hkh
      · exact findClrBits_clr heq.2 (Nat.not_lt.mp hkh) (by omega)

/-- A search from a byte boundary. -/
theorem bmapBitFindClr_exact_aligned : FindsLeast (fun _ => 0x0F#8) 0 8 :=
  (bmapBitFindClr_exact_iff _ 0 8 (by decide) (by decide)).mpr fun _ _ _ h8 => absurd rfl h8

/-- Bit 1 is on and bit 2 is clear: the search from bit 1 on reports bit 1. -/
theorem bmapBitFindClr_wrong : bmapBitFindClr (fun _ => 0x03#8) 1 8 = some 1 ∧
    bmapIsBitSet (fun _ => 0x03#8) 1 = true ∧ ¬FindsLeast (fun _ => 0x03#8) 1 8 := by
  have hfind : bmapBitFindClr (fun _ => 0x03#8) 1 8 = some 1 := by decide +kernel
  refine ⟨hfind, by decide, fun h => ?_⟩
  exact absurd (h.ok 1 hfind).clr (by decide)

end Lwext4
