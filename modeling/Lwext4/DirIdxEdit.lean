/-
  Entries of an index block when the block is changed.

  `HoldsEntries` is kept with a count that is less (`HoldsEntries.setCount`), in
  a copy (`HoldsEntries.copy`) and with an entry more (`HoldsEntries.insert`);
  storing the checksum does not touch the entries (`setDxCsum_frame`).
-/
import Lwext4.DirIdxTree
import Lwext4.DirIdxSplit

namespace Lwext4.DirIdx

open Lib

/-! ## Entries of a block that is changed -/

section
variable {env : DxEnv} {m m' nm : Mem} {en en' : ℕ} {es es₁ es₂ : List DxEntry}

/-- Entries depend on their bytes only. -/
theorem HoldsEntries.congr (h : HoldsEntries m en es)
    (heq : ∀ i, en + 2 ≤ i → i < en + 8 * es.length → m' i = m i) : HoldsEntries m' en es := by
  have hpos := h.length_pos
  refine ⟨h.ne, ?_, fun i hi => ?_, fun i hi h0 => ?_⟩
  · rw [← h.count]
    exact getLE_congr fun j h1 h2 => heq j h1 (by omega)
  · rw [← h.block i hi]
    exact getLE_congr fun j h1 h2 => heq j (by omega) (by omega)
  · rw [← h.hash i hi h0]
    exact getLE_congr fun j h1 h2 => heq j (by omega) (by omega)

/-- The first entries of a block. -/
theorem HoldsEntries.setCount (h : HoldsEntries m en (es₁ ++ es₂)) (hne : es₁ ≠ [])
    (hlt : es₁.length < 2 ^ 16) : HoldsEntries (dxSetCount m en es₁.length) en es₁ := by
  have hout : ∀ i, en + 4 ≤ i → dxSetCount m en es₁.length i = m i :=
    fun i hi => putLE_of_ge (by omega)
  refine ⟨hne, ?_, fun i hi => ?_, fun i hi h0 => ?_⟩
  · rw [dxGetCount, dxSetCount, getLE_putLE]
    exact Nat.mod_eq_of_lt hlt
  · have hb := h.block i (by rw [List.length_append]; omega)
    rw [List.getElem_append_left hi] at hb
    rw [← hb]
    exact getLE_congr fun j h1 _ => hout j (by omega)
  · have hb := h.hash i (by rw [List.length_append]; omega) h0
    rw [List.getElem_append_left hi] at hb
    rw [← hb]
    exact getLE_congr fun j h1 _ => hout j (by omega)

/-- The last entries are copied to another block. -/
theorem HoldsEntries.copy (h : HoldsEntries m en (es₁ ++ es₂)) (hne : es₂ ≠ []) {c : Mem}
    (hcount : dxGetCount c en' = es₂.length)
    (hc : ∀ i, 4 ≤ i → i < 8 * es₂.length → c (en' + i) = m (en + 8 * es₁.length + i)) :
    HoldsEntries c en' es₂ := by
  refine ⟨hne, hcount, fun i hi => ?_, fun i hi h0 => ?_⟩
  · have hb := h.block (es₁.length + i) (by rw [List.length_append]; omega)
    rw [List.getElem_append_right (Nat.le_add_right _ _)] at hb
    simp only [Nat.add_sub_cancel_left] at hb
    rw [← hb]
    refine getLE_shift fun j hj => ?_
    have := hc (8 * i + 4 + j) (by omega) (by omega)
    rw [show en' + 8 * i + 4 + j = en' + (8 * i + 4 + j) by omega, this]
    congr 1
    omega
  · have hb := h.hash (es₁.length + i) (by rw [List.length_append]; omega) (by omega)
    rw [List.getElem_append_right (Nat.le_add_right _ _)] at hb
    simp only [Nat.add_sub_cancel_left] at hb
    rw [← hb]
    refine getLE_shift fun j hj => ?_
    have := hc (8 * i + j) (by omega) (by omega)
    rw [show en' + 8 * i + j = en' + (8 * i + j) by omega, this]
    congr 1
    omega

/-- The bytes of a block with a new entry behind the `p`-th, where `n` bytes lie
    behind that. -/
theorem insertMem_apply {p hash iblock i : ℕ} (h2 : en + 4 ≤ i) :
    dxInsertMem m en p hash iblock i =
      if en + 8 * (p + 1) ≤ i ∧ i < en + 8 * (p + 1) + 8 then
        putLE (putLE (fun _ => 0) (en + 8 * (p + 1) + 4) 4 iblock) (en + 8 * (p + 1)) 4 hash i
      else if en + 8 * (p + 2) ≤ i ∧ i < en + 8 * (p + 2) + 8 * (dxGetCount m en - (p + 1)) then
        m (i - 8)
      else m i := by
  rw [dxInsertMem, dxSetCount, putLE_of_ge (by omega), dxEntrySetHash, dxEntrySetBlock]
  by_cases hnew : en + 8 * (p + 1) ≤ i ∧ i < en + 8 * (p + 1) + 8
  · rw [if_pos hnew]
    by_cases hhash : i < en + 8 * (p + 1) + 4
    · exact putLE_congr hnew.1 hhash
    · have hskip : ∀ c : Mem, putLE c (en + 8 * (p + 1)) 4 hash i = c i :=
        fun c => putLE_of_ge (by omega)
      rw [hskip, hskip]
      exact putLE_congr (by omega) (by omega)
  · rw [if_neg hnew]
    have hout : ∀ c : Mem, putLE (putLE c (en + 8 * (p + 1) + 4) 4 iblock) (en + 8 * (p + 1)) 4
        hash i = c i := by
      intro c
      rcases Nat.lt_or_ge i (en + 8 * (p + 1)) with h | h
      · rw [putLE_of_lt h, putLE_of_lt (by omega)]
      · rw [putLE_of_ge (by omega), putLE_of_ge (by omega)]
    rw [hout, Mem.move]
    split_ifs
    · congr 1
      omega
    · rfl

/-- **A new entry** behind the last of `es₁`. -/
theorem HoldsEntries.insert {hash iblock : ℕ} (h : HoldsEntries m en (es₁ ++ es₂))
    (hne : es₁ ≠ []) (hhash : hash < 2 ^ 32) (hblock : iblock < 2 ^ 32)
    (hlt : (es₁ ++ es₂).length + 1 < 2 ^ 16) :
    HoldsEntries (dxInsertMem m en (es₁.length - 1) hash iblock) en
      (es₁ ++ ⟨hash, iblock⟩ :: es₂) := by
  obtain ⟨p, hp⟩ : ∃ p, es₁.length = p + 1 := ⟨es₁.length - 1, by
    have := List.length_pos_iff.2 hne
    omega⟩
  have hcount := h.count
  rw [List.length_append] at hcount hlt
  rw [hp, Nat.add_sub_cancel]
  have hlen : (es₁ ++ ⟨hash, iblock⟩ :: es₂).length = dxGetCount m en + 1 := by
    rw [List.length_append, List.length_cons]
    omega
  have hlow : ∀ i, en + 4 ≤ i → i < en + 8 * (p + 1) →
      dxInsertMem m en p hash iblock i = m i := by
    intro i h1 h2
    rw [insertMem_apply h1, if_neg (by omega), if_neg (by omega)]
  have hhigh : ∀ i, en + 8 * (p + 2) ≤ i → i < en + 8 * (dxGetCount m en + 1) →
      dxInsertMem m en p hash iblock i = m (i - 8) := by
    intro i h1 h2
    rw [insertMem_apply (by omega), if_neg (by omega), if_pos (by omega)]
  have hnew : ∀ i, en + 8 * (p + 1) ≤ i → i < en + 8 * (p + 1) + 8 →
      dxInsertMem m en p hash iblock i =
        putLE (putLE (fun _ => 0) (en + 8 * (p + 1) + 4) 4 iblock) (en + 8 * (p + 1)) 4 hash i :=
    fun i h1 h2 => by rw [insertMem_apply (by omega), if_pos ⟨h1, h2⟩]
  refine ⟨by simp, ?_, fun i hi => ?_, fun i hi h0 => ?_⟩
  · rw [hlen, dxInsertMem, dxGetCount, dxSetCount, getLE_putLE]
    exact Nat.mod_eq_of_lt (by omega)
  · rw [hlen] at hi
    rcases Nat.lt_trichotomy i (p + 1) with hlt | rfl | hgt
    · have hb := h.block i (by rw [List.length_append]; omega)
      rw [List.getElem_append_left (by omega)] at hb
      rw [List.getElem_append_left (by omega), ← hb]
      exact getLE_congr fun j h1 h2 => hlow j (by omega) (by omega)
    · rw [List.getElem_append_right (by omega)]
      simp only [hp, Nat.sub_self, List.getElem_cons_zero]
      have hget : dxEntryGetBlock (dxInsertMem m en p hash iblock) en (p + 1) =
          getLE (putLE (putLE (fun _ => 0) (en + 8 * (p + 1) + 4) 4 iblock) (en + 8 * (p + 1)) 4
            hash) (en + 8 * (p + 1) + 4) 4 :=
        getLE_congr fun j h1 h2 => hnew j (by omega) (by omega)
      rw [hget, getLE_putLE_of_disjoint (.inr (by omega)), getLE_putLE]
      exact Nat.mod_eq_of_lt hblock
    · have hb := h.block (i - 1) (by rw [List.length_append]; omega)
      rw [List.getElem_append_right (by omega)] at hb
      rw [List.getElem_append_right (by omega)]
      simp only [show i - es₁.length = i - 1 - es₁.length + 1 by omega, List.getElem_cons_succ]
      rw [← hb]
      refine getLE_shift fun j hj => ?_
      rw [hhigh (en + 8 * i + 4 + j) (by omega) (by omega)]
      congr 1
      omega
  · rw [hlen] at hi
    rcases Nat.lt_trichotomy i (p + 1) with hlt | rfl | hgt
    · have hb := h.hash i (by rw [List.length_append]; omega) h0
      rw [List.getElem_append_left (by omega)] at hb
      rw [List.getElem_append_left (by omega), ← hb]
      exact getLE_congr fun j h1 h2 => hlow j (by omega) (by omega)
    · rw [List.getElem_append_right (by omega)]
      simp only [hp, Nat.sub_self, List.getElem_cons_zero]
      have hget : dxEntryGetHash (dxInsertMem m en p hash iblock) en (p + 1) =
          getLE (putLE (putLE (fun _ => 0) (en + 8 * (p + 1) + 4) 4 iblock) (en + 8 * (p + 1)) 4
            hash) (en + 8 * (p + 1)) 4 :=
        getLE_congr fun j h1 h2 => hnew j (by omega) (by omega)
      rw [hget, getLE_putLE]
      exact Nat.mod_eq_of_lt hhash
    · have hb := h.hash (i - 1) (by rw [List.length_append]; omega) (by omega)
      rw [List.getElem_append_right (by omega)] at hb
      rw [List.getElem_append_right (by omega)]
      simp only [show i - es₁.length = i - 1 - es₁.length + 1 by omega, List.getElem_cons_succ]
      rw [← hb]
      refine getLE_shift fun j hj => ?_
      rw [hhigh (en + 8 * i + j) (by omega) (by omega)]
      congr 1
      omega

/-! ## The checksum -/

/-- Where the entries of an index block begin: a root begins with an entry of 12
    bytes, a node does not. -/
inductive IndexHead (m : Mem) : ℕ → Prop
  | root (h : dirEnGetEntryLen m 0 = 12) : IndexHead m rootEn
  | node (h : dirEnGetEntryLen m 0 ≠ 12) : IndexHead m nodeEn

theorem IndexHead.climit (h : IndexHead m en) {c : ℕ} (hc : dxGetClimit env m = some c) :
    c = en := by
  rw [dxGetClimit] at hc
  cases h with
  | root h =>
    simp only [h, if_true] at hc
    split_ifs at hc
    exact (Option.some.inj hc).symm
  | node h =>
    simp only [h, if_false] at hc
    split_ifs at hc
    exact (Option.some.inj hc).symm

theorem IndexHead.congr (h : IndexHead m en) (heq : ∀ i < en, m' i = m i) : IndexHead m' en := by
  have hlen : dirEnGetEntryLen m' 0 = dirEnGetEntryLen m 0 := by
    refine getLE_congr fun i _ hi => heq i ?_
    cases h with
    | root => exact lt_trans hi (by decide)
    | node => exact lt_trans hi (by decide)
  cases h with
  | root h => exact .root (hlen.trans h)
  | node h => exact .node (hlen ▸ h)

/-- The checksum lies behind the entries that there is room for. -/
theorem setDxCsum_frame (h : IndexHead m en) {i : ℕ} (hi : i < en + 8 * dxGetLimit m en) :
    setDxCsum env m i = m i := by
  rw [setDxCsum]
  cases hc : dxGetClimit env m with
  | none => split_ifs <;> rfl
  | some c =>
    obtain rfl := h.climit hc
    dsimp only
    split_ifs
    · rfl
    · exact putLE_of_lt (by omega)
    · rfl

/-- The checksum is stored. -/
theorem HoldsEntries.csum (env : DxEnv) (h : HoldsEntries m en es) (hhead : IndexHead m en)
    (hlen : es.length ≤ dxGetLimit m en) : HoldsEntries (setDxCsum env m) en es ∧
      IndexHead (setDxCsum env m) en ∧ dxGetLimit (setDxCsum env m) en = dxGetLimit m en := by
  have hpos := h.length_pos
  have hframe : ∀ i < en + 8 * dxGetLimit m en, setDxCsum env m i = m i :=
    fun i => setDxCsum_frame hhead
  exact ⟨h.congr fun i _ hi => hframe i (by omega), hhead.congr fun i hi => hframe i (by omega),
    getLE_congr fun i _ hi => hframe i (by omega)⟩

theorem insertMem_low {p hash k i : ℕ} (hi : i < en + 2) : dxInsertMem m en p hash k i = m i := by
  rw [dxInsertMem, dxSetCount, putLE_of_lt hi, dxEntrySetHash, putLE_of_lt (by omega),
    dxEntrySetBlock, putLE_of_lt (by omega), Mem.move, if_neg (by omega)]

/-- An entry is put into a block that has room for it. -/
theorem HoldsEntries.insertHead {hash iblock : ℕ} (h : HoldsEntries m en (es₁ ++ es₂))
    (hhead : IndexHead m en) (hroom : (es₁ ++ es₂).length < dxGetLimit m en) (hne : es₁ ≠ [])
    (hhash : hash < 2 ^ 32) (hblock : iblock < 2 ^ 32) :
    HoldsEntries (dxInsertMem m en (es₁.length - 1) hash iblock) en
        (es₁ ++ ⟨hash, iblock⟩ :: es₂) ∧
      IndexHead (dxInsertMem m en (es₁.length - 1) hash iblock) en ∧
      (es₁ ++ ⟨hash, iblock⟩ :: es₂).length ≤
        dxGetLimit (dxInsertMem m en (es₁.length - 1) hash iblock) en := by
  have hlimit : dxGetLimit m en < 2 ^ 16 := getLE_lt m en 2
  refine ⟨h.insert hne hhash hblock (by omega),
    hhead.congr fun i hi => insertMem_low (by omega), ?_⟩
  have hsame : dxGetLimit (dxInsertMem m en (es₁.length - 1) hash iblock) en = dxGetLimit m en :=
    getLE_congr fun i _ hi => insertMem_low hi
  rw [hsame]
  simp only [List.length_append, List.length_cons] at hroom ⊢
  omega

/-! ## New blocks -/

/-- A block has 1 KiB to 64 KiB. -/
structure BlockSizeOk (env : DxEnv) : Prop where
  ge : 1024 ≤ env.sb.blockSize
  le : env.sb.blockSize ≤ 2 ^ 16
  dvd : 1024 ∣ env.sb.blockSize

variable {st st' : DxSt} {c d : ExtBlock}

theorem upd_run (c : ExtBlock) (f : Mem → Mem) (st : DxSt) :
    dxUpd c f st = (.ok (), st.setData c (f (st.blockData c))) := rfl

theorem blockData_setData_self : (st.setData c m).blockData c = m := Function.update_self ..

theorem blockData_setData_of_ne (h : d.buf.getD 0 ≠ c.buf.getD 0) :
    (st.setData c m).blockData d = st.blockData d := Function.update_of_ne h ..

theorem append_inv {n k : ℕ} (h : appendInodeDblk env st = (.ok (.ok (n, k)), st')) :
    n ∈ st.free ∧ k = st.blocks ∧ st'.data = st.data ∧ st'.blocks = st.blocks + 1 ∧
      st'.fblock = Function.update st.fblock st.blocks n := by
  obtain ⟨r, st₁, h₁, h⟩ := Prog.bind_inv h
  cases h₁
  cases hf : env.fault st.ops with
  | some f =>
    rw [hf] at h
    cases h
  | none =>
    rw [hf] at h
    cases hfree : st.free with
    | nil =>
      simp only [hfree] at h
      cases h
    | cons m free =>
      simp only [hfree] at h
      cases h
      exact ⟨List.mem_cons_self, rfl, rfl, rfl, rfl⟩

theorem getNoread_inv {n : ℕ} (h : transBlockGetNoread env c n st = (.ok (none, d), st')) :
    d = .on n ∧ st'.data = st.data ∧ st'.fblock = st.fblock := by
  obtain ⟨r, st₁, h₁, h⟩ := Prog.bind_inv h
  cases h₁
  cases hf : env.fault st.ops with
  | some f =>
    rw [hf] at h
    obtain ⟨stage, err, ne⟩ := f
    cases stage <;> cases h
  | none =>
    rw [hf] at h
    cases h
    exact ⟨rfl, rfl, rfl⟩

end

end Lwext4.DirIdx
