/-
  What a directory block holds.

  `EntAt sb b o o' e` says that the entry `e` lies in `[o, o')`; the entries
  of a block are packed from its beginning to the checksum tail, or to the end
  when there is none (`DirBlock`).  The names in use with their inodes and
  types are its `links`.  What writing an entry does is `writeEntry_spec`; the
  checksum changes the last four bytes of a tail only.
-/
import Lwext4.Dir
import Lwext4.Lib.Packed

namespace Lwext4

open Lib

/-! ## Entries -/

/-- A directory entry. -/
structure DirEnt where
  inode : ℕ
  recLen : ℕ
  ftype : ℕ
  name : List Byte

/-- A name in use. -/
structure DirLink where
  name : List Byte
  inode : ℕ
  ftype : ℕ

/-- The entry in `[o, o')`.  Only an entry in use has a name. -/
structure EntAt (sb : DirSb) (b : Mem) (o o' : ℕ) (e : DirEnt) : Prop where
  inode : dirEnGetInode b o = e.inode
  len : dirEnGetEntryLen b o = e.recLen
  stop : o' = o + e.recLen
  ftype : dirEnGetInodeType sb b o = e.ftype
  min : 8 ≤ e.recLen
  dvd : 4 ∣ e.recLen
  nameLen : e.inode ≠ 0 → dirEnGetNameLen sb b o = e.name.length
  name : e.inode ≠ 0 → dirEnName b o e.name.length = e.name
  room : e.inode ≠ 0 → 8 + e.name.length ≤ e.recLen
  ne : e.inode ≠ 0 → e.name ≠ []

/-- The block has a checksum tail that counts. -/
def hasTail (sb : DirSb) (b : Mem) : Bool := sb.metadataCsum && ext4DirGetTail sb b

/-- The bytes of a block that are for entries. -/
def dirArea (sb : DirSb) (b : Mem) : ℕ :=
  if hasTail sb b then sb.blockSize - dirEntryTailSize else sb.blockSize

/-- The entries of a block. -/
def DirBlock (sb : DirSb) (b : Mem) (es : List DirEnt) : Prop :=
  Packed (EntAt sb b) 0 (dirArea sb b) es

/-- The names in use, in the order of the block. -/
def links (es : List DirEnt) : List DirLink :=
  (es.filter fun e => e.inode ≠ 0).map fun e => ⟨e.name, e.inode, e.ftype⟩

@[simp] theorem links_append (es₁ es₂ : List DirEnt) : links (es₁ ++ es₂) = links es₁ ++ links es₂ := by
  simp [links]

theorem links_cons_live {e : DirEnt} (es : List DirEnt) (h : e.inode ≠ 0) :
    links (e :: es) = ⟨e.name, e.inode, e.ftype⟩ :: links es := by
  simp [links, h]

theorem links_cons_unused {e : DirEnt} (es : List DirEnt) (h : e.inode = 0) :
    links (e :: es) = links es := by
  simp [links, h]

section

variable {sb : DirSb} {b b' : Mem} {o o' : ℕ} {e : DirEnt}

theorem EntAt.congr (h : EntAt sb b o o' e) (heq : ∀ i, o ≤ i → i < o' → b' i = b i) :
    EntAt sb b' o o' e := by
  have hmin := h.min
  have hstop := h.stop
  have hget (c w : ℕ) (h1 : o ≤ c) (h2 : c + w ≤ o + 8) : getLE b' c w = getLE b c w :=
    getLE_congr fun i hi hi' => heq i (by omega) (by omega)
  refine ⟨?_, ?_, h.stop, ?_, h.min, h.dvd, fun hl => ?_, fun hl => ?_, h.room, h.ne⟩
  · rw [← h.inode, dirEnGetInode, dirEnGetInode, hget o 4 le_rfl (by omega)]
  · rw [← h.len, dirEnGetEntryLen, dirEnGetEntryLen, hget (o + 4) 2 (by omega) (by omega)]
  · rw [← h.ftype, dirEnGetInodeType, dirEnGetInodeType, hget (o + 7) 1 (by omega) (by omega)]
  · rw [← h.nameLen hl, dirEnGetNameLen, dirEnGetNameLen, hget (o + 6) 1 (by omega) (by omega),
      hget (o + 7) 1 (by omega) (by omega)]
  · have hroom := h.room hl
    have hname := h.name hl
    rw [dirEnName] at hname ⊢
    rw [Mem.read_congr fun i hi hi' => heq i (by omega) (by omega), hname]

theorem EntAt.lt (h : EntAt sb b o o' e) : o < o' := by
  have := h.min
  have := h.stop
  omega

theorem EntAt.recLen_lt (h : EntAt sb b o o' e) : e.recLen < 2 ^ 16 := by
  rw [← h.len]
  exact getLE_lt b (o + 4) 2

/-! ## The lengths -/

theorem usedSize_eq {n len : ℕ} (hroom : 8 + n ≤ len) (hdvd : 4 ∣ len) (hlt : len < 2 ^ 16) :
    dirUsedSize n = 8 + (n + 3) / 4 * 4 ∧ dirUsedSize n ≤ len := by
  have h : dirUsedSize n = 8 + (n + 3) / 4 * 4 := by
    have h1 : u16 (fakeDirEntrySize + n) = 8 + n := Nat.mod_eq_of_lt (by rw [fakeDirEntrySize]; omega)
    rw [dirUsedSize, h1]
    by_cases hn : n % 4 = 0
    · rw [if_neg (not_not.2 hn)]
      omega
    · rw [if_pos hn, u16, Nat.mod_eq_of_lt (by omega)]
      omega
  exact ⟨h, by omega⟩

theorem requiredLen_eq {n : ℕ} (hn : n ≤ 255) : dirRequiredLen n = 8 + (n + 3) / 4 * 4 := by
  have h1 : u16 (fakeDirEntrySize + n) = 8 + n := Nat.mod_eq_of_lt (by rw [fakeDirEntrySize]; omega)
  rw [dirRequiredLen, h1]
  by_cases hn' : (8 + n) % 4 = 0
  · rw [if_neg (not_not.2 hn')]
    omega
  · rw [if_pos hn', u16, Nat.mod_eq_of_lt (by omega)]
    omega

/-! ## Writing an entry -/

theorem setInodeType_frame {type i : ℕ} (h : i ≠ o + 7) : dirEnSetInodeType sb b o type i = b i := by
  rw [dirEnSetInodeType]
  split_ifs
  · rfl
  · rcases Nat.lt_or_gt_of_ne h with h | h
    · exact putLE_of_lt h
    · exact putLE_of_ge h

theorem setNameLen_frame {len i : ℕ} (h : i < o + 6 ∨ o + 8 ≤ i) :
    dirEnSetNameLen sb b o len i = b i := by
  rw [dirEnSetNameLen]
  split_ifs
  · rcases h with h | h
    · rw [putLE_of_lt (by omega), putLE_of_lt h]
    · rw [putLE_of_ge (by omega), putLE_of_ge (by omega)]
  · rcases h with h | h
    · exact putLE_of_lt h
    · exact putLE_of_ge (by omega)

theorem getNameLen_setNameLen {len : ℕ} (h : len < 256) :
    dirEnGetNameLen sb (dirEnSetNameLen sb b o len) o = len := by
  rw [dirEnGetNameLen, dirEnSetNameLen]
  cases hold : sb.oldRev with
  | true =>
    simp only [if_true]
    rw [getLE_putLE_of_disjoint (.inl (by omega)), getLE_putLE, getLE_putLE]
    omega
  | false =>
    simp only [Bool.false_eq_true, if_false]
    rw [getLE_putLE]
    omega

theorem dirEnTypeOf_lt (mode : ℕ) : dirEnTypeOf mode < 256 := by
  unfold dirEnTypeOf
  split_ifs <;> decide

/-- The entry made for a child under a name. -/
def newEnt (sb : DirSb) (len : ℕ) (child : Child) (name : List Byte) : DirEnt :=
  ⟨child.index, len, if sb.oldRev then 0 else dirEnTypeOf child.mode, name⟩

theorem writeEntry_frame {len i : ℕ} {child : Child} {name : List Byte}
    (h : i < o ∨ o + 8 + name.length ≤ i) : dirEnWrite sb b o len child name i = b i := by
  rw [dirEnWrite]
  rcases h with h | h
  · rw [Mem.write_of_lt _ (by omega), setNameLen_frame (by omega), dirEnSetEntryLen,
      putLE_of_lt (by omega), dirEnSetInode, putLE_of_lt h, setInodeType_frame (by omega)]
  · rw [Mem.write_of_ge h, setNameLen_frame (by omega), dirEnSetEntryLen, putLE_of_ge (by omega),
      dirEnSetInode, putLE_of_ge (by omega), setInodeType_frame (by omega)]

/-- A name that can be given to an entry: a path component. -/
structure NameOk (name : List Byte) : Prop where
  ne : name ≠ []
  le : name.length ≤ 255
  nul : ∀ c ∈ name, c ≠ 0

/-- **Writing an entry.** -/
theorem writeEntry_spec {len : ℕ} {child : Child} {name : List Byte} (hname : NameOk name)
    (hchild : child.index < 2 ^ 32) (hroom : 8 + name.length ≤ len) (hdvd : 4 ∣ len)
    (hlt : len < 2 ^ 16) :
    EntAt sb (dirEnWrite sb b o len child name) o (o + len) (newEnt sb len child name) := by
  have hlen : u16 name.length = name.length := Nat.mod_eq_of_lt (by have := hname.le; omega)
  have hle := hname.le
  rw [dirEnWrite, hlen]
  generalize hb1 : dirEnSetInodeType sb b o (dirEnTypeOf child.mode) = b1
  refine ⟨?_, ?_, rfl, ?_, (Nat.le_trans (Nat.le_add_right 8 _) hroom), hdvd, fun _ => ?_,
    fun _ => ?_, fun _ => hroom,
    fun _ => hname.ne⟩
  · rw [dirEnGetInode, getLE_write_of_disjoint (.inl (by omega)),
      getLE_congr fun i _ hi => setNameLen_frame (.inl (by omega)), dirEnSetEntryLen,
      getLE_putLE_of_disjoint (.inl (by omega)), dirEnSetInode, getLE_putLE]
    exact Nat.mod_eq_of_lt hchild
  · rw [dirEnGetEntryLen, getLE_write_of_disjoint (.inl (by omega)),
      getLE_congr fun i _ hi => setNameLen_frame (.inl (by omega)), dirEnSetEntryLen, getLE_putLE]
    exact Nat.mod_eq_of_lt hlt
  · rw [dirEnGetInodeType, newEnt]
    cases hold : sb.oldRev with
    | true => rfl
    | false =>
      simp only [Bool.false_eq_true, if_false]
      rw [getLE_write_of_disjoint (.inl (by omega)), dirEnSetNameLen, hold, if_neg Bool.false_ne_true,
        getLE_putLE_of_disjoint (.inr (by omega)), dirEnSetEntryLen,
        getLE_putLE_of_disjoint (.inr (by omega)), dirEnSetInode,
        getLE_putLE_of_disjoint (.inr (by omega)), ← hb1, dirEnSetInodeType, hold,
        if_neg Bool.false_ne_true, getLE_putLE]
      exact Nat.mod_eq_of_lt (dirEnTypeOf_lt _)
  · have h := @getNameLen_setNameLen sb (dirEnSetEntryLen (dirEnSetInode b1 o child.index) o len) o _
      (show name.length < 256 by omega)
    rw [dirEnGetNameLen] at h ⊢
    rw [getLE_write_of_disjoint (.inl (by omega)), getLE_write_of_disjoint (.inl (by omega)), h]
    rfl
  · exact Mem.read_write _ _ _

/-! ## Changing an entry -/

theorem EntAt.setLen (h : EntAt sb b o o' e) {len : ℕ} (hmin : 8 ≤ len) (hdvd : 4 ∣ len)
    (hlt : len < 2 ^ 16) (hroom : e.inode ≠ 0 → 8 + e.name.length ≤ len) :
    EntAt sb (dirEnSetEntryLen b o len) o (o + len) { e with recLen := len } := by
  have hget (c w : ℕ) (hc : c + w ≤ o + 4 ∨ o + 6 ≤ c) :
      getLE (dirEnSetEntryLen b o len) c w = getLE b c w :=
    getLE_putLE_of_disjoint (by omega)
  refine ⟨?_, ?_, rfl, ?_, hmin, hdvd, fun hl => ?_, fun hl => ?_, hroom, h.ne⟩
  · rw [← h.inode, dirEnGetInode, dirEnGetInode, hget _ _ (by omega)]
  · rw [dirEnGetEntryLen, dirEnSetEntryLen, getLE_putLE]
    exact Nat.mod_eq_of_lt hlt
  · rw [← h.ftype, dirEnGetInodeType, dirEnGetInodeType, hget _ _ (by omega)]
  · rw [← h.nameLen hl, dirEnGetNameLen, dirEnGetNameLen, hget _ _ (by omega), hget _ _ (by omega)]
  · have hname := h.name hl
    rw [dirEnName] at hname ⊢
    rw [dirEnSetEntryLen, putLE, Mem.read_write_of_disjoint (.inr (by rw [length_leBytes]; omega)),
      hname]

theorem EntAt.clear (h : EntAt sb b o o' e) :
    EntAt sb (dirEnSetInode b o 0) o o' { e with inode := 0 } := by
  have hget (c w : ℕ) (hc : o + 4 ≤ c) : getLE (dirEnSetInode b o 0) c w = getLE b c w :=
    getLE_putLE_of_disjoint (by omega)
  refine ⟨?_, ?_, h.stop, ?_, h.min, h.dvd, fun hl => absurd rfl hl, fun hl => absurd rfl hl,
    fun hl => absurd rfl hl, fun hl => absurd rfl hl⟩
  · rw [dirEnGetInode, dirEnSetInode, getLE_putLE]
    rfl
  · rw [← h.len, dirEnGetEntryLen, dirEnGetEntryLen, hget _ _ (by omega)]
  · rw [← h.ftype, dirEnGetInodeType, dirEnGetInodeType, hget _ _ (by omega)]

theorem setEntryLen_frame {len i : ℕ} (h : i < o + 4 ∨ o + 6 ≤ i) :
    dirEnSetEntryLen b o len i = b i := by
  rcases h with h | h
  · exact putLE_of_lt h
  · exact putLE_of_ge h

theorem setInode_frame {inode i : ℕ} (h : i < o ∨ o + 4 ≤ i) : dirEnSetInode b o inode i = b i := by
  rcases h with h | h
  · exact putLE_of_lt h
  · exact putLE_of_ge h

/-! ## The checksum tail -/

theorem getTail_congr (hbs : dirEntryTailSize ≤ sb.blockSize)
    (h : ∀ i, sb.blockSize - dirEntryTailSize ≤ i → i < sb.blockSize - 4 → b' i = b i) :
    ext4DirGetTail sb b' = ext4DirGetTail sb b := by
  rw [dirEntryTailSize] at hbs
  have hget (c w : ℕ) (h1 : sb.blockSize - dirEntryTailSize ≤ c) (h2 : c + w ≤ sb.blockSize - 4) :
      getLE b' c w = getLE b c w :=
    getLE_congr fun i hi hi' => h i (by omega) (by omega)
  unfold dirEntryTailSize at hget
  rw [ext4DirGetTail, ext4DirGetTail, dirEntryTailSize, hget _ 4 (by omega) (by omega),
    hget _ 1 (by omega) (by omega), hget _ 2 (by omega) (by omega), hget _ 1 (by omega) (by omega)]

theorem area_le (sb : DirSb) (b : Mem) : dirArea sb b ≤ sb.blockSize := by
  unfold dirArea
  split_ifs
  · exact Nat.sub_le _ _
  · exact le_rfl

/-- What an operation makes of a block: entries `es'` in the same area, the
    tail as it was but for the checksum, which is that of the new contents. -/
structure Rewritten (sb : DirSb) (csum : Mem → ℕ) (b b' : Mem) (es' : List DirEnt) : Prop where
  block : DirBlock sb b' es'
  area : dirArea sb b' = dirArea sb b
  tail : ∀ i, dirArea sb b ≤ i → i < sb.blockSize - 4 → b' i = b i
  csum : hasTail sb b = true → ∃ b₁ : Mem, (∀ i < sb.blockSize - 4, b' i = b₁ i) ∧
    getLE b' (sb.blockSize - 4) 4 = csum b₁ % 2 ^ 32

/-- Storing the checksum finishes an operation on the entries. -/
theorem setCsum_spec {csum : Mem → ℕ} {b₁ : Mem} {es' : List DirEnt}
    (hbs : dirEntryTailSize ≤ sb.blockSize) (hp : Packed (EntAt sb b₁) 0 (dirArea sb b) es')
    (hframe : ∀ i, dirArea sb b ≤ i → b₁ i = b i)
    (hnone : hasTail sb b = false → hasTail sb b₁ = false) :
    Rewritten sb csum b (ext4DirSetCsum sb csum b₁) es' := by
  cases htail : hasTail sb b with
  | false =>
    have harea : dirArea sb b = sb.blockSize := by rw [dirArea, htail, if_neg Bool.false_ne_true]
    have hsame : ext4DirSetCsum sb csum b₁ = b₁ := by
      rw [ext4DirSetCsum]
      exact if_neg (by rw [← hasTail, hnone htail]; exact Bool.false_ne_true)
    have harea' : dirArea sb b₁ = dirArea sb b := by
      rw [harea, dirArea, hnone htail, if_neg Bool.false_ne_true]
    rw [hsame]
    exact ⟨by rw [DirBlock, harea']; exact hp, harea', fun i hi _ => hframe i hi,
      fun h => absurd (htail.symm.trans h) Bool.false_ne_true⟩
  | true =>
    have harea : dirArea sb b = sb.blockSize - dirEntryTailSize := by
      rw [dirArea, htail, if_pos rfl]
    have htail₁ : hasTail sb b₁ = true := by
      rw [← htail, hasTail, hasTail, getTail_congr hbs fun i hi _ => hframe i (harea ▸ hi)]
    have heq : ext4DirSetCsum sb csum b₁ = putLE b₁ (sb.blockSize - 4) 4 (csum b₁) := by
      rw [ext4DirSetCsum]
      exact if_pos htail₁
    rw [dirEntryTailSize] at hbs
    have hput : ∀ i < sb.blockSize - 4, putLE b₁ (sb.blockSize - 4) 4 (csum b₁) i = b₁ i :=
      fun i hi => putLE_of_lt hi
    have htail' : hasTail sb (putLE b₁ (sb.blockSize - 4) 4 (csum b₁)) = true := by
      rw [← htail₁, hasTail, hasTail, getTail_congr hbs fun i _ hi => hput i hi]
    have harea' : dirArea sb (putLE b₁ (sb.blockSize - 4) 4 (csum b₁)) = dirArea sb b := by
      rw [harea, dirArea, htail', if_pos rfl]
    rw [heq]
    refine ⟨?_, harea', fun i h1 h2 => (hput i h2).trans (hframe i h1), fun _ => ⟨b₁, hput, ?_⟩⟩
    · rw [DirBlock, harea']
      refine hp.mono fun i j e _ hj he => he.congr fun k _ hk => hput k ?_
      rw [harea, dirEntryTailSize] at hj
      omega
    · rw [getLE_putLE, show 256 ^ 4 = 2 ^ 32 by rfl]

end

end Lwext4
