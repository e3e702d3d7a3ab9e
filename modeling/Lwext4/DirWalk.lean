/-
  The loops over directory blocks once more, with a log of their accesses, and
  the iterator of `DirIter`, on blocks of any content.
-/
import Lwext4.Lib.Walk
import Lwext4.DirBlock
import Lwext4.DirIter

namespace Lwext4

open Lib

/-- What an access is for: reading, writing an entry, or writing the
    checksum. -/
inductive DirUse where
  | get | put | csum
  deriving DecidableEq

section Loops

variable (sb : DirSb) (csum : Mem → ℕ)

/-- `ext4_dir_en_get_name_len`, with its accesses. -/
def dirEnGetNameLenT (b : Mem) (en : ℕ) : Traced DirUse ℕ :=
  if sb.oldRev then do
    let lo ← Traced.getLE .get b (en + 6) 1
    let hi ← Traced.getLE .get b (en + 7) 1
    pure (lo + hi * 2 ^ 8)
  else Traced.getLE .get b (en + 6) 1

/-- `ext4_dir_en_get_inode_type`, with its accesses. -/
def dirEnGetInodeTypeT (b : Mem) (en : ℕ) : Traced DirUse ℕ :=
  if sb.oldRev then pure 0 else Traced.getLE .get b (en + 7) 1

/-- `ext4_dir_write_entry`, with its accesses. -/
def ext4DirWriteEntryT (b : Mem) (en entryLen : ℕ) (child : Child) (name : List Byte) :
    Traced DirUse (Except Stop Mem) :=
  if sb.blockSize < entryLen then pure (.error .assert)
  else do
    Traced.touch .put en 8
    Traced.touch .put (en + 8) name.length
    pure (.ok (dirEnWrite sb b en entryLen child name))

/-- `ext4_dir_set_csum`, with its accesses. -/
def ext4DirSetCsumT (b : Mem) : Traced DirUse Mem :=
  if sb.metadataCsum then do
    Traced.touch .get (sb.blockSize - dirEntryTailSize) dirEntryTailSize
    if ext4DirGetTail sb b then do
      Traced.touch .get 0 (sb.blockSize - dirEntryTailSize)
      Traced.touch .csum (sb.blockSize - 4) 4
      pure (ext4DirSetCsum sb csum b)
    else pure b
  else pure b

/-- Whether the entry is the one `ext4_dir_find_in_block` looks for. -/
def dirEnMatches (b : Mem) (name : List Byte) (de : ℕ) : Bool :=
  dirEnGetInode b de ≠ 0 && dirEnGetNameLen sb b de = name.length &&
    dirEnName b de name.length = name

/-- The comparison with an entry of the given inode, with its accesses. -/
def dirEnMatchesAtT (b : Mem) (name : List Byte) (de inode : ℕ) : Traced DirUse Bool :=
  if inode = 0 then pure false
  else do
    let el ← dirEnGetNameLenT sb b de
    if el = name.length then do
      let n ← Traced.read .get b (de + 8) name.length
      pure (decide (n = name))
    else pure false

/-- The comparison with an entry, with its accesses. -/
def dirEnMatchesT (b : Mem) (name : List Byte) (de : ℕ) : Traced DirUse Bool := do
  let inode ← Traced.getLE .get b de 4
  dirEnMatchesAtT sb b name de inode

/-- A round of the loop of `ext4_dir_find_in_block`, with its accesses. -/
def dirFindBody (b : Mem) (name : List Byte) (de : ℕ) :
    Traced DirUse (Next (Except Stop ℕ)) :=
  if sb.blockSize ≤ de then pure (.stop (.error (.rc Errno.ENOENT)))
  else if sb.blockSize < de + name.length then pure (.stop (.error (.rc Errno.ENOENT)))
  else do
    let hit ← dirEnMatchesT sb b name de
    if hit = true then pure (.stop (.ok de))
    else do
      let deLen ← Traced.getLE .get b (de + 4) 2
      if deLen = 0 then pure (.stop (.error (.rc Errno.EINVAL)))
      else pure (.go (de + deLen))

/-- The checksum behind an entry written, with its accesses. -/
def dirFinishT : Except Stop Mem → Traced DirUse (Next (Except Stop Mem))
  | .error e => pure (.stop (.error e))
  | .ok b => do
    let b ← ext4DirSetCsumT sb csum b
    pure (.stop (.ok b))

/-- The tail of a used entry is split off if it is long enough. -/
def dirSplitAtT (b : Mem) (child : Child) (name : List Byte) (start recLen usedLen : ℕ) :
    Traced DirUse (Next (Except Stop Mem)) :=
  let sz := dirUsedSize usedLen
  let freeSpace := u16 (recLen + (2 ^ 16 - sz))
  if dirRequiredLen name.length ≤ freeSpace then do
    Traced.touch .put (start + 4) 2
    let r ← ext4DirWriteEntryT sb (dirEnSetEntryLen b start sz) (start + sz) freeSpace child name
    dirFinishT sb csum r
  else pure (.go (start + recLen))

/-- The entry is used as a whole, or split, or left behind. -/
def dirInsertAtT (b : Mem) (child : Child) (name : List Byte) (start inode recLen itype : ℕ) :
    Traced DirUse (Next (Except Stop Mem)) :=
  if inode = 0 ∧ itype ≠ ext4DirentryDirCsum ∧ dirRequiredLen name.length ≤ recLen then do
    let r ← ext4DirWriteEntryT sb b start recLen child name
    dirFinishT sb csum r
  else if inode = 0 then pure (.go (start + recLen))
  else do
    let usedLen ← dirEnGetNameLenT sb b start
    dirSplitAtT sb csum b child name start recLen usedLen

/-- A round of the loop of `ext4_dir_try_insert_entry`, with its accesses. -/
def dirTryInsertBody (b : Mem) (child : Child) (name : List Byte) (start : ℕ) :
    Traced DirUse (Next (Except Stop Mem)) :=
  if sb.blockSize ≤ start then pure (.stop (.error (.rc Errno.ENOSPC)))
  else do
    let inode ← Traced.getLE .get b start 4
    let recLen ← Traced.getLE .get b (start + 4) 2
    let itype ← dirEnGetInodeTypeT sb b start
    dirInsertAtT sb csum b child name start inode recLen itype

/-- A round of the search for the direct predecessor of the entry at `pos`,
    with its accesses. -/
def dirPredBody (b : Mem) (pos offset : ℕ) : Traced DirUse (Next ℕ) := do
  let deLen ← Traced.getLE .get b (offset + 4) 2
  if offset + deLen < pos then pure (.go (offset + deLen)) else pure (.stop offset)

/-- The entry at `pos` is added to the one at `offset`, with its accesses. -/
def dirMergeT (b : Mem) (pos offset : ℕ) : Traced DirUse (Except Stop Mem) := do
  let deLen ← Traced.getLE .get b (offset + 4) 2
  if deLen + offset ≠ pos then pure (.error .assert)
  else do
    let delLen ← Traced.getLE .get b (pos + 4) 2
    Traced.touch .put (offset + 4) 2
    let b ← ext4DirSetCsumT sb csum (dirEnSetEntryLen b offset (deLen + delLen))
    pure (.ok b)

/-- The part of `ext4_dir_remove_entry` behind the search, with its accesses. -/
def dirRemoveAtT (b : Mem) (fuel pos : ℕ) : Traced DirUse (Option (Except Stop Mem)) := do
  Traced.touch .put pos 4
  let b := dirEnSetInode b pos 0
  if pos ≠ 0 then do
    match ← walk (dirPredBody b pos) fuel 0 with
    | none => pure none
    | some offset => do
      let r ← dirMergeT sb csum b pos offset
      pure (some r)
  else do
    let b ← ext4DirSetCsumT sb csum b
    pure (some (.ok b))

/-- `ext4_dir_remove_entry`, with its accesses. -/
def ext4DirRemoveEntryT (b : Mem) (name : List Byte) (fuel : ℕ) :
    Traced DirUse (Option (Except Stop Mem)) := do
  match ← walk (dirFindBody sb b name) (sb.blockSize + 1) 0 with
  | none => pure none
  | some (.error e) => pure (some (.error e))
  | some (.ok pos) => dirRemoveAtT sb csum b fuel pos

end Loops

namespace DirFile

variable (d : DirFile)

/-- The checks of `ext4_dir_iterator_set` on a record of the given length. -/
def iteratorCheckT (it : DirIter) (offInBlock length : ℕ) :
    Traced DirUse (Except Stop Unit × DirIter) :=
  if d.sb.blockSize < offInBlock + length then pure (.error (.rc Errno.EIO), it)
  else do
    let nameLen ← dirEnGetNameLenT d.sb (d.disk it.lbId) offInBlock
    if length < nameLen + 8 then pure (.error (.rc Errno.EIO), it)
    else pure (.ok (), { it with curr := some offInBlock })

/-- `ext4_dir_iterator_set`, with its accesses. -/
def iteratorSetT (it : DirIter) : Traced DirUse (Except Stop Unit × DirIter) :=
  let offInBlock := it.currOff % d.sb.blockSize
  let it := { it with curr := none }
  if offInBlock % 4 ≠ 0 then pure (.error (.rc Errno.EIO), it)
  else if d.sb.blockSize - 8 < offInBlock then pure (.error (.rc Errno.EIO), it)
  else do
    let length ← Traced.getLE .get (d.disk it.lbId) (offInBlock + 4) 2
    iteratorCheckT d it offInBlock length

/-- `ext4_dir_iterator_seek`, with its accesses. -/
def iteratorSeekT (it : DirIter) (pos : ℕ) : Traced DirUse (Except Stop Unit × DirIter) :=
  if d.size ≤ pos then pure (.ok (), { curr := none, currOff := pos, lbId := 0 })
  else
    let currentBlkIdx := it.currOff / d.sb.blockSize
    let nextBlkIdx := u32 (pos / d.sb.blockSize)
    let lbId := if it.lbId = 0 ∨ currentBlkIdx ≠ nextBlkIdx then d.fblock nextBlkIdx else it.lbId
    d.iteratorSetT { curr := none, currOff := pos, lbId := lbId }

/-- `ext4_dir_iterator_init`, with its accesses. -/
def iteratorInitT (pos : ℕ) : Traced DirUse (Except Stop Unit × DirIter) :=
  d.iteratorSeekT { curr := none, currOff := 0, lbId := 0 } pos

/-- `ext4_dir_iterator_next`, with its accesses. -/
def iteratorNextT : (fuel : ℕ) → DirIter → Traced DirUse (Option (Except Stop Unit × DirIter))
  | 0, _ => pure none
  | fuel + 1, it =>
    match it.curr with
    | none => pure (some (.error .assert, it))
    | some en => do
      let skip ← Traced.getLE .get (d.disk it.lbId) (en + 4) 2
      let x ← d.iteratorSeekT it (u64 (it.currOff + skip))
      match x.2.curr with
      | none => pure (some x)
      | some en => do
        let inode ← Traced.getLE .get (d.disk x.2.lbId) en 4
        if inode ≠ 0 then pure (some x)
        else
          match x.1 with
          | .error e => pure (some (.error e, x.2))
          | .ok () => iteratorNextT fuel x.2

end DirFile

/-! ## The same loops -/

section
variable {sb : DirSb} {csum : Mem → ℕ} {b : Mem} {child : Child} {name : List Byte} {p pos fuel : ℕ}

@[simp] theorem getNameLenT_val : (dirEnGetNameLenT sb b p).val = dirEnGetNameLen sb b p := by
  unfold dirEnGetNameLenT dirEnGetNameLen
  split_ifs <;> rfl

@[simp] theorem getInodeTypeT_val : (dirEnGetInodeTypeT sb b p).val = dirEnGetInodeType sb b p := by
  unfold dirEnGetInodeTypeT dirEnGetInodeType
  split_ifs <;> rfl

@[simp] theorem writeEntryT_val (len : ℕ) : (ext4DirWriteEntryT sb b p len child name).val =
    ext4DirWriteEntry sb b p len child name := by
  unfold ext4DirWriteEntryT ext4DirWriteEntry
  split_ifs <;> rfl

@[simp] theorem setCsumT_val : (ext4DirSetCsumT sb csum b).val = ext4DirSetCsum sb csum b := by
  unfold ext4DirSetCsumT ext4DirSetCsum
  by_cases h : sb.metadataCsum = true
  · by_cases ht : ext4DirGetTail sb b = true
    · simp [h, ht]
    · simp [h, ht]
  · simp [h]

@[simp] theorem finishT_val (r : Except Stop Mem) : (dirFinishT sb csum r).val =
    .stop (r.map (ext4DirSetCsum sb csum)) := by
  cases r with
  | error e => rfl
  | ok b =>
    rw [dirFinishT, Traced.bind_val, setCsumT_val]
    rfl

@[simp] theorem matchesT_val : (dirEnMatchesT sb b name p).val = dirEnMatches sb b name p := by
  have h : (dirEnMatchesT sb b name p).val =
      (dirEnMatchesAtT sb b name p (dirEnGetInode b p)).val := rfl
  rw [h, dirEnMatchesAtT, dirEnMatches]
  by_cases hi : dirEnGetInode b p = 0
  · simp [hi]
  rw [if_neg hi, Traced.bind_val, getNameLenT_val]
  by_cases hl : dirEnGetNameLen sb b p = name.length
  · rw [if_pos hl, Traced.bind_val, Traced.read_val, Traced.pure_val, dirEnName]
    simp [hi, hl]
  · simp [hi, hl]

theorem matches_iff : dirEnMatches sb b name p = true ↔ dirEnGetInode b p ≠ 0 ∧
    dirEnGetNameLen sb b p = name.length ∧ dirEnName b p name.length = name := by
  simp [dirEnMatches, and_assoc]

/-- What a round of the search decides. -/
theorem findBody_val : (dirFindBody sb b name p).val =
    if sb.blockSize ≤ p then .stop (.error (.rc Errno.ENOENT))
    else if sb.blockSize < p + name.length then .stop (.error (.rc Errno.ENOENT))
    else if dirEnMatches sb b name p = true then .stop (.ok p)
    else if dirEnGetEntryLen b p = 0 then .stop (.error (.rc Errno.EINVAL))
    else .go (p + dirEnGetEntryLen b p) := by
  unfold dirFindBody
  rw [dirEnGetEntryLen]
  by_cases h1 : sb.blockSize ≤ p
  · simp [h1]
  by_cases h2 : sb.blockSize < p + name.length
  · simp [h1, h2]
  by_cases h3 : dirEnMatches sb b name p = true
  · simp [h1, h2, h3]
  by_cases h4 : getLE b (p + 4) 2 = 0
  · simp [h1, h2, h3, h4]
  · simp [h1, h2, h3, h4]

theorem walk_find : (walk (dirFindBody sb b name) fuel p).val = dirFindLoop sb b name fuel p := by
  induction fuel generalizing p with
  | zero => rfl
  | succ fuel ih =>
    rw [dirFindLoop, walk, Traced.bind_val, findBody_val]
    simp only [← matches_iff]
    split_ifs
    · rfl
    · rfl
    · rfl
    · rfl
    · exact ih

/-- The entry is unused and long enough. -/
def TakesUnused (sb : DirSb) (b : Mem) (len p : ℕ) : Prop :=
  dirEnGetInode b p = 0 ∧ dirEnGetInodeType sb b p ≠ ext4DirentryDirCsum ∧
    dirRequiredLen len ≤ dirEnGetEntryLen b p

/-- The room behind the name of a used entry, in 16-bit arithmetic. -/
def dirFreeSpace (sb : DirSb) (b : Mem) (p : ℕ) : ℕ :=
  u16 (dirEnGetEntryLen b p + (2 ^ 16 - dirUsedSize (dirEnGetNameLen sb b p)))

/-- The entry is used, and its tail is long enough. -/
def Splits (sb : DirSb) (b : Mem) (len p : ℕ) : Prop :=
  dirEnGetInode b p ≠ 0 ∧ dirRequiredLen len ≤ dirFreeSpace sb b p

/-- What an insertion at the entry writes, or says. -/
def insertedAt (sb : DirSb) (csum : Mem → ℕ) (b : Mem) (child : Child) (name : List Byte) (p : ℕ) :
    Except Stop Mem :=
  let sz := dirUsedSize (dirEnGetNameLen sb b p)
  Except.map (ext4DirSetCsum sb csum) <|
    if dirEnGetInode b p = 0 then ext4DirWriteEntry sb b p (dirEnGetEntryLen b p) child name
    else ext4DirWriteEntry sb (dirEnSetEntryLen b p sz) (p + sz) (dirFreeSpace sb b p) child name

instance (sb : DirSb) (b : Mem) (len p : ℕ) : Decidable (TakesUnused sb b len p) :=
  inferInstanceAs (Decidable (_ ∧ _))

instance (sb : DirSb) (b : Mem) (len p : ℕ) : Decidable (Splits sb b len p) :=
  inferInstanceAs (Decidable (_ ∧ _))

theorem tryInsertBody_eq (h : p < sb.blockSize) :
    (dirTryInsertBody sb csum b child name p).val =
      (dirInsertAtT sb csum b child name p (dirEnGetInode b p) (dirEnGetEntryLen b p)
        (dirEnGetInodeType sb b p)).val := by
  unfold dirTryInsertBody
  rw [if_neg (Nat.not_le.2 h), Traced.bind_val, Traced.bind_val, Traced.bind_val, getInodeTypeT_val]
  rfl

/-- What a round of the insertion decides. -/
theorem tryInsertBody_val : (dirTryInsertBody sb csum b child name p).val =
    if sb.blockSize ≤ p then .stop (.error (.rc Errno.ENOSPC))
    else if TakesUnused sb b name.length p ∨ Splits sb b name.length p then
      .stop (insertedAt sb csum b child name p)
    else .go (p + dirEnGetEntryLen b p) := by
  by_cases h1 : sb.blockSize ≤ p
  · rw [if_pos h1]
    unfold dirTryInsertBody
    rw [if_pos h1]
    rfl
  rw [if_neg h1, tryInsertBody_eq (Nat.not_le.1 h1), dirInsertAtT]
  by_cases hi : dirEnGetInode b p = 0
  · have hns : ¬ Splits sb b name.length p := fun h => h.1 hi
    by_cases ht : TakesUnused sb b name.length p
    · rw [if_pos (show _ ∧ _ ∧ _ from ht), if_pos (.inl ht), insertedAt, if_pos hi]
      simp only [Traced.bind_val, writeEntryT_val, finishT_val]
    · rw [if_neg (show ¬(_ ∧ _ ∧ _) from ht), if_pos hi, if_neg fun h => h.elim ht hns]
      rfl
  · have hnt : ¬ TakesUnused sb b name.length p := fun h => hi h.1
    rw [if_neg fun h => hi h.1, if_neg hi, Traced.bind_val, getNameLenT_val, dirSplitAtT,
      ← dirFreeSpace]
    by_cases hs : Splits sb b name.length p
    · rw [if_pos hs.2, if_pos (.inr hs), insertedAt, if_neg hi]
      simp only [Traced.bind_val, writeEntryT_val, finishT_val]
    · rw [if_neg fun h => hs ⟨hi, h⟩, if_neg fun h => h.elim hnt hs]
      rfl

theorem walk_tryInsert : (walk (dirTryInsertBody sb csum b child name) fuel p).val =
    dirTryInsertLoop sb csum b child name fuel p := by
  induction fuel generalizing p with
  | zero => rfl
  | succ fuel ih =>
    rw [dirTryInsertLoop, walk, Traced.bind_val, tryInsertBody_val]
    by_cases h1 : sb.blockSize ≤ p
    · rw [if_pos h1, if_pos h1]
      rfl
    rw [if_neg h1, if_neg h1]
    by_cases ht : TakesUnused sb b name.length p
    · rw [if_pos (.inl ht)]
      dsimp only
      rw [if_pos (show _ ∧ _ ∧ _ from ht), insertedAt, if_pos ht.1]
      rfl
    by_cases hs : Splits sb b name.length p
    · rw [if_pos (.inr hs)]
      dsimp only
      rw [if_neg fun h => hs.1 h.1, ← dirFreeSpace, if_pos (show _ ∧ _ from hs), insertedAt, if_neg hs.1]
      rfl
    · rw [if_neg fun h => h.elim ht hs]
      dsimp only
      rw [if_neg (show ¬(_ ∧ _ ∧ _) from ht), ← dirFreeSpace, if_neg (show ¬(_ ∧ _) from hs)]
      exact ih

/-- What a round of the search of the predecessor decides. -/
theorem predBody_val (offset : ℕ) : (dirPredBody b pos offset).val =
    if offset + dirEnGetEntryLen b offset < pos then .go (offset + dirEnGetEntryLen b offset)
    else .stop offset := by
  unfold dirPredBody
  rw [dirEnGetEntryLen, Traced.bind_val, Traced.getLE_val]
  split_ifs <;> rfl

theorem walk_pred (offset : ℕ) :
    (walk (dirPredBody b pos) fuel offset).val = dirPredLoop b pos fuel offset := by
  induction fuel generalizing offset with
  | zero => rfl
  | succ fuel ih =>
    rw [dirPredLoop, walk, Traced.bind_val, predBody_val]
    split_ifs
    · exact ih _
    · rfl

theorem mergeT_val (offset : ℕ) : (dirMergeT sb csum b pos offset).val =
    if dirEnGetEntryLen b offset + offset ≠ pos then .error .assert
    else .ok (ext4DirSetCsum sb csum
      (dirEnSetEntryLen b offset (dirEnGetEntryLen b offset + dirEnGetEntryLen b pos))) := by
  unfold dirMergeT
  rw [Traced.bind_val, Traced.getLE_val, dirEnGetEntryLen]
  split_ifs with h
  · rfl
  · simp only [Traced.bind_val, Traced.getLE_val, setCsumT_val, Traced.pure_val]
    rfl

theorem removeAtT_zero : (dirRemoveAtT sb csum b fuel 0).val =
    some (.ok (ext4DirSetCsum sb csum (dirEnSetInode b 0 0))) := by
  rw [dirRemoveAtT, Traced.bind_val, if_neg (not_not.2 rfl), Traced.bind_val, setCsumT_val]
  rfl

theorem removeAtT_pos (h : pos ≠ 0) : (dirRemoveAtT sb csum b fuel pos).val =
    (walk (dirPredBody (dirEnSetInode b pos 0) pos) fuel 0).val.map
      fun offset => (dirMergeT sb csum (dirEnSetInode b pos 0) pos offset).val := by
  rw [dirRemoveAtT, Traced.bind_val, if_pos h, Traced.bind_val]
  cases (walk (dirPredBody (dirEnSetInode b pos 0) pos) fuel 0).val <;> rfl

/-- With the fuel of `dirRemoveAt`. -/
theorem removeAtT_val :
    (dirRemoveAtT sb csum b (pos + 1) pos).val = dirRemoveAt sb csum b pos := by
  unfold dirRemoveAt
  dsimp only
  by_cases h : pos = 0
  · subst h
    rw [removeAtT_zero, if_neg (not_not.2 rfl)]
  · rw [removeAtT_pos h, walk_pred, if_pos h]
    cases dirPredLoop (dirEnSetInode b pos 0) pos (pos + 1) 0 with
    | none => rfl
    | some offset =>
      rw [Option.map_some, mergeT_val]
      dsimp only
      have hlen : dirEnGetEntryLen (dirEnSetInode b pos 0) pos = dirEnGetEntryLen b pos :=
        getLE_putLE_of_disjoint (.inr (by omega))
      rw [hlen]
      split_ifs <;> rfl

theorem removeEntryT_error {e : Stop} (h : ext4DirFindInBlock sb b name = some (.error e)) :
    (ext4DirRemoveEntryT sb csum b name fuel).val = some (.error e) := by
  rw [ext4DirRemoveEntryT, Traced.bind_val, walk_find, ← ext4DirFindInBlock, h]
  rfl

theorem removeEntryT_ok (h : ext4DirFindInBlock sb b name = some (.ok pos)) :
    (ext4DirRemoveEntryT sb csum b name fuel).val = (dirRemoveAtT sb csum b fuel pos).val := by
  rw [ext4DirRemoveEntryT, Traced.bind_val, walk_find, ← ext4DirFindInBlock, h]

end

namespace DirFile

variable {d : DirFile} {it : DirIter} {pos : ℕ}

theorem iteratorCheckT_val {off length : ℕ} : (d.iteratorCheckT it off length).val =
    if d.sb.blockSize < off + length then (.error (.rc Errno.EIO), it)
    else if length < dirEnGetNameLen d.sb (d.disk it.lbId) off + 8 then (.error (.rc Errno.EIO), it)
    else (.ok (), { it with curr := some off }) := by
  unfold iteratorCheckT
  by_cases h : d.sb.blockSize < off + length
  · rw [if_pos h, if_pos h]
    rfl
  rw [if_neg h, if_neg h, Traced.bind_val, getNameLenT_val]
  split_ifs <;> rfl

theorem iteratorSetT_val : (d.iteratorSetT it).val = d.iteratorSet it := by
  unfold iteratorSetT iteratorSet
  dsimp only
  by_cases h1 : it.currOff % d.sb.blockSize % 4 ≠ 0
  · rw [if_pos h1, if_pos h1]
    rfl
  rw [if_neg h1, if_neg h1]
  by_cases h2 : d.sb.blockSize - 8 < it.currOff % d.sb.blockSize
  · rw [if_pos h2, if_pos h2]
    rfl
  rw [if_neg h2, if_neg h2, Traced.bind_val, Traced.getLE_val, dirEnGetEntryLen]
  exact iteratorCheckT_val

theorem iteratorSeekT_val : (d.iteratorSeekT it pos).val = d.iteratorSeek it pos := by
  unfold iteratorSeekT iteratorSeek
  by_cases h : d.size ≤ pos
  · rw [if_pos h, if_pos h]
    rfl
  · rw [if_neg h, if_neg h]
    exact iteratorSetT_val

theorem iteratorNextT_val (fuel : ℕ) : (d.iteratorNextT fuel it).val = d.iteratorNext fuel it := by
  induction fuel generalizing it with
  | zero => rfl
  | succ fuel ih =>
    rw [iteratorNextT, iteratorNext]
    cases it.curr with
    | none => rfl
    | some en =>
      dsimp only
      rw [Traced.bind_val, Traced.getLE_val, Traced.bind_val, iteratorSeekT_val]
      rw [dirEnGetEntryLen]
      generalize d.iteratorSeek it (u64 (it.currOff + getLE (d.disk it.lbId) (en + 4) 2)) = x
      obtain ⟨r, it'⟩ := x
      dsimp only
      cases it'.curr with
      | none => rfl
      | some en' =>
        dsimp only
        rw [Traced.bind_val, Traced.getLE_val, dirEnGetInode]
        split_ifs with hi
        · rfl
        · cases r with
          | error e => rfl
          | ok u => exact ih

end DirFile

end Lwext4
