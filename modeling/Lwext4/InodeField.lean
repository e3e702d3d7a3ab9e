/-
  The packed fields of an inode (`ext4_inode.c`): sizes, block counts, the
  attribute block and the owner, in the bytes of `struct ext4_inode`.

  A getter puts a value together from a low and a high half; whether there is a
  high half depends on the superblock and on other fields.  `packed_iff` says of
  every value that is set when it is read back.  A setter changes no other field
  (`write_frame`), whatever it makes of its own.

  The machine is little endian, so `to_le32` and its kin do nothing.
-/
import Lwext4.BallocBatch
import Lwext4.Lib.Bytes

namespace Lwext4

open Lib

namespace InodeRaw

/-- The superblock fields that the inode functions read. -/
structure Sb extends SBlock where
  revLevel : ℕ
  creatorOs : ℕ

variable (sb : Sb) (inode : Mem)

/-! ## Getters -/

/-- `ext4_inode_get_mode`; 1 is `EXT4_SUPERBLOCK_OS_HURD`. -/
def getMode : ℕ :=
  let v := getLE inode 0 2
  if sb.creatorOs = 1 then v ||| getLE inode 118 2 <<< 16 else v

/-- `ext4_inode_type`. -/
def inodeType : ℕ := getMode sb inode &&& 0xF000

/-- `ext4_inode_is_type`. -/
def isType (type : ℕ) : Bool := inodeType sb inode == type

/-- `ext4_inode_get_uid`. -/
def getUid : ℕ := getLE inode 2 2

/-- `ext4_inode_get_gid`. -/
def getGid : ℕ := getLE inode 24 2

/-- `ext4_inode_get_size`; `0x8000` is `EXT4_INODE_MODE_FILE`. -/
def getSize : ℕ :=
  let v := getLE inode 4 4
  if 0 < sb.revLevel ∧ isType sb inode 0x8000 then v ||| getLE inode 108 4 <<< 32 else v

/-- `ext4_inode_get_csum`. -/
def getCsum : ℕ :=
  let v := getLE inode 124 2
  if 128 < sb.inodeSize then v ||| getLE inode 130 2 <<< 16 else v

/-- `ext4_inode_get_flags`. -/
def getFlags : ℕ := getLE inode 32 4

/-- `ext4_inode_has_flag`. -/
def hasFlag (f : ℕ) : Bool := getFlags inode &&& f != 0

/-- `EXT4_INODE_FLAG_HUGE_FILE`. -/
def flagHugeFile : ℕ := 0x00040000

/-- `ext4_inode_get_blocks_count`. -/
def getBlocksCount : ℕ :=
  let cnt := getLE inode 28 4
  if sb.hugeFile then
    let cnt := cnt ||| getLE inode 116 2 <<< 32
    if hasFlag inode flagHugeFile then cnt <<< (inodeBlockBitsCount sb.getBlockSize - 9) else cnt
  else cnt

/-- `ext4_inode_get_file_acl`; 0 is `EXT4_SUPERBLOCK_OS_LINUX`. -/
def getFileAcl : ℕ :=
  let v := getLE inode 104 4
  if sb.creatorOs = 0 then v ||| getLE inode 118 2 <<< 16 else v

/-- `ext4_inode_get_extra_isize`. -/
def getExtraIsize : ℕ := if 128 < sb.inodeSize then getLE inode 128 2 else 0

/-- What can be read of an inode.  Each flag is a field of its own. -/
inductive Field where
  | mode | uid | gid | size | accessTime | changeInodeTime | modifTime | delTime | linksCnt
  | blocksCount | generation | extraIsize | fileAcl | csum
  | flag (bit : Fin 32)
  | block (idx : Fin 15)
  deriving DecidableEq

/-- The getters by field. -/
def readField : Field → ℕ
  | .mode => getMode sb inode
  | .uid => getUid inode
  | .gid => getGid inode
  | .size => getSize sb inode
  | .accessTime => getLE inode 8 4
  | .changeInodeTime => getLE inode 12 4
  | .modifTime => getLE inode 16 4
  | .delTime => getLE inode 20 4
  | .linksCnt => getLE inode 26 2
  | .blocksCount => getBlocksCount sb inode
  | .generation => getLE inode 100 4
  | .extraIsize => getExtraIsize sb inode
  | .fileAcl => getFileAcl sb inode
  | .csum => getCsum sb inode
  | .flag bit => if hasFlag inode (2 ^ bit.1) then 1 else 0
  | .block idx => getLE inode (40 + 4 * idx.1) 4

/-! ## Setters -/

/-- `ext4_inode_set_flags`. -/
def setFlags (flags : ℕ) : Mem := putLE inode 32 4 flags

/-- `ext4_inode_set_flag`. -/
def setFlag (f : ℕ) : Mem := setFlags inode (getFlags inode ||| f)

/-- `ext4_inode_clear_flag`. -/
def clearFlag (f : ℕ) : Mem := setFlags inode (getFlags inode &&& ((2 ^ 32 - 1) ^^^ f))

/-- `ext4_inode_set_size`. -/
def setSize (size : ℕ) : Mem := putLE (putLE inode 4 4 size) 108 4 (size >>> 32)

/-- The two halves of the block count. -/
def putBlocksCount (count high : ℕ) : Mem := putLE (putLE inode 28 4 count) 116 2 high

/-- `ext4_inode_set_blocks_count`. -/
def setBlocksCount (count : ℕ) : Except Errno Mem :=
  if count ≤ 2 ^ 32 - 1 then .ok (clearFlag (putBlocksCount inode count 0) flagHugeFile)
  else if !sb.hugeFile then .error .EINVAL
  else if count ≤ 2 ^ 48 - 1 then
    .ok (clearFlag (putBlocksCount inode count (count >>> 32)) flagHugeFile)
  else
    let inode := setFlag inode flagHugeFile
    let count := count >>> (inodeBlockBitsCount sb.getBlockSize - 9)
    .ok (putBlocksCount inode count (count >>> 32))

/-- `ext4_inode_set_file_acl`. -/
def setFileAcl (acl : ℕ) : Mem :=
  let inode := putLE inode 104 4 acl
  if sb.creatorOs = 0 then putLE inode 118 2 (acl >>> 32) else inode

/-- `ext4_inode_set_uid`, into a field of 16 bits. -/
def setUid (uid : ℕ) : Mem := putLE inode 2 2 uid

/-- `ext4_inode_set_gid`. -/
def setGid (gid : ℕ) : Mem := putLE inode 24 2 gid

/-- A value for a packed field; both halves of `ext4_owner_set` go together. -/
inductive PackedValue where
  | size (n : ℕ)
  | blocksCount (count : ℕ)
  | fileAcl (acl : ℕ)
  | owner (uid gid : ℕ)

/-- The setters by field. -/
def PackedValue.write : PackedValue → Except Errno Mem
  | .size n => .ok (setSize inode n)
  | .blocksCount count => setBlocksCount sb inode count
  | .fileAcl acl => .ok (setFileAcl sb inode acl)
  | .owner uid gid => .ok (setGid (setUid inode uid) gid)

/-! ## What is promised -/

/-- The values of the type a setter takes: the sectors of whole blocks, 48 bits
    of a block number. -/
def PackedValue.Accepted : PackedValue → Prop
  | .size n => n < 2 ^ 64
  | .blocksCount count => count < 2 ^ 64 ∧ sb.getBlockSize / 512 ∣ count
  | .fileAcl acl => acl < 2 ^ 48
  | .owner uid gid => uid < 2 ^ 32 ∧ gid < 2 ^ 32

/-- The fields that the value is for, with the flag that scales a count. -/
def PackedValue.fields : PackedValue → List Field
  | .size _ => [.size]
  | .blocksCount _ => [.blocksCount, .flag 18]
  | .fileAcl _ => [.fileAcl]
  | .owner _ _ => [.uid, .gid]

/-- The value is what is read. -/
def PackedValue.ReadsAs : PackedValue → Prop
  | .size n => readField sb inode .size = n
  | .blocksCount count => readField sb inode .blocksCount = count
  | .fileAcl acl => readField sb inode .fileAcl = acl
  | .owner uid gid => readField sb inode .uid = uid ∧ readField sb inode .gid = gid

/-- The value is read back and no other field changes, or it is refused because
    no inode reads as it. -/
def Keeps (w : PackedValue) : Prop :=
  match w.write sb inode with
  | .ok inode' => w.ReadsAs sb inode' ∧ ∀ f ∉ w.fields, readField sb inode' f = readField sb inode f
  | .error _ => ∀ inode' : Mem, ¬w.ReadsAs sb inode'

/-- The value fits into what is read. -/
def PackedValue.Fits : PackedValue → Prop
  | .size n => n < 2 ^ 32 ∨ (0 < sb.revLevel ∧ isType sb inode 0x8000 = true)
  | .blocksCount count => sb.hugeFile = false ∨ count / (sb.getBlockSize / 512) < 2 ^ 48
  | .fileAcl acl => acl < 2 ^ 32
  | .owner uid gid => uid < 2 ^ 16 ∧ gid < 2 ^ 16

/-! ## Two halves -/

variable {sb inode}

theorem or_shiftLeft {lo n : ℕ} (h : lo < 2 ^ n) (hi : ℕ) : lo ||| hi <<< n = lo + hi * 2 ^ n := by
  rw [Nat.or_comm, ← Nat.shiftLeft_add_eq_or_of_lt h, Nat.shiftLeft_eq, Nat.add_comm]

theorem getFlags_lt (inode : Mem) : getFlags inode < 2 ^ 32 := getLE_lt inode 32 4

theorem hasFlag_two_pow (inode : Mem) (i : ℕ) :
    hasFlag inode (2 ^ i) = (getFlags inode).testBit i := by
  rw [hasFlag, Nat.and_two_pow]
  cases (getFlags inode).testBit i <;> simp

theorem flagHugeFile_eq : flagHugeFile = 2 ^ 18 := by decide

theorem testBit_setFlag (inode : Mem) (i : Fin 32) :
    (getFlags (setFlag inode flagHugeFile)).testBit i =
      ((getFlags inode).testBit i || decide (i = 18)) := by
  have hlt : getFlags inode ||| 2 ^ 18 < 2 ^ 32 := Nat.or_lt_two_pow (getFlags_lt inode) (by decide)
  rw [flagHugeFile_eq, setFlag, setFlags, getFlags, getLE_putLE, show 256 ^ 4 = 2 ^ 32 from rfl,
    Nat.mod_eq_of_lt hlt, Nat.testBit_or, Nat.testBit_two_pow]
  congr 1
  rw [decide_eq_decide]
  exact ⟨fun h => Fin.ext h.symm, fun h => (congrArg Fin.val h).symm⟩

theorem testBit_clearFlag (inode : Mem) (i : Fin 32) :
    (getFlags (clearFlag inode flagHugeFile)).testBit i =
      ((getFlags inode).testBit i && !decide (i = 18)) := by
  have hlt : getFlags inode &&& ((2 ^ 32 - 1) ^^^ 2 ^ 18) < 2 ^ 32 :=
    Nat.and_lt_two_pow _ (by decide)
  have hall : ∀ i : Fin 32, ((2 ^ 32 - 1) ^^^ 2 ^ 18).testBit i = !decide (i = 18) := by decide
  rw [flagHugeFile_eq, clearFlag, setFlags, getFlags, getLE_putLE, show 256 ^ 4 = 2 ^ 32 from rfl,
    Nat.mod_eq_of_lt hlt, Nat.testBit_and, hall i]

/-! ## What is not changed -/

/-- The bytes of the inode that a getter looks at. -/
def Field.bytes (sb : Sb) : Field → List (ℕ × ℕ)
  | .mode => (0, 2) :: if sb.creatorOs = 1 then [(118, 2)] else []
  | .uid => [(2, 2)]
  | .gid => [(24, 2)]
  | .size => (4, 4) :: (108, 4) :: (0, 2) :: if sb.creatorOs = 1 then [(118, 2)] else []
  | .accessTime => [(8, 4)]
  | .changeInodeTime => [(12, 4)]
  | .modifTime => [(16, 4)]
  | .delTime => [(20, 4)]
  | .linksCnt => [(26, 2)]
  | .blocksCount => [(28, 4), (116, 2), (32, 4)]
  | .generation => [(100, 4)]
  | .extraIsize => [(128, 2)]
  | .fileAcl => (104, 4) :: if sb.creatorOs = 0 then [(118, 2)] else []
  | .csum => [(124, 2), (130, 2)]
  | .flag _ => [(32, 4)]
  | .block idx => [(40 + 4 * idx.1, 4)]

variable {inode' : Mem} {f : Field} {a w : ℕ}

theorem getMode_congr (h : ∀ r ∈ Field.mode.bytes sb, getLE inode' r.1 r.2 = getLE inode r.1 r.2) :
    getMode sb inode' = getMode sb inode := by
  unfold Field.bytes at h
  rw [List.forall_mem_cons] at h
  unfold getMode
  split_ifs with hos
  · rw [if_pos hos, List.forall_mem_singleton] at h
    rw [h.1, h.2]
  · rw [h.1]

theorem getBlocksCount_congr
    (h : ∀ r ∈ Field.blocksCount.bytes sb, getLE inode' r.1 r.2 = getLE inode r.1 r.2) :
    getBlocksCount sb inode' = getBlocksCount sb inode := by
  unfold Field.bytes at h
  rw [List.forall_mem_cons, List.forall_mem_cons, List.forall_mem_singleton] at h
  rw [getBlocksCount, getBlocksCount, hasFlag, hasFlag, getFlags, getFlags, h.1, h.2.1, h.2.2]

/-- A getter depends on its bytes only. -/
theorem readField_congr (h : ∀ r ∈ f.bytes sb, getLE inode' r.1 r.2 = getLE inode r.1 r.2) :
    readField sb inode' f = readField sb inode f := by
  cases f with
  | mode => exact getMode_congr h
  | blocksCount => exact getBlocksCount_congr h
  | size =>
    unfold Field.bytes at h
    rw [List.forall_mem_cons, List.forall_mem_cons] at h
    obtain ⟨hlo, hhi, hmode⟩ := h
    have hm := getMode_congr hmode
    rw [readField, readField, getSize, getSize, isType, isType, inodeType, inodeType, hm, hlo, hhi]
  | fileAcl =>
    unfold Field.bytes at h
    rw [List.forall_mem_cons] at h
    rw [readField, readField, getFileAcl, getFileAcl]
    split_ifs with hos
    · rw [if_pos hos, List.forall_mem_singleton] at h
      rw [h.1, h.2]
    · exact h.1
  | csum =>
    unfold Field.bytes at h
    rw [List.forall_mem_cons, List.forall_mem_singleton] at h
    rw [readField, readField, getCsum, getCsum, h.1, h.2]
  | extraIsize =>
    rw [readField, readField, getExtraIsize, getExtraIsize, h _ List.mem_cons_self]
  | flag i =>
    rw [readField, readField, hasFlag, hasFlag, getFlags, getFlags, h _ List.mem_cons_self]
  | _ => exact h _ List.mem_cons_self

/-- The getter looks at none of the `w` bytes from `a` on. -/
def Field.Avoids (sb : Sb) (f : Field) (a w : ℕ) : Prop :=
  ∀ r ∈ f.bytes sb, r.1 + r.2 ≤ a ∨ a + w ≤ r.1

theorem readField_putLE (h : f.Avoids sb a w) (n : ℕ) :
    readField sb (putLE inode a w n) f = readField sb inode f :=
  readField_congr fun r hr => getLE_putLE_of_disjoint (h r hr)

/-- Where the bytes of the fields are: only the size shares bytes with another
    field, the mode, which may share its high half with `file_acl_high`. -/
theorem Field.mem_bytes {r : ℕ × ℕ} (hr : r ∈ f.bytes sb) :
    (f = .mode ∨ f = .size) ∧ r = (0, 2) ∨
    (f = .mode ∨ f = .size) ∧ sb.creatorOs = 1 ∧ r = (118, 2) ∨
    f = .size ∧ (r = (4, 4) ∨ r = (108, 4)) ∨
    f = .blocksCount ∧ (r = (28, 4) ∨ r = (116, 2) ∨ r = (32, 4)) ∨
    (∃ i, f = .flag i) ∧ r = (32, 4) ∨
    f = .fileAcl ∧ (r = (104, 4) ∨ sb.creatorOs = 0 ∧ r = (118, 2)) ∨
    f = .uid ∧ r = (2, 2) ∨ f = .gid ∧ r = (24, 2) ∨
    (8 ≤ r.1 ∧ r.1 + r.2 ≤ 24 ∨ 26 ≤ r.1 ∧ r.1 + r.2 ≤ 28 ∨ 40 ≤ r.1 ∧ r.1 + r.2 ≤ 104 ∨
      124 ≤ r.1) := by
  cases f <;>
    simp only [Field.bytes, List.mem_cons, List.not_mem_nil, or_false,
      List.mem_ite_nil_right] at hr <;>
    grind

theorem readField_setSize (n : ℕ) (hf : f ≠ .size) :
    readField sb (setSize inode n) f = readField sb inode f := by
  have havoid : f.Avoids sb 4 4 ∧ f.Avoids sb 108 4 := by
    constructor <;> intro r hr <;> have := Field.mem_bytes hr <;> grind
  rw [setSize, readField_putLE havoid.2, readField_putLE havoid.1]

theorem readField_setFileAcl (acl : ℕ) (hf : f ≠ .fileAcl) :
    readField sb (setFileAcl sb inode acl) f = readField sb inode f := by
  have hlo : f.Avoids sb 104 4 := by
    intro r hr
    have := Field.mem_bytes hr
    grind
  rw [setFileAcl]
  split_ifs with hos
  · have hhi : f.Avoids sb 118 2 := by
      intro r hr
      have := Field.mem_bytes hr
      grind
    rw [readField_putLE hhi, readField_putLE hlo]
  · exact readField_putLE hlo acl

theorem readField_owner (uid gid : ℕ) (hu : f ≠ .uid) (hg : f ≠ .gid) :
    readField sb (setGid (setUid inode uid) gid) f = readField sb inode f := by
  have havoid : f.Avoids sb 2 2 ∧ f.Avoids sb 24 2 := by
    constructor <;> intro r hr <;> have := Field.mem_bytes hr <;> grind
  rw [setGid, setUid, readField_putLE havoid.2, readField_putLE havoid.1]

theorem readField_putBlocksCount (count high : ℕ) (hf : f ≠ .blocksCount) :
    readField sb (putBlocksCount inode count high) f = readField sb inode f := by
  have havoid : f.Avoids sb 28 4 ∧ f.Avoids sb 116 2 := by
    constructor <;> intro r hr <;> have := Field.mem_bytes hr <;> grind
  rw [putBlocksCount, readField_putLE havoid.2, readField_putLE havoid.1]

/-- Flags change flags, and what the flag of huge files is for. -/
theorem readField_setFlags (flags : ℕ) (hf : f ≠ .blocksCount) (hflag : ∀ i, f ≠ .flag i) :
    readField sb (setFlags inode flags) f = readField sb inode f := by
  have havoid : f.Avoids sb 32 4 := by
    intro r hr
    have := Field.mem_bytes hr
    grind
  exact readField_putLE havoid flags

theorem readField_flag (i : Fin 32) :
    readField sb inode (.flag i) = if (getFlags inode).testBit i then 1 else 0 := by
  rw [readField, hasFlag_two_pow]

theorem readField_setFlag (hf : f ≠ .blocksCount) (h18 : f ≠ .flag 18) :
    readField sb (setFlag inode flagHugeFile) f = readField sb inode f := by
  by_cases h : ∃ i, f = .flag i
  · obtain ⟨i, rfl⟩ := h
    have hi : i ≠ 18 := fun h => h18 (by rw [h])
    rw [readField_flag, readField_flag, testBit_setFlag, decide_eq_false hi, Bool.or_false]
  · exact readField_setFlags _ hf fun i hi => h ⟨i, hi⟩

theorem readField_clearFlag (hf : f ≠ .blocksCount) (h18 : f ≠ .flag 18) :
    readField sb (clearFlag inode flagHugeFile) f = readField sb inode f := by
  by_cases h : ∃ i, f = .flag i
  · obtain ⟨i, rfl⟩ := h
    have hi : i ≠ 18 := fun h => h18 (by rw [h])
    rw [readField_flag, readField_flag, testBit_clearFlag, decide_eq_false hi, Bool.not_false,
      Bool.and_true]
  · exact readField_setFlags _ hf fun i hi => h ⟨i, hi⟩

theorem readField_setBlocksCount {count : ℕ}
    (h : setBlocksCount sb inode count = .ok inode') (hf : f ≠ .blocksCount) (h18 : f ≠ .flag 18) :
    readField sb inode' f = readField sb inode f := by
  simp only [setBlocksCount] at h
  split at h
  · cases h
    rw [readField_clearFlag hf h18, readField_putBlocksCount _ _ hf]
  · split at h
    · cases h
    · split at h
      · cases h
        rw [readField_clearFlag hf h18, readField_putBlocksCount _ _ hf]
      · cases h
        rw [readField_putBlocksCount _ _ hf, readField_setFlag hf h18]

/-- **A setter changes its own fields only.** -/
theorem write_frame {v : PackedValue} (h : v.write sb inode = .ok inode')
    (hf : f ∉ v.fields) : readField sb inode' f = readField sb inode f := by
  cases v with
  | size n =>
    cases h
    exact readField_setSize n (List.ne_of_not_mem_cons hf)
  | blocksCount count =>
    exact readField_setBlocksCount h (List.ne_of_not_mem_cons hf)
      (List.ne_of_not_mem_cons (List.not_mem_of_not_mem_cons hf))
  | fileAcl acl =>
    cases h
    exact readField_setFileAcl acl (List.ne_of_not_mem_cons hf)
  | owner uid gid =>
    cases h
    exact readField_owner uid gid (List.ne_of_not_mem_cons hf)
      (List.ne_of_not_mem_cons (List.not_mem_of_not_mem_cons hf))

/-! ## What is read back -/

theorem putLE_pair {a b w w' : ℕ} (h : a + w ≤ b ∨ b + w' ≤ a) (m n : ℕ) :
    getLE (putLE (putLE inode a w m) b w' n) a w = m % 256 ^ w ∧
      getLE (putLE (putLE inode a w m) b w' n) b w' = n % 256 ^ w' :=
  ⟨by rw [getLE_putLE_of_disjoint h, getLE_putLE], getLE_putLE ..⟩

/-- The type of the inode does not depend on its size. -/
theorem isType_setSize (n type : ℕ) : isType sb (setSize inode n) type = isType sb inode type := by
  have hmode := @readField_setSize sb inode .mode n (by decide)
  rw [isType, isType, inodeType, inodeType]
  exact congrArg (fun mode => mode &&& 0xF000 == type) hmode

theorem getSize_setSize {n : ℕ} (hn : n < 2 ^ 64) :
    getSize sb (setSize inode n) =
      if 0 < sb.revLevel ∧ isType sb inode 0x8000 then n else n % 2 ^ 32 := by
  obtain ⟨hlo, hhi⟩ := @putLE_pair inode 4 108 4 4 (by decide) n (n >>> 32)
  rw [getSize, isType_setSize]
  simp only [setSize, hlo, hhi]
  split_ifs
  · rw [Nat.shiftRight_eq_div_pow, show (256 : ℕ) ^ 4 = 2 ^ 32 from rfl,
      or_shiftLeft (Nat.mod_lt n (by decide))]
    omega
  · rfl

theorem size_iff {n : ℕ} (hn : n < 2 ^ 64) :
    (PackedValue.size n).ReadsAs sb (setSize inode n) ↔ (PackedValue.size n).Fits sb inode := by
  show getSize sb (setSize inode n) = n ↔
    n < 2 ^ 32 ∨ (0 < sb.revLevel ∧ isType sb inode 0x8000 = true)
  rw [getSize_setSize hn]
  split_ifs with h
  · exact iff_of_true rfl (.inr h)
  · rw [or_iff_left h]
    exact ⟨fun h => by omega, Nat.mod_eq_of_lt⟩

theorem fileAcl_iff {acl : ℕ} (hacl : acl < 2 ^ 48) :
    (PackedValue.fileAcl acl).ReadsAs sb (setFileAcl sb inode acl) ↔
      (PackedValue.fileAcl acl).Fits sb inode := by
  show getFileAcl sb (setFileAcl sb inode acl) = acl ↔ acl < 2 ^ 32
  rw [setFileAcl, getFileAcl]
  split_ifs with h
  · obtain ⟨hlo, hhi⟩ := @putLE_pair inode 104 118 4 2 (by decide) acl (acl >>> 32)
    have hhigh : acl >>> 32 % 256 ^ 2 = acl / 2 ^ 32 := by
      rw [Nat.shiftRight_eq_div_pow]
      omega
    rw [hlo, hhi, hhigh]
    constructor
    · -- what is read has 32 bits
      intro hread
      rw [← hread]
      exact Nat.or_lt_two_pow (by omega) (by rw [Nat.shiftLeft_eq]; omega)
    · intro hfit
      rw [Nat.div_eq_of_lt hfit, Nat.zero_shiftLeft, Nat.or_zero]
      exact Nat.mod_eq_of_lt hfit
  · rw [getLE_putLE]
    exact ⟨fun h => by omega, Nat.mod_eq_of_lt⟩

theorem owner_iff (uid gid : ℕ) :
    (PackedValue.owner uid gid).ReadsAs sb (setGid (setUid inode uid) gid) ↔
      (PackedValue.owner uid gid).Fits sb inode := by
  obtain ⟨hu, hg⟩ := @putLE_pair inode 2 24 2 2 (by decide) uid gid
  show getUid (setGid (setUid inode uid) gid) = uid ∧ getGid (setGid (setUid inode uid) gid) = gid ↔
    uid < 2 ^ 16 ∧ gid < 2 ^ 16
  rw [getUid, getGid, setGid, setUid, hu, hg]
  constructor
  · rintro ⟨h1, h2⟩
    omega
  · rintro ⟨h1, h2⟩
    omega

/-! ### The block count -/

/-- The counter as the block allocator's model has it. -/
def blocks (inode : Mem) : InodeBlocks :=
  ⟨getLE inode 28 4, getLE inode 116 2, hasFlag inode flagHugeFile⟩

/-- Both models read the same. -/
theorem getBlocksCount_eq (inode : Mem) :
    getBlocksCount sb inode = inodeGetBlocksCount sb.toSBlock (blocks inode) := by
  have hlo : getLE inode 28 4 < 2 ^ 32 := getLE_lt inode 28 4
  rw [getBlocksCount, inodeGetBlocksCount, blocks]
  split_ifs <;> simp only [or_shiftLeft hlo]

theorem hasFlag_setFlag (inode : Mem) :
    hasFlag (setFlag inode flagHugeFile) flagHugeFile = true := by
  have hbit := testBit_setFlag inode 18
  rw [decide_eq_true rfl, Bool.or_true] at hbit
  have hhas := hasFlag_two_pow (setFlag inode flagHugeFile) 18
  rw [← flagHugeFile_eq] at hhas
  exact hhas.trans hbit

theorem hasFlag_clearFlag (inode : Mem) :
    hasFlag (clearFlag inode flagHugeFile) flagHugeFile = false := by
  have hbit := testBit_clearFlag inode 18
  rw [decide_eq_true rfl, Bool.not_true, Bool.and_false] at hbit
  have hhas := hasFlag_two_pow (clearFlag inode flagHugeFile) 18
  rw [← flagHugeFile_eq] at hhas
  exact hhas.trans hbit

theorem blocks_clearFlag (inode : Mem) (count high : ℕ) :
    blocks (clearFlag (putBlocksCount inode count high) flagHugeFile) =
      ⟨count % 2 ^ 32, high % 2 ^ 16, false⟩ := by
  obtain ⟨hlo, hhi⟩ := @putLE_pair inode 28 116 4 2 (by decide) count high
  rw [blocks, hasFlag_clearFlag, clearFlag, setFlags, getLE_putLE_of_disjoint (by decide),
    getLE_putLE_of_disjoint (by decide), putBlocksCount, hlo, hhi]
  rfl

theorem blocks_setFlag (inode : Mem) (count high : ℕ) :
    blocks (putBlocksCount (setFlag inode flagHugeFile) count high) =
      ⟨count % 2 ^ 32, high % 2 ^ 16, true⟩ := by
  obtain ⟨hlo, hhi⟩ := @putLE_pair (setFlag inode flagHugeFile) 28 116 4 2 (by decide) count high
  have hflag :
      hasFlag (putBlocksCount (setFlag inode flagHugeFile) count high) flagHugeFile = true := by
    rw [hasFlag, getFlags, putBlocksCount, getLE_putLE_of_disjoint (by decide),
      getLE_putLE_of_disjoint (by decide)]
    exact hasFlag_setFlag inode
  rw [blocks, hflag, putBlocksCount, hlo, hhi]
  rfl

/-- **Both models set the same**, and refuse where the other leaves the inode as
    it is. -/
theorem setBlocksCount_eq (count : ℕ) :
    match setBlocksCount sb inode count with
    | .ok inode' => blocks inode' = inodeSetBlocksCount sb.toSBlock (blocks inode) count
    | .error e => e = .EINVAL ∧ sb.hugeFile = false ∧ 2 ^ 32 ≤ count := by
  rw [setBlocksCount, inodeSetBlocksCount]
  by_cases h32 : count < 2 ^ 32
  · rw [if_pos (by omega), if_pos h32]
    simp only [blocks_clearFlag, Nat.mod_eq_of_lt h32, Nat.zero_mod]
  · rw [if_neg (by omega), if_neg h32]
    cases hhuge : sb.hugeFile with
    | false => exact ⟨rfl, rfl, by omega⟩
    | true =>
      simp only [Bool.not_true, Bool.false_eq_true, if_false]
      by_cases h48 : count < 2 ^ 48
      · rw [if_pos (by omega), if_pos h48]
        have hhigh : count / 2 ^ 32 % 2 ^ 16 = count / 2 ^ 32 := by omega
        simp only [blocks_clearFlag, Nat.shiftRight_eq_div_pow, hhigh]
      · rw [if_neg (by omega), if_neg h48]
        simp only [blocks_setFlag, Nat.shiftRight_eq_div_pow]

/-- What is read after a count of whole blocks was set. -/
theorem inodeGet_set (hbs : sb.getBlockSize ≤ 65536) {count : ℕ}
    (hdvd : sb.getBlockSize / 512 ∣ count) (hhuge : sb.hugeFile = true) (b : InodeBlocks) :
    inodeGetBlocksCount sb.toSBlock (inodeSetBlocksCount sb.toSBlock b count) = count ↔
      count / (sb.getBlockSize / 512) < 2 ^ 48 := by
  have hunit := @inodeUnit_eq sb.toSBlock hbs
  rw [inodeGetBlocksCount, inodeSetBlocksCount, hhuge]
  generalize inodeBlockBitsCount sb.getBlockSize - 9 = k at *
  have hpos := Nat.two_pow_pos k
  obtain ⟨q, rfl⟩ := hdvd
  rw [hunit, Nat.mul_div_cancel_left _ hpos]
  have hq : q ≤ 2 ^ k * q := Nat.le_mul_of_pos_left q hpos
  simp only [Bool.not_true, Bool.false_eq_true, if_true, if_false]
  by_cases h32 : 2 ^ k * q < 2 ^ 32
  · rw [if_pos h32]
    simp only [Bool.false_eq_true, if_false]
    omega
  rw [if_neg h32]
  by_cases h48 : 2 ^ k * q < 2 ^ 48
  · rw [if_pos h48]
    simp only [Bool.false_eq_true, if_false]
    omega
  · rw [if_neg h48, Nat.shiftRight_eq_div_pow, Nat.mul_div_cancel_left _ hpos]
    simp only [if_true, Nat.shiftLeft_eq]
    -- 48 bits of the number of blocks are kept
    rw [show q % 2 ^ 32 + q / 2 ^ 32 % 2 ^ 16 * 2 ^ 32 = q % 2 ^ 48 by omega, Nat.mul_comm,
      Nat.mul_right_inj hpos.ne']
    exact ⟨fun h => by omega, Nat.mod_eq_of_lt⟩

theorem blocksCount_iff (hbs : sb.getBlockSize ≤ 65536) {count : ℕ}
    (hdvd : sb.getBlockSize / 512 ∣ count) :
    (match setBlocksCount sb inode count with
      | .ok inode' => (PackedValue.blocksCount count).ReadsAs sb inode'
      | .error _ => ∀ inode' : Mem, ¬(PackedValue.blocksCount count).ReadsAs sb inode') ↔
      (PackedValue.blocksCount count).Fits sb inode := by
  have hset := @setBlocksCount_eq sb inode count
  have hread : ∀ inode' : Mem, (PackedValue.blocksCount count).ReadsAs sb inode' ↔
      inodeGetBlocksCount sb.toSBlock (blocks inode') = count := by
    intro inode'
    rw [← getBlocksCount_eq]
    rfl
  cases hr : setBlocksCount sb inode count with
  | ok inode' =>
    rw [hr] at hset
    simp only [hread, hset]
    cases hhuge : sb.hugeFile with
    | true =>
      rw [inodeGet_set hbs hdvd hhuge]
      exact (or_iff_right (by rw [hhuge]; decide)).symm
    | false =>
      refine iff_of_true ?_ (.inl hhuge)
      have h32 : count < 2 ^ 32 := by
        by_contra hn
        rw [setBlocksCount, if_neg (by omega), hhuge] at hr
        cases hr
      rw [inodeGetBlocksCount, inodeSetBlocksCount, if_pos h32, hhuge]
      rfl
  | error e =>
    rw [hr] at hset
    obtain ⟨-, hhuge, hle⟩ := hset
    refine iff_of_true (fun inode' h => ?_) (.inl hhuge)
    have hlo : getLE inode' 28 4 < 2 ^ 32 := getLE_lt inode' 28 4
    rw [hread, inodeGetBlocksCount, hhuge] at h
    have h28 : getLE inode' 28 4 = count := h
    omega

/-! ## The promise as a whole -/

/-- **When a packed value is read back**, for the block sizes that
    `ext4_fs_init` accepts. -/
theorem packed_iff (sb : Sb) (inode : Mem) (v : PackedValue) (hbs : sb.getBlockSize ≤ 65536)
    (hv : v.Accepted sb) : Keeps sb inode v ↔ v.Fits sb inode := by
  have hframe : ∀ inode', v.write sb inode = .ok inode' →
      ((v.ReadsAs sb inode' ∧ ∀ f ∉ v.fields, readField sb inode' f = readField sb inode f) ↔
        v.ReadsAs sb inode') :=
    fun inode' h => and_iff_left fun f hf => write_frame h hf
  unfold Keeps
  cases v with
  | size n => exact (hframe _ rfl).trans (size_iff hv)
  | fileAcl acl => exact (hframe _ rfl).trans (fileAcl_iff hv)
  | owner uid gid => exact (hframe _ rfl).trans (owner_iff uid gid)
  | blocksCount count =>
    rw [← blocksCount_iff hbs hv.2]
    cases hr : setBlocksCount sb inode count with
    | ok inode' =>
      have hw : (PackedValue.blocksCount count).write sb inode = .ok inode' := hr
      rw [hw]
      exact hframe _ hw
    | error e =>
      have hw : (PackedValue.blocksCount count).write sb inode = .error e := hr
      rw [hw]

/-- A file system of this revision, made by Linux, with huge files. -/
def linuxSb : Sb where
  blocksCount := 8192
  firstDataBlock := 1
  blocksPerGroup := 8192
  inodesPerGroup := 1024
  inodesCount := 1024
  logBlockSize := 0
  inodeSize := 256
  descSize := 64
  reservedGdtBlocks := 0
  firstMetaBg := 0
  sparseSuper := true
  hugeFile := true
  flexBg := false
  metaBg := false
  revLevel := 1
  creatorOs := 0

/-- The inode of a directory. -/
def dirInode : Mem := putLE (fun _ => 0) 0 2 0x41ED

/-- An owner of 16 bits. -/
theorem packed_iff_owner :
    Keeps linuxSb dirInode (.owner 1000 1000) ↔
      (PackedValue.owner 1000 1000).Fits linuxSb dirInode :=
  packed_iff linuxSb dirInode _ (by decide) ⟨by decide, by decide⟩

/-- A block behind 2^32, the size of a large directory, an owner of 17 bits and
    2^48 blocks are set without an error and read as something else. -/
theorem packed_wrong : ¬Keeps linuxSb dirInode (.fileAcl (2 ^ 32)) ∧
    ¬Keeps linuxSb dirInode (.size (2 ^ 32)) ∧ ¬Keeps linuxSb dirInode (.owner 65536 0) ∧
    ¬Keeps linuxSb dirInode (.blocksCount (2 ^ 49)) := by
  refine ⟨fun h => ?_, fun h => ?_, fun h => ?_, fun h => ?_⟩
  · have hfit := (fileAcl_iff (by decide)).mp h.1
    exact absurd hfit (by decide : ¬2 ^ 32 < 2 ^ 32)
  · have hfit := (size_iff (by decide)).mp h.1
    have htype : isType linuxSb dirInode 0x8000 = false := by decide +kernel
    unfold PackedValue.Fits at hfit
    rw [htype] at hfit
    exact absurd hfit (by decide)
  · have hfit := (owner_iff 65536 0).mp h.1
    exact absurd hfit.1 (by decide)
  · have hset : (PackedValue.blocksCount (2 ^ 49)).write linuxSb dirInode =
        .ok (putBlocksCount (setFlag dirInode flagHugeFile) (2 ^ 48) (2 ^ 16)) := rfl
    have hread : getBlocksCount linuxSb
        (putBlocksCount (setFlag dirInode flagHugeFile) (2 ^ 48) (2 ^ 16)) = 0 := by decide +kernel
    unfold Keeps at h
    rw [hset] at h
    have h49 : getBlocksCount linuxSb
        (putBlocksCount (setFlag dirInode flagHugeFile) (2 ^ 48) (2 ^ 16)) = 2 ^ 49 := h.1
    rw [hread] at h49
    cases h49

end InodeRaw

end Lwext4
