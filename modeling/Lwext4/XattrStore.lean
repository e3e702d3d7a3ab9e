/-
  The attributes of all inodes, the blocks they are in, and the allocator.

  The operations of `ext4_xattr.c` again, over all inodes, the blocks that
  their `file_acl` names and the allocator, and the release of the block in
  `ext4_fs_free_inode`.  `view` is what an inode sees; there the operations are
  those of the inode alone (`view_set`, `view_remove`).
-/
import Lwext4.XattrMap

namespace Lwext4

open Lib

namespace Xattr

/-- An inode, with the number of its block. -/
structure Node where
  extraIsize : ℕ
  ibody : Area
  fileAcl : ℕ

/-- The inodes, the blocks and the block bitmap. -/
structure Store where
  blockSize : ℕ
  inodeSize : ℕ
  node : ℕ → Node
  block : ℕ → Block
  used : ℕ → Bool

namespace Store

/-- What an inode sees. -/
def view (s : Store) (i : ℕ) : Inode where
  blockSize := s.blockSize
  inodeSize := s.inodeSize
  extraIsize := (s.node i).extraIsize
  ibody := (s.node i).ibody
  block := if (s.node i).fileAcl = 0 then none else some (s.block (s.node i).fileAcl)

/-! ## Changes -/

def setNode (s : Store) (i : ℕ) (n : Node) : Store := { s with node := Function.update s.node i n }

def setIbody (s : Store) (i : ℕ) (a : Area) : Store := s.setNode i { s.node i with ibody := a }

/-- `ext4_inode_set_file_acl`. -/
def setFileAcl (s : Store) (i b : ℕ) : Store := s.setNode i { s.node i with fileAcl := b }

def setBlock (s : Store) (b : ℕ) (x : Block) : Store := { s with block := Function.update s.block b x }

def setArea (s : Store) (b : ℕ) (a : Area) : Store := s.setBlock b { s.block b with area := a }

def setUsed (s : Store) (b : ℕ) (x : Bool) : Store := { s with used := Function.update s.used b x }

/-! ## The code -/

/-- `ext4_balloc_alloc_block`: `choice` is the free block that the allocator
    finds, or its error. -/
def allocBlock (s : Store) (choice : Except Errno ℕ) : Except Errno (ℕ × Store) :=
  match choice with
  | .error e => .error e
  | .ok b => if b = 0 ∨ s.used b = true then .error .ENOSPC else .ok (b, s.setUsed b true)

/-- `ext4_xattr_try_free_block`. -/
def tryFreeBlock (s : Store) (i : ℕ) : Store :=
  if (s.node i).fileAcl = 0 then s else (s.setFileAcl i 0).setUsed (s.node i).fileAcl false

/-- `ext4_xattr_copy_new_block` for the block of inode `i`. -/
def copyNewBlock (s : Store) (i : ℕ) (choice : Except Errno ℕ) : Except Errno (Store × Bool) :=
  let orig := s.block (s.node i).fileAcl
  if 1 < orig.refcount then
    match s.allocBlock choice with
    | .error e => .error e
    | .ok (b, t) =>
      .ok (((t.setBlock (s.node i).fileAcl { orig with refcount := orig.refcount - 1 }).setBlock b
        { orig with refcount := 1 }).setFileAcl i b, true)
  else .ok (s, false)

/-- The end of `ext4_xattr_block_set` with a block of the inode.  A block that
    has been copied is released and then read. -/
def blockChange (s : Store) (i : ℕ) (key : Key) (value : List Byte) (choice : Except Errno ℕ) :
    Option (Except Errno Unit × Store) :=
  match s.copyNewBlock i choice with
  | .error e => some (.error e, s)
  | .ok (_, true) => none
  | .ok (s, false) =>
    let acl := (s.node i).fileAcl
    match (s.view i).blockFindEntry key (s.block acl).area with
    | .error e => some (.error e, s)
    | .ok found =>
      match setEntry (s.view i).blockLayout (s.block acl).area key (some value) found with
      | .error e => some (.error e, s)
      | .ok area => some (.ok (), s.setArea acl area)

/-- `ext4_xattr_block_set` with a block of the inode. -/
def blockUpdate (s : Store) (i : ℕ) (key : Key) (value : List Byte) (noInsert : Bool)
    (choice : Except Errno ℕ) : Option (Except Errno Unit × Store) :=
  let b := s.block (s.node i).fileAcl
  if 1 < b.refcount ∧ noInsert then
    match (s.view i).blockFindEntry key b.area with
    | .error e => some (.error e, s)
    | .ok none => some (.error .ENODATA, s)
    | .ok (some _) => s.blockChange i key value choice
  else s.blockChange i key value choice

/-- `ext4_xattr_block_set`. -/
def blockSet (s : Store) (i : ℕ) (key : Key) (value : List Byte) (noInsert : Bool)
    (choice : Except Errno ℕ) : Option (Except Errno Unit × Store) :=
  if (s.node i).fileAcl ≠ 0 then s.blockUpdate i key value noInsert choice
  else if noInsert then some (.error .ENODATA, s)
  else
    match s.allocBlock choice with
    | .error e => some (.error e, s)
    | .ok (b, s) =>
      let s := (s.setFileAcl i b).setBlock b Inode.newBlock
      match setEntry (s.view i).blockLayout Inode.newBlock.area key (some value) none with
      | .error e => some (.error e, s.tryFreeBlock i)
      | .ok area => some (.ok (), s.setArea b area)

/-- `ext4_xattr_block_remove`.  The name to look for is not initialised, so the
    first comparison with an entry is undefined. -/
def blockRemove (s : Store) (i : ℕ) (choice : Except Errno ℕ) : Option (Except Errno Unit × Store) :=
  if (s.node i).fileAcl = 0 then none
  else
    match s.copyNewBlock i choice with
    | .error e => some (.error e, s)
    | .ok (s, _) => if (s.block (s.node i).fileAcl).area.entries = [] then some (.ok (), s) else none

/-- `try_insert` in `ext4_xattr_set`. -/
def tryInsert (s : Store) (i : ℕ) (found : Search) (key : Key) (value : List Byte)
    (choice : Except Errno ℕ) (blockFound : Bool) : Option (Except Errno Unit × Store) :=
  let v := s.view i
  match (if v.extraIsize ≠ 0 then setEntry v.ibodyLayout v.ibody key (some value) found
    else .error .ENOSPC) with
  | .ok area =>
    let s := s.setIbody i area
    if blockFound then s.blockRemove i choice else some (.ok (), s)
  | .error _ =>
    if blockFound then some (.error .ENOSPC, s)
    else
      match s.blockSet i key value false choice with
      | none => none
      | some (ret, s) =>
        -- the entry is removed from the inode even if the block does not take it
        match setEntry (s.view i).ibodyLayout (s.view i).ibody key none found with
        | .error _ => some (ret, s)
        | .ok area => some (ret, s.setIbody i area)

/-- `ext4_xattr_set` once the area in the inode has been searched. -/
def setFound (s : Store) (i : ℕ) (found : Search) (key : Key) (value : List Byte)
    (choice : Except Errno ℕ) : Option (Except Errno Unit × Store) :=
  if found = none ∧ (s.node i).fileAcl ≠ 0 then
    match s.blockSet i key value true choice with
    | some (.error .ENOSPC, s) => s.tryInsert i none key value choice true
    | some (.error .ENODATA, s) => s.tryInsert i none key value choice true
    | r => r
  else s.tryInsert i found key value choice false

/-- `ext4_xattr_set`. -/
def set (s : Store) (i : ℕ) (key : Key) (value : List Byte) (choice : Except Errno ℕ) :
    Option (Except Errno Unit × Store) :=
  let s := match (s.view i).ibodyFindEntry key with
    | .ok _ => s
    | .error _ => s.setIbody i (s.view i).ibodyInitialize.ibody
  match (s.view i).ibodyFindEntry key with
  | .error _ => none
  | .ok found => s.setFound i found key value choice

/-- `ext4_xattr_remove`. -/
def remove (s : Store) (i : ℕ) (key : Key) (choice : Except Errno ℕ) :
    Option (Except Errno Unit × Store) :=
  match (s.view i).ibodyFindEntry key with
  | .error e => some (.error e, s)
  | .ok (some _) => none
  | .ok none =>
    if (s.node i).fileAcl = 0 then none
    else
      match (s.view i).blockFindEntry key (s.block (s.node i).fileAcl).area with
      | .error e => some (.error e, s)
      | .ok none => some (.error .ENODATA, s)
      | .ok (some _) =>
        match s.copyNewBlock i choice with
        | .error e => some (.error e, s)
        | .ok (s, _) =>
          let acl := (s.node i).fileAcl
          match (s.view i).blockFindEntry key (s.block acl).area with
          | .error e => some (.error e, s)
          | .ok found =>
            match setEntry (s.view i).blockLayout (s.block acl).area key none found with
            | .error e => some (.error e, s)
            | .ok area =>
              if area.entries = [] then some (.ok (), (s.setArea acl area).tryFreeBlock i)
              else some (.ok (), s.setArea acl area)

/-- The end of `ext4_fs_free_inode`: the blocks of the file have been released,
    the block of attributes is, and then the inode; the arguments say which of
    these fails. -/
def freeInode (s : Store) (i : ℕ) (blocks block inode : Except Errno Unit) :
    Except Errno Unit × Store :=
  match blocks with
  | .error e => (.error e, s)
  | .ok _ =>
    if (s.node i).fileAcl = 0 then (inode, s)
    else
      match block with
      | .error e => (.error e, s)
      | .ok _ => (inode, (s.setUsed (s.node i).fileAcl false).setFileAcl i 0)

/-! ## What an inode sees of it -/

section View

variable {s t : Store} {i j b : ℕ} {key : Key} {value : List Byte} {choice : Except Errno ℕ}

/-- The result and what the inode then sees. -/
def seen (i : ℕ) (r : Option (Except Errno Unit × Store)) : Option (Except Errno Unit × Inode) :=
  r.map fun (e, s) => (e, s.view i)

/-- The error of the allocator, if it fails. -/
def allocError (s : Store) (choice : Except Errno ℕ) : Option Errno :=
  match s.allocBlock choice with
  | .error e => some e
  | .ok _ => none

theorem view_block (h : (s.node i).fileAcl ≠ 0) :
    (s.view i).block = some (s.block (s.node i).fileAcl) := if_neg h

theorem view_no_block (h : (s.node i).fileAcl = 0) : (s.view i).block = none := if_pos h

@[simp] theorem view_setIbody (a : Area) :
    (s.setIbody i a).view i = { s.view i with ibody := a } := by
  simp [view, setIbody, setNode]

@[simp] theorem view_setUsed (x : Bool) : (s.setUsed b x).view i = s.view i := rfl

theorem view_setBlock (x : Block) (h : (s.node i).fileAcl ≠ 0) :
    (s.setBlock (s.node i).fileAcl x).view i = { s.view i with block := some x } := by
  simp [view, setBlock, h]

theorem view_setArea (a : Area) (h : (s.node i).fileAcl ≠ 0) : (s.setArea (s.node i).fileAcl a).view i
    = { s.view i with block := some { s.block (s.node i).fileAcl with area := a } } :=
  view_setBlock _ h

theorem view_setFileAcl (hb : b ≠ 0) :
    (s.setFileAcl i b).view i = { s.view i with block := some (s.block b) } := by
  simp [view, setFileAcl, setNode, hb]

theorem view_tryFreeBlock : (s.tryFreeBlock i).view i = { s.view i with block := none } := by
  rw [tryFreeBlock]
  split
  · rename_i h
    rw [← view_no_block h]
  · simp [view, setFileAcl, setNode, setUsed]

/-- A block that is handed out was free. -/
theorem allocBlock_ok (h : s.allocBlock choice = .ok (b, t)) :
    b ≠ 0 ∧ s.used b = false ∧ t = s.setUsed b true := by
  cases choice with
  | error e => cases h
  | ok b' =>
    rw [allocBlock] at h
    by_cases hb : b' = 0 ∨ s.used b' = true
    · rw [if_pos hb] at h
      cases h
    · rw [if_neg hb] at h
      obtain ⟨rfl, rfl⟩ := Prod.mk.inj (Except.ok.inj h)
      obtain ⟨h0, hu⟩ := not_or.mp hb
      exact ⟨h0, by simpa using hu, rfl⟩

/-- The inode has a copy of its block. -/
def copied (s : Store) (i b : ℕ) : Store :=
  let orig := s.block (s.node i).fileAcl
  (((s.setUsed b true).setBlock (s.node i).fileAcl { orig with refcount := orig.refcount - 1 }).setBlock b
    { orig with refcount := 1 }).setFileAcl i b

theorem copied_fileAcl : ((s.copied i b).node i).fileAcl = b := by
  simp [copied, setFileAcl, setNode]

theorem view_copied (hb : b ≠ 0) : (s.copied i b).view i =
    { s.view i with block := some { s.block (s.node i).fileAcl with refcount := 1 } } := by
  rw [copied, view_setFileAcl hb]
  simp [setBlock, view, setUsed]

/-- What a copy can end in. -/
theorem copyNewBlock_shared (h : 1 < (s.block (s.node i).fileAcl).refcount) :
    (∃ e, s.allocError choice = some e ∧ s.copyNewBlock i choice = .error e) ∨
    ∃ b, b ≠ 0 ∧ s.used b = false ∧ s.allocError choice = none ∧
      s.copyNewBlock i choice = .ok (s.copied i b, true) := by
  rw [copyNewBlock, allocError]
  simp only [if_pos h]
  cases ha : s.allocBlock choice with
  | error e => exact .inl ⟨e, rfl, rfl⟩
  | ok r =>
    obtain ⟨b, t⟩ := r
    obtain ⟨hb, hu, rfl⟩ := allocBlock_ok ha
    exact .inr ⟨b, hb, hu, rfl, rfl⟩

theorem copyNewBlock_private (h : ¬1 < (s.block (s.node i).fileAcl).refcount) :
    s.copyNewBlock i choice = .ok (s, false) := if_neg h

/-- A copy, seen from the inode. -/
structure Copied (s : Store) (i : ℕ) (t : Store) (x : Block) (allocated : Bool) : Prop where
  fileAcl : (t.node i).fileAcl ≠ 0
  block : t.block (t.node i).fileAcl = x
  view : t.view i = { s.view i with block := some x }
  same : allocated = false → t = s ∧ x = s.block (s.node i).fileAcl

theorem view_copyNewBlock (h0 : (s.node i).fileAcl ≠ 0) :
    (∃ e, s.copyNewBlock i choice = .error e ∧
      Inode.copyNewBlock (s.block (s.node i).fileAcl) (s.allocError choice) = .error e) ∨
    ∃ t x allocated, s.copyNewBlock i choice = .ok (t, allocated) ∧
      Inode.copyNewBlock (s.block (s.node i).fileAcl) (s.allocError choice) = .ok (x, allocated) ∧
      Copied s i t x allocated := by
  by_cases hn : 1 < (s.block (s.node i).fileAcl).refcount
  · unfold Inode.copyNewBlock
    rw [if_pos hn]
    obtain ⟨e, he, hc⟩ | ⟨b, hb, -, he, hc⟩ := @copyNewBlock_shared s i choice hn
    · rw [he]
      exact .inl ⟨e, hc, rfl⟩
    · rw [he]
      refine .inr ⟨_, _, _, hc, rfl, ?_, ?_, view_copied hb, by simp⟩
      · rwa [copied_fileAcl]
      · rw [copied_fileAcl]
        simp [copied, setFileAcl, setNode, setBlock]
  · unfold Inode.copyNewBlock
    rw [if_neg hn, copyNewBlock_private hn]
    refine .inr ⟨_, _, _, rfl, rfl, h0, rfl, ?_, fun _ => ⟨rfl, rfl⟩⟩
    rw [← view_block h0]

theorem Copied.view_setArea {x : Block} {allocated : Bool} (h : Copied s i t x allocated) (a : Area) :
    (t.setArea (t.node i).fileAcl a).view i
      = { s.view i with block := some { x with area := a } } := by
  rw [Store.view_setArea a h.fileAcl, h.block, h.view]

theorem view_remove : seen i (s.remove i key choice) = (s.view i).remove key (s.allocError choice) := by
  rw [remove, Inode.remove]
  cases (s.view i).ibodyFindEntry key with
  | error e => rfl
  | ok found =>
    cases found with
    | some f => rfl
    | none =>
      by_cases h0 : (s.node i).fileAcl = 0
      · simp only [if_pos h0, view_no_block h0]
        rfl
      · simp only [if_neg h0, view_block h0]
        cases (s.view i).blockFindEntry key (s.block (s.node i).fileAcl).area with
        | error e => rfl
        | ok found =>
          cases found with
          | none => rfl
          | some f =>
            obtain ⟨e, hc, hc'⟩ | ⟨t, x, al, hc, hc', ht⟩ := @view_copyNewBlock s i choice h0
            · simp only [hc, hc']
              rfl
            · simp only [hc, hc', ht.block, ht.view]
              change seen i (match (s.view i).blockFindEntry key x.area with
                | .error e => _ | .ok found => _) = _
              cases (s.view i).blockFindEntry key x.area with
              | error e => simp [seen, ht.view]
              | ok found =>
                change seen i (match setEntry (s.view i).blockLayout x.area key none found with
                  | .error e => _ | .ok area => _) = _
                simp only
                cases setEntry (s.view i).blockLayout x.area key none found with
                | error e => simp [seen, ht.view]
                | ok area =>
                  simp only
                  split
                  · simp [seen, view_tryFreeBlock, ht.view_setArea]
                  · simp [seen, ht.view_setArea]

theorem view_blockChange (h0 : (s.node i).fileAcl ≠ 0) :
    seen i (s.blockChange i key value choice) =
      match Inode.copyNewBlock (s.block (s.node i).fileAcl) (s.allocError choice) with
      | .error e => some (.error e, s.view i)
      | .ok (_, true) => none
      | .ok (b, false) =>
        match (s.view i).blockFindEntry key b.area with
        | .error e => some (.error e, s.view i)
        | .ok found =>
          match setEntry (s.view i).blockLayout b.area key (some value) found with
          | .error e => some (.error e, s.view i)
          | .ok area => some (.ok (), { s.view i with block := some { b with area := area } }) := by
  rw [blockChange]
  obtain ⟨e, hc, hc'⟩ | ⟨t, x, al, hc, hc', ht⟩ := @view_copyNewBlock s i choice h0
  · rw [hc, hc']
    rfl
  · rw [hc, hc']
    cases al with
    | true => rfl
    | false =>
      obtain ⟨rfl, rfl⟩ := ht.same rfl
      simp only
      cases (t.view i).blockFindEntry key (t.block (t.node i).fileAcl).area with
      | error e => rfl
      | ok found =>
        simp only
        cases setEntry (t.view i).blockLayout (t.block (t.node i).fileAcl).area key (some value)
          found with
        | error e => rfl
        | ok area => simp [seen, ht.view_setArea]

theorem view_blockUpdate (h0 : (s.node i).fileAcl ≠ 0) (noInsert : Bool) :
    seen i (s.blockUpdate i key value noInsert choice) = (s.view i).blockUpdate
      (s.block (s.node i).fileAcl) key value noInsert (s.allocError choice) := by
  rw [blockUpdate, Inode.blockUpdate]
  split
  · cases (s.view i).blockFindEntry key (s.block (s.node i).fileAcl).area with
    | error e => rfl
    | ok found =>
      cases found with
      | none => rfl
      | some f => exact view_blockChange h0
  · exact view_blockChange h0

theorem view_blockSet (noInsert : Bool) : seen i (s.blockSet i key value noInsert choice)
    = (s.view i).blockSet key value noInsert (s.allocError choice) := by
  rw [blockSet]
  by_cases h0 : (s.node i).fileAcl = 0
  · have hb := view_no_block h0
    simp only [ne_eq, h0, not_true, if_false]
    unfold Inode.blockSet
    rw [hb]
    cases noInsert with
    | true => rfl
    | false =>
      simp only [Bool.false_eq_true, if_false, allocError]
      cases ha : s.allocBlock choice with
      | error e => rfl
      | ok r =>
        obtain ⟨b, t⟩ := r
        obtain ⟨hb0, -, rfl⟩ := allocBlock_ok ha
        have hacl : ((((s.setUsed b true).setFileAcl i b).setBlock b Inode.newBlock).node i).fileAcl = b := by
          simp [setFileAcl, setNode, setBlock]
        have hview : (((s.setUsed b true).setFileAcl i b).setBlock b Inode.newBlock).view i
            = { s.view i with block := some Inode.newBlock } := by
          simp [view, setFileAcl, setNode, setBlock, setUsed, hb0]
        simp only [hview]
        change seen i (match setEntry (s.view i).blockLayout Inode.newBlock.area key (some value) none with
          | .error e => _ | .ok area => _) = _
        cases setEntry (s.view i).blockLayout Inode.newBlock.area key (some value) none with
        | error e =>
          simp only [seen, Option.map_some, view_tryFreeBlock, hview]
          rw [← hb]
        | ok area =>
          have harea := view_setArea area (by rwa [hacl] :
            ((((s.setUsed b true).setFileAcl i b).setBlock b Inode.newBlock).node i).fileAcl ≠ 0)
          rw [hacl, hview] at harea
          simp only [seen, Option.map_some, harea]
          simp [setBlock]
  · unfold Inode.blockSet
    rw [if_pos h0, view_block h0]
    exact view_blockUpdate h0 noInsert

theorem view_blockRemove :
    seen i (s.blockRemove i choice) = (s.view i).blockRemove (s.allocError choice) := by
  rw [blockRemove, Inode.blockRemove]
  by_cases h0 : (s.node i).fileAcl = 0
  · rw [if_pos h0, view_no_block h0]
    rfl
  · rw [if_neg h0, view_block h0]
    obtain ⟨e, hc, hc'⟩ | ⟨t, x, al, hc, hc', ht⟩ := @view_copyNewBlock s i choice h0
    · simp only [hc, hc']
      rfl
    · simp only [hc, hc', ht.block]
      split
      · simp [seen, ht.view]
      · rfl

@[simp] theorem allocError_setIbody (a : Area) :
    (s.setIbody i a).allocError choice = s.allocError choice := by
  cases choice with
  | error e => rfl
  | ok b =>
    rw [allocError, allocError, allocBlock, allocBlock]
    by_cases hb : b = 0 ∨ s.used b = true
    · rw [if_pos hb, if_pos (show b = 0 ∨ (s.setIbody i a).used b = true from hb)]
    · rw [if_neg hb, if_neg (show ¬(b = 0 ∨ (s.setIbody i a).used b = true) from hb)]

theorem view_tryInsert (found : Search) (blockFound : Bool) :
    seen i (s.tryInsert i found key value choice blockFound)
      = (s.view i).tryInsert found key value (s.allocError choice) blockFound := by
  rw [tryInsert, Inode.tryInsert]
  simp only
  cases (if (s.view i).extraIsize ≠ 0 then
      setEntry (s.view i).ibodyLayout (s.view i).ibody key (some value) found
    else .error .ENOSPC) with
  | ok area =>
    cases blockFound with
    | true =>
      have h := @view_blockRemove (s.setIbody i area) i choice
      rwa [view_setIbody, allocError_setIbody] at h
    | false => simp [seen]
  | error e =>
    cases blockFound with
    | true => rfl
    | false =>
      have h := @view_blockSet s i key value choice false
      simp only [Bool.false_eq_true, if_false]
      rw [← h]
      cases s.blockSet i key value false choice with
      | none => rfl
      | some r =>
        obtain ⟨ret, t⟩ := r
        simp only [seen, Option.map_some]
        cases setEntry (t.view i).ibodyLayout (t.view i).ibody key none found with
        | error e => rfl
        | ok area => simp

theorem blockChange_error {e : Errno} (h0 : (s.node i).fileAcl ≠ 0)
    (h : s.blockChange i key value choice = some (.error e, t)) : t = s := by
  rw [blockChange] at h
  obtain ⟨e', hc, -⟩ | ⟨u, x, al, hc, -, hu⟩ := @view_copyNewBlock s i choice h0
  · rw [hc] at h
    exact (Prod.mk.inj (Option.some.inj h)).2.symm
  · rw [hc] at h
    cases al with
    | true => cases h
    | false =>
      obtain ⟨rfl, -⟩ := hu.same rfl
      simp only at h
      split at h
      · exact (Prod.mk.inj (Option.some.inj h)).2.symm
      · split at h
        · exact (Prod.mk.inj (Option.some.inj h)).2.symm
        · cases (Prod.mk.inj (Option.some.inj h)).1

/-- A block that does not take the value is left as it is. -/
theorem blockSet_error {noInsert : Bool} {e : Errno} (h0 : (s.node i).fileAcl ≠ 0)
    (h : s.blockSet i key value noInsert choice = some (.error e, t)) : t = s := by
  rw [blockSet, if_pos h0, blockUpdate] at h
  split at h
  · split at h
    · exact (Prod.mk.inj (Option.some.inj h)).2.symm
    · exact (Prod.mk.inj (Option.some.inj h)).2.symm
    · exact blockChange_error h0 h
  · exact blockChange_error h0 h

theorem view_setFound (found : Search) : seen i (s.setFound i found key value choice)
    = (s.view i).setFound found key value (s.allocError choice) := by
  rw [setFound]
  by_cases h0 : (s.node i).fileAcl = 0
  · rw [if_neg fun h => h.2 h0, Inode.setFound.eq_def, view_no_block h0]
    cases found with
    | none => exact view_tryInsert none false
    | some f => exact view_tryInsert (some f) false
  · cases found with
    | some f =>
      rw [if_neg fun h => by cases h.1]
      exact view_tryInsert (some f) false
    | none =>
      have h := @view_blockSet s i key value choice true
      rw [if_pos ⟨rfl, h0⟩, Inode.setFound.eq_def, view_block h0]
      simp only
      rw [← h]
      cases hs : s.blockSet i key value true choice with
      | none => rfl
      | some r =>
        obtain ⟨ret, t⟩ := r
        cases ret with
        | ok u => rfl
        | error e =>
          obtain rfl := blockSet_error h0 hs
          cases e with
          | ENOSPC => exact view_tryInsert none true
          | ENODATA => exact view_tryInsert none true
          | _ => rfl

/-- **`ext4_xattr_set`** is that of the inode alone. -/
theorem view_set : seen i (s.set i key value choice)
    = (s.view i).set key value (s.allocError choice) := by
  have hinit : (s.setIbody i (s.view i).ibodyInitialize.ibody).view i
      = (s.view i).ibodyInitialize := by
    rw [view_setIbody, Inode.ibodyInitialize]
    split
    · rfl
    · rfl
  unfold set Inode.set
  cases (s.view i).ibodyFindEntry key with
  | ok found =>
    simp only
    cases (s.view i).ibodyFindEntry key with
    | ok found => exact view_setFound found
    | error e => rfl
  | error e =>
    simp only [hinit]
    cases (s.view i).ibodyInitialize.ibodyFindEntry key with
    | error e => rfl
    | ok found =>
      have h := @view_setFound (s.setIbody i (s.view i).ibodyInitialize.ibody) i key value choice found
      rwa [hinit, allocError_setIbody] at h

end View

end Store

end Xattr

end Lwext4
