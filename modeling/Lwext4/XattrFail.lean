/-
  `ext4_xattr_set` with a device that fails.

  The operation of `XattrStore` again, where a block may not be read and a new
  block not be released.  `set_working` says that it is the same one on a device
  that works.

  Main result: `set_unchanged_iff`.
-/
import Lwext4.XattrShare

namespace Lwext4

open Lib

namespace Xattr

namespace Store

/-! ## The code -/

/-- What the block functions meet: whether the block of the inode can be read,
    the answer of the allocator, whether the new block can be read, and whether
    it can be released. -/
structure Device where
  read : Option Errno
  choice : Except Errno ℕ
  readNew : Option Errno
  free : Bool

/-- A device that works. -/
def Device.working (choice : Except Errno ℕ) : Device := ⟨none, choice, none, true⟩

namespace Dev

/-- `ext4_balloc_free_block`, whose result is not looked at. -/
def freeBlock (s : Store) (b : ℕ) (d : Device) : Store := if d.free then s.setUsed b false else s

/-- `ext4_xattr_try_free_block`. -/
def tryFreeBlock (s : Store) (i : ℕ) (d : Device) : Store :=
  if (s.node i).fileAcl = 0 then s else freeBlock (s.setFileAcl i 0) (s.node i).fileAcl d

/-- `ext4_xattr_copy_new_block` for the block of inode `i`. -/
def copyNewBlock (s : Store) (i : ℕ) (d : Device) : Except Errno Bool × Store :=
  let orig := s.block (s.node i).fileAcl
  if 1 < orig.refcount then
    match s.allocBlock d.choice with
    | .error e => (.error e, s)
    | .ok (b, t) =>
      match d.readNew with
      | some e => (.error e, freeBlock t b d)
      | none =>
        let t := t.setBlock (s.node i).fileAcl { orig with refcount := orig.refcount - 1 }
        (.ok true, (t.setBlock b { orig with refcount := 1 }).setFileAcl i b)
  else (.ok false, s)

/-- The end of `ext4_xattr_block_set` with a block of the inode.  A block that
    has been copied is released and then read. -/
def blockChange (s : Store) (i : ℕ) (key : Key) (value : List Byte) (d : Device) :
    Option (Except Errno Unit × Store) :=
  match copyNewBlock s i d with
  | (.error e, s) => some (.error e, s)
  | (.ok true, _) => none
  | (.ok false, s) =>
    let acl := (s.node i).fileAcl
    match (s.view i).blockFindEntry key (s.block acl).area with
    | .error e => some (.error e, s)
    | .ok found =>
      match setEntry (s.view i).blockLayout (s.block acl).area key (some value) found with
      | .error e => some (.error e, s)
      | .ok area => some (.ok (), s.setArea acl area)

/-- `ext4_xattr_block_set` with a block of the inode. -/
def blockUpdate (s : Store) (i : ℕ) (key : Key) (value : List Byte) (noInsert : Bool) (d : Device) :
    Option (Except Errno Unit × Store) :=
  match d.read with
  | some e => some (.error e, s)
  | none =>
    let b := s.block (s.node i).fileAcl
    if 1 < b.refcount ∧ noInsert then
      match (s.view i).blockFindEntry key b.area with
      | .error e => some (.error e, s)
      | .ok none => some (.error .ENODATA, s)
      | .ok (some _) => blockChange s i key value d
    else blockChange s i key value d

/-- `ext4_xattr_block_set`. -/
def blockSet (s : Store) (i : ℕ) (key : Key) (value : List Byte) (noInsert : Bool) (d : Device) :
    Option (Except Errno Unit × Store) :=
  if (s.node i).fileAcl ≠ 0 then blockUpdate s i key value noInsert d
  else if noInsert then some (.error .ENODATA, s)
  else
    match s.allocBlock d.choice with
    | .error e => some (.error e, s)
    | .ok (b, s) =>
      let s := s.setFileAcl i b
      match d.readNew with
      | some e => some (.error e, tryFreeBlock s i d)
      | none =>
        let s := s.setBlock b Inode.newBlock
        match setEntry (s.view i).blockLayout Inode.newBlock.area key (some value) none with
        | .error e => some (.error e, tryFreeBlock s i d)
        | .ok area => some (.ok (), s.setArea b area)

/-- `ext4_xattr_block_remove`.  The name to look for is not initialised, so the
    first comparison with an entry is undefined. -/
def blockRemove (s : Store) (i : ℕ) (d : Device) : Option (Except Errno Unit × Store) :=
  if (s.node i).fileAcl = 0 then none
  else
    match d.read with
    | some e => some (.error e, s)
    | none =>
      match copyNewBlock s i d with
      | (.error e, s) => some (.error e, s)
      | (.ok _, s) =>
        if (s.block (s.node i).fileAcl).area.entries = [] then some (.ok (), s) else none

/-- `try_insert` in `ext4_xattr_set`. -/
def tryInsert (s : Store) (i : ℕ) (found : Search) (key : Key) (value : List Byte)
    (blockFound : Bool) (d d' : Device) : Option (Except Errno Unit × Store) :=
  match (s.view i).inodeInsert found key value with
  | .ok area =>
    let s := s.setIbody i area
    if blockFound then blockRemove s i d' else some (.ok (), s)
  | .error _ =>
    if blockFound then some (.error .ENOSPC, s)
    else
      match blockSet s i key value false d with
      | none => none
      | some (ret, s) =>
        -- the entry is removed from the inode even if the block does not take it
        match setEntry (s.view i).ibodyLayout (s.view i).ibody key none found with
        | .error _ => some (ret, s)
        | .ok area => some (ret, s.setIbody i area)

/-- `ext4_xattr_set` once the area in the inode has been searched. -/
def setFound (s : Store) (i : ℕ) (found : Search) (key : Key) (value : List Byte) (d d' : Device) :
    Option (Except Errno Unit × Store) :=
  if found = none ∧ (s.node i).fileAcl ≠ 0 then
    match blockSet s i key value true d with
    | some (.error .ENOSPC, s) => tryInsert s i none key value true d d'
    | some (.error .ENODATA, s) => tryInsert s i none key value true d d'
    | r => r
  else tryInsert s i found key value false d d'

/-- `ext4_xattr_set`; `d` is what `ext4_xattr_block_set` meets, and `d'` what
    `ext4_xattr_block_remove` does. -/
def set (s : Store) (i : ℕ) (key : Key) (value : List Byte) (d d' : Device) :
    Option (Except Errno Unit × Store) :=
  let s := match (s.view i).ibodyFindEntry key with
    | .ok _ => s
    | .error _ => s.setIbody i (s.view i).ibodyInitialize.ibody
  match (s.view i).ibodyFindEntry key with
  | .error _ => none
  | .ok found => setFound s i found key value d d'

/-! ## A device that works -/

section Working

variable {s : Store} {i : ℕ} {key : Key} {value : List Byte} {choice : Except Errno ℕ}

theorem copyNewBlock_working : copyNewBlock s i (.working choice) =
    match s.copyNewBlock i choice with
    | .error e => (.error e, s)
    | .ok (t, allocated) => (.ok allocated, t) := by
  rw [copyNewBlock, Store.copyNewBlock]
  simp only [Device.working]
  split
  · cases s.allocBlock choice with
    | error e => rfl
    | ok r => rfl
  · rfl

theorem blockChange_working :
    blockChange s i key value (.working choice) = s.blockChange i key value choice := by
  rw [blockChange, Store.blockChange, copyNewBlock_working]
  cases s.copyNewBlock i choice with
  | error e => rfl
  | ok r =>
    obtain ⟨t, _ | _⟩ := r
    · rfl
    · rfl

theorem blockUpdate_working (noInsert : Bool) :
    blockUpdate s i key value noInsert (.working choice) =
      s.blockUpdate i key value noInsert choice := by
  rw [blockUpdate, Store.blockUpdate, blockChange_working]
  rfl

theorem blockSet_working (noInsert : Bool) : blockSet s i key value noInsert (.working choice) =
    s.blockSet i key value noInsert choice := by
  rw [blockSet, Store.blockSet, blockUpdate_working]
  rfl

theorem blockRemove_working : blockRemove s i (.working choice) = s.blockRemove i choice := by
  rw [blockRemove, Store.blockRemove, copyNewBlock_working]
  split
  · rfl
  · cases s.copyNewBlock i choice with
    | error e => rfl
    | ok r => rfl

theorem tryInsert_working (found : Search) (blockFound : Bool) :
    tryInsert s i found key value blockFound (.working choice) (.working choice) =
      s.tryInsert i found key value choice blockFound := by
  rw [tryInsert, Store.tryInsert, blockSet_working]
  simp only [blockRemove_working]
  rfl

theorem setFound_working (found : Search) :
    setFound s i found key value (.working choice) (.working choice) =
      s.setFound i found key value choice := by
  rw [setFound, Store.setFound]
  by_cases hc : found = none ∧ (s.node i).fileAcl ≠ 0
  · rw [if_pos hc, if_pos hc, blockSet_working]
    rcases s.blockSet i key value true choice with - | ⟨e | u, t⟩
    · rfl
    · cases e with
      | ENOSPC => exact tryInsert_working none true
      | ENODATA => exact tryInsert_working none true
      | _ => rfl
    · rfl
  · rw [if_neg hc, if_neg hc]
    exact tryInsert_working found false

/-- **On a device that works the operation is that of `XattrStore`.** -/
theorem set_working :
    set s i key value (.working choice) (.working choice) = s.set i key value choice := by
  unfold set Store.set
  cases (s.view i).ibodyFindEntry key with
  | ok found =>
    dsimp only
    cases (s.view i).ibodyFindEntry key with
    | ok found => exact setFound_working found
    | error e => rfl
  | error e =>
    dsimp only
    cases ((s.setIbody i (s.view i).ibodyInitialize.ibody).view i).ibodyFindEntry key with
    | ok found => exact setFound_working found
    | error e => rfl

end Working

end Dev

/-! ## The promise -/

/-- `ext4_xattr_get` returns what it returned, and the same blocks are in use for
    the same inodes. -/
structure Unchanged (s : Store) (i : ℕ) (t : Store) : Prop where
  get : ∀ key bufLen, (t.view i).get key bufLen = (s.view i).get key bufLen
  used : t.used = s.used
  fileAcl : (t.node i).fileAcl = (s.node i).fileAcl
  refcount : (s.node i).fileAcl ≠ 0 →
    (t.block (s.node i).fileAcl).refcount = (s.block (s.node i).fileAcl).refcount

/-- The errors with which `ext4_xattr_set` turns from the block to the inode. -/
def TurnsTo (e : Errno) : Prop := e = .ENOSPC ∨ e = .ENODATA

/-- The error of a copy of the block, if it is shared. -/
def copyError (s : Store) (i : ℕ) (d : Device) : Option Errno :=
  if 1 < (s.block (s.node i).fileAcl).refcount then (s.allocError d.choice).or d.readNew else none

/-- The new block for a copy can be neither read nor released. -/
def CopyLeaks (s : Store) (i : ℕ) (d : Device) : Prop :=
  1 < (s.block (s.node i).fileAcl).refcount ∧ s.allocError d.choice = none ∧ d.readNew ≠ none ∧
    d.free = false

/-- The block of the inode passes its check. -/
def BlockValid (s : Store) (i : ℕ) : Prop :=
  isValid (s.view i).blockLayout (s.block (s.node i).fileAcl).area = true

/-- The attribute is in the block of the inode. -/
def InBlock (s : Store) (i : ℕ) (key : Key) : Prop :=
  findEntry key (s.block (s.node i).fileAcl).area.entries ≠ none

/-- A new block cannot be had, or is too small. -/
def NewRefuses (s : Store) (i : ℕ) (key : Key) (value : List Byte) (d : Device) : Prop :=
  s.allocError d.choice ≠ none ∨ d.readNew ≠ none ∨
    ¬(s.view i).blockTakes Inode.newBlock key value

/-- The block of the inode cannot be read or copied, or is its own, and invalid
    or too full. -/
def OldRefuses (s : Store) (i : ℕ) (key : Key) (value : List Byte) (d : Device) : Prop :=
  d.read ≠ none ∨ s.copyError i d ≠ none ∨ ¬1 < (s.block (s.node i).fileAcl).refcount ∧
    (¬s.BlockValid i ∨ ¬(s.view i).blockTakes (s.block (s.node i).fileAcl) key value)

/-- The block does not take the place of an old value, and that is the end. -/
def Stops (s : Store) (i : ℕ) (key : Key) (d : Device) : Prop :=
  (∃ e, d.read = some e ∧ ¬TurnsTo e) ∨ d.read = none ∧ (¬s.BlockValid i ∨
    s.InBlock i key ∧ ∃ e, s.copyError i d = some e ∧ ¬TurnsTo e)

/-- The block does not take the place of an old value, and the inode is tried. -/
def GoesOn (s : Store) (i : ℕ) (key : Key) (value : List Byte) (d : Device) : Prop :=
  (∃ e, d.read = some e ∧ TurnsTo e) ∨ d.read = none ∧ s.BlockValid i ∧
    (1 < (s.block (s.node i).fileAcl).refcount ∧
        (¬s.InBlock i key ∨ ∃ e, s.copyError i d = some e ∧ TurnsTo e) ∨
      ¬1 < (s.block (s.node i).fileAcl).refcount ∧
        ¬(s.view i).blockTakes (s.block (s.node i).fileAcl) key value)

/-- A new block is given up, and not released. -/
def NewLeaks (s : Store) (i : ℕ) (key : Key) (value : List Byte) (d : Device) : Prop :=
  s.allocError d.choice = none ∧
    (d.readNew ≠ none ∨ ¬(s.view i).blockTakes Inode.newBlock key value) ∧ d.free = false

/-- The block that the allocator has handed out is lost. -/
def lost (s : Store) (d : Device) : Store :=
  match d.choice with
  | .ok b => s.setUsed b true
  | .error _ => s

/-- The block for the attribute does not take it. -/
def Refuses (s : Store) (i : ℕ) (key : Key) (value : List Byte) (d : Device) : Prop :=
  if (s.node i).fileAcl = 0 then s.NewRefuses i key value d else s.OldRefuses i key value d

/-- A block is lost on the way. -/
def Leaks (s : Store) (i : ℕ) (key : Key) (value : List Byte) (d : Device) : Prop :=
  if (s.node i).fileAcl = 0 then s.NewLeaks i key value d else d.read = none ∧ s.CopyLeaks i d

/-- A block is lost when an old value is to be replaced. -/
def ReplaceLeaks (s : Store) (i : ℕ) (key : Key) (d : Device) : Prop :=
  d.read = none ∧ s.BlockValid i ∧ s.InBlock i key ∧ s.CopyLeaks i d

/-- The attribute cannot be looked for in the block, to be removed. -/
def RemoveFails (s : Store) (i : ℕ) (d : Device) : Prop := d.read ≠ none ∨ s.copyError i d ≠ none

/-- An area in the inode that holds `f` reads as `m`, with the block behind it;
    it cannot be read unless the check accepts it. -/
def ReadsAs (v : Inode) (accepted : Prop) (f : Key → Option (List Byte))
    (m : Key → Except Errno (List Byte)) : Prop :=
  (accepted → ∀ k, m k = match f k with
    | some value => .ok value
    | none => v.blockReads k) ∧ (¬accepted → ∀ k, m k = .error Errno.EIO)

/-- The attributes read as `m` with the one removed from the inode. -/
def ReadsRemoved (s : Store) (i : ℕ) (key : Key) (m : Key → Except Errno (List Byte)) : Prop :=
  ReadsAs (s.view i) (Accepted (s.view i).ibodyLayout (s.view i).ibody.entries key none
      (findEntry key (s.view i).ibody.entries))
    (Function.update (Inode.areaLookup (s.view i).inodeArea) key none) m

/-- The attributes read as `m` with the one added to the inode. -/
def ReadsAdded (s : Store) (i : ℕ) (key : Key) (value : List Byte)
    (m : Key → Except Errno (List Byte)) : Prop :=
  ReadsAs (s.view i) (Accepted (s.view i).ibodyLayout (s.view i).ibody.entries key (some value) none)
    (fun k => (Inode.areaLookup (s.view i).inodeArea k).or
      (if k = key.stored then some value else none)) m

/-- What an error must not come with: the attribute removed from the inode, or
    added to it, or the others dropped, so that it can be seen; or a block
    lost.  `m` is what could be read before. -/
structure KeepsOn (s : Store) (i : ℕ) (key : Key) (value : List Byte) (d d' : Device)
    (m : Key → Except Errno (List Byte)) : Prop where
  moves : (s.view i).inInode key → ¬(s.view i).inodeTakes key value → s.Refuses i key value d →
    s.ReadsRemoved i key m ∧ ¬s.Leaks i key value d
  alone : ¬(s.view i).inInode key → (s.node i).fileAcl = 0 → ¬(s.view i).inodeTakes key value →
    s.NewRefuses i key value d → (s.view i).reads = m ∧ ¬s.NewLeaks i key value d
  stops : ¬(s.view i).inInode key → (s.node i).fileAcl ≠ 0 →
    s.Stops i key d ∨ s.GoesOn i key value d ∧ ¬(s.view i).inodeTakes key value →
      (s.view i).reads = m ∧ ¬s.ReplaceLeaks i key d
  adds : ¬(s.view i).inInode key → (s.node i).fileAcl ≠ 0 → s.GoesOn i key value d →
    (s.view i).inodeTakes key value → ¬s.ReplaceLeaks i key d → s.RemoveFails i d' →
      s.ReadsAdded i key value m ∧ ¬(d'.read = none ∧ s.CopyLeaks i d')
  loses : ¬(s.view i).inInode key → (s.node i).fileAcl ≠ 0 → s.GoesOn i key value d →
    (s.view i).inodeTakes key value → s.ReplaceLeaks i key d → ¬(s.lost d).RemoveFails i d'

/-- The area in the inode, as the search leaves it: emptied if it is not valid. -/
def checked (s : Store) (i : ℕ) : Store :=
  if (s.view i).extraIsize = 0 ∨ (s.view i).ibodyValid = true then s
  else s.setIbody i (s.view i).ibodyInitialize.ibody

/-- The failures of `ext4_xattr_set` that keep the promise. -/
def KeepsOnError (s : Store) (i : ℕ) (key : Key) (value : List Byte) (d d' : Device) : Prop :=
  ((s.checked i).view i).ibodyReady → (s.checked i).KeepsOn i key value d d' (s.view i).reads

section Fail

variable {s t u : Store} {i b : ℕ} {key : Key} {value : List Byte} {d d' : Device} {e : Errno}
  {v : Inode} {L : Prop} {found : Search} {a area : Area} {choice : Except Errno ℕ}

/-! ## How a step ends -/

/-- The inode sees `v`, and there are more blocks in use if `L`. -/
structure Ended (s : Store) (i : ℕ) (t : Store) (v : Inode) (L : Prop) : Prop where
  view : t.view i = v
  fileAcl : (t.node i).fileAcl = (s.node i).fileAcl
  used : t.used = s.used ↔ ¬L
  grows : ∀ b, s.used b = true → t.used b = true

def FailsAs (s : Store) (i : ℕ) (r : Option (Except Errno Unit × Store)) (v : Inode) (L : Prop) :
    Prop := ∃ e t, r = some (.error e, t) ∧ Ended s i t v L

def NeverFails (r : Option (Except Errno Unit × Store)) : Prop := ∀ e t, r ≠ some (.error e, t)

theorem Ended.refl (hL : ¬L) : Ended s i s (s.view i) L := ⟨rfl, rfl, by simp [hL], fun _ h => h⟩

theorem NeverFails.ok : NeverFails (some (.ok (), t)) := fun e u h => by cases h

theorem NeverFails.none : NeverFails none := fun e u h => by cases h

/-- A block that was free is in use, unless it is released. -/
theorem freeBlock_used (hu : s.used b = false) (ht : t.used = Function.update s.used b true) :
    ((Dev.freeBlock t b d).used = s.used ↔ ¬d.free = false) ∧
      ∀ c, s.used c = true → (Dev.freeBlock t b d).used c = true := by
  have hne : ∀ c, s.used c = true → c ≠ b := by
    rintro c hc rfl
    rw [hu] at hc
    cases hc
  rw [Dev.freeBlock]
  cases d.free with
  | true =>
    rw [if_pos rfl]
    have hback : (t.setUsed b false).used = s.used := by
      show Function.update t.used b false = s.used
      rw [ht, Function.update_idem, ← hu, Function.update_eq_self]
    exact ⟨iff_of_true hback (by simp), fun c hc => by rwa [hback]⟩
  | false =>
    rw [if_neg (by simp)]
    refine ⟨iff_of_false (fun h => ?_) (by simp), fun c hc => ?_⟩
    · have := congrFun (ht.symm.trans h) b
      rw [Function.update_self, hu] at this
      cases this
    · rw [ht, Function.update_of_ne (hne c hc)]
      exact hc

theorem freeBlock_view : (Dev.freeBlock s b d).view i = s.view i := by
  rw [Dev.freeBlock]
  split
  · rfl
  · rfl

theorem freeBlock_node : (Dev.freeBlock s b d).node = s.node := by
  rw [Dev.freeBlock]
  split
  · rfl
  · rfl

/-- What the allocator can answer. -/
theorem alloc_cases (choice : Except Errno ℕ) :
    (∃ e, s.allocError choice = some e ∧ s.allocBlock choice = .error e) ∨
    ∃ b, s.allocError choice = none ∧ b ≠ 0 ∧ s.used b = false ∧ choice = .ok b ∧
      s.allocBlock choice = .ok (b, s.setUsed b true) := by
  rw [allocError]
  cases ha : s.allocBlock choice with
  | error e => exact .inl ⟨e, rfl, rfl⟩
  | ok r =>
    obtain ⟨b, t⟩ := r
    obtain ⟨hb, hu, rfl⟩ := allocBlock_ok ha
    refine .inr ⟨b, rfl, hb, hu, ?_, rfl⟩
    cases choice with
    | error e => cases ha
    | ok c =>
      rw [allocBlock] at ha
      split at ha
      · cases ha
      · rw [(Prod.mk.inj (Except.ok.inj ha)).1]

/-- A copy that fails. -/
theorem copyNewBlock_fails (h : s.copyError i d = some e) : ∃ t,
    Dev.copyNewBlock s i d = (.error e, t) ∧ Ended s i t (s.view i) (s.CopyLeaks i d) ∧
      (s.CopyLeaks i d → t.used = (s.lost d).used) := by
  rw [copyError] at h
  split at h
  · rename_i hn
    rw [Dev.copyNewBlock]
    simp only [if_pos hn]
    obtain ⟨e', he, hs⟩ | ⟨b, he, hb, hu, hc, hs⟩ := @alloc_cases s d.choice
    · rw [he, Option.some_or] at h
      obtain rfl := Option.some.inj h
      rw [hs]
      have hL : ¬s.CopyLeaks i d := fun hl => by simp [hl.2.1] at he
      exact ⟨s, rfl, .refl hL, fun hl => absurd hl hL⟩
    · rw [he, Option.none_or] at h
      rw [hs, h]
      obtain ⟨hused, hgrows⟩ := @freeBlock_used s (s.setUsed b true) b d hu rfl
      have hleaks : s.CopyLeaks i d ↔ d.free = false :=
        ⟨fun hl => hl.2.2.2, fun hf => ⟨hn, he, by simp [h], hf⟩⟩
      refine ⟨_, rfl, ⟨?_, ?_, ?_, hgrows⟩, fun hl => ?_⟩
      · rw [freeBlock_view, view_setUsed]
      · rw [freeBlock_node]
        rfl
      · rw [hused, hleaks]
      · rw [lost, hc, Dev.freeBlock, hleaks.1 hl]
        rfl
  · cases h

/-- A copy that succeeds. -/
theorem copyNewBlock_works (h : s.copyError i d = none) :
    (1 < (s.block (s.node i).fileAcl).refcount ∧ ∃ t, Dev.copyNewBlock s i d = (.ok true, t)) ∨
      ¬1 < (s.block (s.node i).fileAcl).refcount ∧ Dev.copyNewBlock s i d = (.ok false, s) := by
  rw [copyError] at h
  by_cases hn : 1 < (s.block (s.node i).fileAcl).refcount
  · rw [if_pos hn, Option.or_eq_none_iff] at h
    refine .inl ⟨hn, ?_⟩
    rw [Dev.copyNewBlock]
    simp only [if_pos hn]
    obtain ⟨e', he, hs⟩ | ⟨b, he, hb, hu, hc, hs⟩ := @alloc_cases s d.choice
    · rw [h.1] at he
      cases he
    · rw [hs, h.2]
      exact ⟨_, rfl⟩
  · refine .inr ⟨hn, ?_⟩
    rw [Dev.copyNewBlock]
    simp only [if_neg hn]

/-! ## The block -/

theorem find_valid (hv : s.BlockValid i) :
    (s.view i).blockFindEntry key (s.block (s.node i).fileAcl).area =
      .ok (findEntry key (s.block (s.node i).fileAcl).area.entries) := if_pos hv

theorem find_invalid (hv : ¬s.BlockValid i) :
    (s.view i).blockFindEntry key (s.block (s.node i).fileAcl).area = .error Errno.EIO := if_neg hv

theorem blockTakes_iff (hf : found = findEntry key a.entries) {n : ℕ} (hn : ¬1 < n) :
    (∃ area, setEntry (s.view i).blockLayout a key (some value) found = .ok area) ↔
      (s.view i).blockTakes ⟨a, n⟩ key value := by
  rw [setEntry_isOk, Inode.blockTakes, and_iff_right (Nat.not_lt.1 hn), hf]

/-- The change of a block that is not shared. -/
theorem blockChange_single (hn : ¬1 < (s.block (s.node i).fileAcl).refcount) :
    (¬s.BlockValid i ∧ Dev.blockChange s i key value d = some (.error Errno.EIO, s)) ∨
    (s.BlockValid i ∧ ¬(s.view i).blockTakes (s.block (s.node i).fileAcl) key value ∧
      Dev.blockChange s i key value d = some (.error .ENOSPC, s)) ∨
    (s.BlockValid i ∧ (s.view i).blockTakes (s.block (s.node i).fileAcl) key value ∧
      NeverFails (Dev.blockChange s i key value d)) := by
  have hcopy : Dev.copyNewBlock s i d = (.ok false, s) := by
    rw [Dev.copyNewBlock]
    simp only [if_neg hn]
  rw [Dev.blockChange, hcopy]
  simp only
  by_cases hv : s.BlockValid i
  · rw [find_valid hv]
    simp only
    have hiff := @blockTakes_iff s i key value _ (s.block (s.node i).fileAcl).area rfl _ hn
    by_cases ht : (s.view i).blockTakes (s.block (s.node i).fileAcl) key value
    · obtain ⟨area, harea⟩ := hiff.2 ht
      rw [harea]
      exact .inr (.inr ⟨hv, ht, .ok⟩)
    · have hfull : setEntry (s.view i).blockLayout (s.block (s.node i).fileAcl).area key
          (some value) (findEntry key (s.block (s.node i).fileAcl).area.entries) = .error .ENOSPC :=
        setEntry_error (Nat.lt_of_not_le fun hle => ht ⟨Nat.not_lt.1 hn, hle⟩)
      rw [hfull]
      exact .inr (.inl ⟨hv, ht, rfl⟩)
  · rw [find_invalid hv]
    exact .inl ⟨hv, rfl⟩

/-- The change of a shared block. -/
theorem blockChange_shared (hn : 1 < (s.block (s.node i).fileAcl).refcount) :
    (∃ e t, s.copyError i d = some e ∧ Dev.blockChange s i key value d = some (.error e, t) ∧
      Ended s i t (s.view i) (s.CopyLeaks i d) ∧
        (s.CopyLeaks i d → t.used = (s.lost d).used)) ∨
    s.copyError i d = none ∧ NeverFails (Dev.blockChange s i key value d) := by
  cases hc : s.copyError i d with
  | some e =>
    obtain ⟨t, ht, hended, hlost⟩ := copyNewBlock_fails hc
    refine .inl ⟨e, t, rfl, ?_, hended, hlost⟩
    rw [Dev.blockChange, ht]
  | none =>
    obtain ⟨-, t, ht⟩ | ⟨hn', -⟩ := copyNewBlock_works hc
    · refine .inr ⟨rfl, ?_⟩
      rw [Dev.blockChange, ht]
      exact .none
    · exact absurd hn hn'

/-- A value that goes to the block of the inode. -/
theorem blockSet_old (h0 : (s.node i).fileAcl ≠ 0) :
    (s.OldRefuses i key value d → FailsAs s i (Dev.blockSet s i key value false d) (s.view i)
      (d.read = none ∧ s.CopyLeaks i d)) ∧
    (¬s.OldRefuses i key value d → NeverFails (Dev.blockSet s i key value false d)) := by
  rw [Dev.blockSet, if_pos h0, Dev.blockUpdate, OldRefuses]
  cases hr : d.read with
  | some e => exact ⟨fun _ => ⟨e, s, rfl, .refl (by simp)⟩, fun h => absurd (.inl (by simp)) h⟩
  | none =>
    simp only [Bool.false_eq_true, and_false, if_false]
    by_cases hn : 1 < (s.block (s.node i).fileAcl).refcount
    · obtain ⟨e, t, hc, hs, hended, -⟩ | ⟨hc, hnever⟩ := @blockChange_shared s i key value d hn
      · refine ⟨fun _ => ⟨e, t, hs, ?_⟩, fun h => absurd (.inr (.inl (by simp [hc]))) h⟩
        simpa using hended
      · refine ⟨fun h => ?_, fun _ => hnever⟩
        obtain h | h | h := h
        · exact absurd rfl h
        · exact absurd hc h
        · exact absurd hn h.1
    · have hc : s.copyError i d = none := if_neg hn
      have hL : ¬s.CopyLeaks i d := fun h => hn h.1
      obtain ⟨hv, hs⟩ | ⟨hv, ht, hs⟩ | ⟨hv, ht, hnever⟩ := @blockChange_single s i key value d hn
      · exact ⟨fun _ => ⟨_, s, hs, .refl (by simp [hL])⟩,
          fun h => absurd (.inr (.inr ⟨hn, .inl hv⟩)) h⟩
      · exact ⟨fun _ => ⟨_, s, hs, .refl (by simp [hL])⟩,
          fun h => absurd (.inr (.inr ⟨hn, .inr ht⟩)) h⟩
      · refine ⟨fun h => ?_, fun _ => hnever⟩
        obtain h | h | h := h
        · exact absurd rfl h
        · exact absurd hc h
        · exact absurd h.2 (not_or.2 ⟨not_not.2 hv, not_not.2 ht⟩)

/-- A value that goes to a new block. -/
theorem blockSet_new (h0 : (s.node i).fileAcl = 0) :
    (s.NewRefuses i key value d → FailsAs s i (Dev.blockSet s i key value false d) (s.view i)
      (s.NewLeaks i key value d)) ∧
    (¬s.NewRefuses i key value d → NeverFails (Dev.blockSet s i key value false d)) := by
  rw [Dev.blockSet, if_neg (not_not.2 h0)]
  simp only [Bool.false_eq_true, if_false]
  obtain ⟨e, he, hs⟩ | ⟨b, he, hb, hu, hc, hs⟩ := @alloc_cases s d.choice
  · rw [hs]
    refine ⟨fun _ => ⟨e, s, rfl, .refl fun h => ?_⟩, fun h => absurd (.inl (by simp [he])) h⟩
    rw [h.1] at he
    cases he
  · rw [hs]
    simp only
    -- the inode has no block again
    have hfreed : ∀ x : Store, x.node = ((s.setUsed b true).setFileAcl i b).node →
        x.used = (s.setUsed b true).used → x.blockSize = s.blockSize → x.inodeSize = s.inodeSize →
        (d.readNew ≠ none ∨ ¬(s.view i).blockTakes Inode.newBlock key value) →
        Ended s i (Dev.tryFreeBlock x i d) (s.view i) (s.NewLeaks i key value d) := by
      intro x hnode hused hbs his hwhy
      have hacl : (x.node i).fileAcl = b := by
        rw [hnode]
        simp [setFileAcl, setNode]
      have hleaks : s.NewLeaks i key value d ↔ d.free = false :=
        ⟨fun h => h.2.2, fun h => ⟨he, hwhy, h⟩⟩
      obtain ⟨hfree, hgrows⟩ := @freeBlock_used s (x.setFileAcl i 0) b d hu hused
      rw [Dev.tryFreeBlock, if_neg (by rwa [hacl]), hacl]
      refine ⟨?_, ?_, ?_, hgrows⟩
      · rw [freeBlock_view]
        simp [view, setFileAcl, setNode, hnode, hbs, his, h0, setUsed]
      · rw [freeBlock_node]
        simp [setFileAcl, setNode, h0]
      · rw [hfree, hleaks]
    cases hr : d.readNew with
    | some e =>
      refine ⟨fun _ => ⟨e, _, rfl, hfreed _ rfl rfl rfl rfl (.inl (by simp [hr]))⟩, fun h => ?_⟩
      exact absurd (.inr (.inl (by simp [hr]))) h
    | none =>
      have hlayout : ((((s.setUsed b true).setFileAcl i b).setBlock b Inode.newBlock).view
          i).blockLayout = (s.view i).blockLayout := rfl
      have hiff := @blockTakes_iff s i key value none Inode.newBlock.area rfl 1 (by simp)
      simp only [hlayout]
      by_cases ht : (s.view i).blockTakes Inode.newBlock key value
      · obtain ⟨area, harea⟩ := hiff.2 ht
        rw [harea]
        refine ⟨fun h => ?_, fun _ => .ok⟩
        obtain h | h | h := h
        · exact absurd he h
        · exact absurd hr h
        · exact absurd ht h
      · have hfull : setEntry (s.view i).blockLayout Inode.newBlock.area key (some value) none =
            .error .ENOSPC :=
          @setEntry_error _ _ _ _ none (Nat.lt_of_not_le fun hle => ht ⟨le_rfl, hle⟩)
        rw [hfull]
        refine ⟨fun _ => ⟨_, _, rfl, hfreed _ rfl rfl rfl rfl (.inr ht)⟩, fun h => ?_⟩
        exact absurd (.inr (.inr ht)) h

/-- A value that goes to a block. -/
theorem blockSet_ends :
    (s.Refuses i key value d → FailsAs s i (Dev.blockSet s i key value false d) (s.view i)
      (s.Leaks i key value d)) ∧
    (¬s.Refuses i key value d → NeverFails (Dev.blockSet s i key value false d)) := by
  rw [Refuses, Leaks]
  by_cases h0 : (s.node i).fileAcl = 0
  · rw [if_pos h0, if_pos h0]
    exact blockSet_new h0
  · rw [if_neg h0, if_neg h0]
    exact blockSet_old h0

/-- A value that takes the place of one in the block. -/
theorem blockSet_replaces (h0 : (s.node i).fileAcl ≠ 0) :
    (s.Stops i key d ∧ ∃ e t, ¬TurnsTo e ∧ Dev.blockSet s i key value true d = some (.error e, t) ∧
      Ended s i t (s.view i) (s.ReplaceLeaks i key d)) ∨
    (¬s.Stops i key d ∧ s.GoesOn i key value d ∧ ∃ e t, TurnsTo e ∧
      Dev.blockSet s i key value true d = some (.error e, t) ∧
      Ended s i t (s.view i) (s.ReplaceLeaks i key d) ∧
      (s.ReplaceLeaks i key d → t.used = (s.lost d).used)) ∨
    (¬s.Stops i key d ∧ ¬s.GoesOn i key value d ∧
      NeverFails (Dev.blockSet s i key value true d)) := by
  rw [Dev.blockSet, if_pos h0, Dev.blockUpdate, Stops, GoesOn, ReplaceLeaks]
  cases hr : d.read with
  | some e =>
    have hL : ¬((some e : Option Errno) = none ∧ s.BlockValid i ∧ s.InBlock i key ∧
      s.CopyLeaks i d) := by simp
    by_cases he : TurnsTo e
    · refine .inr (.inl ⟨by simp [he], by simp [he], e, s, he, rfl, .refl hL, fun h => absurd h hL⟩)
    · exact .inl ⟨by simp [he], e, s, he, rfl, .refl hL⟩
  | none =>
    simp only [reduceCtorEq, false_and, exists_false, false_or, true_and, and_true]
    by_cases hn : 1 < (s.block (s.node i).fileAcl).refcount
    · rw [if_pos hn]
      by_cases hv : s.BlockValid i
      · rw [find_valid hv]
        cases hf : findEntry key (s.block (s.node i).fileAcl).area.entries with
        | none =>
          have hin : ¬s.InBlock i key := fun h => h hf
          simp only [hv, hin, hn, not_true, false_or, false_and, true_and, true_or, not_false_iff,
            and_false, or_false, and_true]
          exact ⟨.ENODATA, s, .inr rfl, rfl, .refl (by simp), by simp⟩
        | some f =>
          have hin : s.InBlock i key := by
            unfold InBlock
            simp [hf]
          simp only [hv, hin, hn, not_true, false_or, true_and, false_and, or_false]
          obtain ⟨e, t, hc, hs, hended, hlost⟩ | ⟨hc, hnever⟩ :=
            @blockChange_shared s i key value d hn
          · simp only [hc, Option.some.injEq, exists_eq_left']
            by_cases he : TurnsTo e
            · exact .inr (.inl ⟨by simp [he], he, e, t, he, hs, hended, hlost⟩)
            · exact .inl ⟨he, e, t, he, hs, hended⟩
          · simp only [hc, reduceCtorEq, false_and, exists_false, not_false_iff, true_and]
            exact .inr (.inr hnever)
      · rw [find_invalid hv]
        simp only [hv, not_false_iff, true_or, true_and, false_and]
        exact .inl ⟨Errno.EIO, s, by simp [TurnsTo], rfl, .refl (by simp)⟩
    · rw [if_neg hn]
      have hc : s.copyError i d = none := if_neg hn
      have hL : ¬s.CopyLeaks i d := fun h => hn h.1
      simp only [hc, hL, hn, reduceCtorEq, false_and, exists_false, and_false, or_false, false_or,
        not_false_iff, true_and]
      obtain ⟨hv, hs⟩ | ⟨hv, ht, hs⟩ | ⟨hv, ht, hnever⟩ := @blockChange_single s i key value d hn
      · exact .inl ⟨hv, _, s, by simp [TurnsTo], hs, .refl (by simp)⟩
      · refine .inr (.inl ⟨by simp [hv], ⟨hv, ht⟩, _, s, .inl rfl, hs, .refl (by simp), by simp⟩)
      · exact .inr (.inr ⟨by simp [hv], by simp [ht], hnever⟩)

/-- What the copy depends on. -/
theorem copy_congr (h0 : (s.node i).fileAcl ≠ 0) (hacl : (t.node i).fileAcl = (s.node i).fileAcl)
    (hblock : (t.view i).block = (s.view i).block) (hused : t.used = s.used) :
    (t.RemoveFails i d ↔ s.RemoveFails i d) ∧ (t.CopyLeaks i d ↔ s.CopyLeaks i d) := by
  have hb : t.block (t.node i).fileAcl = s.block (s.node i).fileAcl := by
    rw [view_block h0, view_block (hacl ▸ h0)] at hblock
    exact Option.some.inj hblock
  have halloc : t.allocError d.choice = s.allocError d.choice := by
    cases d.choice with
    | error e => rfl
    | ok b =>
      rw [allocError, allocError, allocBlock, allocBlock, hused]
      split_ifs
      · rfl
      · rfl
  rw [RemoveFails, RemoveFails, copyError, copyError, CopyLeaks, CopyLeaks, hb, halloc]
  exact ⟨Iff.rfl, Iff.rfl⟩

/-- The removal from the block. -/
theorem blockRemove_ends (h0 : (s.node i).fileAcl ≠ 0) :
    (s.RemoveFails i d → FailsAs s i (Dev.blockRemove s i d) (s.view i)
      (d.read = none ∧ s.CopyLeaks i d)) ∧
    (¬s.RemoveFails i d → NeverFails (Dev.blockRemove s i d)) := by
  rw [Dev.blockRemove, if_neg h0, RemoveFails]
  cases hr : d.read with
  | some e => exact ⟨fun _ => ⟨e, s, rfl, .refl (by simp)⟩, fun h => absurd (.inl (by simp)) h⟩
  | none =>
    cases hc : s.copyError i d with
    | some e =>
      obtain ⟨t, ht, hended, -⟩ := copyNewBlock_fails hc
      simp only [ht]
      refine ⟨fun _ => ⟨e, t, rfl, ?_⟩, fun h => absurd (.inr (by simp)) h⟩
      simpa using hended
    | none =>
      have hworks : ∃ x t, Dev.copyNewBlock s i d = (.ok x, t) := by
        obtain ⟨-, t, ht⟩ | ⟨-, ht⟩ := copyNewBlock_works hc
        · exact ⟨_, t, ht⟩
        · exact ⟨_, s, ht⟩
      obtain ⟨x, t, ht⟩ := hworks
      refine ⟨fun h => by simp at h, fun _ => ?_⟩
      simp only [ht]
      split
      · exact .ok
      · exact .none

/-- An error that the promise is kept with, or not. -/
theorem FailsAs.unchanged_iff {r : Option (Except Errno Unit × Store)} {s₀ : Store}
    (h : FailsAs s i r v L)
    (hs : s.block = s₀.block ∧ s.used = s₀.used ∧ (s.node i).fileAcl = (s₀.node i).fileAcl)
    (hblock : (s.node i).fileAcl ≠ 0 → v.block = (s.view i).block) :
    (∀ e t, r = some (.error e, t) → Unchanged s₀ i t) ↔ v.reads = (s₀.view i).reads ∧ ¬L := by
  obtain ⟨e, t, rfl, hended⟩ := h
  constructor
  · intro hall
    have hu := hall e t rfl
    exact ⟨by rw [← hended.view, Inode.get_eq_iff.1 hu.get],
      hended.used.1 (hu.used.trans hs.2.1.symm)⟩
  · rintro ⟨hl, hL⟩ e' t' heq
    obtain rfl := (Prod.mk.inj (Option.some.inj heq)).2
    refine ⟨Inode.get_eq_iff.2 (by rw [hended.view, hl]), (hended.used.2 hL).trans hs.2.1,
      hended.fileAcl.trans hs.2.2, fun h0 => ?_⟩
    rw [← hs.2.2] at h0 ⊢
    have hb := hblock h0
    rw [← hended.view, view_block h0, view_block (hended.fileAcl ▸ h0), hended.fileAcl] at hb
    rw [Option.some.inj hb, hs.1]

theorem NeverFails.unchanged {r : Option (Except Errno Unit × Store)} {s₀ : Store}
    (h : NeverFails r) : ∀ e t, r = some (.error e, t) → Unchanged s₀ i t :=
  fun e t hr => absurd hr (h e t)

/-- Only one of the two. -/
theorem Stops.not_goesOn (h : s.Stops i key d) : ¬s.GoesOn i key value d := by
  obtain ⟨e, he, hne⟩ | ⟨hread, h⟩ := h
  · rintro (⟨e', he', ht⟩ | ⟨hread, -⟩)
    · rw [he] at he'
      exact hne (Option.some.inj he' ▸ ht)
    · rw [he] at hread
      cases hread
  · rintro (⟨e', he', -⟩ | ⟨-, hv, hgoes⟩)
    · rw [hread] at he'
      cases he'
    · obtain hnv | ⟨hin, e, hc, hne⟩ := h
      · exact hnv hv
      · obtain ⟨-, hnin | ⟨e', hc', ht⟩⟩ | ⟨hn, -⟩ := hgoes
        · exact hnin hin
        · rw [hc] at hc'
          exact hne (Option.some.inj hc' ▸ ht)
        · rw [copyError, if_neg hn] at hc
          cases hc

/-! ## The inode -/

theorem Ended.setIbody (h : Ended s i t v L) (a : Area) :
    Ended s i (t.setIbody i a) { v with ibody := a } L where
  view := by rw [view_setIbody, h.view]
  fileAcl := by
    rw [← h.fileAcl]
    simp [Store.setIbody, setNode]
  used := h.used
  grows := h.grows

theorem Ended.trans {w : Inode} {L' : Prop} (h : Ended s i t v L) (h' : Ended t i u w L') :
    Ended s i u w (L ∨ L') where
  view := h'.view
  fileAcl := h'.fileAcl.trans h.fileAcl
  used := by
    rw [not_or, ← h.used, ← h'.used]
    refine ⟨fun hu => ?_, fun hu => hu.2.trans hu.1⟩
    -- what is in use between the two is in use in both
    have ht : t.used = s.used := by
      funext b
      cases hb : s.used b with
      | true => exact h.grows b hb
      | false =>
        cases htb : t.used b with
        | false => rfl
        | true =>
          have := h'.grows b htb
          rw [hu, hb] at this
          cases this
    exact ⟨ht, hu.trans ht.symm⟩
  grows b hb := h'.grows b (h.grows b hb)

theorem Ended.congr {L' : Prop} (h : Ended s i t v L) (hL : L ↔ L') : Ended s i t v L' :=
  ⟨h.view, h.fileAcl, h.used.trans (not_congr hL), h.grows⟩

/-- A value that does not fit into the inode goes to a block. -/
theorem tryInsert_ends (hins : (s.view i).inodeInsert found key value = .error .ENOSPC)
    (herase : setEntry (s.view i).ibodyLayout (s.view i).ibody key none found = .ok a) :
    (s.Refuses i key value d → FailsAs s i (Dev.tryInsert s i found key value false d d')
      { s.view i with ibody := a } (s.Leaks i key value d)) ∧
    (¬s.Refuses i key value d → NeverFails (Dev.tryInsert s i found key value false d d')) := by
  obtain ⟨hfails, hnever⟩ := @blockSet_ends s i key value d
  rw [Dev.tryInsert, hins]
  simp only [Bool.false_eq_true, if_false]
  constructor
  · intro h
    obtain ⟨e, t, hs, hended⟩ := hfails h
    rw [hs]
    simp only
    rw [hended.view, herase]
    exact ⟨e, _, rfl, hended.setIbody a⟩
  · intro h
    have hn := hnever h
    rcases hs : Dev.blockSet s i key value false d with - | ⟨e | u, t⟩
    · exact .none
    · exact absurd hs (hn e t)
    · simp only
      split
      · exact .ok
      · exact .ok

theorem tryInsert_fits (hins : (s.view i).inodeInsert found key value = .ok a) :
    NeverFails (Dev.tryInsert s i found key value false d d') := by
  rw [Dev.tryInsert, hins]
  exact .ok

/-- A value that the block has not taken, and the inode does not. -/
theorem tryInsert_full (h : Ended s i t (s.view i) L)
    (hins : (s.view i).inodeInsert found key value = .error .ENOSPC) :
    FailsAs s i (Dev.tryInsert t i found key value true d d') (s.view i) L := by
  rw [Dev.tryInsert, h.view, hins]
  exact ⟨_, t, rfl, h⟩

/-- A value that the block has not taken, and the inode does. -/
theorem tryInsert_adds (h0 : (s.node i).fileAcl ≠ 0) (h : Ended s i t (s.view i) L)
    (hlost : L → t.used = (s.lost d).used)
    (hins : (s.view i).inodeInsert found key value = .ok a) :
    (¬L → (s.RemoveFails i d' → FailsAs s i (Dev.tryInsert t i found key value true d d')
        { s.view i with ibody := a } (d'.read = none ∧ s.CopyLeaks i d')) ∧
      (¬s.RemoveFails i d' → NeverFails (Dev.tryInsert t i found key value true d d'))) ∧
    (L → ((s.lost d).RemoveFails i d' → ∃ v L', FailsAs s i
        (Dev.tryInsert t i found key value true d d') v (L ∨ L')) ∧
      (¬(s.lost d).RemoveFails i d' →
        NeverFails (Dev.tryInsert t i found key value true d d'))) := by
  have hset := h.setIbody a
  have h0' : ((t.setIbody i a).node i).fileAcl ≠ 0 := by rwa [hset.fileAcl]
  have hblock : ((t.setIbody i a).view i).block = (s.view i).block := by rw [hset.view]
  obtain ⟨hfails, hnever⟩ := @blockRemove_ends (t.setIbody i a) i d' h0'
  rw [Dev.tryInsert, h.view, hins]
  simp only [if_true]
  constructor
  · intro hL
    obtain ⟨hremove, hleaks⟩ := @copy_congr s (t.setIbody i a) i d' h0 hset.fileAcl hblock
      (h.used.2 hL)
    rw [← hremove, ← hleaks]
    refine ⟨fun hr => ?_, hnever⟩
    obtain ⟨e, u, hu, hended⟩ := hfails hr
    refine ⟨e, u, hu, ?_⟩
    rw [hset.view] at hended
    exact (hset.trans hended).congr (by simp [hL])
  · intro hL
    have hview : (s.lost d).view i = s.view i := by
      rw [lost]
      split
      · rfl
      · rfl
    have hnode : (s.lost d).node = s.node := by
      rw [lost]
      split
      · rfl
      · rfl
    obtain ⟨hremove, -⟩ := @copy_congr (s.lost d) (t.setIbody i a) i d' (by rwa [hnode])
      (by rw [hset.fileAcl, hnode]) (by rw [hblock, hview]) (hlost hL)
    rw [← hremove]
    refine ⟨fun hr => ?_, hnever⟩
    obtain ⟨e, u, hu, hended⟩ := hfails hr
    exact ⟨_, _, e, u, hu, hset.trans hended⟩

/-! ## The attributes -/

/-- An entry behind the others is found if there is none among them. -/
theorem findEntry_snoc (es : List Entry) (x : Entry) :
    findEntry key (es ++ [x]) = match findEntry key es with
      | some (pre, here, post) => some (pre, here, post ++ [x])
      | none => if x.key = key then some (es, x, []) else none := by
  induction es with
  | nil => rfl
  | cons y es ih =>
    rw [List.cons_append, findEntry, findEntry]
    by_cases hy : y.key = key
    · rw [if_pos hy, if_pos hy]
    · rw [if_neg hy, if_neg hy, ih]
      cases findEntry key es with
      | none =>
        simp only
        split
        · rfl
        · rfl
      | some f => rfl

/-- A new entry, which comes behind the others. -/
theorem setEntry_new {L : Layout} (h : Wf L a) (hs : setEntry L a key (some value) none = .ok area)
    (k : Key) : area.lookup k = (a.lookup k).or (if k = key.stored then some value else none) := by
  obtain ⟨m, hm⟩ : ∃ m, m = minOffs L.size a.entries := ⟨_, rfl⟩
  have hmt := h.tableEnd_le_minOffs
  rw [← hm] at hmt
  rw [setEntry, freeSpace, ← hm] at hs
  simp only at hs
  split_ifs at hs with hfull
  obtain rfl : (⟨a.header, a.entries ++ [newEntry key.stored m value],
    putValue a.mem (newOffs m value.length) value⟩ : Area) = area := Except.ok.inj hs
  have hpad : xattrSize value.length ≤ m := by omega
  show (findEntry k (a.entries ++ [newEntry key.stored m value])).map _ =
    ((findEntry k a.entries).map _).or _
  rw [findEntry_snoc]
  cases hf : findEntry k a.entries with
  | some f =>
    obtain ⟨pre, here, post⟩ := f
    obtain ⟨hes, -, -⟩ := findEntry_some hf
    have hread : (putValue a.mem (newOffs m value.length) value).read here.valueOffs
        here.valueSize = a.mem.read here.valueOffs here.valueSize :=
      newEntry_read a.mem hpad fun hne => by
        rw [hm]
        exact minOffs_le (by rw [hes]; simp) hne
    simp only [Option.map_some, Option.some_or, Option.some.injEq]
    exact hread
  | none =>
    simp only [Option.map_none, Option.none_or]
    by_cases hk : k = key.stored
    · rw [if_pos hk, if_pos (show (newEntry key.stored m value).key = k from hk.symm)]
      have hread : (putValue a.mem (newOffs m value.length) value).read (newOffs m value.length)
          value.length = value := read_putValue a.mem m fun hne => by omega
      simp only [Option.map_some, Option.some.injEq]
      exact hread
    · rw [if_neg hk, if_neg fun h => hk (show (newEntry key.stored m value).key = k from h).symm]
      rfl

/-- The attributes of the inode with another area in it. -/
theorem reads_ibody_iff {v : Inode} {accepted : Prop} {m : Key → Except Errno (List Byte)}
    (h0 : v.extraIsize ≠ 0) (ha : area.header = true)
    (hv : isValid v.ibodyLayout area = true ↔ accepted) :
    ({ v with ibody := area } : Inode).reads = m ↔ ReadsAs v accepted area.lookup m := by
  have hina : ({ v with ibody := area } : Inode).inodeArea = some area := if_pos ⟨h0, ha⟩
  rw [ReadsAs, ← hv]
  by_cases hvalid : isValid v.ibodyLayout area = true
  · have hread : ({ v with ibody := area } : Inode).reads = fun k => match area.lookup k with
        | some value => .ok value
        | none => v.blockReads k := by
      funext k
      rw [Inode.reads, if_pos (.inr hvalid), hina]
      rfl
    rw [hread, imp_iff_right hvalid]
    exact ⟨fun h => ⟨fun k => (congrFun h k).symm, fun hn => absurd hvalid hn⟩,
      fun h => funext fun k => (h.1 k).symm⟩
  · have hread : ({ v with ibody := area } : Inode).reads = fun _ => .error Errno.EIO := by
      funext k
      exact if_neg (not_or.2 ⟨h0, hvalid⟩)
    rw [hread]
    exact ⟨fun h => ⟨fun hn => absurd hn hvalid, fun _ k => (congrFun h k).symm⟩,
      fun h => funext fun k => (h.2 hvalid k).symm⟩

section Ready

variable (hr : (s.view i).ibodyReady)
  (hwf : ∀ a, (s.view i).inodeArea = some a → Wf (s.view i).ibodyLayout a)

include hr hwf

/-- The entry is removed from the inode. -/
theorem reads_removed (h0 : (s.view i).extraIsize ≠ 0) : ∃ area,
    setEntry (s.view i).ibodyLayout (s.view i).ibody key none
      (findEntry key (s.view i).ibody.entries) = .ok area ∧
    ∀ m, ({ s.view i with ibody := area } : Inode).reads = m ↔ s.ReadsRemoved i key m := by
  obtain ⟨ha, hv⟩ := hr.area h0
  obtain ⟨area, harea, hwf', hl⟩ := @setEntry_erase _ _ key (hwf _ ha) hv
  refine ⟨area, harea, fun m => ?_⟩
  rw [reads_ibody_iff h0 hwf'.header (setEntry_accepted_iff (hwf _ ha) hv harea), hl,
    ReadsRemoved, ha]
  rfl

/-- An entry is added to the inode. -/
theorem reads_added (hnone : (s.view i).extraIsize ≠ 0 → findEntry key (s.view i).ibody.entries = none)
    (hins : (s.view i).inodeInsert none key value = .ok area) (m : Key → Except Errno (List Byte)) :
    ({ s.view i with ibody := area } : Inode).reads = m ↔ s.ReadsAdded i key value m := by
  rw [Inode.inodeInsert] at hins
  split at hins
  · rename_i h0
    obtain ⟨ha, hv⟩ := hr.area h0
    have hheader : area.header = true := by
      rw [setEntry] at hins
      split at hins
      · cases hins
      · obtain rfl := Except.ok.inj hins
        have hheader : (s.view i).ibody.header = true := Inode.isValid_header hv
        exact hheader
    have hfind := hnone h0
    have haccepted := @setEntry_accepted_iff _ _ _ key (hwf _ ha) hv (some value) (by rwa [hfind])
    rw [hfind] at haccepted
    rw [reads_ibody_iff h0 hheader haccepted, ReadsAdded, ha, funext (setEntry_new (hwf _ ha) hins)]
    rfl
  · cases hins

/-! ## Every way to fail -/

/-- The attribute is in the inode. -/
theorem setFound_present_iff {s₀ : Store}
    (hs : s.block = s₀.block ∧ s.used = s₀.used ∧ (s.node i).fileAcl = (s₀.node i).fileAcl)
    (hin : (s.view i).inInode key) {f : List Entry × Entry × List Entry}
    (hfe : findEntry key (s.view i).ibody.entries = some f) :
    (∀ e t, Dev.setFound s i (some f) key value d d' = some (.error e, t) → Unchanged s₀ i t) ↔
      s.KeepsOn i key value d d' (s₀.view i).reads := by
  rw [Dev.setFound, if_neg fun h => by cases h.1]
  by_cases ht : (s.view i).inodeTakes key value
  · obtain ⟨area, hins, -⟩ := Inode.inodeInsert_ok ht
    rw [hfe] at hins
    refine iff_of_true (tryInsert_fits hins).unchanged ⟨?_, ?_, ?_, ?_, ?_⟩
    · exact fun _ hnt => absurd ht hnt
    all_goals exact fun hnin => absurd hin hnin
  · have hins : (s.view i).inodeInsert (some f) key value = .error .ENOSPC :=
      Inode.inodeInsert_error ht fun _ => hfe.symm
    obtain ⟨area, herase, hl⟩ := @reads_removed s i key hr hwf hin.1
    rw [hfe] at herase
    obtain ⟨hfails, hnever⟩ := @tryInsert_ends s i key value d d' (some f) area hins herase
    by_cases hrefuses : s.Refuses i key value d
    · rw [(hfails hrefuses).unchanged_iff hs fun _ => rfl, hl]
      refine ⟨fun h => ⟨fun _ _ _ => h, ?_, ?_, ?_, ?_⟩, fun h => h.moves hin ht hrefuses⟩
      all_goals exact fun hnin => absurd hin hnin
    · refine iff_of_true (hnever hrefuses).unchanged ⟨?_, ?_, ?_, ?_, ?_⟩
      · exact fun _ _ h => absurd h hrefuses
      all_goals exact fun hnin => absurd hin hnin

omit hr hwf in
/-- The attribute is not in the inode, and there is no block. -/
theorem setFound_alone_iff {s₀ : Store}
    (hs : s.block = s₀.block ∧ s.used = s₀.used ∧ (s.node i).fileAcl = (s₀.node i).fileAcl)
    (hin : ¬(s.view i).inInode key) (h0 : (s.node i).fileAcl = 0)
    (hins : (s.view i).inodeInsert none key value =
      (s.view i).inodeInsert (findEntry key (s.view i).ibody.entries) key value) :
    (∀ e t, Dev.setFound s i none key value d d' = some (.error e, t) → Unchanged s₀ i t) ↔
      s.KeepsOn i key value d d' (s₀.view i).reads := by
  rw [Dev.setFound, if_neg fun h => h.2 h0]
  by_cases ht : (s.view i).inodeTakes key value
  · obtain ⟨area, hok, -⟩ := Inode.inodeInsert_ok ht
    refine iff_of_true (tryInsert_fits (hins.trans hok)).unchanged ⟨?_, ?_, ?_, ?_, ?_⟩
    · exact fun h => absurd h hin
    · exact fun _ _ hnt => absurd ht hnt
    all_goals exact fun _ hne => absurd h0 hne
  · obtain ⟨hfails, hnever⟩ := @tryInsert_ends s i key value d d' none (s.view i).ibody
      (hins.trans (Inode.inodeInsert_error ht fun _ => rfl)) rfl
    rw [Refuses, if_pos h0] at hfails hnever
    rw [Leaks, if_pos h0] at hfails
    by_cases hrefuses : s.NewRefuses i key value d
    · rw [(hfails hrefuses).unchanged_iff hs fun _ => rfl]
      refine ⟨fun h => ⟨?_, fun _ _ _ _ => h, ?_, ?_, ?_⟩, fun h => h.alone hin h0 ht hrefuses⟩
      · exact fun h => absurd h hin
      all_goals exact fun _ hne => absurd h0 hne
    · refine iff_of_true (hnever hrefuses).unchanged ⟨?_, ?_, ?_, ?_, ?_⟩
      · exact fun h => absurd h hin
      · exact fun _ _ _ h => absurd h hrefuses
      all_goals exact fun _ hne => absurd h0 hne

/-- The block of the inode has not taken the value, and the inode does. -/
theorem tryInsert_adds_iff {s₀ : Store}
    (hs : s.block = s₀.block ∧ s.used = s₀.used ∧ (s.node i).fileAcl = (s₀.node i).fileAcl)
    (hin : ¬(s.view i).inInode key) (h0 : (s.node i).fileAcl ≠ 0) (hstops : ¬s.Stops i key d)
    (hgoes : s.GoesOn i key value d) (ht : (s.view i).inodeTakes key value)
    (hended : Ended s i t (s.view i) (s.ReplaceLeaks i key d))
    (hlost : s.ReplaceLeaks i key d → t.used = (s.lost d).used)
    (hnone : (s.view i).extraIsize ≠ 0 → findEntry key (s.view i).ibody.entries = none)
    (hins : (s.view i).inodeInsert none key value = .ok area) :
    (∀ e u, Dev.tryInsert t i none key value true d d' = some (.error e, u) → Unchanged s₀ i u) ↔
      s.KeepsOn i key value d d' (s₀.view i).reads := by
  obtain ⟨hkept, hleaks⟩ := @tryInsert_adds s t i key value d d' _ none area h0 hended hlost hins
  have hstop : s.Stops i key d ∨ s.GoesOn i key value d ∧ ¬(s.view i).inodeTakes key value →
      False := by
    rintro (h | h)
    · exact hstops h
    · exact h.2 ht
  by_cases hL : s.ReplaceLeaks i key d
  · obtain ⟨hfails, hnever⟩ := hleaks hL
    by_cases hremove : (s.lost d).RemoveFails i d'
    · obtain ⟨v, L', e, u, hu, hended'⟩ := hfails hremove
      refine iff_of_false (fun hall => ?_) fun h => h.loses hin h0 hgoes ht hL hremove
      exact hended'.used.1 ((hall e u hu).used.trans hs.2.1.symm) (.inl hL)
    · refine iff_of_true (hnever hremove).unchanged ⟨?_, ?_, ?_, ?_, ?_⟩
      · exact fun h => absurd h hin
      · exact fun _ h => absurd h h0
      · exact fun _ _ h => (hstop h).elim
      · exact fun _ _ _ _ h => absurd hL h
      · exact fun _ _ _ _ _ => hremove
  · obtain ⟨hfails, hnever⟩ := hkept hL
    by_cases hremove : s.RemoveFails i d'
    · rw [(hfails hremove).unchanged_iff hs fun _ => rfl, reads_added hr hwf hnone hins]
      refine ⟨fun h => ⟨?_, ?_, ?_, fun _ _ _ _ _ _ => h, ?_⟩,
        fun h => h.adds hin h0 hgoes ht hL hremove⟩
      · exact fun h => absurd h hin
      · exact fun _ h => absurd h h0
      · exact fun _ _ h => (hstop h).elim
      · exact fun _ _ _ _ h => absurd h hL
    · refine iff_of_true (hnever hremove).unchanged ⟨?_, ?_, ?_, ?_, ?_⟩
      · exact fun h => absurd h hin
      · exact fun _ h => absurd h h0
      · exact fun _ _ h => (hstop h).elim
      · exact fun _ _ _ _ _ h => absurd h hremove
      · exact fun _ _ _ _ h => absurd h hL

/-- The attribute is not in the inode, and there is a block. -/
theorem setFound_block_iff {s₀ : Store}
    (hs : s.block = s₀.block ∧ s.used = s₀.used ∧ (s.node i).fileAcl = (s₀.node i).fileAcl)
    (hin : ¬(s.view i).inInode key) (h0 : (s.node i).fileAcl ≠ 0)
    (hnone : (s.view i).extraIsize ≠ 0 → findEntry key (s.view i).ibody.entries = none)
    (hins : (s.view i).inodeInsert none key value =
      (s.view i).inodeInsert (findEntry key (s.view i).ibody.entries) key value) :
    (∀ e t, Dev.setFound s i none key value d d' = some (.error e, t) → Unchanged s₀ i t) ↔
      s.KeepsOn i key value d d' (s₀.view i).reads := by
  rw [Dev.setFound, if_pos ⟨rfl, h0⟩]
  obtain ⟨hstops, e, t, he, hset, hended⟩ | ⟨hstops, hgoes, e, t, he, hset, hended, hlost⟩ |
    ⟨hstops, hgoes, hnever⟩ := @blockSet_replaces s i key value d h0
  · have hfails : FailsAs s i (match Dev.blockSet s i key value true d with
        | some (.error .ENOSPC, s) => Dev.tryInsert s i none key value true d d'
        | some (.error .ENODATA, s) => Dev.tryInsert s i none key value true d d'
        | r => r) (s.view i) (s.ReplaceLeaks i key d) := by
      rw [hset]
      cases e with
      | ENOSPC => exact absurd (.inl rfl) he
      | ENODATA => exact absurd (.inr rfl) he
      | _ => exact ⟨_, t, rfl, hended⟩
    rw [hfails.unchanged_iff hs fun _ => rfl]
    refine ⟨fun h => ⟨?_, ?_, fun _ _ _ => h, ?_, ?_⟩, fun h => h.stops hin h0 (.inl hstops)⟩
    · exact fun h => absurd h hin
    · exact fun _ h => absurd h h0
    all_goals exact fun _ _ h => absurd h hstops.not_goesOn
  · have hmatch : (match Dev.blockSet s i key value true d with
        | some (.error .ENOSPC, s) => Dev.tryInsert s i none key value true d d'
        | some (.error .ENODATA, s) => Dev.tryInsert s i none key value true d d'
        | r => r) = Dev.tryInsert t i none key value true d d' := by
      rw [hset]
      obtain rfl | rfl := he
      · rfl
      · rfl
    rw [hmatch]
    by_cases ht : (s.view i).inodeTakes key value
    · obtain ⟨area, hok, -⟩ := Inode.inodeInsert_ok ht
      exact tryInsert_adds_iff hr hwf hs hin h0 hstops hgoes ht hended hlost hnone (hins.trans hok)
    · have hfull := hins.trans (Inode.inodeInsert_error ht fun _ => rfl)
      rw [(tryInsert_full hended hfull).unchanged_iff hs fun _ => rfl]
      refine ⟨fun h => ⟨?_, ?_, fun _ _ _ => h, ?_, ?_⟩,
        fun h => h.stops hin h0 (.inr ⟨hgoes, ht⟩)⟩
      · exact fun h => absurd h hin
      · exact fun _ h => absurd h h0
      all_goals exact fun _ _ _ h => absurd h ht
  · have hmatch : NeverFails (match Dev.blockSet s i key value true d with
        | some (.error .ENOSPC, s) => Dev.tryInsert s i none key value true d d'
        | some (.error .ENODATA, s) => Dev.tryInsert s i none key value true d d'
        | r => r) := by
      rcases hset : Dev.blockSet s i key value true d with - | ⟨e | u, t⟩
      · exact .none
      · exact absurd hset (hnever e t)
      · exact .ok
    refine iff_of_true hmatch.unchanged ⟨?_, ?_, ?_, ?_, ?_⟩
    · exact fun h => absurd h hin
    · exact fun _ h => absurd h h0
    · rintro - - (h | h)
      · exact absurd h hstops
      · exact absurd h.1 hgoes
    all_goals exact fun _ _ h => absurd h hgoes

/-- With a valid area in the inode. -/
theorem setFound_unchanged_iff {s₀ : Store}
    (hs : s.block = s₀.block ∧ s.used = s₀.used ∧ (s.node i).fileAcl = (s₀.node i).fileAcl)
    (hfound : (s.view i).ibodyFindEntry key = .ok found) :
    (∀ e t, Dev.setFound s i found key value d d' = some (.error e, t) → Unchanged s₀ i t) ↔
      s.KeepsOn i key value d d' (s₀.view i).reads := by
  by_cases hin : (s.view i).inInode key
  · obtain ⟨f, hf, hfe⟩ := find_of_inInode hr hin
    obtain rfl : some f = found := Except.ok.inj (hf.symm.trans hfound)
    exact setFound_present_iff hr hwf hs hin hfe
  · obtain ⟨hf, hnone⟩ := find_of_not_inInode hr hin
    obtain rfl : none = found := Except.ok.inj (hf.symm.trans hfound)
    have hins : (s.view i).inodeInsert none key value =
        (s.view i).inodeInsert (findEntry key (s.view i).ibody.entries) key value := by
      rw [Inode.inodeInsert, Inode.inodeInsert]
      split
      · rename_i h0
        rw [hnone h0]
      · rfl
    by_cases h0 : (s.node i).fileAcl = 0
    · exact setFound_alone_iff hs hin h0 hins
    · exact setFound_block_iff hr hwf hs hin h0 hnone hins

end Ready

/-! ## The area that is checked first -/

theorem checked_ready (h : (s.view i).ibodyReady) : s.checked i = s := if_pos h

theorem checked_emptied (h : ¬(s.view i).ibodyReady) :
    s.checked i = s.setIbody i ⟨true, [], fun _ => 0⟩ := by
  have hc : s.checked i = s.setIbody i (s.view i).ibodyInitialize.ibody := if_neg h
  rw [hc, Inode.ibodyInitialize, if_neg fun h0 => h (.inl h0)]

theorem checked_same : (s.checked i).block = s.block ∧ (s.checked i).used = s.used ∧
    ((s.checked i).node i).fileAcl = (s.node i).fileAcl := by
  by_cases h : (s.view i).ibodyReady
  · rw [checked_ready h]
    exact ⟨rfl, rfl, rfl⟩
  · rw [checked_emptied h]
    exact ⟨rfl, rfl, by simp [setIbody, setNode]⟩

theorem set_checked : Dev.set s i key value d d' =
    match ((s.checked i).view i).ibodyFindEntry key with
    | .error _ => none
    | .ok found => Dev.setFound (s.checked i) i found key value d d' := by
  rw [Dev.set]
  by_cases h : (s.view i).ibodyReady
  · rw [checked_ready h, h.find key]
    simp only
    rw [h.find key]
  · have herror : (s.view i).ibodyFindEntry key = .error Errno.EIO := by
      rw [Inode.ibodyReady, not_or] at h
      rw [Inode.ibodyFindEntry, if_neg h.1, if_neg h.2]
    have hc : s.checked i = s.setIbody i (s.view i).ibodyInitialize.ibody := if_neg h
    rw [herror, hc]

/-- The area in the inode is well formed when it has been checked. -/
theorem checked_wf (hwf : ∀ a, (s.view i).inodeArea = some a → Wf (s.view i).ibodyLayout a)
    (hr : ((s.checked i).view i).ibodyReady) : ∀ a, ((s.checked i).view i).inodeArea = some a →
      Wf ((s.checked i).view i).ibodyLayout a := by
  by_cases h : (s.view i).ibodyReady
  · rwa [checked_ready h]
  · intro a ha
    obtain ⟨rfl, h0, -⟩ := Inode.inodeArea_eq ha
    obtain ⟨-, hv⟩ := hr.area h0
    rw [checked_emptied h, view_setIbody] at hv ⊢
    have hsize : (s.view i).ibodyLayout.first + 4 ≤ (s.view i).ibodyLayout.size := by
      rw [isValid, Bool.and_eq_true, decide_eq_true_iff] at hv
      have := hv.2
      simp only [minOffs, List.foldl_nil, tableEnd, List.map_nil, List.sum_nil] at this
      exact Nat.le_of_add_le_add_right this
    exact wf_nil hsize _

/-- **`ext4_xattr_set`, when it fails, leaves the attributes and the blocks as
    they were exactly if** the attribute has not been removed from the inode,
    nor added to it, nor an invalid area emptied, so that it can be seen, and no
    new block could not be released. -/
theorem set_unchanged_iff
    (hwf : ∀ a, (s.view i).inodeArea = some a → Wf (s.view i).ibodyLayout a) (key : Key)
    (value : List Byte) (d d' : Device) :
    (∀ e t, Dev.set s i key value d d' = some (.error e, t) → Unchanged s i t) ↔
      s.KeepsOnError i key value d d' := by
  rw [set_checked, KeepsOnError]
  by_cases hr : ((s.checked i).view i).ibodyReady
  · rw [imp_iff_right hr]
    cases hf : ((s.checked i).view i).ibodyFindEntry key with
    | error e =>
      rw [hr.find] at hf
      cases hf
    | ok found => exact setFound_unchanged_iff hr (checked_wf hwf hr) checked_same hf
  · refine iff_of_true (fun e t h => ?_) fun h => absurd h hr
    rw [Inode.ibodyReady, not_or] at hr
    rw [Inode.ibodyFindEntry, if_neg hr.1, if_neg hr.2] at h
    cases h

end Fail

/-- A disk without a free block, and an inode with an attribute of four bytes
    in it. -/
def fullDisk : Store where
  blockSize := 4096
  inodeSize := 256
  node := fun _ => ⟨32, ⟨true, [⟨Inode.userA, 88, 4⟩], fun _ => 7⟩, 0⟩
  block := fun _ => Inode.newBlock
  used := fun _ => true

/-- The allocator finds nothing. -/
def noSpace : Device := .working (.error .ENOSPC)

theorem fullDisk_wf : ∀ a, (fullDisk.view 11).inodeArea = some a →
    Wf (fullDisk.view 11).ibodyLayout a := by
  intro a ha
  obtain ⟨rfl, -, -⟩ := Inode.inodeArea_eq ha
  exact
    { header := rfl
      names := by decide
      nodup := by decide
      table := by decide
      room := by decide
      apart := List.pairwise_singleton _ _ }

/-- Another attribute, which is too large, is refused. -/
theorem set_unchanged_refused : (∃ t, Dev.set fullDisk 11 ⟨1, [0x62], Nat.one_pos⟩
      (List.replicate 92 1) noSpace noSpace = some (.error .ENOSPC, t)) ∧
    ∀ e t, Dev.set fullDisk 11 ⟨1, [0x62], Nat.one_pos⟩ (List.replicate 92 1) noSpace noSpace =
      some (.error e, t) → Unchanged fullDisk 11 t := by
  refine ⟨⟨_, rfl⟩, (set_unchanged_iff fullDisk_wf _ _ _ _).2 fun hr => ?_⟩
  have hc : fullDisk.checked 11 = fullDisk := checked_ready (.inr (by decide))
  rw [hc]
  refine ⟨fun h => ?_, fun _ _ _ _ => ⟨rfl, fun h => ?_⟩, fun _ h => ?_, fun _ h => ?_,
    fun _ h => ?_⟩
  · exact absurd h (by unfold Inode.inInode; decide)
  · cases h.1
  all_goals exact absurd rfl h

/-- A new value, which is too large for the inode, costs the old one. -/
theorem set_unchanged_wrong : ¬∀ e t, Dev.set fullDisk 11 Inode.userA (List.replicate 92 1) noSpace
    noSpace = some (.error e, t) → Unchanged fullDisk 11 t := by
  intro h
  obtain ⟨t, ht, hget⟩ : ∃ t, Dev.set fullDisk 11 Inode.userA (List.replicate 92 1) noSpace
      noSpace = some (.error .ENOSPC, t) ∧ (t.view 11).get Inode.userA 4 = .error .ENODATA :=
    ⟨_, rfl, rfl⟩
  have hl := (h _ t ht).get Inode.userA 4
  rw [hget] at hl
  have hbefore : (fullDisk.view 11).get Inode.userA 4 = .ok ([7, 7, 7, 7], 4) := rfl
  rw [hbefore] at hl
  cases hl

end Store

end Xattr

end Lwext4
