/-
  Blocks of attributes that several inodes share.

  Main result: `share_correct_iff` says which operations on an inode with a
  shared block leave the others alone and give the inode a block of its own.
-/
import Lwext4.XattrStore
import Lwext4.XattrEdit

namespace Lwext4

open Lib

namespace Xattr

namespace Store

/-! ## Sharing -/

/-- An operation on an inode. -/
inductive Call where
  | set (key : Key) (value : List Byte)
  | remove (key : Key)
  | free

/-- What the operation meets: the answer of the allocator, and the results of
    what `ext4_fs_free_inode` calls. -/
structure Answers where
  choice : Except Errno ℕ
  blocks : Except Errno Unit
  block : Except Errno Unit
  inode : Except Errno Unit

def call (s : Store) (i : ℕ) (o : Answers) : Call → Option (Except Errno Unit × Store)
  | .set key value => s.set i key value o.choice
  | .remove key => s.remove i key o.choice
  | .free => some (s.freeInode i o.blocks o.block o.inode)

/-- Inode `i` shares its block, and the blocks of all inodes are in use. -/
structure Shares (s : Store) (i : ℕ) : Prop where
  fileAcl : (s.node i).fileAcl ≠ 0
  refcount : 1 < (s.block (s.node i).fileAcl).refcount
  used : ∀ j, (s.node j).fileAcl ≠ 0 → s.used (s.node j).fileAcl = true

/-- The attributes of inode `i` are also well formed and pass the checks. -/
structure Shared (s : Store) (i : ℕ) : Prop extends Shares s i where
  inv : (s.view i).Inv
  ibody : (s.view i).fresh.ibodyReady
  block : (s.view i).blockReady

/-- The inode has no block, or one that is its own. -/
def Own (s : Store) (i : ℕ) : Prop := (s.node i).fileAcl = 0 ∨
  s.used (s.node i).fileAcl = true ∧ (s.block (s.node i).fileAcl).refcount = 1
    ∧ ∀ j, j ≠ i → (s.node j).fileAcl ≠ (s.node i).fileAcl

/-- The operation leaves the others alone: what they read is the same, no block
    in use is freed, and the shared block stays as it is, or counts one inode
    less when the inode has gone to a block of its own. -/
structure CopyOnWrite (s : Store) (i : ℕ) (t : Store) : Prop where
  others : ∀ j, j ≠ i → (∀ key bufLen, (t.view j).get key bufLen = (s.view j).get key bufLen)
    ∧ (t.view j).list = (s.view j).list
  used : ∀ b, s.used b = true → t.used b = true
  shared : (t.node i).fileAcl = (s.node i).fileAcl ∧
      t.block (s.node i).fileAcl = s.block (s.node i).fileAcl ∨
    (t.node i).fileAcl ≠ (s.node i).fileAcl ∧ t.Own i ∧ t.block (s.node i).fileAcl =
      { s.block (s.node i).fileAcl with refcount := (s.block (s.node i).fileAcl).refcount - 1 }

/-- When the operation succeeds, the inode has its attributes, updated: this is
    what `ext4_xattr_get` returns. -/
def Updated (s : Store) (i : ℕ) : Call → Except Errno Unit → Store → Prop
  | .set key value, .ok _, t => ∀ k bufLen, (t.view i).get k bufLen =
    Inode.answer (Function.update (s.view i).lookup key (some value)) k bufLen
  | .remove key, .ok _, t => (s.view i).lookup key ≠ none ∧ ∀ k bufLen, (t.view i).get k bufLen =
    Inode.answer (Function.update (s.view i).lookup key none) k bufLen
  | _, _, _ => True

/-- No block is free. -/
def Full (used : ℕ → Bool) : Prop := ∀ b, b ≠ 0 → used b = true

/-- The ways to set an attribute that keep to the rules: it is in the inode and
    fits there, or no block is free; it is neither in the inode nor in the
    block, and the inode has no room for it, or the block has no entries.  What
    the inode then holds is accepted by its check. -/
structure KeepsSet (used : ℕ → Bool) (v : Inode) (x : Block) (key : Key) (value : List Byte) : Prop where
  stays : v.inInode key → v.inodeTakes key value →
    Accepted v.ibodyLayout v.ibody.entries key (some value) (findEntry key v.ibody.entries)
  moves : v.inInode key → ¬v.inodeTakes key value → Full used
  absent : ¬v.inInode key → Full used ∨ (findEntry key x.area.entries = none ∧
    (v.inodeTakes key value → x.area.entries = [] ∧ key.name.length < 256 ∧
      Accepted v.ibodyLayout v.ibody.entries key (some value) (findEntry key v.ibody.entries)))

/-- The operations that keep to the rules.  To remove an attribute, it must not
    be in the inode, and the block that is left must be accepted. -/
def Keeps (s : Store) (i : ℕ) : Call → Prop
  | .set key value => KeepsSet s.used (s.view i).fresh (s.block (s.node i).fileAcl) key value
  | .remove key => ¬((s.view i).ibody.header = true ∧ (s.view i).inInode key) ∧
    ((s.view i).ibody.header = true ∨ (s.view i).extraIsize = 0 → Full s.used ∨
      Accepted (s.view i).blockLayout (s.block (s.node i).fileAcl).area.entries key none
        (findEntry key (s.block (s.node i).fileAcl).area.entries))
  | .free => False

section Share

variable {s t : Store} {i j b : ℕ} {key : Key} {value : List Byte} {choice : Except Errno ℕ} {a : Area}

/-- The count is not among what is read. -/
theorem get_refcount (v : Inode) (x : Block) (n : ℕ) (hx : v.block = some x) (bufLen : ℕ) :
    ({ v with block := some { x with refcount := n } } : Inode).get key bufLen = v.get key bufLen := by
  obtain ⟨bs, is, ex, ib, bl⟩ := v
  obtain rfl : bl = some x := hx
  rfl

theorem list_refcount (v : Inode) (x : Block) (n : ℕ) (hx : v.block = some x) :
    ({ v with block := some { x with refcount := n } } : Inode).list = v.list := by
  obtain ⟨bs, is, ex, ib, bl⟩ := v
  obtain rfl : bl = some x := hx
  rfl

theorem lookup_refcount (v : Inode) (x : Block) (n : ℕ) (hx : v.block = some x) :
    ({ v with block := some { x with refcount := n } } : Inode).lookup = v.lookup := by
  obtain ⟨bs, is, ex, ib, bl⟩ := v
  obtain rfl : bl = some x := hx
  rfl

/-- What changes nothing outside the inode. -/
theorem CopyOnWrite.inside (hnode : ∀ j, j ≠ i → t.node j = s.node j)
    (hacl : (t.node i).fileAcl = (s.node i).fileAcl) (hblock : t.block = s.block)
    (hused : t.used = s.used) (hbs : t.blockSize = s.blockSize) (his : t.inodeSize = s.inodeSize) :
    CopyOnWrite s i t := by
  refine ⟨fun j hj => ?_, fun b hb => hused ▸ hb, .inl ⟨hacl, by rw [hblock]⟩⟩
  have hv : t.view j = s.view j := by rw [view, view, hnode j hj, hblock, hbs, his]
  rw [hv]
  exact ⟨fun _ _ => rfl, rfl⟩

theorem CopyOnWrite.refl : CopyOnWrite s i s := .inside (fun _ _ => rfl) rfl rfl rfl rfl rfl

theorem CopyOnWrite.setIbody : CopyOnWrite s i (s.setIbody i a) :=
  .inside (fun j hj => Function.update_of_ne hj _ _) (by simp [Store.setIbody, setNode]) rfl rfl rfl rfl

/-- The inode has left the block. -/
theorem CopyOnWrite.left (h : Shares s i) (hnode : ∀ j, j ≠ i → t.node j = s.node j)
    (hblock : ∀ b, s.used b = true → b ≠ (s.node i).fileAcl → t.block b = s.block b)
    (hused : ∀ b, s.used b = true → t.used b = true) (hbs : t.blockSize = s.blockSize)
    (his : t.inodeSize = s.inodeSize) (hacl : (t.node i).fileAcl ≠ (s.node i).fileAcl) (hown : t.Own i)
    (hold : t.block (s.node i).fileAcl =
      { s.block (s.node i).fileAcl with refcount := (s.block (s.node i).fileAcl).refcount - 1 }) :
    CopyOnWrite s i t := by
  refine ⟨fun j hj => ?_, hused, .inr ⟨hacl, hown, hold⟩⟩
  by_cases h0 : (s.node j).fileAcl = 0
  · have hv : t.view j = s.view j := by rw [view, view, hnode j hj, if_pos h0, if_pos h0, hbs, his]
    rw [hv]
    exact ⟨fun _ _ => rfl, rfl⟩
  · by_cases hs : (s.node j).fileAcl = (s.node i).fileAcl
    · have hb := view_block h0
      rw [hs] at hb
      have hv : t.view j = { s.view j with block := some { s.block (s.node i).fileAcl with
          refcount := (s.block (s.node i).fileAcl).refcount - 1 } } := by
        rw [view, hnode j hj, if_neg h0, hs, hold, hbs, his]
        rfl
      rw [hv]
      exact ⟨fun _ _ => get_refcount _ _ _ hb _, list_refcount _ _ _ hb⟩
    · have hv : t.view j = s.view j := by
        rw [view, view, hnode j hj, hblock _ (h.used j h0) hs, hbs, his]
      rw [hv]
      exact ⟨fun _ _ => rfl, rfl⟩

/-- What a copy with new contents is. -/
theorem copied_setArea_node (hj : j ≠ i) : (((s.copied i b).setArea b a).node j) = s.node j := by
  simp [copied, setArea, setBlock, setFileAcl, setNode, setUsed, hj]

theorem copied_setArea_fileAcl : (((s.copied i b).setArea b a).node i).fileAcl = b := by
  simp [copied, setArea, setBlock, setFileAcl, setNode]

theorem copied_setArea_block : ((s.copied i b).setArea b a).block b = ⟨a, 1⟩ := by
  simp [copied, setArea, setBlock, setFileAcl, setNode]

theorem copied_setArea_old (h : (s.node i).fileAcl ≠ b) :
    ((s.copied i b).setArea b a).block (s.node i).fileAcl =
      { s.block (s.node i).fileAcl with refcount := (s.block (s.node i).fileAcl).refcount - 1 } := by
  simp [copied, setArea, setBlock, setFileAcl, setNode, h]

theorem copied_setArea_other {c : ℕ} (hb : c ≠ b) (hc : c ≠ (s.node i).fileAcl) :
    ((s.copied i b).setArea b a).block c = s.block c := by
  simp [copied, setArea, setBlock, setFileAcl, setNode, setUsed, hb, hc]

theorem copied_setArea_used :
    ((s.copied i b).setArea b a).used = Function.update s.used b true := by
  simp [copied, setArea, setBlock, setFileAcl, setNode, setUsed]

theorem CopyOnWrite.copied (h : Shares s i) (hb : b ≠ 0) (hu : s.used b = false) (a : Area) :
    CopyOnWrite s i ((s.copied i b).setArea b a) := by
  have hne : ∀ c, s.used c = true → c ≠ b := by
    rintro c hc rfl
    rw [hu] at hc
    cases hc
  have hacl := hne _ (h.used i h.fileAcl)
  refine .left h (fun j hj => copied_setArea_node hj)
    (fun c hc => copied_setArea_other (hne c hc)) (fun c hc => ?_) rfl rfl ?_ (.inr ⟨?_, ?_, fun j hj => ?_⟩)
    (copied_setArea_old hacl)
  · rw [copied_setArea_used, Function.update_of_ne (hne c hc)]
    exact hc
  · rw [copied_setArea_fileAcl]
    exact hacl.symm
  · rw [copied_setArea_used, copied_setArea_fileAcl, Function.update_self]
  · rw [copied_setArea_fileAcl, copied_setArea_block]
  · rw [copied_setArea_node hj, copied_setArea_fileAcl]
    by_cases h0 : (s.node j).fileAcl = 0
    · rw [h0]
      exact hb.symm
    · exact hne _ (h.used j h0)

theorem CopyOnWrite.dropped (h : Shares s i) (hb : b ≠ 0) (hu : s.used b = false) (a : Area) :
    CopyOnWrite s i (((s.copied i b).setArea b a).tryFreeBlock i) := by
  have hne : ∀ c, s.used c = true → c ≠ b := by
    rintro c hc rfl
    rw [hu] at hc
    cases hc
  have hacl := hne _ (h.used i h.fileAcl)
  have htry : ((s.copied i b).setArea b a).tryFreeBlock i
      = (((s.copied i b).setArea b a).setFileAcl i 0).setUsed b false := by
    rw [tryFreeBlock, copied_setArea_fileAcl, if_neg hb]
  have hnil : (((((s.copied i b).setArea b a).setFileAcl i 0).setUsed b false).node i).fileAcl = 0 := by
    simp [setFileAcl, setNode, setUsed]
  rw [htry]
  refine .left h (fun j hj => ?_) (fun c hc => copied_setArea_other (hne c hc)) (fun c hc => ?_) rfl rfl
    ?_ (.inl hnil) (copied_setArea_old hacl)
  · rw [← copied_setArea_node (s := s) (b := b) (a := a) hj]
    exact Function.update_of_ne hj _ _
  · have hkeep := copied_setArea_used (s := s) (i := i) (b := b) (a := a)
    change Function.update ((s.copied i b).setArea b a).used b false c = true
    rw [hkeep, Function.update_of_ne (hne c hc), Function.update_of_ne (hne c hc)]
    exact hc
  · rw [hnil]
    exact h.fileAcl.symm

/-- Before the operation, the area in the inode has changed. -/
theorem CopyOnWrite.trans_setIbody (h : CopyOnWrite (s.setIbody i a) i t) : CopyOnWrite s i t := by
  have hv : ∀ j, j ≠ i → (s.setIbody i a).view j = s.view j := by
    intro j hj
    simp [view, Store.setIbody, setNode, hj]
  have hacl : ((s.setIbody i a).node i).fileAcl = (s.node i).fileAcl := by
    simp [Store.setIbody, setNode]
  refine ⟨fun j hj => ?_, h.used, ?_⟩
  · rw [← hv j hj]
    exact h.others j hj
  · have hs := h.shared
    rw [hacl] at hs
    exact hs

theorem Shares.setIbody (h : Shares s i) : Shares (s.setIbody i a) i := by
  have hacl : ((s.setIbody i a).node i).fileAcl = (s.node i).fileAcl := by
    simp [Store.setIbody, setNode]
  refine ⟨hacl ▸ h.fileAcl, hacl ▸ h.refcount, fun j hj => ?_⟩
  by_cases hji : j = i
  · subst hji
    rw [hacl]
    exact h.used j h.fileAcl
  · have hnode : (s.setIbody i a).node j = s.node j := Function.update_of_ne hji _ _
    rw [hnode] at hj ⊢
    exact h.used j hj

/-- The operation has failed, and the area in the inode may have changed. -/
def Failed (s : Store) (i : ℕ) (r : Option (Except Errno Unit × Store)) : Prop :=
  ∃ e t, r = some (.error e, t) ∧ (t = s ∨ ∃ a, t = s.setIbody i a)

theorem Failed.keeps {r : Option (Except Errno Unit × Store)} (h : Failed s i r) :
    ∃ e t, r = some (.error e, t) ∧ CopyOnWrite s i t := by
  obtain ⟨e, t, rfl, rfl | ⟨a, rfl⟩⟩ := h
  · exact ⟨e, _, rfl, .refl⟩
  · exact ⟨e, _, rfl, .setIbody⟩

/-! ### Setting an attribute -/

section Set

variable {e : Errno} {al : Bool}

theorem blockChange_fails (hc : s.copyNewBlock i choice = .error e) :
    s.blockChange i key value choice = some (.error e, s) := by rw [blockChange, hc]

/-- The block that has been released is read. -/
theorem blockChange_none (hc : s.copyNewBlock i choice = .ok (t, true)) :
    s.blockChange i key value choice = none := by rw [blockChange, hc]

theorem blockSet_insert (h : Shares s i) :
    s.blockSet i key value false choice = s.blockChange i key value choice := by
  rw [blockSet, if_pos h.fileAcl, blockUpdate, if_neg fun hc => by cases hc.2]

theorem blockSet_replace (h : Shares s i) (hb : (s.view i).blockReady) :
    s.blockSet i key value true choice =
      match findEntry key (s.block (s.node i).fileAcl).area.entries with
      | none => some (.error .ENODATA, s)
      | some _ => s.blockChange i key value choice := by
  rw [blockSet, if_pos h.fileAcl, blockUpdate, if_pos ⟨h.refcount, rfl⟩, hb.find (view_block h.fileAcl)]
  cases findEntry key (s.block (s.node i).fileAcl).area.entries with
  | none => rfl
  | some f => rfl

variable {found : Search}

theorem tryInsert_takes {area : Area} (ht : (s.view i).inodeInsert found key value = .ok area)
    (blockFound : Bool) : s.tryInsert i found key value choice blockFound =
      if blockFound then (s.setIbody i area).blockRemove i choice
      else some (.ok (), s.setIbody i area) := by
  unfold Inode.inodeInsert at ht
  rw [tryInsert]
  simp only
  rw [ht]

theorem tryInsert_refuses (ht : (s.view i).inodeInsert found key value = .error .ENOSPC) :
    s.tryInsert i found key value choice true = some (.error .ENOSPC, s) := by
  unfold Inode.inodeInsert at ht
  rw [tryInsert]
  simp only
  rw [ht]
  rfl

/-- An entry in the inode that does not fit any more goes to the block. -/
theorem tryInsert_moves (h : Shares s i) (ht : (s.view i).inodeInsert found key value = .error .ENOSPC) :
    s.tryInsert i found key value choice false =
      match s.blockChange i key value choice with
      | none => none
      | some (ret, s) =>
        match setEntry (s.view i).ibodyLayout (s.view i).ibody key none found with
        | .error _ => some (ret, s)
        | .ok area => some (ret, s.setIbody i area) := by
  unfold Inode.inodeInsert at ht
  rw [tryInsert]
  simp only
  rw [ht]
  simp only [Bool.false_eq_true, if_false]
  rewrite [blockSet_insert h]
  rfl

theorem tryInsert_moves_fails (h : Shares s i)
    (ht : (s.view i).inodeInsert found key value = .error .ENOSPC)
    (hc : s.copyNewBlock i choice = .error e) :
    Failed s i (s.tryInsert i found key value choice false) := by
  rw [tryInsert_moves h ht, blockChange_fails hc]
  simp only
  cases setEntry (s.view i).ibodyLayout (s.view i).ibody key none found with
  | error e' => exact ⟨e, s, rfl, .inl rfl⟩
  | ok area => exact ⟨e, _, rfl, .inr ⟨area, rfl⟩⟩

theorem copyNewBlock_setIbody_error (hn : 1 < (s.block (s.node i).fileAcl).refcount)
    (hc : s.copyNewBlock i choice = .error e) :
    (s.setIbody i a).copyNewBlock i choice = .error e := by
  have hacl : ((s.setIbody i a).node i).fileAcl = (s.node i).fileAcl := by
    simp [setIbody, setNode]
  have hn' : 1 < ((s.setIbody i a).block ((s.setIbody i a).node i).fileAcl).refcount := hacl ▸ hn
  obtain ⟨e₁, he, hc₁⟩ | ⟨b, -, -, he, hc₁⟩ := @copyNewBlock_shared s i choice hn
  · obtain rfl : e₁ = e := Except.error.inj (hc₁.symm.trans hc)
    obtain ⟨e₂, he₂, hc₂⟩ | ⟨b, -, -, he₂, -⟩ := @copyNewBlock_shared (s.setIbody i a) i choice hn'
    · rw [allocError_setIbody, he] at he₂
      rw [hc₂, Option.some.inj he₂]
    · rw [allocError_setIbody, he] at he₂
      cases he₂
  · rw [hc₁] at hc
    cases hc

theorem blockRemove_fails (h : Shares s i) (hc : s.copyNewBlock i choice = .error e) :
    s.blockRemove i choice = some (.error e, s) := by
  rw [blockRemove, if_neg h.fileAcl, hc]

/-- A block without entries can be left. -/
theorem blockRemove_copied (h : Shares s i) (hc : s.copyNewBlock i choice = .ok (s.copied i b, true)) :
    s.blockRemove i choice =
      if (s.block (s.node i).fileAcl).area.entries = [] then some (.ok (), s.copied i b) else none := by
  rw [blockRemove, if_neg h.fileAcl, hc]
  simp only [copied_fileAcl]
  have hb : (s.copied i b).block b = { s.block (s.node i).fileAcl with refcount := 1 } := by
    simp [copied, setFileAcl, setNode, setBlock]
  rw [hb]

/-- The attribute is not in the inode, the block is not copied. -/
theorem tryInsert_absent_fails (h : Shares s i) (hc : s.copyNewBlock i choice = .error e)
    (hins : ∀ e', (s.view i).inodeInsert found key value = .error e' → e' = .ENOSPC) :
    Failed s i (s.tryInsert i found key value choice true) := by
  cases ht : (s.view i).inodeInsert found key value with
  | error e' =>
    obtain rfl := hins e' ht
    exact ⟨_, _, tryInsert_refuses ht, .inl rfl⟩
  | ok area =>
    rw [tryInsert_takes ht, if_pos rfl,
      blockRemove_fails h.setIbody (copyNewBlock_setIbody_error h.refcount hc)]
    exact ⟨_, _, rfl, .inr ⟨area, rfl⟩⟩

/-- What is searched for in the inode. -/
theorem find_of_inInode (hr : (s.view i).ibodyReady) (hin : (s.view i).inInode key) :
    ∃ f, (s.view i).ibodyFindEntry key = .ok (some f) ∧
      findEntry key (s.view i).ibody.entries = some f := by
  obtain ⟨h0, hne⟩ := hin
  obtain ⟨f, hf⟩ := Option.ne_none_iff_exists'.mp hne
  refine ⟨f, ?_, hf⟩
  rw [hr.find, (hr.area h0).1]
  exact congrArg Except.ok hf

theorem find_of_not_inInode (hr : (s.view i).ibodyReady) (hin : ¬(s.view i).inInode key) :
    (s.view i).ibodyFindEntry key = .ok none ∧
      ((s.view i).extraIsize ≠ 0 → findEntry key (s.view i).ibody.entries = none) := by
  have hnone : (s.view i).extraIsize ≠ 0 → findEntry key (s.view i).ibody.entries = none :=
    fun h0 => not_not.mp fun hne => hin ⟨h0, hne⟩
  refine ⟨?_, hnone⟩
  rw [hr.find]
  by_cases h0 : (s.view i).extraIsize = 0
  · have ha : (s.view i).inodeArea = none := if_neg fun hc => hc.1 h0
    rw [ha]
  · rw [(hr.area h0).1]
    exact congrArg Except.ok (hnone h0)

/-- `ext4_xattr_set` where the area in the inode passes its check. -/
def setReady (s : Store) (i : ℕ) (key : Key) (value : List Byte) (choice : Except Errno ℕ) :
    Option (Except Errno Unit × Store) :=
  match (s.view i).ibodyFindEntry key with
  | .error _ => none
  | .ok found => s.setFound i found key value choice

/-- The attribute is in the inode, and fits there. -/
theorem setReady_takes (hr : (s.view i).ibodyReady) (hin : (s.view i).inInode key)
    (ht : (s.view i).inodeTakes key value) : ∃ area,
      s.setReady i key value choice = some (.ok (), s.setIbody i area) ∧
      setEntry (s.view i).ibodyLayout (s.view i).ibody key (some value)
        (findEntry key (s.view i).ibody.entries) = .ok area := by
  obtain ⟨f, hf, hfe⟩ := find_of_inInode hr hin
  obtain ⟨area, hins, harea⟩ := Inode.inodeInsert_ok ht
  refine ⟨area, ?_, harea⟩
  rw [hfe] at hins
  rw [setReady, hf]
  simp only
  rw [setFound, if_neg fun hc => (by cases hc.1), tryInsert_takes hins, if_neg (by simp)]

/-- The attribute is in the inode, and does not fit there any more. -/
theorem setReady_moves (h : Shares s i) (hr : (s.view i).ibodyReady) (hin : (s.view i).inInode key)
    (ht : ¬(s.view i).inodeTakes key value) :
    (∀ e, s.copyNewBlock i choice = .error e → Failed s i (s.setReady i key value choice)) ∧
    (∀ t, s.copyNewBlock i choice = .ok (t, true) → s.setReady i key value choice = none) := by
  obtain ⟨f, hf, hfe⟩ := find_of_inInode hr hin
  have hins : (s.view i).inodeInsert (some f) key value = .error .ENOSPC :=
    Inode.inodeInsert_error ht fun _ => hfe.symm
  rw [setReady, hf]
  simp only
  rw [setFound, if_neg fun hc => (by cases hc.1)]
  refine ⟨fun e hc => tryInsert_moves_fails h hins hc, fun t hc => ?_⟩
  rw [tryInsert_moves h hins, blockChange_none hc]

/-- The attribute is in the shared block. -/
theorem setReady_found (h : Shares s i) (hr : (s.view i).ibodyReady) (hb : (s.view i).blockReady)
    (hin : ¬(s.view i).inInode key)
    (hfound : findEntry key (s.block (s.node i).fileAcl).area.entries ≠ none) :
    (∀ e, s.copyNewBlock i choice = .error e → Failed s i (s.setReady i key value choice)) ∧
    (∀ t, s.copyNewBlock i choice = .ok (t, true) → s.setReady i key value choice = none) := by
  obtain ⟨f, hf⟩ := Option.ne_none_iff_exists'.mp hfound
  obtain ⟨hfi, hnone⟩ := find_of_not_inInode hr hin
  rw [setReady, hfi]
  simp only
  rw [setFound, if_pos ⟨rfl, h.fileAcl⟩, blockSet_replace h hb, hf]
  simp only
  constructor
  · intro e hc
    have hins : ∀ e', (s.view i).inodeInsert none key value = .error e' → e' = .ENOSPC := by
      intro e' he
      by_cases ht : (s.view i).inodeTakes key value
      · obtain ⟨area, hok, -⟩ := Inode.inodeInsert_ok ht
        rw [hnone ht.1, he] at hok
        cases hok
      · rw [Inode.inodeInsert_error ht fun h0 => (hnone h0).symm] at he
        exact (Except.error.inj he).symm
    rw [blockChange_fails hc]
    cases e with
    | ENOSPC => exact tryInsert_absent_fails h hc hins
    | ENODATA => exact tryInsert_absent_fails h hc hins
    | _ => exact ⟨_, _, rfl, .inl rfl⟩
  · intro t hc
    rw [blockChange_none hc]

/-- The attribute is nowhere. -/
theorem setReady_absent (h : Shares s i) (hr : (s.view i).ibodyReady) (hb : (s.view i).blockReady)
    (hin : ¬(s.view i).inInode key)
    (hfound : findEntry key (s.block (s.node i).fileAcl).area.entries = none) :
    s.setReady i key value choice = s.tryInsert i none key value choice true := by
  rw [setReady, (find_of_not_inInode hr hin).1]
  simp only
  rw [setFound, if_pos ⟨rfl, h.fileAcl⟩, blockSet_replace h hb, hfound]

theorem setReady_absent_refused (h : Shares s i) (hr : (s.view i).ibodyReady)
    (hb : (s.view i).blockReady) (hin : ¬(s.view i).inInode key)
    (hfound : findEntry key (s.block (s.node i).fileAcl).area.entries = none)
    (ht : ¬(s.view i).inodeTakes key value) : Failed s i (s.setReady i key value choice) := by
  have hnone := (find_of_not_inInode hr hin).2
  rw [setReady_absent h hr hb hin hfound,
    tryInsert_refuses (Inode.inodeInsert_error ht fun h0 => (hnone h0).symm)]
  exact ⟨_, _, rfl, .inl rfl⟩

theorem setReady_absent_takes (h : Shares s i) (hr : (s.view i).ibodyReady)
    (hb : (s.view i).blockReady) (hin : ¬(s.view i).inInode key)
    (hfound : findEntry key (s.block (s.node i).fileAcl).area.entries = none)
    (ht : (s.view i).inodeTakes key value) : ∃ area,
      s.setReady i key value choice = (s.setIbody i area).blockRemove i choice ∧
      setEntry (s.view i).ibodyLayout (s.view i).ibody key (some value)
        (findEntry key (s.view i).ibody.entries) = .ok area := by
  have hnone := (find_of_not_inInode hr hin).2
  obtain ⟨area, hins, harea⟩ := Inode.inodeInsert_ok ht
  refine ⟨area, ?_, harea⟩
  rw [hnone ht.1] at hins
  rw [setReady_absent h hr hb hin hfound, tryInsert_takes hins, if_pos rfl]

/-- The inode sets the attribute in its own area. -/
theorem lookup_setIbody {area : Area} (hinv : (s.view i).Inv) (hr : (s.view i).ibodyReady)
    (hlen : key.name.length < 256) (h0 : (s.view i).extraIsize ≠ 0)
    (hnone : Inode.areaLookup (s.view i).blockArea key = none)
    (harea : setEntry (s.view i).ibodyLayout (s.view i).ibody key (some value)
      (findEntry key (s.view i).ibody.entries) = .ok area) :
    ((s.setIbody i area).view i).lookup = Function.update (s.view i).lookup key (some value) := by
  rw [view_setIbody]
  exact (Inode.set_inode hinv hr hlen h0 hnone harea).1

theorem blockArea_eq (h : Shares s i) :
    (s.view i).blockArea = some (s.block (s.node i).fileAcl).area := by
  rw [Inode.blockArea, view_block h.fileAcl]
  rfl

/-- A key in the inode has a name that its entry can hold, and is not in the
    block. -/
theorem inInode_key (hinv : (s.view i).Inv) (hr : (s.view i).ibodyReady)
    (hin : (s.view i).inInode key) :
    key.name.length < 256 ∧ Inode.areaLookup (s.view i).blockArea key = none := by
  obtain ⟨h0, hne⟩ := hin
  have ha := (hr.area h0).1
  constructor
  · obtain ⟨⟨pre, here, post⟩, hf⟩ := Option.ne_none_iff_exists'.mp hne
    obtain ⟨hes, hk, -⟩ := findEntry_some hf
    rw [← hk]
    exact (hinv.inodeArea _ ha).names here (by rw [hes]; simp)
  · refine (hinv.once key).resolve_left fun hl => hne ?_
    rw [ha] at hl
    exact lookup_eq_none.mp hl

/-- The view after a copy. -/
theorem lookup_copied (h : Shares s i) (hb : b ≠ 0) :
    ((s.copied i b).view i).lookup = (s.view i).lookup := by
  rw [view_copied hb]
  exact lookup_refcount _ _ _ (view_block h.fileAcl)

theorem copied_eq_setArea :
    s.copied i b = (s.copied i b).setArea b (s.block (s.node i).fileAcl).area := by
  have hb : (s.copied i b).block b = { s.block (s.node i).fileAcl with refcount := 1 } := by
    simp [copied, setFileAcl, setNode, setBlock]
  have hu : Function.update (s.copied i b).block b { s.block (s.node i).fileAcl with refcount := 1 }
      = (s.copied i b).block := by
    rw [← hb, Function.update_eq_self]
  rw [setArea, hb, setBlock]
  exact (congrArg (fun f => { s.copied i b with block := f }) hu).symm

/-- A name that is too long is cut, and not found again. -/
theorem setEntry_cut {L : Layout} {area area' : Area} (hlen : ¬key.name.length < 256)
    (hf : findEntry key area.entries = none)
    (hs : setEntry L area key (some value) none = .ok area') : findEntry key area'.entries = none := by
  have hcut : key.stored ≠ key := by
    intro h
    have hl := congrArg (fun k : Key => k.name.length) h
    simp only [Key.stored, List.length_take] at hl
    omega
  rw [setEntry] at hs
  split at hs
  · cases hs
  · obtain rfl := Except.ok.inj hs
    refine findEntry_none.mpr fun e he => ?_
    obtain he | he := List.mem_append.mp he
    · exact findEntry_none.mp hf e he
    · rw [List.mem_singleton.mp he]
      exact hcut

theorem lookup_nowhere {v : Inode} (hi : findEntry key v.ibody.entries = none)
    (hb : ∀ x, v.block = some x → findEntry key x.area.entries = none) : v.lookup key = none := by
  have hb' : Inode.areaLookup v.blockArea key = none := by
    rw [Inode.blockArea]
    cases hx : v.block with
    | none => rfl
    | some x => exact lookup_eq_none.mpr (hb x hx)
  rw [Inode.lookup, hb', Option.or_none, Inode.inodeArea]
  split
  · exact lookup_eq_none.mpr hi
  · rfl

end Set

/-! ### Every operation -/

/-- No block is free. -/
theorem copyNewBlock_full (h : Shares s i) (hfull : Full s.used) :
    ∃ e, s.copyNewBlock i choice = .error e := by
  obtain ⟨e, -, hc⟩ | ⟨b, hb, hu, -, -⟩ := @copyNewBlock_shared s i choice h.refcount
  · exact ⟨e, hc⟩
  · rw [hfull b hb] at hu
    cases hu

/-- A free block is handed out for a copy. -/
theorem copyNewBlock_free (h : Shares s i) (hb : b ≠ 0) (hu : s.used b = false) :
    s.copyNewBlock i (.ok b) = .ok (s.copied i b, true) := by
  have halloc : s.allocBlock (.ok b) = .ok (b, s.setUsed b true) := by
    rw [allocBlock, if_neg]
    rw [hu]
    exact not_or.mpr ⟨hb, by simp⟩
  rw [copyNewBlock]
  simp only [if_pos h.refcount, halloc]
  rfl

theorem not_full {used : ℕ → Bool} (h : ¬Full used) : ∃ b, b ≠ 0 ∧ used b = false := by
  rw [Full] at h
  push Not at h
  obtain ⟨b, hb, hu⟩ := h
  exact ⟨b, hb, by simpa using hu⟩

/-- The area in the inode after the entry has been set. -/
theorem ibodyReady_setIbody {area : Area} (hinv : (s.view i).Inv) (hr : (s.view i).ibodyReady)
    (h0 : (s.view i).extraIsize ≠ 0)
    (harea : setEntry (s.view i).ibodyLayout (s.view i).ibody key (some value)
      (findEntry key (s.view i).ibody.entries) = .ok area) :
    ((s.setIbody i area).view i).ibodyReady ↔ Accepted (s.view i).ibodyLayout
      (s.view i).ibody.entries key (some value) (findEntry key (s.view i).ibody.entries) := by
  obtain ⟨ha, hv⟩ := hr.area h0
  rw [view_setIbody, ← setEntry_accepted_iff (hinv.inodeArea _ ha) hv harea]
  exact or_iff_right h0

/-- A copy of the block passes its check, too. -/
theorem blockReady_copied (h : Shares s i) (hb0 : b ≠ 0) (hb : (s.view i).blockReady) :
    ((s.copied i b).view i).blockReady := by
  rw [view_copied hb0]
  intro x hx
  obtain rfl := Option.some.inj hx
  have hv := hb _ (view_block h.fileAcl)
  exact hv

theorem ibodyReady_copied (hb0 : b ≠ 0) :
    ((s.copied i b).view i).ibodyReady ↔ (s.view i).ibodyReady := by
  rw [view_copied hb0]
  rfl

theorem setReady_correct (h : Shares s i) (hinv : (s.view i).Inv) (hr : (s.view i).ibodyReady)
    (hb : (s.view i).blockReady)
    (hk : KeepsSet s.used (s.view i) (s.block (s.node i).fileAcl) key value) : ∃ r t,
    s.setReady i key value choice = some (r, t) ∧ CopyOnWrite s i t ∧
      (r = .ok () → (t.view i).ibodyReady ∧ (t.view i).blockReady ∧
        (t.view i).lookup = Function.update (s.view i).lookup key (some value)) := by
  have hfailed : ∀ r, Failed s i r → ∃ ret t, r = some (ret, t) ∧ CopyOnWrite s i t ∧
      (ret = .ok () → (t.view i).ibodyReady ∧ (t.view i).blockReady ∧
        (t.view i).lookup = Function.update (s.view i).lookup key (some value)) := by
    intro r hf
    obtain ⟨e, t, rfl, ht⟩ := hf.keeps
    exact ⟨_, t, rfl, ht, fun he => by cases he⟩
  by_cases hin : (s.view i).inInode key
  · by_cases ht : (s.view i).inodeTakes key value
    · obtain ⟨area, hs, harea⟩ := @setReady_takes _ _ _ _ choice hr hin ht
      obtain ⟨hlen, hnone⟩ := inInode_key hinv hr hin
      refine ⟨_, _, hs, .setIbody, fun _ => ⟨?_, ?_, lookup_setIbody hinv hr hlen ht.1 hnone harea⟩⟩
      · exact (ibodyReady_setIbody hinv hr ht.1 harea).2 (hk.stays hin ht)
      · rw [view_setIbody]
        exact hb
    · obtain ⟨e, hc⟩ := @copyNewBlock_full _ _ choice h (hk.moves hin ht)
      exact hfailed _ ((setReady_moves h hr hin ht).1 e hc)
  · by_cases hfound : findEntry key (s.block (s.node i).fileAcl).area.entries = none
    · by_cases ht : (s.view i).inodeTakes key value
      · obtain ⟨area, hs, harea⟩ := @setReady_absent_takes _ _ _ _ choice h hr hb hin hfound ht
        have hnone : Inode.areaLookup (s.view i).blockArea key = none := by
          rw [blockArea_eq h]
          exact lookup_eq_none.mpr hfound
        rw [hs]
        obtain ⟨e, -, hc⟩ | ⟨b, hb0, hu, -, hc⟩ :=
          @copyNewBlock_shared (s.setIbody i area) i choice h.setIbody.refcount
        · rw [blockRemove_fails h.setIbody hc]
          exact hfailed _ ⟨e, _, rfl, .inr ⟨area, rfl⟩⟩
        · obtain hfull | hk := hk.absent hin
          · rw [show (s.setIbody i area).used b = s.used b from rfl, hfull b hb0] at hu
            cases hu
          · obtain ⟨hnil, hlen, haccepted⟩ := hk.2 ht
            have hnil' : ((s.setIbody i area).block ((s.setIbody i area).node i).fileAcl).area.entries
                = [] := by simpa [setIbody, setNode] using hnil
            rw [blockRemove_copied h.setIbody hc, if_pos hnil']
            refine ⟨_, _, rfl, ?_, fun _ => ⟨?_, ?_, ?_⟩⟩
            · rw [copied_eq_setArea]
              exact (CopyOnWrite.copied h.setIbody hb0 hu _).trans_setIbody
            · rw [ibodyReady_copied hb0]
              exact (ibodyReady_setIbody hinv hr ht.1 harea).2 haccepted
            · refine blockReady_copied h.setIbody hb0 ?_
              rw [view_setIbody]
              exact hb
            · rw [lookup_copied h.setIbody hb0]
              exact lookup_setIbody hinv hr hlen ht.1 hnone harea
      · exact hfailed _ (setReady_absent_refused h hr hb hin hfound ht)
    · obtain hfull | hk := hk.absent hin
      · obtain ⟨e, hc⟩ := @copyNewBlock_full _ _ choice h hfull
        exact hfailed _ ((setReady_found h hr hb hin hfound).1 e hc)
      · exact absurd hk.1 hfound

/-- The other way round: with a free block, the ways that are left out read a
    block that has been released, or look for a name that is not set, or leave
    an area that cannot be read. -/
theorem KeepsSet.of_correct (h : Shares s i) (hinv : (s.view i).Inv) (hr : (s.view i).ibodyReady)
    (hb : (s.view i).blockReady) (hall : ∀ choice, ∃ r t, s.setReady i key value choice = some (r, t) ∧
      (r = .ok () → (t.view i).ibodyReady ∧
        (t.view i).lookup = Function.update (s.view i).lookup key (some value))) :
    KeepsSet s.used (s.view i) (s.block (s.node i).fileAcl) key value where
  stays hin ht := by
    obtain ⟨r, t, hs, hok⟩ := hall (.ok 0)
    obtain ⟨area, hs', harea⟩ := @setReady_takes _ _ _ _ (.ok 0) hr hin ht
    obtain ⟨rfl, rfl⟩ := Prod.mk.inj (Option.some.inj (hs.symm.trans hs'))
    exact (ibodyReady_setIbody hinv hr ht.1 harea).1 (hok rfl).1
  moves hin ht := by
    by_contra hfull
    obtain ⟨b, hb0, hu⟩ := not_full hfull
    obtain ⟨r, t, hs, -⟩ := hall (.ok b)
    rw [(setReady_moves h hr hin ht).2 _ (copyNewBlock_free h hb0 hu)] at hs
    cases hs
  absent hin := by
    by_cases hfull : Full s.used
    · exact .inl hfull
    obtain ⟨b, hb0, hu⟩ := not_full hfull
    obtain ⟨r, t, hs, hok⟩ := hall (.ok b)
    by_cases hfound : findEntry key (s.block (s.node i).fileAcl).area.entries = none
    · refine .inr ⟨hfound, fun ht => ?_⟩
      obtain ⟨area, hs', harea⟩ := @setReady_absent_takes _ _ _ _ (.ok b) h hr hb hin hfound ht
      rw [hs', blockRemove_copied h.setIbody (copyNewBlock_free h.setIbody hb0 hu)] at hs
      by_cases hnil : ((s.setIbody i area).block ((s.setIbody i area).node i).fileAcl).area.entries = []
      · rw [if_pos hnil] at hs
        obtain ⟨rfl, rfl⟩ := Prod.mk.inj (Option.some.inj hs)
        obtain ⟨hready, hlook⟩ := hok rfl
        rw [ibodyReady_copied hb0] at hready
        refine ⟨by simpa [setIbody, setNode] using hnil, ?_,
          (ibodyReady_setIbody hinv hr ht.1 harea).1 hready⟩
        by_contra hlen
        have hl := congrFun hlook key
        have hnone := (find_of_not_inInode hr hin).2 ht.1
        rw [hnone] at harea
        rw [lookup_copied h.setIbody hb0, Function.update_self, view_setIbody,
          lookup_nowhere (setEntry_cut hlen hnone harea) ?_] at hl
        · cases hl
        · intro x hx
          obtain rfl := Option.some.inj ((view_block h.fileAcl).symm.trans hx)
          exact hfound
      · rw [if_neg hnil] at hs
        cases hs
    · rw [(setReady_found h hr hb hin hfound).2 _ (copyNewBlock_free h hb0 hu)] at hs
      cases hs

/-- The area in the inode is initialised if it was not. -/
def freshen (s : Store) (i : ℕ) : Store :=
  if (s.view i).ibody.header = true ∨ (s.view i).extraIsize = 0 then s
  else s.setIbody i (s.view i).ibodyInitialize.ibody

theorem view_freshen : (s.freshen i).view i = (s.view i).fresh := by
  rw [freshen, Inode.fresh, Inode.ibodyInitialize]
  by_cases hh : (s.view i).ibody.header = true
  · rw [if_pos (.inl hh), if_pos hh]
  · by_cases h0 : (s.view i).extraIsize = 0
    · rw [if_pos (.inr h0), if_neg hh, if_pos h0]
    · rw [if_neg (not_or.mpr ⟨hh, h0⟩), if_neg hh, if_neg h0, view_setIbody]

theorem freshen_fileAcl : ((s.freshen i).node i).fileAcl = (s.node i).fileAcl := by
  rw [freshen]
  split
  · rfl
  · simp [setIbody, setNode]

theorem freshen_block : (s.freshen i).block = s.block := by
  rw [freshen]
  split
  · rfl
  · rfl

theorem freshen_used : (s.freshen i).used = s.used := by
  rw [freshen]
  split
  · rfl
  · rfl

theorem Shares.freshen (h : Shares s i) : Shares (s.freshen i) i := by
  rw [Store.freshen]
  split
  · exact h
  · exact h.setIbody

theorem CopyOnWrite.of_freshen (h : CopyOnWrite (s.freshen i) i t) : CopyOnWrite s i t := by
  rw [freshen] at h
  split at h
  · exact h
  · exact h.trans_setIbody

theorem set_freshen (hr : (s.view i).fresh.ibodyReady) :
    s.set i key value choice = (s.freshen i).setReady i key value choice := by
  rw [setReady, view_freshen, freshen]
  by_cases hk : (s.view i).ibody.header = true ∨ (s.view i).extraIsize = 0
  · have hv : (s.view i).fresh = s.view i := by
      rw [← view_freshen, freshen, if_pos hk]
    rw [hv] at hr ⊢
    rw [if_pos hk]
    unfold set
    rw [hr.find key]
    simp only
    rw [hr.find key]
  · obtain ⟨hh, h0⟩ := not_or.mp hk
    have hfresh : (s.view i).fresh = (s.view i).ibodyInitialize := if_neg hh
    have hinvalid : (s.view i).ibodyFindEntry key = .error Errno.EIO := by
      rw [Inode.ibodyFindEntry, if_neg h0, if_neg]
      exact fun hv => hh (Inode.isValid_header hv)
    have hview : (s.setIbody i (s.view i).ibodyInitialize.ibody).view i = (s.view i).fresh := by
      rw [hfresh, view_setIbody, Inode.ibodyInitialize, if_neg h0]
    rw [if_neg hk]
    unfold set
    rw [hinvalid]
    dsimp only
    rewrite [hview]
    rfl

theorem keeps_set : s.Keeps i (.set key value) ↔ KeepsSet (s.freshen i).used ((s.freshen i).view i)
    ((s.freshen i).block ((s.freshen i).node i).fileAcl) key value := by
  rw [view_freshen, freshen_fileAcl, freshen_block, freshen_used]
  rfl

theorem fresh_ready (h : Shared s i) : (s.view i).fresh.blockReady := by
  intro x hx
  rw [Inode.fresh_block] at hx
  rw [Inode.blockLayout, Inode.fresh_sizes.blockSize]
  exact h.block x hx

/-- **`ext4_xattr_set`** on an inode with a shared block. -/
theorem set_correct_iff (h : Shared s i) :
    (∀ choice, ∃ r t, s.set i key value choice = some (r, t) ∧ CopyOnWrite s i t ∧
      Updated s i (.set key value) r t) ↔ s.Keeps i (.set key value) := by
  have hinv : ((s.freshen i).view i).Inv := by rw [view_freshen]; exact h.inv.fresh
  have hr : ((s.freshen i).view i).ibodyReady := by rw [view_freshen]; exact h.ibody
  have hb : ((s.freshen i).view i).blockReady := by rw [view_freshen]; exact fresh_ready h
  have hshares : Shares (s.freshen i) i := h.toShares.freshen
  have hlook : ((s.freshen i).view i).lookup = (s.view i).lookup := by
    rw [view_freshen, Inode.fresh_lookup]
  rw [keeps_set]
  constructor
  · intro hall
    refine .of_correct hshares hinv hr hb fun choice => ?_
    obtain ⟨r, t, hs, -, hup⟩ := hall choice
    rw [set_freshen h.ibody] at hs
    refine ⟨r, t, hs, fun hok => ?_⟩
    subst hok
    rw [hlook]
    obtain ⟨hready, -, hl⟩ := Inode.get_answer_iff.1 hup
    exact ⟨hready, hl⟩
  · intro hk choice
    obtain ⟨r, t, hs, hcow, hup⟩ := @setReady_correct _ _ _ _ choice hshares hinv hr hb hk
    refine ⟨r, t, by rw [set_freshen h.ibody, hs], hcow.of_freshen, ?_⟩
    cases r with
    | error e => trivial
    | ok u =>
      have hl := hup rfl
      rw [hlook] at hl
      exact Inode.get_answer_iff.2 hl

/-! ### Removing an attribute -/

theorem remove_header (hh : (s.view i).ibody.header = false) (h0 : (s.view i).extraIsize ≠ 0) :
    s.remove i key choice = some (.error Errno.EIO, s) := by
  have hinvalid : (s.view i).ibodyFindEntry key = .error Errno.EIO := by
    rw [Inode.ibodyFindEntry, if_neg h0, if_neg]
    intro hv
    rw [Inode.isValid_header hv] at hh
    cases hh
  rw [remove, hinvalid]

theorem remove_absent (h : Shared s i) (hr : (s.view i).ibodyReady) (hin : ¬(s.view i).inInode key)
    (hf : findEntry key (s.block (s.node i).fileAcl).area.entries = none) :
    s.remove i key choice = some (.error .ENODATA, s) := by
  rw [remove, (find_of_not_inInode hr hin).1]
  simp only
  rw [if_neg h.fileAcl, h.block.find (view_block h.fileAcl) key, hf]

variable {f : List Entry × Entry × List Entry}

theorem remove_fails {e : Errno} (h : Shared s i) (hr : (s.view i).ibodyReady)
    (hin : ¬(s.view i).inInode key)
    (hf : findEntry key (s.block (s.node i).fileAcl).area.entries = some f)
    (hc : s.copyNewBlock i choice = .error e) : s.remove i key choice = some (.error e, s) := by
  rw [remove, (find_of_not_inInode hr hin).1]
  simp only
  rw [if_neg h.fileAcl, h.block.find (view_block h.fileAcl) key, hf]
  simp only
  rw [hc]

/-- The entry is removed from a copy, which is dropped when it was the last one. -/
theorem remove_copied (h : Shared s i) (hr : (s.view i).ibodyReady) (hin : ¬(s.view i).inInode key)
    (hf : findEntry key (s.block (s.node i).fileAcl).area.entries = some f) (hb0 : b ≠ 0)
    (hu : s.used b = false) (hc : s.copyNewBlock i choice = .ok (s.copied i b, true)) :
    ∃ t, s.remove i key choice = some (.ok (), t) ∧ CopyOnWrite s i t ∧ (t.view i).ibodyReady ∧
      ((t.view i).blockReady ↔ Accepted (s.view i).blockLayout
        (s.block (s.node i).fileAcl).area.entries key none (some f)) := by
  have hfind := h.block.find (view_block h.fileAcl) key
  have hb : (s.copied i b).block b = { s.block (s.node i).fileAcl with refcount := 1 } := by
    simp [copied, setFileAcl, setNode, setBlock]
  have hfind' : ((s.copied i b).view i).blockFindEntry key (s.block (s.node i).fileAcl).area
      = .ok (findEntry key (s.block (s.node i).fileAcl).area.entries) := hfind
  have hwf := h.inv.blockArea _ (blockArea_eq h.toShares)
  have hv := h.block _ (view_block h.fileAcl)
  obtain ⟨a', ha', hwf', -⟩ := @setEntry_erase _ _ key hwf hv
  have haccepted := setEntry_accepted_iff hwf hv ha'
  rw [hf] at hfind hfind' ha' haccepted
  have ha'' : setEntry ((s.copied i b).view i).blockLayout (s.block (s.node i).fileAcl).area key none
      (some f) = .ok a' := ha'
  have hview : ((s.copied i b).setArea b a').view i =
      { s.view i with block := some ⟨a', 1⟩ } := by
    have := view_setArea (s := s.copied i b) (i := i) a' (by rwa [copied_fileAcl])
    rw [copied_fileAcl, hb, view_copied hb0] at this
    exact this
  rw [remove, (find_of_not_inInode hr hin).1]
  simp only
  rw [if_neg h.fileAcl, hfind]
  simp only
  rw [hc]
  simp only
  rw [copied_fileAcl, hb]
  simp only
  rw [hfind']
  simp only
  rw [ha'']
  simp only
  split
  · rename_i hnil
    have hview' := view_tryFreeBlock (s := (s.copied i b).setArea b a') (i := i)
    rw [hview] at hview'
    refine ⟨_, rfl, .dropped h.toShares hb0 hu a', ?_, ?_⟩
    · rw [hview']
      exact hr
    · rw [hview']
      refine iff_of_true (fun x hx => by cases hx) (haccepted.1 (isValid_iff.2 ⟨hwf'.header, ?_, ?_⟩))
      · exact hwf'.table
      · rw [hnil]
        exact fun e he => by cases he
  · refine ⟨_, rfl, .copied h.toShares hb0 hu a', ?_, ?_⟩
    · rw [hview]
      exact hr
    · rw [hview, ← haccepted]
      refine ⟨fun hready => hready _ rfl, fun hvalid x hx => ?_⟩
      obtain rfl := Option.some.inj hx
      exact hvalid

/-- The attributes after the removal. -/
theorem lookup_remove (h : Shared s i) (hr : (s.view i).ibodyReady) (hin : ¬(s.view i).inInode key)
    (hs : s.remove i key choice = some (.ok (), t)) : (s.view i).lookup key ≠ none ∧
      (t.view i).lookup = Function.update (s.view i).lookup key none := by
  obtain ⟨r, v, hs', hc, -⟩ := Inode.remove_correct h.inv hr h.block hin
    (view_block h.fileAcl) (s.allocError choice)
  rw [← view_remove, hs] at hs'
  obtain ⟨rfl, rfl⟩ := Prod.mk.inj (Option.some.inj hs')
  exact hc

/-- The area in the inode, if it can be searched. -/
theorem ready_of_header (h : Shared s i)
    (hh : (s.view i).ibody.header = true ∨ (s.view i).extraIsize = 0) : (s.view i).ibodyReady := by
  have hv : (s.view i).fresh = s.view i := by rw [← view_freshen, freshen, if_pos hh]
  exact hv ▸ h.ibody

/-- **`ext4_xattr_remove`** on an inode with a shared block. -/
theorem remove_correct_iff (h : Shared s i) :
    (∀ choice, ∃ r t, s.remove i key choice = some (r, t) ∧ CopyOnWrite s i t ∧
      Updated s i (.remove key) r t) ↔ s.Keeps i (.remove key) := by
  constructor
  · intro hall
    have hin : ¬((s.view i).ibody.header = true ∧ (s.view i).inInode key) := by
      rintro ⟨hh, hin⟩
      obtain ⟨r, t, hs, -, -⟩ := hall (.error .ENOSPC)
      obtain ⟨f, hf, -⟩ := find_of_inInode (ready_of_header h (.inl hh)) hin
      rw [remove, hf] at hs
      cases hs
    refine ⟨hin, fun hh => ?_⟩
    by_cases hfull : Full s.used
    · exact .inl hfull
    obtain ⟨b, hb0, hu⟩ := not_full hfull
    have hr := ready_of_header h hh
    have hin' : ¬(s.view i).inInode key := fun hi => hin ⟨hh.resolve_right hi.1, hi⟩
    refine .inr ?_
    cases hf : findEntry key (s.block (s.node i).fileAcl).area.entries with
    | none => trivial
    | some f =>
      obtain ⟨r, t, hs, -, hup⟩ := hall (.ok b)
      obtain ⟨t', hs', -, -, hiff⟩ :=
        remove_copied h hr hin' hf hb0 hu (copyNewBlock_free h.toShares hb0 hu)
      obtain ⟨rfl, rfl⟩ := Prod.mk.inj (Option.some.inj (hs.symm.trans hs'))
      exact hiff.1 (Inode.get_answer_iff.1 hup.2).2.1
  · rintro ⟨hin, haccepted⟩ choice
    by_cases hh : (s.view i).ibody.header = true ∨ (s.view i).extraIsize = 0
    · have hr := ready_of_header h hh
      have hin' : ¬(s.view i).inInode key := fun hi => hin ⟨hh.resolve_right hi.1, hi⟩
      cases hf : findEntry key (s.block (s.node i).fileAcl).area.entries with
      | none => exact ⟨_, s, remove_absent h hr hin' hf, .refl, trivial⟩
      | some f =>
        obtain ⟨e, -, hc⟩ | ⟨b, hb0, hu, -, hc⟩ := @copyNewBlock_shared s i choice h.refcount
        · exact ⟨_, s, remove_fails h hr hin' hf hc, .refl, trivial⟩
        · obtain ⟨t, hs, hcow, hready, hiff⟩ := remove_copied h hr hin' hf hb0 hu hc
          obtain hfull | hacc := haccepted hh
          · rw [hfull b hb0] at hu
            cases hu
          · rw [hf] at hacc
            obtain ⟨hsome, hlook⟩ := lookup_remove h hr hin' hs
            exact ⟨_, t, hs, hcow, hsome, Inode.get_answer_iff.2 ⟨hready, hiff.2 hacc, hlook⟩⟩
    · obtain ⟨hh, h0⟩ := not_or.mp hh
      exact ⟨_, s, remove_header (by simpa using hh) h0, .refl, trivial⟩

/-! ### The theorem -/

/-- **Copy on write**: the operations that leave the other inodes alone, count
    the block down and give the inode a block of its own are those in `Keeps`.
    The release of an inode never does. -/
theorem share_correct_iff (h : Shared s i) (c : Call) :
    (∀ o, ∃ r t, s.call i o c = some (r, t) ∧ CopyOnWrite s i t ∧ Updated s i c r t) ↔ s.Keeps i c := by
  cases c with
  | set key value =>
    rw [← set_correct_iff h]
    exact ⟨fun hall choice => hall ⟨choice, .ok (), .ok (), .ok ()⟩, fun hall o => hall o.choice⟩
  | remove key =>
    rw [← remove_correct_iff h]
    exact ⟨fun hall choice => hall ⟨choice, .ok (), .ok (), .ok ()⟩, fun hall o => hall o.choice⟩
  | free =>
    refine ⟨fun hall => ?_, False.elim⟩
    obtain ⟨r, t, hs, hcow, -⟩ := hall ⟨.ok 0, .ok (), .ok (), .ok ()⟩
    have hfree : s.freeInode i (.ok ()) (.ok ()) (.ok ())
        = (.ok (), (s.setUsed (s.node i).fileAcl false).setFileAcl i 0) := if_neg h.fileAcl
    obtain rfl : (s.setUsed (s.node i).fileAcl false).setFileAcl i 0 = t := by
      have := Option.some.inj hs
      rw [hfree] at this
      exact (Prod.mk.inj this).2
    have hused := hcow.used _ (h.used i h.fileAcl)
    have hf : ((s.setUsed (s.node i).fileAcl false).setFileAcl i 0).used (s.node i).fileAcl = false :=
      Function.update_self _ _ _
    rw [hf] at hused
    cases hused

end Share

/-- Inodes 11 and 12 share block 40 with one attribute. -/
def twoSharing : Store where
  blockSize := 1024
  inodeSize := 256
  node i := if i = 11 ∨ i = 12 then ⟨32, ⟨true, [], fun _ => 0⟩, 40⟩
    else ⟨0, ⟨false, [], fun _ => 0⟩, 0⟩
  block b := if b = 40 then ⟨⟨true, [⟨Inode.userA, 1020, 1⟩], Mem.write (fun _ => 0) 1020 [7]⟩, 2⟩
    else Inode.newBlock
  used b := b == 40

theorem twoSharing_shared : Shared twoSharing 11 where
  fileAcl := by decide
  refcount := by decide
  used j hj := by
    by_cases h : j = 11 ∨ j = 12
    · simp [twoSharing, h]
    · simp [twoSharing, h] at hj
  inv := by
    have hib : (twoSharing.view 11).inodeArea = some ⟨true, [], fun _ => 0⟩ := rfl
    have hbl : (twoSharing.view 11).blockArea
        = some ⟨true, [⟨Inode.userA, 1020, 1⟩], Mem.write (fun _ => 0) 1020 [7]⟩ := rfl
    refine ⟨fun _ => by decide, by decide, fun a ha => ?_, fun a ha => ?_, fun k => .inl ?_⟩
    · obtain rfl := Option.some.inj (hib.symm.trans ha)
      exact wf_nil (by decide) _
    · obtain rfl := Option.some.inj (hbl.symm.trans ha)
      exact ⟨rfl, by decide, by decide, by decide, by decide, List.pairwise_singleton _ _⟩
    · rw [hib]
      rfl
  ibody := .inr (by decide)
  block b hb := by
    have hbl : (twoSharing.view 11).block
        = some ⟨⟨true, [⟨Inode.userA, 1020, 1⟩], Mem.write (fun _ => 0) 1020 [7]⟩, 2⟩ := rfl
    obtain rfl := Option.some.inj (hbl.symm.trans hb)
    decide

theorem share_correct_twoSharing : Shared twoSharing 11 ∧
    ∀ o, ∃ r t, twoSharing.call 11 o (.remove Inode.userA) = some (r, t) ∧
      CopyOnWrite twoSharing 11 t ∧ Updated twoSharing 11 (.remove Inode.userA) r t :=
  ⟨twoSharing_shared, (share_correct_iff twoSharing_shared (.remove Inode.userA)).mpr
    ⟨fun h => h.2.2 (by decide), fun _ => .inr fun _ e he => by cases he⟩⟩

/-- The shared block holds an empty value, and one of four bytes. -/
def emptySharing : Store :=
  { twoSharing with
    block := Function.update twoSharing.block 40 ⟨⟨true, [⟨Inode.userA, 0, 0⟩,
      ⟨⟨1, [0x62], Nat.one_pos⟩, 1020, 4⟩], fun _ => 0⟩, 2⟩ }

/-- To set an attribute of the shared block, the code reads a block that it has
    released, and the release of inode 11 frees the block that inode 12 has.
    Where one attribute is empty and the other is removed, the block of inode 11
    cannot be read. -/
theorem share_broken : Shared twoSharing 11 ∧
    twoSharing.call 11 ⟨.ok 41, .ok (), .ok (), .ok ()⟩ (.set Inode.userA [8]) = none ∧
    (∃ t, twoSharing.call 11 ⟨.ok 41, .ok (), .ok (), .ok ()⟩ .free = some (.ok (), t) ∧
      (t.node 12).fileAcl = 40 ∧ (t.block 40).refcount = 2 ∧ t.used 40 = false ∧
      ¬CopyOnWrite twoSharing 11 t) ∧
    ∃ t, emptySharing.call 11 ⟨.ok 41, .ok (), .ok (), .ok ()⟩
        (.remove ⟨1, [0x62], Nat.one_pos⟩) = some (.ok (), t) ∧
      (emptySharing.view 11).get Inode.userA 0 = .ok ([], 0) ∧
      (t.view 11).get Inode.userA 0 = .error Errno.EIO :=
  ⟨twoSharing_shared, rfl,
    ⟨_, rfl, rfl, rfl, rfl, fun h => absurd (h.used 40 rfl) (by decide)⟩, _, rfl, rfl, rfl⟩

end Store

end Xattr

end Lwext4
