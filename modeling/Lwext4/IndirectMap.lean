/-
  The indirect block map of an inode (`ext4_fs.c`): twelve direct blocks and
  three trees of one, two and three levels.

  Three functions walk the trees, each with its own loop; `getLoop_eq`,
  `setLoop_spec` and `releaseLoop_spec` say where they end as nodes of
  `Lib.Radix`.

  Buffers of blocks are the blocks themselves.  The mount refuses block sizes
  above 64 KiB, so the numbers of the limits fit their types.
-/
import Lwext4.Basic
import Lwext4.Lib.Radix

namespace Lwext4

open Lib.Radix

/-! ## The inode -/

/-- `EXT4_INODE_DIRECT_BLOCK_COUNT`, where `EXT4_INODE_INDIRECT_BLOCK` begins. -/
def inodeDirectBlockCount : ℕ := 12

/-- An inode without extents: its size and `blocks`, the 32-bit numbers in
    every block of the device, and the blocks that are allocated. -/
structure IndInode where
  size : ℕ
  blocks : ℕ → ℕ
  dev : ℕ → ℕ → ℕ
  used : ℕ → Bool

/-- What the rest of the filesystem does during one call: for each level, how
    `ext4_trans_block_get` ends on the block of that level, what
    `ext4_fs_indirect_find_goal` and `ext4_balloc_alloc_block` make of a
    missing one, how `ext4_trans_block_get_noread` ends on it and whether
    `ext4_trans_set_block_dirty` marks it; and how `ext4_balloc_free_block`
    ends.  The allocator hands out blocks that are free. -/
structure IndEnv (used : ℕ → Bool) where
  read : ℕ → Except Errno Unit
  alloc : ℕ → Except Errno ℕ
  noread : ℕ → Except Errno Unit
  dirty : ℕ → Bool
  free : Except Errno Unit
  fresh : ∀ l b, alloc l = .ok b → b ≠ 0 ∧ used b = false
  distinct : ∀ l l' b, alloc l = .ok b → alloc l' = .ok b → l = l'

/-! ## `ext4_fs_init` -/

section Walk

variable (blocksId : ℕ)

/-- `inode_blocks_per_level`. -/
def inodeBlocksPerLevel : ℕ → ℕ
  | 0 => 1
  | i + 1 => inodeBlocksPerLevel i * blocksId

/-- `inode_block_limits`. -/
def inodeBlockLimits : ℕ → ℕ
  | 0 => inodeDirectBlockCount
  | i + 1 => inodeBlockLimits i + inodeBlocksPerLevel blocksId (i + 1)

/-- The level of indirection of a logical block, 0 if there is none. -/
def indLevel (iblock : ℕ) : ℕ :=
  if iblock < inodeBlockLimits blocksId 1 then 1
  else if iblock < inodeBlockLimits blocksId 2 then 2
  else if iblock < inodeBlockLimits blocksId 3 then 3
  else 0

/-- `ext4_inode_get_indirect_block`. -/
def IndInode.indirect (s : IndInode) (idx : ℕ) : ℕ := s.blocks (idx + inodeDirectBlockCount)

/-! ## The three walks -/

/-- The loop of `ext4_fs_get_inode_dblk_idx_internal`. -/
def getLoop (read : ℕ → Except Errno Unit) (s : IndInode) :
    (l currentBlock blkOff : ℕ) → Except Errno ℕ
  | 0, currentBlock, _ => .ok currentBlock
  | l + 1, currentBlock, blkOff =>
    match read (l + 1) with
    | .error rc => .error rc
    | .ok _ =>
      let next := s.dev currentBlock (blkOff / inodeBlocksPerLevel blocksId l)
      if next = 0 then .ok 0
      else getLoop read s l next (blkOff % inodeBlocksPerLevel blocksId l)

/-- `ext4_fs_get_inode_dblk_idx`. -/
def ext4FsGetInodeDblkIdx (read : ℕ → Except Errno Unit) (s : IndInode) (iblock : ℕ) :
    Except Errno ℕ :=
  if s.size = 0 then .ok 0
  else if iblock < inodeDirectBlockCount then .ok (s.blocks iblock)
  else
    let l := indLevel blocksId iblock
    if l = 0 then .error Errno.EIO
    else if s.indirect (l - 1) = 0 then .ok 0
    else getLoop blocksId read s l (s.indirect (l - 1)) (iblock - inodeBlockLimits blocksId (l - 1))

variable {used : ℕ → Bool} (env : IndEnv used)

namespace IndInode

/-- `ext4_balloc_alloc_block` has handed out a block. -/
def take (s : IndInode) (b : ℕ) : IndInode :=
  { s with used := Function.update s.used b true }

/-- `memset` of a new block, which is lost if its buffer is not marked dirty. -/
def clear (s : IndInode) (b : ℕ) (dirty : Bool) : IndInode :=
  if dirty then { s with dev := Function.update s.dev b fun _ => 0 } else s

/-- Store a number in a block. -/
def put (s : IndInode) (b off v : ℕ) : IndInode :=
  { s with dev := setEntry s.dev b off (u32 v) }

/-- `ext4_inode_set_indirect_block`. -/
def setIndirect (s : IndInode) (idx b : ℕ) : IndInode :=
  { s with blocks := Function.update s.blocks (idx + inodeDirectBlockCount) (u32 b) }

/-- `ext4_balloc_free_block`: how it ends, and the block if it was freed. -/
def freeBlock (s : IndInode) (free : Except Errno Unit) (b : ℕ) :
    Except Errno Unit × IndInode × List ℕ :=
  match free with
  | .error rc => (.error rc, s, [])
  | .ok _ => (.ok (), { s with used := Function.update s.used b false }, [b])

end IndInode

/-- The first part of `ext4_fs_set_inode_data_block_index` for level `l`: the
    top block, which is made if there is none, and the blocks freed. -/
def setTop (l : ℕ) (s : IndInode) : Except Errno ℕ × IndInode × List ℕ :=
  if s.indirect (l - 1) ≠ 0 then (.ok (s.indirect (l - 1)), s, [])
  else match env.alloc l with
    | .error rc => (.error rc, s, [])
    | .ok newBlk =>
      let s := (s.take newBlk).setIndirect (l - 1) newBlk
      match env.noread l with
      | .error rc => (.error rc, (s.freeBlock env.free newBlk).2)
      | .ok _ => (.ok newBlk, s.clear newBlk (env.dirty l), [])

/-- The loop of `ext4_fs_set_inode_data_block_index`. -/
def setLoop (fblock : ℕ) : (l currentBlock blkOff : ℕ) → IndInode → Except Errno Unit × IndInode
  | 0, _, _, s => (.ok (), s)
  | l + 1, currentBlock, blkOff, s =>
    match env.read (l + 1) with
    | .error rc => (.error rc, s)
    | .ok _ =>
      let off := blkOff / inodeBlocksPerLevel blocksId l
      let next := s.dev currentBlock off
      if l = 0 then (.ok (), s.put currentBlock off fblock)
      else if next ≠ 0 then setLoop fblock l next (blkOff % inodeBlocksPerLevel blocksId l) s
      else match env.alloc l with
        | .error rc => (.error rc, s)
        | .ok newBlk =>
          match env.noread l with
          | .error rc => (.error rc, s.take newBlk)
          | .ok _ =>
            setLoop fblock l newBlk (blkOff % inodeBlocksPerLevel blocksId l)
              (((s.take newBlk).clear newBlk (env.dirty l)).put currentBlock off newBlk)

/-- `ext4_fs_set_inode_data_block_index`: how it ends, the inode after it, and
    the blocks it freed. -/
def ext4FsSetInodeDataBlockIndex (iblock fblock : ℕ) (s : IndInode) :
    Except Errno Unit × IndInode × List ℕ :=
  if iblock < inodeDirectBlockCount then
    (.ok (), { s with blocks := Function.update s.blocks iblock (u32 fblock) }, [])
  else
    let l := indLevel blocksId iblock
    if l = 0 then (.error Errno.EIO, s, [])
    else match setTop env l s with
      | (.error rc, s, freed) => (.error rc, s, freed)
      | (.ok currentBlock, s, freed) =>
        let r := setLoop blocksId env fblock l currentBlock
          (iblock - inodeBlockLimits blocksId (l - 1)) s
        (r.1, r.2, freed)

/-- The loop of `ext4_fs_release_inode_block`: the block that was mapped, 0 for
    a hole. -/
def releaseLoop : (l currentBlock blkOff : ℕ) → IndInode → Except Errno ℕ × IndInode
  | 0, currentBlock, _, s => (.ok currentBlock, s)
  | l + 1, currentBlock, blkOff, s =>
    if currentBlock = 0 then (.ok 0, s)
    else match env.read (l + 1) with
      | .error rc => (.error rc, s)
      | .ok _ =>
        let off := blkOff / inodeBlocksPerLevel blocksId l
        let next := s.dev currentBlock off
        let s := if l = 0 then s.put currentBlock off 0 else s
        releaseLoop l next (blkOff % inodeBlocksPerLevel blocksId l) s

/-- `ext4_fs_release_inode_block`. -/
def ext4FsReleaseInodeBlock (iblock : ℕ) (s : IndInode) :
    Except Errno Unit × IndInode × List ℕ :=
  if iblock < inodeDirectBlockCount then
    let fblock := s.blocks iblock
    if fblock = 0 then (.ok (), s, [])
    else IndInode.freeBlock { s with blocks := Function.update s.blocks iblock 0 } env.free fblock
  else
    let l := indLevel blocksId iblock
    if l = 0 then (.error Errno.EIO, s, [])
    else match releaseLoop blocksId env l (s.indirect (l - 1))
        (iblock - inodeBlockLimits blocksId (l - 1)) s with
      | (.error rc, s) => (.error rc, s, [])
      | (.ok fblock, s) => if fblock = 0 then (.ok (), s, []) else s.freeBlock env.free fblock

end Walk

/-! ## Limits and levels -/

section Sound

variable {p : ℕ} {s s' : IndInode}

theorem inodeBlocksPerLevel_eq (l : ℕ) : inodeBlocksPerLevel p l = p ^ l := by
  induction l with
  | zero => rfl
  | succ l ih => rw [inodeBlocksPerLevel, ih, Nat.pow_succ]

theorem inodeBlockLimits_succ (l : ℕ) :
    inodeBlockLimits p (l + 1) = inodeBlockLimits p l + p ^ (l + 1) := by
  rw [inodeBlockLimits, inodeBlocksPerLevel_eq]

/-- The level of a block, and the block's place in its level. -/
theorem indLevel_spec {i : ℕ} (hi : inodeDirectBlockCount ≤ i) (hlim : i < inodeBlockLimits p 3) :
    1 ≤ indLevel p i ∧ indLevel p i ≤ 3 ∧ inodeBlockLimits p (indLevel p i - 1) ≤ i ∧
      i - inodeBlockLimits p (indLevel p i - 1) < p ^ indLevel p i := by
  have h0 : inodeBlockLimits p 0 = inodeDirectBlockCount := rfl
  have h1 := inodeBlockLimits_succ (p := p) 0
  have h2 := inodeBlockLimits_succ (p := p) 1
  have h3 := inodeBlockLimits_succ (p := p) 2
  simp only [Nat.zero_add, Nat.reduceAdd] at h1 h2 h3
  unfold indLevel
  split_ifs with hc1 hc2
  · refine ⟨le_rfl, by decide, ?_, ?_⟩ <;> simp only [Nat.sub_self] <;> omega
  · refine ⟨by decide, by decide, ?_, ?_⟩ <;> simp only [Nat.reduceSub] <;> omega
  · refine ⟨by decide, by decide, ?_, ?_⟩ <;> simp only [Nat.reduceSub] <;> omega

/-! ## The trees of an inode -/

/-- The top block of the tree of level `r`. -/
def IndInode.root (s : IndInode) (r : ℕ) : ℕ := s.blocks (11 + r)

/-- The levels of the trees. -/
def indHeight (r : ℕ) : ℕ := if r ≤ 3 then r else 0

/-- A block of the trees: `k` steps below the top block of level `r`. -/
def IndInode.nd (p : ℕ) (s : IndInode) (r k q : ℕ) : ℕ := node s.dev p (s.root r) k q

theorem indHeight_of_le {r : ℕ} (h : r ≤ 3) : indHeight r = r := if_pos h

theorem indirect_eq {r : ℕ} (h : 1 ≤ r) : s.indirect (r - 1) = s.root r := by
  rw [IndInode.indirect, IndInode.root, inodeDirectBlockCount]
  congr 1
  omega

/-- The block mapped at a logical index, 0 for a hole. -/
def IndInode.mapped (p : ℕ) (s : IndInode) (i : ℕ) : ℕ :=
  if i < inodeDirectBlockCount then s.blocks i
  else s.nd p (indLevel p i) (indLevel p i) (i - inodeBlockLimits p (indLevel p i - 1))

/-- The indirect blocks of an inode are all different, and they are allocated. -/
structure IndSound (p : ℕ) (s : IndInode) : Prop where
  proper : Proper s.dev p s.root indHeight
  used : ∀ ⦃r k q⦄, k < indHeight r → q < p ^ k → s.nd p r k q ≠ 0 → s.used (s.nd p r k q) = true

theorem IndSound.unused (h : IndSound p s) {b : ℕ} (hb : b ≠ 0) (hfree : s.used b = false) :
    Unused s.dev p s.root indHeight b := by
  intro r k q hk hq heq
  have hused := h.used hk hq (by rwa [IndInode.nd, heq])
  rw [IndInode.nd, heq, hfree] at hused
  exact Bool.false_ne_true hused

/-- The inode after one node has been set to an unused block. -/
theorem IndSound.attach (h : IndSound p s) {r k q b : ℕ} (hb : b ≠ 0) (hfree : s.used b = false)
    (hused : ∀ x, s.used x = true → s'.used x = true) (hb' : s'.used b = true)
    (hnd : ∀ ⦃r' k' q'⦄, k' ≤ indHeight r' → q' < p ^ k' → s'.nd p r' k' q' =
      if r' = r ∧ k' = k ∧ q' = q then b else s.nd p r' k' q') : IndSound p s' where
  proper := h.proper.attach (h.unused hb hfree) fun _ _ _ hk hq => hnd hk.le hq
  used r' k' q' hk hq hne := by
    rw [hnd hk.le hq] at hne ⊢
    split_ifs at hne ⊢ with hhit
    · exact hb'
    · exact hused _ (h.used hk hq hne)

/-- A fresh empty top block. -/
theorem IndSound.attachRoot (h : IndSound p s) {r b : ℕ} (hr1 : 1 ≤ r) (hr0 : s.root r = 0)
    (hb : b ≠ 0) (hfree : s.used b = false) (hlt : b < 2 ^ 32) :
    IndSound p (((s.take b).setIndirect (r - 1) b).clear b true) ∧
    ∀ ⦃r' k' q'⦄, k' ≤ indHeight r' → q' < p ^ k' →
      (((s.take b).setIndirect (r - 1) b).clear b true).nd p r' k' q' =
        if r' = r ∧ k' = 0 ∧ q' = 0 then b else s.nd p r' k' q' := by
  have hnd : ∀ ⦃r' k' q'⦄, k' ≤ indHeight r' → q' < p ^ k' →
      (((s.take b).setIndirect (r - 1) b).clear b true).nd p r' k' q' =
        if r' = r ∧ k' = 0 ∧ q' = 0 then b else s.nd p r' k' q' := by
    intro r' k' q' hk hq
    have hroot : (((s.take b).setIndirect (r - 1) b).clear b true).root r' =
        Function.update s.root r b r' := by
      simp only [IndInode.root, IndInode.clear, IndInode.setIndirect, IndInode.take, if_true,
        inodeDirectBlockCount, u32_of_lt hlt]
      by_cases hrr : r' = r
      · subst hrr
        rw [show r' - 1 + 12 = 11 + r' by omega, Function.update_self, Function.update_self]
      · rw [Function.update_of_ne (by omega), Function.update_of_ne hrr, IndInode.root]
    have hdev : (((s.take b).setIndirect (r - 1) b).clear b true).dev =
        Function.update s.dev b fun _ => 0 := rfl
    rw [IndInode.nd, hroot, hdev, node_setRoot (by exact hr0) (by simp),
      (h.unused hb hfree).node_update _ hk hq]
    congr 1
    simp only [eq_iff_iff, and_congr_right_iff]
    rintro rfl
    constructor
    · rintro rfl
      refine ⟨rfl, by simpa using hq⟩
    · exact fun h => h.1
  refine ⟨h.attach hb hfree ?_ ?_ hnd, hnd⟩
  · intro x hx
    by_cases hxb : x = b
    · subst hxb
      exact Function.update_self ..
    · exact (Function.update_of_ne hxb ..).trans hx
  · exact Function.update_self ..

/-- A fresh empty block below a block. -/
theorem IndSound.attachChild (h : IndSound p s) {r k q d b : ℕ} (hk : k + 1 < indHeight r)
    (hq : q < p ^ k) (hd : d < p) (hcur : s.nd p r k q ≠ 0) (hnext : s.dev (s.nd p r k q) d = 0)
    (hb : b ≠ 0) (hfree : s.used b = false) (hlt : b < 2 ^ 32) :
    IndSound p (((s.take b).clear b true).put (s.nd p r k q) d b) ∧
    ∀ ⦃r' k' q'⦄, k' ≤ indHeight r' → q' < p ^ k' →
      (((s.take b).clear b true).put (s.nd p r k q) d b).nd p r' k' q' =
        if r' = r ∧ k' = k + 1 ∧ q' = q * p + d then b else s.nd p r' k' q' := by
  have hk0 : k < indHeight r := Nat.lt_of_succ_lt hk
  have hunused := h.unused hb hfree
  -- the contents of the new block do not matter before it is hung
  have hclear : ∀ ⦃r' k' q'⦄, k' ≤ indHeight r' → q' < p ^ k' →
      node (Function.update s.dev b fun _ => 0) p (s.root r') k' q' = s.nd p r' k' q' :=
    fun _ _ _ hk' hq' => hunused.node_update _ hk' hq'
  have hproper : Proper (Function.update s.dev b fun _ => 0) p s.root indHeight :=
    h.proper.congr fun _ _ _ hk' hq' => hclear hk'.le hq'
  have hne : b ≠ s.nd p r k q := fun heq => hunused hk0 hq heq.symm
  have hchild : s.nd p r (k + 1) (q * p + d) = 0 := by
    rw [IndInode.nd, node_child hd hcur]
    exact hnext
  have hnd : ∀ ⦃r' k' q'⦄, k' ≤ indHeight r' → q' < p ^ k' →
      (((s.take b).clear b true).put (s.nd p r k q) d b).nd p r' k' q' =
        if r' = r ∧ k' = k + 1 ∧ q' = q * p + d then b else s.nd p r' k' q' := by
    intro r' k' q' hk' hq'
    have hdev : (((s.take b).clear b true).put (s.nd p r k q) d b).dev =
        setEntry (Function.update s.dev b fun _ => 0)
          (node (Function.update s.dev b fun _ => 0) p (s.root r) k q) d b := by
      rw [hclear hk0.le hq, IndInode.put, u32_of_lt hlt]
      rfl
    have hset := node_setEntry hproper hk0 hq hd (by rwa [hclear hk0.le hq]) (v := b)
      (.inr ⟨by rwa [hclear hk.le (child_lt hd hq)], by simp, by rwa [hclear hk0.le hq]⟩) hk' hq'
    rw [hclear hk' hq'] at hset
    rw [IndInode.nd, hdev]
    exact hset
  refine ⟨h.attach hb hfree ?_ ?_ hnd, hnd⟩
  · intro x hx
    by_cases hxb : x = b
    · subst hxb
      exact Function.update_self ..
    · exact (Function.update_of_ne hxb ..).trans hx
  · exact Function.update_self ..

/-- A number in a block of the last level. -/
theorem IndSound.putLeaf (h : IndSound p s) {r k q d v : ℕ} (hk : k + 1 = indHeight r)
    (hq : q < p ^ k) (hd : d < p) (hcur : s.nd p r k q ≠ 0) :
    IndSound p (s.put (s.nd p r k q) d v) ∧
    ∀ ⦃r' k' q'⦄, k' ≤ indHeight r' → q' < p ^ k' →
      (s.put (s.nd p r k q) d v).nd p r' k' q' =
        if r' = r ∧ k' = k + 1 ∧ q' = q * p + d then u32 v else s.nd p r' k' q' := by
  have hk0 : k < indHeight r := by omega
  have hnd : ∀ ⦃r' k' q'⦄, k' ≤ indHeight r' → q' < p ^ k' →
      (s.put (s.nd p r k q) d v).nd p r' k' q' =
        if r' = r ∧ k' = k + 1 ∧ q' = q * p + d then u32 v else s.nd p r' k' q' :=
    fun _ _ _ hk' hq' => node_setEntry h.proper hk0 hq hd hcur (.inl hk) hk' hq'
  have hinner : ∀ ⦃r' k' q'⦄, k' < indHeight r' → q' < p ^ k' →
      (s.put (s.nd p r k q) d v).nd p r' k' q' = s.nd p r' k' q' := by
    intro r' k' q' hk' hq'
    rw [hnd hk'.le hq', if_neg]
    rintro ⟨rfl, rfl, -⟩
    omega
  refine ⟨⟨h.proper.congr hinner, fun r' k' q' hk' hq' hne => ?_⟩, hnd⟩
  rw [hinner hk' hq'] at hne ⊢
  exact h.used hk' hq' hne

/-- An allocated block that is not hung. -/
theorem IndSound.take (h : IndSound p s) (b : ℕ) : IndSound p (s.take b) where
  proper := h.proper
  used r k q hk hq hne := by
    by_cases hb : s.nd p r k q = b
    · rw [← hb]
      exact Function.update_self ..
    · exact (Function.update_of_ne hb ..).trans (h.used hk hq hne)

/-! ## Where the walks end -/

/-- The way of a block to its place in the level: `q` is the place without its
    last `l` digits. -/
theorem place_step (o l : ℕ) :
    o / p ^ l = o / p ^ (l + 1) * p + o % p ^ (l + 1) / p ^ l ∧
      o % p ^ (l + 1) % p ^ l = o % p ^ l := by
  have hdigit : o % p ^ (l + 1) / p ^ l = o / p ^ l % p := by
    rw [Nat.pow_succ, Nat.mod_mul_right_div_self]
  constructor
  · rw [hdigit, Nat.pow_succ, ← Nat.div_div_eq_div_mul, Nat.div_add_mod']
  · rw [Nat.mod_mod_of_dvd _ (Nat.pow_dvd_pow p (Nat.le_succ l))]

theorem place_lt {o r l : ℕ} (ho : o < p ^ r) (hl : l ≤ r) : o / p ^ l < p ^ (r - l) :=
  Nat.div_lt_of_lt_mul (by rwa [← Nat.pow_add, Nat.add_sub_cancel' hl])

theorem place_digit_lt (hp : 0 < p) (o l : ℕ) : o % p ^ (l + 1) / p ^ l < p :=
  digit_lt (Nat.mod_lt _ (Nat.pow_pos hp))

/-- One step down: the child a block holds for a place. -/
theorem nd_step (hp : 0 < p) {r o l : ℕ} (hl : l + 1 ≤ r)
    (hcur : s.nd p r (r - (l + 1)) (o / p ^ (l + 1)) ≠ 0) :
    s.dev (s.nd p r (r - (l + 1)) (o / p ^ (l + 1))) (o % p ^ (l + 1) / p ^ l) =
      s.nd p r (r - l) (o / p ^ l) := by
  rw [(place_step o l).1, show r - l = r - (l + 1) + 1 by omega]
  exact (node_child (place_digit_lt hp o l) hcur).symm

/-- The reading walk ends at the block mapped. -/
theorem getLoop_eq (hp : 0 < p) {r o : ℕ} : ∀ {l : ℕ}, l ≤ r →
    s.nd p r (r - l) (o / p ^ l) ≠ 0 →
      getLoop p (fun _ => .ok ()) s l (s.nd p r (r - l) (o / p ^ l)) (o % p ^ l) =
        .ok (s.nd p r r o) := by
  intro l
  induction l with
  | zero =>
    intro _ _
    rw [getLoop, Nat.sub_zero, Nat.pow_zero, Nat.div_one]
  | succ l ih =>
    intro hl hcur
    rw [getLoop]
    simp only [inodeBlocksPerLevel_eq, nd_step hp hl hcur, (place_step o l).2]
    split_ifs with h0
    · rw [show r = r - l + l by omega] at h0 ⊢
      rw [Nat.add_sub_cancel] at h0
      rw [IndInode.nd, node_below_zero h0]
    · exact ih (by omega) h0

/-- What the getter yields when every block can be read. -/
theorem getDblk_eq (hp : 0 < p) {i : ℕ} (hlim : i < inodeBlockLimits p 3) :
    ext4FsGetInodeDblkIdx p (fun _ => .ok ()) s i = .ok (if s.size = 0 then 0 else s.mapped p i) := by
  rw [ext4FsGetInodeDblkIdx, IndInode.mapped]
  by_cases hsize : s.size = 0
  · rw [if_pos hsize, if_pos hsize]
  · rw [if_neg hsize, if_neg hsize]
    by_cases hdirect : i < inodeDirectBlockCount
    · rw [if_pos hdirect, if_pos hdirect]
    · obtain ⟨hl, -, -, ho⟩ := indLevel_spec (Nat.le_of_not_lt hdirect) hlim
      rw [if_neg hdirect, if_neg hdirect, if_neg (by omega), indirect_eq hl]
      have hwalk := @getLoop_eq p s hp _ (i - inodeBlockLimits p (indLevel p i - 1)) _
        (le_refl (indLevel p i))
      rw [Nat.sub_self, Nat.div_eq_of_lt ho, Nat.mod_eq_of_lt ho] at hwalk
      by_cases hroot : s.root (indLevel p i) = 0
      · have hzero : node s.dev p (s.root (indLevel p i)) (0 + indLevel p i)
            (i - inodeBlockLimits p (indLevel p i - 1)) = 0 := node_below_zero hroot
        rw [Nat.zero_add] at hzero
        rw [if_pos hroot, IndInode.nd, hzero]
      · rw [if_neg hroot]
        exact hwalk hroot

variable {used : ℕ → Bool} {env : IndEnv used}

/-- The blocks the allocator hands out have 32-bit numbers, and their buffers
    are marked dirty. -/
structure IndEnv.Plain (env : IndEnv used) : Prop where
  fits : ∀ l b, env.alloc l = .ok b → b < 2 ^ 32
  dirty : ∀ l, env.dirty l = true

/-- Nothing fails on the block of level `m` that lies on the way to a place:
    it is read, and below level `l` it is made if there is none. -/
def IndEnv.OpenAt (env : IndEnv used) (p : ℕ) (s : IndInode) (r o l m : ℕ) : Prop :=
  env.read m = .ok () ∧ (m < l → s.nd p r (r - m) (o / p ^ m) = 0 →
    (∃ b, env.alloc m = .ok b) ∧ env.noread m = .ok ())

/-- Nothing fails on the way down from level `l`. -/
def IndEnv.Open (env : IndEnv used) (p : ℕ) (s : IndInode) (r o l : ℕ) : Prop :=
  ∀ m, 1 ≤ m → m ≤ l → env.OpenAt p s r o l m

theorem open_succ {r o l : ℕ} (hl : 1 ≤ l) : env.Open p s r o (l + 1) ↔
    env.read (l + 1) = .ok () ∧
      (s.nd p r (r - l) (o / p ^ l) = 0 → (∃ b, env.alloc l = .ok b) ∧ env.noread l = .ok ()) ∧
      env.Open p s r o l := by
  constructor
  · intro h
    refine ⟨(h (l + 1) (by omega) le_rfl).1, fun h0 => ?_, fun m h1 hm => ?_⟩
    · exact (h l hl (Nat.le_succ l)).2 (Nat.lt_succ_self l) h0
    · have hm' := h m h1 (Nat.le_succ_of_le hm)
      exact ⟨hm'.1, fun hlt h0 => hm'.2 (Nat.lt_succ_of_lt hlt) h0⟩
  · rintro ⟨hread, hmake, hopen⟩ m h1 hm
    rcases Nat.eq_or_lt_of_le hm with rfl | hm
    · exact ⟨hread, fun hlt => absurd hlt (Nat.lt_irrefl _)⟩
    · have hm' := hopen m h1 (Nat.le_of_lt_succ hm)
      refine ⟨hm'.1, fun _ h0 => ?_⟩
      rcases Nat.eq_or_lt_of_le (Nat.le_of_lt_succ hm) with rfl | hlt
      · exact hmake h0
      · exact hm'.2 hlt h0

/-- The way looks at nothing but the blocks on it. -/
theorem open_congr {r o l : ℕ}
    (hkeep : ∀ m < l, s'.nd p r (r - m) (o / p ^ m) = s.nd p r (r - m) (o / p ^ m)) :
    env.Open p s' r o l ↔ env.Open p s r o l := by
  constructor
  · intro hopen m h1 hm
    refine ⟨(hopen m h1 hm).1, fun hlt hm0 => (hopen m h1 hm).2 hlt ?_⟩
    rwa [hkeep m hlt]
  · intro hopen m h1 hm
    refine ⟨(hopen m h1 hm).1, fun hlt hm0 => (hopen m h1 hm).2 hlt ?_⟩
    rwa [← hkeep m hlt]

/-- How the loop of the setter ends. -/
structure SetOut (env : IndEnv used) (p : ℕ) (s : IndInode) (r o fblock l : ℕ)
    (out : Except Errno Unit × IndInode) : Prop where
  sound : IndSound p out.2
  size : out.2.size = s.size
  blocks : out.2.blocks = s.blocks
  ok_iff : out.1 = .ok () ↔ env.Open p s r o l
  done : out.1 = .ok () → ∀ ⦃r' o'⦄, r' ≤ 3 → o' < p ^ r' →
    out.2.nd p r' r' o' = if r' = r ∧ o' = o then u32 fblock else s.nd p r' r' o'
  kept : out.1 ≠ .ok () → ∀ ⦃r' o'⦄, r' ≤ 3 → o' < p ^ r' → out.2.nd p r' r' o' = s.nd p r' r' o'

/-- A loop that ends with an error. -/
theorem SetOut.stop {r o fblock l : ℕ} {rc : Errno} (hs : IndSound p s')
    (hsize : s'.size = s.size) (hblocks : s'.blocks = s.blocks) (hopen : ¬ env.Open p s r o l)
    (hnd : ∀ ⦃r' o'⦄, r' ≤ 3 → o' < p ^ r' → s'.nd p r' r' o' = s.nd p r' r' o') :
    SetOut env p s r o fblock l (.error rc, s') where
  sound := hs
  size := hsize
  blocks := hblocks
  ok_iff := ⟨fun h => (nomatch h), fun h => absurd h hopen⟩
  done h := nomatch h
  kept _ := hnd

/-- A loop that goes on one level below. -/
theorem SetOut.next {r o fblock l : ℕ} {out : Except Errno Unit × IndInode}
    (h : SetOut env p s' r o fblock l out) (hsize : s'.size = s.size)
    (hblocks : s'.blocks = s.blocks)
    (hopen : env.Open p s r o (l + 1) ↔ env.Open p s' r o l)
    (hnd : ∀ ⦃r' o'⦄, r' ≤ 3 → o' < p ^ r' → s'.nd p r' r' o' = s.nd p r' r' o') :
    SetOut env p s r o fblock (l + 1) out where
  sound := h.sound
  size := h.size.trans hsize
  blocks := h.blocks.trans hblocks
  ok_iff := h.ok_iff.trans hopen.symm
  done hok r' o' hr' ho' := by
    rw [h.done hok hr' ho', hnd hr' ho']
  kept hok r' o' hr' ho' := by
    rw [h.kept hok hr' ho', hnd hr' ho']

/-- The last level: the number is stored. -/
theorem SetOut.leaf {r o fblock : ℕ} (hp : 0 < p) (hr : r ≤ 3) (hr1 : 1 ≤ r) (ho : o < p ^ r)
    (hs : IndSound p s) (hcur : s.nd p r (r - 1) (o / p ^ 1) ≠ 0) (hread : env.read 1 = .ok ()) :
    SetOut env p s r o fblock 1
      (.ok (), s.put (s.nd p r (r - 1) (o / p ^ 1)) (o % p ^ 1 / p ^ 0) fblock) := by
  have hheight := indHeight_of_le hr
  obtain ⟨hsound, hnd⟩ := hs.putLeaf (v := fblock) (by omega) (place_lt ho hr1)
    (place_digit_lt hp o 0) hcur
  have hplace : o / p ^ 1 * p + o % p ^ 1 / p ^ 0 = o := by
    rw [← (place_step o 0).1, Nat.pow_zero, Nat.div_one]
  refine ⟨hsound, rfl, rfl, ⟨fun _ m h1 hm => ?_, fun _ => rfl⟩, fun _ r' o' hr' ho' => ?_,
    fun hne => absurd rfl hne⟩
  · obtain rfl : m = 1 := by omega
    exact ⟨hread, fun hlt => absurd hlt (by decide)⟩
  · rw [hnd (by rw [indHeight_of_le hr']) ho', hplace]
    by_cases hrr : r' = r
    · subst hrr
      rw [show r' - 1 + 1 = r' by omega]
      simp only [true_and]
    · simp [hrr]

theorem setLoop_spec (hp : 0 < p) (henv : env.Plain) (fblock : ℕ) {r o : ℕ} (hr : r ≤ 3)
    (ho : o < p ^ r) : ∀ {l : ℕ} {s : IndInode}, 1 ≤ l → l ≤ r → IndSound p s →
    s.nd p r (r - l) (o / p ^ l) ≠ 0 →
    (∀ m < l, ∀ b, env.alloc m = .ok b → s.used b = false) →
      SetOut env p s r o fblock l
        (setLoop p env fblock l (s.nd p r (r - l) (o / p ^ l)) (o % p ^ l) s) := by
  intro l
  induction l with
  | zero => exact fun h => absurd h (by decide)
  | succ l ih =>
    intro s _ hlr hs hcur hfresh
    have hq : o / p ^ (l + 1) < p ^ (r - (l + 1)) := place_lt ho hlr
    have hd : o % p ^ (l + 1) / p ^ l < p := place_digit_lt hp o l
    have hheight := indHeight_of_le hr
    rw [setLoop]
    simp only [inodeBlocksPerLevel_eq, (place_step o l).2]
    rcases hread : env.read (l + 1) with rc | u
    · refine .stop hs rfl rfl (fun hopen => ?_) fun _ _ _ _ => rfl
      have hrd := (hopen (l + 1) (by omega) le_rfl).1
      rw [hread] at hrd
      exact nomatch hrd
    · rcases Nat.eq_zero_or_pos l with rfl | hl
      · simp only [if_true]
        exact .leaf hp hr hlr ho hs hcur hread
      · rw [if_neg (by omega)]
        have hdown := nd_step hp hlr hcur
        rw [hdown]
        split_ifs with hnext
        · -- the block of the next level is there
          refine (ih hl (by omega) hs hnext fun m hm => hfresh m (by omega)).next rfl rfl ?_
            fun _ _ _ _ => rfl
          rw [open_succ hl]
          exact ⟨fun h => h.2.2, fun h => ⟨hread, fun h0 => absurd h0 hnext, h⟩⟩
        · have h0 : s.nd p r (r - l) (o / p ^ l) = 0 := not_not.1 hnext
          rcases halloc : env.alloc l with rc | b
          · refine .stop hs rfl rfl (fun hopen => ?_) fun _ _ _ _ => rfl
            obtain ⟨⟨b, hb⟩, -⟩ := ((open_succ hl).1 hopen).2.1 h0
            rw [halloc] at hb
            exact nomatch hb
          · simp only
            rcases hnoread : env.noread l with rc | u'
            · refine .stop (hs.take b) rfl rfl (fun hopen => ?_) fun _ _ _ _ => rfl
              have hno := (((open_succ hl).1 hopen).2.1 h0).2
              rw [hnoread] at hno
              exact nomatch hno
            · -- a new block is hung
              have hfree := hfresh l (Nat.lt_succ_self l) b halloc
              obtain ⟨hsound, hnd⟩ := hs.attachChild (r := r) (by omega) hq hd hcur
                (hdown.trans h0) (env.fresh l b halloc).1 hfree (henv.fits l b halloc)
              rw [henv.dirty l]
              have hpos : r - l = r - (l + 1) + 1 := by omega
              rw [← (place_step o l).1, ← hpos] at hnd
              set s₁ := ((s.take b).clear b true).put (s.nd p r (r - (l + 1)) (o / p ^ (l + 1)))
                (o % p ^ (l + 1) / p ^ l) b with hs₁
              have hb₁ : s₁.nd p r (r - l) (o / p ^ l) = b := by
                rw [hnd (by omega) (place_lt ho (by omega)), if_pos ⟨rfl, rfl, rfl⟩]
              have hkeep : ∀ m < l, s₁.nd p r (r - m) (o / p ^ m) = s.nd p r (r - m) (o / p ^ m) := by
                intro m hm
                rw [hnd (by omega) (place_lt ho (by omega)), if_neg (by omega)]
              have hrun := ih hl (by omega) hsound (by rw [hb₁]; exact (env.fresh l b halloc).1)
                fun m hm c hc => ?_
              · rw [hb₁] at hrun
                refine hrun.next rfl rfl ?_ fun r' o' hr' ho' => ?_
                · rw [open_succ hl, open_congr hkeep]
                  exact ⟨fun h => h.2.2, fun h => ⟨hread, fun _ => ⟨⟨b, halloc⟩, hnoread⟩, h⟩⟩
                · rw [hnd (by rw [indHeight_of_le hr']) ho', if_neg]
                  rintro ⟨rfl, hrl, -⟩
                  omega
              · have hcb : c ≠ b := by
                  rintro rfl
                  have := env.distinct m l c hc halloc
                  omega
                exact (Function.update_of_ne hcb ..).trans (hfresh m (by omega) c hc)

/-! ## The setter -/

/-- Two places are the same when their level and their place in it are. -/
theorem place_inj {i j : ℕ} (hi : inodeDirectBlockCount ≤ i) (hj : inodeDirectBlockCount ≤ j)
    (hlim : i < inodeBlockLimits p 3) (hlim' : j < inodeBlockLimits p 3)
    (hl : indLevel p j = indLevel p i) (ho : j - inodeBlockLimits p (indLevel p j - 1) =
      i - inodeBlockLimits p (indLevel p i - 1)) : j = i := by
  have h1 := (indLevel_spec hi hlim).2.2.1
  have h2 := (indLevel_spec hj hlim').2.2.1
  rw [hl] at h2 ho
  omega

/-- The map after one place of the trees has changed. -/
theorem mapped_of_nd {i v : ℕ} (hi : inodeDirectBlockCount ≤ i) (hlim : i < inodeBlockLimits p 3)
    (hblocks : ∀ j < inodeDirectBlockCount, s'.blocks j = s.blocks j)
    (hnd : ∀ ⦃r o⦄, r ≤ 3 → o < p ^ r → s'.nd p r r o =
      if r = indLevel p i ∧ o = i - inodeBlockLimits p (indLevel p i - 1) then v
      else s.nd p r r o) {j : ℕ} (hj : j < inodeBlockLimits p 3) :
    s'.mapped p j = if j = i then v else s.mapped p j := by
  unfold IndInode.mapped
  by_cases hdirect : j < inodeDirectBlockCount
  · rw [if_pos hdirect, if_pos hdirect, if_neg (by omega), hblocks j hdirect]
  · obtain ⟨-, hl3, -, ho⟩ := indLevel_spec (Nat.le_of_not_lt hdirect) hj
    rw [if_neg hdirect, if_neg hdirect, hnd hl3 ho]
    congr 1
    simp only [eq_iff_iff]
    constructor
    · rintro ⟨hl, hplace⟩
      exact place_inj hi (Nat.le_of_not_lt hdirect) hlim hj hl (by rw [hplace])
    · rintro rfl
      exact ⟨rfl, rfl⟩

theorem mapped_congr (hblocks : ∀ j < inodeDirectBlockCount, s'.blocks j = s.blocks j)
    (hnd : ∀ ⦃r o⦄, r ≤ 3 → o < p ^ r → s'.nd p r r o = s.nd p r r o) {j : ℕ}
    (hj : j < inodeBlockLimits p 3) : s'.mapped p j = s.mapped p j := by
  unfold IndInode.mapped
  split_ifs with hdirect
  · exact hblocks j hdirect
  · obtain ⟨-, hl3, -, ho⟩ := indLevel_spec (Nat.le_of_not_lt hdirect) hj
    exact hnd hl3 ho

/-- The inode that holds the number of a top block `b` that could not be
    fetched. -/
def IndInode.lost (s : IndInode) (l b : ℕ) : IndInode := (s.take b).setIndirect (l - 1) b

/-- The call makes a top block and cannot fetch it. -/
def IndEnv.TopLost (env : IndEnv used) (s : IndInode) (l b : ℕ) : Prop :=
  s.root l = 0 ∧ env.alloc l = .ok b ∧ env.noread l ≠ .ok ()

/-- Nothing fails in a call of the setter. -/
def IndEnv.Runs (env : IndEnv used) (p : ℕ) (s : IndInode) (i : ℕ) : Prop :=
  i < inodeDirectBlockCount ∨
    (s.root (indLevel p i) = 0 →
      (∃ b, env.alloc (indLevel p i) = .ok b) ∧ env.noread (indLevel p i) = .ok ()) ∧
    env.Open p s (indLevel p i) (i - inodeBlockLimits p (indLevel p i - 1)) (indLevel p i)

/-- How the setter ends when it does not lose a top block. -/
structure SetDone (env : IndEnv used) (p : ℕ) (s : IndInode) (i fblock : ℕ)
    (out : Except Errno Unit × IndInode × List ℕ) : Prop where
  sound : IndSound p out.2.1
  size : out.2.1.size = s.size
  freed : out.2.2 = []
  ok_iff : out.1 = .ok () ↔ env.Runs p s i
  done : out.1 = .ok () → ∀ j < inodeBlockLimits p 3,
    out.2.1.mapped p j = if j = i then u32 fblock else s.mapped p j
  kept : out.1 ≠ .ok () → ∀ j < inodeBlockLimits p 3, out.2.1.mapped p j = s.mapped p j

/-- The direct blocks are no part of the trees. -/
theorem nd_setDirect {i : ℕ} (hi : i < inodeDirectBlockCount) (v : ℕ) {r : ℕ} (hr : 1 ≤ r)
    (k q : ℕ) :
    IndInode.nd p { s with blocks := Function.update s.blocks i v } r k q = s.nd p r k q := by
  have hroot : IndInode.root { s with blocks := Function.update s.blocks i v } r = s.root r := by
    rw [inodeDirectBlockCount] at hi
    exact Function.update_of_ne (by omega) ..
  rw [IndInode.nd, hroot]
  rfl

theorem indHeight_pos {r k : ℕ} (hk : k < indHeight r) : 1 ≤ r := by
  unfold indHeight at hk
  split_ifs at hk <;> omega

theorem set_direct (hs : IndSound p s) {i : ℕ} (hi : i < inodeDirectBlockCount) (fblock : ℕ) :
    SetDone env p s i fblock (ext4FsSetInodeDataBlockIndex p env i fblock s) := by
  rw [ext4FsSetInodeDataBlockIndex, if_pos hi]
  have hnd := fun {r : ℕ} (hr : 1 ≤ r) => @nd_setDirect p s i hi (u32 fblock) r hr
  refine ⟨⟨hs.proper.congr fun r k q hk hq => hnd (indHeight_pos hk) k q,
      fun r k q hk hq hne => ?_⟩, rfl, rfl,
    ⟨fun _ => .inl hi, fun _ => rfl⟩, fun _ j hj => ?_, fun h => absurd rfl h⟩
  · rw [hnd (indHeight_pos hk)] at hne ⊢
    exact hs.used hk hq hne
  · by_cases hji : j = i
    · subst hji
      rw [if_pos rfl, IndInode.mapped, if_pos hi]
      exact Function.update_self ..
    · rw [if_neg hji]
      unfold IndInode.mapped
      split_ifs with hdirect
      · exact Function.update_of_ne hji ..
      · exact hnd (indLevel_spec (Nat.le_of_not_lt hdirect) hj).1 _ _

/-- The setter ends as its loop does. -/
theorem SetOut.toDone {s₁ : IndInode} {i fblock : ℕ} {out : Except Errno Unit × IndInode}
    (h : SetOut env p s₁ (indLevel p i) (i - inodeBlockLimits p (indLevel p i - 1)) fblock
      (indLevel p i) out)
    (hi : inodeDirectBlockCount ≤ i) (hlim : i < inodeBlockLimits p 3) (hsize : s₁.size = s.size)
    (hblocks : ∀ j < inodeDirectBlockCount, s₁.blocks j = s.blocks j)
    (hnd : ∀ ⦃r o⦄, r ≤ 3 → o < p ^ r → s₁.nd p r r o = s.nd p r r o)
    (hruns : env.Runs p s i ↔ env.Open p s₁ (indLevel p i)
      (i - inodeBlockLimits p (indLevel p i - 1)) (indLevel p i)) :
    SetDone env p s i fblock (out.1, out.2, []) := by
  have hblocks' : ∀ j < inodeDirectBlockCount, out.2.blocks j = s.blocks j := fun j hj => by
    rw [h.blocks, hblocks j hj]
  refine ⟨h.sound, h.size.trans hsize, rfl, h.ok_iff.trans hruns.symm, fun hok j hj => ?_,
    fun hok j hj => ?_⟩
  · refine mapped_of_nd hi hlim hblocks' (fun r o hr ho => ?_) hj
    rw [h.done hok hr ho, hnd hr ho]
  · refine mapped_congr hblocks' (fun r o hr ho => ?_) hj
    rw [h.kept hok hr ho, hnd hr ho]

/-- **The setter** keeps the map but for the place it sets, unless it loses a
    top block. -/
theorem set_spec (hp : 0 < p) (henv : env.Plain) (hs : IndSound p s) (hused : used = s.used) {i : ℕ}
    (hlim : i < inodeBlockLimits p 3) (fblock : ℕ)
    (hlost : inodeDirectBlockCount ≤ i → ∀ b, ¬ env.TopLost s (indLevel p i) b) :
    SetDone env p s i fblock (ext4FsSetInodeDataBlockIndex p env i fblock s) := by
  by_cases hi : i < inodeDirectBlockCount
  · exact set_direct hs hi fblock
  have hi' := Nat.le_of_not_lt hi
  obtain ⟨hl1, hl3, -, ho⟩ := indLevel_spec hi' hlim
  rw [ext4FsSetInodeDataBlockIndex, if_neg hi]
  simp only
  rw [if_neg (by omega)]
  have hsub : ∀ (s : IndInode), s.nd p (indLevel p i) (indLevel p i - indLevel p i)
      ((i - inodeBlockLimits p (indLevel p i - 1)) / p ^ indLevel p i) = s.root (indLevel p i) := by
    intro s
    rw [Nat.sub_self]
    rfl
  have hfresh : ∀ m, ∀ b, env.alloc m = .ok b → s.used b = false := fun m b hb => by
    rw [← hused]
    exact (env.fresh m b hb).2
  rw [setTop, indirect_eq hl1]
  by_cases hroot : s.root (indLevel p i) = 0
  · rw [if_neg (not_not.2 hroot)]
    rcases halloc : env.alloc (indLevel p i) with rc | b
    · refine ⟨hs, rfl, rfl, ⟨fun h => (nomatch h), fun h => ?_⟩, fun h => (nomatch h),
        fun _ _ _ => rfl⟩
      obtain ⟨⟨b, hb⟩, -⟩ := (h.resolve_left hi).1 hroot
      rw [halloc] at hb
      exact nomatch hb
    · simp only
      rcases hnoread : env.noread (indLevel p i) with rc | u
      · exact absurd ⟨hroot, halloc, by rw [hnoread]; exact nofun⟩ (hlost hi' b)
      · simp only
        obtain ⟨hsound, hnd⟩ := hs.attachRoot hl1 hroot (env.fresh _ b halloc).1
          (hfresh _ b halloc) (henv.fits _ b halloc)
        rw [henv.dirty]
        set s₁ := ((s.take b).setIndirect (indLevel p i - 1) b).clear b true with hs₁
        have hb₁ : s₁.root (indLevel p i) = b := by
          have hzero : s₁.nd p (indLevel p i) 0 0 = b := by
            rw [hnd (Nat.zero_le _) (by simp), if_pos ⟨rfl, rfl, rfl⟩]
          exact hzero
        have hrun := setLoop_spec hp henv fblock hl3 ho hl1 le_rfl hsound
          (by rw [hsub, hb₁]; exact (env.fresh _ b halloc).1) fun m hm c hc => ?_
        · rw [hsub, hb₁, Nat.mod_eq_of_lt ho] at hrun
          refine hrun.toDone hi' hlim rfl (fun j hj => ?_) (fun r o hr ho => ?_) ?_
          · rw [inodeDirectBlockCount] at hj
            exact Function.update_of_ne (by rw [inodeDirectBlockCount]; omega) ..
          · rw [hnd (by rw [indHeight_of_le hr]) ho, if_neg]
            rintro ⟨rfl, h0, -⟩
            omega
          · have hkeep : ∀ m < indLevel p i, s₁.nd p (indLevel p i) (indLevel p i - m)
                ((i - inodeBlockLimits p (indLevel p i - 1)) / p ^ m) =
                s.nd p (indLevel p i) (indLevel p i - m)
                  ((i - inodeBlockLimits p (indLevel p i - 1)) / p ^ m) := by
              intro m hm
              rw [hnd (by rw [indHeight_of_le hl3]; omega) (place_lt ho hm.le), if_neg (by omega)]
            constructor
            · intro hr m h1 hm
              refine ⟨((hr.resolve_left hi).2 m h1 hm).1, fun hlt h0 => ?_⟩
              exact ((hr.resolve_left hi).2 m h1 hm).2 hlt (by rwa [← hkeep m hlt])
            · intro hopen
              refine .inr ⟨fun _ => ⟨⟨b, halloc⟩, hnoread⟩, fun m h1 hm => ?_⟩
              refine ⟨(hopen m h1 hm).1, fun hlt h0 => ?_⟩
              exact (hopen m h1 hm).2 hlt (by rwa [hkeep m hlt])
        · have hcb : c ≠ b := by
            rintro rfl
            have := env.distinct m _ c hc halloc
            omega
          exact (Function.update_of_ne hcb ..).trans (hfresh m c hc)
  · rw [if_pos hroot]
    have hrun := setLoop_spec hp henv fblock hl3 ho hl1 le_rfl hs
      (by rw [hsub]; exact hroot) fun m _ => hfresh m
    rw [hsub, Nat.mod_eq_of_lt ho] at hrun
    refine hrun.toDone hi' hlim rfl (fun _ _ => rfl) (fun _ _ _ _ => rfl) ?_
    constructor
    · exact fun hr => (hr.resolve_left hi).2
    · exact fun hopen => .inr ⟨fun h0 => absurd h0 hroot, hopen⟩

/-! ## The releasing walk -/

/-- How the loop of `ext4_fs_release_inode_block` ends. -/
structure ReleaseOut (env : IndEnv used) (p : ℕ) (s : IndInode) (r o l : ℕ)
    (out : Except Errno ℕ × IndInode) : Prop where
  sound : IndSound p out.2
  size : out.2.size = s.size
  blocks : out.2.blocks = s.blocks
  inner : ∀ ⦃r' k' q'⦄, k' < indHeight r' → q' < p ^ k' → out.2.nd p r' k' q' = s.nd p r' k' q'
  done : ∀ v, out.1 = .ok v → v = s.nd p r r o ∧ ∀ ⦃r' o'⦄, r' ≤ 3 → o' < p ^ r' →
    out.2.nd p r' r' o' = if r' = r ∧ o' = o then 0 else s.nd p r' r' o'
  kept : ∀ rc, out.1 = .error rc → ∀ ⦃r' o'⦄, r' ≤ 3 → o' < p ^ r' →
    out.2.nd p r' r' o' = s.nd p r' r' o'
  ok_iff : s.nd p r r o ≠ 0 → ((∃ v, out.1 = .ok v) ↔ ∀ m, 1 ≤ m → m ≤ l → env.read m = .ok ())

theorem releaseLoop_spec (hp : 0 < p) (hs : IndSound p s) {r o : ℕ} (hr : r ≤ 3)
    (ho : o < p ^ r) : ∀ {l : ℕ}, 1 ≤ l → l ≤ r →
      ReleaseOut env p s r o l
        (releaseLoop p env l (s.nd p r (r - l) (o / p ^ l)) (o % p ^ l) s) := by
  intro l
  induction l with
  | zero => exact fun h => absurd h (by decide)
  | succ l ih =>
    intro _ hlr
    have hq : o / p ^ (l + 1) < p ^ (r - (l + 1)) := place_lt ho hlr
    have hd : o % p ^ (l + 1) / p ^ l < p := place_digit_lt hp o l
    have hheight := indHeight_of_le hr
    rw [releaseLoop]
    simp only [inodeBlocksPerLevel_eq, (place_step o l).2]
    by_cases hcur : s.nd p r (r - (l + 1)) (o / p ^ (l + 1)) = 0
    · -- a hole
      rw [if_pos hcur]
      have hleaf : s.nd p r r o = 0 := by
        have hbelow : node s.dev p (s.root r) (r - (l + 1) + (l + 1)) o = 0 := node_below_zero hcur
        rwa [Nat.sub_add_cancel hlr] at hbelow
      refine ⟨hs, rfl, rfl, fun _ _ _ _ _ => rfl, fun v hv => ⟨?_, fun r' o' _ _ => ?_⟩,
        fun rc h => (nomatch h), fun h => absurd hleaf h⟩
      · rw [hleaf]
        exact (Except.ok.inj hv).symm
      · split_ifs with hhit
        · obtain ⟨rfl, rfl⟩ := hhit
          exact hleaf
        · rfl
    · rw [if_neg hcur]
      rcases hread : env.read (l + 1) with rc | u
      · refine ⟨hs, rfl, rfl, fun _ _ _ _ _ => rfl, fun v h => (nomatch h),
          fun _ _ _ _ _ _ => rfl, fun _ => ?_⟩
        constructor
        · rintro ⟨v, hv⟩
          exact nomatch hv
        · intro h
          have hrd := h (l + 1) (by omega) le_rfl
          rw [hread] at hrd
          exact nomatch hrd
      · simp only
        rw [nd_step hp hlr hcur]
        rcases Nat.eq_zero_or_pos l with rfl | hl
        · -- the last level: the number is taken out
          rw [if_pos rfl, releaseLoop]
          obtain ⟨hsound, hnd⟩ := hs.putLeaf (v := 0) (by omega) hq hd hcur
          have hplace : o / p ^ (0 + 1) * p + o % p ^ (0 + 1) / p ^ 0 = o := by
            rw [← (place_step o 0).1, Nat.pow_zero, Nat.div_one]
          refine ⟨hsound, rfl, rfl, fun r' k' q' hk' hq' => ?_,
            fun v hv => ⟨?_, fun r' o' hr' ho' => ?_⟩, fun rc h => (nomatch h), fun _ => ?_⟩
          · rw [hnd hk'.le hq', if_neg]
            rintro ⟨rfl, rfl, -⟩
            omega
          · have hv' := Except.ok.inj hv
            rw [Nat.sub_zero, Nat.pow_zero, Nat.div_one] at hv'
            exact hv'.symm
          · rw [hnd (by rw [indHeight_of_le hr']) ho', hplace, u32_of_lt (by decide)]
            by_cases hrr : r' = r
            · subst hrr
              rw [show r' - (0 + 1) + 1 = r' by omega]
              simp only [true_and]
            · simp [hrr]
          · constructor
            · intro _ m h1 hm
              obtain rfl : m = 1 := by omega
              exact hread
            · exact fun _ => ⟨_, rfl⟩
        · rw [if_neg (by omega)]
          have hrun := ih hl (by omega)
          refine ⟨hrun.sound, hrun.size, hrun.blocks, hrun.inner, hrun.done, hrun.kept,
            fun hne => ?_⟩
          rw [hrun.ok_iff hne]
          constructor
          · intro h m h1 hm
            rcases Nat.eq_or_lt_of_le hm with rfl | hm
            · exact hread
            · exact h m h1 (Nat.le_of_lt_succ hm)
          · exact fun h m h1 hm => h m h1 (Nat.le_succ_of_le hm)

end Sound

end Lwext4
