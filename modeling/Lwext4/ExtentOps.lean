/-
  `ext4_extent.c`: looking up and inserting extents.

  The tree is changed through a path; the state holds the tree as the path
  leaves it, also when a call fails half-way.  The block allocator is seen
  through the blocks it will hand out next (`fresh`) and the ranges it is
  handed back (`freed`); `faults` tells for the next device accesses and
  allocations how they end.
-/
import Lwext4.Extent
import Lwext4.Lib.Prog

namespace Lwext4

open Lib

/-- The state of the extent code. -/
structure ExtFs where
  blockSize : ℕ
  tree : Tree
  fresh : List ℕ
  freed : List (ℕ × ℕ)
  faults : List (Option Errno)

/-- Calls on an extent tree. -/
abbrev ExtM := Prog Stop ExtFs

/-- `ext4_ext_space_block`. -/
def extSpaceBlock (blockSize : ℕ) : ℕ := (blockSize - 12) / 12

/-- `ext4_ext_space_block_idx`. -/
def extSpaceBlockIdx (blockSize : ℕ) : ℕ := (blockSize - 12) / 12

/-- `ext4_ext_space_root`. -/
def extSpaceRoot : ℕ := (60 - 12) / 12

/-- `ext4_ext_space_root_idx`. -/
def extSpaceRootIdx : ℕ := (60 - 12) / 12

/-- Consume one entry of `faults`. -/
def access : ExtM Unit := fun fs =>
  match fs.faults with
  | [] => (.ok (), fs)
  | some e :: rest => (.error (.rc e), { fs with faults := rest })
  | none :: rest => (.ok (), { fs with faults := rest })

/-- Replace the tree. -/
def setTree (t : Tree) : ExtM Unit := Prog.modify fun fs => { fs with tree := t }

/-- `ext4_ext_free_blocks`. -/
def extFreeBlocks (block count : ℕ) : ExtM Unit :=
  Prog.modify fun fs => { fs with freed := fs.freed ++ [(block, count)] }

/-- `ext4_ext_new_meta_block`, the same as `ext4_new_meta_blocks` for a goal
    that only matters to the allocator. -/
def extNewMetaBlock : ExtM ℕ := do
  access
  let fs ← Prog.get
  match fs.fresh with
  | [] => Prog.fail (.rc .ENOSPC)
  | b :: rest => do
    Prog.modify fun fs => { fs with fresh := rest }
    pure b

/-- Hand back single blocks. -/
def extFreeAll : List ℕ → ExtM Unit
  | [] => pure ()
  | b :: bs => do
    extFreeBlocks b 1
    extFreeAll bs

/-- Run `x`; when it fails, run `cleanup` and fail the same way. -/
def onError {α : Type} (x : ExtM α) (cleanup : ExtM Unit) : ExtM α := fun fs =>
  match x fs with
  | (.ok a, fs') => (.ok a, fs')
  | (.error e, fs') => (.error e, (cleanup fs').2)

/-! ## Lookup -/

/-- The current extent of a leaf: `path[depth].extent`, `none` for an empty
    leaf. -/
inductive LeafCursor where
  | none
  | at (left : List Extent) (ex : Extent) (right : List Extent)

/-- The extents of the leaf. -/
def LeafCursor.exts : LeafCursor → List Extent
  | none => []
  | .at left ex right => left ++ ex :: right

/-- A path to a leaf of a tree of depth `D`. -/
structure Path (D : ℕ) where
  maxEntries : ℕ
  leaf : LeafCursor
  ctx : Ctx 0 D

namespace Path
variable {D : ℕ}

/-- The leaf at the end of the path. -/
def node (p : Path D) : Node 0 := Leaf.mk p.maxEntries p.leaf.exts

/-- The tree the path goes through. -/
def plug (p : Path D) : Tree := p.ctx.plug p.node

/-- Has the leaf no room left? -/
def full (p : Path D) : Bool := p.leaf.exts.length = p.maxEntries

end Path

/-- What `ext4_ext_check` compares that a typed node does not ensure. -/
def extCheck : {d : ℕ} → Node d → Bool
  | 0, n => Leaf.maxEntries n ≠ 0 && (Leaf.exts n).length ≤ Leaf.maxEntries n
  | _ + 1, n => IndexNode.maxEntries n ≠ 0 && (IndexNode.ents n).length ≤ IndexNode.maxEntries n

/-- `read_extent_tree_block`. -/
def readExtentTreeBlock {d : ℕ} (n : Node d) : ExtM Unit := do
  access
  if extCheck n then pure () else Prog.fail (.rc Errno.EIO)

/-- `ext4_ext_binsearch`. -/
def extBinsearch (exts : List Extent) (block : ℕ) : LeafCursor :=
  let i := lastLe Extent.firstBlock exts block
  match exts[i]? with
  | some ex => .at (exts.take i) ex (exts.drop (i + 1))
  | none => .none

/-- The walk of `ext4_find_extent` from a node down.  `ext4_ext_binsearch_idx`
    is meant for a node with entries. -/
def findExtentFrom (block : ℕ) : {d D : ℕ} → Node d → Ctx d D → ExtM (Path D)
  | 0, _, n, ctx => pure ⟨Leaf.maxEntries n, extBinsearch (Leaf.exts n) block, ctx⟩
  | _ + 1, _, n, ctx =>
    let ents := IndexNode.ents n
    let i := lastLe Index.firstBlock ents block
    match ents[i]? with
    | none => Prog.fail (.rc Errno.EIO)
    | some ix => do
      readExtentTreeBlock ix.node
      findExtentFrom block ix.node
        (.cons ⟨IndexNode.maxEntries n, ents.take i, ix.firstBlock, ix.leaf, ents.drop (i + 1)⟩ ctx)

/-- `ext4_find_extent` when there is a path to reuse. -/
def findExtentAgain (block : ℕ) : ExtM ((D : ℕ) × Path D) := do
  let fs ← Prog.get
  let p ← findExtentFrom block fs.tree.root .nil
  pure ⟨fs.tree.depth, p⟩

/-- `ext4_find_extent`; the first access is the allocation of the path. -/
def findExtent (block : ℕ) : ExtM ((D : ℕ) × Path D) := do
  access
  findExtentAgain block

/-! ## Inserting into a leaf -/

/-- The length limits of `ext4_ext_can_prepend` and `ext4_ext_can_append`. -/
def extLenFits (ex1 ex2 : Extent) : Bool :=
  if ex1.isUnwritten then decide (ex1.getActualLen + ex2.getActualLen ≤ 2 ^ 15 - 1)
  else decide (ex1.getActualLen + ex2.getActualLen ≤ 2 ^ 15)

/-- `ext4_ext_can_prepend`. -/
def extCanPrepend (ex1 ex2 : Extent) : Bool :=
  decide (ex2.start + ex2.getActualLen = ex1.start) && extLenFits ex1 ex2 &&
    decide (u32 (ex2.firstBlock + ex2.getActualLen) = ex1.firstBlock)

/-- `ext4_ext_can_append`. -/
def extCanAppend (ex1 ex2 : Extent) : Bool :=
  decide (ex1.start + ex1.getActualLen = ex2.start) && extLenFits ex1 ex2 &&
    decide (u32 (ex1.firstBlock + ex1.getActualLen) = ex2.firstBlock)

/-- The extent after `newext` is appended: the length grows. -/
def extAppended (ex newext : Extent) : Extent :=
  ex.setLen (ex.getActualLen + newext.getActualLen) ex.isUnwritten

/-- The extent after `newext` is prepended: the first block changes and the
    length grows. -/
def extPrepended (ex newext : Extent) : Extent :=
  ({ ex with firstBlock := newext.firstBlock } : Extent).setLen
    (ex.getActualLen + newext.getActualLen) ex.isUnwritten

/-- How `ext4_ext_insert_leaf` ends. -/
inductive LeafInsert (D : ℕ) where
  | done (p : Path D)
  | needSplit
  | err

/-- Put the leaf cursor of the path at `leaf`; `ext4_ext_correct_indexes` comes
    after it when the path was at the first extent of the leaf. -/
def Path.withLeaf {D : ℕ} (p : Path D) (leaf : LeafCursor) (first : Option ℕ) : Path D :=
  match first with
  | some border => { p with leaf := leaf, ctx := p.ctx.setBorder border }
  | none => { p with leaf := leaf }

/-- `ext4_ext_insert_leaf`.  The indexes are corrected while the path still
    points at its old position in the leaf.  That a new entry lies within the
    node is checked by the source but follows from the count. -/
def extInsertLeaf {D : ℕ} (p : Path D) (newext : Extent) (noCombine : Bool) : LeafInsert D :=
  match p.leaf with
  | .none =>
    if p.full then .needSplit
    else .done (p.withLeaf (.at [] newext []) (some newext.firstBlock))
  | .at left ex right =>
    if newext.firstBlock = ex.firstBlock then .err
    else if !noCombine && extCanAppend ex newext then
      .done { p with leaf := .at left (extAppended ex newext) right }
    else if !noCombine && extCanPrepend ex newext then
      .done { p with leaf := .at left (extPrepended ex newext) right }
    else if p.full then .needSplit
    else if ex.firstBlock < newext.firstBlock then
      .done (p.withLeaf (.at (left ++ [ex]) newext right)
        (if left = [] then some ex.firstBlock else none))
    else
      .done (p.withLeaf (.at left newext (ex :: right))
        (if left = [] then some newext.firstBlock else none))

/-! ## Splitting nodes and growing the tree -/

/-- Is there an index node with room on the path? -/
def Ctx.hasRoom : {d D : ℕ} → Ctx d D → Bool
  | _, _, .nil => false
  | _, _, .cons l up => decide (l.left.length + 1 + l.right.length < l.maxEntries) || up.hasRoom

/-- A new block for a node: allocated and fetched.  When this fails the blocks
    allocated so far are handed back and the tree is `t`. -/
def newNode (t : Tree) (allocated : List ℕ) : ExtM ℕ := do
  let newblock ← onError extNewMetaBlock (do setTree t; extFreeAll allocated)
  onError access (do setTree t; extFreeBlocks newblock 1; extFreeAll allocated)
  pure newblock

/-- `ext4_ext_split_node` above the leaf.  The node under the path has been cut
    into `left` and `right`, whose block is `newblock` and whose key is
    `insertIndex`.  Full index nodes are cut after the current entry; the first
    one with room takes the new entry (`ext4_ext_insert_index`, which in a
    sorted node inserts after the current entry).  The result leads to `right`
    if `insRight`, else to `left`. -/
def splitUp (insRight : Bool) (insertIndex : ℕ) : {d D : ℕ} → (left right : Node d) →
    (newblock : ℕ) → (allocated : List ℕ) → Ctx d D → ExtM (Ctx d D)
  | _, _, _, _, _, _, .nil => Prog.fail .assert
  | d, _, left, right, newblock, allocated, .cons l up =>
    if l.left.length + 1 + l.right.length < l.maxEntries then
      if insertIndex = l.firstBlock then do
        setTree ((Ctx.cons l up).plug left)
        extFreeAll allocated
        Prog.fail (.rc Errno.EIO)
      else if insRight then
        pure (.cons ⟨l.maxEntries, l.left ++ [⟨l.firstBlock, l.leaf, left⟩], insertIndex, newblock,
          l.right⟩ up)
      else
        pure (.cons { l with right := ⟨insertIndex, newblock, right⟩ :: l.right } up)
    else do
      let fs ← Prog.get
      let cap := extSpaceBlockIdx fs.blockSize
      let upblock ← newNode ((Ctx.cons l up).plug left) allocated
      let upLeft : Node (d + 1) :=
        IndexNode.mk l.maxEntries (l.left ++ [⟨l.firstBlock, l.leaf, left⟩])
      let upRight : Node (d + 1) := IndexNode.mk cap (⟨insertIndex, newblock, right⟩ :: l.right)
      let up' ← splitUp insRight insertIndex upLeft upRight upblock (allocated ++ [upblock]) up
      if insRight then pure (.cons ⟨cap, [], insertIndex, newblock, l.right⟩ up')
      else pure (.cons { l with right := [] } up')

/-- `ext4_ext_split_node` for a full leaf, followed by the choice of the path
    in `ext4_ext_insert_extent`. -/
def extSplitNode {D : ℕ} (p : Path D) (newext : Extent) : ExtM (Path D) :=
  match p.leaf with
  | .none => Prog.fail .assert
  | .at left ex right => do
    let insertIndex :=
      match right with
      | next :: _ => next.firstBlock
      | [] => newext.firstBlock
    let fs ← Prog.get
    let cap := extSpaceBlock fs.blockSize
    let newblock ← newNode p.plug []
    let insRight := !decide (newext.firstBlock < insertIndex)
    let ctx ← splitUp insRight insertIndex (Leaf.mk p.maxEntries (left ++ [ex]) : Node 0)
      (Leaf.mk cap right : Node 0) newblock [newblock] p.ctx
    if insRight then
      pure ⟨cap, (match right with | [] => .none | e :: es => .at [] e es), ctx⟩
    else pure ⟨p.maxEntries, .at left ex [], ctx⟩

/-- A node with another `max_entries_count`. -/
def Node.setMax : {d : ℕ} → Node d → ℕ → Node d
  | 0, n, m => Leaf.mk m (Leaf.exts n)
  | _ + 1, n, m => IndexNode.mk m (IndexNode.ents n)

/-- `max_entries_count` of a node. -/
def Node.maxEntries : {d : ℕ} → Node d → ℕ
  | 0, n => Leaf.maxEntries n
  | _ + 1, n => IndexNode.maxEntries n

/-- The tree `ext4_ext_grow_indepth` makes: the old root moves to `newblock`. -/
def Tree.grown (blockSize newblock : ℕ) (t : Tree) : Tree where
  depth := t.depth + 1
  root := IndexNode.mk (if t.depth = 0 then extSpaceRootIdx else t.root.maxEntries)
    [⟨t.root.low 0, newblock, t.root.setMax
      (if t.depth = 0 then extSpaceBlock blockSize else extSpaceBlockIdx blockSize)⟩]

/-- `ext4_ext_grow_indepth`. -/
def extGrowIndepth : ExtM Unit := do
  let newblock ← extNewMetaBlock
  onError access (extFreeBlocks newblock 1)
  Prog.modify fun fs => { fs with tree := fs.tree.grown fs.blockSize newblock }

/-! ## Inserting an extent -/

/-- `ext4_ext_insert_extent` on a path into the current tree; `fuel` bounds the
    jumps to `again`. -/
def extInsertExtent (newext : Extent) (noCombine : Bool) : ℕ → (D : ℕ) → Path D → ExtM Unit
  | 0, _, _ => Prog.fail .assert
  | fuel + 1, D, p =>
    match extInsertLeaf p newext noCombine with
    | .done p' => setTree p'.plug
    | .err => Prog.fail (.rc Errno.EIO)
    | .needSplit =>
      if p.ctx.hasRoom then do
        access
        let p' ← extSplitNode p newext
        setTree p'.plug
        extInsertExtent newext noCombine fuel D p'
      else do
        extGrowIndepth
        let ⟨D', p'⟩ ← findExtentAgain newext.firstBlock
        if D = 0 then extInsertExtent newext noCombine fuel D' p'
        else do
          access
          let p'' ← extSplitNode p' newext
          setTree p''.plug
          extInsertExtent newext noCombine fuel D' p''

/-- `ext4_find_extent` for the first block of `newext` and
    `ext4_ext_insert_extent` on the path found. -/
def extFindInsert (newext : Extent) (noCombine : Bool) (fuel : ℕ) : ExtM Unit := do
  let ⟨D, p⟩ ← findExtent newext.firstBlock
  extInsertExtent newext noCombine fuel D p

end Lwext4
