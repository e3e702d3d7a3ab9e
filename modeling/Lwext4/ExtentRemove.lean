/-
  `ext4_extent.c`: removing a range of logical blocks.

  `ext4_extent_remove_space` walks over the tree from the extent that maps the
  first block of the range.  Where the walk is, the source keeps in the path:
  at an extent of a leaf or at an entry of an index node, with what has been
  passed left of it (`RmPos`).  One round of its loop is `rmStep`.
-/
import Lwext4.ExtentOps

namespace Lwext4

open Lib

/-! ## Leaves -/

/-- The part of an extent before block `b`. -/
def Extent.headTo (b : ℕ) (e : Extent) : Extent := e.setLen (b - e.firstBlock) e.isUnwritten

/-- The part of an extent from block `b` on. -/
def Extent.tailFrom (b : ℕ) (e : Extent) : Extent :=
  ({ e with firstBlock := b, start := e.start + (b - e.firstBlock) } : Extent).setLen
    (e.firstBlock + e.getActualLen - b) e.isUnwritten

/-- What the loop of `ext4_ext_remove_leaf` leaves: the extents it has passed,
    rewritten in place, the ranges it has freed, and `start_ex`, `ex2`
    (an index in the leaf) and `new_entries`. -/
structure LeafScan where
  exts : List Extent
  freed : List (ℕ × ℕ)
  startEx : ℕ
  ex2 : ℕ
  newEntries : ℕ

/-- The loop of `ext4_ext_remove_leaf` at index `i` of the leaf. -/
def removeLeafLoop (from' to' : ℕ) : List Extent → (i startEx : ℕ) → (ex2 : Option ℕ) →
    (newEntries : ℕ) → LeafScan
  | [], i, startEx, ex2, newEntries => ⟨[], [], startEx, ex2.getD i, newEntries⟩
  | ex :: exts, i, startEx, ex2, newEntries =>
    if ex.firstBlock ≤ to' then
      let start := ex.firstBlock
      let len := ex.getActualLen
      if start < from' then
        -- the head stays
        let r := removeLeafLoop from' to' exts (i + 1) (startEx + 1) ex2 newEntries
        { r with
          exts := ex.headTo from' :: r.exts
          freed := (ex.start + (from' - start), len - (from' - start)) :: r.freed }
      else if to' < start + len - 1 then
        -- the tail stays
        let newLen := start + len - 1 - to'
        let r := removeLeafLoop from' to' exts (i + 1) startEx (some i) newEntries
        { r with
          exts := ex.tailFrom (to' + 1) :: r.exts
          freed := (ex.start, len - newLen) :: r.freed }
      else
        let r := removeLeafLoop from' to' exts (i + 1) startEx ex2 (newEntries - 1)
        { r with exts := ex :: r.exts, freed := (ex.start, len) :: r.freed }
    else ⟨ex :: exts, [], startEx, ex2.getD i, newEntries⟩

/-- `ext4_ext_remove_leaf` on the extents of a leaf, the path being at the first
    one of `rest`: the extents left and the ranges freed. -/
def removeLeafExts (from' to' : ℕ) (left rest : List Extent) : List Extent × List (ℕ × ℕ) :=
  let n := left.length
  let r := removeLeafLoop from' to' rest n n none (n + rest.length)
  let exts := left ++ r.exts
  ((exts.take r.startEx ++ exts.drop r.ex2).take r.newEntries, r.freed)

/-- `leaf_from` and `leaf_to` of `ext4_extent_remove_space`; `none` for an empty
    leaf. -/
def leafRange (from' to' : ℕ) (exts : List Extent) : Option (ℕ × ℕ) :=
  match exts.head?, exts.getLast? with
  | some first, some last =>
    some (max first.firstBlock from', min (last.firstBlock + last.getActualLen - 1) to')
  | _, _ => none

/-! ## The walk -/

/-- Where the removal is in a tree of depth `D`: at the first extent or entry
    of `rest`. -/
inductive RmPos (D : ℕ) where
  | leaf (maxEntries : ℕ) (left rest : List Extent) (ctx : Ctx 0 D)
  | index (d maxEntries : ℕ) (left rest : List (Index (Node d))) (ctx : Ctx (d + 1) D)

namespace RmPos
variable {D : ℕ}

/-- The tree as it is. -/
def tree : RmPos D → Tree
  | leaf maxEntries left rest ctx => ctx.plug (Leaf.mk maxEntries (left ++ rest))
  | index _ maxEntries left rest ctx => ctx.plug (IndexNode.mk maxEntries (left ++ rest))

/-- At the start of a node. -/
def enter : {d : ℕ} → Node d → Ctx d D → RmPos D
  | 0, n, ctx => leaf (Leaf.maxEntries n) [] (Leaf.exts n) ctx
  | d + 1, n, ctx => index d (IndexNode.maxEntries n) [] (IndexNode.ents n) ctx

/-- Past the entry of node `n`: `index++` in the level above. -/
def past {d : ℕ} (l : Level (Node d)) (up : Ctx (d + 1) D) (n : Node d) : RmPos D :=
  index d l.maxEntries (l.left ++ [⟨l.firstBlock, l.leaf, n⟩]) l.right up

/-- `ext4_ext_remove_idx`, less the freeing.  When the entry was the first one
    of its node, the key left in its place goes to the levels above: the key of
    the next entry, or its own if there is none. -/
def removeIdx {d : ℕ} (l : Level (Node d)) (up : Ctx (d + 1) D) : RmPos D :=
  index d l.maxEntries l.left l.right
    (if l.left = [] then up.setBorder (top Index.firstBlock l.firstBlock l.right) else up)

/-- `ext4_ext_more_to_rm`: the entry to go on with. -/
def moreToRm {d : ℕ} (to' : ℕ) : List (Index (Node d)) → Option (Index (Node d))
  | [] => none
  | ix :: _ => if to' < ix.firstBlock then none else some ix

end RmPos

/-- Hand back ranges of blocks. -/
def extFreeRanges : List (ℕ × ℕ) → ExtM Unit
  | [] => pure ()
  | (block, count) :: rs => do
    extFreeBlocks block count
    extFreeRanges rs

/-- Leave node `n`, which is `empty` or not, for the level above: its entry is
    removed or passed.  `none` above the root. -/
def rmLeave {D : ℕ} : {d : ℕ} → (n : Node d) → (empty : Bool) → Ctx d D → ExtM (Option (RmPos D))
  | _, n, _, .nil => do
    setTree ⟨_, n⟩
    pure none
  | _, n, empty, .cons l up =>
    if empty then do
      extFreeBlocks l.leaf 1
      pure (some (.removeIdx l up))
    else pure (some (.past l up n))

/-- The indexes are corrected when the path was at the first extent of the leaf
    and the leaf is not empty. -/
def borderAfter {D : ℕ} (left exts : List Extent) (ctx : Ctx 0 D) : Ctx 0 D :=
  match left, exts with
  | [], ex :: _ => ctx.setBorder ex.firstBlock
  | _, _ => ctx

/-- `ext4_ext_remove_leaf`. -/
def extRemoveLeaf {D : ℕ} (from' to' maxEntries : ℕ) (left rest : List Extent) (ctx : Ctx 0 D) :
    ExtM (Option (RmPos D)) := do
  let (exts, freed) := removeLeafExts from' to' left rest
  extFreeRanges freed
  rmLeave (d := 0) (Leaf.mk maxEntries exts) exts.isEmpty (borderAfter left exts ctx)

/-- One round of the loop of `ext4_extent_remove_space`; `none` at its end. -/
def rmStep {D : ℕ} (from' to' : ℕ) : RmPos D → ExtM (Option (RmPos D))
  | .leaf maxEntries left rest ctx =>
    match leafRange from' to' (left ++ rest) with
    | none => Prog.fail .assert
    | some (leafFrom, leafTo) => extRemoveLeaf leafFrom leafTo maxEntries left rest ctx
  | .index d maxEntries left rest ctx =>
    match RmPos.moreToRm to' rest with
    | some ix => do
      readExtentTreeBlock ix.node
      pure (some (.enter ix.node (.cons ⟨maxEntries, left, ix.firstBlock, ix.leaf, rest.tail⟩ ctx)))
    | none =>
      rmLeave (d := d + 1) (IndexNode.mk maxEntries (left ++ rest)) (left ++ rest).isEmpty ctx

/-- The loop of `ext4_extent_remove_space`; `fuel` bounds its rounds. -/
def rmLoop {D : ℕ} (from' to' : ℕ) : ℕ → RmPos D → ExtM Unit
  | 0, _ => Prog.fail .assert
  | fuel + 1, pos => do
    match ← rmStep from' to' pos with
    | none => pure ()
    | some pos' => do
      setTree pos'.tree
      rmLoop from' to' fuel pos'

/-- Has the node no entries? -/
def Node.isEmpty : {d : ℕ} → Node d → Bool
  | 0, n => (Leaf.exts n).isEmpty
  | _ + 1, n => (IndexNode.ents n).isEmpty

/-- The end of `ext4_extent_remove_space`: a root without entries becomes an
    empty leaf. -/
def rmFinish : ExtM Unit :=
  Prog.modify fun fs =>
    if fs.tree.root.isEmpty then { fs with tree := ⟨0, (Leaf.mk extSpaceRoot [] : Node 0)⟩ } else fs

/-- Is the range inside the extent, with a block of the extent on either side? -/
def Extent.inside (e : Extent) (from' to' : ℕ) : Bool :=
  decide (e.firstBlock < from' ∧ to' < e.firstBlock + e.getActualLen - 1)

/-- `ext4_extent_remove_space`. -/
def extentRemoveSpace (from' to' fuel : ℕ) : ExtM Unit := do
  let ⟨D, p⟩ ← findExtent from'
  match p.leaf with
  | .none => pure ()
  | .at left ex right =>
    if !ex.covers from' then pure ()
    else if ex.inside from' to' then do
      let p' : Path D := { p with leaf := .at left (ex.headTo from') right }
      setTree p'.plug
      extInsertExtent (ex.tailFrom (to' + 1)) false fuel D p'
    else do
      rmLoop from' to' fuel (.leaf p.maxEntries left (ex :: right) p.ctx)
      rmFinish

end Lwext4
