/-
  `ext4_extent_get_blocks`: looking a logical block up, and mapping it.

  `ext4_ext_insert_extent` is followed once more here, with what it leaves in
  `*ppath`: the split of an extent inserts its second half and goes on with the
  path.  What is written to the data blocks is not part of the state.
-/
import Lwext4.ExtentGrow
import Lwext4.ExtentOrder

namespace Lwext4

open Lib

/-- The value `to_le16` stores. -/
def toLe16 (n : ℕ) : ℕ := n % 2 ^ 16

/-- The value `ext4_ext_store_pblock` stores: 32 and 16 bits. -/
def u48 (n : ℕ) : ℕ := n % 2 ^ 48

/-- `ext4_ext_mark_initialized`. -/
def Extent.markInitialized (e : Extent) : Extent := { e with blockCount := e.getActualLen }

/-- `IN_RANGE` of an extent, in 32 bits. -/
def Extent.inRange (e : Extent) (b : ℕ) : Bool :=
  decide (e.firstBlock ≤ b ∧ b ≤ sub32 (e.firstBlock + e.getActualLen) 1)

/-- Run `x` and go on with its code. -/
def attempt {α : Type} (x : ExtM α) : ExtM (Except Errno α) := fun fs =>
  match x fs with
  | (.ok a, fs') => (.ok (.ok a), fs')
  | (.error (.rc e), fs') => (.ok (.error e), fs')
  | (.error .assert, fs') => (.error .assert, fs')

/-- How `ext4_ext_insert_extent` ends: with the path to the new extent in
    `*ppath`, or with an error.  Then the blocks of the path are released, and
    `*ppath` is `NULL` if the path was to be found again. -/
inductive InsertPath where
  | done (D : ℕ) (p : Path D)
  | failed (e : Errno) (null : Bool)

/-- `ext4_ext_insert_extent` with its path. -/
def extInsertPath (newext : Extent) (noCombine : Bool) : ℕ → (D : ℕ) → Path D → ExtM InsertPath
  | 0, _, _ => Prog.fail .assert
  | fuel + 1, D, p =>
    match extInsertLeaf p newext noCombine with
    | .done p' => do
      setTree p'.plug
      pure (.done D p')
    | .err => pure (.failed Errno.EIO false)
    | .needSplit =>
      if p.ctx.hasRoom then do
        match ← attempt (do access; extSplitNode p newext) with
        | .error e => pure (.failed e false)
        | .ok p' => do
          setTree p'.plug
          extInsertPath newext noCombine fuel D p'
      else do
        match ← attempt extGrowIndepth with
        | .error e => pure (.failed e false)
        | .ok () =>
          match ← attempt (findExtentAgain newext.firstBlock) with
          | .error e => pure (.failed e true)
          | .ok ⟨D', p'⟩ =>
            if D = 0 then extInsertPath newext noCombine fuel D' p'
            else do
              match ← attempt (do access; extSplitNode p' newext) with
              | .error e => pure (.failed e false)
              | .ok p'' => do
                setTree p''.plug
                extInsertPath newext noCombine fuel D' p''

/-- Store `len` in the extent that starts at block `b`. -/
def Node.setLenAt (b len : ℕ) : {d : ℕ} → Node d → Node d
  | 0, n => Leaf.mk (Leaf.maxEntries n) ((Leaf.exts n).map fun e =>
      if e.firstBlock = b then { e with blockCount := len } else e)
  | _ + 1, n => IndexNode.mk (IndexNode.maxEntries n) ((IndexNode.ents n).map fun e =>
      { e with node := setLenAt b len e.node })

/-- `restore_extent_len` of `ext4_ext_split_extent_at`: `ex` still points at
    the entry of the extent, which the failed insertion has not moved. -/
def restoreExtentLen (eeBlock eeLen : ℕ) : ExtM Unit := Prog.modify fun fs =>
  { fs with tree := ⟨fs.tree.depth, fs.tree.root.setLenAt eeBlock eeLen⟩ }

/-- The second half of extent `ex` cut at `split`. -/
def splitNewex (ex : Extent) (split : ℕ) (unwrit2 : Bool) : Extent :=
  let off := sub32 split ex.firstBlock
  ({ firstBlock := split, blockCount := 0, start := u48 (off + ex.start) } : Extent).setLen
    (toLe16 (sub32 ex.getActualLen off)) unwrit2

/-- `ext4_ext_split_extent_at`; `unwrit1` and `unwrit2` are the flags
    `EXT4_EXT_MARK_UNWRIT1` and `EXT4_EXT_MARK_UNWRIT2`.  The result is
    `*ppath`, `none` if its blocks are released. -/
def extSplitExtentAt (fuel D : ℕ) (p : Path D) (split : ℕ) (unwrit1 unwrit2 : Bool) :
    ExtM (Option ((D : ℕ) × Path D)) :=
  match p.leaf with
  | .none => Prog.fail .assert
  | .at left ex right =>
    if split = ex.firstBlock then do
      let p' : Path D := { p with
        leaf := .at left (if unwrit2 then ex.markUnwritten else ex.markInitialized) right }
      setTree p'.plug
      pure (some ⟨D, p'⟩)
    else do
      let p' : Path D := { p with
        leaf := .at left (ex.setLen (toLe16 (sub32 split ex.firstBlock)) unwrit1) right }
      setTree p'.plug
      match ← extInsertPath (splitNewex ex split unwrit2) true fuel D p' with
      | .done D' p'' => pure (some ⟨D', p''⟩)
      | .failed _ null =>
        -- a null path is dereferenced; else the code of the insertion is
        -- replaced by that of `ext4_ext_dirty`
        if null then Prog.fail .assert
        else do
          restoreExtentLen ex.firstBlock ex.getActualLen
          pure none

/-- `ext4_ext_convert_to_initialized`.  After a failed first split the source
    goes on with pointers into released buffers. -/
def extConvertToInitialized (fuel D : ℕ) (p : Path D) (split blocks : ℕ) : ExtM Unit :=
  match p.leaf with
  | .none => Prog.fail .assert
  | .at _ ex _ =>
    if split < ex.firstBlock then Prog.fail .assert
    else if u32 (split + blocks) = u32 (ex.firstBlock + ex.getActualLen) then do
      let _ ← extSplitExtentAt fuel D p split true false
      pure ()
    else if ex.firstBlock = split then do
      let _ ← extSplitExtentAt fuel D p (u32 (split + blocks)) false true
      pure ()
    else do
      match ← extSplitExtentAt fuel D p (u32 (split + blocks)) true true with
      | none => Prog.fail .assert
      | some ⟨D', p'⟩ => do
        let _ ← extSplitExtentAt fuel D' p' split true false
        pure ()

/-- `ext4_ext_zero_unwritten_range`, without the data written: each block is
    fetched and released. -/
def extZeroUnwrittenRange : (blocksCount : ℕ) → ExtM Unit
  | 0 => pure ()
  | n + 1 => do
    access
    access
    extZeroUnwrittenRange n

/-- The part of `ext4_extent_get_blocks` for a block that extent `ex`
    covers. -/
def extGetCovered (iblock maxBlocks : ℕ) (create : Bool) (fuel D : ℕ) (p : Path D) (ex : Extent) :
    ExtM (ℕ × ℕ) :=
  let allocated := ex.getActualLen - (iblock - ex.firstBlock)
  let newblock := iblock - ex.firstBlock + ex.start
  if !ex.isUnwritten then pure (newblock, min allocated maxBlocks)
  else if !create then pure (0, min allocated maxBlocks)
  else do
    extZeroUnwrittenRange (min allocated maxBlocks)
    extConvertToInitialized fuel D p iblock (min allocated maxBlocks)
    pure (newblock, min allocated maxBlocks)

/-- The part of `ext4_extent_get_blocks` for a block in a hole.  However many
    blocks are asked for, `ext4_new_meta_blocks` allocates one. -/
def extGetHole (iblock maxBlocks : ℕ) (create : Bool) (fuel D : ℕ) (p : Path D) : ExtM (ℕ × ℕ) :=
  if !create then pure (0, 0)
  else do
    let newblock ← extNewMetaBlock
    onError (extInsertExtent { firstBlock := iblock, blockCount := 1, start := newblock } false
      fuel D p) (extFreeBlocks newblock 1)
    pure (newblock, min 1 maxBlocks)

/-- `ext4_extent_get_blocks` once the path is found. -/
def extGetAt (iblock maxBlocks : ℕ) (create : Bool) (fuel D : ℕ) (p : Path D) : ExtM (ℕ × ℕ) :=
  match p.leaf with
  | .none => extGetHole iblock maxBlocks create fuel D p
  | .at _ ex _ =>
    if ex.inRange iblock then extGetCovered iblock maxBlocks create fuel D p ex
    else extGetHole iblock maxBlocks create fuel D p

/-- `ext4_extent_get_blocks`: `*result` and `*blocks_count`. -/
def extentGetBlocks (iblock maxBlocks : ℕ) (create : Bool) (fuel : ℕ) : ExtM (ℕ × ℕ) := do
  let r ← findExtent iblock
  extGetAt iblock maxBlocks create fuel r.1 r.2

/-! ## Looking a block up -/

section Lookup

variable {cap : ℕ}

theorem Extent.inRange_eq {e : Extent} {hi : ℕ} (h : e.Ok hi) (hhi : hi ≤ 2 ^ 32) (b : ℕ) :
    e.inRange b = e.covers b := by
  have h1 := h.1
  have h2 := h.2.1
  have hsub : sub32 (e.firstBlock + e.getActualLen) 1 = e.firstBlock + e.getActualLen - 1 := by
    unfold sub32
    omega
  unfold Extent.inRange
  rw [hsub, Bool.eq_iff_iff, decide_eq_true_eq, Extent.covers_iff]
  omega

/-- The extent at the cursor ends below `2 ^ 32`. -/
theorem Path.Fits.extent_ok {D b : ℕ} {p : Path D} (hp : p.Fits cap b) {left right : List Extent}
    {ex : Extent} (hl : p.leaf = .at left ex right) : ex.Ok (2 ^ 32) := by
  obtain ⟨-, -, -, hex, hright, -, -⟩ := hp.leaf_ok hl
  exact hex.mono ((hright.top_le extent_lt).trans hp.ctx.ceil_le)

/-- At most one extent of a sorted list covers a block. -/
theorem filter_covers_le {hi b : ℕ} : ∀ {es : List Extent},
    Chain Extent.firstBlock Extent.Ok hi es → (es.filter (·.covers b)).length ≤ 1
  | [], _ => Nat.zero_le 1
  | e :: es, h => by
    have ih := filter_covers_le (b := b) h.2
    rw [List.filter_cons]
    split_ifs with hc
    · have hend := h.1.2.1
      have hb := (Extent.covers_iff.1 hc).2
      have hnone : es.filter (·.covers b) = [] := by
        rw [List.filter_eq_nil_iff]
        intro e' he'
        have hkey := (h.2.key_lt extent_lt e' he').1
        have htop : top Extent.firstBlock hi es ≤ e'.firstBlock := by
          obtain ⟨as, bs, rfl⟩ := List.append_of_mem he'
          have hc' := (chain_append as (e' :: bs)).1 h.2
          rw [top_append]
          exact hc'.1.top_le extent_lt
        rw [Extent.covers_iff]
        omega
      rw [hnone]
      simp
    · exact ih

/-- What a lookup of block `b` says: the physical block and the length of the
    run. -/
structure LooksUp (t : Tree) (b maxBlocks : ℕ) (r : ℕ × ℕ) : Prop where
  unique : (t.root.extents.filter (·.covers b)).length ≤ 1
  written : ∀ e ∈ t.root.extents, e.covers b = true → e.isUnwritten = false →
    r.1 = e.start + (b - e.firstBlock)
  unwritten : ∀ e ∈ t.root.extents, e.covers b = true → e.isUnwritten = true → r.1 = 0
  hole : (∀ e ∈ t.root.extents, e.covers b = false) → r = (0, 0)
  run : ∀ e ∈ t.root.extents, e.covers b = true → b + r.2 ≤ e.firstBlock + e.getActualLen ∧
    r.2 = min (e.firstBlock + e.getActualLen - b) maxBlocks

/-- The extent that covers a block is the one the map is read from. -/
theorem map_of_covers {t : Tree} {b : ℕ} (h1 : (t.root.extents.filter (·.covers b)).length ≤ 1)
    {e : Extent} (he : e ∈ t.root.extents) (hc : e.covers b = true) :
    t.root.extents.find? (·.covers b) = some e := by
  have hmem : e ∈ t.root.extents.filter (·.covers b) := List.mem_filter.2 ⟨he, hc⟩
  rw [← List.head?_filter]
  rcases hf : t.root.extents.filter (·.covers b) with - | ⟨a, as⟩
  · rw [hf] at hmem
    cases hmem
  · rw [hf, List.length_cons] at h1
    obtain rfl : as = [] := List.eq_nil_of_length_eq_zero (by omega)
    rw [hf, List.mem_singleton] at hmem
    rw [hf, hmem]
    rfl

/-- **A lookup through a path that fits the block.** -/
theorem looksUp_of_fits {D b maxBlocks fuel : ℕ} {p : Path D} (hp : p.Fits cap b)
    (hok : p.plug.root.Ok cap Tree.rootSpace (2 ^ 32)) (fs : ExtFs) :
    ∃ r, extGetAt b maxBlocks false fuel D p fs = (.ok r, fs) ∧
      LooksUp p.plug b maxBlocks r := by
  have hunique := filter_covers_le (b := b) hok.chain.1
  unfold extGetAt
  have hmap := hp.map_eq
  -- no extent covers the block when the map is undefined there
  have hhole : p.plug.map b = none → LooksUp p.plug b maxBlocks (0, 0) := by
    intro hnone
    have hno : ∀ e ∈ p.plug.root.extents, e.covers b = false := by
      unfold Tree.map mapOf at hnone
      rw [Option.map_eq_none_iff, List.find?_eq_none] at hnone
      intro e he
      exact Bool.eq_false_iff.2 (hnone e he)
    refine ⟨hunique, ?_, ?_, fun _ => rfl, ?_⟩
    all_goals
      intro e he hc
      rw [hno e he] at hc
      cases hc
  rcases hl : p.leaf with - | ⟨left, ex, right⟩
  · rw [hl] at hmap
    exact ⟨(0, 0), rfl, hhole hmap⟩
  · rw [hl] at hmap
    simp only at hmap ⊢
    have hex := hp.extent_ok hl
    rw [Extent.inRange_eq hex le_rfl]
    by_cases hc : ex.covers b = true
    · rw [if_pos hc] at hmap ⊢
      have hcov := Extent.covers_iff.1 hc
      have hmem : ex ∈ p.plug.root.extents := by
        rw [Path.plug, Ctx.plug_extents]
        refine List.mem_append.2 (.inl (List.mem_append.2 (.inr ?_)))
        show ex ∈ p.leaf.exts
        rw [hl]
        simp [LeafCursor.exts]
      -- any extent that covers the block is the one at the cursor
      have heq : ∀ e ∈ p.plug.root.extents, e.covers b = true → e = ex := by
        intro e he hec
        have h1 := map_of_covers hunique he hec
        rw [map_of_covers hunique hmem hc, Option.some.injEq] at h1
        exact h1.symm
      unfold extGetCovered
      cases hu : ex.isUnwritten
      · refine ⟨_, rfl, hunique, ?_, ?_, fun hno => ?_, ?_⟩
        · intro e he hec _
          rw [heq e he hec]
          exact Nat.add_comm _ _
        · intro e he hec hue
          rw [heq e he hec, hu] at hue
          cases hue
        · rw [hno ex hmem] at hc
          cases hc
        · intro e he hec
          rw [heq e he hec]
          simp only
          omega
      · refine ⟨_, rfl, hunique, ?_, ?_, fun hno => ?_, ?_⟩
        · intro e he hec hue
          rw [heq e he hec, hu] at hue
          cases hue
        · intro e _ _ _
          rfl
        · rw [hno ex hmem] at hc
          cases hc
        · intro e he hec
          rw [heq e he hec]
          simp only
          omega
    · rw [if_neg hc] at hmap ⊢
      exact ⟨(0, 0), rfl, hhole hmap⟩

theorem access_run {fs : ExtFs} (hf : fs.faults = []) : access fs = (.ok (), fs) := by
  simp [access, hf]

/-- Without faults the walk ends. -/
theorem findExtentFrom_total {b : ℕ} : ∀ {d D : ℕ} (n : Node d) (ctx : Ctx d D) {c hi : ℕ},
    n.Ok cap c hi → ∃ p, ∀ fs : ExtFs, fs.faults = [] → findExtentFrom b n ctx fs = (.ok p, fs)
  | 0, _, _, _, _, _, _ => ⟨_, fun _ _ => rfl⟩
  | d + 1, D, n, ctx, c, hi, hn => by
    obtain ⟨-, -, -, hne, hchain⟩ := Node.ok_index.1 hn
    obtain ⟨ix, hget, hsplit, -, -⟩ := lastLe_spec entry_lt hchain hne b
    have hix : ∃ h, EntryOk cap ix h := by
      have hc := hchain
      rw [hsplit, chain_append, chain_cons] at hc
      exact ⟨_, hc.2.1⟩
    obtain ⟨h, -, -, hnode⟩ := hix
    have hcheck : extCheck ix.node = true := by
      rcases d with - | d
      · have h1 := Node.ok_leaf.1 hnode
        simp only [extCheck, Bool.and_eq_true, decide_eq_true_eq]
        exact ⟨by omega, h1.2.2.1⟩
      · have h1 := Node.ok_index.1 hnode
        simp only [extCheck, Bool.and_eq_true, decide_eq_true_eq]
        exact ⟨by omega, h1.2.2.1⟩
    obtain ⟨p, hp⟩ := findExtentFrom_total (b := b) ix.node (.cons ⟨IndexNode.maxEntries n,
      (IndexNode.ents n).take (lastLe Index.firstBlock (IndexNode.ents n) b), ix.firstBlock, ix.leaf,
      (IndexNode.ents n).drop (lastLe Index.firstBlock (IndexNode.ents n) b + 1)⟩ ctx) hnode
    refine ⟨p, fun fs hf => ?_⟩
    have hread : readExtentTreeBlock ix.node fs = (.ok (), fs) := by
      unfold readExtentTreeBlock
      rw [Prog.bind_run]
      simp only [access_run hf, hcheck]
      rfl
    unfold findExtentFrom
    simp only [hget]
    rw [Prog.bind_run, hread]
    exact hp fs hf

/-- **`ext4_find_extent` followed by `ext4_extent_get_blocks`** without
    `create`: it changes nothing and is exact, and it fails only when a device
    access or the allocation of the path does. -/
theorem extentGetBlocks_lookup (fs : ExtFs) {b : ℕ} (maxBlocks fuel : ℕ) (hb : b < 2 ^ 32)
    (hok : fs.tree.root.Ok cap Tree.rootSpace (2 ^ 32)) :
    (∀ r fs', extentGetBlocks b maxBlocks false fuel fs = (.ok r, fs') →
      fs.Same fs' ∧ LooksUp fs.tree b maxBlocks r) ∧
    (∀ e fs', extentGetBlocks b maxBlocks false fuel fs = (.error e, fs') →
      fs.Same fs' ∧ e ≠ .assert ∧ fs.faults ≠ []) := by
  have hfind := sat_findExtent fs hb hok fs rfl
  unfold extentGetBlocks
  rcases hrun : findExtent b fs with ⟨e | ⟨D, p⟩, fs₁⟩ <;> rw [hrun] at hfind
  · rw [Prog.bind_error hrun]
    refine ⟨nofun, ?_⟩
    rintro e' fs' h
    cases h
    refine ⟨hfind.1, hfind.2, fun hf => ?_⟩
    -- without faults there is no error
    obtain ⟨p, hp⟩ := findExtentFrom_total (b := b) fs.tree.root .nil hok
    unfold findExtent findExtentAgain at hrun
    rw [Prog.bind_ok (access_run hf), Prog.bind_ok (Prog.get_run fs), Prog.bind_ok (hp fs hf)] at hrun
    cases hrun
  · rw [Prog.bind_ok hrun]
    obtain ⟨hsame, hfound⟩ := hfind
    have hfits := hfound.fits
    have hplug := hfound.plug
    have hok' := hok
    rw [← hplug] at hok'
    obtain ⟨r, hr, hlook⟩ := @looksUp_of_fits _ _ _ maxBlocks fuel _ hfits hok' fs₁
    rw [hplug] at hlook
    refine ⟨?_, ?_⟩
    · intro r' fs' h
      rw [hr] at h
      cases h
      exact ⟨hsame, hlook⟩
    · intro e fs' h
      rw [hr] at h
      cases h

/-- Blocks 21 and 22 of this file, in its second leaf, are blocks 201 and 202 of the device. -/
theorem lookup_leavesFs : (extentGetBlocks 21 5 false 2 leavesFs).1 = .ok (201, 2) ∧
    LooksUp leavesFs.tree 21 5 (201, 2) := by
  have h1 : (extentGetBlocks 21 5 false 2 leavesFs).1 = .ok (201, 2) := by decide +kernel
  have hrun : extentGetBlocks 21 5 false 2 leavesFs =
    (.ok (201, 2), (extentGetBlocks 21 5 false 2 leavesFs).2) := Prod.ext h1 rfl
  exact ⟨h1, ((extentGetBlocks_lookup leavesFs 5 2 (by decide) leavesFs_ok.node).1 _ _ hrun).2⟩

end Lookup

end Lwext4
