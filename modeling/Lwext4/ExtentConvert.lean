/-
  Splitting an extent and `ext4_ext_convert_to_initialized`.

  A failed insertion of the second half is never reported
  (`splitExtentAt_not_reported`), and a range strictly inside an extent is
  never converted correctly: the second split works on the extent the first one
  has inserted (`convertToInitialized_exact_iff`).
-/
import Lwext4.ExtentBlocks

namespace Lwext4

open Lib

variable {newext : Extent} {noCombine : Bool}

theorem attempt_bind {α β : Type} (x : ExtM α) (f : Except Errno α → ExtM β) (fs : ExtFs) :
    (attempt x >>= f) fs = match x fs with
      | (.ok a, fs') => f (.ok a) fs'
      | (.error (.rc e), fs') => f (.error e) fs'
      | (.error .assert, fs') => (.error .assert, fs') := by
  rw [Prog.bind_run]
  unfold attempt
  rcases x fs with ⟨e | a, fs'⟩
  · cases e <;> rfl
  · rfl

/-- The part of the insertion that splits nodes, on its path or on the one found
    again. -/
def extSplitPath (newext : Extent) (noCombine : Bool) (fuel D : ℕ) (p : Path D) :
    ExtM InsertPath := do
  match ← attempt (do access; extSplitNode p newext) with
  | .error e => pure (.failed e false)
  | .ok p' => do
    setTree p'.plug
    extInsertPath newext noCombine fuel D p'

/-- **The insertion with its path is `ext4_ext_insert_extent`.** -/
theorem extInsertPath_run : ∀ (fuel : ℕ) {D : ℕ} (p : Path D) (fs : ExtFs),
    extInsertExtent newext noCombine fuel D p fs =
      match extInsertPath newext noCombine fuel D p fs with
      | (.ok (.done _ _), fs') => (.ok (), fs')
      | (.ok (.failed e _), fs') => (.error (.rc e), fs')
      | (.error e, fs') => (.error e, fs')
  | 0, _, _, _ => rfl
  | fuel + 1, D, p, fs => by
    have hsplit : ∀ {D' : ℕ} (p' : Path D') (fs : ExtFs),
        (do
          access
          let p'' ← extSplitNode p' newext
          setTree p''.plug
          extInsertExtent newext noCombine fuel D' p'') fs =
        match extSplitPath newext noCombine fuel D' p' fs with
        | (.ok (.done _ _), fs') => (.ok (), fs')
        | (.ok (.failed e _), fs') => (.error (.rc e), fs')
        | (.error e, fs') => (.error e, fs') := by
      intro D' p' fs
      rw [extSplitPath, attempt_bind, Prog.bind_run, Prog.bind_run]
      rcases access fs with ⟨e | ⟨⟩, fs₁⟩
      · cases e <;> rfl
      · simp only
        rw [Prog.bind_run]
        rcases extSplitNode p' newext fs₁ with ⟨e | p'', fs₂⟩
        · cases e <;> rfl
        · exact extInsertPath_run fuel p'' _
    unfold extInsertExtent extInsertPath
    rcases extInsertLeaf p newext noCombine with p' | - | -
    · rfl
    · simp only
      by_cases hroom : p.ctx.hasRoom = true
      · rw [if_pos hroom, if_pos hroom]
        exact hsplit p fs
      · rw [if_neg hroom, if_neg hroom, attempt_bind, Prog.bind_run]
        rcases extGrowIndepth fs with ⟨e | ⟨⟩, fs₁⟩
        · cases e <;> rfl
        · simp only
          rw [attempt_bind, Prog.bind_run]
          rcases findExtentAgain newext.firstBlock fs₁ with ⟨e | ⟨D', p'⟩, fs₂⟩
          · cases e <;> rfl
          · simp only
            by_cases hD : D = 0
            · rw [if_pos hD, if_pos hD]
              exact extInsertPath_run fuel p' fs₂
            · rw [if_neg hD, if_neg hD]
              exact hsplit p' fs₂
    · rfl

/-- The insertion with its path does not end with a code: codes are in its
    result. -/
theorem extInsertPath_error : ∀ (fuel : ℕ) {D : ℕ} (p : Path D) {fs fs' : ExtFs} {e : Stop},
    extInsertPath newext noCombine fuel D p fs = (.error e, fs') → e = .assert
  | 0, _, _, _, _, _, h => by
    cases h
    rfl
  | fuel + 1, D, p, fs, fs', e, h => by
    have hsplit : ∀ {D' : ℕ} (p' : Path D') (fs : ExtFs),
        extSplitPath newext noCombine fuel D' p' fs = (.error e, fs') → e = .assert := by
      intro D' p' fs h
      rw [extSplitPath, attempt_bind] at h
      rcases hx : (do access; extSplitNode p' newext : ExtM (Path D')) fs with ⟨e' | p'', fs₂⟩ <;>
        rw [hx] at h
      · cases e' <;> cases h
        rfl
      · exact extInsertPath_error fuel p'' h
    unfold extInsertPath at h
    rcases hleaf : extInsertLeaf p newext noCombine with p' | - | - <;> rw [hleaf] at h
    · cases h
    · simp only at h
      by_cases hroom : p.ctx.hasRoom = true
      · rw [if_pos hroom] at h
        exact hsplit p fs h
      · rw [if_neg hroom, attempt_bind] at h
        rcases hg : extGrowIndepth fs with ⟨e' | ⟨⟩, fs₁⟩ <;> rw [hg] at h
        · cases e' <;> cases h
          rfl
        · simp only at h
          rw [attempt_bind] at h
          rcases hf : findExtentAgain newext.firstBlock fs₁ with ⟨e' | ⟨D', p'⟩, fs₂⟩ <;>
            rw [hf] at h
          · cases e' <;> cases h
            rfl
          · simp only at h
            by_cases hD : D = 0
            · rw [if_pos hD] at h
              exact extInsertPath_error fuel p' h
            · rw [if_neg hD] at h
              exact hsplit p' fs₂ h
    · cases h

/-! ## Failures -/

section Failure

variable {fuel D : ℕ} {p : Path D} {split blocks : ℕ} {u1 u2 : Bool} {fs fs' : ExtFs}

/-- The first half of an extent cut at `split`, as the source stores it. -/
def splitFirst (ex : Extent) (split : ℕ) (unwrit1 : Bool) : Extent :=
  ex.setLen (toLe16 (sub32 split ex.firstBlock)) unwrit1

/-- The path with the extent at the cursor replaced. -/
def Path.withExtent (p : Path D) (left : List Extent) (e : Extent) (right : List Extent) : Path D :=
  { p with leaf := .at left e right }

/-- How `ext4_ext_split_extent_at` ends, by how the insertion does. -/
theorem extSplitExtentAt_run {left right : List Extent} {ex : Extent}
    (hl : p.leaf = .at left ex right) (hs : split ≠ ex.firstBlock) :
    extSplitExtentAt fuel D p split u1 u2 fs =
      match extInsertPath (splitNewex ex split u2) true fuel D
        (p.withExtent left (splitFirst ex split u1) right)
        { fs with tree := (p.withExtent left (splitFirst ex split u1) right).plug } with
      | (.ok (.done D' p'), fs') => (.ok (some ⟨D', p'⟩), fs')
      | (.ok (.failed _ true), fs') => (.error .assert, fs')
      | (.ok (.failed _ false), fs') => (.ok none,
          { fs' with tree := ⟨fs'.tree.depth, fs'.tree.root.setLenAt ex.firstBlock ex.getActualLen⟩ })
      | (.error e, fs') => (.error e, fs') := by
  unfold extSplitExtentAt
  simp only [hl, if_neg hs]
  show (extInsertPath (splitNewex ex split u2) true fuel D
    (p.withExtent left (splitFirst ex split u1) right) >>= _)
    { fs with tree := (p.withExtent left (splitFirst ex split u1) right).plug } = _
  rw [Prog.bind_run]
  rcases extInsertPath (splitNewex ex split u2) true fuel D
    (p.withExtent left (splitFirst ex split u1) right)
    { fs with tree := (p.withExtent left (splitFirst ex split u1) right).plug } with
    ⟨e | ⟨⟨D', p'⟩ | ⟨e, null⟩⟩, fs'⟩
  · rfl
  · rfl
  · cases null <;> rfl

/-- The end of a split whose insertion fails. -/
theorem extSplitExtentAt_failed {left right : List Extent} {ex : Extent}
    (hl : p.leaf = .at left ex right) (hs : split ≠ ex.firstBlock) {e : Errno} {null : Bool}
    {fs₁ : ExtFs}
    (hfail : extInsertPath (splitNewex ex split u2) true fuel D
      (p.withExtent left (splitFirst ex split u1) right)
      { fs with tree := (p.withExtent left (splitFirst ex split u1) right).plug } =
        (.ok (.failed e null), fs₁)) :
    extSplitExtentAt fuel D p split u1 u2 fs = if null then (.error .assert, fs₁) else
      (.ok none, { fs₁ with
        tree := ⟨fs₁.tree.depth, fs₁.tree.root.setLenAt ex.firstBlock ex.getActualLen⟩ }) := by
  rw [extSplitExtentAt_run hl hs, hfail]
  cases null <;> rfl

/-- `ext4_ext_split_extent_at` returns no error code. -/
theorem extSplitExtentAt_no_error (e : Errno) :
    extSplitExtentAt fuel D p split u1 u2 fs ≠ (.error (.rc e), fs') := by
  intro h
  rcases hl : p.leaf with - | ⟨left, ex, right⟩
  · unfold extSplitExtentAt at h
    rw [hl] at h
    cases h
  · by_cases hs : split = ex.firstBlock
    · unfold extSplitExtentAt at h
      simp only [hl, if_pos hs] at h
      cases h
    · rw [extSplitExtentAt_run hl hs] at h
      rcases hi : extInsertPath (splitNewex ex split u2) true fuel D
        (p.withExtent left (splitFirst ex split u1) right)
        { fs with tree := (p.withExtent left (splitFirst ex split u1) right).plug } with
        ⟨e' | ⟨⟨D', p'⟩ | ⟨e', null⟩⟩, fs₁⟩ <;> rw [hi] at h
      · rw [extInsertPath_error fuel _ hi] at h
        cases h
      · cases h
      · cases null <;> cases h

/-- Nor does `ext4_ext_convert_to_initialized`. -/
theorem extConvertToInitialized_no_error (e : Errno) :
    extConvertToInitialized fuel D p split blocks fs ≠ (.error (.rc e), fs') := by
  have hone : ∀ {D : ℕ} {p : Path D} {split : ℕ} {u1 u2 : Bool} {fs : ExtFs},
      (do let _ ← extSplitExtentAt fuel D p split u1 u2; pure () : ExtM Unit) fs ≠
        (.error (.rc e), fs') := by
    intro D p split u1 u2 fs h
    rw [Prog.bind_run] at h
    rcases hs : extSplitExtentAt fuel D p split u1 u2 fs with ⟨e' | r, fs₁⟩ <;> rw [hs] at h
    · cases h
      exact extSplitExtentAt_no_error e hs
    · cases h
  intro h
  unfold extConvertToInitialized at h
  rcases hl : p.leaf with - | ⟨left, ex, right⟩
  · rw [hl] at h
    cases h
  · simp only [hl] at h
    split_ifs at h
    · cases h
    · exact hone h
    · exact hone h
    · rw [Prog.bind_run] at h
      rcases hs : extSplitExtentAt fuel D p (u32 (split + blocks)) true true fs with
        ⟨e' | ⟨- | ⟨D', p'⟩⟩, fs₁⟩ <;> rw [hs] at h
      · cases h
        exact extSplitExtentAt_no_error e hs
      · cases h
      · exact hone h

/-- What is asked of a split whose insertion fails: the extent is as it was and
    the error is returned. -/
def SplitReports (fuel : ℕ) (p : Path D) (left : List Extent) (ex : Extent) (right : List Extent)
    (split : ℕ) (u1 u2 : Bool) (fs : ExtFs) : Prop :=
  ∀ e null fs₁, extInsertPath (splitNewex ex split u2) true fuel D
      (p.withExtent left (splitFirst ex split u1) right)
      { fs with tree := (p.withExtent left (splitFirst ex split u1) right).plug } =
        (.ok (.failed e null), fs₁) →
    ∃ fs', extSplitExtentAt fuel D p split u1 u2 fs = (.error (.rc e), fs') ∧
      ex ∈ fs'.tree.root.extents

/-- **A failed split is never reported**: `ext4_ext_split_extent_at` ends with
    `EOK` (or by a null path), and so `ext4_ext_convert_to_initialized` and
    `ext4_extent_get_blocks` have no error to return. -/
theorem splitExtentAt_not_reported {left right : List Extent} {ex : Extent}
    (hl : p.leaf = .at left ex right) (hs : split ≠ ex.firstBlock) {e : Errno} {null : Bool}
    {fs₁ : ExtFs}
    (hfail : extInsertPath (splitNewex ex split u2) true fuel D
      (p.withExtent left (splitFirst ex split u1) right)
      { fs with tree := (p.withExtent left (splitFirst ex split u1) right).plug } =
        (.ok (.failed e null), fs₁)) :
    ¬ SplitReports fuel p left ex right split u1 u2 fs ∧
    extSplitExtentAt fuel D p split u1 u2 fs = (if null then (.error .assert, fs₁) else
      (.ok none, { fs₁ with
        tree := ⟨fs₁.tree.depth, fs₁.tree.root.setLenAt ex.firstBlock ex.getActualLen⟩ })) ∧
    (∀ split' blocks e' fs', extConvertToInitialized fuel D p split' blocks fs ≠
      (.error (.rc e'), fs')) ∧
    ∀ iblock maxBlocks fs₀ e' fs',
      extZeroUnwrittenRange (min (ex.getActualLen - (iblock - ex.firstBlock)) maxBlocks) fs₀ =
        (.ok (), fs) →
      extGetCovered iblock maxBlocks true fuel D p ex fs₀ ≠ (.error (.rc e'), fs') := by
  refine ⟨fun hrep => ?_, ?_, fun split' blocks e' fs' => extConvertToInitialized_no_error e', ?_⟩
  · obtain ⟨fs', h, -⟩ := hrep e null fs₁ hfail
    exact extSplitExtentAt_no_error e h
  · exact extSplitExtentAt_failed hl hs hfail
  · intro iblock maxBlocks fs₀ e' fs' hzero h
    unfold extGetCovered at h
    cases hu : ex.isUnwritten
    · simp only [hu, Bool.not_false, if_true] at h
      cases h
    · simp only [hu, Bool.not_true, Bool.false_eq_true, if_false] at h
      rw [Prog.bind_ok hzero, Prog.bind_run] at h
      rcases hc : extConvertToInitialized fuel D p iblock
        (min (ex.getActualLen - (iblock - ex.firstBlock)) maxBlocks) fs with ⟨e'' | _, fs₂⟩ <;>
        rw [hc] at h
      · cases h
        exact extConvertToInitialized_no_error e' hc
      · cases h

/-- An unwritten extent of four blocks. -/
def splitEx : Extent := ⟨0, 2 ^ 15 + 4, 100⟩

/-- The extents after it fill the leaf. -/
def splitRight : List Extent := [⟨10, 1, 200⟩, ⟨20, 1, 300⟩, ⟨30, 1, 400⟩]

/-- The path found for its first block. -/
def splitPath : Path 0 := ⟨4, .at [] splitEx splitRight, .nil⟩

/-- A file of these extents; no block is free. -/
def splitFs : ExtFs where
  blockSize := 1024
  tree := splitPath.plug
  fresh := []
  freed := []
  faults := []

/-- The file when the second half of the extent is inserted. -/
def splitHalf : ExtFs :=
  { splitFs with tree := (splitPath.withExtent [] (splitFirst splitEx 2 true) splitRight).plug }

theorem splitHalf_fails : extInsertPath (splitNewex splitEx 2 false) true 2 0
    (splitPath.withExtent [] (splitFirst splitEx 2 true) splitRight) splitHalf =
      (.ok (.failed .ENOSPC false), splitHalf) := rfl

/-- Splitting it after two blocks. -/
theorem splitExtentAt_not_reported_nospc :
    ¬ SplitReports 2 splitPath [] splitEx splitRight 2 true false splitFs :=
  (splitExtentAt_not_reported rfl (by decide) splitHalf_fails).1

/-- The split returns `EOK`, and the blocks of the extent have become
    written. -/
theorem split_error_lost :
    splitFs.tree.root.Ok (extSpaceBlock splitFs.blockSize) Tree.rootSpace (2 ^ 32) ∧
    extInsertExtent (splitNewex splitEx 2 false) true 2 0
      (splitPath.withExtent [] (splitFirst splitEx 2 true) splitRight) splitHalf =
        (.error (.rc .ENOSPC), splitHalf) ∧
    (∃ fs', extSplitExtentAt 2 0 splitPath 2 true false splitFs = (.ok none, fs') ∧
      splitFs.tree.map 0 = some (100, true) ∧ fs'.tree.map 0 = some (100, false)) ∧
    ¬ SplitReports 2 splitPath [] splitEx splitRight 2 true false splitFs := by
  have hrun := @extSplitExtentAt_failed _ _ splitPath _ _ _ splitFs _ _ _ rfl (by decide) _ _ _ splitHalf_fails
  refine ⟨Node.ok_leaf.2 ⟨by decide, by decide, by decide, ?_⟩, ?_, ⟨_, hrun, ?_, ?_⟩, fun h => ?_⟩
  · exact ⟨⟨by decide, by decide, by decide⟩, ⟨by decide, by decide, by decide⟩,
      ⟨by decide, by decide, by decide⟩, ⟨by decide, by decide, by decide⟩, trivial⟩
  · rw [extInsertPath_run, splitHalf_fails]
  · decide +kernel
  · decide +kernel
  · obtain ⟨fs', h, -⟩ := h .ENOSPC false _ splitHalf_fails
    exact extSplitExtentAt_no_error _ h

end Failure

/-! ## Runs without faults -/

section Run

variable {cap D : ℕ} {p : Path D}

theorem onError_ok {α : Type} {x : ExtM α} {fs fs' : ExtFs} {a : α} (cleanup : ExtM Unit)
    (h : x fs = (.ok a, fs')) : onError x cleanup fs = (.ok a, fs') := by
  unfold onError
  rw [h]

theorem onError_error {α : Type} {x : ExtM α} {fs fs' : ExtFs} {e : Stop} (cleanup : ExtM Unit)
    (h : x fs = (.error e, fs')) : onError x cleanup fs = (.error e, (cleanup fs').2) := by
  unfold onError
  rw [h]

theorem newNode_run {fs : ExtFs} (hf : fs.faults = []) (t : Tree) (allocated : List ℕ) {nb : ℕ}
    {rest : List ℕ} (hfresh : fs.fresh = nb :: rest) :
    newNode t allocated fs = (.ok nb, { fs with fresh := rest }) := by
  have hnew : extNewMetaBlock fs = (.ok nb, { fs with fresh := rest }) := by
    unfold extNewMetaBlock
    rw [Prog.bind_ok (access_run hf), Prog.bind_ok (Prog.get_run fs), hfresh]
    rfl
  unfold newNode
  rw [Prog.bind_ok (onError_ok _ hnew), Prog.bind_ok (onError_ok _ (@access_run { fs with fresh := rest } hf))]
  rfl

theorem newNode_full {fs : ExtFs} (hf : fs.faults = []) (hfresh : fs.fresh = []) (t : Tree) :
    newNode t [] fs = (.error (.rc .ENOSPC), { fs with tree := t }) := by
  have hnew : extNewMetaBlock fs = (.error (.rc .ENOSPC), fs) := by
    unfold extNewMetaBlock
    rw [Prog.bind_ok (access_run hf), Prog.bind_ok (Prog.get_run fs), hfresh]
    rfl
  unfold newNode
  rw [Prog.bind_error (onError_error _ hnew)]
  rfl

/-- The number of index nodes a split cuts. -/
def Ctx.splitNeed : {d D : ℕ} → Ctx d D → ℕ
  | _, _, .nil => 0
  | _, _, .cons l up =>
    if l.left.length + 1 + l.right.length < l.maxEntries then 0 else 1 + up.splitNeed

theorem Ctx.splitNeed_lt : ∀ {d D : ℕ} (ctx : Ctx d D), ctx.hasRoom = true →
    ctx.splitNeed + d + 1 ≤ D
  | _, _, .nil, h => by cases h
  | d, D, .cons l up, h => by
    have hle := up.depth_le
    rw [Ctx.splitNeed]
    rw [Ctx.hasRoom, Bool.or_eq_true, decide_eq_true_eq] at h
    split_ifs with hroom
    · omega
    · have := up.splitNeed_lt (h.resolve_left hroom)
      omega

theorem splitUp_run (hcap : Tree.rootSpace ≤ cap) (insRight : Bool) (key : ℕ) :
    ∀ {d D : ℕ} (left right : Node d) (newblock : ℕ) (allocated : List ℕ) (ctx : Ctx d D)
      {fs : ExtFs} {news rest : List ℕ}, Halves cap key left right ctx →
      cap = extSpaceBlockIdx fs.blockSize → fs.faults = [] → ctx.hasRoom = true →
      fs.fresh = news ++ rest → news.length = ctx.splitNeed →
    ∃ ctx', splitUp insRight key left right newblock allocated ctx fs =
      (.ok ctx', { fs with fresh := rest })
  | _, _, _, _, _, _, .nil, _, _, _, _, _, _, h, _, _ => by cases h
  | d, D, left, right, newblock, allocated, .cons l up, fs, news, rest, h, hfs, hf, hr, hfresh,
      hlen => by
    unfold splitUp
    rw [Ctx.splitNeed] at hlen
    by_cases hroom : l.left.length + 1 + l.right.length < l.maxEntries
    · rw [if_pos hroom, List.length_eq_zero_iff] at hlen
      have hkey : key ≠ l.firstBlock := Nat.ne_of_gt h.low_lt
      have hsame : fs = { fs with fresh := rest } := by
        rw [hlen, List.nil_append] at hfresh
        rw [← hfresh]
      rw [if_pos hroom, if_neg hkey, ← hsame]
      cases insRight <;> exact ⟨_, rfl⟩
    · rw [if_neg hroom] at hlen ⊢
      rcases news with - | ⟨nb, news⟩
      · rw [List.length_nil] at hlen
        omega
      rw [List.length_cons] at hlen
      rw [Prog.bind_ok (Prog.get_run fs), ← hfs, Prog.bind_ok
        (@newNode_run _ hf _ allocated _ (news ++ rest) hfresh)]
      rw [Ctx.hasRoom, decide_eq_false hroom, Bool.false_or] at hr
      obtain ⟨up', hup⟩ := @splitUp_run hcap insRight key _ _ _ _ nb (allocated ++ [nb]) up
        { fs with fresh := news ++ rest } _ _ (h.up hcap newblock) hfs hf hr rfl (by omega)
      rw [Prog.bind_ok hup]
      cases insRight <;> exact ⟨_, rfl⟩

theorem extSplitNode_run (hcap : Tree.rootSpace ≤ cap) {fs : ExtFs}
    (hfs : cap = extSpaceBlock fs.blockSize) (hp : p.Fits cap newext.firstBlock)
    (hno : NoOverlap p.plug newext) (hn : newext.Ok (2 ^ 32))
    (hsplit : extInsertLeaf p newext noCombine = .needSplit) (hroom : p.ctx.hasRoom = true)
    (hf : fs.faults = []) {nb : ℕ} {news rest : List ℕ} (hfresh : fs.fresh = nb :: (news ++ rest))
    (hlen : news.length = p.ctx.splitNeed) :
    ∃ p', extSplitNode p newext fs = (.ok p', { fs with fresh := rest }) := by
  obtain ⟨left, ex, right, hl, hfull, -⟩ := needSplit_at hp hsplit
  have hhalves := leaf_halves hcap hp hno hn hl hfull
  obtain ⟨ctx, hctx⟩ := @splitUp_run _ hcap
    (!decide (newext.firstBlock < splitKey newext right)) (splitKey newext right) _ _ _ _ nb [nb] p.ctx
    { fs with fresh := news ++ rest } _ _ hhalves hfs hf hroom rfl hlen
  have hrun : extSplitNode p newext fs = (do
      let insRight := !decide (newext.firstBlock < splitKey newext right)
      let ctx ← splitUp insRight (splitKey newext right)
        (Leaf.mk p.maxEntries (left ++ [ex]) : Node 0) (Leaf.mk cap right : Node 0) nb [nb] p.ctx
      if insRight then
        pure ⟨cap, (match right with | [] => .none | e :: es => .at [] e es), ctx⟩
      else pure ⟨p.maxEntries, .at left ex [], ctx⟩ : ExtM (Path D))
      { fs with fresh := news ++ rest } := by
    unfold extSplitNode
    simp only [hl]
    rw [Prog.bind_ok (Prog.get_run fs), ← hfs, Prog.bind_ok (newNode_run hf _ [] hfresh)]
    cases right <;> rfl
  rw [hrun, Prog.bind_ok hctx]
  split_ifs <;> exact ⟨_, rfl⟩

/-- The new extent is in the tree: at the cursor of path `p'`, beside the old
    extents.  The insertion took the blocks `news`. -/
structure Path.Gained (cap : ℕ) (newext : Extent) {D D' : ℕ} (p : Path D) (p' : Path D')
    (news : List ℕ) : Prop where
  cursor : ∃ left right, p'.leaf = .at left newext right
  ok : p'.plug.root.Ok cap Tree.rootSpace (2 ^ 32)
  adds : AddsExtent newext p.plug p'.plug
  extents : p'.plug.root.extents.Perm (newext :: p.plug.root.extents)
  blocks : p'.plug.root.blocks.Perm (news ++ p.plug.root.blocks)

theorem Path.Moved.gained {D' D'' : ℕ} {p' : Path D'} {p'' : Path D''} {as bs : List ℕ}
    (hm : p.Moved cap newext noCombine p' as) (h : p'.Gained cap newext p'' bs) :
    p.Gained cap newext p'' (as ++ bs) where
  cursor := h.cursor
  ok := h.ok
  adds := (addsExtent_congr hm.extents).1 h.adds
  extents := by rw [← hm.extents]; exact h.extents
  blocks := by
    refine List.perm_iff_count.2 fun b => ?_
    have h1 := List.perm_iff_count.1 h.blocks b
    have h2 := List.perm_iff_count.1 hm.blocks b
    simp only [List.count_append] at h1 h2 ⊢
    omega

/-- The extents left and right of the cursor of a path. -/
theorem plug_extents_at {left right : List Extent} {ex : Extent} (hl : p.leaf = .at left ex right) :
    p.plug.root.extents = (p.ctx.before ++ left) ++ ex :: (right ++ p.ctx.after) := by
  rw [Path.plug, Ctx.plug_extents]
  show p.ctx.before ++ p.leaf.exts ++ p.ctx.after = _
  rw [hl]
  simp [LeafCursor.exts]

theorem withLeaf_extents (leaf : LeafCursor) (first : Option ℕ) :
    (p.withLeaf leaf first).plug.root.extents = p.ctx.before ++ leaf.exts ++ p.ctx.after := by
  rw [Path.plug, Ctx.plug_extents]
  show _ ++ (p.withLeaf leaf first).leaf.exts ++ _ = _
  rw [withLeaf_leaf]
  cases first
  · rfl
  · rw [Path.withLeaf, Ctx.setBorder_before, Ctx.setBorder_after]

/-- An insertion into the leaf at the cursor. -/
theorem gained_of_done (hp : p.Fits cap newext.firstBlock) (hno : NoOverlap p.plug newext)
    (hn : newext.Ok (2 ^ 32)) (hend : newext.firstBlock + newext.getActualLen ≤ p.ctx.ceil)
    {p' : Path D} (h : extInsertLeaf p newext true = .done p') : p.Gained cap newext p' [] := by
  obtain ⟨hiff, hblocks⟩ := done_exact_iff hp hno hn h
  have hins : InsertOk p newext true := by
    unfold InsertOk
    refine ⟨hend, ?_⟩
    cases p.leaf
    · trivial
    · exact .inl rfl
  obtain ⟨hok, hadds⟩ := hiff.2 hins
  have hextents : p.plug.root.extents = p.ctx.before ++ p.leaf.exts ++ p.ctx.after := by
    rw [Path.plug, Ctx.plug_extents]
    rfl
  rcases hl : p.leaf with - | ⟨left, ex, right⟩
  · unfold extInsertLeaf at h
    simp only [hl] at h
    split_ifs at h
    obtain rfl := LeafInsert.done.inj h
    refine ⟨⟨_, _, withLeaf_leaf _ _⟩, hok, hadds, ?_, hblocks⟩
    rw [withLeaf_extents, hextents, hl]
    simp [LeafCursor.exts]
  · rcases extInsertLeaf_at hl h with h | ⟨h, -⟩ | ⟨h, -⟩ | ⟨-, ⟨-, h⟩ | ⟨-, -, h⟩ | ⟨-, -, h⟩⟩
    · cases h
    · cases h
    · cases h
    · cases h
    · obtain rfl := LeafInsert.done.inj h
      refine ⟨⟨_, _, withLeaf_leaf _ _⟩, hok, hadds, ?_, hblocks⟩
      rw [withLeaf_extents, hextents, hl]
      refine List.perm_iff_count.2 fun e => ?_
      simp only [LeafCursor.exts, List.count_append, List.count_cons, List.count_nil]
      omega
    · obtain rfl := LeafInsert.done.inj h
      refine ⟨⟨_, _, withLeaf_leaf _ _⟩, hok, hadds, ?_, hblocks⟩
      rw [withLeaf_extents, hextents, hl]
      refine List.perm_iff_count.2 fun e => ?_
      simp only [LeafCursor.exts, List.count_append, List.count_cons]
      omega

/-- A new extent that overlaps none starts where no extent does. -/
theorem extInsertLeaf_ne_err (hp : p.Fits cap newext.firstBlock) (hno : NoOverlap p.plug newext)
    (hn : newext.Ok (2 ^ 32)) : extInsertLeaf p newext noCombine ≠ .err := by
  intro h
  unfold extInsertLeaf at h
  rcases hl : p.leaf with - | ⟨left, ex, right⟩ <;> simp only [hl] at h
  · split_ifs at h
  · by_cases hsame : newext.firstBlock = ex.firstBlock
    · have hex := hp.extent_ok hl
      have hmem : ex ∈ p.leaf.exts := by rw [hl]; simp [LeafCursor.exts]
      have h1 := hn.1
      have h2 := hex.1
      rcases hno.apart hn hmem hex with h | h <;> omega
    · rw [if_neg hsame] at h
      split_ifs at h

/-- A full leaf is split unless the extents are combined. -/
theorem extInsertLeaf_full (hp : p.Fits cap newext.firstBlock) (hno : NoOverlap p.plug newext)
    (hn : newext.Ok (2 ^ 32)) (hfull : p.full = true) :
    extInsertLeaf p newext true = .needSplit := by
  have herr := @extInsertLeaf_ne_err _ true _ _ _ hp hno hn
  unfold extInsertLeaf at herr ⊢
  rcases hl : p.leaf with - | ⟨left, ex, right⟩ <;> simp only [hl, hfull, if_true] at herr ⊢
  split_ifs at herr ⊢ with hsame
  · exact absurd rfl herr
  · simp_all
  · simp_all
  · rfl

/-- Into a leaf with room. -/
theorem extInsertPath_room (hp : p.Fits cap newext.firstBlock) (hno : NoOverlap p.plug newext)
    (hn : newext.Ok (2 ^ 32)) (hend : newext.firstBlock + newext.getActualLen ≤ p.ctx.ceil)
    (hroom : p.full = false) : ∃ p', p.Gained cap newext p' [] ∧ ∀ fuel fs,
      extInsertPath newext true (fuel + 1) D p fs =
        (.ok (.done D p'), { fs with tree := p'.plug }) := by
  rcases h : extInsertLeaf p newext true with p' | - | -
  · refine ⟨p', gained_of_done hp hno hn hend h, fun fuel fs => ?_⟩
    unfold extInsertPath
    rw [h]
    rfl
  · obtain ⟨left, ex, right, hl, hlen, -⟩ := needSplit_at hp h
    simp only [Path.full, hl, LeafCursor.exts, List.length_append, List.length_cons,
      decide_eq_false_iff_not] at hroom
    omega
  · exact absurd h (extInsertLeaf_ne_err hp hno hn)

theorem insertOk_of_end (hend : newext.firstBlock + newext.getActualLen ≤ p.ctx.ceil) :
    InsertOk p newext true := by
  unfold InsertOk
  refine ⟨hend, ?_⟩
  cases p.leaf
  · trivial
  · exact .inl rfl

/-- Splitting nodes takes a block for each; then there is room. -/
theorem splitNode_gained (hcap : Tree.rootSpace ≤ cap) {fs : ExtFs}
    (hfs : cap = extSpaceBlock fs.blockSize) (hp : p.Fits cap newext.firstBlock)
    (hno : NoOverlap p.plug newext) (hn : newext.Ok (2 ^ 32))
    (hend : newext.firstBlock + newext.getActualLen ≤ p.ctx.ceil)
    (hsplit : extInsertLeaf p newext true = .needSplit) (hroom : p.ctx.hasRoom = true)
    (hf : fs.faults = []) {nb : ℕ} {news rest : List ℕ} (hfresh : fs.fresh = nb :: (news ++ rest))
    (hlen : news.length = p.ctx.splitNeed) :
    ∃ p', extSplitNode p newext fs = (.ok p', { fs with fresh := rest }) ∧
      ∃ p'', p.Gained cap newext p'' (nb :: news) ∧ ∀ fuel fs',
        extInsertPath newext true (fuel + 1) D p' fs' =
          (.ok (.done D p''), { fs' with tree := p''.plug }) := by
  obtain ⟨p', hrun⟩ := extSplitNode_run hcap hfs hp hno hn hsplit hroom hf hfresh hlen
  obtain ⟨news', htook, hmoved, hfull⟩ := (sat_extSplitNode fs hcap hfs hp hno hn hsplit).ok rfl hrun
  have hnews : news' = nb :: news := by
    have h := htook.fresh
    rw [hfresh, ← List.cons_append] at h
    exact (List.append_cancel_right h).symm
  rw [hnews] at hmoved
  obtain ⟨p'', hgain, hdone⟩ := extInsertPath_room hmoved.fits
    ((noOverlap_congr hmoved.extents).2 hno) hn (hmoved.insertOk.2 (insertOk_of_end hend)).1 hfull
  refine ⟨p', hrun, p'', ?_, hdone⟩
  have := hmoved.gained hgain
  rwa [List.append_nil] at this

theorem extGrowIndepth_run {fs : ExtFs} (hf : fs.faults = []) {nb : ℕ} {rest : List ℕ}
    (hfresh : fs.fresh = nb :: rest) : extGrowIndepth fs =
      (.ok (), { fs with fresh := rest, tree := fs.tree.grown fs.blockSize nb }) := by
  have hnew : extNewMetaBlock fs = (.ok nb, { fs with fresh := rest }) := by
    unfold extNewMetaBlock
    rw [Prog.bind_ok (access_run hf), Prog.bind_ok (Prog.get_run fs), hfresh]
    rfl
  unfold extGrowIndepth
  rw [Prog.bind_ok hnew, Prog.bind_ok (onError_ok _ (@access_run { fs with fresh := rest } hf))]
  rfl

/-- The path that a search without a fault finds. -/
theorem exists_found_again {t : Tree} {b : ℕ} (hb : b < 2 ^ 32)
    (hok : t.root.Ok cap Tree.rootSpace (2 ^ 32)) : ∃ p : Path t.depth, p.Found cap t b ∧
      ∀ fs : ExtFs, fs.tree = t → fs.faults = [] →
        findExtentAgain b fs = (.ok ⟨t.depth, p⟩, fs) := by
  obtain ⟨p, hp⟩ := findExtentFrom_total (b := b) t.root .nil hok
  have hrun : ∀ fs : ExtFs, fs.tree = t → fs.faults = [] →
      findExtentAgain b fs = (.ok ⟨t.depth, p⟩, fs) := by
    rintro fs rfl hf
    exact Prog.bind_ok (hp fs hf)
  exact ⟨p, ((sat_findExtentAgain ⟨0, t, [], [], []⟩ hb hok).ok rfl (hrun _ rfl rfl)).2, hrun⟩

section Grown

variable {bs nb : ℕ} {p' : Path (p.plug.grown bs nb).depth}

/-- A tree without room grows, and the path is found again. -/
theorem extInsertPath_grown (hr : extInsertLeaf p newext true = .needSplit)
    (hroom : ¬ p.ctx.hasRoom = true)
    (hagain : ∀ fs : ExtFs, fs.tree = p.plug.grown bs nb → fs.faults = [] →
      findExtentAgain newext.firstBlock fs = (.ok ⟨_, p'⟩, fs))
    {fs : ExtFs} (htree : fs.tree = p.plug) (hsize : fs.blockSize = bs) (hf : fs.faults = [])
    {rest : List ℕ} (hfresh : fs.fresh = nb :: rest) (fuel : ℕ) :
    extInsertPath newext true (fuel + 2) D p fs =
      (if D = 0 then extInsertPath newext true (fuel + 1) (p.plug.grown bs nb).depth p'
      else extSplitPath newext true (fuel + 1) (p.plug.grown bs nb).depth p')
      { fs with fresh := rest, tree := p.plug.grown bs nb } := by
  subst hsize
  have hgrow := extGrowIndepth_run hf hfresh
  rw [htree] at hgrow
  rw [extInsertPath, hr]
  simp only [if_neg hroom]
  rw [attempt_bind, hgrow]
  simp only
  rw [attempt_bind, hagain { fs with fresh := rest, tree := p.plug.grown fs.blockSize nb } rfl hf]
  by_cases hD : D = 0
  · simp only [if_pos hD]
  · simp only [if_neg hD]
    rfl

/-- A leaf that has moved from the inode to a block has room there. -/
theorem grown_leaf_room (hspace : Tree.rootSpace < cap) (hp : p.Fits cap newext.firstBlock)
    (hr : extInsertLeaf p newext true = .needSplit) (hD : D = 0) (hleaf : p'.leaf = p.leaf)
    (hmax : p'.maxEntries = cap) : p'.full = false := by
  obtain ⟨left, ex, right, hl, hlen, -⟩ := needSplit_at hp hr
  have hroot : p.maxEntries ≤ Tree.rootSpace := by
    subst hD
    have hctx := hp.node
    rcases hc : p.ctx with - | ⟨l, up⟩
    · rw [hc] at hctx
      exact (Node.ok_leaf.1 hctx).2.1
    · exact absurd up.depth_le (by omega)
  refine decide_eq_false ?_
  rw [hleaf, hmax, hl, LeafCursor.exts, List.length_append, List.length_cons]
  omega

end Grown

/-- A leaf that is full: the insertion takes a block `nb` and some more, how
    many depends at most on the first. -/
theorem extInsertPath_split {bs : ℕ} (hbs : 1024 ≤ bs) (hcap : cap = extSpaceBlock bs)
    (hok : p.plug.root.Ok cap Tree.rootSpace (2 ^ 32)) (hp : p.Fits cap newext.firstBlock)
    (hno : NoOverlap p.plug newext) (hn : newext.Ok (2 ^ 32))
    (hend : newext.firstBlock + newext.getActualLen ≤ p.ctx.ceil) (hfull : p.full = true) (nb : ℕ) :
    ∃ k ≤ D + 1, ∀ fs : ExtFs, fs.tree = p.plug → fs.blockSize = bs → fs.faults = [] →
      ∀ news rest, fs.fresh = nb :: (news ++ rest) → news.length = k → ∀ fuel, ∃ D' p',
        extInsertPath newext true (fuel + 2) D p fs =
          (.ok (.done D' p'), { fs with tree := p'.plug, fresh := rest }) ∧
        p.Gained cap newext p' (nb :: news) := by
  have hspace : Tree.rootSpace < cap := by
    rw [hcap, extSpaceBlock, Tree.rootSpace]
    omega
  have hr := extInsertLeaf_full hp hno hn hfull
  by_cases hroom : p.ctx.hasRoom = true
  · have hneed := p.ctx.splitNeed_lt hroom
    refine ⟨p.ctx.splitNeed, by omega, fun fs htree hsize hf news rest hfresh hlen fuel => ?_⟩
    obtain ⟨p', hrun, hgain⟩ := splitNode_gained hspace.le (by rw [hsize]; exact hcap) hp hno hn
      hend hr hroom hf hfresh hlen
    obtain ⟨p'', hgain, hins⟩ := hgain
    refine ⟨D, p'', ?_, hgain⟩
    unfold extInsertPath
    rw [hr]
    simp only [if_pos hroom]
    rw [attempt_bind, Prog.bind_ok (access_run hf), hrun]
    exact hins fuel _
  · -- the tree grows; the path is found again
    have hgrown := @grown_ok _ _ bs _ nb hspace.le hcap (Nat.two_pow_pos 32) hok
    obtain ⟨p', hfound, hagain⟩ := exists_found_again hn.lt hgrown
    obtain ⟨hmoved, hleaf, hmax⟩ := moved_grown true hp.found hfound
    have hno' := (noOverlap_congr hmoved.extents).2 hno
    have hend' := (hmoved.insertOk.2 (insertOk_of_end hend)).1
    have hdepth : (p.plug.grown bs nb).depth = D + 1 := congrArg (· + 1) hp.found.depth.symm
    by_cases hD : D = 0
    · rw [if_pos hD, ← hcap] at hmax
      obtain ⟨p'', hgain, hdone⟩ := extInsertPath_room hfound.fits hno' hn hend'
        (grown_leaf_room hspace hp hr hD hleaf hmax)
      refine ⟨0, by omega, fun fs htree hsize hf news rest hfresh hlen fuel => ⟨_, p'', ?_, ?_⟩⟩
      · rw [List.length_eq_zero_iff] at hlen
        rw [hlen] at hfresh
        rw [extInsertPath_grown hr hroom hagain htree hsize hf hfresh fuel, if_pos hD]
        exact hdone fuel _
      · rw [List.length_eq_zero_iff] at hlen
        rw [hlen]
        exact hmoved.gained hgain
    · rw [if_neg hD] at hmax
      have hr' := needSplit_congr hleaf hmax hr
      have hroom' := hfound.hasRoom (grown_hasRoom hok)
      have hneed := p'.ctx.splitNeed_lt hroom'
      refine ⟨p'.ctx.splitNeed + 1, by omega, fun fs htree hsize hf news rest hfresh hlen fuel => ?_⟩
      rcases news with - | ⟨nb', news⟩
      · cases hlen
      rw [List.length_cons, Nat.add_right_cancel_iff] at hlen
      obtain ⟨p'', hrun, p₃, hgain, hdone⟩ := @splitNode_gained _ _ _ _ hspace.le
        { fs with fresh := nb' :: news ++ rest, tree := p.plug.grown bs nb }
          (by rw [hcap, ← hsize]) hfound.fits hno' hn hend' hr' hroom' hf _ _ _ rfl hlen
      refine ⟨_, p₃, ?_, hmoved.gained hgain⟩
      rw [extInsertPath_grown hr hroom hagain htree hsize hf hfresh fuel, if_neg hD, extSplitPath,
        attempt_bind, Prog.bind_ok (@access_run { fs with
          fresh := nb' :: news ++ rest, tree := p.plug.grown bs nb } hf)]
      dsimp only [List.cons_append] at hrun ⊢
      rw [hrun]
      exact hdone fuel _

/-- Without a free block a full leaf is not split, and nothing changes. -/
theorem extInsertPath_nospc {fs : ExtFs} {left right : List Extent} {ex : Extent}
    (hl : p.leaf = .at left ex right) (hr : extInsertLeaf p newext true = .needSplit)
    (htree : fs.tree = p.plug) (hf : fs.faults = []) (hfresh : fs.fresh = []) (fuel : ℕ) :
    extInsertPath newext true (fuel + 1) D p fs = (.ok (.failed .ENOSPC false), fs) := by
  have hnew : extNewMetaBlock fs = (.error (.rc .ENOSPC), fs) := by
    unfold extNewMetaBlock
    rw [Prog.bind_ok (access_run hf), Prog.bind_ok (Prog.get_run fs), hfresh]
    rfl
  have hsame : { fs with tree := p.plug } = fs := by rw [← htree]
  rw [extInsertPath, hr]
  simp only
  by_cases hroom : p.ctx.hasRoom = true
  · rw [if_pos hroom, attempt_bind, Prog.bind_ok (access_run hf)]
    have hsplit : extSplitNode p newext fs = (.error (.rc .ENOSPC), fs) := by
      unfold extSplitNode
      simp only [hl]
      rw [Prog.bind_ok (Prog.get_run fs), Prog.bind_error (newNode_full hf hfresh _), hsame]
    rw [hsplit]
    rfl
  · rw [if_neg hroom, attempt_bind]
    have hgrow : extGrowIndepth fs = (.error (.rc .ENOSPC), fs) := Prog.bind_error hnew
    rw [hgrow]
    rfl

end Run

/-! ## The halves of an extent -/

section Halves

variable {cap D : ℕ} {p : Path D} {left right : List Extent} {ex : Extent} {split : ℕ}
  {u1 u2 : Bool}

theorem splitFirst_spec (hex : ex.Ok (2 ^ 32)) (h1 : ex.firstBlock < split)
    (h2 : split < ex.firstBlock + ex.getActualLen) :
    (splitFirst ex split u1).firstBlock = ex.firstBlock ∧ (splitFirst ex split u1).start = ex.start ∧
      (splitFirst ex split u1).getActualLen = split - ex.firstBlock ∧
      (splitFirst ex split u1).isUnwritten = u1 ∧ (splitFirst ex split u1).blockCount < 2 ^ 16 := by
  have hlen := hex.len_le
  have hend := hex.2.1
  have hoff : toLe16 (sub32 split ex.firstBlock) = split - ex.firstBlock := by
    rw [sub32_of_le h1.le (by omega), toLe16, Nat.mod_eq_of_lt (by omega)]
  obtain ⟨hl, hu, hc⟩ := Extent.setLen_spec ex (split - ex.firstBlock) u1 (by omega)
    (.inl (by omega))
  unfold splitFirst
  rw [hoff]
  exact ⟨Extent.setLen_firstBlock .., Extent.setLen_start .., hl, hu, hc⟩

theorem splitNewex_spec (hex : ex.Ok (2 ^ 32)) (hphys : ex.start + ex.getActualLen ≤ 2 ^ 48)
    (h1 : ex.firstBlock < split) (h2 : split < ex.firstBlock + ex.getActualLen) :
    (splitNewex ex split u2).firstBlock = split ∧
      (splitNewex ex split u2).start = ex.start + (split - ex.firstBlock) ∧
      (splitNewex ex split u2).getActualLen = ex.firstBlock + ex.getActualLen - split ∧
      (splitNewex ex split u2).isUnwritten = u2 ∧ (splitNewex ex split u2).blockCount < 2 ^ 16 := by
  have hlen := hex.len_le
  have hend := hex.2.1
  have hoff : sub32 split ex.firstBlock = split - ex.firstBlock := sub32_of_le h1.le (by omega)
  have hrest : toLe16 (sub32 ex.getActualLen (split - ex.firstBlock)) =
      ex.firstBlock + ex.getActualLen - split := by
    rw [sub32_of_le (by omega) (by omega), toLe16, Nat.mod_eq_of_lt (by omega)]
    omega
  have hstart : u48 (split - ex.firstBlock + ex.start) = ex.start + (split - ex.firstBlock) := by
    rw [u48, Nat.mod_eq_of_lt (by omega), Nat.add_comm]
  obtain ⟨hl, hu, hc⟩ := Extent.setLen_spec
    ⟨split, 0, u48 (split - ex.firstBlock + ex.start)⟩
    (ex.firstBlock + ex.getActualLen - split) u2 (by omega) (.inl (by omega))
  unfold splitNewex
  simp only [hoff, hrest]
  refine ⟨Extent.setLen_firstBlock .., ?_, hl, hu, hc⟩
  rw [Extent.setLen_start, hstart]

/-- Only one extent of a sorted list maps a block it covers. -/
theorem mapOf_around {as bs : List Extent} {e : Extent} {hi b : ℕ}
    (h : Chain Extent.firstBlock Extent.Ok hi (as ++ e :: bs)) (hb : e.covers b = true) :
    mapOf as b = none ∧ mapOf bs b = none := by
  rw [chain_append, top_cons, chain_cons] at h
  have hc := Extent.covers_iff.1 hb
  have hend := h.2.1.2.1
  exact ⟨mapOf_none_of_chain hc.1 h.1, mapOf_none_of_lt h.2.2 (by omega)⟩

theorem withExtent_extents (e : Extent) : (p.withExtent left e right).plug.root.extents =
    (p.ctx.before ++ left) ++ e :: (right ++ p.ctx.after) :=
  plug_extents_at rfl

theorem withExtent_blocks (e : Extent) :
    (p.withExtent left e right).plug.root.blocks.Perm p.plug.root.blocks :=
  withLeaf_blocks (.at left e right) none

theorem withExtent_full (hl : p.leaf = .at left ex right) (e : Extent) :
    (p.withExtent left e right).full = p.full := by
  simp [Path.full, Path.withExtent, hl, LeafCursor.exts]

/-- The tree with a shorter extent at the cursor. -/
theorem withExtent_ok {b : ℕ} (hp : p.Fits cap b) (hl : p.leaf = .at left ex right) {e : Extent}
    (hfirst : e.firstBlock = ex.firstBlock) (hpos : 0 < e.getActualLen)
    (hlen : e.getActualLen ≤ ex.getActualLen) (hcount : e.blockCount < 2 ^ 16) :
    (p.withExtent left e right).plug.root.Ok cap Tree.rootSpace (2 ^ 32) := by
  obtain ⟨hmax, hlow, hleft, hex, hright, -, -⟩ := hp.leaf_ok hl
  have hend := hex.2.1
  refine (withLeaf_ok hp ?_ ?_ ?_ :
    (p.withLeaf (.at left e right) none).plug.root.Ok cap Tree.rootSpace (2 ^ 32))
  · simp only [LeafCursor.exts, List.length_append, List.length_cons]
    omega
  · simp only [LeafCursor.exts]
    rw [chain_append, chain_cons, top_cons, hfirst]
    exact ⟨hleft, ⟨hpos, by omega, hcount⟩, hright⟩
  · simp only [LeafCursor.exts]
    rw [top_append, top_cons, hfirst]
    exact hlow

/-- Its path fits the blocks of the extent. -/
theorem withExtent_fits {b s : ℕ} (hp : p.Fits cap b) (hl : p.leaf = .at left ex right) {e : Extent}
    (hfirst : e.firstBlock = ex.firstBlock) (hpos : 0 < e.getActualLen)
    (hlen : e.getActualLen ≤ ex.getActualLen) (hcount : e.blockCount < 2 ^ 16)
    (h1 : ex.firstBlock ≤ s) (h2 : s < ex.firstBlock + ex.getActualLen) :
    (p.withExtent left e right).Fits cap s := by
  obtain ⟨-, hlow, hleft, hex, hright, -, -⟩ := hp.leaf_ok hl
  obtain ⟨-, hlow', hnode⟩ := Ctx.of_plug_ok (withExtent_ok hp hl hfirst hpos hlen hcount)
  have hend := hex.2.1
  have htop := hright.top_le extent_lt
  refine ⟨hp.ctx, ?_, ?_, hlow', hnode, .inl (by rw [hfirst]; exact h1), fun e' he' => ?_⟩
  · exact (hp.ctx.floor_le.trans (hlow.trans (hleft.top_le extent_lt))).trans h1
  · show s < p.ctx.ceil
    omega
  · obtain ⟨as, bs, rfl⟩ := List.append_of_mem he'
    have hc := (chain_append as (e' :: bs)).1 hright
    have := hc.1.top_le extent_lt
    rw [top_append] at hend
    rw [top_cons] at this hend
    omega

section

variable {b₀ : ℕ} (hp : p.Fits cap b₀) (hl : p.leaf = .at left ex right)
  (hphys : ex.start + ex.getActualLen ≤ 2 ^ 48) (h1 : ex.firstBlock < split)
  (h2 : split < ex.firstBlock + ex.getActualLen)

include hp hl in
theorem chain_at : Chain Extent.firstBlock Extent.Ok (2 ^ 32)
    ((p.ctx.before ++ left) ++ ex :: (right ++ p.ctx.after)) := by
  have h := (Ctx.plug_ok hp.ctx hp.low hp.node).chain.1
  rwa [← plug_extents_at hl]

include hp hl h1 h2 in
/-- The path after the extent is shortened fits the second half. -/
theorem first_fits : (p.withExtent left (splitFirst ex split u1) right).Fits cap split := by
  obtain ⟨hf, -, hlen, -, hc⟩ := @splitFirst_spec _ _ u1 (hp.extent_ok hl) h1 h2
  exact withExtent_fits hp hl hf (by omega) (by omega) hc h1.le h2

include hp hl h1 h2 in
theorem first_ok : (p.withExtent left (splitFirst ex split u1) right).plug.root.Ok cap
    Tree.rootSpace (2 ^ 32) := by
  obtain ⟨hf, -, hlen, -, hc⟩ := @splitFirst_spec _ _ u1 (hp.extent_ok hl) h1 h2
  exact withExtent_ok hp hl hf (by omega) (by omega) hc

include hp hl h1 h2 in
/-- What the tree maps after the extent is shortened. -/
theorem first_map (b : ℕ) : (p.withExtent left (splitFirst ex split u1) right).plug.map b =
    if ex.covers b then
      if b < split then some (ex.start + (b - ex.firstBlock), u1) else none
    else p.plug.map b := by
  obtain ⟨hf, hs, hlen, hu, -⟩ := @splitFirst_spec _ _ u1 (hp.extent_ok hl) h1 h2
  have hcov : (splitFirst ex split u1).covers b = true ↔ ex.firstBlock ≤ b ∧ b < split := by
    rw [Extent.covers_iff, hf, hlen]
    omega
  unfold Tree.map
  rw [withExtent_extents, plug_extents_at hl, mapOf_append _ (_ :: _), mapOf_append _ (_ :: _),
    mapOf_cons, mapOf_cons]
  by_cases hc : ex.covers b = true
  · obtain ⟨hA, hB⟩ := mapOf_around (chain_at hp hl) hc
    rw [if_pos hc, hA, hB, Option.none_or]
    by_cases hb : b < split
    · rw [if_pos (hcov.2 ⟨(Extent.covers_iff.1 hc).1, hb⟩), if_pos hb, Extent.value, hf, hs, hu]
    · rw [if_neg (fun h => hb (hcov.1 h).2), if_neg hb]
  · have hc' : ¬ (splitFirst ex split u1).covers b = true := by
      rw [hcov]
      rw [Extent.covers_iff] at hc
      omega
    rw [if_neg hc, if_neg hc, if_neg hc']

include hp hl hphys h1 h2 in
/-- The second half can be inserted. -/
theorem newex_apart :
    NoOverlap (p.withExtent left (splitFirst ex split u1) right).plug (splitNewex ex split u2) ∧
      (splitNewex ex split u2).Ok (2 ^ 32) ∧
      (splitNewex ex split u2).firstBlock + (splitNewex ex split u2).getActualLen ≤ p.ctx.ceil := by
  have hex := hp.extent_ok hl
  obtain ⟨hf, -, hlen, -, hc⟩ := @splitNewex_spec _ _ u2 hex hphys h1 h2
  obtain ⟨-, -, -, hexceil, hright, -, -⟩ := hp.leaf_ok hl
  have hend := hexceil.2.1
  have htop := hright.top_le extent_lt
  have hend' := hex.2.1
  refine ⟨fun b hb => ?_, ⟨by omega, by omega, hc⟩, by omega⟩
  have hcov := Extent.covers_iff.1 hb
  rw [hf, hlen] at hcov
  rw [first_map hp hl h1 h2, if_pos (Extent.covers_iff.2 (by omega)), if_neg (by omega)]

include hp hl hphys h1 h2 in
theorem newex_fits : (p.withExtent left (splitFirst ex split u1) right).Fits cap
    (splitNewex ex split u2).firstBlock := by
  rw [(splitNewex_spec (hp.extent_ok hl) hphys h1 h2).1]
  exact first_fits hp hl h1 h2

include hp hl hphys h1 h2 in
/-- **What the halves map**: the same blocks, each half with its own mark. -/
theorem halves_map {D' : ℕ} {p' : Path D'} {news : List ℕ}
    (hg : (p.withExtent left (splitFirst ex split u1) right).Gained cap (splitNewex ex split u2) p'
      news) (b : ℕ) :
    p'.plug.map b = if ex.covers b then
      some (ex.start + (b - ex.firstBlock), if b < split then u1 else u2) else p.plug.map b := by
  obtain ⟨hf, hs, hlen, hu, -⟩ := @splitNewex_spec _ _ u2 (hp.extent_ok hl) hphys h1 h2
  have hcov : (splitNewex ex split u2).covers b = true ↔
      split ≤ b ∧ b < ex.firstBlock + ex.getActualLen := by
    rw [Extent.covers_iff, hf, hlen]
    omega
  rw [hg.adds b, first_map hp hl h1 h2]
  by_cases hc : ex.covers b = true
  · have hb := Extent.covers_iff.1 hc
    rw [if_pos hc, if_pos hc]
    by_cases hlt : b < split
    · rw [if_neg (by rw [hcov]; omega), if_pos hlt, if_pos hlt]
    · rw [if_pos (hcov.2 ⟨by omega, hb.2⟩), if_neg hlt, Extent.value, hf, hs, hu]
      congr 2
      omega
  · rw [if_neg hc, if_neg hc, if_neg]
    rw [hcov]
    rw [Extent.covers_iff] at hc
    omega

include hl in
/-- The other extents stay. -/
theorem halves_others {D' : ℕ} {p' : Path D'} {news : List ℕ}
    (hg : (p.withExtent left (splitFirst ex split u1) right).Gained cap newext p' news)
    {e : Extent} (he : e ∈ p.plug.root.extents) (hne : e ≠ ex) : e ∈ p'.plug.root.extents := by
  refine hg.extents.mem_iff.2 (List.mem_cons_of_mem _ ?_)
  rw [withExtent_extents]
  rw [plug_extents_at hl] at he
  rcases List.mem_append.1 he with h | h
  · exact List.mem_append.2 (.inl h)
  · refine List.mem_append.2 (.inr (List.mem_cons_of_mem _ ?_))
    exact (List.mem_cons.1 h).resolve_left hne

end

end Halves

/-! ## Converting a range -/

/-- **The range is converted**: its blocks are written, nothing else changes. -/
structure Converted (cap : ℕ) (t t' : Tree) (ex : Extent) (split blocks : ℕ) : Prop where
  ok : t'.Ok cap
  map : ∀ b, t'.map b = if split ≤ b ∧ b < split + blocks then
    (t.map b).map fun v => (v.1, false) else t.map b
  others : ∀ e ∈ t.root.extents, e ≠ ex → e ∈ t'.root.extents

/-- `ext4_find_extent` and `ext4_ext_convert_to_initialized` on the path
    found. -/
def extFindConvert (fuel split blocks : ℕ) : ExtM Unit := do
  let r ← findExtent split
  extConvertToInitialized fuel r.1 r.2 split blocks

section Convert

variable {cap D fuel : ℕ} {p : Path D} {left right : List Extent} {ex : Extent} {split blocks : ℕ}
  {u1 u2 : Bool}

theorem map_at {b₀ : ℕ} (hp : p.Fits cap b₀) (hl : p.leaf = .at left ex right) {b : ℕ}
    (hb : ex.covers b = true) : p.plug.map b = some (ex.value b) := by
  obtain ⟨hA, -⟩ := mapOf_around (chain_at hp hl) hb
  unfold Tree.map
  rw [plug_extents_at hl, mapOf_append, hA, Option.none_or, mapOf_cons, if_pos hb]

/-- A split at a block inside the extent, whose insertion succeeds. -/
theorem extSplitExtentAt_done (hl : p.leaf = .at left ex right) (h1 : ex.firstBlock < split)
    {fs fs' : ExtFs} {D' : ℕ} {p' : Path D'}
    (h : extInsertPath (splitNewex ex split u2) true fuel D
      (p.withExtent left (splitFirst ex split u1) right)
      { fs with tree := (p.withExtent left (splitFirst ex split u1) right).plug } =
        (.ok (.done D' p'), fs')) :
    extSplitExtentAt fuel D p split u1 u2 fs = (.ok (some ⟨D', p'⟩), fs') := by
  rw [extSplitExtentAt_run hl (Nat.ne_of_gt h1), h]

/-- A range at one end of the extent: the blocks before `cut` get mark `u1`,
    those from `cut` on mark `u2`. -/
theorem converted_of_gained {b₀ cut : ℕ} (hp : p.Fits cap b₀) (hl : p.leaf = .at left ex right)
    (hu : ex.isUnwritten = true) (hphys : ex.start + ex.getActualLen ≤ 2 ^ 48)
    (h1 : ex.firstBlock < cut) (h2 : cut < ex.firstBlock + ex.getActualLen)
    (hrange : ∀ b, ex.covers b = true →
      ((if b < cut then u1 else u2) = false ↔ split ≤ b ∧ b < split + blocks))
    (hin : ∀ b, split ≤ b → b < split + blocks → ex.covers b = true)
    {D' : ℕ} {p' : Path D'} {news : List ℕ}
    (hg : (p.withExtent left (splitFirst ex cut u1) right).Gained cap (splitNewex ex cut u2) p'
      news) (hnodup : (news ++ p.plug.root.blocks).Nodup) :
    Converted cap p.plug p'.plug ex split blocks := by
  refine ⟨⟨hg.ok, ?_⟩, fun b => ?_, fun e he hne => halves_others hl hg he hne⟩
  · refine hg.blocks.nodup_iff.2 ?_
    exact ((withExtent_blocks _).append_left news).nodup_iff.2 hnodup
  · rw [halves_map hp hl hphys h1 h2 hg]
    by_cases hc : ex.covers b = true
    · rw [if_pos hc, map_at hp hl hc, Extent.value, hu]
      by_cases hb : split ≤ b ∧ b < split + blocks
      · rw [if_pos hb, (hrange b hc).2 hb]
        rfl
      · have := mt (hrange b hc).1 hb
        rw [if_neg hb, Bool.not_eq_false] at *
        rw [this]
    · rw [if_neg hc, if_neg fun h => hc (hin b h.1 h.2)]

/-- A split at a block inside an extent of a leaf with room. -/
theorem split_room {b₀ cut : ℕ} (hp : p.Fits cap b₀) (hl : p.leaf = .at left ex right)
    (hphys : ex.start + ex.getActualLen ≤ 2 ^ 48) (h1 : ex.firstBlock < cut)
    (h2 : cut < ex.firstBlock + ex.getActualLen) (hroom : p.full = false) :
    ∃ p', (p.withExtent left (splitFirst ex cut u1) right).Gained cap (splitNewex ex cut u2) p' [] ∧
      ∀ fuel fs, extSplitExtentAt (fuel + 1) D p cut u1 u2 fs =
        (.ok (some ⟨D, p'⟩), { fs with tree := p'.plug }) := by
  obtain ⟨hno, hn, hend⟩ := @newex_apart _ _ _ _ _ _ _ u1 u2 _ hp hl hphys h1 h2
  have hfits := @newex_fits _ _ _ _ _ _ _ u1 u2 _ hp hl hphys h1 h2
  have hroom' := (withExtent_full hl (splitFirst ex cut u1)).trans hroom
  obtain ⟨p', hg, hrun⟩ := extInsertPath_room hfits hno hn hend hroom'
  exact ⟨p', hg, fun fuel fs => extSplitExtentAt_done hl h1 (hrun fuel _)⟩

/-- A split at a block inside an extent of a full leaf. -/
theorem split_full {bs b₀ cut : ℕ} (hbs : 1024 ≤ bs) (hcap : cap = extSpaceBlock bs)
    (hp : p.Fits cap b₀) (hl : p.leaf = .at left ex right)
    (hphys : ex.start + ex.getActualLen ≤ 2 ^ 48) (h1 : ex.firstBlock < cut)
    (h2 : cut < ex.firstBlock + ex.getActualLen) (hfull : p.full = true) (nb : ℕ) :
    ∃ k ≤ D + 1, ∀ fs : ExtFs, fs.blockSize = bs → fs.faults = [] → ∀ news rest,
      fs.fresh = nb :: (news ++ rest) → news.length = k → ∀ fuel, ∃ D' p',
        extSplitExtentAt (fuel + 2) D p cut u1 u2 fs =
          (.ok (some ⟨D', p'⟩), { fs with tree := p'.plug, fresh := rest }) ∧
        (p.withExtent left (splitFirst ex cut u1) right).Gained cap (splitNewex ex cut u2) p'
          (nb :: news) := by
  obtain ⟨hno, hn, hend⟩ := @newex_apart _ _ _ _ _ _ _ u1 u2 _ hp hl hphys h1 h2
  have hfits := @newex_fits _ _ _ _ _ _ _ u1 u2 _ hp hl hphys h1 h2
  have hfull' := (withExtent_full hl (splitFirst ex cut u1)).trans hfull
  obtain ⟨k, hk, hrun⟩ := extInsertPath_split hbs hcap (first_ok hp hl h1 h2) hfits hno hn hend
    hfull' nb
  refine ⟨k, hk, fun fs hsize hf news rest hfresh hlen fuel => ?_⟩
  obtain ⟨D', p', hrun, hg⟩ := hrun
    { fs with tree := (p.withExtent left (splitFirst ex cut u1) right).plug } rfl hsize hf news rest
    hfresh hlen fuel
  exact ⟨D', p', extSplitExtentAt_done hl h1 hrun, hg⟩

theorem setLenAt_extents (b len : ℕ) : ∀ {d : ℕ} (n : Node d), (n.setLenAt b len).extents =
    n.extents.map fun e => if e.firstBlock = b then { e with blockCount := len } else e
  | 0, _ => rfl
  | d + 1, n => by
    show ((IndexNode.ents n).map _).flatMap _ = ((IndexNode.ents n).flatMap _).map _
    rw [List.flatMap_map, List.map_flatMap]
    congr 1
    funext e
    exact setLenAt_extents b len e.node

/-- Storing a length in an entry leaves those before it alone. -/
theorem setLen_before {as bs : List Extent} {e : Extent} {hi : ℕ} (len : ℕ)
    (h : Chain Extent.firstBlock Extent.Ok hi (as ++ e :: bs)) :
    as.map (fun a => if a.firstBlock = e.firstBlock then { a with blockCount := len } else a) =
      as := by
  rw [chain_append, top_cons] at h
  refine (List.map_congr_left fun a ha => ?_).trans (List.map_id as)
  have := (h.1.key_lt extent_lt a ha).2
  exact if_neg (Nat.ne_of_lt this)

/-- **A failed split leaves the extent written**: there is no block for the
    second half. -/
theorem split_nospc {b₀ cut : ℕ} (hp : p.Fits cap b₀) (hl : p.leaf = .at left ex right)
    (hphys : ex.start + ex.getActualLen ≤ 2 ^ 48) (h1 : ex.firstBlock < cut)
    (h2 : cut < ex.firstBlock + ex.getActualLen) (hfull : p.full = true) {fs : ExtFs}
    (hf : fs.faults = []) (hfresh : fs.fresh = []) (fuel : ℕ) :
    ∃ fs', extSplitExtentAt (fuel + 1) D p cut u1 u2 fs = (.ok none, fs') ∧
      ∀ b, ex.covers b = true →
        fs'.tree.map b = some (ex.start + (b - ex.firstBlock), false) := by
  have hex := hp.extent_ok hl
  obtain ⟨hfirst, hstart, -⟩ := @splitFirst_spec _ _ u1 hex h1 h2
  obtain ⟨hno, hn, -⟩ := @newex_apart _ _ _ _ _ _ _ u1 u2 _ hp hl hphys h1 h2
  have hfits := @newex_fits _ _ _ _ _ _ _ u1 u2 _ hp hl hphys h1 h2
  have hfull' := (withExtent_full hl (splitFirst ex cut u1)).trans hfull
  have hrun := @extInsertPath_nospc _ _ _
    { fs with tree := (p.withExtent left (splitFirst ex cut u1) right).plug } _ _ _ rfl
    (extInsertLeaf_full hfits hno hn hfull') rfl hf hfresh fuel
  refine ⟨_, by rw [extSplitExtentAt_run hl (Nat.ne_of_gt h1), hrun], fun b hb => ?_⟩
  have hchain := chain_at hp hl
  obtain ⟨hA, -⟩ := mapOf_around hchain hb
  have hlen := hex.len_le
  unfold Tree.map
  simp only
  rw [setLenAt_extents, withExtent_extents, List.map_append, List.map_cons,
    setLen_before ex.getActualLen hchain, hfirst, if_pos rfl, mapOf_append, hA, Option.none_or,
    mapOf_cons]
  have hactual : ∀ e : Extent, e.blockCount = ex.getActualLen →
      e.getActualLen = ex.getActualLen ∧ e.isUnwritten = false := by
    intro e he
    unfold Extent.isUnwritten
    rw [Extent.getActualLen, he, if_pos hlen]
    exact ⟨rfl, by simpa using hlen⟩
  rw [hstart]
  obtain ⟨hal, hun⟩ := hactual ⟨ex.firstBlock, ex.getActualLen, ex.start⟩ rfl
  rw [if_pos, Extent.value, hun]
  rw [Extent.covers_iff, hal]
  exact Extent.covers_iff.1 hb

/-- The second split of a range strictly inside an extent works on the extent
    `ex` the first one has inserted, which starts above `split`: the extents
    before it stay as they are. -/
theorem second_split (hl : p.leaf = .at left ex right) (h1 : split < ex.firstBlock)
    (hchain : Chain Extent.firstBlock Extent.Ok (2 ^ 32)
      ((p.ctx.before ++ left) ++ ex :: (right ++ p.ctx.after)))
    {fs : ExtFs} (hf : fs.faults = []) (hfresh : fs.fresh = []) (fuel : ℕ) :
    ∃ r fs', extSplitExtentAt (fuel + 1) D p split u1 u2 fs = (.ok r, fs') ∧
      ∃ rest, fs'.tree.root.extents = (p.ctx.before ++ left) ++ rest := by
  have hfirst : (splitFirst ex split u1).firstBlock = ex.firstBlock := Extent.setLen_firstBlock ..
  have hnew : (splitNewex ex split u2).firstBlock = split := Extent.setLen_firstBlock ..
  have hl' : (p.withExtent left (splitFirst ex split u1) right).leaf =
    .at left (splitFirst ex split u1) right := rfl
  have hne : ¬ (splitNewex ex split u2).firstBlock = (splitFirst ex split u1).firstBlock := by
    rw [hfirst, hnew]
    omega
  rw [extSplitExtentAt_run hl (Nat.ne_of_lt h1)]
  by_cases hfull : (p.withExtent left (splitFirst ex split u1) right).full = true
  · have hr : extInsertLeaf (p.withExtent left (splitFirst ex split u1) right)
        (splitNewex ex split u2) true = .needSplit := by
      unfold extInsertLeaf
      simp only [hl', if_neg hne, hfull]
      rfl
    rw [@extInsertPath_nospc _ _ _ { fs with
      tree := (p.withExtent left (splitFirst ex split u1) right).plug } _ _ _ hl' hr rfl hf hfresh]
    refine ⟨_, _, rfl, ?_⟩
    simp only
    rw [setLenAt_extents, withExtent_extents, List.map_append, setLen_before _ hchain]
    exact ⟨_, rfl⟩
  · have hr : ∃ first, extInsertLeaf (p.withExtent left (splitFirst ex split u1) right)
        (splitNewex ex split u2) true =
          .done ((p.withExtent left (splitFirst ex split u1) right).withLeaf
            (.at left (splitNewex ex split u2) (splitFirst ex split u1 :: right)) first) := by
      unfold extInsertLeaf
      simp only [hl', Bool.eq_false_iff.2 hfull, Bool.not_true, Bool.false_and,
        Bool.false_eq_true, if_false, hfirst, hnew, if_neg (Nat.ne_of_lt h1), if_neg h1.not_gt]
      exact ⟨_, rfl⟩
    obtain ⟨first, hr⟩ := hr
    rw [extInsertPath, hr]
    refine ⟨_, _, rfl, ?_⟩
    show ∃ rest, ((p.withExtent left (splitFirst ex split u1) right).withLeaf _
      first).plug.root.extents = _
    rw [withLeaf_extents]
    refine ⟨splitNewex ex split u2 :: splitFirst ex split u1 :: (right ++ p.ctx.after), ?_⟩
    simp [LeafCursor.exts, Path.withExtent]

/-- The path a lookup without faults ends at. -/
theorem exists_found {t : Tree} {b : ℕ} (hb : b < 2 ^ 32)
    (hok : t.root.Ok cap Tree.rootSpace (2 ^ 32)) : ∃ p : Path t.depth, p.Found cap t b ∧
      ∀ fs : ExtFs, fs.tree = t → fs.faults = [] → findExtent b fs = (.ok ⟨t.depth, p⟩, fs) := by
  obtain ⟨p, hp, hrun⟩ := exists_found_again hb hok
  refine ⟨p, hp, fun fs htree hf => ?_⟩
  unfold findExtent
  rw [Prog.bind_ok (access_run hf)]
  exact hrun fs htree hf

/-- The path found for a block of an extent ends at that extent. -/
theorem Path.Fits.at_extent {b : ℕ} (hp : p.Fits cap b)
    (hex : ex ∈ p.plug.root.extents) (hb : ex.covers b = true) :
    ∃ left right, p.leaf = .at left ex right := by
  have hmap := hp.map_eq
  have hok : p.plug.root.Ok cap Tree.rootSpace (2 ^ 32) := Ctx.plug_ok hp.ctx hp.low hp.node
  have hunique := filter_covers_le (b := b) hok.chain.1
  have hfind := map_of_covers hunique hex hb
  unfold Tree.map mapOf at hmap
  rw [hfind] at hmap
  rcases hl : p.leaf with - | ⟨left, e, right⟩ <;> rw [hl] at hmap
  · cases hmap
  · simp only at hmap
    split_ifs at hmap with hc
    · have hmem : e ∈ p.plug.root.extents := by
        rw [plug_extents_at hl]
        exact List.mem_append.2 (.inr (List.mem_cons_self ..))
      have h := map_of_covers hunique hmem hc
      rw [hfind, Option.some.injEq] at h
      exact ⟨left, right, by rw [h]⟩
    · cases hmap

/-- The leaf a lookup ends at, through the path. -/
theorem Path.Fits.leafAt {b : ℕ} (hp : p.Fits cap b) :
    p.plug.root.leafAt b = some ⟨p.maxEntries, p.leaf.exts⟩ :=
  (hp.ctx.walk hp.floor_le hp.lt_ceil hp.low hp.node).2.1

variable (h0 : 0 < blocks) (h1 : ex.firstBlock ≤ split)
  (h2 : split + blocks ≤ ex.firstBlock + ex.getActualLen)
  (h3 : ex.firstBlock + ex.getActualLen ≤ 2 ^ 32)

include h1 in
theorem convert_suffix (hl : p.leaf = .at left ex right)
    (hend : split + blocks = ex.firstBlock + ex.getActualLen) (fs : ExtFs) :
    extConvertToInitialized fuel D p split blocks fs =
      (do let _ ← extSplitExtentAt fuel D p split true false; pure () : ExtM Unit) fs := by
  unfold extConvertToInitialized
  simp only [hl, if_neg (Nat.not_lt.2 h1), hend, if_true]

include h0 h2 h3 in
/-- The end of the range, in 32 bits. -/
theorem convert_end (hend : split + blocks ≠ ex.firstBlock + ex.getActualLen) :
    u32 (split + blocks) = split + blocks ∧
      ¬ u32 (split + blocks) = u32 (ex.firstBlock + ex.getActualLen) := by
  have hlt : split + blocks < 2 ^ 32 := by omega
  rw [u32_of_lt hlt]
  refine ⟨rfl, fun h => ?_⟩
  rcases Nat.lt_or_eq_of_le h3 with h' | h'
  · rw [u32_of_lt h'] at h
    exact hend h
  · rw [h', u32, Nat.mod_self] at h
    omega

include h0 h2 h3 in
theorem convert_prefix (hl : p.leaf = .at left ex right) (hs : ex.firstBlock = split)
    (hend : split + blocks ≠ ex.firstBlock + ex.getActualLen) (fs : ExtFs) :
    extConvertToInitialized fuel D p split blocks fs =
      (do let _ ← extSplitExtentAt fuel D p (split + blocks) false true; pure () : ExtM Unit) fs := by
  obtain ⟨he, hne⟩ := convert_end h0 h2 h3 hend
  subst hs
  unfold extConvertToInitialized
  simp only [hl, Nat.lt_irrefl, if_false, if_neg hne, if_true]
  rw [he]

include h0 h1 h2 h3 in
theorem convert_middle (hl : p.leaf = .at left ex right) (hs : ex.firstBlock ≠ split)
    (hend : split + blocks ≠ ex.firstBlock + ex.getActualLen) {fs fs' : ExtFs} {D' : ℕ}
    {p' : Path D'} (h : extSplitExtentAt fuel D p (split + blocks) true true fs =
      (.ok (some ⟨D', p'⟩), fs')) :
    extConvertToInitialized fuel D p split blocks fs =
      (do let _ ← extSplitExtentAt fuel D' p' split true false; pure () : ExtM Unit) fs' := by
  obtain ⟨he, hne⟩ := convert_end h0 h2 h3 hend
  unfold extConvertToInitialized
  simp only [hl, if_neg (Nat.not_lt.2 h1), if_neg hne, if_neg hs]
  rw [he, Prog.bind_ok h]

include h0 h1 h2 h3 in
/-- A range at one end of the extent takes one split, at `cut`. -/
theorem convert_cut (hl : p.leaf = .at left ex right)
    (hends : split = ex.firstBlock ∨ split + blocks = ex.firstBlock + ex.getActualLen)
    (hwhole : ¬ (split = ex.firstBlock ∧ split + blocks = ex.firstBlock + ex.getActualLen)) :
    ∃ cut u1 u2, ex.firstBlock < cut ∧ cut < ex.firstBlock + ex.getActualLen ∧
      (∀ b, ex.covers b = true →
        ((if b < cut then u1 else u2) = false ↔ split ≤ b ∧ b < split + blocks)) ∧
      ∀ fuel fs, extConvertToInitialized fuel D p split blocks fs =
        (do let _ ← extSplitExtentAt fuel D p cut u1 u2; pure () : ExtM Unit) fs := by
  by_cases hend : split + blocks = ex.firstBlock + ex.getActualLen
  · refine ⟨split, true, false, by omega, by omega, fun b hb => ?_,
      fun fuel fs => convert_suffix h1 hl hend fs⟩
    have hc := Extent.covers_iff.1 hb
    by_cases hlt : b < split
    · rw [if_pos hlt]
      exact ⟨nofun, fun h => by omega⟩
    · rw [if_neg hlt]
      exact ⟨fun _ => by omega, fun _ => rfl⟩
  · have hs := hends.resolve_right hend
    refine ⟨split + blocks, false, true, by omega, by omega, fun b hb => ?_,
      fun fuel fs => convert_prefix h0 h2 h3 hl hs.symm hend fs⟩
    have hc := Extent.covers_iff.1 hb
    by_cases hlt : b < split + blocks
    · rw [if_pos hlt]
      exact ⟨fun _ => by omega, fun _ => rfl⟩
    · rw [if_neg hlt]
      exact ⟨nofun, fun h => by omega⟩

/-- The whole extent is marked. -/
theorem convert_whole {b₀ : ℕ} (hp : p.Fits cap b₀) (hl : p.leaf = .at left ex right)
    (hs : split = ex.firstBlock) (hend : split + blocks = ex.firstBlock + ex.getActualLen)
    (hnodup : p.plug.root.blocks.Nodup) (fs : ExtFs) :
    ∃ t, extConvertToInitialized fuel D p split blocks fs = (.ok (), { fs with tree := t }) ∧
      Converted cap p.plug t ex split blocks := by
  have hex := hp.extent_ok hl
  have hlen := hex.len_le
  have hactual : ex.markInitialized.getActualLen = ex.getActualLen := by
    unfold Extent.markInitialized
    rw [Extent.getActualLen, if_pos hlen]
  have hwritten : ex.markInitialized.isUnwritten = false := by
    unfold Extent.markInitialized Extent.isUnwritten
    simpa using hlen
  have hcov (b : ℕ) : ex.markInitialized.covers b = ex.covers b := by
    unfold Extent.covers
    rw [hactual]
    rfl
  refine ⟨(p.withExtent left ex.markInitialized right).plug, ?_, ⟨?_, ?_⟩, fun b => ?_,
    fun e he hne => ?_⟩
  · rw [convert_suffix hs.ge hl hend]
    unfold extSplitExtentAt
    simp only [hl, if_pos hs]
    rfl
  · refine withExtent_ok hp hl rfl (by rw [hactual]; exact hex.1) hactual.le ?_
    show ex.getActualLen < 2 ^ 16
    omega
  · exact (withExtent_blocks _).nodup_iff.2 hnodup
  · unfold Tree.map
    rw [withExtent_extents, plug_extents_at hl, mapOf_append _ (_ :: _), mapOf_append _ (_ :: _),
      mapOf_cons, mapOf_cons, hcov]
    have hiff : ex.covers b = true ↔ split ≤ b ∧ b < split + blocks := by
      rw [Extent.covers_iff]
      omega
    by_cases hc : ex.covers b = true
    · obtain ⟨hA, -⟩ := mapOf_around (chain_at hp hl) hc
      rw [if_pos hc, if_pos hc, if_pos (hiff.1 hc), hA, Option.none_or, Option.none_or,
        Extent.value, hwritten]
      rfl
    · rw [if_neg hc, if_neg hc, if_neg (mt hiff.2 hc)]
  · rw [withExtent_extents]
    rw [plug_extents_at hl] at he
    rcases List.mem_append.1 he with h | h
    · exact List.mem_append.2 (.inl h)
    · exact List.mem_append.2 (.inr (List.mem_cons_of_mem _ ((List.mem_cons.1 h).resolve_left hne)))

theorem exists_above : ∀ l : List ℕ, ∃ m, ∀ b ∈ l, b < m
  | [] => ⟨0, nofun⟩
  | a :: l => by
    obtain ⟨m, hm⟩ := exists_above l
    refine ⟨max (a + 1) m, fun b hb => ?_⟩
    rcases List.mem_cons.1 hb with rfl | hb
    · omega
    · have := hm b hb
      omega

include h0 h1 h2 in
/-- **A range strictly inside the extent is not converted**: some run returns
    `EOK` with the first block of the range still unwritten. -/
theorem middle_wrong {bs : ℕ} (hbs : 1024 ≤ bs) (hcap : cap = extSpaceBlock bs)
    (hp : p.Fits cap split) (hl : p.leaf = .at left ex right)
    (hphys : ex.start + ex.getActualLen ≤ 2 ^ 48) (hs : ex.firstBlock ≠ split)
    (hend : split + blocks ≠ ex.firstBlock + ex.getActualLen) (hfuel : 2 ≤ fuel)
    (fs : ExtFs) (hsize : fs.blockSize = bs) (hf : fs.faults = [])
    (hnodup : p.plug.root.blocks.Nodup) :
    ∃ fresh, (fresh ++ p.plug.root.blocks).Nodup ∧ ∃ fs',
      extConvertToInitialized fuel D p split blocks { fs with fresh := fresh } = (.ok (), fs') ∧
      fs'.tree.map split = some (ex.start + (split - ex.firstBlock), true) := by
  have hex := hp.extent_ok hl
  have hcut1 : ex.firstBlock < split + blocks := by omega
  have hcut2 : split + blocks < ex.firstBlock + ex.getActualLen := by omega
  obtain ⟨k, rfl⟩ : ∃ k, fuel = k + 2 := ⟨fuel - 2, by omega⟩
  -- the first split, with the blocks it needs and no more
  obtain ⟨fresh, hnd, D', p', news, fs₁, hg, hrun, hf₁, hfresh₁⟩ : ∃ fresh,
      (fresh ++ p.plug.root.blocks).Nodup ∧ ∃ D', ∃ p' : Path D', ∃ news fs₁,
      (p.withExtent left (splitFirst ex (split + blocks) true) right).Gained cap
        (splitNewex ex (split + blocks) true) p' news ∧
      extSplitExtentAt (k + 2) D p (split + blocks) true true { fs with fresh := fresh } =
        (.ok (some ⟨D', p'⟩), fs₁) ∧ fs₁.faults = [] ∧ fs₁.fresh = [] := by
    by_cases hfull : p.full = true
    · obtain ⟨m, hm⟩ := exists_above p.plug.root.blocks
      obtain ⟨n, -, hsplit⟩ := @split_full _ _ _ _ _ _ true true _ _ _ hbs hcap hp hl hphys hcut1 hcut2 hfull m
      obtain ⟨D', p', hrun, hg⟩ := hsplit { fs with fresh := m :: List.range' (m + 1) n } hsize hf
        (List.range' (m + 1) n) [] (by simp) (by simp) k
      refine ⟨m :: List.range' (m + 1) n, ?_, D', p', _, _, hg, hrun, hf, rfl⟩
      refine List.nodup_append.2 ⟨(List.nodup_range' : (List.range' m (n + 1)).Nodup), hnodup, ?_⟩
      rintro a ha b hb rfl
      have hlt := hm a hb
      rcases List.mem_cons.1 ha with rfl | ha
      · exact Nat.lt_irrefl _ hlt
      · have := (List.mem_range'_1.1 ha).1
        omega
    · obtain ⟨p', hg, hrun⟩ := @split_room _ _ _ _ _ _ true true _ _ hp hl hphys hcut1 hcut2
        (by simpa using hfull)
      exact ⟨[], hnodup, D, p', _, _, hg, hrun (k + 1) _, hf, rfl⟩
  refine ⟨fresh, hnd, ?_⟩
  rw [convert_middle h0 h1 h2 hex.2.1 hl hs hend hrun]
  -- the cursor is at the second half, behind the block
  obtain ⟨l, r, hl'⟩ := hg.cursor
  have hfirst := (@splitNewex_spec _ _ true hex hphys hcut1 hcut2).1
  have hchain := hg.ok.chain.1
  rw [plug_extents_at hl'] at hchain
  obtain ⟨res, fs₂, hrun₂, rest, hrest⟩ := @second_split _ _ _ _ _ split true false hl'
    (by rw [hfirst]; omega) hchain _ hf₁ hfresh₁ (k + 1)
  refine ⟨fs₂, Prog.bind_ok hrun₂, ?_⟩
  have hmap := halves_map hp hl hphys hcut1 hcut2 hg split
  rw [if_pos (Extent.covers_iff.2 (by omega)), if_pos (by omega)] at hmap
  unfold Tree.map at hmap ⊢
  rw [plug_extents_at hl', mapOf_append] at hmap
  have hbehind : mapOf (splitNewex ex (split + blocks) true :: (r ++ p'.ctx.after)) split = none := by
    rw [chain_append] at hchain
    exact mapOf_none_of_lt hchain.2 (by rw [top_cons, hfirst]; omega)
  rw [hbehind, Option.or_none] at hmap
  rw [hrest, mapOf_append, hmap, Option.some_or]

/-- A leaf that is not full has room for another extent. -/
theorem Path.Fits.room_iff {b : ℕ} (hp : p.Fits cap b) : p.full = false ↔
    ∃ lf, p.plug.root.leafAt b = some lf ∧ lf.exts.length < lf.maxEntries := by
  have hle : p.leaf.exts.length ≤ p.maxEntries := (Node.ok_leaf.1 hp.node).2.2.1
  unfold Path.full
  rw [decide_eq_false_iff_not]
  refine ⟨fun h => ⟨_, hp.leafAt, Nat.lt_of_le_of_ne hle h⟩, ?_⟩
  rintro ⟨lf, hlf, hlt⟩
  rw [hp.leafAt, Option.some.injEq] at hlf
  subst hlf
  exact Nat.ne_of_lt hlt

/-- What a converted range makes of the blocks of an unwritten extent. -/
theorem Converted.map_at {t : Tree} {b b₀ : ℕ} (hc : Converted cap p.plug t ex split blocks)
    (hp : p.Fits cap b₀) (hl : p.leaf = .at left ex right) (hu : ex.isUnwritten = true)
    (hb : ex.covers b = true) : t.map b =
      some (ex.start + (b - ex.firstBlock), !decide (split ≤ b ∧ b < split + blocks)) := by
  rw [hc.map b, Lwext4.map_at hp hl hb, Extent.value, hu]
  split_ifs with h <;> simp [h]

section Ends

variable (hp : p.Fits cap split) (hl : p.leaf = .at left ex right) (hu : ex.isUnwritten = true)
  (hphys : ex.start + ex.getActualLen ≤ 2 ^ 48)
  (hends : split = ex.firstBlock ∨ split + blocks = ex.firstBlock + ex.getActualLen)
  (hwhole : ¬ (split = ex.firstBlock ∧ split + blocks = ex.firstBlock + ex.getActualLen))

include h0 h1 h2 hp hl hu hphys hends hwhole in
/-- In a leaf with room a range at one end of the extent is converted. -/
theorem convert_room (hroom : p.full = false) (hnodup : p.plug.root.blocks.Nodup) (fs : ExtFs) :
    ∃ t, extConvertToInitialized (fuel + 1) D p split blocks fs = (.ok (), { fs with tree := t }) ∧
      Converted cap p.plug t ex split blocks := by
  obtain ⟨cut, u1, u2, hcut1, hcut2, hrange, heq⟩ :=
    convert_cut h0 h1 h2 (hp.extent_ok hl).2.1 hl hends hwhole
  obtain ⟨p', hg, hrun⟩ := @split_room _ _ _ _ _ _ u1 u2 _ _ hp hl hphys hcut1 hcut2 hroom
  refine ⟨p'.plug, (heq _ _).trans (Prog.bind_ok (hrun fuel fs)), ?_⟩
  exact converted_of_gained hp hl hu hphys hcut1 hcut2 hrange
    (fun b hb1 hb2 => Extent.covers_iff.2 (by omega)) hg hnodup

include h0 h1 h2 hp hl hu hphys hends hwhole in
/-- In a full leaf it is when nothing fails: a new leaf and at most one node
    of each level above it are needed. -/
theorem convert_full {bs : ℕ} (hbs : 1024 ≤ bs) (hcap : cap = extSpaceBlock bs)
    (hfull : p.full = true) {fs : ExtFs} (hsize : fs.blockSize = bs) (hf : fs.faults = [])
    (hnodup : (fs.fresh ++ p.plug.root.blocks).Nodup) (hlen : D + 2 ≤ fs.fresh.length) :
    ∃ fs', extConvertToInitialized (fuel + 2) D p split blocks fs = (.ok (), fs') ∧
      Converted cap p.plug fs'.tree ex split blocks := by
  obtain ⟨cut, u1, u2, hcut1, hcut2, hrange, heq⟩ :=
    convert_cut h0 h1 h2 (hp.extent_ok hl).2.1 hl hends hwhole
  rcases hfresh : fs.fresh with - | ⟨nb, fresh⟩ <;> rw [hfresh] at hnodup hlen
  · simp at hlen
  obtain ⟨n, hn, hsplit⟩ :=
    @split_full _ _ _ _ _ _ u1 u2 _ _ _ hbs hcap hp hl hphys hcut1 hcut2 hfull nb
  have htake : (fresh.take n).length = n := by
    rw [List.length_cons] at hlen
    rw [List.length_take]
    omega
  obtain ⟨D', p', hrun, hg⟩ := hsplit fs hsize hf (fresh.take n) (fresh.drop n)
    (by simpa using hfresh) htake fuel
  refine ⟨_, (heq _ _).trans (Prog.bind_ok hrun), ?_⟩
  exact converted_of_gained hp hl hu hphys hcut1 hcut2 hrange
    (fun b hb1 hb2 => Extent.covers_iff.2 (by omega)) hg
    (hnodup.sublist (List.Sublist.append_right ((List.take_sublist n fresh).cons_cons nb) _))

include h0 h1 h2 hp hl hu hphys hends hwhole in
/-- In a full leaf, without a free block, `EOK` is returned and blocks of the
    extent outside the range are written too. -/
theorem convert_nospc (hfull : p.full = true) {fs : ExtFs} (hf : fs.faults = [])
    (hfresh : fs.fresh = []) :
    ∃ fs', extConvertToInitialized (fuel + 1) D p split blocks fs = (.ok (), fs') ∧
      ¬ Converted cap p.plug fs'.tree ex split blocks := by
  obtain ⟨cut, u1, u2, hcut1, hcut2, hrange, heq⟩ :=
    convert_cut h0 h1 h2 (hp.extent_ok hl).2.1 hl hends hwhole
  obtain ⟨fs', hrun, hwritten⟩ :=
    @split_nospc _ _ _ _ _ _ u1 u2 _ _ hp hl hphys hcut1 hcut2 hfull fs hf hfresh fuel
  refine ⟨fs', (heq _ _).trans (Prog.bind_ok hrun), fun hc => ?_⟩
  obtain ⟨b, hb, hout⟩ : ∃ b, ex.covers b = true ∧ ¬ (split ≤ b ∧ b < split + blocks) := by
    by_cases hs : split = ex.firstBlock
    · exact ⟨split + blocks, Extent.covers_iff.2 (by omega), by omega⟩
    · exact ⟨ex.firstBlock, Extent.covers_iff.2 (by omega), by omega⟩
  have h := hc.map_at hp hl hu hb
  rw [hwritten b hb] at h
  simp [hout] at h

end Ends

end Convert

/-- **`ext4_ext_convert_to_initialized` is exact** under every failure of the
    allocator and the device iff the range is the whole extent, or is at one
    of its ends and the leaf has room for another extent.  In a full leaf a
    range at an end is converted when nothing fails. -/
theorem convertToInitialized_exact_iff {fs : ExtFs} {ex : Extent} {split blocks fuel : ℕ}
    (hbs : 1024 ≤ fs.blockSize) (hok : fs.tree.Ok (extSpaceBlock fs.blockSize))
    (hex : ex ∈ fs.tree.root.extents) (hu : ex.isUnwritten = true)
    (hphys : ex.start + ex.getActualLen ≤ 2 ^ 48) (h0 : 0 < blocks) (h1 : ex.firstBlock ≤ split)
    (h2 : split + blocks ≤ ex.firstBlock + ex.getActualLen) (hfuel : 2 ≤ fuel) :
    ((∀ fresh faults, (fresh ++ fs.tree.root.blocks).Nodup → ∀ fs',
      extFindConvert fuel split blocks { fs with fresh := fresh, faults := faults } = (.ok (), fs') →
        Converted (extSpaceBlock fs.blockSize) fs.tree fs'.tree ex split blocks) ↔
      (split = ex.firstBlock ∧ split + blocks = ex.firstBlock + ex.getActualLen) ∨
      ((split = ex.firstBlock ∨ split + blocks = ex.firstBlock + ex.getActualLen) ∧
        ∃ lf, fs.tree.root.leafAt split = some lf ∧ lf.exts.length < lf.maxEntries)) ∧
    ((split = ex.firstBlock ∨ split + blocks = ex.firstBlock + ex.getActualLen) →
      ∀ fresh, (fresh ++ fs.tree.root.blocks).Nodup → fs.tree.depth + 2 ≤ fresh.length → ∃ fs',
        extFindConvert fuel split blocks { fs with fresh := fresh, faults := [] } = (.ok (), fs') ∧
        Converted (extSpaceBlock fs.blockSize) fs.tree fs'.tree ex split blocks) := by
  have hexok : ex.Ok (2 ^ 32) := by
    obtain ⟨as, bs, hsplit⟩ := List.append_of_mem hex
    have hchain := hok.node.chain.1
    rw [hsplit, chain_append, chain_cons] at hchain
    exact hchain.2.1.mono (hchain.2.2.top_le extent_lt)
  have hsplit : split < 2 ^ 32 := by
    have := hexok.2.1
    omega
  have hcover : ex.covers split = true := Extent.covers_iff.2 (by omega)
  obtain ⟨k, rfl⟩ : ∃ k, fuel = k + 2 := ⟨fuel - 2, by omega⟩
  -- the path of every run without faults
  obtain ⟨p, hp, hfind⟩ := exists_found hsplit hok.node
  have hconv {fresh : List ℕ} {r : Except Stop Unit × ExtFs}
      (h : extConvertToInitialized (k + 2) _ p split blocks
        { fs with fresh := fresh, faults := [] } = r) :
      extFindConvert (k + 2) split blocks { fs with fresh := fresh, faults := [] } = r := by
    unfold extFindConvert
    rw [Prog.bind_ok (hfind { fs with fresh := fresh, faults := [] } rfl rfl), ← h]
  have hplug := hp.plug
  have hnodup : p.plug.root.blocks.Nodup := by
    rw [hplug]
    exact hok.nodup
  obtain ⟨left, right, hl⟩ := hp.fits.at_extent (by rw [hplug]; exact hex) hcover
  refine ⟨⟨fun hall => ?_, fun hcond fresh faults hnd fs' hrun => ?_⟩, fun hends fresh hnd hlen => ?_⟩
  · by_cases hwhole : split = ex.firstBlock ∧ split + blocks = ex.firstBlock + ex.getActualLen
    · exact .inl hwhole
    by_cases hends : split = ex.firstBlock ∨ split + blocks = ex.firstBlock + ex.getActualLen
    · refine .inr ⟨hends, hplug ▸ hp.fits.room_iff.1 ?_⟩
      by_contra hfull
      obtain ⟨fs', hrun, hwrong⟩ := @convert_nospc _ _ (k + 1) _ _ _ _ _ _ h0 h1 h2 hp.fits hl hu
        hphys hends hwhole (by simpa using hfull) { fs with fresh := [], faults := [] } rfl rfl
      rw [hplug] at hwrong
      exact hwrong (hall [] [] hok.nodup fs' (hconv hrun))
    · obtain ⟨fresh, hnd, fs', hrun, hwrong⟩ := middle_wrong h0 h1 h2 hbs rfl hp.fits hl hphys
        (Ne.symm (mt Or.inl hends)) (mt Or.inr hends) hfuel { fs with faults := [] } rfl rfl hnodup
      rw [hplug] at hnd
      have hc := hall fresh [] hnd fs' (hconv hrun)
      rw [← hplug] at hc
      have h := hc.map_at hp.fits hl hu hcover
      rw [hwrong] at h
      simp [h0] at h
  · -- with faults the lookup fails, or finds a path to the extent
    unfold extFindConvert at hrun
    rw [Prog.bind_run] at hrun
    have hsat := sat_findExtent { fs with fresh := fresh, faults := faults } hsplit hok.node _ rfl
    rcases hf : findExtent split { fs with fresh := fresh, faults := faults } with ⟨e | ⟨D, q⟩, fs₁⟩ <;>
      rw [hf] at hrun hsat
    · cases hrun
    obtain ⟨⟨l, rfl⟩, hq⟩ := hsat
    have hplug' : q.plug = fs.tree := hq.plug
    have hnodup' : q.plug.root.blocks.Nodup := by
      rw [hplug']
      exact hok.nodup
    obtain ⟨left', right', hl'⟩ := hq.fits.at_extent (by rw [hplug']; exact hex) hcover
    simp only at hrun
    obtain ⟨fs₂, hq₂, hc⟩ : ∃ fs₂, extConvertToInitialized (k + 2) D q split blocks
        { fs with fresh := fresh, faults := l } = (.ok (), fs₂) ∧
        Converted (extSpaceBlock fs.blockSize) q.plug fs₂.tree ex split blocks := by
      by_cases hwhole : split = ex.firstBlock ∧ split + blocks = ex.firstBlock + ex.getActualLen
      · obtain ⟨t, ht, hc⟩ := @convert_whole _ _ (k + 2) _ _ _ _ _ _ _ hq.fits hl' hwhole.1
          hwhole.2 hnodup' { fs with fresh := fresh, faults := l }
        exact ⟨_, ht, hc⟩
      · obtain ⟨hends, hlf⟩ := hcond.resolve_left hwhole
        rw [← hplug'] at hlf
        obtain ⟨t, ht, hc⟩ := @convert_room _ _ (k + 1) _ _ _ _ _ _ h0 h1 h2 hq.fits hl' hu hphys
          hends hwhole (hq.fits.room_iff.2 hlf) hnodup' { fs with fresh := fresh, faults := l }
        exact ⟨_, ht, hc⟩
    rw [hq₂] at hrun
    cases hrun
    rw [← hplug']
    exact hc
  · rw [← hplug] at hnd
    by_cases hwhole : split = ex.firstBlock ∧ split + blocks = ex.firstBlock + ex.getActualLen
    · obtain ⟨t, ht, hc⟩ := @convert_whole _ _ (k + 2) _ _ _ _ _ _ _ hp.fits hl hwhole.1 hwhole.2
        hnodup { fs with fresh := fresh, faults := [] }
      rw [hplug] at hc
      exact ⟨_, hconv ht, hc⟩
    · by_cases hfull : p.full = true
      · obtain ⟨fs', hrun, hc⟩ := @convert_full _ _ k _ _ _ _ _ _ h0 h1 h2 hp.fits hl hu hphys hends
          hwhole _ hbs rfl hfull { fs with fresh := fresh, faults := [] } rfl rfl hnd hlen
        rw [hplug] at hc
        exact ⟨fs', hconv hrun, hc⟩
      · obtain ⟨t, ht, hc⟩ := @convert_room _ _ (k + 1) _ _ _ _ _ _ h0 h1 h2 hp.fits hl hu hphys
          hends hwhole (by simpa using hfull) hnodup { fs with fresh := fresh, faults := [] }
        rw [hplug] at hc
        exact ⟨_, hconv ht, hc⟩

/-- A file with one unwritten extent of six blocks. -/
def middleFs : ExtFs where
  blockSize := 1024
  tree := ⟨0, (Leaf.mk 4 [⟨0, 2 ^ 15 + 6, 100⟩] : Node 0)⟩
  fresh := [500, 501]
  freed := []
  faults := []

theorem middleFs_ok : middleFs.tree.Ok (extSpaceBlock middleFs.blockSize) where
  node := Node.ok_leaf.2 ⟨by decide, by decide, by decide, ⟨by decide, by decide, by decide⟩, trivial⟩
  nodup := List.nodup_nil

/-- Its first two blocks are converted. -/
theorem convert_prefix_exact : ∃ fs', extFindConvert 2 0 2 middleFs = (.ok (), fs') ∧
    Converted (extSpaceBlock 1024) middleFs.tree fs'.tree ⟨0, 2 ^ 15 + 6, 100⟩ 0 2 :=
  (@convertToInitialized_exact_iff middleFs ⟨0, 2 ^ 15 + 6, 100⟩ 0 2 2 (by decide) middleFs_ok
    (List.mem_cons_self ..) (by decide) (by decide) (by decide) (by decide) (by decide)
    (by decide)).2 (.inl rfl) [500, 501] (by decide) (by decide)

/-- Blocks 2 and 3 are to be converted: the call returns `EOK`, and block 2 is
    still unwritten. -/
theorem convert_middle_wrong : middleFs.tree.Ok (extSpaceBlock middleFs.blockSize) ∧
    (extFindConvert 2 2 2 middleFs).1 = .ok () ∧
    middleFs.tree.map 2 = some (102, true) ∧
    (extFindConvert 2 2 2 middleFs).2.tree.map 2 = some (102, true) ∧
    ¬ Converted (extSpaceBlock 1024) middleFs.tree (extFindConvert 2 2 2 middleFs).2.tree
      ⟨0, 2 ^ 15 + 6, 100⟩ 2 2 := by
  have hmap : (extFindConvert 2 2 2 middleFs).2.tree.map 2 = some (102, true) := by decide +kernel
  refine ⟨middleFs_ok, by decide +kernel, by decide +kernel, hmap, fun h => ?_⟩
  have h2 := h.map 2
  rw [hmap] at h2
  revert h2
  decide +kernel

end Lwext4
