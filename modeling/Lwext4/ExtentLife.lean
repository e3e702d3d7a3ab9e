/-
  The life of a file with extents (`ext4_fs.c`): `ext4_fs_append_inode_dblk`,
  `ext4_fs_truncate_inode` and the lookup of a block, with whatever else happens
  in the filesystem between the calls.

  The blocks of such a file are mapped without holes, so a new block always goes
  to the right edge of its tree (`Path.AtEnd`).  There a split moves nothing but
  the new extent, and a failed insertion leaves the tree as it was or a level
  higher (`KeptTree`); no leaf ever becomes empty (`Tree.NoEmpty`).  What the file
  holds and what its calls take and give back is counted with `Lib.Held`.

  Main result.
  * `reach_holds`: along every run the file is the list of the blocks that its
    appends have returned and its truncations have left, and besides these and
    the blocks of its tree nothing is allocated.
-/
import Lwext4.ExtentFail
import Lwext4.ExtentNext
import Lwext4.ExtentRemoveExact
import Lwext4.IndirectLife
import Lwext4.Lib.Ledger

namespace Lwext4

open Lib

/-! ## The calls -/

/-- The tree `ext4_extent_tree_init` makes. -/
def extentTreeInit : Tree := ⟨0, (Leaf.mk extSpaceRoot [] : Node 0)⟩

/-- An inode with extents, and which blocks are allocated. -/
structure ExtInode where
  size : ℕ
  tree : Tree
  used : ℕ → Bool

/-- What a call meets with: the blocks that the allocator will hand out, how the device
    accesses and allocations end, and which of the blocks that are handed back
    `ext4_balloc_free_blocks` frees, whose error is dropped. -/
structure ExtEnv (used : ℕ → Bool) where
  fresh : List ℕ
  faults : List (Option Errno)
  frees : ℕ → Bool
  nodup : fresh.Nodup
  free : ∀ b ∈ fresh, b ≠ 0 ∧ used b = false

/-- No release fails. -/
def ExtEnv.Frees {used : ℕ → Bool} (env : ExtEnv used) : Prop := ∀ b, env.frees b = true

namespace ExtInode
variable (blockSize fuel : ℕ) (s : ExtInode) (env : ExtEnv s.used)

/-- The state the extent code starts in. -/
def fs : ExtFs := ⟨blockSize, s.tree, env.fresh, [], env.faults⟩

/-- The inode once the extent code has ended in the state `fs`. -/
def after (fs : ExtFs) : ExtInode where
  size := s.size
  tree := fs.tree
  used := settle s.used (env.fresh.take (env.fresh.length - fs.fresh.length))
    ((fs.freed.flatMap blocksOf).filter env.frees)

/-- `ext4_fs_get_inode_dblk_idx_internal` on an inode with extents. -/
def ext4FsGetInodeDblkIdxInternal (iblock : ℕ) (extentCreate supportUnwritten : Bool) :
    Except Stop ℕ × ExtInode :=
  if s.size = 0 then (.ok 0, s)
  else
    match extentGetBlocks iblock 1 extentCreate fuel (s.fs blockSize env) with
    | (.error e, fs) => (.error e, s.after env fs)
    | (.ok r, fs) =>
      if r.1 ≠ 0 || supportUnwritten then (.ok r.1, s.after env fs)
      else (.error .assert, s.after env fs)

/-- `ext4_fs_append_inode_dblk` on an inode with extents: the new block and its logical
    number. -/
def ext4FsAppendInodeDblk : Except Stop (ℕ × ℕ) × ExtInode :=
  let iblock := sizeBlocksCnt blockSize s.size
  match extentGetBlocks iblock 1 true fuel (s.fs blockSize env) with
  | (.error e, fs) => (.error e, s.after env fs)
  | (.ok r, fs) =>
    if r.1 ≠ 0 then (.ok (r.1, iblock), { s.after env fs with size := s.size + blockSize })
    else (.error .assert, s.after env fs)

/-- `ext4_fs_truncate_inode` on a file or directory with extents, where `canTruncate` is
    `ext4_inode_can_truncate`. -/
def ext4FsTruncateInode (canTruncate : Bool) (newSize : ℕ) : Except Stop Unit × ExtInode :=
  if !canTruncate then (.error (.rc Errno.EINVAL), s)
  else if s.size = newSize then (.ok (), s)
  else if s.size < newSize then (.error (.rc Errno.EINVAL), s)
  else
    let newBlocksCnt := sizeBlocksCnt blockSize newSize
    let diffBlocksCnt := sub32 (sizeBlocksCnt blockSize s.size) newBlocksCnt
    if diffBlocksCnt ≠ 0 then
      match extentRemoveSpace newBlocksCnt extMaxBlocks fuel (s.fs blockSize env) with
      | (.error e, fs) => (.error e, s.after env fs)
      | (.ok _, fs) => (.ok (), { s.after env fs with size := newSize })
    else (.ok (), { s with size := newSize })

end ExtInode

/-! ## The right edge of a tree -/

section Edge

variable {cap : ℕ}

/-- Nothing lies right of the path. -/
def Ctx.Edge : {d D : ℕ} → Ctx d D → Prop
  | _, _, .nil => True
  | _, _, .cons l up => l.right = [] ∧ up.Edge

theorem Node.NoEmpty.extents_ne : ∀ {d c hi : ℕ} {n : Node d}, n.NoEmpty → n.Ok cap c hi →
    n.extents ≠ []
  | 0, _, _, _, h, _ => h
  | d + 1, _, _, n, h, hok => by
    obtain ⟨-, -, -, hne, hchain⟩ := Node.ok_index.1 hok
    obtain ⟨e, es, hents⟩ := List.exists_cons_of_ne_nil hne
    rw [hents] at hchain
    have he : e.node.extents ≠ [] :=
      (h e (by rw [hents]; exact List.mem_cons_self)).extents_ne hchain.1.2.2
    show (IndexNode.ents n).flatMap (fun e => e.node.extents) ≠ []
    rw [hents, List.flatMap_cons]
    exact List.append_ne_nil_of_left_ne_nil he _

/-- With no empty leaves, a path with no extents right of it is at the edge. -/
theorem Ctx.Ok.edge : ∀ {d D : ℕ} {c : Ctx d D}, c.Ok cap → c.NoEmpty → c.after = [] → c.Edge
  | _, _, .nil, _, _, _ => trivial
  | _, _, .cons l up, h, hne, hafter => by
    obtain ⟨hup, -, -, -, -, -, -, hright⟩ := h
    obtain ⟨hright', hup'⟩ := List.append_eq_nil_iff.1 hafter
    refine ⟨?_, hup.edge hne.2 hup'⟩
    by_contra hr
    obtain ⟨e, es, hents⟩ := List.exists_cons_of_ne_nil hr
    rw [hents] at hright hright'
    rw [List.flatMap_cons, List.append_eq_nil_iff] at hright'
    exact (hne.1 e (by simp [hents])).extents_ne hright.1.2.2 hright'.1

theorem Ctx.NoEmpty.plug : ∀ {d D : ℕ} {c : Ctx d D} {n : Node d}, c.NoEmpty → n.NoEmpty →
    (c.plug n).root.NoEmpty
  | _, _, .nil, _, _, hn => hn
  | _, _, .cons l up, n, h, hn => by
    refine Ctx.NoEmpty.plug (c := up) (n := l.plug n) h.2 ?_
    intro e he
    rcases List.mem_append.1 he with he | he
    · exact h.1 e (List.mem_append_left _ he)
    · rcases List.mem_cons.1 he with rfl | he
      · exact hn
      · exact h.1 e (List.mem_append_right _ he)

variable {D : ℕ} {p p' : Path D} {newext : Extent} {noCombine : Bool} {t : Tree} {b : ℕ}

theorem Tree.NoEmpty.ctx (h : t.NoEmpty) (hp : p.Found cap t b) : p.ctx.NoEmpty := by
  rcases h with h | h
  · have hD : D = 0 := hp.depth.trans h
    subst hD
    rcases p.ctx with - | ⟨l, up⟩
    · trivial
    · exact absurd up.depth_le (by omega)
  · rw [← hp.plug] at h
    exact (Ctx.noEmpty_of_plug h).1

theorem Path.plug_noEmpty (h : p.ctx.NoEmpty) (hl : p.leaf.exts ≠ []) : p.plug.root.NoEmpty :=
  Ctx.NoEmpty.plug (n := p.node) h hl

theorem Path.withLeaf_noEmpty (h : p.ctx.NoEmpty) {leaf : LeafCursor} {first : Option ℕ}
    (hl : leaf.exts ≠ []) : (p.withLeaf leaf first).plug.root.NoEmpty := by
  refine Path.plug_noEmpty ?_ (by rwa [withLeaf_leaf])
  rcases first with - | border
  · exact h
  · exact h.setBorder

/-- An insertion that ends in the leaf leaves no leaf empty. -/
theorem done_noEmpty (h : p.ctx.NoEmpty) (hdone : extInsertLeaf p newext noCombine = .done p') :
    p'.plug.root.NoEmpty := by
  rcases hl : p.leaf with - | ⟨left, ex, right⟩
  · unfold extInsertLeaf at hdone
    simp only [hl] at hdone
    split_ifs at hdone
    obtain rfl := LeafInsert.done.inj hdone
    exact Path.withLeaf_noEmpty h (by simp [LeafCursor.exts])
  · rcases extInsertLeaf_at hl hdone with h' | ⟨-, -, h'⟩ | ⟨-, -, -, h'⟩ |
      ⟨-, ⟨-, h'⟩ | ⟨-, -, h'⟩ | ⟨-, -, h'⟩⟩
    · cases h'
    · obtain rfl := LeafInsert.done.inj h'
      exact Path.plug_noEmpty h (by simp [LeafCursor.exts])
    · obtain rfl := LeafInsert.done.inj h'
      exact Path.plug_noEmpty h (by simp [LeafCursor.exts])
    · cases h'
    · obtain rfl := LeafInsert.done.inj h'
      exact Path.withLeaf_noEmpty h (by simp [LeafCursor.exts])
    · obtain rfl := LeafInsert.done.inj h'
      exact Path.withLeaf_noEmpty h (by simp [LeafCursor.exts])

/-- The tree maps nothing from block `b` on. -/
def Tree.EndsAt (t : Tree) (b : ℕ) : Prop := ∀ x, b ≤ x → t.map x = none

/-- A path to the end of the tree, where block `b` belongs. -/
structure Path.AtEnd (p : Path D) (b : ℕ) : Prop where
  noEmpty : p.ctx.NoEmpty
  edge : p.ctx.Edge
  leaf : ∀ left ex right, p.leaf = .at left ex right →
    right = [] ∧ ex.firstBlock + ex.getActualLen ≤ b

theorem chain_ok {hi : ℕ} (hhi : hi ≤ 2 ^ 32) : ∀ {es : List Extent},
    Chain Extent.firstBlock Extent.Ok hi es → ∀ e ∈ es, e.Ok (2 ^ 32)
  | [], _, _, he => absurd he List.not_mem_nil
  | _ :: _, h, e, he => by
    rcases List.mem_cons.1 he with rfl | he
    · exact h.1.mono ((h.2.top_le extent_lt).trans hhi)
    · exact chain_ok hhi h.2 e he

theorem Tree.EndsAt.extent_le (h : t.EndsAt b) (hok : t.root.Ok cap Tree.rootSpace (2 ^ 32))
    {e : Extent} (he : e ∈ t.root.extents) : e.firstBlock + e.getActualLen ≤ b := by
  have hpos := (chain_ok le_rfl hok.chain.1 e he).1
  by_contra hlt
  refine mapOf_ne_none (b := e.firstBlock + e.getActualLen - 1) he ?_ (h _ (by omega))
  rw [Extent.covers_iff]
  omega

/-- **The path found for the first block that is not mapped** leads to the end. -/
theorem Path.Found.atEnd (hp : p.Found cap t b) (hne : t.NoEmpty)
    (hok : t.root.Ok cap Tree.rootSpace (2 ^ 32)) (hend : t.EndsAt b) : p.AtEnd b := by
  have hmem : ∀ e ∈ p.ctx.before ++ p.leaf.exts ++ p.ctx.after,
      e.firstBlock + e.getActualLen ≤ b := by
    intro e he
    refine hend.extent_le hok ?_
    rw [← hp.plug, Path.plug, Ctx.plug_extents]
    exact he
  refine ⟨hne.ctx hp, hp.fits.ctx.edge (hne.ctx hp) ?_, fun left ex right hl => ⟨?_, ?_⟩⟩
  · by_contra hafter
    obtain ⟨e, es, hes⟩ := List.exists_cons_of_ne_nil hafter
    have hceil := hp.fits.ctx.after_chain.2
    rw [hes, top_cons] at hceil
    have hle := hmem e (by simp [hes])
    have hlt := hp.fits.lt_ceil
    omega
  · by_contra hright
    obtain ⟨e, es, hes⟩ := List.exists_cons_of_ne_nil hright
    obtain ⟨-, -, -, -, -, -, hgt⟩ := hp.fits.leaf_ok hl
    have hlt := hgt e (by rw [hes]; exact List.mem_cons_self)
    have hle := hmem e (by simp [hl, LeafCursor.exts, hes])
    omega
  · exact hmem ex (by simp [hl, LeafCursor.exts])

end Edge

/-! ## Insertions at the right edge -/

section Insert

variable {cap D : ℕ} {p : Path D} {newext : Extent} {noCombine : Bool}

/-- A failed call has put the tree back and handed back the blocks it took, with
    `allocated`. -/
structure ExtFs.Restored (fs fs' : ExtFs) (t : Tree) (allocated : List ℕ) : Prop where
  tree : fs'.tree = t
  blockSize : fs'.blockSize = fs.blockSize
  gave : fs.GaveBack fs' allocated

theorem ExtFs.Same.restored {fs fs' : ExtFs} : fs.Same fs' → fs.Restored fs' fs.tree []
  | ⟨_, h⟩ => by
    subst h
    exact ⟨rfl, rfl, [], [], rfl, (List.append_nil _).symm, List.Perm.refl _⟩

theorem ExtFs.Restored.took {fs s fs' : ExtFs} {t : Tree} {allocated : List ℕ} {b : ℕ}
    (hs : fs.Took s [b]) (h : s.Restored fs' t (allocated ++ [b])) :
    fs.Restored fs' t allocated := by
  obtain ⟨htree, hsize, news, fr, hfresh, hfreed, hperm⟩ := h
  refine ⟨htree, hsize.trans hs.blockSize, b :: news, fr, ?_, ?_, ?_⟩
  · rw [hs.fresh, hfresh]
    rfl
  · rw [hfreed, hs.freed]
  · rwa [List.append_assoc] at hperm

theorem setTree_run (t : Tree) (fs : ExtFs) : setTree t fs = (.ok (), { fs with tree := t }) := rfl

theorem sat_newNode_restored (fs : ExtFs) (t : Tree) (allocated : List ℕ) :
    Prog.Sat (· = fs) (newNode t allocated) (fun nb fs' => fs.Took fs' [nb])
      (fun _ fs' => fs.Restored fs' t allocated) :=
  (sat_newNode_error fs t allocated).conseq (fun _ => id) (fun _ _ => id)
    fun _ _ h => ⟨h.1, h.2.1, h.2.2.1⟩

/-- **A split at the edge** takes nothing away from the node it cuts: when it fails the tree is
    as it was. -/
theorem sat_splitUp_edge (key : ℕ) : ∀ {d D : ℕ} (left right : Node d) (newblock : ℕ)
    (allocated : List ℕ) (ctx : Ctx d D) (fs : ExtFs), ctx.Edge → ctx.NoEmpty → left.NoEmpty →
    Prog.Sat (· = fs) (splitUp true key left right newblock allocated ctx)
      (fun ctx' _ => ctx'.NoEmpty)
      (fun e fs' => e ≠ .assert → fs.Restored fs' (ctx.plug left) allocated)
  | _, _, _, _, _, _, .nil, _, _, _, _ => Prog.Sat.fail fun _ _ h => absurd rfl h
  | d, D, left, right, newblock, allocated, .cons l up, fs, hedge, hne, hleft => by
    have hbeside : ∀ e ∈ l.left ++ [(⟨l.firstBlock, l.leaf, left⟩ : Index (Node d))],
        e.node.NoEmpty := by
      intro e he
      rcases List.mem_append.1 he with he | he
      · exact hne.1 e (List.mem_append_left _ he)
      · rw [List.mem_singleton.1 he]
        exact hleft
    unfold splitUp
    by_cases hroom : l.left.length + 1 + l.right.length < l.maxEntries
    · rw [if_pos hroom]
      by_cases hkey : key = l.firstBlock
      · rw [if_pos hkey]
        rintro s rfl
        have hrun : (do
            setTree ((Ctx.cons l up).plug left)
            extFreeAll allocated
            Prog.fail (.rc Errno.EIO) : ExtM (Ctx d D)) s =
            (.error (.rc Errno.EIO), { s with
              tree := (Ctx.cons l up).plug left
              freed := s.freed ++ allocated.map (·, 1) }) := by
          rw [Prog.bind_ok (setTree_run _ s), Prog.bind_ok (extFreeAll_run allocated _)]
          rfl
        rw [hrun]
        intro _
        exact ⟨rfl, rfl, [], allocated, rfl, rfl, by rw [List.append_nil]⟩
      · rw [if_neg hkey]
        refine Prog.Sat.pure fun _ _ => ⟨fun e he => ?_, hne.2⟩
        rw [hedge.1, List.append_nil] at he
        exact hbeside e he
    · rw [if_neg hroom]
      refine Prog.Sat.get_bind ?_
      rintro s rfl
      refine Prog.Sat.bind ((sat_newNode_restored s _ allocated).conseq (fun _ => id)
        (fun _ _ => id) fun _ _ h _ => h) fun upblock => Prog.Sat.of_forall ?_
      intro s' hs'
      -- the node above keeps all its entries
      have hplug : (IndexNode.mk l.maxEntries (l.left ++ [⟨l.firstBlock, l.leaf, left⟩]) :
          IndexNode (Node d)) = l.plug left := by
        rw [Level.plug, hedge.1]
      have hleft' : Node.NoEmpty (d := d + 1)
          (IndexNode.mk l.maxEntries (l.left ++ [⟨l.firstBlock, l.leaf, left⟩])) := hbeside
      refine Prog.Sat.bind ((sat_splitUp_edge key _ _ upblock (allocated ++ [upblock]) up s'
        hedge.2 hne.2 hleft').conseq (fun _ => id) (fun _ _ => id) ?_) fun up' =>
          Prog.Sat.pure fun _ hup' => ⟨fun e he => ?_, hup'⟩
      · intro e fs' h he
        have hrestored := h he
        rw [hplug] at hrestored
        exact hrestored.took hs'
      · rw [List.nil_append, hedge.1] at he
        exact absurd he List.not_mem_nil

/-- **`ext4_ext_split_node` at the edge.** -/
theorem sat_extSplitNode_edge (fs : ExtFs) (hend : p.AtEnd newext.firstBlock) {left : List Extent}
    {ex : Extent} (hl : p.leaf = .at left ex []) :
    Prog.Sat (· = fs) (extSplitNode p newext) (fun p' _ => p'.ctx.NoEmpty)
      (fun e fs' => e ≠ .assert → fs.Restored fs' p.plug []) := by
  have hnode : p.node = (Leaf.mk p.maxEntries (left ++ [ex]) : Node 0) := by
    rw [Path.node, hl]
    rfl
  unfold extSplitNode
  simp only [hl]
  refine Prog.Sat.get_bind ?_
  rintro s rfl
  refine Prog.Sat.bind ((sat_newNode_restored s p.plug []).conseq (fun _ => id)
    (fun _ _ => id) fun _ _ h _ => h) fun newblock => Prog.Sat.of_forall ?_
  intro s' hs'
  have hright : (!decide (newext.firstBlock < newext.firstBlock)) = true := by simp
  simp only [hright, if_true]
  refine Prog.Sat.bind ((sat_splitUp_edge newext.firstBlock _ _ newblock [newblock] p.ctx s'
    hend.edge hend.noEmpty (by simp [Node.NoEmpty])).conseq (fun _ => id) (fun _ _ => id) ?_)
    fun ctx => Prog.Sat.pure fun _ h => h
  intro e fs' h he
  have hrestored := h he
  rw [← hnode] at hrestored
  exact @ExtFs.Restored.took s s' fs' p.plug [] newblock hs' hrestored

/-- Splitting the nodes on the path, then the insertion. -/
theorem sat_split_insert_edge (hcap : Tree.rootSpace ≤ cap) {fs : ExtFs}
    (hfs : cap = extSpaceBlock fs.blockSize) (hp : p.Fits cap newext.firstBlock)
    (hend : p.AtEnd newext.firstBlock) (htree : fs.tree = p.plug)
    (hsplit : extInsertLeaf p newext noCombine = .needSplit) {fuel : ℕ} (hfuel : 1 ≤ fuel) :
    Prog.Sat (· = fs)
      (do
        access
        let p' ← extSplitNode p newext
        setTree p'.plug
        extInsertExtent newext noCombine fuel D p')
      (fun _ fs' => fs'.tree.NoEmpty) (fun e fs' => e ≠ .assert → fs.Restored fs' fs.tree []) := by
  obtain ⟨left, ex, right, hl, -, -⟩ := needSplit_at hp hsplit
  obtain ⟨rfl, -⟩ := hend.leaf left ex right hl
  refine Prog.Sat.bind ((sat_access fs).conseq (fun _ => id) (fun _ _ => id)
    fun _ _ h _ => h.1.restored) fun _ => Prog.Sat.of_forall ?_
  rintro _ ⟨l, rfl⟩
  refine Prog.Sat.bind (((sat_extSplitNode_edge { fs with faults := l } hend hl).and
    (sat_extSplitNode_error hcap { fs with faults := l } hfs hp hsplit)).conseq (fun _ => id)
    (fun _ _ => id) ?_) fun p' => Prog.Sat.of_forall ?_
  · rintro e fs' ⟨h, -⟩ he
    obtain ⟨htree', hsize, hgave⟩ := h he
    exact ⟨htree'.trans htree.symm, hsize, hgave⟩
  · rintro s ⟨hne, p'', hdone⟩
    obtain ⟨fuel, rfl⟩ : ∃ k, fuel = k + 1 := ⟨fuel - 1, by omega⟩
    refine Prog.Sat.modify_bind (M := fun _ => True) ?_ fun _ _ => trivial
    unfold extInsertExtent
    simp only [hdone]
    exact Prog.Sat.modify fun _ _ => .inr (done_noEmpty hne hdone)

/-- A failed insertion has left the tree as it was, or a level higher; of the blocks it took it
    has handed back all but the new one of the tree. -/
structure KeptTree (cap : ℕ) (fs fs' : ExtFs) : Prop where
  blockSize : fs'.blockSize = fs.blockSize
  ok : fs'.tree.root.Ok cap Tree.rootSpace (2 ^ 32)
  noEmpty : fs'.tree.NoEmpty
  extents : fs'.tree.root.extents = fs.tree.root.extents
  blocks : ∃ news fr grown : List ℕ, fs.fresh = news ++ fs'.fresh ∧
    fs'.freed = fs.freed ++ fr.map (·, 1) ∧ (grown ++ fr).Perm news ∧
    fs'.tree.root.blocks = grown ++ fs.tree.root.blocks

theorem ExtFs.Restored.kept {fs fs' : ExtFs} (h : fs.Restored fs' fs.tree [])
    (hok : fs.tree.root.Ok cap Tree.rootSpace (2 ^ 32)) (hne : fs.tree.NoEmpty) :
    KeptTree cap fs fs' := by
  obtain ⟨htree, hsize, news, fr, hfresh, hfreed, hperm⟩ := h
  refine ⟨hsize, by rwa [htree], by rwa [htree], by rw [htree], news, fr, [], hfresh, hfreed,
    hperm, by rw [htree]; rfl⟩

theorem grown_extents (t : Tree) (blockSize nb : ℕ) :
    (t.grown blockSize nb).root.extents = t.root.extents := by
  show [_].flatMap (fun e : Index (Node t.depth) => e.node.extents) = _
  rw [List.flatMap_singleton, Node.setMax_extents]

theorem grown_blocks (t : Tree) (blockSize nb : ℕ) :
    (t.grown blockSize nb).root.blocks = nb :: t.root.blocks := by
  show [_].flatMap (fun e : Index (Node t.depth) => e.leaf :: e.node.blocks) = _
  rw [List.flatMap_singleton, Node.setMax_blocks]

theorem grown_noEmpty {t : Tree} (blockSize nb : ℕ) (h : t.root.NoEmpty) :
    (t.grown blockSize nb).NoEmpty := by
  refine .inr fun e he => ?_
  obtain rfl := List.mem_singleton.1 he
  obtain ⟨d, n⟩ := t
  rcases d with - | d
  · exact h
  · exact h

/-- The same once the tree has grown. -/
theorem ExtFs.Restored.kept_grown {fs s fs' : ExtFs} {nb : ℕ} (h : s.Restored fs' s.tree [])
    (htree : s.tree = fs.tree.grown fs.blockSize nb) (hsb : s.blockSize = fs.blockSize)
    (hfreed : s.freed = fs.freed) (hfresh : fs.fresh = [nb] ++ s.fresh)
    (hok : s.tree.root.Ok cap Tree.rootSpace (2 ^ 32)) (hne : fs.tree.root.NoEmpty) :
    KeptTree cap fs fs' := by
  obtain ⟨htree', hsize, news, fr, hfresh', hfreed', hperm⟩ := h
  refine ⟨hsize.trans hsb, by rwa [htree'], ?_, ?_, nb :: news, fr, [nb], ?_, ?_,
    hperm.cons nb, ?_⟩
  · rw [htree', htree]
    exact grown_noEmpty _ nb hne
  · rw [htree', htree, grown_extents]
  · rw [hfresh, hfresh']
    rfl
  · rw [hfreed', hfreed]
  · rw [htree', htree, grown_blocks]
    rfl

/-- **`ext4_ext_insert_extent` at the end** of the tree. -/
theorem sat_insertExtent_edge (fs : ExtFs) (hbs : 1024 ≤ fs.blockSize)
    (hcap : cap = extSpaceBlock fs.blockSize) (hb : newext.firstBlock < 2 ^ 32)
    (hok : fs.tree.root.Ok cap Tree.rootSpace (2 ^ 32)) (hne : fs.tree.NoEmpty)
    (hmap : fs.tree.EndsAt newext.firstBlock) (hp : p.Found cap fs.tree newext.firstBlock)
    {fuel : ℕ} (hfuel : 2 ≤ fuel) :
    Prog.Sat (· = fs) (extInsertExtent newext noCombine fuel D p)
      (fun _ fs' => fs'.tree.NoEmpty) (fun e fs' => e ≠ .assert → KeptTree cap fs fs') := by
  have hspace : Tree.rootSpace < cap := by
    rw [hcap, extSpaceBlock, Tree.rootSpace]
    omega
  have hend := hp.atEnd hne hok hmap
  obtain ⟨fuel, rfl⟩ : ∃ k, fuel = k + 1 := ⟨fuel - 1, by omega⟩
  unfold extInsertExtent
  rcases hr : extInsertLeaf p newext noCombine with p' | - | -
  · exact Prog.Sat.modify fun _ _ => .inr (done_noEmpty hend.noEmpty hr)
  · simp only
    by_cases hroom : p.ctx.hasRoom = true
    · rw [if_pos hroom]
      exact (sat_split_insert_edge hspace.le hcap hp.fits hend hp.plug.symm hr
        (by omega)).conseq (fun _ => id) (fun _ _ => id) fun e fs' h he => (h he).kept hok hne
    · rw [if_neg hroom]
      obtain ⟨left, ex, right, hl, hlen, -⟩ := needSplit_at hp.fits hr
      have hroot : fs.tree.root.NoEmpty := by
        rw [← hp.plug]
        exact Path.plug_noEmpty hend.noEmpty (by simp [hl, LeafCursor.exts])
      refine Prog.Sat.bind ((sat_grow_error fs).conseq (fun _ => id) (fun _ _ => id) ?_)
        fun _ => Prog.Sat.of_forall ?_
      · rintro e fs' ⟨-, htree, hsize, hgave⟩ _
        exact ExtFs.Restored.kept ⟨htree, hsize, hgave⟩ hok hne
      rintro s ⟨nb, htree, hsb, hfreed, hfresh⟩
      have hgrown := grown_ok nb hspace.le hcap (Nat.two_pow_pos 32) hok
      have hgrown_ne := grown_noEmpty fs.blockSize nb hroot
      have hgrown_end : (fs.tree.grown fs.blockSize nb).EndsAt newext.firstBlock := by
        intro x hx
        rw [Tree.map, grown_extents]
        exact hmap x hx
      rw [← htree] at hgrown hgrown_ne hgrown_end
      refine Prog.Sat.bind ((sat_findExtentAgain s hb hgrown).conseq (fun _ => id)
        (fun _ _ => id) ?_) fun x => Prog.Sat.of_forall ?_
      · rintro e fs' ⟨hsame, -⟩ _
        exact hsame.restored.kept_grown htree hsb hfreed hfresh hgrown hroot
      obtain ⟨D', p'⟩ := x
      rintro _ ⟨⟨l, rfl⟩, hp'⟩
      replace hp' : p'.Found cap s.tree newext.firstBlock := hp'
      have hend' := hp'.atEnd hgrown_ne hgrown hgrown_end
      have hplug' := hp'.plug
      have hfits' := hp'.fits
      rw [htree] at hp'
      obtain ⟨-, hleaf, hmax⟩ := moved_grown noCombine hp hp'
      simp only
      by_cases hD : D = 0
      · rw [if_pos hD]
        rw [if_pos hD, ← hcap] at hmax
        -- the leaf has moved from the inode to a block
        have hfull : p'.full = false := by
          have hroot : p.maxEntries ≤ Tree.rootSpace := by
            subst hD
            have hctx := hp.fits.node
            rcases hc : p.ctx with - | ⟨l, up⟩
            · rw [hc] at hctx
              exact (Node.ok_leaf.1 hctx).2.1
            · exact absurd up.depth_le (by omega)
          refine decide_eq_false ?_
          rw [hleaf, hmax, hl, LeafCursor.exts, List.length_append, List.length_cons]
          omega
        obtain ⟨p'', hdone⟩ := @extInsertLeaf_room _ noCombine _ _ _ _ _ (hleaf.trans hl)
          (needSplit_ne hl hr) hfull
        obtain ⟨fuel, rfl⟩ : ∃ k, fuel = k + 1 := ⟨fuel - 1, by omega⟩
        unfold extInsertExtent
        simp only [hdone]
        exact Prog.Sat.modify fun _ _ => .inr (done_noEmpty hend'.noEmpty hdone)
      · rw [if_neg hD] at hmax ⊢
        have hr' := needSplit_congr hleaf hmax hr
        have hcap' : cap = extSpaceBlock s.blockSize := by rw [hsb, hcap]
        refine (@sat_split_insert_edge _ _ _ _ _ hspace.le { s with faults := l } hcap' hfits' hend'
          hplug'.symm hr' _ (by omega)).conseq (fun _ => id) (fun _ _ => id) fun e fs' h he => ?_
        obtain ⟨htree', hsize, hgave⟩ := h he
        exact ExtFs.Restored.kept_grown ⟨htree', hsize, hgave⟩ htree hsb hfreed hfresh hgrown hroot
  · refine Prog.Sat.fail ?_
    rintro _ rfl _
    exact (ExtFs.Same.refl _).restored.kept hok hne

end Insert

/-! ## Appending -/

section Append

variable {cap D : ℕ} {p : Path D} {t : Tree} {n : ℕ}

/-- Everything the tree maps is written. -/
def Tree.Written (t : Tree) : Prop := ∀ x v, t.map x = some v → v.2 = false

theorem Tree.Written.extent (h : t.Written) (hok : t.root.Ok cap Tree.rootSpace (2 ^ 32))
    {e : Extent} (he : e ∈ t.root.extents) : e.isUnwritten = false := by
  have hcov := (chain_ok le_rfl hok.chain.1 e he).covers_first
  refine h e.firstBlock (e.value e.firstBlock) ?_
  rw [Tree.map, mapOf, map_of_covers (filter_covers_le hok.chain.1) he hcov]
  rfl

theorem one_block_len (b s : ℕ) : (⟨b, 1, s⟩ : Extent).getActualLen = 1 := rfl

theorem one_block_covers {b s x : ℕ} : (⟨b, 1, s⟩ : Extent).covers x = true ↔ x = b := by
  rw [Extent.covers_iff, one_block_len]
  show b ≤ x ∧ x < b + 1 ↔ _
  omega

/-- An extent of one block behind the last one is inserted exactly. -/
theorem Path.AtEnd.insertOk (hend : p.AtEnd n) (hp : p.Fits cap n) (hn : n + 1 < 2 ^ 32)
    (hwritten : ∀ e ∈ p.plug.root.extents, e.isUnwritten = false) (nb : ℕ) :
    InsertOk p ⟨n, 1, nb⟩ false := by
  refine ⟨hp.lt_ceil, ?_⟩
  rcases hl : p.leaf with - | ⟨left, ex, right⟩
  · trivial
  · obtain ⟨-, hle⟩ := hend.leaf left ex right hl
    have hmem : ex ∈ p.plug.root.extents := by
      rw [Path.plug, Ctx.plug_extents]
      simp [Path.node, hl, LeafCursor.exts, Node.extents]
    refine .inr ?_
    split_ifs with happ
    · have hnext := (Bool.and_eq_true_iff.1 happ).2
      rw [decide_eq_true_eq, u32_of_lt (by omega)] at hnext
      exact ⟨hwritten ex hmem, hnext⟩
    · rw [extCanPrepend, one_block_len, u32_of_lt hn, Bool.and_eq_false_iff]
      refine .inr (decide_eq_false ?_)
      show ¬ n + 1 = ex.firstBlock
      omega

/-- A block has been mapped at `n`; the other blocks taken are in the tree. -/
structure Appended (cap n : ℕ) (fs fs' : ExtFs) (b : ℕ) : Prop where
  ok : fs'.tree.root.Ok cap Tree.rootSpace (2 ^ 32)
  noEmpty : fs'.tree.NoEmpty
  map : ∀ x, fs'.tree.map x = if x = n then some (b, false) else fs.tree.map x
  freed : fs'.freed = fs.freed
  blocks : ∃ news : List ℕ, fs.fresh = b :: news ++ fs'.fresh ∧
    fs'.tree.root.blocks.Perm (news ++ fs.tree.root.blocks)

theorem KeptTree.handBack {fs s fs' : ExtFs} {b : ℕ} (hs : fs.Took s [b]) (h : KeptTree cap s fs') :
    KeptTree cap fs (extFreeBlocks b 1 fs').2 := by
  obtain ⟨hsize, hok, hne, hext, news, fr, grown, hfresh, hfreed, hperm, hblocks⟩ := h
  refine ⟨hsize.trans hs.blockSize, hok, hne, hext.trans (by rw [hs.tree]), b :: news, fr ++ [b],
    grown, ?_, ?_, ?_, hblocks.trans (by rw [hs.tree])⟩
  · rw [hs.fresh]
    show [b] ++ s.fresh = _
    rw [hfresh]
    rfl
  · show fs'.freed ++ [(b, 1)] = _
    rw [hfreed, hs.freed]
    simp
  · rw [← List.append_assoc]
    exact (List.perm_append_singleton b _).trans (hperm.cons b)

/-- **Mapping the first block that is not mapped**, with all others written. -/
theorem sat_append (fs : ExtFs) (hbs : 1024 ≤ fs.blockSize)
    (hcap : cap = extSpaceBlock fs.blockSize) (hn : n + 1 < 2 ^ 32)
    (hok : fs.tree.root.Ok cap Tree.rootSpace (2 ^ 32)) (hne : fs.tree.NoEmpty)
    (hmap : fs.tree.EndsAt n) (hwritten : fs.tree.Written) {fuel : ℕ} (hfuel : 2 ≤ fuel) :
    Prog.Sat (· = fs) (extentGetBlocks n 1 true fuel) (fun r fs' => Appended cap n fs fs' r.1)
      (fun e fs' => e ≠ .assert ∧ KeptTree cap fs fs') := by
  refine Prog.Sat.bind ((sat_findExtent fs (by omega) hok).conseq (fun _ => id) (fun _ _ => id)
    fun e fs' h => ⟨h.2, h.1.restored.kept hok hne⟩) fun x => Prog.Sat.of_forall ?_
  obtain ⟨D, p⟩ := x
  rintro s ⟨hs, hp⟩
  replace hp : p.Found cap fs.tree n := hp
  have hend := hp.atEnd hne hok hmap
  have hhole : extGetAt n 1 true fuel D p = extGetHole n 1 true fuel D p := by
    unfold extGetAt
    rcases hl : p.leaf with - | ⟨left, ex, right⟩
    · rfl
    · obtain ⟨-, hle⟩ := hend.leaf left ex right hl
      have hcov : ex.covers n = false := by
        rw [Bool.eq_false_iff, Ne, Extent.covers_iff]
        omega
      simp only [Extent.inRange_eq (hp.fits.extent_ok hl) le_rfl, hcov, Bool.false_eq_true,
        if_false]
  show Prog.Sat (· = s) (extGetAt n 1 true fuel D p) _ _
  rw [hhole]
  unfold extGetHole
  simp only [Bool.not_true, Bool.false_eq_true, if_false]
  refine Prog.Sat.bind ((sat_newMeta_error s).conseq (fun _ => id) (fun _ _ => id)
    fun e fs' h => ⟨h.2, (hs.trans h.1).restored.kept hok hne⟩) fun nb => Prog.Sat.of_forall ?_
  intro s₁ hs₁
  have hs₁' : fs.Took s₁ [nb] := hs.took.trans hs₁
  have hno : NoOverlap fs.tree ⟨n, 1, nb⟩ := fun x hx => hmap x (one_block_covers.1 hx).ge
  have hnew : (⟨n, 1, nb⟩ : Extent).Ok (2 ^ 32) := one_block_ok hn.le
  have hinsert := hend.insertOk hp.fits hn (fun e he => hwritten.extent hok (hp.plug ▸ he)) nb
  have hbs₁ : 1024 ≤ s₁.blockSize := hs₁'.blockSize ▸ hbs
  have hcap₁ : cap = extSpaceBlock s₁.blockSize := by rw [hs₁'.blockSize, hcap]
  refine Prog.Sat.bind (sat_onError_state ((sat_extInsertExtent s₁ hbs₁ hcap₁
    (hs₁'.tree ▸ hok) (hs₁'.tree ▸ hp) (hs₁'.tree ▸ hno) hnew fuel).and (sat_insertExtent_edge s₁
    hbs₁ hcap₁ hnew.lt (hs₁'.tree ▸ hok) (hs₁'.tree ▸ hne) (hs₁'.tree ▸ hmap) (hs₁'.tree ▸ hp)
    hfuel)) ?_) fun _ => Prog.Sat.pure ?_
  · rintro e fs' ⟨hassert, hkept⟩
    exact ⟨hassert hfuel, (hkept (hassert hfuel)).handBack hs₁'⟩
  · rintro fs' ⟨⟨news, -, hfreed, hfresh, hblocks, hiff⟩, hne'⟩
    obtain ⟨hok', hadds⟩ := hiff.2 hinsert
    rw [hp.plug] at hadds hblocks
    refine ⟨hok', hne', fun x => ?_, hfreed.trans hs₁'.freed, news, ?_, hblocks⟩
    · rw [hadds x]
      by_cases hx : x = n
      · subst hx
        rw [if_pos (one_block_covers.2 rfl), if_pos rfl]
        simp [Extent.value, Extent.isUnwritten]
      · rw [if_neg (mt one_block_covers.1 hx), if_neg hx]
    · rw [hs₁'.fresh, hfresh]
      rfl

end Append

/-! ## Truncating -/

section Truncate

variable {cap : ℕ} {t : Tree} {l : List ℕ}

/-- `x` takes no block. -/
def KeepsFresh {α : Type} (x : ExtM α) : Prop :=
  ∀ rs, Prog.Sat (fun fs => fs.fresh = rs) x (fun _ fs => fs.fresh = rs) (fun _ _ => True)

section Keeps

variable {α β : Type}

theorem KeepsFresh.bind {x : ExtM α} {f : α → ExtM β} (hx : KeepsFresh x)
    (hf : ∀ a, KeepsFresh (f a)) : KeepsFresh (x >>= f) :=
  fun rs => Prog.Sat.bind (hx rs) fun a => hf a rs

theorem KeepsFresh.pure (a : α) : KeepsFresh (pure a : ExtM α) := fun _ => Prog.Sat.pure fun _ => id

theorem KeepsFresh.fail (e : Stop) : KeepsFresh (Prog.fail e : ExtM α) :=
  fun _ => Prog.Sat.fail fun _ _ => trivial

theorem KeepsFresh.modify {f : ExtFs → ExtFs} (hf : ∀ fs, (f fs).fresh = fs.fresh) :
    KeepsFresh (Prog.modify f) := fun _ => Prog.Sat.modify fun fs h => (hf fs).trans h

theorem KeepsFresh.of_same {x : ExtM α}
    (hx : ∀ fs, Prog.Sat (· = fs) x (fun _ => fs.Same) (fun _ _ => True)) : KeepsFresh x := by
  refine fun rs => Prog.Sat.of_forall fun fs hfs => (hx fs).conseq (fun _ => id) ?_ fun _ _ => id
  rintro _ _ ⟨l, rfl⟩
  exact hfs

theorem keepsFresh_read {d : ℕ} (n : Node d) : KeepsFresh (readExtentTreeBlock n) :=
  .of_same fun fs => (sat_readExtentTreeBlock fs n).conseq (fun _ => id) (fun _ _ => id)
    fun _ _ _ => trivial

theorem keepsFresh_extFreeRanges : ∀ rs : List (ℕ × ℕ), KeepsFresh (extFreeRanges rs)
  | [] => .pure ()
  | (_, _) :: rs =>
    KeepsFresh.bind (.modify fun _ => rfl) fun _ => keepsFresh_extFreeRanges rs

theorem keepsFresh_rmLeave {D : ℕ} : ∀ {d : ℕ} (n : Node d) (empty : Bool) (c : Ctx d D),
    KeepsFresh (rmLeave n empty c)
  | _, _, _, .nil => KeepsFresh.bind (.modify fun _ => rfl) fun _ => .pure _
  | _, _, true, .cons _ _ => KeepsFresh.bind (.modify fun _ => rfl) fun _ => .pure _
  | _, _, false, .cons _ _ => .pure _

theorem keepsFresh_rmStep {D : ℕ} (from' to' : ℕ) : ∀ pos : RmPos D,
    KeepsFresh (rmStep from' to' pos)
  | .leaf maxEntries left rest ctx => by
    unfold rmStep
    simp only
    rcases leafRange from' to' (left ++ rest) with - | ⟨leafFrom, leafTo⟩
    · exact .fail _
    · exact (keepsFresh_extFreeRanges _).bind fun _ => keepsFresh_rmLeave (d := 0) _ _ _
  | .index d maxEntries left rest ctx => by
    unfold rmStep
    simp only
    rcases RmPos.moreToRm to' rest with - | ix
    · exact keepsFresh_rmLeave (d := d + 1) _ _ _
    · exact (keepsFresh_read ix.node).bind fun _ => .pure _

theorem keepsFresh_rmLoop {D : ℕ} (from' to' : ℕ) : ∀ (fuel : ℕ) (pos : RmPos D),
    KeepsFresh (rmLoop from' to' fuel pos)
  | 0, _ => .fail _
  | fuel + 1, pos => by
    unfold rmLoop
    refine (keepsFresh_rmStep from' to' pos).bind fun next => ?_
    rcases next with - | pos'
    · exact .pure ()
    · exact KeepsFresh.bind (.modify fun _ => rfl) fun _ => keepsFresh_rmLoop from' to' fuel pos'

theorem keepsFresh_rmFinish : KeepsFresh rmFinish := by
  refine .modify fun fs => ?_
  split_ifs
  · rfl
  · rfl

end Keeps

/-- **A removal up to the last block there can be**, of a range without holes in front. -/
theorem sat_removeTail (fs : ExtFs) (hok : fs.tree.Ok cap) {from' : ℕ} (hfrom : from' < 2 ^ 32)
    (hremove : RemoveOk fs.tree from' extMaxBlocks) (fuel : ℕ) :
    Prog.Sat (· = fs) (extentRemoveSpace from' extMaxBlocks fuel)
      (fun _ fs' => RemovedExactly cap from' extMaxBlocks fs fs' ∧ fs'.fresh = fs.fresh)
      (fun _ _ => True) := by
  have hft : from' ≤ extMaxBlocks := Nat.le_sub_one_of_lt hfrom
  refine Prog.Sat.bind ((sat_findExtent fs hfrom hok.node).conseq (fun _ => id) (fun _ _ => id)
    fun _ _ _ => trivial) fun x => Prog.Sat.of_forall ?_
  obtain ⟨D, p⟩ := x
  rintro s ⟨hs, hp⟩
  replace hp : p.Found cap fs.tree from' := hp
  have hfresh : s.fresh = fs.fresh := by
    obtain ⟨l, rfl⟩ := hs
    rfl
  have hmap := hp.fits.map_eq
  rw [hp.plug] at hmap
  rcases hl : p.leaf with - | ⟨left, ex, right⟩ <;> simp only [hl] at hmap ⊢
  · refine Prog.Sat.pure ?_
    rintro _ rfl
    exact ⟨(hole_exact_iff hok hft hmap hs).2 hremove, hfresh⟩
  · cases hcov : ex.covers from'
    · rw [hcov, if_neg (by decide)] at hmap
      refine Prog.Sat.pure ?_
      rintro _ rfl
      exact ⟨(hole_exact_iff hok hft hmap hs).2 hremove, hfresh⟩
    · have hmem : ex ∈ fs.tree.root.extents := by
        rw [← hp.plug, Path.plug, Ctx.plug_extents]
        simp [Path.node, hl, LeafCursor.exts, Node.extents]
      have hinside := hremove.2 ex hmem
      rw [hinside]
      have hkeep : KeepsFresh (do
          rmLoop from' extMaxBlocks fuel (.leaf p.maxEntries left (ex :: right) p.ctx)
          rmFinish) :=
        (keepsFresh_rmLoop _ _ fuel _).bind fun _ => keepsFresh_rmFinish
      refine ((sat_walk_exact hok hft hs hp hl hcov hinside fuel).and
        ((hkeep fs.fresh).pre ?_)).conseq (fun _ => id) ?_ fun _ _ _ => trivial
      · rintro _ rfl
        exact hfresh
      · rintro _ fs' ⟨hiff, hfresh'⟩
        exact ⟨hiff.2 hremove, hfresh'⟩

theorem filterMap_range' (l : List ℕ) : ∀ k n : ℕ,
    (List.range' n k).filterMap (fun b => l[b]?) = (l.drop n).take k
  | 0, n => by simp
  | k + 1, n => by
    rw [List.range'_succ, List.filterMap_cons, filterMap_range' l k (n + 1)]
    rcases Nat.lt_or_ge n l.length with hlt | hge
    · rw [List.getElem?_eq_getElem hlt, List.drop_eq_getElem_cons hlt, List.take_succ_cons]
    · rw [List.getElem?_eq_none hge, List.drop_eq_nil_of_le hge,
        List.drop_eq_nil_of_le (by omega : l.length ≤ n + 1), List.take_nil, List.take_nil]

/-- The tree maps the blocks of the list, one after the other. -/
def Tree.Lists (t : Tree) (l : List ℕ) : Prop := ∀ x, t.map x = (l[x]?).map (·, false)

theorem Tree.Lists.endsAt (h : t.Lists l) : t.EndsAt l.length := by
  intro x hx
  rw [h x, List.getElem?_eq_none hx]
  rfl

theorem Tree.Lists.written (h : t.Lists l) : t.Written := by
  intro x v hv
  rw [h x, Option.map_eq_some_iff] at hv
  obtain ⟨b, -, rfl⟩ := hv
  rfl

theorem Tree.Lists.physIn (h : t.Lists l) (hlen : l.length < 2 ^ 32) (n : ℕ) :
    physIn t.root.extents n extMaxBlocks = l.drop n := by
  have hmap : (fun b => (mapOf t.root.extents b).map Prod.fst) = fun b => l[b]? := by
    funext b
    show (t.map b).map Prod.fst = _
    rw [h b, Option.map_map]
    exact congrFun Option.map_id l[b]?
  unfold Lwext4.physIn extMaxBlocks
  rw [hmap, filterMap_range', List.take_of_length_le]
  rw [List.length_drop]
  omega

theorem Tree.Lists.removeOk (h : t.Lists l) (hok : t.root.Ok cap Tree.rootSpace (2 ^ 32)) (n : ℕ) :
    RemoveOk t n extMaxBlocks := by
  refine ⟨fun hnone b hb _ => ?_, fun e he => decide_eq_false ?_⟩
  · rw [h n, Option.map_eq_none_iff, List.getElem?_eq_none_iff] at hnone
    exact h.endsAt b (by omega)
  · have hend := (chain_ok le_rfl hok.chain.1 e he).2.1
    unfold extMaxBlocks
    omega

end Truncate

/-! ## The file -/

/-- **The file is the list `l` of its blocks**, and holds these and the blocks of its tree;
    others hold those of `base`. -/
structure ExtInode.Holds (bs : ℕ) (base : ℕ → Bool) (l : List ℕ) (s : ExtInode) : Prop where
  count : (s.size + bs - 1) / bs = l.length
  fits : l.length < 2 ^ 32
  ne_zero : ∀ b ∈ l, b ≠ 0
  node : s.tree.root.Ok (extSpaceBlock bs) Tree.rootSpace (2 ^ 32)
  noEmpty : s.tree.NoEmpty
  lists : s.tree.Lists l
  held : Held base s.used (l ++ s.tree.root.blocks)

section File

variable {bs fuel : ℕ} {base : ℕ → Bool} {l : List ℕ} {s s' : ExtInode} {env : ExtEnv s.used}

theorem ExtInode.Holds.cnt (h : s.Holds bs base l) : sizeBlocksCnt bs s.size = l.length := by
  rw [sizeBlocksCnt, h.count]
  exact u32_of_lt h.fits

theorem ExtInode.Holds.tree_ok (h : s.Holds bs base l) : s.tree.Ok (extSpaceBlock bs) :=
  ⟨h.node, (List.nodup_append.1 h.held.nodup).2.1⟩

/-- A file without blocks has no blocks in its tree. -/
theorem ExtInode.Holds.blocks_nil (h : s.Holds bs base []) : s.tree.root.blocks = [] := by
  rcases h.noEmpty with hdepth | hne
  · obtain ⟨size, ⟨d, n⟩, used⟩ := s
    obtain rfl : d = 0 := hdepth
    rfl
  · obtain ⟨e, es, hes⟩ := List.exists_cons_of_ne_nil (hne.extents_ne h.node)
    have hmem : e ∈ s.tree.root.extents := by
      rw [hes]
      exact List.mem_cons_self
    have hcov := (chain_ok le_rfl h.node.chain.1 e hmem).covers_first
    exact absurd (h.lists e.firstBlock) (mapOf_ne_none hmem hcov)

/-- What a call leaves the file with, if it loses no block. -/
theorem ExtInode.Holds.after (h : s.Holds bs base l) (hfrees : env.Frees) {fs' : ExtFs}
    (l' taken freed : List ℕ)
    (hfresh : env.fresh = taken ++ fs'.fresh) (hfreed : fs'.freed.flatMap blocksOf = freed)
    (hperm : (l' ++ fs'.tree.root.blocks ++ freed).Perm (l ++ s.tree.root.blocks ++ taken)) :
    Held base (s.after env fs').used (l' ++ fs'.tree.root.blocks) := by
  have htake : env.fresh.take (env.fresh.length - fs'.fresh.length) = taken := by
    rw [hfresh]
    simp
  have hsub : taken.Sublist env.fresh := by
    rw [hfresh]
    exact List.sublist_append_left ..
  have hall : freed.filter env.frees = freed := List.filter_eq_self.2 fun b _ => hfrees b
  show Held base (settle s.used _ _) _
  rw [htake, hfreed, hall]
  exact h.held.settle (env.nodup.sublist hsub) (fun x hx => (env.free x (hsub.subset hx)).2) hperm

theorem settle_nil (used : ℕ → Bool) : settle used [] [] = used := by
  funext x
  simp [settle]

/-- Device accesses alone change nothing. -/
theorem after_same {fs' : ExtFs} (h : (s.fs bs env).Same fs') : s.after env fs' = s := by
  obtain ⟨faults, rfl⟩ := h
  have hused :
      settle s.used (env.fresh.take (env.fresh.length - env.fresh.length)) [] = s.used := by
    rw [Nat.sub_self, List.take_zero]
    exact settle_nil s.used
  exact congrArg (ExtInode.mk s.size s.tree) hused

theorem blocksOf_singles : ∀ fr : List ℕ, (fr.map (·, 1)).flatMap blocksOf = fr
  | [] => rfl
  | b :: fr => by
    rw [List.map_cons, List.flatMap_cons, blocksOf_singles fr]
    rfl

theorem Tree.Lists.append {t t' : Tree} (h : t.Lists l) {b : ℕ}
    (hmap : ∀ x, t'.map x = if x = l.length then some (b, false) else t.map x) :
    t'.Lists (l ++ [b]) := by
  intro x
  rw [hmap x]
  rcases Nat.lt_trichotomy x l.length with hlt | rfl | hgt
  · rw [if_neg hlt.ne, List.getElem?_append_left hlt]
    exact h x
  · rw [if_pos rfl, List.getElem?_concat_length]
    rfl
  · rw [if_neg hgt.ne', h x, List.getElem?_eq_none hgt.le, List.getElem?_eq_none]
    rw [List.length_append]
    exact hgt

/-- The blocks of a size that grows by one block. -/
theorem blocks_succ (hbs : 0 < bs) (size : ℕ) :
    (size + bs + bs - 1) / bs = (size + bs - 1) / bs + 1 := by
  rw [show size + bs + bs - 1 = size + bs - 1 + bs by omega, Nat.add_div_right _ hbs]

/-- How an append ends: the file has one block more, or the blocks it had. -/
theorem append_holds (env : ExtEnv s.used) (hfrees : env.Frees) (hbs : 1024 ≤ bs)
    (h : s.Holds bs base l) (hfits : l.length + 1 < 2 ^ 32) (hfuel : 2 ≤ fuel) :
    (∃ b s', s.ext4FsAppendInodeDblk bs fuel env = (.ok (b, l.length), s') ∧
        s'.Holds bs base (l ++ [b])) ∨
      ∃ e s', s.ext4FsAppendInodeDblk bs fuel env = (.error (.rc e), s') ∧ s'.Holds bs base l := by
  have hsat := sat_append (s.fs bs env) hbs rfl hfits h.node h.noEmpty h.lists.endsAt
    h.lists.written hfuel _ rfl
  unfold ExtInode.ext4FsAppendInodeDblk
  simp only [h.cnt]
  rcases hrun : extentGetBlocks l.length 1 true fuel (s.fs bs env) with ⟨e | r, fs'⟩ <;>
    rw [hrun] at hsat
  · obtain ⟨hassert, -, hok, hne, hext, news, fr, grown, hfresh, hfreed, hperm, hblocks⟩ := hsat
    have hfreed' : fs'.freed.flatMap blocksOf = fr := by
      rw [hfreed]
      exact blocksOf_singles fr
    have hheld := h.after hfrees l news fr hfresh hfreed' ?_
    · rcases e with rc | -
      · refine .inr ⟨rc, _, rfl, h.count, h.fits, h.ne_zero, hok, hne, fun x => ?_, hheld⟩
        show mapOf fs'.tree.root.extents x = _
        rw [hext]
        exact h.lists x
      · exact absurd rfl hassert
    · have hblocks' : fs'.tree.root.blocks = grown ++ s.tree.root.blocks := hblocks
      rw [hblocks']
      refine List.perm_iff_count.2 fun x => ?_
      have hcount := List.perm_iff_count.1 hperm x
      simp only [List.count_append] at hcount ⊢
      omega
  · obtain ⟨hok, hne, hmap, hfreed, news, hfresh, hblocks⟩ := hsat
    have hr : r.1 ∈ env.fresh := by
      rw [show env.fresh = r.1 :: news ++ fs'.fresh from hfresh]
      exact List.mem_append_left _ List.mem_cons_self
    have hr0 := (env.free r.1 hr).1
    have hheld := h.after hfrees (l ++ [r.1]) (r.1 :: news) [] hfresh (by rw [hfreed]; rfl) ?_
    · simp only [if_pos hr0]
      refine .inl ⟨r.1, _, rfl, ?_, ?_, fun b hb => ?_, hok, hne, h.lists.append hmap, hheld⟩
      · show (s.size + bs + bs - 1) / bs = _
        rw [blocks_succ (by omega), h.count, List.length_append]
        rfl
      · rw [List.length_append]
        exact hfits
      · rcases List.mem_append.1 hb with hb | hb
        · exact h.ne_zero b hb
        · rw [List.mem_singleton.1 hb]
          exact hr0
    · refine List.perm_iff_count.2 fun x => ?_
      have hcount := List.perm_iff_count.1 hblocks x
      simp only [List.count_append, List.count_cons, List.count_nil] at hcount ⊢
      have htree : List.count x (s.fs bs env).tree.root.blocks =
        List.count x s.tree.root.blocks := rfl
      omega

theorem Tree.Lists.take {t t' : Tree} (h : t.Lists l) {n : ℕ} (hlen : l.length < 2 ^ 32)
    (hmap : ∀ x, t'.map x = if n ≤ x ∧ x ≤ extMaxBlocks then none else t.map x) :
    t'.Lists (l.take n) := by
  intro x
  rw [hmap x, List.getElem?_take]
  split_ifs with h1 h2 h2
  · omega
  · rfl
  · exact h x
  · refine h.endsAt x ?_
    unfold extMaxBlocks at h1
    omega

/-- **A truncation that succeeds** leaves the first blocks of the file. -/
theorem truncate_holds (hfrees : env.Frees) (h : s.Holds bs base l)
    {canTruncate : Bool} {newSize : ℕ}
    (hrun : s.ext4FsTruncateInode bs fuel env canTruncate newSize = (.ok (), s')) :
    s'.Holds bs base (l.take ((newSize + bs - 1) / bs)) := by
  unfold ExtInode.ext4FsTruncateInode at hrun
  cases canTruncate
  · cases hrun
  by_cases hsame : s.size = newSize
  · simp only [Bool.not_true, Bool.false_eq_true, if_false, if_pos hsame] at hrun
    obtain rfl := (Prod.ext_iff.1 hrun).2
    rw [← hsame, h.count, List.take_length]
    exact h
  by_cases hlt : s.size < newSize
  · simp only [Bool.not_true, Bool.false_eq_true, if_false, if_neg hsame, if_pos hlt] at hrun
    cases hrun
  have hmono : (newSize + bs - 1) / bs ≤ l.length := by
    rw [← h.count]
    exact blocks_mono (by omega)
  have hnew : sizeBlocksCnt bs newSize = (newSize + bs - 1) / bs :=
    u32_of_lt (Nat.lt_of_le_of_lt hmono h.fits)
  have hfits : (l.take ((newSize + bs - 1) / bs)).length < 2 ^ 32 :=
    Nat.lt_of_le_of_lt (List.length_take_le' ..) h.fits
  have hcount : (newSize + bs - 1) / bs = (l.take ((newSize + bs - 1) / bs)).length := by
    rw [List.length_take, Nat.min_eq_left hmono]
  have hne_zero : ∀ b ∈ l.take ((newSize + bs - 1) / bs), b ≠ 0 :=
    fun b hb => h.ne_zero b (List.mem_of_mem_take hb)
  simp only [Bool.not_true, Bool.false_eq_true, if_false, if_neg hsame, if_neg hlt, hnew, h.cnt,
    sub32_of_le hmono h.fits] at hrun
  by_cases hdiff : l.length - (newSize + bs - 1) / bs = 0
  · rw [if_neg (not_not.2 hdiff)] at hrun
    obtain rfl := (Prod.ext_iff.1 hrun).2
    have hall : l.take ((newSize + bs - 1) / bs) = l := List.take_of_length_le (by omega)
    rw [hall] at hcount ⊢
    exact ⟨hcount, h.fits, h.ne_zero, h.node, h.noEmpty, h.lists, h.held⟩
  · rw [if_pos hdiff] at hrun
    have hsat := sat_removeTail (s.fs bs env) h.tree_ok (Nat.lt_of_le_of_lt hmono h.fits)
      (h.lists.removeOk h.node _) fuel _ rfl
    rcases hrem : extentRemoveSpace ((newSize + bs - 1) / bs) extMaxBlocks fuel (s.fs bs env) with
      ⟨e | u, fs'⟩ <;> rw [hrem] at hsat hrun
    · cases hrun
    · obtain rfl := (Prod.ext_iff.1 hrun).2
      obtain ⟨⟨hok, hmap, ⟨ranges, nodes, hfreed, hblocks, hranges⟩, hne⟩, hfresh⟩ := hsat
      replace hmap : ∀ x, fs'.tree.map x = if (newSize + bs - 1) / bs ≤ x ∧ x ≤ extMaxBlocks
        then none else s.tree.map x := hmap
      replace hblocks : s.tree.root.blocks.Perm (fs'.tree.root.blocks ++ nodes) := hblocks
      have hphys : physIn (s.fs bs env).tree.root.extents ((newSize + bs - 1) / bs) extMaxBlocks =
        l.drop ((newSize + bs - 1) / bs) := h.lists.physIn h.fits _
      rw [hphys] at hranges
      refine ⟨hcount, hfits, hne_zero, hok.node, hne h.noEmpty, h.lists.take h.fits hmap,
        h.after hfrees _ [] (ranges.flatMap blocksOf) hfresh.symm (by rw [hfreed]; rfl) ?_⟩
      refine List.perm_iff_count.2 fun x => ?_
      have hb := List.perm_iff_count.1 hblocks x
      have hr := List.perm_iff_count.1 hranges x
      have hl := congrArg (List.count x) (List.take_append_drop ((newSize + bs - 1) / bs) l)
      simp only [List.count_append, List.count_nil] at hb hr hl ⊢
      omega

/-- Without faults a block is found. -/
theorem findExtent_total {fs : ExtFs} {b : ℕ} {cap : ℕ} (hf : fs.faults = [])
    (hok : fs.tree.root.Ok cap Tree.rootSpace (2 ^ 32)) : ∃ r, findExtent b fs = (.ok r, fs) := by
  obtain ⟨p, hp⟩ := findExtentFrom_total (b := b) fs.tree.root .nil hok
  refine ⟨⟨fs.tree.depth, p⟩, ?_⟩
  unfold findExtent findExtentAgain
  rw [Prog.bind_ok (access_run hf), Prog.bind_ok (Prog.get_run fs), Prog.bind_ok (hp fs hf)]
  rfl

/-- A block that is written is looked up without a change, also if it may be created. -/
theorem getAt_written {D b v : ℕ} {p : Path D} {cap : ℕ} (hp : p.Fits cap b)
    (hmap : p.plug.map b = some (v, false)) (maxBlocks : ℕ) (create : Bool) (fs : ExtFs) :
    ∃ n, extGetAt b maxBlocks create fuel D p fs = (.ok (v, n), fs) := by
  rw [hp.map_eq] at hmap
  unfold extGetAt
  rcases hl : p.leaf with - | ⟨left, ex, right⟩ <;> simp only [hl] at hmap ⊢
  · cases hmap
  · split_ifs at hmap with hcov
    simp only [Option.some.injEq, Extent.value, Prod.mk.injEq] at hmap
    rw [Extent.inRange_eq (hp.extent_ok hl) le_rfl, if_pos hcov]
    unfold extGetCovered
    simp only [hmap.2, Bool.not_false, if_true]
    refine ⟨min (ex.getActualLen - (b - ex.firstBlock)) maxBlocks, ?_⟩
    rw [Nat.add_comm, hmap.1]
    rfl

/-- **A lookup** of a block of the file returns it, or a device access fails; it changes
    nothing. -/
theorem lookup_holds (hbs : 1024 ≤ bs) (h : s.Holds bs base l) {b : ℕ} (hb : b < l.length)
    (extentCreate supportUnwritten : Bool) :
    ∃ r, s.ext4FsGetInodeDblkIdxInternal bs fuel env b extentCreate supportUnwritten = (r, s) ∧
      (r = .ok l[b] ∨ env.faults ≠ [] ∧ ∃ rc, r = .error (.rc rc)) := by
  have hsize : s.size ≠ 0 := by
    intro h0
    have hcount := h.count
    rw [h0, Nat.div_eq_of_lt (by omega)] at hcount
    omega
  have hfind := sat_findExtent (s.fs bs env) (Nat.lt_trans hb h.fits) h.node _ rfl
  unfold ExtInode.ext4FsGetInodeDblkIdxInternal
  rw [if_neg hsize]
  unfold extentGetBlocks
  rcases hrun : findExtent b (s.fs bs env) with ⟨e | ⟨D, p⟩, fs₁⟩ <;> rw [hrun] at hfind
  · simp only [Prog.bind_error hrun]
    obtain ⟨hsame, hassert⟩ := hfind
    refine ⟨.error e, by rw [after_same hsame], .inr ⟨fun hf => ?_, ?_⟩⟩
    · obtain ⟨r, hr⟩ := @findExtent_total (s.fs bs env) b _ hf h.node
      rw [hr] at hrun
      cases hrun
    · rcases e with rc | -
      · exact ⟨rc, rfl⟩
      · exact absurd rfl hassert
  · obtain ⟨hsame, hp⟩ := hfind
    replace hp : p.Found _ s.tree b := hp
    have hmap := h.lists b
    rw [List.getElem?_eq_getElem hb, ← hp.plug] at hmap
    obtain ⟨n, hget⟩ := @getAt_written fuel D b _ p _ hp.fits hmap 1 extentCreate fs₁
    simp only [Prog.bind_ok hrun]
    rw [hget]
    have hne := h.ne_zero l[b] (List.getElem_mem hb)
    refine ⟨.ok l[b], ?_, .inl rfl⟩
    simp only [hne, ne_eq, not_false_eq_true, decide_true, Bool.true_or, if_true]
    rw [after_same hsame]

end File

/-! ## Runs -/

/-- What can become of a new file with extents, next to the blocks `base` of others, as long
    as its truncations and the releases of blocks succeed: appends, which may fail, truncations, sizes that a write sets
    inside the last block, and allocations and releases by others.  The list is what the file
    should be. -/
inductive ExtReach (bs : ℕ) : (base : ℕ → Bool) → ExtInode → (l : List ℕ) → Prop
  | new (base : ℕ → Bool) : ExtReach bs base ⟨0, extentTreeInit, base⟩ []
  | append {base : ℕ → Bool} {s s' : ExtInode} {l : List ℕ} (h : ExtReach bs base s l)
      (env : ExtEnv s.used) (hfrees : env.Frees) {fuel b i : ℕ} (hfits : l.length + 1 < 2 ^ 32)
      (hfuel : 2 ≤ fuel)
      (hrun : s.ext4FsAppendInodeDblk bs fuel env = (.ok (b, i), s')) :
      ExtReach bs base s' (l ++ [b])
  | appendFails {base : ℕ → Bool} {s s' : ExtInode} {l : List ℕ} (h : ExtReach bs base s l)
      (env : ExtEnv s.used) (hfrees : env.Frees) {fuel : ℕ} {e : Stop}
      (hfits : l.length + 1 < 2 ^ 32) (hfuel : 2 ≤ fuel)
      (hrun : s.ext4FsAppendInodeDblk bs fuel env = (.error e, s')) : ExtReach bs base s' l
  | truncate {base : ℕ → Bool} {s s' : ExtInode} {l : List ℕ} (h : ExtReach bs base s l)
      (env : ExtEnv s.used) (hfrees : env.Frees) {fuel newSize : ℕ} {canTruncate : Bool}
      (hrun : s.ext4FsTruncateInode bs fuel env canTruncate newSize = (.ok (), s')) :
      ExtReach bs base s' (l.take ((newSize + bs - 1) / bs))
  | setSize {base : ℕ → Bool} {s : ExtInode} {l : List ℕ} (h : ExtReach bs base s l) {size : ℕ}
      (hsize : (size + bs - 1) / bs = (s.size + bs - 1) / bs) :
      ExtReach bs base { s with size := size } l
  | otherTakes {base : ℕ → Bool} {s : ExtInode} {l : List ℕ} (h : ExtReach bs base s l) {b : ℕ}
      (hb : s.used b = false) :
      ExtReach bs (Function.update base b true) { s with used := Function.update s.used b true } l
  | otherFrees {base : ℕ → Bool} {s : ExtInode} {l : List ℕ} (h : ExtReach bs base s l) {b : ℕ}
      (hb : base b = true) :
      ExtReach bs (Function.update base b false)
        { s with used := Function.update s.used b false } l

section Runs

variable {bs : ℕ} {base : ℕ → Bool} {s : ExtInode} {l : List ℕ}

theorem newExt_holds (hbs : 1024 ≤ bs) (base : ℕ → Bool) :
    ExtInode.Holds bs base [] ⟨0, extentTreeInit, base⟩ where
  count := Nat.div_eq_of_lt (show 0 + bs - 1 < bs by omega)
  fits := by decide
  ne_zero _ h := absurd h List.not_mem_nil
  node := emptyTree_ok.node
  noEmpty := .inl rfl
  lists _ := rfl
  held := .new base

theorem ExtReach.holds (hbs : 1024 ≤ bs) (h : ExtReach bs base s l) : s.Holds bs base l := by
  induction h with
  | new base => exact newExt_holds hbs base
  | append _ env hfrees hfits hfuel hrun ih =>
    rcases append_holds env hfrees hbs ih hfits hfuel with ⟨b, s', hok, hs'⟩ | ⟨e, s', herr, -⟩
    · rw [hrun] at hok
      cases hok
      exact hs'
    · rw [hrun] at herr
      cases herr
  | appendFails _ env hfrees hfits hfuel hrun ih =>
    rcases append_holds env hfrees hbs ih hfits hfuel with ⟨b, s', hok, -⟩ | ⟨e, s', herr, hs'⟩
    · rw [hrun] at hok
      cases hok
    · rw [hrun] at herr
      cases herr
      exact hs'
  | truncate _ env hfrees hrun ih => exact truncate_holds hfrees ih hrun
  | setSize _ hsize ih =>
    exact ⟨hsize.trans ih.count, ih.fits, ih.ne_zero, ih.node, ih.noEmpty, ih.lists, ih.held⟩
  | otherTakes _ hb ih =>
    exact ⟨ih.count, ih.fits, ih.ne_zero, ih.node, ih.noEmpty, ih.lists, ih.held.otherTakes hb⟩
  | otherFrees _ hb ih =>
    exact ⟨ih.count, ih.fits, ih.ne_zero, ih.node, ih.noEmpty, ih.lists, ih.held.otherFrees hb⟩

/-- **A file with extents is a list of blocks**: along every run it holds the blocks its appends
    have returned and its truncations have left, at these places; these and the blocks of its
    tree are all different, and besides them nothing is allocated but what others hold.  A
    file truncated to nothing holds no block. -/
theorem reach_holds (hbs : 1024 ≤ bs) (h : ExtReach bs base s l) :
    (s.size + bs - 1) / bs = l.length ∧ s.tree.Ok (extSpaceBlock bs) ∧
    (∀ x, s.tree.map x = (l[x]?).map (·, false)) ∧ (l ++ s.tree.root.blocks).Nodup ∧
    (∀ x, s.used x = true ↔ base x = true ∨ x ∈ l ∨ x ∈ s.tree.root.blocks) ∧
    (∀ x, x ∈ l ∨ x ∈ s.tree.root.blocks → base x = false) ∧
    (l = [] → s.tree.root.blocks = [] ∧ ∀ x, s.used x = base x) ∧
    ∀ (fuel : ℕ) (env : ExtEnv s.used) (b : ℕ) (hb : b < l.length)
      (extentCreate supportUnwritten : Bool),
      ∃ r, s.ext4FsGetInodeDblkIdxInternal bs fuel env b extentCreate supportUnwritten = (r, s) ∧
        (r = .ok l[b] ∨ env.faults ≠ [] ∧ ∃ rc, r = .error (.rc rc)) := by
  have hholds := h.holds hbs
  have hused : ∀ x, s.used x = true ↔ base x = true ∨ x ∈ l ∨ x ∈ s.tree.root.blocks := by
    intro x
    rw [hholds.held.used, List.mem_append]
  refine ⟨hholds.count, hholds.tree_ok, hholds.lists, hholds.held.nodup, hused, fun x hx => ?_,
    fun hl => ?_, fun fuel env b hb extentCreate supportUnwritten =>
      lookup_holds hbs hholds hb extentCreate supportUnwritten⟩
  · exact hholds.held.apart x (List.mem_append.2 hx)
  · subst hl
    have hnil := hholds.blocks_nil
    refine ⟨hnil, fun x => Bool.eq_iff_iff.2 ?_⟩
    rw [hused, hnil]
    simp

/-- A filesystem that hands out the free ones of the blocks from `next` on. -/
def nextExtEnv (used : ℕ → Bool) (next : ℕ) (hnext : 0 < next) : ExtEnv used where
  fresh := (List.range' next 4).filter (fun b => !used b)
  faults := []
  frees _ := true
  nodup := (List.nodup_range' ..).filter _
  free b hb := by
    obtain ⟨hmem, hused⟩ := List.mem_filter.1 hb
    have hle := (List.mem_range'_1.1 hmem).1
    exact ⟨by omega, by simpa using hused⟩

/-- A file with `n` blocks, no two of them neighbours, next to 100 blocks of others. -/
def grownExt : ℕ → ExtInode
  | 0 => ⟨0, extentTreeInit, fun b => decide (b < 100)⟩
  | n + 1 => ((grownExt n).ext4FsAppendInodeDblk 1024 2
      (nextExtEnv (grownExt n).used (100 + 10 * n) (by omega))).2

theorem grownExt_ok : ∀ n < 5, ∀ hnext : 0 < 100 + 10 * n,
    ((grownExt n).ext4FsAppendInodeDblk 1024 2
      (nextExtEnv (grownExt n).used (100 + 10 * n) hnext)).1 = .ok (100 + 10 * n, n) := by
  decide +kernel

theorem grownExt_reach {n : ℕ} (hn : n ≤ 5) :
    ExtReach 1024 (grownExt 0).used (grownExt n) ((List.range n).map (100 + 10 * ·)) := by
  induction n with
  | zero => exact .new _
  | succ n ih =>
    rw [List.range_succ, List.map_append]
    refine (ih (by omega)).append (nextExtEnv (grownExt n).used (100 + 10 * n) (by omega))
      (fun _ => rfl) ?_ le_rfl
      (Prod.ext (grownExt_ok n (by omega) (by omega)) rfl)
    rw [List.length_map, List.length_range]
    omega

/-- The fifth block has made the tree grow; a truncation leaves two blocks. -/
theorem reach_holds_grown :
    let truncated := ((grownExt 5).ext4FsTruncateInode 1024 20
      (nextExtEnv (grownExt 5).used 200 (by decide)) true 2000).2
    (grownExt 5).tree.root.blocks = [141] ∧ truncated.tree.map 1 = some (110, false) ∧
      (100 :: 110 :: truncated.tree.root.blocks).Nodup := by
  intro truncated
  have hblocks : (grownExt 5).tree.root.blocks = [141] := by decide +kernel
  have hok : ((grownExt 5).ext4FsTruncateInode 1024 20
      (nextExtEnv (grownExt 5).used 200 (by decide)) true 2000).1 = .ok () := by decide +kernel
  have h := reach_holds (by decide) ((grownExt_reach le_rfl).truncate _ (fun _ => rfl) (Prod.ext hok rfl))
  exact ⟨hblocks, h.2.2.1 1, h.2.2.2.1⟩

end Runs

end Lwext4
