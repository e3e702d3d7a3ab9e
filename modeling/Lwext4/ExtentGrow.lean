/-
  Growing the tree, and the insertion as a whole.

  `ext4_ext_grow_indepth` puts a new root above the old one; the path to the
  new extent then ends at the same leaf (`moved_grown`).
  `extInsertExtent_exact_iff` states when `ext4_ext_insert_extent` adds exactly
  the blocks of the new extent, and `extInsertExtent_total` that it ends after
  at most one jump back to its start.
-/
import Lwext4.ExtentSplit

namespace Lwext4

open Lib

/-! ## The moved root -/

section Grown

variable {cap : ℕ}

theorem Node.low_zero_le (hi : ℕ) : ∀ {d : ℕ} (n : Node d), n.low 0 ≤ n.low hi
  | 0, ⟨_, []⟩ => Nat.zero_le _
  | 0, ⟨_, _ :: _⟩ => le_rfl
  | _ + 1, ⟨_, []⟩ => Nat.zero_le _
  | _ + 1, ⟨_, _ :: _⟩ => le_rfl

theorem Node.Ok.low_zero_lt {c hi : ℕ} (h0 : 0 < hi) : ∀ {d : ℕ} {n : Node d}, n.Ok cap c hi →
    n.low 0 < hi
  | 0, ⟨_, []⟩, _ => h0
  | 0, ⟨_, e :: _⟩, h =>
    ((Node.ok_leaf.1 h).2.2.2.key_lt extent_lt e (List.mem_cons_self ..)).2
  | _ + 1, ⟨_, []⟩, _ => h0
  | _ + 1, ⟨_, e :: _⟩, h =>
    ((Node.ok_index.1 h).2.2.2.2.key_lt entry_lt e (List.mem_cons_self ..)).2

@[simp] theorem Node.setMax_extents (m : ℕ) : ∀ {d : ℕ} (n : Node d),
    (n.setMax m).extents = n.extents
  | 0, _ => rfl
  | _ + 1, _ => rfl

@[simp] theorem Node.setMax_blocks (m : ℕ) : ∀ {d : ℕ} (n : Node d),
    (n.setMax m).blocks = n.blocks
  | 0, _ => rfl
  | _ + 1, _ => rfl

@[simp] theorem Node.setMax_low (m hi : ℕ) : ∀ {d : ℕ} (n : Node d),
    (n.setMax m).low hi = n.low hi
  | 0, _ => rfl
  | _ + 1, _ => rfl

@[simp] theorem Node.setMax_ceilAt (m b hi : ℕ) : ∀ {d : ℕ} (n : Node d),
    (n.setMax m).ceilAt b hi = n.ceilAt b hi
  | 0, _ => rfl
  | _ + 1, _ => rfl

theorem Node.Ok.setMax {c hi m : ℕ} (hm : c ≤ m) : ∀ {d : ℕ} {n : Node d}, n.Ok cap c hi →
    (n.setMax m).Ok cap m hi
  | 0, _, h =>
    have ⟨h2, hc, hlen, hchain⟩ := Node.ok_leaf.1 h
    Node.ok_leaf.2 ⟨(h2.trans hc).trans hm, le_rfl, (hlen.trans hc).trans hm, hchain⟩
  | _ + 1, _, h =>
    have ⟨h2, hc, hlen, hne, hchain⟩ := Node.ok_index.1 h
    Node.ok_index.2 ⟨(h2.trans hc).trans hm, le_rfl, (hlen.trans hc).trans hm, hne, hchain⟩

theorem Node.Ok.maxEntries {c hi : ℕ} : ∀ {d : ℕ} {n : Node d}, n.Ok cap c hi →
    2 ≤ n.maxEntries ∧ n.maxEntries ≤ c
  | 0, _, h => ⟨h.1, h.2.1⟩
  | _ + 1, _, h => ⟨h.1, h.2.1⟩

/-- **The grown tree is well formed.** -/
theorem grown_ok {t : Tree} {blockSize hi : ℕ} (newblock : ℕ) (hcap : Tree.rootSpace ≤ cap)
    (hbs : cap = extSpaceBlock blockSize) (hi_pos : 0 < hi)
    (h : t.root.Ok cap Tree.rootSpace hi) :
    (t.grown blockSize newblock).root.Ok cap Tree.rootSpace hi := by
  have hmax : (if t.depth = 0 then extSpaceBlock blockSize else extSpaceBlockIdx blockSize) =
      cap := by
    rw [hbs]
    split_ifs <;> rfl
  have hroot : 2 ≤ (if t.depth = 0 then extSpaceRootIdx else t.root.maxEntries) ∧
      (if t.depth = 0 then extSpaceRootIdx else t.root.maxEntries) ≤ Tree.rootSpace := by
    split_ifs
    · decide
    · exact h.maxEntries
  unfold Tree.grown
  rw [hmax]
  refine Node.ok_index.2 ⟨hroot.1, hroot.2, (by decide : 1 ≤ 2).trans hroot.1, by simp, ?_, trivial⟩
  refine ⟨h.low_zero_lt hi_pos, ?_, h.setMax hcap⟩
  rw [Node.setMax_low]
  exact Node.low_zero_le _ t.root

theorem grown_ceilAt (t : Tree) (blockSize newblock b hi : ℕ) :
    (t.grown blockSize newblock).root.ceilAt b hi = t.root.ceilAt b hi := by
  show Node.ceilAt _ _ (t.root.setMax _) = _
  rw [Node.setMax_ceilAt]
  rfl

/-- The leaf under the grown root: the old one, with the room of a block if it
    was the root itself. -/
theorem grown_leafAt {t : Tree} {blockSize newblock b : ℕ} {lf : Leaf}
    (h : t.root.leafAt b = some lf) : (t.grown blockSize newblock).root.leafAt b =
      some (if t.depth = 0 then ⟨extSpaceBlock blockSize, lf.exts⟩ else lf) := by
  obtain ⟨d, n⟩ := t
  rcases d with - | d
  · obtain rfl := Option.some.inj h
    rfl
  · exact h

theorem grown_hasRoom {t : Tree} {blockSize newblock hi : ℕ}
    (h : t.root.Ok cap Tree.rootSpace hi) :
    (t.grown blockSize newblock).root.hasRoom = true := by
  have hroot : 1 < (if t.depth = 0 then extSpaceRootIdx else t.root.maxEntries) := by
    split_ifs
    · decide
    · exact h.maxEntries.1
  exact decide_eq_true hroot

variable {D D' : ℕ} {p : Path D} {p' : Path D'} {newext : Extent}

/-- **After growing the tree** the path ends at the same extent. -/
theorem moved_grown (noCombine : Bool) {t : Tree} {blockSize newblock : ℕ}
    (hp : p.Found cap t newext.firstBlock)
    (hp' : p'.Found cap (t.grown blockSize newblock) newext.firstBlock) :
    p.Moved cap newext noCombine p' [newblock] ∧ p'.leaf = p.leaf ∧
      p'.maxEntries = if D = 0 then extSpaceBlock blockSize else p.maxEntries := by
  obtain ⟨lf, hleaf, hmax, hcur⟩ := hp.leaf
  obtain ⟨lf', hleaf', hmax', hcur'⟩ := hp'.leaf
  rw [grown_leafAt hleaf] at hleaf'
  obtain rfl := Option.some.inj hleaf'
  have hcursor : p'.leaf = p.leaf := by
    rw [hcur', hcur]
    split_ifs <;> rfl
  have hceil : p'.ctx.ceil = p.ctx.ceil := by
    rw [hp'.ceil, hp.ceil, grown_ceilAt]
  refine ⟨⟨hp'.fits, ?_, ?_, ?_⟩, hcursor, ?_⟩
  · rw [hp'.plug, hp.plug]
    show [_].flatMap (fun e : Index (Node t.depth) => e.node.extents) = _
    rw [List.flatMap_singleton, Node.setMax_extents]
  · rw [hp'.plug, hp.plug]
    show ([_].flatMap (fun e : Index (Node t.depth) => e.leaf :: e.node.blocks)).Perm _
    rw [List.flatMap_singleton, Node.setMax_blocks]
    rfl
  · unfold InsertOk
    rw [hceil, hcursor]
  · rw [hmax', hmax, hp.depth]
    split_ifs <;> rfl

end Grown

/-! ## The insertion as a whole -/

section Insert

variable {cap D : ℕ} {p : Path D} {newext : Extent} {noCombine : Bool}

/-- An insertion on path `p` that took the blocks `news`: exact iff
    `InsertOk`. -/
structure Inserted (cap : ℕ) (newext : Extent) (noCombine : Bool) (p : Path D) (fs fs' : ExtFs)
    (news : List ℕ) : Prop where
  blockSize : fs'.blockSize = fs.blockSize
  freed : fs'.freed = fs.freed
  fresh : fs.fresh = news ++ fs'.fresh
  blocks : fs'.tree.root.blocks.Perm (news ++ p.plug.root.blocks)
  exact_iff : fs'.tree.root.Ok cap Tree.rootSpace (2 ^ 32) ∧ AddsExtent newext p.plug fs'.tree ↔
    InsertOk p newext noCombine

theorem addsExtent_congr {t₁ t₂ t : Tree} (h : t₁.root.extents = t₂.root.extents) :
    AddsExtent newext t₁ t ↔ AddsExtent newext t₂ t := by
  unfold AddsExtent Tree.map
  rw [h]

theorem noOverlap_congr {t₁ t₂ : Tree} (h : t₁.root.extents = t₂.root.extents) :
    NoOverlap t₁ newext ↔ NoOverlap t₂ newext := by
  unfold NoOverlap Tree.map
  rw [h]

/-- An insertion after the path has moved. -/
theorem Path.Moved.inserted {D' : ℕ} {p' : Path D'} {fs : ExtFs} (fs₁ : ExtFs) {fs₂ : ExtFs}
    {as bs : List ℕ}
    (hm : p.Moved cap newext noCombine p' as) (hb : fs₁.blockSize = fs.blockSize)
    (hfreed : fs₁.freed = fs.freed) (hf : fs.fresh = as ++ fs₁.fresh)
    (h : Inserted cap newext noCombine p' fs₁ fs₂ bs) :
    Inserted cap newext noCombine p fs fs₂ (as ++ bs) where
  blockSize := h.blockSize.trans hb
  freed := h.freed.trans hfreed
  fresh := by rw [hf, h.fresh, List.append_assoc]
  blocks := by
    refine List.perm_iff_count.2 fun b => ?_
    have h1 := List.perm_iff_count.1 h.blocks b
    have h2 := List.perm_iff_count.1 hm.blocks b
    simp only [List.count_append] at h1 h2 ⊢
    omega
  exact_iff := by rw [← addsExtent_congr hm.extents, h.exact_iff, hm.insertOk]

/-- An insertion into a leaf with room. -/
theorem sat_insert_room {fs : ExtFs} (hp : p.Fits cap newext.firstBlock)
    (hno : NoOverlap p.plug newext) (hn : newext.Ok (2 ^ 32)) (hroom : p.full = false)
    (fuel : ℕ) :
    Prog.Sat (· = fs) (extInsertExtent newext noCombine fuel D p)
      (fun _ fs' => Inserted cap newext noCombine p fs fs' [])
      (fun e _ => 1 ≤ fuel → e ≠ .assert) := by
  rcases fuel with - | fuel
  · exact Prog.Sat.fail fun _ _ h => absurd h (by decide)
  · unfold extInsertExtent
    rcases hr : extInsertLeaf p newext noCombine with p' | - | -
    · refine Prog.Sat.modify ?_
      rintro s rfl
      obtain ⟨hiff, hblocks⟩ := done_exact_iff hp hno hn hr
      exact ⟨rfl, rfl, rfl, hblocks, hiff⟩
    · obtain ⟨left, ex, right, hl, hlen, -⟩ := needSplit_at hp hr
      simp only [Path.full, hl, LeafCursor.exts, List.length_append, List.length_cons,
        decide_eq_false_iff_not] at hroom
      omega
    · exact Prog.Sat.fail fun _ _ _ => by simp

/-- Splitting the nodes on the path, then the insertion. -/
theorem sat_split_insert {fs : ExtFs} (hcap : Tree.rootSpace ≤ cap)
    (hfs : cap = extSpaceBlock fs.blockSize) (hp : p.Fits cap newext.firstBlock)
    (hno : NoOverlap p.plug newext) (hn : newext.Ok (2 ^ 32))
    (hsplit : extInsertLeaf p newext noCombine = .needSplit) (fuel : ℕ) :
    Prog.Sat (· = fs)
      (do
        access
        let p' ← extSplitNode p newext
        setTree p'.plug
        extInsertExtent newext noCombine fuel D p')
      (fun _ fs' => ∃ news, Inserted cap newext noCombine p fs fs' news)
      (fun e _ => p.ctx.hasRoom = true → 1 ≤ fuel → e ≠ .assert) := by
  refine Prog.Sat.bind ((sat_access fs).conseq (fun _ => id) (fun _ _ => id)
    fun e _ he _ _ => he.2) fun _ => Prog.Sat.of_forall ?_
  rintro _ ⟨l, rfl⟩
  refine Prog.Sat.bind ((sat_extSplitNode { fs with faults := l } hcap hfs hp hno hn
    hsplit).conseq (fun _ => id) (fun _ _ => id) fun e _ he hr _ => he hr)
    fun p' => Prog.Sat.of_forall ?_
  rintro s ⟨news, hs, hmoved, hroom⟩
  refine Prog.Sat.modify_bind (M := (· = { s with tree := p'.plug })) ?_ (by rintro _ rfl; rfl)
  refine (sat_insert_room hmoved.fits ((noOverlap_congr hmoved.extents).2 hno) hn hroom
    fuel).conseq (fun _ => id) ?_ fun e _ he _ => he
  intro _ fs' h
  exact ⟨_, hmoved.inserted { s with tree := p'.plug } hs.blockSize hs.freed hs.fresh h⟩

theorem sat_extGrowIndepth (fs : ExtFs) :
    Prog.Sat (· = fs) extGrowIndepth
      (fun _ fs' => ∃ newblock, fs'.tree = fs.tree.grown fs.blockSize newblock ∧
        fs'.blockSize = fs.blockSize ∧ fs'.freed = fs.freed ∧ fs.fresh = [newblock] ++ fs'.fresh)
      (fun e _ => e ≠ .assert) := by
  refine Prog.Sat.bind (sat_extNewMetaBlock fs) fun newblock => Prog.Sat.of_forall ?_
  intro s hs
  refine Prog.Sat.bind (sat_onError (sat_access s) fun _ _ h => h.2) fun _ => Prog.Sat.modify ?_
  rintro _ ⟨l, rfl⟩
  exact ⟨newblock, by rw [hs.tree, hs.blockSize], hs.blockSize, hs.freed, hs.fresh⟩

/-- Whether a leaf is to be split depends on its entries and its room only. -/
theorem needSplit_congr {D' : ℕ} {p' : Path D'} (hl : p'.leaf = p.leaf)
    (hm : p'.maxEntries = p.maxEntries) (h : extInsertLeaf p newext noCombine = .needSplit) :
    extInsertLeaf p' newext noCombine = .needSplit := by
  have hfull : p'.full = p.full := by rw [Path.full, Path.full, hl, hm]
  unfold extInsertLeaf at h ⊢
  rw [hl, hfull]
  rcases hleaf : p.leaf with - | ⟨left, ex, right⟩ <;> simp only [hleaf] at h ⊢
  all_goals
    revert h
    split_ifs <;> simp

/-- **`ext4_ext_insert_extent`** on the path found for the new extent. -/
theorem sat_extInsertExtent (fs : ExtFs) (hbs : 1024 ≤ fs.blockSize)
    (hcap : cap = extSpaceBlock fs.blockSize)
    (hok : fs.tree.root.Ok cap Tree.rootSpace (2 ^ 32))
    (hp : p.Found cap fs.tree newext.firstBlock) (hno : NoOverlap fs.tree newext)
    (hn : newext.Ok (2 ^ 32)) (fuel : ℕ) :
    Prog.Sat (· = fs) (extInsertExtent newext noCombine fuel D p)
      (fun _ fs' => ∃ news, Inserted cap newext noCombine p fs fs' news)
      (fun e _ => 2 ≤ fuel → e ≠ .assert) := by
  have hspace : Tree.rootSpace < cap := by
    rw [hcap, extSpaceBlock, Tree.rootSpace]
    omega
  rw [← hp.plug] at hno
  rcases fuel with - | fuel
  · exact Prog.Sat.fail fun _ _ h => absurd h (by decide)
  unfold extInsertExtent
  rcases hr : extInsertLeaf p newext noCombine with p' | - | -
  · refine Prog.Sat.modify ?_
    rintro s rfl
    obtain ⟨hiff, hblocks⟩ := done_exact_iff hp.fits hno hn hr
    exact ⟨[], rfl, rfl, rfl, hblocks, hiff⟩
  · simp only
    by_cases hroom : p.ctx.hasRoom = true
    · rw [if_pos hroom]
      exact (sat_split_insert hspace.le hcap hp.fits hno hn hr fuel).conseq (fun _ => id)
        (fun _ _ => id) fun e _ he hfuel => he hroom (by omega)
    · rw [if_neg hroom]
      refine Prog.Sat.bind ((sat_extGrowIndepth fs).conseq (fun _ => id) (fun _ _ => id)
        fun e _ he _ => he) fun _ => Prog.Sat.of_forall ?_
      rintro s ⟨newblock, htree, hsb, hfreed, hfresh⟩
      have hgrown := grown_ok newblock hspace.le hcap (Nat.two_pow_pos 32) hok
      rw [← htree] at hgrown
      have hfind := sat_findExtentAgain s hn.lt hgrown
      refine Prog.Sat.bind (hfind.conseq (fun _ => id) (fun _ _ => id) fun e _ he _ => he.2)
        fun ⟨D', p'⟩ => Prog.Sat.of_forall ?_
      rintro _ ⟨⟨l, rfl⟩, hp'⟩
      rw [htree] at hp'
      obtain ⟨hmoved, hleaf, hmax⟩ := moved_grown noCombine hp hp'
      have hno' := (noOverlap_congr hmoved.extents).2 hno
      have hins {fs' : ExtFs} {news : List ℕ}
          (h : Inserted cap newext noCombine p' { s with faults := l } fs' news) :=
        hmoved.inserted { s with faults := l } hsb hfreed hfresh h
      simp only
      by_cases hD : D = 0
      · rw [if_pos hD]
        -- the leaf has moved from the inode to a block
        have hroom' : p'.full = false := by
          obtain ⟨left, ex, right, hl, hlen, -⟩ := needSplit_at hp.fits hr
          have hroot : p.maxEntries ≤ Tree.rootSpace := by
            subst hD
            have hctx := hp.fits.node
            rcases hc : p.ctx with - | ⟨l, up⟩
            · rw [hc] at hctx
              exact (Node.ok_leaf.1 hctx).2.1
            · exact absurd up.depth_le (by omega)
          rw [if_pos hD, ← hcap] at hmax
          refine decide_eq_false ?_
          rw [hleaf, hmax, hl, LeafCursor.exts, List.length_append, List.length_cons]
          omega
        refine (sat_insert_room hp'.fits hno' hn hroom' fuel).conseq (fun _ => id) ?_
          fun e _ he hfuel => he (by omega)
        intro _ fs' h
        exact ⟨_, hins h⟩
      · rw [if_neg hD] at hmax ⊢
        have hr' := needSplit_congr hleaf hmax hr
        have hcap' : cap = extSpaceBlock s.blockSize := by rw [hsb, hcap]
        refine (@sat_split_insert cap D' p' newext noCombine { s with faults := l } hspace.le hcap'
          hp'.fits hno' hn hr' fuel).conseq (fun _ => id) ?_ fun e _ he hfuel =>
            he (hp'.hasRoom (grown_hasRoom hok)) (by omega)
        rintro _ fs' ⟨news, h⟩
        exact ⟨_, hins h⟩
  · exact Prog.Sat.fail fun _ _ _ => by simp

/-- **`ext4_ext_insert_extent` is exact** iff `InsertOk` holds of the path
    found: the new tree is well formed and maps what the old one did and the
    blocks of the new extent. -/
theorem extInsertExtent_exact_iff {fs₀ fs₁ fs₂ : ExtFs} {fuel : ℕ} (hbs : 1024 ≤ fs₀.blockSize)
    (hok : fs₀.tree.Ok (extSpaceBlock fs₀.blockSize))
    (hfresh : (fs₀.fresh ++ fs₀.tree.root.blocks).Nodup) (hn : newext.Ok (2 ^ 32))
    (hno : NoOverlap fs₀.tree newext)
    (hfind : findExtent newext.firstBlock fs₀ = (.ok ⟨D, p⟩, fs₁))
    (hrun : extInsertExtent newext noCombine fuel D p fs₁ = (.ok (), fs₂)) :
    fs₂.tree.Ok (extSpaceBlock fs₀.blockSize) ∧ AddsExtent newext fs₀.tree fs₂.tree ↔
      InsertOk p newext noCombine := by
  obtain ⟨⟨l, rfl⟩, hp⟩ := (sat_findExtent fs₀ hn.lt hok.node).ok rfl hfind
  obtain ⟨news, -, -, hfresh₂, hblocks, hiff⟩ := (sat_extInsertExtent { fs₀ with faults := l }
    hbs rfl hok.node hp hno hn fuel).ok rfl hrun
  rw [hp.plug] at hiff hblocks
  have hnodup : fs₂.tree.root.blocks.Nodup := by
    replace hfresh₂ : fs₀.fresh = news ++ fs₂.fresh := hfresh₂
    rw [hfresh₂, List.append_assoc] at hfresh
    refine hblocks.nodup_iff.2 (hfresh.sublist ?_)
    exact (List.sublist_append_right _ _).append_left news
  exact ⟨fun h => hiff.1 ⟨h.1.node, h.2⟩, fun h => ⟨⟨(hiff.2 h).1, hnodup⟩, (hiff.2 h).2⟩⟩

/-- A file whose blocks 10 and 11 are blocks 100 and 101 of the device. -/
def prependFs : ExtFs where
  blockSize := 1024
  tree := ⟨0, (Leaf.mk 4 [⟨10, 2, 100⟩] : Node 0)⟩
  fresh := []
  freed := []
  faults := []

theorem prependFs_ok : prependFs.tree.Ok (extSpaceBlock prependFs.blockSize) where
  node := Node.ok_leaf.2 ⟨by decide, by decide, by decide, ⟨by decide, by decide, by decide⟩, trivial⟩
  nodup := List.nodup_nil

theorem prependFs_apart : NoOverlap prependFs.tree ⟨9, 1, 99⟩ := by
  intro b hb
  obtain rfl : b = 9 := by
    have h := Extent.covers_iff.1 hb
    have hlen : (⟨9, 1, 99⟩ : Extent).getActualLen = 1 := rfl
    simp only [hlen] at h
    omega
  rfl

/-- A file with two leaves below its inode. -/
def leavesFs : ExtFs where
  blockSize := 1024
  tree := ⟨1, (IndexNode.mk 4 [⟨0, 50, Leaf.mk 84 [⟨10, 2, 100⟩, ⟨14, 3, 140⟩]⟩,
    ⟨20, 51, Leaf.mk 84 [⟨20, 3, 200⟩, ⟨30, 1, 300⟩]⟩] : Node 1)⟩
  fresh := []
  freed := []
  faults := []

theorem leavesFs_ok : leavesFs.tree.Ok (extSpaceBlock leavesFs.blockSize) where
  node := by
    refine Node.ok_index.2 ⟨by decide, by decide, by decide, List.cons_ne_nil _ _,
      ⟨by decide, by decide, ?_⟩, ⟨by decide, by decide, ?_⟩, trivial⟩
    · exact Node.ok_leaf.2 ⟨by decide, by decide, by decide, ⟨by decide, by decide, by decide⟩,
        ⟨by decide, by decide, by decide⟩, trivial⟩
    · exact Node.ok_leaf.2 ⟨by decide, by decide, by decide, ⟨by decide, by decide, by decide⟩,
        ⟨by decide, by decide, by decide⟩, trivial⟩
  nodup := by decide

/-- The path to an extent of the first leaf. -/
def leavesPath (leaf : LeafCursor) : Path 1 :=
  ⟨84, leaf, .cons ⟨4, [], 0, 50, [⟨20, 51, Leaf.mk 84 [⟨20, 3, 200⟩, ⟨30, 1, 300⟩]⟩]⟩ .nil⟩

/-- Mapping block 12 to device block 102 appends it to the first extent of the first leaf. -/
theorem insert_append_exact : AddsExtent ⟨12, 1, 102⟩ leavesFs.tree
    (extInsertExtent ⟨12, 1, 102⟩ false 2 1 (leavesPath (.at [] ⟨10, 2, 100⟩ [⟨14, 3, 140⟩]))
      leavesFs).2.tree := by
  have hno : NoOverlap leavesFs.tree ⟨12, 1, 102⟩ := by
    intro b hb
    have h := Extent.covers_iff.1 hb
    have hlen : (⟨12, 1, 102⟩ : Extent).getActualLen = 1 := rfl
    simp only [hlen] at h
    obtain rfl : b = 12 := by omega
    rfl
  have hrun : extInsertExtent ⟨12, 1, 102⟩ false 2 1
      (leavesPath (.at [] ⟨10, 2, 100⟩ [⟨14, 3, 140⟩])) leavesFs = (.ok (), _) :=
    Prod.ext (by decide +kernel) rfl
  exact ((extInsertExtent_exact_iff (by decide) leavesFs_ok (by decide)
    ⟨by decide, by decide, by decide⟩ hno rfl hrun).2
    ⟨by decide, .inr (by rw [if_pos (by decide +kernel)]; decide)⟩).2

/-- Mapping block 9 to device block 99 prepends it to the extent, which still
    starts at device block 100. -/
theorem insert_prepend_wrong : prependFs.tree.Ok (extSpaceBlock prependFs.blockSize) ∧
    NoOverlap prependFs.tree ⟨9, 1, 99⟩ ∧
    (extFindInsert ⟨9, 1, 99⟩ false 2 prependFs).1 = .ok () ∧
    (extFindInsert ⟨9, 1, 99⟩ false 2 prependFs).2.tree.map 9 = some (100, false) ∧
    ¬ AddsExtent ⟨9, 1, 99⟩ prependFs.tree (extFindInsert ⟨9, 1, 99⟩ false 2 prependFs).2.tree := by
  have hmap : (extFindInsert ⟨9, 1, 99⟩ false 2 prependFs).2.tree.map 9 = some (100, false) := by
    decide +kernel
  refine ⟨prependFs_ok, prependFs_apart, ?_, hmap, fun h => ?_⟩
  · decide +kernel
  · have h9 := h 9
    rw [hmap] at h9
    revert h9
    decide +kernel

/-- **Two rounds are enough**: the insertion does not run out of fuel, and the
    walk that splits nodes always finds one with room. -/
theorem extInsertExtent_total {fs₀ fs₁ fs₂ : ExtFs} {fuel : ℕ} (hbs : 1024 ≤ fs₀.blockSize)
    (hok : fs₀.tree.Ok (extSpaceBlock fs₀.blockSize)) (hn : newext.Ok (2 ^ 32))
    (hno : NoOverlap fs₀.tree newext)
    (hfind : findExtent newext.firstBlock fs₀ = (.ok ⟨D, p⟩, fs₁))
    (hfuel : 2 ≤ fuel) :
    extInsertExtent newext noCombine fuel D p fs₁ ≠ (.error .assert, fs₂) := by
  obtain ⟨⟨l, rfl⟩, hp⟩ := (sat_findExtent fs₀ hn.lt hok.node).ok rfl hfind
  intro hrun
  exact (sat_extInsertExtent { fs₀ with faults := l } hbs rfl hok.node hp hno hn fuel).error rfl
    hrun hfuel rfl

end Insert

end Lwext4
