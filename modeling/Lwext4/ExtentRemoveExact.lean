/-
  When removing a range of blocks is exact.

  `extentRemoveSpace_exact_iff`: `ext4_extent_remove_space` unmaps the range,
  leaves the rest of the map alone and frees what it unmapped, unless the range
  starts in a hole with mapped blocks after it, or lies inside one extent.
-/
import Lwext4.ExtentRemoveRun
import Lwext4.ExtentGrow

namespace Lwext4

open Lib

/-! ## Insertion frees nothing -/

/-- `x` hands back no block unless it fails. -/
def KeepsFreed {α : Type} (x : ExtM α) : Prop :=
  ∀ rs, Prog.Sat (fun fs => fs.freed = rs) x (fun _ fs => fs.freed = rs) (fun _ _ => True)

section Keeps

variable {α β : Type}

theorem KeepsFreed.bind {x : ExtM α} {f : α → ExtM β} (hx : KeepsFreed x)
    (hf : ∀ a, KeepsFreed (f a)) : KeepsFreed (x >>= f) :=
  fun rs => Prog.Sat.bind (hx rs) fun a => hf a rs

theorem KeepsFreed.pure (a : α) : KeepsFreed (pure a : ExtM α) := fun _ => Prog.Sat.pure fun _ => id

theorem KeepsFreed.fail (e : Stop) : KeepsFreed (Prog.fail e : ExtM α) :=
  fun _ => Prog.Sat.fail fun _ _ => trivial

theorem KeepsFreed.get : KeepsFreed (Prog.get : ExtM ExtFs) := fun _ => Prog.Sat.get fun _ => id

theorem KeepsFreed.modify {f : ExtFs → ExtFs} (hf : ∀ fs, (f fs).freed = fs.freed) :
    KeepsFreed (Prog.modify f) := fun _ => Prog.Sat.modify fun fs h => (hf fs).trans h

theorem KeepsFreed.onError {x : ExtM α} (hx : KeepsFreed x) (cleanup : ExtM Unit) :
    KeepsFreed (onError x cleanup) := fun rs => sat_onError (hx rs) fun _ _ => id

theorem keepsFreed_access : KeepsFreed access := by
  intro rs s hs
  unfold access
  rcases s.faults with - | ⟨- | e, rest⟩
  · exact hs
  · exact hs
  · trivial

theorem keepsFreed_extNewMetaBlock : KeepsFreed extNewMetaBlock := by
  refine keepsFreed_access.bind fun _ => KeepsFreed.get.bind fun fs => ?_
  rcases fs.fresh with - | ⟨b, rest⟩
  · exact .fail _
  · refine KeepsFreed.bind ?_ fun _ => KeepsFreed.pure b
    exact .modify fun _ => rfl

theorem keepsFreed_newNode (t : Tree) (allocated : List ℕ) : KeepsFreed (newNode t allocated) :=
  (keepsFreed_extNewMetaBlock.onError _).bind fun _ =>
    (keepsFreed_access.onError _).bind fun _ => .pure _

theorem keepsFreed_splitUp (insRight : Bool) (key : ℕ) : ∀ {d D : ℕ} (left right : Node d)
    (newblock : ℕ) (allocated : List ℕ) (c : Ctx d D),
    KeepsFreed (splitUp insRight key left right newblock allocated c)
  | _, _, _, _, _, _, .nil => .fail _
  | d, D, left, right, newblock, allocated, .cons l up => by
    unfold splitUp
    by_cases hroom : l.left.length + 1 + l.right.length < l.maxEntries
    · rw [if_pos hroom]
      by_cases hkey : key = l.firstBlock
      · rw [if_pos hkey]
        exact fun rs => Prog.Sat.bind (Prog.Sat.true _ _) fun _ =>
          Prog.Sat.bind (Prog.Sat.true _ _) fun _ => Prog.Sat.fail fun _ _ => trivial
      · rw [if_neg hkey]
        cases insRight
        · exact .pure _
        · exact .pure _
    · rw [if_neg hroom]
      refine KeepsFreed.get.bind fun fs => (keepsFreed_newNode _ _).bind fun upblock =>
        (keepsFreed_splitUp insRight key _ _ upblock _ up).bind fun up' => ?_
      cases insRight
      · exact .pure _
      · exact .pure _

theorem keepsFreed_extSplitNode {D : ℕ} (p : Path D) (newext : Extent) :
    KeepsFreed (extSplitNode p newext) := by
  unfold extSplitNode
  rcases p.leaf with - | ⟨left, ex, right⟩
  · exact .fail _
  · refine KeepsFreed.get.bind fun fs => (keepsFreed_newNode _ _).bind fun newblock =>
      (keepsFreed_splitUp _ _ _ _ newblock _ _).bind fun ctx => ?_
    split_ifs
    · exact .pure _
    · exact .pure _

theorem keepsFreed_findExtentFrom (b : ℕ) : ∀ {d D : ℕ} (n : Node d) (c : Ctx d D),
    KeepsFreed (findExtentFrom b n c)
  | 0, _, _, _ => .pure _
  | _ + 1, _, n, c => by
    unfold findExtentFrom
    simp only
    split
    · exact .fail _
    · refine KeepsFreed.bind (keepsFreed_access.bind fun _ => ?_) fun _ =>
        keepsFreed_findExtentFrom b _ _
      split_ifs
      · exact .pure _
      · exact .fail _

theorem keepsFreed_extGrowIndepth : KeepsFreed extGrowIndepth :=
  keepsFreed_extNewMetaBlock.bind fun _ => (keepsFreed_access.onError _).bind fun _ =>
    .modify fun _ => rfl

/-- **A successful insertion hands back no block.** -/
theorem keepsFreed_extInsertExtent (newext : Extent) (noCombine : Bool) : ∀ (fuel D : ℕ)
    (p : Path D), KeepsFreed (extInsertExtent newext noCombine fuel D p)
  | 0, _, _ => .fail _
  | fuel + 1, D, p => by
    have hset (t : Tree) : KeepsFreed (setTree t) := .modify fun _ => rfl
    have hsplit {D : ℕ} (p : Path D) : KeepsFreed (do
        access
        let p' ← extSplitNode p newext
        setTree p'.plug
        extInsertExtent newext noCombine fuel D p') :=
      keepsFreed_access.bind fun _ => (keepsFreed_extSplitNode p newext).bind fun p' =>
        (hset _).bind fun _ => keepsFreed_extInsertExtent newext noCombine fuel D p'
    unfold extInsertExtent
    rcases extInsertLeaf p newext noCombine with p' | - | -
    · exact .modify fun _ => rfl
    · simp only
      by_cases hroom : p.ctx.hasRoom = true
      · rw [if_pos hroom]
        exact hsplit p
      · rw [if_neg hroom]
        refine keepsFreed_extGrowIndepth.bind fun _ => KeepsFreed.bind (KeepsFreed.get.bind fun fs =>
          (keepsFreed_findExtentFrom _ _ _).bind fun p => .pure _) fun x => ?_
        obtain ⟨D', p'⟩ := x
        simp only
        by_cases hD : D = 0
        · rw [if_pos hD]
          exact keepsFreed_extInsertExtent newext noCombine fuel D' p'
        · rw [if_neg hD]
          exact hsplit p'
    · exact .fail _

end Keeps

/-! ## The removal as a whole -/

/-- The range has been removed from the tree, and its blocks and those of the
    nodes removed have been freed, each once. -/
structure RemovedExactly (cap from' to' : ℕ) (fs fs' : ExtFs) : Prop where
  ok : fs'.tree.Ok cap
  map : ∀ b, fs'.tree.map b = if from' ≤ b ∧ b ≤ to' then none else fs.tree.map b
  freed : ∃ ranges nodes, fs'.freed = fs.freed ++ ranges ∧
    fs.tree.root.blocks.Perm (fs'.tree.root.blocks ++ nodes) ∧
    (ranges.flatMap blocksOf).Perm (physIn fs.tree.root.extents from' to' ++ nodes)
  noEmpty : fs.tree.NoEmpty → fs'.tree.NoEmpty

/-- The ranges that are removed exactly: the first block is mapped or none is,
    and no extent has the range inside. -/
def RemoveOk (t : Tree) (from' to' : ℕ) : Prop :=
  (t.map from' = none → ∀ b, from' ≤ b → b ≤ to' → t.map b = none) ∧
    ∀ e ∈ t.root.extents, e.inside from' to' = false

section Exact

variable {cap from' to' : ℕ}

theorem physIn_eq_nil {es : List Extent} (h : ∀ b, from' ≤ b → b ≤ to' → mapOf es b = none) :
    physIn es from' to' = [] := by
  refine List.filterMap_eq_nil_iff.2 fun b hb => ?_
  have hb := List.mem_range'_1.1 hb
  rw [h b (by omega) (by omega)]
  rfl

theorem physIn_ne_nil {es : List Extent} (hft : from' ≤ to') (h : mapOf es from' ≠ none) :
    physIn es from' to' ≠ [] := by
  intro hnil
  have hmem : from' ∈ List.range' from' (to' + 1 - from') := List.mem_range'_1.2 (by omega)
  exact h (Option.map_eq_none_iff.1 (List.filterMap_eq_nil_iff.1 hnil from' hmem))

theorem Extent.inside_covers {e : Extent} (h : e.inside from' to' = true) (hft : from' ≤ to') :
    e.covers from' = true := by
  have h := of_decide_eq_true h
  rw [Extent.covers_iff]
  omega

/-- A range that starts in a hole is left alone. -/
theorem hole_exact_iff {fs fs' : ExtFs} (hok : fs.tree.Ok cap) (hft : from' ≤ to')
    (hnone : fs.tree.map from' = none) (hs : fs.Same fs') :
    RemovedExactly cap from' to' fs fs' ↔ RemoveOk fs.tree from' to' := by
  obtain ⟨l, rfl⟩ := hs
  constructor
  · intro h
    refine ⟨fun _ b h1 h2 => ?_, fun e he => ?_⟩
    · have hb := h.map b
      rwa [if_pos ⟨h1, h2⟩] at hb
    · by_contra hc
      rw [Bool.not_eq_false] at hc
      exact mapOf_ne_none he (Extent.inside_covers hc hft) hnone
  · intro h
    have hall := h.1 hnone
    refine ⟨hok, fun b => ?_, ⟨[], [], by simp, by simp, ?_⟩, id⟩
    · split_ifs with hb
      · exact hall b hb.1 hb.2
      · rfl
    · rw [physIn_eq_nil hall]
      exact List.Perm.refl _

/-- Nothing of what ends before the range is removed. -/
theorem flatMap_gone_of_chain {hi : ℕ} : ∀ {es : List Extent},
    Chain Extent.firstBlock Extent.Ok hi es → hi ≤ from' →
    es.flatMap (Extent.gone from' to') = []
  | [], _, _ => rfl
  | e :: es, h, hle => by
    have hend := h.1.2.1
    have htop := h.2.top_le extent_lt
    have h0 : min (e.firstBlock + e.getActualLen) (to' + 1) - max e.firstBlock from' = 0 := by omega
    rw [List.flatMap_cons, flatMap_gone_of_chain h.2 hle, Extent.gone, Extent.physRange, h0]
    rfl

theorem emptyTree_ok : Tree.Ok cap ⟨0, (Leaf.mk extSpaceRoot [] : Node 0)⟩ where
  node := Node.ok_leaf.2 ⟨by decide, by decide, by decide, trivial⟩
  nodup := List.nodup_nil

/-- The end of the walk. -/
theorem removedExactly_of_walk {D : ℕ} {n : Node D} {fs fs₁ fs₂ : ExtFs} {as bs : List Extent}
    {P : Prop} (hok : fs.tree.Ok cap) (hft : from' ≤ to')
    (hsplit : fs.tree.root.extents = as ++ bs) (hle : top Extent.firstBlock (2 ^ 32) bs ≤ from')
    (hn : n.Weak cap Tree.rootSpace (2 ^ 32)) (htree : fs₁.tree = ⟨D, n⟩)
    (hgoes : RmGoes from' to' ⟨as, bs, fs.tree.root.blocks⟩ n.account fs fs₁)
    (hne : P → n.isEmpty = false → n.NoEmpty) (hP : fs.tree.NoEmpty → P)
    (hfinish : rmFinish fs₁ = (.ok (), fs₂)) : RemovedExactly cap from' to' fs fs₂ := by
  have hchain := hok.node.chain.1
  obtain ⟨hcut, -, ranges, nodes, hfreed, hblocks, hgone⟩ := hgoes
  rw [hsplit, chain_append] at hchain
  -- the extents of the tree are what stays of the old ones
  have hexts : n.extents = fs.tree.root.extents.flatMap (Extent.cut from' to') := by
    rw [hsplit, List.flatMap_append, flatMap_cut_of_chain hchain.1 hle]
    simpa [Node.account] using hcut.symm
  have hphys : physIn fs.tree.root.extents from' to' = bs.flatMap (Extent.gone from' to') := by
    rw [physIn_eq from' to' hok.node.chain.1]
    show fs.tree.root.extents.flatMap (Extent.gone from' to') = _
    rw [hsplit, List.flatMap_append, flatMap_gone_of_chain hchain.1 hle, List.nil_append]
  have hmap (b : ℕ) : mapOf n.extents b = if from' ≤ b ∧ b ≤ to' then none else fs.tree.map b := by
    rw [hexts, mapOf_flatMap_cut hft b hok.node.chain.1]
    rfl
  have hnodup : n.blocks.Nodup :=
    (hblocks.nodup_iff.1 hok.nodup).sublist (List.sublist_append_left _ _)
  have hranges : (ranges.flatMap blocksOf).Perm (physIn fs.tree.root.extents from' to' ++ nodes) := by
    rw [hphys]
    simpa [Node.account] using hgone
  have hempty : fs₁.tree.root.isEmpty = n.isEmpty := by rw [htree]
  cases he : n.isEmpty
  · have hfs : fs₂ = fs₁ := by
      have h := congrArg Prod.snd hfinish
      simp only [rmFinish, Prog.modify, hempty, he, Bool.false_eq_true, if_false] at h
      exact h.symm
    subst hfs
    refine ⟨⟨?_, ?_⟩, fun b => ?_, ⟨ranges, nodes, hfreed, ?_, hranges⟩, fun h => ?_⟩
    · rw [htree]; exact hn.ok he
    · rw [htree]; exact hnodup
    · rw [htree]; exact hmap b
    · rw [htree]; exact hblocks
    · rw [htree]; exact .inr (hne (hP h) he)
  · obtain ⟨hx, hb⟩ := Node.extents_of_isEmpty he
    have hfs : fs₂ = { fs₁ with tree := ⟨0, (Leaf.mk extSpaceRoot [] : Node 0)⟩ } := by
      have h := congrArg Prod.snd hfinish
      simp only [rmFinish, Prog.modify, hempty, he, if_true] at h
      exact h.symm
    subst hfs
    refine ⟨emptyTree_ok, fun b => ?_, ⟨ranges, nodes, hfreed, ?_, hranges⟩, fun _ => .inl rfl⟩
    · rw [← hmap b, hx]
      rfl
    · have h : n.account.blocks = [] := hb
      rw [h] at hblocks
      exact hblocks

/-- The walk from the extent that maps the first block of the range. -/
theorem sat_walk_exact {D : ℕ} {p : Path D} {fs s : ExtFs} (hok : fs.tree.Ok cap)
    (hft : from' ≤ to') (hs : fs.Same s) (hp : p.Found cap fs.tree from')
    {left right : List Extent} {ex : Extent} (hl : p.leaf = .at left ex right)
    (hcov : ex.covers from' = true) (hinside : ex.inside from' to' = false) (fuel : ℕ) :
    Prog.Sat (· = s)
      (do
        rmLoop from' to' fuel (.leaf p.maxEntries left (ex :: right) p.ctx)
        rmFinish)
      (fun _ fs' => RemovedExactly cap from' to' fs fs' ↔ RemoveOk fs.tree from' to')
      (fun _ _ => True) := by
  obtain ⟨l, rfl⟩ := hs
  have hcov := Extent.covers_iff.1 hcov
  have hin : ¬ (ex.firstBlock < from' ∧ to' < ex.firstBlock + ex.getActualLen - 1) :=
    of_decide_eq_false hinside
  have hnode : p.node = (Leaf.mk p.maxEntries (left ++ ex :: right) : Node 0) := by
    rw [Path.node, hl]
    rfl
  have hplug : fs.tree = p.ctx.plug (Leaf.mk p.maxEntries (left ++ ex :: right) : Node 0) := by
    rw [← hp.plug, Path.plug, hnode]
  have hsplit : fs.tree.root.extents = (p.ctx.before ++ left) ++ (ex :: right ++ p.ctx.after) := by
    rw [hplug, Ctx.plug_extents]
    simp [Node.extents]
  have hchain := hok.node.chain.1
  rw [hsplit, chain_append] at hchain
  obtain ⟨hbefore, htodo⟩ := hchain
  have hkey : ∀ e ∈ right ++ p.ctx.after, ex.firstBlock + ex.getActualLen ≤ e.firstBlock :=
    fun e he => htodo.1.2.1.trans (htodo.2.key_lt extent_lt e he).1
  have hpos : (RmPos.leaf p.maxEntries left (ex :: right) p.ctx).Ok cap := by
    refine ⟨⟨hp.fits.ctx, ?_, ?_⟩, fun hs => by cases hs⟩
    · rw [← hnode]; exact hp.fits.low
    · rw [← hnode]; exact hp.fits.node
  have hreach : ∀ e ∈ ex :: right ++ p.ctx.after, e.Reached from' to' := by
    intro e he
    rcases List.mem_cons.1 he with rfl | he
    · exact ⟨hcov.2, fun hlt => by omega⟩
    · have h := hkey e he
      exact ⟨by omega, fun hlt => by omega⟩
  have hremove : RemoveOk fs.tree from' to' := by
    refine ⟨fun hnone => absurd hnone ?_, fun e he => decide_eq_false ?_⟩
    · refine mapOf_ne_none (e := ex) ?_ (Extent.covers_iff.2 hcov)
      rw [hsplit]
      simp
    · rw [hsplit] at he
      rcases List.mem_append.1 he with he | he
      · obtain ⟨as, bs, hab⟩ := List.append_of_mem he
        rw [hab, chain_append, chain_cons] at hbefore
        have h1 := hbefore.2.1.2.1
        have h2 := hbefore.2.2.top_le extent_lt
        have h3 : top Extent.firstBlock (2 ^ 32) (ex :: right ++ p.ctx.after) = ex.firstBlock := rfl
        rw [h3] at h1 h2
        omega
      · have := (hreach e he).2
        omega
  have hne : fs.tree.NoEmpty → (RmPos.leaf p.maxEntries left (ex :: right) p.ctx).NoEmpty := by
    intro h
    rcases h with h | h
    · have hD : D = 0 := hp.depth.trans h
      subst hD
      show p.ctx.NoEmpty
      rcases p.ctx with - | ⟨l, up⟩
      · trivial
      · exact absurd up.depth_le (by omega)
    · rw [hplug] at h
      exact (Ctx.noEmpty_of_plug h).1
  refine Prog.Sat.bind (sat_rmLoop hft fuel { fs with faults := l } hpos hreach) fun _ =>
    Prog.Sat.of_forall ?_
  rintro fs₁ ⟨n, htree, hn, hgoes, hne'⟩
  have hacc : (RmPos.leaf p.maxEntries left (ex :: right) p.ctx).account =
      ⟨p.ctx.before ++ left, ex :: right ++ p.ctx.after, fs.tree.root.blocks⟩ := by
    rw [hplug]
    rfl
  rw [hacc] at hgoes
  have hgoes' : RmGoes from' to' _ n.account fs fs₁ := ⟨hgoes.cut, hgoes.todo, hgoes.freed⟩
  rintro _ rfl
  exact iff_of_true (removedExactly_of_walk hok hft hsplit hcov.1 hn htree hgoes' hne' hne rfl)
    hremove

/-- A range inside an extent is not freed. -/
theorem inside_not_exact {fs fs' : ExtFs} (hft : from' ≤ to') {e : Extent}
    (he : e ∈ fs.tree.root.extents) (hinside : e.inside from' to' = true)
    (hfreed : fs'.freed = fs.freed) :
    RemovedExactly cap from' to' fs fs' ↔ RemoveOk fs.tree from' to' := by
  refine iff_of_false (fun h => ?_) fun h => ?_
  · obtain ⟨ranges, nodes, hr, -, hperm⟩ := h.freed
    rw [hfreed, List.self_eq_append_right] at hr
    rw [hr, List.flatMap_nil] at hperm
    have hnil := (List.append_eq_nil_iff.1 hperm.nil_eq.symm).1
    exact physIn_ne_nil hft (mapOf_ne_none he (Extent.inside_covers hinside hft)) hnil
  · rw [h.2 e he] at hinside
    cases hinside

/-- **`ext4_extent_remove_space` is exact** iff its range starts at a mapped
    block or maps none, and does not lie inside an extent. -/
theorem extentRemoveSpace_exact_iff {fs fs' : ExtFs} {fuel : ℕ} (hok : fs.tree.Ok cap)
    (hft : from' ≤ to') (hto : to' < 2 ^ 32)
    (hrun : extentRemoveSpace from' to' fuel fs = (.ok (), fs')) :
    RemovedExactly cap from' to' fs fs' ↔ RemoveOk fs.tree from' to' := by
  have hsat : Prog.Sat (· = fs) (extentRemoveSpace from' to' fuel)
      (fun _ fs' => RemovedExactly cap from' to' fs fs' ↔ RemoveOk fs.tree from' to')
      (fun _ _ => True) := by
    refine Prog.Sat.bind ((sat_findExtent fs (Nat.lt_of_le_of_lt hft hto) hok.node).conseq
      (fun _ => id) (fun _ _ => id) fun _ _ _ => trivial) fun ⟨D, p⟩ => Prog.Sat.of_forall ?_
    rintro s ⟨hs, hp⟩
    replace hp : p.Found cap fs.tree from' := hp
    have hmap := hp.fits.map_eq
    rw [hp.plug] at hmap
    rcases hl : p.leaf with - | ⟨left, ex, right⟩ <;> simp only [hl] at hmap ⊢
    · refine Prog.Sat.pure ?_
      rintro _ rfl
      exact hole_exact_iff hok hft hmap hs
    · cases hcov : ex.covers from'
      · rw [hcov, if_neg (by decide)] at hmap
        refine Prog.Sat.pure ?_
        rintro _ rfl
        exact hole_exact_iff hok hft hmap hs
      · cases hinside : ex.inside from' to'
        · exact sat_walk_exact hok hft hs hp hl hcov hinside fuel
        · have hmem : ex ∈ fs.tree.root.extents := by
            rw [← hp.plug, Path.plug, Ctx.plug_extents]
            simp [Path.node, hl, LeafCursor.exts, Node.extents]
          have hset (t : Tree) : KeepsFreed (setTree t) := .modify fun _ => rfl
          refine (((hset _).bind fun _ => keepsFreed_extInsertExtent _ false fuel D _)
            fs.freed).conseq ?_ ?_ fun _ _ => id
          · rintro _ rfl
            obtain ⟨l, rfl⟩ := hs
            rfl
          · intro _ fs' hfreed
            exact inside_not_exact hft hmem hinside hfreed
  exact hsat.ok rfl hrun

/-- A file with block 5 mapped and nothing else. -/
def holeFs : ExtFs where
  blockSize := 1024
  tree := ⟨0, (Leaf.mk 4 [⟨5, 1, 100⟩] : Node 0)⟩
  fresh := []
  freed := []
  faults := []

theorem holeFs_ok : holeFs.tree.Ok 84 where
  node := Node.ok_leaf.2 ⟨by decide, by decide, by decide, ⟨by decide, by decide, by decide⟩, trivial⟩
  nodup := List.nodup_nil

/-- Removing blocks 14 to 25 takes an extent from each of two leaves. -/
theorem remove_mapped_exact :
    RemovedExactly 84 14 25 leavesFs (extentRemoveSpace 14 25 10 leavesFs).2 := by
  have hrun : extentRemoveSpace 14 25 10 leavesFs =
      (.ok (), (extentRemoveSpace 14 25 10 leavesFs).2) := Prod.ext (by decide +kernel) rfl
  refine (extentRemoveSpace_exact_iff leavesFs_ok (by decide) (by decide) hrun).2
    ⟨fun h => absurd h (by decide +kernel), fun e he => ?_⟩
  revert e
  decide +kernel

/-- **Removing blocks 3 to 9** does nothing, since block 3 is in a hole. -/
theorem remove_from_hole : holeFs.tree.Ok 84 ∧
    (extentRemoveSpace 3 9 10 holeFs).1 = .ok () ∧
    (extentRemoveSpace 3 9 10 holeFs).2.tree.map 5 = some (100, false) ∧
    ¬ RemovedExactly 84 3 9 holeFs (extentRemoveSpace 3 9 10 holeFs).2 := by
  have hmap : (extentRemoveSpace 3 9 10 holeFs).2.tree.map 5 = some (100, false) := by
    decide +kernel
  refine ⟨holeFs_ok, by decide +kernel, hmap, fun h => ?_⟩
  have h5 := h.map 5
  rw [hmap, if_pos (by decide)] at h5
  cases h5

end Exact

end Lwext4
