/-
  Splitting a block of a directory index (`ext4_dir_dx_split_index`).

  A full root gives its entries to a new node; a full node gives the upper half
  of them to a new node, and the root gets an entry for it.  The limit of a new
  node does not leave room for the checksum that the search expects there.

  Main result: `splitIndex_keeps_iff`.
-/
import Lwext4.DirIdxEdit
import Lwext4.DirIdxFind

namespace Lwext4.DirIdx

open Lib

/-! ## What is kept -/

/-- The blocks of the directory that hold the index. -/
def DxTree.indexBlocks : DxTree → List ℕ
  | flat _ => [0]
  | deep nodes => 0 :: nodes.map fun t => t.1.block

/-- The state in which a block of the index is split: the directory has its own
    blocks, and the allocator has others. -/
structure IndexStart (env : DxEnv) (st : DxSt) (tree : DxTree) : Prop where
  size : BlockSizeOk env
  valid : ValidIndex env st tree
  head : dirEnGetEntryLen (st.data (st.fblock 0)) 0 = 12
  distinct : tree.indexBlocks.Nodup
  within : ∀ k ∈ tree.indexBlocks, k < st.blocks
  blocks : st.blocks < 2 ^ 32
  inj : ∀ i j, i < st.blocks → j < st.blocks → st.fblock i = st.fblock j → i = j
  free : ∀ n ∈ st.free, n ≠ 0 ∧ ∀ i < st.blocks, st.fblock i ≠ n

/-- The last block of a path stands at the entry `e` between `before` and `after`. -/
inductive StandsAt (st : DxSt) : DxTree → (before : List DxEntry) → (e : DxEntry) →
    (after : List DxEntry) → DxBlock → Prop
  | flat (before : List DxEntry) (e : DxEntry) (after : List DxEntry) :
      StandsAt st (.flat (before ++ e :: after)) before e after
        ⟨.on (st.fblock 0), rootEn, before.length⟩
  | deep (ts₁ ts₂ : List (DxEntry × List DxEntry)) (t : DxEntry) (es₁ es₂ : List DxEntry)
      (e : DxEntry) :
      StandsAt st (.deep (ts₁ ++ (t, es₁ ++ e :: es₂) :: ts₂)) (ts₁.flatMap Prod.snd ++ es₁) e
        (es₂ ++ ts₂.flatMap Prod.snd) ⟨.on (st.fblock t.block), nodeEn, es₁.length⟩

/-- The index is valid with the leaves `before ++ e :: after`, the nodes that were
    written are accepted by the search, and the path still stands at `e`. -/
def IndexKept (env : DxEnv) (st st' : DxSt) (before : List DxEntry) (e : DxEntry)
    (after : List DxEntry) (path : List DxBlock) : Prop :=
  ∃ tree p, ValidIndex env st' tree ∧ tree.leaves = before ++ e :: after ∧
    path.getLast? = some p ∧ StandsAt st' tree before e after p ∧
    ∀ k ∈ tree.indexBlocks, st'.data (st'.fblock k) ≠ st.data (st'.fblock k) →
      dxCsumVerify env (st'.data (st'.fblock k)) = true

section

variable {env : DxEnv} {st st' : DxSt} {tree : DxTree} {before after es : List DxEntry}
  {e : DxEntry} {path path' : List DxBlock} {m : Mem} {root dxb : DxBlock} {b : ExtBlock} {k n : ℕ}

theorem PathAt.standsAt (h : PathAt st tree before e after path) :
    ∃ p, path.getLast? = some p ∧ StandsAt st tree before e after p := by
  cases h with
  | flat => exact ⟨_, rfl, .flat before e after⟩
  | deep ts₁ ts₂ t es₁ es₂ e => exact ⟨_, rfl, .deep ts₁ ts₂ t es₁ es₂ e⟩

/-- Nothing was to be done. -/
theorem indexKept_refl (h : IndexStart env st tree) (hp : PathAt st tree before e after path) :
    IndexKept env st st before e after path := by
  obtain ⟨p, hlast, hstands⟩ := hp.standsAt
  exact ⟨tree, p, h.valid, hp.leaves, hlast, hstands, fun k _ hne => absurd rfl hne⟩

/-! ## The new node -/

theorem newNode_inv (h : dxNewNode env st = (.ok (.ok (b, k)), st')) :
    ∃ n ∈ st.free, b = .on n ∧ k = st.blocks ∧
      st'.fblock = Function.update st.fblock st.blocks n ∧
      ∃ m, dirEnGetEntryLen m 0 = env.sb.blockSize % 2 ^ 16 ∧
        st'.data = Function.update st.data n m := by
  obtain ⟨r, st₁, h₁, h⟩ := Prog.bind_inv h
  cases r with
  | error e => cases h
  | ok r =>
  obtain ⟨n, k'⟩ := r
  obtain ⟨hn, rfl, hdata₁, -, hmap₁⟩ := append_inv h₁
  obtain ⟨⟨rc, c⟩, st₂, h₂, h⟩ := Prog.bind_inv h
  cases rc with
  | some e => cases h
  | none =>
  obtain ⟨rfl, hdata₂, hmap₂⟩ := getNoread_inv h₂
  obtain ⟨⟨⟩, st₃, h₃, h⟩ := Prog.bind_inv h
  cases h₃
  cases h
  refine ⟨n, hn, rfl, rfl, hmap₂.trans hmap₁,
    dirEnSetEntryLen ((st₂.blockData (.on n)).fill 0 8 0) 0 env.sb.blockSize, ?_, ?_⟩
  · rw [dirEnGetEntryLen, dirEnSetEntryLen, getLE_putLE]
    rfl
  · rw [← hdata₁, ← hdata₂]
    rfl

theorem setDxCsum_off (h : env.sb.metadataCsum = false) : setDxCsum env m = m := by
  rw [setDxCsum, h, if_neg Bool.false_ne_true]

theorem csumVerify_off (h : env.sb.metadataCsum = false) : dxCsumVerify env m = true := by
  rw [dxCsumVerify, h, if_neg Bool.false_ne_true]

/-- The root that leads to one node. -/
def grownRoot (m : Mem) (k : ℕ) : Mem :=
  rinfoSetIndirectLevels (dxEntrySetBlock (dxSetCount m rootEn 1) rootEn 0 k) 1

/-- The node with the entries of the root. -/
def grownNode (env : DxEnv) (m nm : Mem) : Mem :=
  dxSetLimit (nm.write nodeEn (m.read rootEn (8 * dxGetCount m rootEn))) nodeEn (splitNodeLimit env)

theorem growRoot_run (hne : root.b.buf.getD 0 ≠ b.buf.getD 0) :
    ∃ st', dxGrowRoot env root b k st = (.ok [root, ⟨b, nodeEn, root.position⟩], st') ∧
      st'.fblock = st.fblock ∧
      st'.blockData root.b = setDxCsum env (grownRoot (st.blockData root.b) k) ∧
      st'.blockData b = setDxCsum env (grownNode env (st.blockData root.b) (st.blockData b)) ∧
      ∀ c, c ≠ root.b.buf.getD 0 → c ≠ b.buf.getD 0 → st'.data c = st.data c := by
  rw [dxGrowRoot, Prog.bind_ok (dxData_run _), Prog.bind_ok (upd_run ..), Prog.bind_ok (upd_run ..),
    Prog.bind_ok (upd_run ..), Prog.bind_ok (upd_run ..), Prog.bind_ok (upd_run ..),
    Prog.bind_ok (upd_run ..)]
  refine ⟨_, rfl, rfl, ?_, ?_, fun c hc hc' => ?_⟩
  · simp only [blockData_setData_self, blockData_setData_of_ne hne]
    rfl
  · simp only [blockData_setData_self, blockData_setData_of_ne hne.symm]
    rfl
  · simp only [DxSt.setData, Function.update_of_ne hc, Function.update_of_ne hc']

/-- The index is valid with other blocks for the same leaves. -/
theorem ValidIndex.replace {tree' : DxTree} (hv : ValidIndex env st tree)
    (hmap : st'.fblock 0 = st.fblock 0)
    (hbytes : ∀ i < rootEn + 2, i ≠ 30 → st'.data (st.fblock 0) i = st.data (st.fblock 0) i)
    (ht : HoldsTree env st' tree') (hleaves : tree'.leaves = tree.leaves) :
    ValidIndex env st' tree' := by
  have hget : ∀ a w, a + w ≤ rootEn + 2 → (a + w ≤ 30 ∨ 31 ≤ a) →
      getLE (st'.data (st.fblock 0)) a w = getLE (st.data (st.fblock 0)) a w := by
    intro a w h1 h2
    exact getLE_congr fun i hi hi' => hbytes i (by omega) (by omega)
  refine ⟨hmap ▸ hv.root, ?_, ?_, ?_, ht, hleaves ▸ hv.sorted, hleaves ▸ hv.first⟩
  · rw [hmap, rinfoGetHashVersion, hget 28 1 (by decide) (by decide)]
    exact hv.version
  · rw [hmap, hget 31 1 (by decide) (by decide)]
    exact hv.flags
  · rw [hmap, dxGetLimit, hget rootEn 2 (by decide) (by decide)]
    exact hv.limit

/-! ## A node under the root -/

theorem grownRoot_frame {i : ℕ} (hi : i < rootEn + 2) (h30 : i ≠ 30) : grownRoot m k i = m i := by
  have hout : rinfoSetIndirectLevels (dxEntrySetBlock (dxSetCount m rootEn 1) rootEn 0 k) 1 i =
      dxEntrySetBlock (dxSetCount m rootEn 1) rootEn 0 k i := by
    rcases Nat.lt_or_gt_of_ne h30 with h | h
    · exact putLE_of_lt h
    · exact putLE_of_ge h
  rw [grownRoot, hout, dxEntrySetBlock, putLE_of_lt (by omega), dxSetCount, putLE_of_lt hi]

theorem grownRoot_levels : rinfoGetIndirectLevels (grownRoot m k) = 1 := by
  rw [rinfoGetIndirectLevels, grownRoot, rinfoSetIndirectLevels, getLE_putLE]
  rfl

theorem grownRoot_entries (hk : k < 2 ^ 32) : HoldsEntries (grownRoot m k) rootEn [⟨0, k⟩] := by
  refine ⟨List.cons_ne_nil _ _, ?_, fun i hi => ?_, fun i hi h0 => ?_⟩
  · rw [dxGetCount, grownRoot, rinfoSetIndirectLevels,
      getLE_putLE_of_disjoint (.inr (by decide)), dxEntrySetBlock,
      getLE_putLE_of_disjoint (.inl (by decide)), dxSetCount, getLE_putLE]
    rfl
  · rw [List.length_singleton] at hi
    obtain rfl : i = 0 := by omega
    rw [dxEntryGetBlock, grownRoot, rinfoSetIndirectLevels,
      getLE_putLE_of_disjoint (.inr (by decide)), dxEntrySetBlock, getLE_putLE]
    exact Nat.mod_eq_of_lt hk
  · rw [List.length_singleton] at hi
    omega

theorem splitNodeLimit_lt (hbs : BlockSizeOk env) : splitNodeLimit env < 2 ^ 16 := by
  have hle := hbs.le
  rw [splitNodeLimit]
  omega

theorem grownNode_limit (hbs : BlockSizeOk env) {nm : Mem} :
    dxGetLimit (grownNode env m nm) nodeEn = splitNodeLimit env := by
  rw [dxGetLimit, grownNode, dxSetLimit, getLE_putLE]
  exact Nat.mod_eq_of_lt (splitNodeLimit_lt hbs)

theorem grownNode_entries {nm : Mem} (h : HoldsEntries m rootEn es) :
    HoldsEntries (grownNode env m nm) nodeEn es := by
  have hcopy : ∀ i, 2 ≤ i → i < 8 * es.length →
      grownNode env m nm (nodeEn + i) = m (rootEn + i) := by
    intro i h1 h2
    rw [grownNode, dxSetLimit, putLE_of_ge (by omega), h.count,
      Mem.write_read_apply _ _ (by omega) (by omega), Nat.add_sub_cancel_left]
  have hpos := h.length_pos
  have hall : HoldsEntries m rootEn ([] ++ es) := h
  refine hall.copy h.ne ?_ fun i h1 h2 => hcopy i (by omega) h2
  rw [← h.count]
  refine getLE_shift fun j hj => ?_
  rw [Nat.add_assoc, hcopy (2 + j) (by omega) (by omega), Nat.add_assoc]

/-- **The root has got a node.** -/
theorem growRoot_keeps (h : IndexStart env st (.flat (before ++ e :: after)))
    (hoff : env.sb.metadataCsum = false) (hn : n ∈ st.free) {nm : Mem}
    (hmap : st'.fblock = Function.update st.fblock st.blocks n)
    (hroot : st'.data (st.fblock 0) = grownRoot (st.data (st.fblock 0)) st.blocks)
    (hnode : st'.data n = grownNode env (st.data (st.fblock 0)) nm) :
    IndexKept env st st' before e after
      [⟨.on (st.fblock 0), rootEn, before.length⟩, ⟨.on n, nodeEn, before.length⟩] := by
  have h0 : 0 < st.blocks := h.within 0 List.mem_cons_self
  have hmap0 : st'.fblock 0 = st.fblock 0 := by rw [hmap, Function.update_of_ne (by omega)]
  have hmapk : st'.fblock st.blocks = n := by rw [hmap, Function.update_self]
  have hes : HoldsEntries (st.data (st.fblock 0)) rootEn (before ++ e :: after) ∧
      (before ++ e :: after).length ≤ rootEntrySpace env := by
    cases h.valid.holds with
    | flat _ hes hlimit => exact ⟨hes, hlimit⟩
  have hspace : rootEntrySpace env ≤ nodeEntrySpace env := by
    rw [rootEntrySpace, nodeEntrySpace]
    omega
  have hlimit : splitNodeLimit env = nodeEntrySpace env := by
    rw [splitNodeLimit, nodeEntrySpace, hoff]
    rfl
  have hge := h.size.ge
  have hfirst : (before ++ e :: after).head?.map DxEntry.hash = some 0 := by
    cases hb : before ++ e :: after with
    | nil => exact absurd hb (by simp)
    | cons a es => exact congrArg some (h.valid.first a (by rw [DxTree.leaves, hb]; rfl))
  have hone : 1 ≤ rootEntrySpace env := by
    rw [rootEntrySpace]
    split_ifs
    · omega
    · omega
  refine ⟨.deep [(⟨0, st.blocks⟩, before ++ e :: after)], _, ?_, by simp [DxTree.leaves], rfl, ?_,
    fun k _ _ => csumVerify_off hoff⟩
  · refine h.valid.replace hmap0 (fun i hi h30 => by rw [hroot, grownRoot_frame hi h30]) ?_
      (by simp [DxTree.leaves])
    refine .deep ?_ ?_ hone ?_ ?_ ?_ ?_
    · rw [hmap0, hroot, grownRoot_levels]
    · rw [hmap0, hroot]
      exact grownRoot_entries h.blocks
    · exact List.forall_mem_singleton.2 (by rw [hmapk]; exact (h.free n hn).1)
    · refine List.forall_mem_singleton.2 ?_
      dsimp only
      rw [hmapk, hnode]
      exact grownNode_entries hes.1
    · exact List.forall_mem_singleton.2 hfirst
    · refine List.forall_mem_singleton.2 ?_
      dsimp only
      rw [hmapk, hnode, grownNode_limit h.size, hlimit]
      exact ⟨rfl, hes.2.trans hspace⟩
  · have hstands := @StandsAt.deep st' [] [] ⟨0, st.blocks⟩ before after e
    rw [hmapk] at hstands
    simpa using hstands

/-! ## A node in two -/

theorem blockSet_inv {c c' : ExtBlock} (h : blockSet c st = (.ok c', st')) :
    st'.data = st.data ∧ st'.fblock = st.fblock := by
  rw [blockSet] at h
  cases hb : c.buf with
  | none =>
    rw [hb] at h
    cases h
  | some n =>
    rw [hb] at h
    dsimp only at h
    split_ifs at h with h₁ h₂
    · cases h
    · cases h
    · cases h
      exact ⟨rfl, rfl⟩

theorem splitFinish_inv {hr : ℕ} (hdxb : root.b.buf.getD 0 ≠ dxb.b.buf.getD 0)
    (hb : root.b.buf.getD 0 ≠ b.buf.getD 0) (hne : dxb.b.buf.getD 0 ≠ b.buf.getD 0)
    (h : dxSplitFinish env root dxb b hr k st = (.ok path', st')) :
    path' = [root, dxb] ∧ st'.fblock = st.fblock ∧
      st'.blockData root.b = setDxCsum env (setDxCsum env
        (dxInsertMem (st.blockData root.b) root.entries root.position hr k)) ∧
      st'.blockData dxb.b = setDxCsum env (st.blockData dxb.b) ∧
      st'.blockData b = setDxCsum env (st.blockData b) ∧
      ∀ c, c ≠ root.b.buf.getD 0 → c ≠ dxb.b.buf.getD 0 → c ≠ b.buf.getD 0 →
        st'.data c = st.data c := by
  rw [dxSplitFinish, dirDxInsertEntry, Prog.bind_ok (upd_run ..), Prog.bind_ok (upd_run ..),
    Prog.bind_ok (upd_run ..), Prog.bind_ok (upd_run ..)] at h
  obtain ⟨c', st₁, h₁, h⟩ := Prog.bind_inv h
  cases h
  obtain ⟨hdata, hmap⟩ := blockSet_inv h₁
  refine ⟨rfl, hmap, ?_, ?_, ?_, fun c h1 h2 h3 => ?_⟩
  · rw [DxSt.blockData, hdata]
    simp only [DxSt.setData, DxSt.blockData, Function.update_self, Function.update_of_ne hdxb,
      Function.update_of_ne hb]
  · rw [DxSt.blockData, hdata]
    simp only [DxSt.setData, DxSt.blockData, Function.update_self, Function.update_of_ne hdxb.symm,
      Function.update_of_ne hne]
  · rw [DxSt.blockData, hdata]
    simp only [DxSt.setData, DxSt.blockData, Function.update_self, Function.update_of_ne hb.symm,
      Function.update_of_ne hne.symm]
  · rw [hdata]
    simp only [DxSt.setData, Function.update_of_ne h1, Function.update_of_ne h2,
      Function.update_of_ne h3]

/-- The node with the upper half of the entries. -/
def rightNode (env : DxEnv) (m nm : Mem) (c d : ℕ) : Mem :=
  dxSetLimit (dxSetCount (nm.write nodeEn (m.read (nodeEn + 8 * c) (8 * d))) nodeEn d) nodeEn
    (splitNodeLimit env)

/-- The three blocks after a node was split. -/
theorem splitNode_inv {c : ℕ} (hdxb : root.b.buf.getD 0 ≠ dxb.b.buf.getD 0)
    (hb : root.b.buf.getD 0 ≠ b.buf.getD 0) (hne : dxb.b.buf.getD 0 ≠ b.buf.getD 0)
    (hc : c = dxGetCount (st.blockData dxb.b) nodeEn / 2)
    (h : dxSplitNode env root dxb b k st = (.ok path', st')) :
    path' = [root, if c ≤ dxb.position then ⟨b, nodeEn, dxb.position - c⟩ else dxb] ∧
      st'.fblock = st.fblock ∧
      st'.blockData root.b = setDxCsum env (setDxCsum env (dxInsertMem (st.blockData root.b)
        root.entries root.position (dxEntryGetHash (st.blockData dxb.b) nodeEn c) k)) ∧
      (env.sb.metadataCsum = false →
        st'.blockData dxb.b = dxSetCount (st.blockData dxb.b) nodeEn c) ∧
      st'.blockData b = setDxCsum env (rightNode env (st.blockData dxb.b) (st.blockData b) c
        (dxGetCount (st.blockData dxb.b) nodeEn - c)) ∧
      ∀ x, x ≠ root.b.buf.getD 0 → x ≠ dxb.b.buf.getD 0 → x ≠ b.buf.getD 0 →
        st'.data x = st.data x := by
  rw [dxSplitNode, Prog.bind_ok (dxData_run _)] at h
  simp only [← hc] at h
  rw [Prog.bind_ok (upd_run ..), Prog.bind_ok (upd_run ..), Prog.bind_ok (upd_run ..)] at h
  by_cases hpos : c ≤ dxb.position
  · rw [if_pos hpos, Prog.bind_ok (upd_run ..)] at h
    obtain ⟨rfl, hmap, hroot, hnew, hold, hrest⟩ := splitFinish_inv hb hdxb hne.symm h
    rw [if_pos hpos]
    refine ⟨rfl, hmap, ?_, fun hoff => ?_, ?_, fun x h1 h2 h3 => ?_⟩
    · rw [hroot]
      simp only [blockData_setData_of_ne hb, blockData_setData_of_ne hdxb]
    · rw [hold, setDxCsum_off hoff]
      simp only [blockData_setData_self, blockData_setData_of_ne hne, setDxCsum_off hoff]
    · rw [hnew]
      simp only [blockData_setData_self, blockData_setData_of_ne hne.symm]
      rfl
    · rw [hrest x h1 h3 h2]
      simp only [DxSt.setData, Function.update_of_ne h2, Function.update_of_ne h3]
  · rw [if_neg hpos] at h
    obtain ⟨rfl, hmap, hroot, hold, hnew, hrest⟩ := splitFinish_inv hdxb hb hne h
    rw [if_neg hpos]
    refine ⟨rfl, hmap, ?_, fun hoff => ?_, ?_, fun x h1 h2 h3 => ?_⟩
    · rw [hroot]
      simp only [blockData_setData_of_ne hb, blockData_setData_of_ne hdxb]
    · rw [hold, setDxCsum_off hoff]
      simp only [blockData_setData_self, blockData_setData_of_ne hne]
    · rw [hnew]
      simp only [blockData_setData_self, blockData_setData_of_ne hne.symm]
      rfl
    · rw [hrest x h1 h2 h3]
      simp only [DxSt.setData, Function.update_of_ne h2, Function.update_of_ne h3]

theorem rightNode_limit (hbs : BlockSizeOk env) {nm : Mem} {c d : ℕ} :
    dxGetLimit (rightNode env m nm c d) nodeEn = splitNodeLimit env := by
  rw [dxGetLimit, rightNode, dxSetLimit, getLE_putLE]
  exact Nat.mod_eq_of_lt (splitNodeLimit_lt hbs)

theorem rightNode_entries {nm : Mem} {es₁ es₂ : List DxEntry}
    (h : HoldsEntries m nodeEn (es₁ ++ es₂)) (hne : es₂ ≠ []) (hlt : es₂.length < 2 ^ 16) :
    HoldsEntries (rightNode env m nm es₁.length es₂.length) nodeEn es₂ := by
  refine h.copy hne ?_ fun i h1 h2 => ?_
  · rw [dxGetCount, rightNode, dxSetLimit, getLE_putLE_of_disjoint (.inr (by omega)), dxSetCount,
      getLE_putLE]
    exact Nat.mod_eq_of_lt hlt
  · rw [rightNode, dxSetLimit, putLE_of_ge (by omega), dxSetCount, putLE_of_ge (by omega),
      Mem.write_read_apply _ _ (by omega) (by omega), Nat.add_sub_cancel_left]

/-- The node that a path stands in, with the nodes before and behind it. -/
structure NodeAt (env : DxEnv) (st : DxSt) (ts₁ : List (DxEntry × List DxEntry)) (t : DxEntry)
    (fs : List DxEntry) (ts₂ : List (DxEntry × List DxEntry)) : Prop where
  start : IndexStart env st (.deep (ts₁ ++ (t, fs) :: ts₂))
  full : fs.length = nodeEntrySpace env
  room : (ts₁ ++ (t, fs) :: ts₂).length < rootEntrySpace env

variable {ts₁ ts₂ : List (DxEntry × List DxEntry)} {t : DxEntry} {fs es₁ es₂ : List DxEntry}

theorem NodeAt.holds (h : NodeAt env st ts₁ t fs ts₂) :
    rinfoGetIndirectLevels (st.data (st.fblock 0)) = 1 ∧
      HoldsEntries (st.data (st.fblock 0)) rootEn ((ts₁ ++ (t, fs) :: ts₂).map Prod.fst) ∧
      ∀ x ∈ ts₁ ++ (t, fs) :: ts₂, st.fblock x.1.block ≠ 0 ∧
        HoldsEntries (st.data (st.fblock x.1.block)) nodeEn x.2 ∧
        x.2.head?.map DxEntry.hash = some x.1.hash ∧
        dxGetLimit (st.data (st.fblock x.1.block)) nodeEn = nodeEntrySpace env ∧
        x.2.length ≤ nodeEntrySpace env := by
  cases h.start.valid.holds with
  | deep hlevels hes hlimit hne hnode hfirst hnodeLimit =>
    exact ⟨hlevels, hes, fun x hx => ⟨hne x hx, hnode x hx, hfirst x hx, hnodeLimit x hx⟩⟩

/-- Blocks of the directory with different numbers are different. -/
theorem IndexStart.ne {i j : ℕ} (h : IndexStart env st tree) (hi : i ∈ tree.indexBlocks)
    (hj : j ∈ tree.indexBlocks) (hij : i ≠ j) : st.fblock i ≠ st.fblock j :=
  fun heq => hij (h.inj i j (h.within i hi) (h.within j hj) heq)

theorem IndexStart.same {i : ℕ} (h : IndexStart env st tree) (hi : i ∈ tree.indexBlocks)
    (hmap : st'.fblock = Function.update st.fblock st.blocks n) : st'.fblock i = st.fblock i := by
  have hlt := h.within i hi
  rw [hmap, Function.update_of_ne (by omega)]

/-- A block of the index that is neither the root nor the node. -/
theorem NodeAt.other (h : NodeAt env st ts₁ t fs ts₂) {x : DxEntry × List DxEntry}
    (hx : x ∈ ts₁ ∨ x ∈ ts₂) : x.1.block ∈ (DxTree.deep (ts₁ ++ (t, fs) :: ts₂)).indexBlocks ∧
      x.1.block ≠ 0 ∧ x.1.block ≠ t.block := by
  have hdistinct := h.start.distinct
  simp only [DxTree.indexBlocks, List.map_append, List.map_cons, List.nodup_cons, List.mem_append,
    List.mem_cons, List.nodup_append, List.mem_map, not_or, not_exists, not_and] at hdistinct ⊢
  obtain ⟨⟨h01, h0t, h02⟩, hts₁, ⟨ht2, hts₂⟩, hcross⟩ := hdistinct
  rcases hx with hx | hx
  · exact ⟨.inr (.inl ⟨x, hx, rfl⟩), h01 x hx, hcross _ ⟨x, hx, rfl⟩ _ (.inl rfl)⟩
  · exact ⟨.inr (.inr (.inr ⟨x, hx, rfl⟩)), h02 x hx, ht2 x hx⟩

/-- What the split of a node makes of the index, when there are no checksums. -/
structure NodeSplit (env : DxEnv) (st st' : DxSt) (p : ℕ) (d n : ℕ) (nm : Mem)
    (es₁ es₂ : List DxEntry) : Prop where
  new : n ∈ st.free
  map : st'.fblock = Function.update st.fblock st.blocks n
  root : st'.data (st.fblock 0) = dxInsertMem (st.data (st.fblock 0)) rootEn p
    (dxEntryGetHash (st.data d) nodeEn es₁.length) st.blocks
  old : st'.data d = dxSetCount (st.data d) nodeEn es₁.length
  node : st'.data n = rightNode env (st.data d) nm es₁.length es₂.length
  rest : ∀ x, x ≠ st.fblock 0 → x ≠ d → x ≠ n → st'.data x = st.data x

/-- **A node was split.** -/
theorem NodeSplit.holdsTree {nm : Mem}
    (hs : NodeSplit env st st' ts₁.length (st.fblock t.block) n nm es₁ es₂)
    (h : NodeAt env st ts₁ t (es₁ ++ es₂) ts₂) (hoff : env.sb.metadataCsum = false)
    (hne₁ : es₁ ≠ []) (hne₂ : es₂ ≠ []) :
    HoldsTree env st' (.deep (ts₁ ++ (t, es₁) ::
      (⟨dxEntryGetHash (st.data (st.fblock t.block)) nodeEn es₁.length, st.blocks⟩, es₂) ::
        ts₂)) := by
  obtain ⟨hlevels, hes, hnodes⟩ := h.holds
  obtain ⟨hne, hnode, hfirst, hlimit, hlen⟩ := hnodes (t, es₁ ++ es₂) (by simp)
  dsimp only at hne hnode hfirst hlimit hlen
  have hroom := h.room
  have hspace : rootEntrySpace env < 2 ^ 16 ∧ nodeEntrySpace env < 2 ^ 16 := by
    have hle := h.start.size.le
    rw [rootEntrySpace, nodeEntrySpace]
    omega
  have htmem : t.block ∈ (DxTree.deep (ts₁ ++ (t, es₁ ++ es₂) :: ts₂)).indexBlocks := by
    simp [DxTree.indexBlocks]
  have hmapt : st'.fblock t.block = st.fblock t.block := h.start.same htmem hs.map
  have hmapn : st'.fblock st.blocks = n := by rw [hs.map, Function.update_self]
  have hmap0 : st'.fblock 0 = st.fblock 0 := h.start.same List.mem_cons_self hs.map
  have hnew := h.start.free n hs.new
  have hcount : 0 < es₁.length := List.length_pos_iff.2 hne₁
  rw [List.length_append] at hlen
  -- the nodes after the split, one by one
  have hall : ∀ x ∈ ts₁ ++ (t, es₁) ::
      (⟨dxEntryGetHash (st.data (st.fblock t.block)) nodeEn es₁.length, st.blocks⟩, es₂) :: ts₂,
      st'.fblock x.1.block ≠ 0 ∧ HoldsEntries (st'.data (st'.fblock x.1.block)) nodeEn x.2 ∧
        x.2.head?.map DxEntry.hash = some x.1.hash ∧
        dxGetLimit (st'.data (st'.fblock x.1.block)) nodeEn = nodeEntrySpace env ∧
        x.2.length ≤ nodeEntrySpace env := by
    have hother : ∀ x, x ∈ ts₁ ∨ x ∈ ts₂ → st'.fblock x.1.block = st.fblock x.1.block ∧
        st'.data (st.fblock x.1.block) = st.data (st.fblock x.1.block) := by
      intro x hx
      obtain ⟨hmem, hx0, hxt⟩ := h.other hx
      exact ⟨h.start.same hmem hs.map, hs.rest _ (h.start.ne hmem List.mem_cons_self hx0)
        (h.start.ne hmem htmem hxt) (hnew.2 _ (h.start.within _ hmem))⟩
    intro x hx
    simp only [List.mem_append, List.mem_cons] at hx
    rcases hx with hx | rfl | rfl | hx
    · obtain ⟨hfb, hdata⟩ := hother x (.inl hx)
      rw [hfb, hdata]
      exact hnodes x (by simp [hx])
    · dsimp only
      rw [hmapt, hs.old]
      refine ⟨hne, hnode.setCount hne₁ (by omega), ?_, ?_, by omega⟩
      · rwa [List.head?_append_of_ne_nil _ hne₁] at hfirst
      · rw [dxGetLimit, dxSetCount, getLE_putLE_of_disjoint (.inl le_rfl)]
        exact hlimit
    · dsimp only
      rw [hmapn, hs.node]
      refine ⟨hnew.1, rightNode_entries hnode hne₂ (by omega), ?_, ?_, by omega⟩
      · have hlt : es₁.length < (es₁ ++ es₂).length := by
          rw [List.length_append]
          have := List.length_pos_iff.2 hne₂
          omega
        rw [hnode.hash es₁.length hlt hcount, List.getElem_append_right le_rfl]
        cases es₂ with
        | nil => exact absurd rfl hne₂
        | cons a es => simp
      · rw [rightNode_limit h.start.size, splitNodeLimit, nodeEntrySpace, hoff]
        rfl
    · obtain ⟨hfb, hdata⟩ := hother x (.inr hx)
      rw [hfb, hdata]
      exact hnodes x (by simp [hx])
  refine .deep ?_ ?_ ?_ (fun x hx => (hall x hx).1) (fun x hx => (hall x hx).2.1)
    (fun x hx => (hall x hx).2.2.1) fun x hx => (hall x hx).2.2.2
  · rw [hmap0, hs.root, ← hlevels]
    exact getLE_congr fun i _ hi => insertMem_low (by rw [rootEn]; omega)
  · rw [hmap0, hs.root]
    have hsplit : (ts₁ ++ (t, es₁ ++ es₂) :: ts₂).map Prod.fst =
        (ts₁.map Prod.fst ++ [t]) ++ ts₂.map Prod.fst := by simp
    rw [hsplit] at hes
    have hhash : dxEntryGetHash (st.data (st.fblock t.block)) nodeEn es₁.length < 2 ^ 32 :=
      getLE_lt _ _ 4
    have hins := hes.insert (by simp) hhash h.start.blocks (by
      rw [← hsplit, List.length_map]
      omega)
    simpa using hins
  · simp only [List.length_append, List.length_cons] at hroom ⊢
    omega

/-- The entry is in one of the halves. -/
theorem standsAt_half {a₁ a₂ : List DxEntry} {x : DxEntry} (hsplit : es₁ ++ es₂ = a₁ ++ e :: a₂) :
    StandsAt st' (.deep (ts₁ ++ (t, es₁) :: (x, es₂) :: ts₂)) (ts₁.flatMap Prod.snd ++ a₁) e
      (a₂ ++ ts₂.flatMap Prod.snd)
      (if es₁.length ≤ a₁.length then ⟨.on (st'.fblock x.block), nodeEn, a₁.length - es₁.length⟩
        else ⟨.on (st'.fblock t.block), nodeEn, a₁.length⟩) := by
  have hupper : ∀ as, a₁ = es₁ ++ as → es₂ = as ++ e :: a₂ →
      StandsAt st' (.deep (ts₁ ++ (t, es₁) :: (x, es₂) :: ts₂)) (ts₁.flatMap Prod.snd ++ a₁) e
        (a₂ ++ ts₂.flatMap Prod.snd)
        ⟨.on (st'.fblock x.block), nodeEn, a₁.length - es₁.length⟩ := by
    rintro as rfl rfl
    have hstands := @StandsAt.deep st' (ts₁ ++ [(t, es₁)]) ts₂ x as a₂ e
    rw [List.length_append, Nat.add_sub_cancel_left]
    simpa using hstands
  rcases List.append_eq_append_iff.1 hsplit with ⟨as, h₁, h₂⟩ | ⟨bs, h₁, h₂⟩
  · rw [if_pos (by rw [h₁, List.length_append]; omega)]
    exact hupper as h₁ h₂
  · cases bs with
    | nil =>
      rw [List.append_nil] at h₁
      rw [if_pos (by rw [h₁])]
      exact hupper [] (by rw [h₁, List.append_nil]) h₂.symm
    | cons f bs =>
      obtain ⟨rfl, rfl⟩ := List.cons.inj h₂
      subst h₁
      rw [if_neg (by rw [List.length_append, List.length_cons]; omega)]
      have hstands := @StandsAt.deep st' ts₁ ((x, es₂) :: ts₂) t a₁ bs e
      simpa using hstands

theorem NodeSplit.kept {nm : Mem} {a₁ a₂ : List DxEntry} {p : DxBlock}
    (hs : NodeSplit env st st' ts₁.length (st.fblock t.block) n nm es₁ es₂)
    (h : NodeAt env st ts₁ t (es₁ ++ es₂) ts₂) (hoff : env.sb.metadataCsum = false)
    (hne₁ : es₁ ≠ []) (hne₂ : es₂ ≠ []) (hsplit : es₁ ++ es₂ = a₁ ++ e :: a₂)
    (hp : p = if es₁.length ≤ a₁.length then ⟨.on n, nodeEn, a₁.length - es₁.length⟩
      else ⟨.on (st.fblock t.block), nodeEn, a₁.length⟩) :
    IndexKept env st st' (ts₁.flatMap Prod.snd ++ a₁) e (a₂ ++ ts₂.flatMap Prod.snd) [root, p] := by
  have hmap0 : st'.fblock 0 = st.fblock 0 := h.start.same List.mem_cons_self hs.map
  have hmapt : st'.fblock t.block = st.fblock t.block := by
    refine h.start.same ?_ hs.map
    simp [DxTree.indexBlocks]
  have hmapn : st'.fblock st.blocks = n := by rw [hs.map, Function.update_self]
  refine ⟨_, p, h.start.valid.replace hmap0 (fun i hi _ => ?_) (hs.holdsTree h hoff hne₁ hne₂) ?_,
    ?_, rfl, ?_, fun k _ _ => csumVerify_off hoff⟩
  · rw [hs.root, insertMem_low hi]
  · simp [DxTree.leaves]
  · rw [DxTree.leaves, List.flatMap_append, List.flatMap_cons, List.flatMap_cons,
      ← List.append_assoc es₁, hsplit]
    simp
  · have hstands := @standsAt_half st' e ts₁ ts₂ t es₁ es₂ a₁ a₂
      ⟨dxEntryGetHash (st.data (st.fblock t.block)) nodeEn es₁.length, st.blocks⟩ hsplit
    dsimp only at hstands
    rwa [hmapn, hmapt, ← hp] at hstands

/-! ## The run -/

theorem splitIndex_inv (h : dirDxSplitIndex env path st = (.ok (none, path'), st')) :
    (dxFull st path).1 = false ∧ path' = path ∧ st' = st ∨
      dxFull st path = (true, false) ∧ ∃ b k st₁, dxNewNode env st = (.ok (.ok (b, k)), st₁) ∧
        dxSplitFull env path b k st₁ = (.ok path', st') := by
  rw [dirDxSplitIndex, Prog.bind_ok (Prog.get_run st)] at h
  rcases hfull : dxFull st path with ⟨_ | _, _ | _⟩
  · rw [hfull] at h
    cases h
    exact .inl ⟨rfl, rfl, rfl⟩
  · rw [hfull] at h
    cases h
    exact .inl ⟨rfl, rfl, rfl⟩
  · rw [hfull] at h
    obtain ⟨r, st₁, h₁, h⟩ := Prog.bind_inv h
    cases r with
    | error e => cases h
    | ok r =>
      obtain ⟨b, k⟩ := r
      obtain ⟨p, st₂, h₂, h⟩ := Prog.bind_inv h
      cases h
      exact .inr ⟨rfl, b, k, st₁, h₁, h₂⟩
  · rw [hfull] at h
    cases h

/-- The search refuses a node with another limit. -/
theorem not_validIndex {i : ℕ} {x : DxEntry}
    (hlevels : rinfoGetIndirectLevels (st.data (st.fblock 0)) = 1)
    (hes : HoldsEntries (st.data (st.fblock 0)) rootEn es) (hx : es[i]? = some x)
    (hlimit : dxGetLimit (st.data (st.fblock x.block)) nodeEn ≠ nodeEntrySpace env) :
    ¬ValidIndex env st tree := by
  intro hv
  obtain ⟨hi, rfl⟩ := List.getElem?_eq_some_iff.1 hx
  cases hv.holds with
  | flat hlevels' => omega
  | @deep nodes _ hes' _ _ _ _ hnodeLimit =>
    have hlen : (nodes.map Prod.fst).length = es.length := hes'.count.symm.trans hes.count
    have hi' : i < nodes.length := by
      rw [← List.length_map, hlen]
      exact hi
    have hblock : nodes[i].1.block = es[i].block := by
      rw [← hes.block i hi, hes'.block i (by rw [hlen]; exact hi), List.getElem_map]
    apply hlimit
    rw [← hblock]
    exact (hnodeLimit nodes[i] (List.getElem_mem hi')).1

/-- With checksums a new node has a limit that is too high. -/
theorem splitNodeLimit_ne (hbs : BlockSizeOk env) (hon : env.sb.metadataCsum = true) :
    splitNodeLimit env ≠ nodeEntrySpace env := by
  obtain ⟨k, hk⟩ := hbs.dvd
  have hge := hbs.ge
  rw [splitNodeLimit, nodeEntrySpace, if_pos hon]
  omega

/-- Storing the checksum leaves the limit of a new node as it is. -/
theorem csum_limit {nm : Mem} (hbs : BlockSizeOk env)
    (hlen : dirEnGetEntryLen m 0 = env.sb.blockSize % 2 ^ 16)
    (hlow : ∀ i < nodeEn, nm i = m i) (hlimit : dxGetLimit nm nodeEn = splitNodeLimit env) :
    dxGetLimit (setDxCsum env nm) nodeEn = splitNodeLimit env := by
  obtain ⟨k, hk⟩ := hbs.dvd
  have hge := hbs.ge
  have hle := hbs.le
  have hhead : IndexHead nm nodeEn := by
    refine .node ?_
    have hsame : dirEnGetEntryLen nm 0 = dirEnGetEntryLen m 0 :=
      getLE_congr fun i _ hi => hlow i (lt_trans hi (by decide))
    rw [hsame, hlen]
    omega
  have hpos : 1 ≤ splitNodeLimit env := by
    rw [splitNodeLimit]
    omega
  rw [← hlimit]
  exact getLE_congr fun i _ hi => setDxCsum_frame hhead (by omega)

/-- The new node under the root is refused. -/
theorem growRoot_not_kept (h : IndexStart env st (.flat es)) (hon : env.sb.metadataCsum = true)
    {nm : Mem} (hnm : dirEnGetEntryLen nm 0 = env.sb.blockSize % 2 ^ 16)
    (hmap : st'.fblock = Function.update st.fblock st.blocks n)
    (hroot : st'.data (st.fblock 0) =
      setDxCsum env (grownRoot (st.data (st.fblock 0)) st.blocks))
    (hnode : st'.data n = setDxCsum env (grownNode env (st.data (st.fblock 0)) nm)) :
    ¬IndexKept env st st' before e after path' := by
  rintro ⟨tree', p, hv, -⟩
  have hmap0 : st'.fblock 0 = st.fblock 0 := h.same List.mem_cons_self hmap
  have hmapn : st'.fblock st.blocks = n := by rw [hmap, Function.update_self]
  have hge := h.size.ge
  have hlow : ∀ i < rootEn + 2, i ≠ 30 → grownRoot (st.data (st.fblock 0)) st.blocks i =
      st.data (st.fblock 0) i := fun i hi h30 => grownRoot_frame hi h30
  have hhead : IndexHead (grownRoot (st.data (st.fblock 0)) st.blocks) rootEn := by
    refine .root ?_
    rw [← h.head]
    exact getLE_congr fun i _ hi => hlow i (by rw [rootEn]; omega) (by omega)
  have hlimit : dxGetLimit (grownRoot (st.data (st.fblock 0)) st.blocks) rootEn =
      rootEntrySpace env := by
    rw [← h.valid.limit]
    exact getLE_congr fun i h1 hi => hlow i hi (by rw [rootEn] at h1; omega)
  have hone : 1 ≤ rootEntrySpace env := by
    rw [rootEntrySpace, if_pos hon]
    omega
  have hes := (grownRoot_entries h.blocks).csum env hhead (by rw [hlimit]; exact hone)
  have hget : ([⟨0, st.blocks⟩] : List DxEntry)[0]? = some ⟨0, st.blocks⟩ := rfl
  refine not_validIndex ?_ (hmap0 ▸ hroot ▸ hes.1) hget ?_ hv
  · rw [hmap0, hroot, ← @grownRoot_levels (st.data (st.fblock 0)) st.blocks]
    exact getLE_congr fun i _ hi => setDxCsum_frame hhead (by rw [rootEn]; omega)
  · show dxGetLimit (st'.data (st'.fblock st.blocks)) nodeEn ≠ nodeEntrySpace env
    rw [hmapn, hnode, csum_limit h.size hnm (fun i hi => ?_) (grownNode_limit h.size)]
    · exact splitNodeLimit_ne h.size hon
    · rw [grownNode, dxSetLimit, putLE_of_lt hi, Mem.write_of_lt _ hi]

/-- The new node beside another is refused. -/
theorem splitNode_not_kept (h : NodeAt env st ts₁ t fs ts₂) (hon : env.sb.metadataCsum = true)
    {nm : Mem} {hr c d : ℕ} (hr' : hr < 2 ^ 32)
    (hnm : dirEnGetEntryLen nm 0 = env.sb.blockSize % 2 ^ 16)
    (hmap : st'.fblock = Function.update st.fblock st.blocks n)
    (hroot : st'.data (st.fblock 0) = setDxCsum env (setDxCsum env
      (dxInsertMem (st.data (st.fblock 0)) rootEn ts₁.length hr st.blocks)))
    (hnode : st'.data n = setDxCsum env (rightNode env m nm c d)) :
    ¬IndexKept env st st' before e after path' := by
  rintro ⟨tree', p, hv, -⟩
  have hmap0 : st'.fblock 0 = st.fblock 0 := h.start.same List.mem_cons_self hmap
  have hmapn : st'.fblock st.blocks = n := by rw [hmap, Function.update_self]
  obtain ⟨hlevels, hes, -⟩ := h.holds
  have hroom := h.room
  have hsplit : (ts₁ ++ (t, fs) :: ts₂).map Prod.fst =
      (ts₁.map Prod.fst ++ [t]) ++ ts₂.map Prod.fst := by simp
  rw [← List.length_map Prod.fst, hsplit] at hroom
  rw [hsplit] at hes
  obtain ⟨hins, hhead, hlen⟩ := hes.insertHead (.root h.start.head)
    (h.start.valid.limit.symm ▸ hroom) (by simp) hr' h.start.blocks
  have hpos : (ts₁.map Prod.fst ++ [t]).length - 1 = ts₁.length := by simp
  rw [hpos] at hins hhead hlen
  obtain ⟨hins₁, hhead₁, hlimit₁⟩ := hins.csum env hhead hlen
  obtain ⟨hins₂, -, -⟩ := hins₁.csum env hhead₁ (hlimit₁ ▸ hlen)
  have hget : ((ts₁.map Prod.fst ++ [t]) ++ (⟨hr, st.blocks⟩ : DxEntry) ::
      ts₂.map Prod.fst)[ts₁.length + 1]? = some ⟨hr, st.blocks⟩ := by
    rw [List.getElem?_append_right (by simp)]
    simp
  refine not_validIndex ?_ (hmap0 ▸ hroot ▸ hins₂) hget ?_ hv
  · rw [hmap0, hroot, ← hlevels]
    have hlow : ∀ i < rootEn, setDxCsum env (setDxCsum env (dxInsertMem (st.data (st.fblock 0))
        rootEn ts₁.length hr st.blocks)) i = st.data (st.fblock 0) i := fun i hi => by
      rw [setDxCsum_frame hhead₁ (by omega), setDxCsum_frame hhead (by omega),
        insertMem_low (by omega)]
    exact getLE_congr fun i _ hi => hlow i (lt_trans hi (by decide))
  · show dxGetLimit (st'.data (st'.fblock st.blocks)) nodeEn ≠ nodeEntrySpace env
    rw [hmapn, hnode, csum_limit h.start.size hnm (fun i hi => ?_) (rightNode_limit h.start.size)]
    · exact splitNodeLimit_ne h.start.size hon
    · rw [rightNode, dxSetLimit, putLE_of_lt hi, dxSetCount, putLE_of_lt (by omega),
        Mem.write_of_lt _ hi]

/-- A full root. -/
theorem growRoot_kept_iff {st₁ : DxSt} (h : IndexStart env st (.flat (before ++ e :: after)))
    (hnew : dxNewNode env st = (.ok (.ok (b, k)), st₁))
    (hrun : dxGrowRoot env ⟨.on (st.fblock 0), rootEn, before.length⟩ b k st₁ = (.ok path', st')) :
    IndexKept env st st' before e after path' ↔ env.sb.metadataCsum = false := by
  obtain ⟨n, hn, rfl, rfl, hmap, nm, hnm, hdata⟩ := newNode_inv hnew
  have hne : n ≠ st.fblock 0 := ((h.free n hn).2 0 (h.within 0 List.mem_cons_self)).symm
  obtain ⟨st'', hgrow, hmap', hroot, hnode, -⟩ := @growRoot_run env st₁
    ⟨.on (st.fblock 0), rootEn, before.length⟩ (.on n) st.blocks hne.symm
  rw [hgrow] at hrun
  cases hrun
  have hroot₁ : st₁.blockData (.on (st.fblock 0)) = st.data (st.fblock 0) := by
    rw [blockData_on, hdata, Function.update_of_ne hne.symm]
  have hnode₁ : st₁.blockData (.on n) = nm := by rw [blockData_on, hdata, Function.update_self]
  rw [hroot₁] at hroot hnode
  rw [hnode₁] at hnode
  cases hc : env.sb.metadataCsum with
  | false =>
    rw [setDxCsum_off hc] at hroot hnode
    exact iff_of_true (growRoot_keeps h hc hn (hmap'.trans hmap) hroot hnode) rfl
  | true =>
    exact iff_of_false (growRoot_not_kept h hc hnm (hmap'.trans hmap) hroot hnode) nofun

/-- A full node. -/
theorem splitNode_kept_iff {st₁ : DxSt} (h : NodeAt env st ts₁ t (es₁ ++ e :: es₂) ts₂)
    (hnew : dxNewNode env st = (.ok (.ok (b, k)), st₁))
    (hrun : dxSplitNode env ⟨.on (st.fblock 0), rootEn, ts₁.length⟩
      ⟨.on (st.fblock t.block), nodeEn, es₁.length⟩ b k st₁ = (.ok path', st')) :
    IndexKept env st st' (ts₁.flatMap Prod.snd ++ es₁) e (es₂ ++ ts₂.flatMap Prod.snd) path' ↔
      env.sb.metadataCsum = false := by
  obtain ⟨n, hn, rfl, rfl, hmap, nm, hnm, hdata⟩ := newNode_inv hnew
  have htmem : t.block ∈ (DxTree.deep (ts₁ ++ (t, es₁ ++ e :: es₂) :: ts₂)).indexBlocks := by
    simp [DxTree.indexBlocks]
  have ht0 : t.block ≠ 0 := by
    have hdistinct := h.start.distinct
    simp only [DxTree.indexBlocks, List.map_append, List.map_cons, List.nodup_cons,
      List.mem_append, List.mem_cons, not_or] at hdistinct
    exact fun h0 => hdistinct.1.2.1 h0.symm
  have hne0 : st.fblock 0 ≠ n := (h.start.free n hn).2 0 (h.start.within 0 List.mem_cons_self)
  have hnet : st.fblock t.block ≠ n := (h.start.free n hn).2 _ (h.start.within _ htmem)
  have hne : st.fblock 0 ≠ st.fblock t.block := (h.start.ne htmem List.mem_cons_self ht0).symm
  have hroot₁ : st₁.blockData (.on (st.fblock 0)) = st.data (st.fblock 0) := by
    rw [blockData_on, hdata, Function.update_of_ne hne0]
  have hold₁ : st₁.blockData (.on (st.fblock t.block)) = st.data (st.fblock t.block) := by
    rw [blockData_on, hdata, Function.update_of_ne hnet]
  have hnode₁ : st₁.blockData (.on n) = nm := by rw [blockData_on, hdata, Function.update_self]
  obtain ⟨-, -, hnodes⟩ := h.holds
  have hcount := (hnodes (t, es₁ ++ e :: es₂) (by simp)).2.1.count
  dsimp only at hcount
  obtain ⟨rfl, hmap', hroot, hold, hnode, hrest⟩ := @splitNode_inv env st₁ st' path'
    ⟨.on (st.fblock 0), rootEn, ts₁.length⟩ ⟨.on (st.fblock t.block), nodeEn, es₁.length⟩ (.on n)
    st.blocks _ hne hne0 hnet rfl hrun
  simp only [hroot₁, hold₁, hnode₁, hcount] at hroot hold hnode hrest ⊢
  cases hc : env.sb.metadataCsum with
  | false =>
    simp only [setDxCsum_off hc] at hroot hnode
    have hge := h.start.size.ge
    have hlen : 2 ≤ (es₁ ++ e :: es₂).length := by
      rw [h.full, nodeEntrySpace, hc, if_neg Bool.false_ne_true]
      omega
    generalize hfs : es₁ ++ e :: es₂ = fs at *
    generalize hcl : fs.length / 2 = cl at *
    have hcut : fs.take cl ++ fs.drop cl = fs := List.take_append_drop cl fs
    have hlen₁ : (fs.take cl).length = cl := by
      rw [List.length_take]
      omega
    have hlen₂ : (fs.drop cl).length = fs.length - cl := List.length_drop
    have hs : NodeSplit env st st' ts₁.length (st.fblock t.block) n nm (fs.take cl)
        (fs.drop cl) := by
      refine ⟨hn, hmap'.trans hmap, ?_, ?_, ?_, fun x h1 h2 h3 => ?_⟩
      · rw [hlen₁]
        exact hroot
      · rw [hlen₁]
        exact hold hc
      · rw [hlen₁, hlen₂]
        exact hnode
      · rw [hrest x h1 h2 h3, hdata, Function.update_of_ne h3]
    refine iff_of_true (hs.kept (hcut.symm ▸ h) hc (List.ne_nil_of_length_pos (by omega))
      (List.ne_nil_of_length_pos (by omega)) (hcut.trans hfs.symm) ?_) rfl
    rw [hlen₁]
  | true =>
    exact iff_of_false (splitNode_not_kept h hc (getLE_lt _ _ 4) hnm (hmap'.trans hmap) hroot hnode)
      nofun

end

/-- **When splitting keeps the index.** -/
theorem splitIndex_keeps_iff (env : DxEnv) (st st' : DxSt) (tree : DxTree)
    (before : List DxEntry) (e : DxEntry) (after : List DxEntry) (path path' : List DxBlock)
    (h : IndexStart env st tree) (hp : PathAt st tree before e after path)
    (hrun : dirDxSplitIndex env path st = (.ok (none, path'), st')) :
    IndexKept env st st' before e after path' ↔
      (env.sb.metadataCsum = true → (dxFull st path).1 = false) := by
  rcases splitIndex_inv hrun with ⟨hfull, rfl, rfl⟩ | ⟨hfull, b, k, st₁, hnew, hsplit⟩
  · exact iff_of_true (indexKept_refl h hp) fun _ => hfull
  · have hoff : (env.sb.metadataCsum = true → (dxFull st path).1 = false) ↔
        env.sb.metadataCsum = false := by
      rw [hfull]
      cases env.sb.metadataCsum <;> simp
    rw [hoff]
    cases hp with
    | flat before e after => exact growRoot_kept_iff h hnew hsplit
    | deep ts₁ ts₂ t es₁ es₂ e =>
      have hv := h.valid
      cases hv.holds with
      | deep hlevels hes hlimit hne hnode hfirst hnodeLimit =>
        obtain ⟨hnlimit, -⟩ := hnodeLimit (t, es₁ ++ e :: es₂) (by simp)
        have hcount := (hnode (t, es₁ ++ e :: es₂) (by simp)).count
        simp only [dxFull, blockData_on, Prod.mk.injEq, decide_eq_false_iff_not, hv.limit,
          hes.count, List.length_map] at hfull
        obtain ⟨hlast, hroot⟩ := hfull
        have hcountLimit := of_decide_eq_true hlast
        refine splitNode_kept_iff ⟨h, ?_, by omega⟩ hnew hsplit
        dsimp only at hnlimit hcount
        omega

/-- A file system with checksums where no call fails. -/
def checkedEnv : DxEnv := { plainEnv with sb := { plainEnv.sb with metadataCsum := true } }

/-- A root with as many entries as there is room for, all for one leaf. -/
def fullRoot (n : Byte) : Mem := fun i =>
  if i < 40 then sparseMem [(4, 12), (29, 8), (32, n), (34, n), (36, 1)] i
  else if i % 8 = 4 then 1 else 0

/-- An index with such a root. -/
def fullIndex (n : Byte) : DxSt where
  data := fun k => if k = 10 then fullRoot n else fun _ => 0
  refs := fun _ => 1
  fblock := fun i => i + 10
  blocks := 2
  free := [12]
  ops := 0

theorem fullIndex_start {env : DxEnv} {n : Byte} {k : ℕ} (hsize : BlockSizeOk env)
    (hspace : rootEntrySpace env = k + 1) (hlimit : dxGetLimit (fullRoot n) rootEn = k + 1)
    (hcount : dxGetCount (fullRoot n) rootEn = k + 1)
    (hblock : ∀ i < k + 1, dxEntryGetBlock (fullRoot n) rootEn i = 1)
    (hhash : ∀ i < k + 1, 0 < i → dxEntryGetHash (fullRoot n) rootEn i = 0)
    (hbytes : dirEnGetEntryLen (fullRoot n) 0 = 12 ∧ rinfoGetHashVersion (fullRoot n) = 0 ∧
      getLE (fullRoot n) 31 1 = 0 ∧ rinfoGetIndirectLevels (fullRoot n) = 0) :
    IndexStart env (fullIndex n) (.flat ([] ++ ⟨0, 1⟩ :: List.replicate k ⟨0, 1⟩)) := by
  obtain ⟨hhead, hversion, hflags, hlevels⟩ := hbytes
  have hes : HoldsEntries (fullRoot n) rootEn (List.replicate (k + 1) ⟨0, 1⟩) := by
    refine ⟨List.cons_ne_nil _ _, ?_, fun i hi => ?_, fun i hi h0 => ?_⟩
    · rw [hcount, List.length_replicate]
    · rw [List.getElem_replicate]
      exact hblock i (by rwa [List.length_replicate] at hi)
    · rw [List.getElem_replicate]
      exact hhash i (by rwa [List.length_replicate] at hi) h0
  refine ⟨hsize, ⟨?_, ?_, hflags, ?_, .flat hlevels hes ?_, ?_, ?_⟩, hhead, ?_, ?_, ?_, ?_, ?_⟩
  · exact Nat.succ_ne_zero 9
  · exact hversion.le.trans (Nat.zero_le 2)
  · exact hlimit.trans hspace.symm
  · rw [hspace]
    simp
  · have hsorted : HashSorted (List.replicate (k + 1) ⟨0, 1⟩) :=
      List.pairwise_replicate.2 (.inr (Nat.le_refl _))
    exact hsorted
  · intro e he
    cases he
    rfl
  · exact List.nodup_singleton 0
  · exact List.forall_mem_singleton.2 (show 0 < 2 by decide)
  · exact show 2 < 2 ^ 32 by decide
  · intro i j _ _ heq
    exact Nat.add_right_cancel heq
  · refine List.forall_mem_singleton.2 ⟨by decide, fun i hi => ?_⟩
    have hlt : i < 2 := hi
    show i + 10 ≠ 12
    omega

theorem splitIndex_run {env : DxEnv} {n : Byte} (h : (match (dirDxSplitIndex env
      [⟨.on 10, rootEn, 0⟩] (fullIndex n)).1 with
    | .ok (none, p) => decide (p = [⟨.on 10, rootEn, 0⟩, ⟨.on 12, nodeEn, 0⟩])
    | _ => false) = true) : ∃ st', dirDxSplitIndex env [⟨.on 10, rootEn, 0⟩] (fullIndex n) =
      (.ok (none, [⟨.on 10, rootEn, 0⟩, ⟨.on 12, nodeEn, 0⟩]), st') := by
  rcases hrun : dirDxSplitIndex env [⟨.on 10, rootEn, 0⟩] (fullIndex n) with
    ⟨stop | ⟨_ | e, p⟩, st'⟩
  · rw [hrun] at h
    cases h
  · rw [hrun] at h
    obtain rfl := of_decide_eq_true h
    exact ⟨st', rfl⟩
  · rw [hrun] at h
    cases h

theorem splitIndex_keeps_iff_root : ∃ st',
    dirDxSplitIndex plainEnv [⟨.on 10, rootEn, 0⟩] (fullIndex 124) =
        (.ok (none, [⟨.on 10, rootEn, 0⟩, ⟨.on 12, nodeEn, 0⟩]), st') ∧
      (IndexKept plainEnv (fullIndex 124) st' [] ⟨0, 1⟩ (List.replicate 123 ⟨0, 1⟩)
          [⟨.on 10, rootEn, 0⟩, ⟨.on 12, nodeEn, 0⟩] ↔
        (plainEnv.sb.metadataCsum = true →
          (dxFull (fullIndex 124) [⟨.on 10, rootEn, 0⟩]).1 = false)) := by
  have hstart := @fullIndex_start plainEnv 124 123 ⟨by decide, by decide, by decide⟩ (by decide)
    (by decide) (by decide) (by decide +kernel) (by decide +kernel) (by decide)
  obtain ⟨st', hrun⟩ := @splitIndex_run plainEnv 124 (by decide +kernel)
  exact ⟨st', hrun, splitIndex_keeps_iff _ _ st' _ _ _ _ _ _ hstart
    (.flat [] ⟨0, 1⟩ (List.replicate 123 ⟨0, 1⟩)) hrun⟩

/-- **A new node has a limit that is too high** in a file system with checksums. -/
theorem splitIndex_keeps_wrong :
    ¬∀ (env : DxEnv) (st st' : DxSt) (tree : DxTree) (before : List DxEntry) (e : DxEntry)
        (after : List DxEntry) (path path' : List DxBlock),
      IndexStart env st tree → PathAt st tree before e after path →
      dirDxSplitIndex env path st = (.ok (none, path'), st') →
      IndexKept env st st' before e after path' := by
  intro hall
  have hstart := @fullIndex_start checkedEnv 123 122 ⟨by decide, by decide, by decide⟩ (by decide)
    (by decide) (by decide) (by decide +kernel) (by decide +kernel) (by decide)
  have hpath := @PathAt.flat (fullIndex 123) [] ⟨0, 1⟩ (List.replicate 122 ⟨0, 1⟩)
  obtain ⟨st', hrun⟩ := @splitIndex_run checkedEnv 123 (by decide +kernel)
  have hkept := hall _ _ st' _ _ _ _ _ _ hstart hpath hrun
  rcases splitIndex_inv hrun with ⟨hfull, -⟩ | ⟨-, b, k, st₁, hnew, hsplit⟩
  · exact absurd hfull (by decide)
  · cases (growRoot_kept_iff hstart hnew hsplit).1 hkept

end Lwext4.DirIdx
