/-
  What a directory index holds.

  The entries of an index are those of the root, or with a level of nodes those
  of all nodes in order; each leads to a leaf.  The first entry of a block has no
  room for a hash: it has the one that its block has in the parent, and 0 in
  the root.  A path stands at one entry of the whole sequence (`PathAt`).
-/
import Lwext4.DirIdx
import Lwext4.DirMap

namespace Lwext4.DirIdx

open Lib

/-! ## References and what calls leave alone -/

/-- A handle on a block. -/
def ExtBlock.on (n : ℕ) : ExtBlock := ⟨n, some n⟩

/-- The references are those of `base`, and one for each block in the list. -/
def Holds (base : ℕ → ℕ) (held : List ℕ) (st : DxSt) : Prop :=
  ∀ n, st.refs n = base n + held.count n

/-- The blocks and the map of the directory are the same. -/
structure SameBlocks (st st' : DxSt) : Prop where
  data : st'.data = st.data
  fblock : st'.fblock = st.fblock

section
variable {env : DxEnv} {st st' st'' : DxSt} {base : ℕ → ℕ} {held held' : List ℕ} {n : ℕ}

@[refl] theorem SameBlocks.refl (st : DxSt) : SameBlocks st st := ⟨rfl, rfl⟩

theorem SameBlocks.trans (h : SameBlocks st st') (h' : SameBlocks st' st'') : SameBlocks st st'' :=
  ⟨h'.data.trans h.data, h'.fblock.trans h.fblock⟩

theorem Holds.perm (h : Holds base held st) (hp : held.Perm held') : Holds base held' st :=
  fun n => by rw [h n, hp.count_eq]

theorem Holds.incRef (h : Holds base held st) (n : ℕ) : Holds base (n :: held) (st.incRef n) := by
  intro k
  have hk := h k
  unfold DxSt.incRef
  by_cases hkn : k = n
  · subst hkn
    simp only [Function.update_self, List.count_cons_self]
    omega
  · simp only [Function.update_of_ne hkn, List.count_cons_of_ne (Ne.symm hkn)]
    exact hk

theorem Holds.decRef (h : Holds base (n :: held) st) : Holds base held (st.decRef n) := by
  intro k
  have hk := h k
  unfold DxSt.decRef
  by_cases hkn : k = n
  · subst hkn
    rw [List.count_cons_self] at hk
    simp only [Function.update_self]
    omega
  · rw [List.count_cons_of_ne (Ne.symm hkn)] at hk
    simp only [Function.update_of_ne hkn]
    exact hk

theorem Holds.pos (h : Holds base (n :: held) st) : st.refs n ≠ 0 := by
  have hn := h n
  rw [List.count_cons_self] at hn
  omega

/-- A block that is held is released. -/
theorem blockSet_on (hn : n ≠ 0) (h : Holds base (n :: held) st) :
    blockSet (.on n) st = (.ok ⟨0, some n⟩, st.decRef n) := by
  unfold blockSet ExtBlock.on
  dsimp only
  rw [if_neg hn, if_neg h.pos]

theorem blockData_on : st.blockData (.on n) = st.data n := rfl

end

/-! ## The index -/

/-- An entry of the index. -/
structure DxEntry where
  hash : ℕ
  block : ℕ
  deriving DecidableEq

/-- An index: the entries of the root, or its entries with those of the nodes
    they lead to. -/
inductive DxTree where
  | flat (es : List DxEntry)
  | deep (nodes : List (DxEntry × List DxEntry))

/-- The entries that lead to leaves. -/
def DxTree.leaves : DxTree → List DxEntry
  | flat es => es
  | deep nodes => nodes.flatMap Prod.snd

/-- The entries of an index block; the first one's hash is not in the block. -/
structure HoldsEntries (m : Mem) (en : ℕ) (es : List DxEntry) : Prop where
  ne : es ≠ []
  count : dxGetCount m en = es.length
  block : ∀ i (h : i < es.length), dxEntryGetBlock m en i = es[i].block
  hash : ∀ i (h : i < es.length), 0 < i → dxEntryGetHash m en i = es[i].hash

/-- In order of their hashes. -/
def HashSorted (es : List DxEntry) : Prop := es.Pairwise fun e e' => e.hash ≤ e'.hash

/-- The index in the blocks of a directory. -/
inductive HoldsTree (env : DxEnv) (st : DxSt) : DxTree → Prop
  | flat {es : List DxEntry} (hlevels : rinfoGetIndirectLevels (st.data (st.fblock 0)) = 0)
      (hes : HoldsEntries (st.data (st.fblock 0)) rootEn es)
      (hlimit : es.length ≤ rootEntrySpace env) : HoldsTree env st (.flat es)
  | deep {nodes : List (DxEntry × List DxEntry)}
      (hlevels : rinfoGetIndirectLevels (st.data (st.fblock 0)) = 1)
      (hes : HoldsEntries (st.data (st.fblock 0)) rootEn (nodes.map Prod.fst))
      (hlimit : nodes.length ≤ rootEntrySpace env)
      (hne : ∀ t ∈ nodes, st.fblock t.1.block ≠ 0)
      (hnode : ∀ t ∈ nodes, HoldsEntries (st.data (st.fblock t.1.block)) nodeEn t.2)
      (hfirst : ∀ t ∈ nodes, t.2.head?.map DxEntry.hash = some t.1.hash)
      (hnodeLimit : ∀ t ∈ nodes, dxGetLimit (st.data (st.fblock t.1.block)) nodeEn =
        nodeEntrySpace env ∧ t.2.length ≤ nodeEntrySpace env) : HoldsTree env st (.deep nodes)

/-- A valid index. -/
structure ValidIndex (env : DxEnv) (st : DxSt) (tree : DxTree) : Prop where
  root : st.fblock 0 ≠ 0
  version : rinfoGetHashVersion (st.data (st.fblock 0)) ≤ 2
  flags : getLE (st.data (st.fblock 0)) 31 1 = 0
  limit : dxGetLimit (st.data (st.fblock 0)) rootEn = rootEntrySpace env
  holds : HoldsTree env st tree
  sorted : HashSorted tree.leaves
  first : ∀ e ∈ tree.leaves.head?, e.hash = 0

/-- A path stands at the entry `e` between `before` and `after`. -/
inductive PathAt (st : DxSt) : DxTree → (before : List DxEntry) → (e : DxEntry) →
    (after : List DxEntry) → List DxBlock → Prop
  | flat (before : List DxEntry) (e : DxEntry) (after : List DxEntry) :
      PathAt st (.flat (before ++ e :: after)) before e after
        [⟨.on (st.fblock 0), rootEn, before.length⟩]
  | deep (ts₁ ts₂ : List (DxEntry × List DxEntry)) (t : DxEntry) (es₁ es₂ : List DxEntry)
      (e : DxEntry) :
      PathAt st (.deep (ts₁ ++ (t, es₁ ++ e :: es₂) :: ts₂)) (ts₁.flatMap Prod.snd ++ es₁) e
        (es₂ ++ ts₂.flatMap Prod.snd)
        [⟨.on (st.fblock 0), rootEn, ts₁.length⟩, ⟨.on (st.fblock t.block), nodeEn, es₁.length⟩]

/-- The numbers of the blocks on a path. -/
def pathBlocks (path : List DxBlock) : List ℕ := path.map fun p => p.b.lbId

section
variable {env : DxEnv} {st st' : DxSt} {tree : DxTree} {before after : List DxEntry}
  {e : DxEntry} {path : List DxBlock} {m : Mem} {en : ℕ} {es : List DxEntry}

theorem PathAt.leaves (h : PathAt st tree before e after path) :
    tree.leaves = before ++ e :: after := by
  cases h with
  | flat => rfl
  | deep => simp [DxTree.leaves]

theorem HoldsEntries.length_pos (h : HoldsEntries m en es) : 0 < es.length :=
  List.length_pos_iff.2 h.ne

theorem SameBlocks.validIndex (h : SameBlocks st st') (hv : ValidIndex env st tree) :
    ValidIndex env st' tree := by
  obtain ⟨data, refs, fblock, blocks, free, ops⟩ := st
  obtain ⟨data', refs', fblock', blocks', free', ops'⟩ := st'
  obtain ⟨hd, hf⟩ := h
  dsimp only at hd hf
  subst hd hf
  refine ⟨hv.root, hv.version, hv.flags, hv.limit, ?_, hv.sorted, hv.first⟩
  cases hv.holds with
  | flat h1 h2 h3 => exact .flat h1 h2 h3
  | deep h1 h2 h3 h4 h5 h6 h7 => exact .deep h1 h2 h3 h4 h5 h6 h7

theorem SameBlocks.pathAt (h : SameBlocks st st') (hp : PathAt st tree before e after path) :
    PathAt st' tree before e after path := by
  cases hp with
  | flat =>
    rw [← h.fblock]
    exact .flat before e after
  | deep ts₁ ts₂ t es₁ es₂ e =>
    rw [← h.fblock]
    exact .deep ts₁ ts₂ t es₁ es₂ e

end

end Lwext4.DirIdx
