/-
  The bytes that `ext4_find_extent` reads of extent nodes.

  The nodes are bytes here: the 60 bytes of the root in the inode, and the
  blocks of the device.  `ext4_ext_check` compares the entries of a node with
  the capacity the node itself claims, never with its size, and the root is not
  checked.  A node whose child lies behind the end of the device is released
  twice, and the second release meets an assertion.  `extFindExtent_inside_iff`
  says of which trees no first blocks of the entries make a lookup, or the
  checksum tail of a node, leave the node, or the release stop.
-/
import Lwext4.Lib.Traced
import Lwext4.Basic

namespace Lwext4

open Lib

/-- What the code looks at: the extent root in the inode, and blocks. -/
inductive ExtObj where
  | root
  | block (b : ℕ)
  deriving DecidableEq

/-- Their sizes. -/
def ExtObj.size (blockSize : ℕ) : ExtObj → ℕ
  | .root => 60
  | .block _ => blockSize

/-- The `lb_id` of the `struct ext4_block` that holds a node; the root has none. -/
def ExtObj.lbId : ExtObj → ℕ
  | .root => 0
  | .block b => b

/-- `EXT4_EXTENT_MAGIC`. -/
def extentMagic : ℕ := 0xF30A

/-- `struct ext4_extent_header`. -/
structure ExtHeader where
  magic : ℕ
  entriesCount : ℕ
  maxEntriesCount : ℕ
  depth : ℕ

/-- The header of a node. -/
def extHeader (eh : Mem) : ExtHeader where
  magic := getLE eh 0 2
  entriesCount := getLE eh 2 2
  maxEntriesCount := getLE eh 4 2
  depth := getLE eh 6 2

/-- The offset of an entry. -/
def extEntryAt (k : ℕ) : ℕ := 12 + 12 * k

/-! ## The code -/

section Code

variable (csum : Bool) (lgBcnt : ℕ) (dev : ℕ → Option Mem) (block : ℕ)

/-- `ext4_ext_block_csum`: the checksum over the node up to its tail. -/
def extBlockCsumT (o : ExtObj) (max : ℕ) : Traced ExtObj Unit :=
  if csum then Traced.touch o 0 (extEntryAt max) else pure ()

/-- `ext4_extent_block_csum_set`. -/
def extBlockCsumSetT (o : ExtObj) (eh : Mem) : Traced ExtObj Unit := do
  let max ← Traced.getLE o eh 4 2
  extBlockCsumT csum o max
  Traced.touch o (extEntryAt max) 4

/-- `ext4_ext_check`; a checksum that does not match is only reported. -/
def extCheckT (o : ExtObj) (eh : Mem) (depth : ℕ) : Traced ExtObj Bool := do
  let magic ← Traced.getLE o eh 0 2
  if magic ≠ extentMagic then pure false else do
    let d ← Traced.getLE o eh 6 2
    if d ≠ depth then pure false else do
      let max ← Traced.getLE o eh 4 2
      if max = 0 then pure false else do
        let entries ← Traced.getLE o eh 2 2
        if max < entries then pure false
        else if csum then do
          Traced.touch o (extEntryAt max) 4
          extBlockCsumT csum o max
          pure true
        else pure true

/-- A reference to the buffer of a block is taken. -/
def extIncRef (b : ℕ) (refs : ℕ → ℕ) : ℕ → ℕ := Function.update refs b (refs b + 1)

/-- `ext4_block_set`: a reference to the buffer of a block is given back.  Where
    none is left `ext4_assert` does not return. -/
def extBlockSet (b : ℕ) (refs : ℕ → ℕ) : Option (ℕ → ℕ) :=
  if refs b = 0 then none else some (Function.update refs b (refs b - 1))

/-- `read_extent_tree_block`; `bh` is the block that the variable of this name
    holds before, and `refs` are the references to the buffers. -/
def readExtentTreeBlockT (b i bh : ℕ) (refs : ℕ → ℕ) :
    Traced ExtObj (Option (Option Mem × (ℕ → ℕ))) :=
  if lgBcnt ≤ b then
    -- `bh` is as before, and what it holds is released
    pure (if bh ≠ 0 then (extBlockSet bh refs).map (Prod.mk none) else some (none, refs))
  else
    match dev b with
    | none => pure (some (none, refs))
    | some m => do
      let ok ← extCheckT csum (.block b) m i
      pure (if ok then some (some m, extIncRef b refs)
        else if b ≠ 0 then (extBlockSet b (extIncRef b refs)).map (Prod.mk none)
        else some (none, extIncRef b refs))

/-- The loop of `ext4_ext_binsearch` and `ext4_ext_binsearch_idx`; `r` is the
    entry behind the last one that is left. -/
def extSearchT (o : ExtObj) (eh : Mem) (l r : ℕ) : Traced ExtObj ℕ :=
  if l < r then do
    let m := l + (r - 1 - l) / 2
    let firstBlock ← Traced.getLE o eh (extEntryAt m) 4
    if block < firstBlock then extSearchT o eh l m else extSearchT o eh (m + 1) r
  else pure (l - 1)
termination_by r - l

/-- What `ext4_find_extent` leaves: the nodes on the path, the block found when
    it succeeds, and the references to the buffers. -/
structure ExtFound where
  nodes : List (ℕ × Mem)
  pBlock : Option ℕ
  refs : ℕ → ℕ

/-- The walk of `ext4_find_extent` from a node at level `i`; `none` where an
    assertion stops it. -/
def extWalkT : (i : ℕ) → ExtObj → Mem → List (ℕ × Mem) → (ℕ → ℕ) →
    Traced ExtObj (Option ExtFound)
  | 0, o, eh, nodes, refs => do
    let entries ← Traced.getLE o eh 2 2
    if entries = 0 then pure (some ⟨nodes, some 0, refs⟩)
    else do
      let k ← extSearchT block o eh 1 entries
      let hi ← Traced.getLE o eh (extEntryAt k + 6) 2
      let lo ← Traced.getLE o eh (extEntryAt k + 8) 4
      pure (some ⟨nodes, some (lo + hi * 2 ^ 32), refs⟩)
  | i + 1, o, eh, nodes, refs => do
    let entries ← Traced.getLE o eh 2 2
    let k ← extSearchT block o eh 1 entries
    let lo ← Traced.getLE o eh (extEntryAt k + 4) 4
    let hi ← Traced.getLE o eh (extEntryAt k + 8) 2
    let b := lo + hi * 2 ^ 32
    match ← readExtentTreeBlockT csum lgBcnt dev b i o.lbId refs with
    | none => pure none
    | some (none, refs) => pure (some ⟨nodes, none, refs⟩)
    | some (some m, refs) => extWalkT i (.block b) m (nodes ++ [(b, m)]) refs

/-- `ext4_ext_drop_refs`: a node whose buffer is dirty gets its checksum, and
    each node is released. -/
def extDropRefsT (dirty : ℕ → Bool) : List (ℕ × Mem) → (ℕ → ℕ) →
    Traced ExtObj (Option (ℕ → ℕ))
  | [], refs => pure (some refs)
  | (b, m) :: nodes, refs =>
    if b = 0 then extDropRefsT dirty nodes refs
    else do
      let _ ← (if dirty b then extBlockCsumSetT csum (.block b) m else pure ())
      match extBlockSet b refs with
      | none => pure none
      | some refs => extDropRefsT dirty nodes refs

/-- `ext4_find_extent`, and the release of the path. -/
def extFindExtentT (dirty : ℕ → Bool) (refs : ℕ → ℕ) (root : Mem) :
    Traced ExtObj (Option ExtFound) := do
  let depth ← Traced.getLE .root root 6 2
  match ← extWalkT csum lgBcnt dev block depth .root root [] refs with
  | none => pure none
  | some found =>
    match ← extDropRefsT csum dirty found.nodes found.refs with
    | none => pure none
    | some refs => pure (some { found with refs := refs })

end Code

/-! ## What the nodes must be -/

/-- What `ext4_ext_check` accepts at a level. -/
structure ExtHeader.Accepted (h : ExtHeader) (level : ℕ) : Prop where
  magic : h.magic = extentMagic
  depth : h.depth = level
  max_ne : h.maxEntriesCount ≠ 0
  entries_le : h.entriesCount ≤ h.maxEntriesCount

/-- The block an index entry names. -/
def extChild (eh : Mem) (k : ℕ) : ℕ :=
  getLE eh (extEntryAt k + 4) 4 + getLE eh (extEntryAt k + 8) 2 * 2 ^ 32

/-- The nodes of a tree with their levels: the root, and what the entries of an
    index node lead to, where it can be read and is accepted.  An index node
    without entries is taken to have one. -/
inductive ExtNode (lgBcnt : ℕ) (dev : ℕ → Option Mem) (root : Mem) : ℕ → ExtObj → Mem → Prop
  | root : ExtNode lgBcnt dev root (extHeader root).depth .root root
  | child {i o eh k m} (h : ExtNode lgBcnt dev root (i + 1) o eh)
    (hk : k < max 1 (extHeader eh).entriesCount) (hlt : extChild eh k < lgBcnt)
    (hm : dev (extChild eh k) = some m) (ha : (extHeader m).Accepted i) :
    ExtNode lgBcnt dev root i (.block (extChild eh k)) m

/-- The entries of block `b` fit in it, and its checksum tail where that is
    accessed. -/
structure NodeFits (csum : Bool) (blockSize b : ℕ) (h : ExtHeader) : Prop where
  entries : extEntryAt h.entriesCount ≤ blockSize
  tail : csum = true ∨ b ≠ 0 → extEntryAt h.maxEntriesCount + 4 ≤ blockSize

/-- All nodes of a tree fit, and those in blocks lead to blocks of the device. -/
structure TreeFits (csum : Bool) (blockSize lgBcnt : ℕ) (dev : ℕ → Option Mem) (root : Mem) :
    Prop where
  few : (extHeader root).entriesCount ≤ 4
  node : ∀ level b m, ExtNode lgBcnt dev root level (.block b) m →
    NodeFits csum blockSize b (extHeader m)
  child : ∀ level b m k, ExtNode lgBcnt dev root (level + 1) (.block b) m → b ≠ 0 →
    k < max 1 (extHeader m).entriesCount → extChild m k < lgBcnt

/-- Two nodes that differ in the first blocks of their entries only. -/
def SameButKeys (m m' : Mem) : Prop := ∀ j, j < 12 ∨ 4 ≤ j % 12 → m' j = m j

/-- Two trees that differ in the first blocks of the entries only. -/
structure OtherKeys (root root' : Mem) (dev dev' : ℕ → Option Mem) : Prop where
  root : SameButKeys root root'
  dev : ∀ b, Option.Rel SameButKeys (dev b) (dev' b)

/-! ## One node -/

section Search

variable {block : ℕ} {o : ExtObj} {eh : Mem} {P : Access ExtObj → Prop}

/-- The entry found, where the entries up to it start at the block or before, and
    those behind it start later. -/
theorem extSearchT_at {k : ℕ} (hle : ∀ j ≤ k, getLE eh (extEntryAt j) 4 ≤ block)
    (hgt : ∀ j, k < j → block < getLE eh (extEntryAt j) 4) {l r : ℕ} (hl : l ≤ k + 1)
    (hr : k + 1 ≤ max l r) : (extSearchT block o eh l r).val = k := by
  induction l, r using extSearchT.induct with
  | case1 l r hlt m ihl ihr =>
    rw [extSearchT, if_pos hlt, Traced.bind_val, Traced.getLE_val]
    by_cases hm : m ≤ k
    · rw [if_neg (hle m hm).not_gt]
      exact ihr (by omega) (by omega)
    · rw [if_pos (hgt m (by omega))]
      exact ihl hl (by omega)
  | case2 l r hlt =>
    rw [extSearchT, if_neg hlt]
    simp only [Traced.pure_val]
    omega

end Search

/-- The entry a lookup uses. -/
def extFoundAt (block : ℕ) (o : ExtObj) (eh : Mem) : ℕ :=
  (extSearchT block o eh 1 (extHeader eh).entriesCount).val

theorem extCheckT_val {csum : Bool} {o : ExtObj} {m : Mem} {i : ℕ} :
    (extCheckT csum o m i).val = true ↔ (extHeader m).Accepted i := by
  have key : (extHeader m).Accepted i ↔ getLE m 0 2 = extentMagic ∧ getLE m 6 2 = i
      ∧ getLE m 4 2 ≠ 0 ∧ getLE m 2 2 ≤ getLE m 4 2 :=
    ⟨fun h => ⟨h.magic, h.depth, h.max_ne, h.entries_le⟩, fun ⟨h1, h2, h3, h4⟩ => ⟨h1, h2, h3, h4⟩⟩
  rw [key, extCheckT]
  simp only [Traced.bind_val, Traced.getLE_val]
  by_cases h1 : getLE m 0 2 = extentMagic
  · by_cases h2 : getLE m 6 2 = i
    · by_cases h3 : getLE m 4 2 = 0
      · simp [h1, h2, h3]
      · by_cases h4 : getLE m 4 2 < getLE m 2 2
        · simp [h1, h2, h3, h4]
        · cases csum <;> simp [h1, h2, h3, h4, Nat.not_lt.mp h4]
    · simp [h1, h2]
  · simp [h1]

section Node

variable {csum : Bool} {lgBcnt : ℕ} {dev : ℕ → Option Mem} {block : ℕ} {o : ExtObj} {eh m : Mem}
  {i b bh : ℕ} {nodes : List (ℕ × Mem)} {refs : ℕ → ℕ} {P : Access ExtObj → Prop}

theorem extBlockCsumT_all {max : ℕ} :
    (extBlockCsumT csum o max).All P ↔ (csum = true → P ⟨o, 0, extEntryAt max⟩) := by
  cases csum <;> simp [extBlockCsumT]

theorem extBlockCsumSetT_all :
    (extBlockCsumSetT csum o m).All P ↔ P ⟨o, 4, 2⟩
      ∧ (csum = true → P ⟨o, 0, extEntryAt (extHeader m).maxEntriesCount⟩)
      ∧ P ⟨o, extEntryAt (extHeader m).maxEntriesCount, 4⟩ := by
  simp [extBlockCsumSetT, extBlockCsumT_all, extHeader]

/-- A node that is accepted has the tail checked, and nothing else behind the
    header is accessed. -/
theorem extCheckT_all (h : (extHeader m).Accepted i) :
    (extCheckT csum o m i).All P ↔ (P ⟨o, 0, 2⟩ ∧ P ⟨o, 6, 2⟩ ∧ P ⟨o, 4, 2⟩ ∧ P ⟨o, 2, 2⟩)
      ∧ (csum = true → P ⟨o, extEntryAt (extHeader m).maxEntriesCount, 4⟩
          ∧ P ⟨o, 0, extEntryAt (extHeader m).maxEntriesCount⟩) := by
  have h1 : getLE m 0 2 = extentMagic := h.magic
  have h2 : getLE m 6 2 = i := h.depth
  have h3 : getLE m 4 2 ≠ 0 := h.max_ne
  have h4 : ¬getLE m 4 2 < getLE m 2 2 := h.entries_le.not_gt
  cases csum <;> simp [extCheckT, extBlockCsumT, h1, h2, h3, h4, extHeader, and_assoc]

theorem extWalkT_zero_all : (extWalkT csum lgBcnt dev block 0 o eh nodes refs).All P ↔
    P ⟨o, 2, 2⟩ ∧ ((extHeader eh).entriesCount ≠ 0 →
      (extSearchT block o eh 1 (extHeader eh).entriesCount).All P
        ∧ P ⟨o, extEntryAt (extFoundAt block o eh) + 6, 2⟩
        ∧ P ⟨o, extEntryAt (extFoundAt block o eh) + 8, 4⟩) := by
  rw [extWalkT]
  by_cases h0 : getLE eh 2 2 = 0
  · simp [h0, extHeader]
  · simp [h0, extHeader, extFoundAt]

theorem extWalkT_zero_val : ∃ p,
    (extWalkT csum lgBcnt dev block 0 o eh nodes refs).val = some ⟨nodes, p, refs⟩ := by
  rw [extWalkT, Traced.bind_val]
  split
  · exact ⟨_, rfl⟩
  · exact ⟨_, rfl⟩

theorem readExtentTreeBlockT_all : (readExtentTreeBlockT csum lgBcnt dev b i bh refs).All P ↔
    (b < lgBcnt → ∀ m, dev b = some m → (extCheckT csum (.block b) m i).All P) := by
  rw [readExtentTreeBlockT]
  by_cases hb : lgBcnt ≤ b
  · rw [if_pos hb]
    exact iff_of_true ((Traced.all_pure _).2 trivial) fun h => absurd h hb.not_gt
  · rw [if_neg hb]
    cases dev b with
    | none => simp
    | some m => simp [Nat.lt_of_not_le hb]

theorem readExtentTreeBlockT_behind (hb : lgBcnt ≤ b) :
    (readExtentTreeBlockT csum lgBcnt dev b i bh refs).val =
      if bh ≠ 0 then (extBlockSet bh refs).map (Prod.mk none) else some (none, refs) := by
  rw [readExtentTreeBlockT, if_pos hb]
  rfl

theorem readExtentTreeBlockT_accepted (hb : b < lgBcnt) (hm : dev b = some m)
    (ha : (extHeader m).Accepted i) :
    (readExtentTreeBlockT csum lgBcnt dev b i bh refs).val = some (some m, extIncRef b refs) := by
  rw [readExtentTreeBlockT, if_neg hb.not_ge, hm]
  exact if_pos (extCheckT_val.2 ha)

theorem extBlockSet_incRef (b : ℕ) (refs : ℕ → ℕ) :
    extBlockSet b (extIncRef b refs) = some refs := by
  rw [extBlockSet, extIncRef, Function.update_self, if_neg (Nat.succ_ne_zero _),
    Nat.add_sub_cancel, Function.update_idem, Function.update_eq_self]

/-- What is not accepted is released. -/
theorem readExtentTreeBlockT_not (hb : b < lgBcnt)
    (hn : ∀ m, dev b = some m → ¬ (extHeader m).Accepted i) : ∃ refs',
    (readExtentTreeBlockT csum lgBcnt dev b i bh refs).val = some (none, refs') ∧
      ∀ c ≠ 0, refs' c = refs c := by
  rw [readExtentTreeBlockT, if_neg hb.not_ge]
  cases hm : dev b with
  | none => exact ⟨refs, rfl, fun _ _ => rfl⟩
  | some m =>
    have hv : ¬ (extCheckT csum (.block b) m i).val = true := fun h => hn m hm (extCheckT_val.1 h)
    by_cases h0 : b = 0
    · refine ⟨extIncRef b refs, (if_neg hv).trans (if_neg (not_not.2 h0)), fun c hc => ?_⟩
      exact Function.update_of_ne (h0 ▸ hc) _ _
    · refine ⟨refs, (if_neg hv).trans ((if_pos h0).trans ?_), fun _ _ => rfl⟩
      rw [extBlockSet_incRef]
      rfl

/-- The walk behind the node that is read. -/
theorem extWalkT_succ_val : (extWalkT csum lgBcnt dev block (i + 1) o eh nodes refs).val =
    match (readExtentTreeBlockT csum lgBcnt dev (extChild eh (extFoundAt block o eh)) i o.lbId
      refs).val with
    | none => none
    | some (none, refs) => some ⟨nodes, none, refs⟩
    | some (some m, refs) =>
      (extWalkT csum lgBcnt dev block i (.block (extChild eh (extFoundAt block o eh))) m
        (nodes ++ [(extChild eh (extFoundAt block o eh), m)]) refs).val := by
  rw [extWalkT, Traced.bind_val, Traced.bind_val, Traced.bind_val, Traced.bind_val, Traced.bind_val]
  change Traced.val (match (readExtentTreeBlockT csum lgBcnt dev
      (extChild eh (extFoundAt block o eh)) i o.lbId refs).val with
    | none => pure none
    | some (none, refs) => pure (some ⟨nodes, none, refs⟩)
    | some (some m, refs) =>
      extWalkT csum lgBcnt dev block i (.block (extChild eh (extFoundAt block o eh))) m
        (nodes ++ [(extChild eh (extFoundAt block o eh), m)]) refs) = _
  rcases (readExtentTreeBlockT csum lgBcnt dev (extChild eh (extFoundAt block o eh)) i o.lbId
    refs).val with - | ⟨- | m, refs'⟩ <;> rfl

theorem extWalkT_succ_all : (extWalkT csum lgBcnt dev block (i + 1) o eh nodes refs).All P ↔
    (P ⟨o, 2, 2⟩ ∧ (extSearchT block o eh 1 (extHeader eh).entriesCount).All P
      ∧ P ⟨o, extEntryAt (extFoundAt block o eh) + 4, 4⟩
      ∧ P ⟨o, extEntryAt (extFoundAt block o eh) + 8, 2⟩)
    ∧ (extChild eh (extFoundAt block o eh) < lgBcnt →
      ∀ m, dev (extChild eh (extFoundAt block o eh)) = some m →
        (extCheckT csum (.block (extChild eh (extFoundAt block o eh))) m i).All P
        ∧ ((extHeader m).Accepted i →
          (extWalkT csum lgBcnt dev block i (.block (extChild eh (extFoundAt block o eh))) m
            (nodes ++ [(extChild eh (extFoundAt block o eh), m)])
            (extIncRef (extChild eh (extFoundAt block o eh)) refs)).All P)) := by
  rw [extWalkT, Traced.all_bind, Traced.all_bind, Traced.all_bind, Traced.all_bind,
    Traced.all_getLE, Traced.all_getLE, Traced.all_getLE, and_assoc, and_assoc, and_assoc]
  refine and_congr_right' (and_congr_right' (and_congr_right' (and_congr_right' ?_)))
  rw [Traced.all_bind]
  change (readExtentTreeBlockT csum lgBcnt dev (extChild eh (extFoundAt block o eh)) i o.lbId
      refs).All P ∧
    Traced.All P (match (readExtentTreeBlockT csum lgBcnt dev
      (extChild eh (extFoundAt block o eh)) i o.lbId refs).val with
    | none => pure none
    | some (none, refs) => pure (some ⟨nodes, none, refs⟩)
    | some (some m, refs) =>
      extWalkT csum lgBcnt dev block i (.block (extChild eh (extFoundAt block o eh))) m
        (nodes ++ [(extChild eh (extFoundAt block o eh), m)]) refs) ↔ _
  generalize extChild eh (extFoundAt block o eh) = b
  rw [readExtentTreeBlockT_all]
  by_cases hb : b < lgBcnt
  · by_cases hacc : ∃ m, dev b = some m ∧ (extHeader m).Accepted i
    · obtain ⟨m, hm, ha⟩ := hacc
      rw [readExtentTreeBlockT_accepted hb hm ha]
      simp [hb, hm, ha]
    · have hn : ∀ m, dev b = some m → ¬ (extHeader m).Accepted i := fun m hm ha => hacc ⟨m, hm, ha⟩
      obtain ⟨refs', hval, -⟩ := @readExtentTreeBlockT_not csum lgBcnt dev i b o.lbId refs hb hn
      rw [hval]
      simp only [hb, forall_const, Traced.all_pure, and_true]
      exact forall₂_congr fun m hm => (and_iff_left fun ha => absurd ha (hn m hm)).symm
  · rw [readExtentTreeBlockT_behind (Nat.le_of_not_lt hb)]
    refine iff_of_true ⟨fun h => absurd h hb, ?_⟩ fun h => absurd h hb
    by_cases h0 : o.lbId = 0
    · rw [if_neg (not_not.2 h0)]
      exact (Traced.all_pure _).2 trivial
    · rw [if_pos h0]
      rcases extBlockSet o.lbId refs with - | refs'
      · exact (Traced.all_pure _).2 trivial
      · exact (Traced.all_pure _).2 trivial

/-- The walk goes on at a child that is accepted. -/
theorem extWalkT_child (hb : extChild eh (extFoundAt block o eh) < lgBcnt)
    (hm : dev (extChild eh (extFoundAt block o eh)) = some m) (ha : (extHeader m).Accepted i) :
    (extWalkT csum lgBcnt dev block (i + 1) o eh nodes refs).val =
      (extWalkT csum lgBcnt dev block i (.block (extChild eh (extFoundAt block o eh))) m
        (nodes ++ [(extChild eh (extFoundAt block o eh), m)])
        (extIncRef (extChild eh (extFoundAt block o eh)) refs)).val := by
  rw [extWalkT_succ_val, readExtentTreeBlockT_accepted hb hm ha]

/-- A child behind the end of the device has its parent released. -/
theorem extWalkT_behind (hb : lgBcnt ≤ extChild eh (extFoundAt block o eh)) :
    (extWalkT csum lgBcnt dev block (i + 1) o eh nodes refs).val =
      if o.lbId ≠ 0 then (extBlockSet o.lbId refs).map (ExtFound.mk nodes none)
      else some ⟨nodes, none, refs⟩ := by
  rw [extWalkT_succ_val, readExtentTreeBlockT_behind hb]
  by_cases h0 : o.lbId = 0
  · rw [if_neg (not_not.2 h0), if_neg (not_not.2 h0)]
  · rw [if_pos h0, if_pos h0]
    rcases extBlockSet o.lbId refs with - | refs' <;> rfl

/-! ## The path and its release -/

/-- The references to the buffers: those held elsewhere, and one for each node
    on the path. -/
def RefsHeld (refs₀ : ℕ → ℕ) (nodes : List (ℕ × Mem)) (refs : ℕ → ℕ) : Prop :=
  ∀ b ≠ 0, refs b = refs₀ b + (nodes.map Prod.fst).count b

theorem RefsHeld.push {refs₀ : ℕ → ℕ} (h : RefsHeld refs₀ nodes refs) (b : ℕ) (m : Mem) :
    RefsHeld refs₀ (nodes ++ [(b, m)]) (extIncRef b refs) := by
  intro c hc
  rw [List.map_append, List.count_append, ← Nat.add_assoc, ← h c hc]
  by_cases hcb : c = b
  · rw [hcb, extIncRef, Function.update_self]
    simp
  · rw [extIncRef, Function.update_of_ne hcb]
    simp [Ne.symm hcb]

theorem RefsHeld.congr {refs₀ refs' : ℕ → ℕ} (h : RefsHeld refs₀ nodes refs)
    (hrefs : ∀ c ≠ 0, refs' c = refs c) : RefsHeld refs₀ nodes refs' :=
  fun c hc => (hrefs c hc).trans (h c hc)

theorem extDropRefsT_cons {dirty : ℕ → Bool} {m : Mem} (h0 : b ≠ 0) {refs' : ℕ → ℕ}
    (hset : extBlockSet b refs = some refs') :
    (extDropRefsT csum dirty ((b, m) :: nodes) refs).val =
        (extDropRefsT csum dirty nodes refs').val ∧
      ((extDropRefsT csum dirty ((b, m) :: nodes) refs).All P ↔
        (dirty b = true → (extBlockCsumSetT csum (.block b) m).All P) ∧
          (extDropRefsT csum dirty nodes refs').All P) := by
  rw [extDropRefsT, if_neg h0, Traced.bind_val, Traced.all_bind, hset]
  refine ⟨rfl, and_congr_left' ?_⟩
  by_cases hd : dirty b = true
  · rw [if_pos hd]
    exact ⟨fun h _ => h, fun h => h hd⟩
  · rw [if_neg hd]
    exact iff_of_true ((Traced.all_pure _).2 trivial) fun h => absurd h hd

/-- **The path is released** if it holds a reference to each of its nodes. -/
theorem extDropRefsT_ends_iff {dirty : ℕ → Bool} :
    (∃ r, (extDropRefsT csum dirty nodes refs).val = some r) ↔
      ∀ b ≠ 0, (nodes.map Prod.fst).count b ≤ refs b := by
  induction nodes generalizing refs with
  | nil => exact iff_of_true ⟨refs, rfl⟩ fun b _ => Nat.zero_le _
  | cons p nodes ih =>
    obtain ⟨b, m⟩ := p
    rw [List.map_cons]
    by_cases h0 : b = 0
    · rw [extDropRefsT, if_pos h0, ih]
      refine forall₂_congr fun c hc => ?_
      rw [List.count_cons_of_ne (h0 ▸ hc.symm)]
    by_cases hb : refs b = 0
    · have hset : extBlockSet b refs = none := if_pos hb
      rw [extDropRefsT, if_neg h0, Traced.bind_val, hset]
      refine iff_of_false nofun fun h => ?_
      have := h b h0
      rw [hb, List.count_cons_self] at this
      omega
    · have hset : extBlockSet b refs = some (Function.update refs b (refs b - 1)) := if_neg hb
      rw [(extDropRefsT_cons (P := fun _ => True) h0 hset).1, ih]
      refine forall₂_congr fun c hc => ?_
      by_cases hcb : c = b
      · rw [hcb, Function.update_self, List.count_cons_self]
        omega
      · rw [Function.update_of_ne hcb, List.count_cons_of_ne (Ne.symm hcb)]

/-- A release that does not stop comes by all nodes. -/
theorem mem_extDropRefsT {dirty : ℕ → Bool} {r : ℕ → ℕ}
    (hval : (extDropRefsT csum dirty nodes refs).val = some r)
    (hall : (extDropRefsT csum dirty nodes refs).All P) {p : ℕ × Mem} (hp : p ∈ nodes)
    (h0 : p.1 ≠ 0) (hd : dirty p.1 = true) : (extBlockCsumSetT csum (.block p.1) p.2).All P := by
  induction nodes generalizing refs with
  | nil => cases hp
  | cons q nodes ih =>
    obtain ⟨b, m⟩ := q
    by_cases hb0 : b = 0
    · rw [extDropRefsT, if_pos hb0] at hval hall
      rcases List.mem_cons.1 hp with rfl | hp
      · exact absurd hb0 h0
      · exact ih hval hall hp
    rcases hset : extBlockSet b refs with - | refs'
    · rw [extDropRefsT, if_neg hb0, Traced.bind_val, hset] at hval
      cases hval
    · obtain ⟨hv, ha⟩ := @extDropRefsT_cons csum b nodes refs P dirty m hb0 refs' hset
      rw [hv] at hval
      rw [ha] at hall
      rcases List.mem_cons.1 hp with rfl | hp
      · exact hall.1 hd
      · exact ih hval hall.2 hp

theorem mem_extWalkT {p : ℕ × Mem} (hp : p ∈ nodes) {found : ExtFound}
    (h : (extWalkT csum lgBcnt dev block i o eh nodes refs).val = some found) :
    p ∈ found.nodes := by
  induction i generalizing o eh nodes refs with
  | zero =>
    obtain ⟨_, hval⟩ := @extWalkT_zero_val csum lgBcnt dev block o eh nodes refs
    cases hval.symm.trans h
    exact hp
  | succ i ih =>
    rw [extWalkT_succ_val] at h
    rcases hv : (readExtentTreeBlockT csum lgBcnt dev (extChild eh (extFoundAt block o eh)) i o.lbId
      refs).val with - | ⟨- | m, refs'⟩ <;> rw [hv] at h
    · cases h
    · cases h
      exact hp
    · exact ih (List.mem_append_left _ hp) h

end Node


/-! ## Trees that fit -/

section Fit

variable {csum : Bool} {dev : ℕ → Option Mem} {block blockSize lgBcnt i : ℕ} {o : ExtObj}
  {root eh : Mem} {nodes : List (ℕ × Mem)} {refs refs₀ : ℕ → ℕ}

/-- Where a walk has come to: its path holds nodes of the tree, the last one
    among them, and a reference for each. -/
structure OnPath (lgBcnt : ℕ) (dev : ℕ → Option Mem) (root : Mem) (refs₀ : ℕ → ℕ)
    (nodes : List (ℕ × Mem)) (refs : ℕ → ℕ) : Prop where
  held : RefsHeld refs₀ nodes refs
  nodes : ∀ p ∈ nodes, ∃ level, ExtNode lgBcnt dev root level (.block p.1) p.2

theorem OnPath.push (h : OnPath lgBcnt dev root refs₀ nodes refs) {b : ℕ} {m : Mem}
    (hn : ExtNode lgBcnt dev root i (.block b) m) :
    OnPath lgBcnt dev root refs₀ (nodes ++ [(b, m)]) (extIncRef b refs) := by
  refine ⟨h.held.push b m, fun p hp => ?_⟩
  rcases List.mem_append.1 hp with hp | hp
  · exact h.nodes p hp
  · cases List.mem_singleton.1 hp
    exact ⟨i, hn⟩

end Fit

/-! ## Other first blocks -/

theorem SameButKeys.getLE {m m' : Mem} (h : SameButKeys m m') {a w : ℕ}
    (ha : ∀ j, a ≤ j → j < a + w → j < 12 ∨ 4 ≤ j % 12) : getLE m' a w = getLE m a w :=
  getLE_congr fun j h1 h2 => h j (ha j h1 h2)

theorem SameButKeys.header {m m' : Mem} (h : SameButKeys m m') : extHeader m' = extHeader m := by
  have hw : ∀ a, a + 2 ≤ 12 → Lib.getLE m' a 2 = Lib.getLE m a 2 := fun a ha =>
    h.getLE fun j _ hj => .inl (by omega)
  rw [extHeader, extHeader, hw 0 (by omega), hw 2 (by omega), hw 4 (by omega), hw 6 (by omega)]

theorem SameButKeys.child {m m' : Mem} (h : SameButKeys m m') (k : ℕ) :
    extChild m' k = extChild m k := by
  have hw : ∀ a w, 4 ≤ a → a + w ≤ 12 →
      Lib.getLE m' (extEntryAt k + a) w = Lib.getLE m (extEntryAt k + a) w := by
    intro a w ha hw
    refine h.getLE fun j h1 h2 => .inr ?_
    rw [extEntryAt] at h1 h2
    omega
  rw [extChild, extChild, hw 4 4 (by omega) (by omega), hw 8 2 (by omega) (by omega)]

section Other

variable {csum : Bool} {dev dev' : ℕ → Option Mem} {root root' m : Mem} {blockSize lgBcnt b : ℕ}

theorem OtherKeys.some (h : OtherKeys root root' dev dev') (hm : dev' b = .some m) :
    ∃ m₀, dev b = .some m₀ ∧ SameButKeys m₀ m := by
  have hb := h.dev b
  rw [hm] at hb
  generalize dev b = d at hb
  cases hb with
  | some hs => exact ⟨_, rfl, hs⟩

/-- The trees have the same shape. -/
theorem OtherKeys.node (h : OtherKeys root root' dev dev') {level : ℕ} {o : ExtObj}
    (hn : ExtNode lgBcnt dev' root' level o m) :
    ∃ m₀, ExtNode lgBcnt dev root level o m₀ ∧ SameButKeys m₀ m := by
  induction hn with
  | root => exact ⟨root, h.root.header ▸ .root, h.root⟩
  | @child i o eh k m _ hk hlt hm ha ih =>
    obtain ⟨eh₀, hn, hs⟩ := ih
    obtain ⟨m₀, hm₀, hs'⟩ := h.some hm
    rw [hs.header] at hk
    rw [hs.child] at hlt hm₀ ⊢
    rw [hs'.header] at ha
    exact ⟨m₀, hn.child hk hlt hm₀ ha, hs'⟩

theorem TreeFits.other (hfit : TreeFits csum blockSize lgBcnt dev root)
    (h : OtherKeys root root' dev dev') : TreeFits csum blockSize lgBcnt dev' root' where
  few := by
    rw [h.root.header]
    exact hfit.few
  node level b m hn := by
    obtain ⟨m₀, hn₀, hs⟩ := h.node hn
    rw [hs.header]
    exact hfit.node level b m₀ hn₀
  child level b m k hn hb hk := by
    obtain ⟨m₀, hn₀, hs⟩ := h.node hn
    rw [hs.header] at hk
    rw [hs.child]
    exact hfit.child level b m₀ k hn₀ hb hk

end Other

/-! ## Trees that do not fit -/

/-- A node whose entries up to the `k`-th start at 0, and those behind it at 1. -/
def rekey (k : ℕ) (m : Mem) : Mem := fun j =>
  if 12 ≤ j ∧ j % 12 < 4 then putLE (fun _ => 0) 0 4 (if j / 12 - 1 ≤ k then 0 else 1) (j % 12)
  else m j

theorem rekey_same (k : ℕ) (m : Mem) : SameButKeys m (rekey k m) :=
  fun j hj => if_neg (by omega)

theorem rekey_first (k : ℕ) (m : Mem) (j : ℕ) :
    getLE (rekey k m) (extEntryAt j) 4 = if j ≤ k then 0 else 1 := by
  have h : getLE (rekey k m) (extEntryAt j) 4 =
      getLE (putLE (fun _ => 0) 0 4 (if j ≤ k then 0 else 1)) 0 4 := by
    refine getLE_shift fun i hi => ?_
    have hmod : (extEntryAt j + i) % 12 = i := by
      rw [extEntryAt]
      omega
    have hdiv : (extEntryAt j + i) / 12 - 1 = j := by
      rw [extEntryAt]
      omega
    have hge : 12 ≤ extEntryAt j + i ∧ (extEntryAt j + i) % 12 < 4 := by
      rw [extEntryAt] at hmod ⊢
      omega
    rw [rekey, if_pos hge, hmod, hdiv, Nat.zero_add]
  rw [h, getLE_putLE]
  by_cases hj : j ≤ k
  · rw [if_pos hj]
    rfl
  · rw [if_neg hj]
    rfl

/-- In such a node the `k`-th entry is found. -/
theorem extFoundAt_rekey {k : ℕ} {m : Mem} (o : ExtObj)
    (hk : k < max 1 (extHeader m).entriesCount) :
    extFoundAt 0 o (rekey k m) = k := by
  rw [extFoundAt, (rekey_same k m).header]
  refine extSearchT_at (fun j hj => ?_) (fun j hj => ?_) (Nat.le_add_left _ _) hk
  · rw [rekey_first, if_pos hj]
  · rw [rekey_first, if_neg hj.not_ge]
    exact Nat.zero_lt_one

/-- The device where the nodes of level `i` lead to their `path i`-th child. -/
def rekeyDev (path : ℕ → ℕ) (dev : ℕ → Option Mem) (b : ℕ) : Option Mem :=
  (dev b).map fun m => rekey (path (extHeader m).depth) m

theorem rekeyDev_other (path : ℕ → ℕ) (dev : ℕ → Option Mem) (root : Mem) (k : ℕ) :
    OtherKeys root (rekey k root) dev (rekeyDev path dev) := by
  refine ⟨rekey_same k root, fun b => ?_⟩
  rw [rekeyDev]
  cases dev b with
  | none => exact .none
  | some m => exact .some (rekey_same _ m)

section Reach

variable {csum : Bool} {dev : ℕ → Option Mem} {root m : Mem} {lgBcnt level : ℕ} {o : ExtObj}

/-- The lookup of block 0 along `path`. -/
def pathWalkT (csum : Bool) (lgBcnt : ℕ) (dev : ℕ → Option Mem) (root : Mem) (path : ℕ → ℕ) :
    Traced ExtObj (Option ExtFound) :=
  extWalkT csum lgBcnt (rekeyDev path dev) 0 (extHeader root).depth .root
    (rekey (path (extHeader root).depth) root) [] fun _ => 0

/-- Where a lookup along `path` is at a node: what is to come is what is left of
    it, the node has been checked, and is on the path. -/
structure LevelVisit (csum : Bool) (lgBcnt : ℕ) (dev : ℕ → Option Mem) (root : Mem) (path : ℕ → ℕ)
    (level : ℕ) (o : ExtObj) (m : Mem) (nodes : List (ℕ × Mem)) (refs : ℕ → ℕ) : Prop where
  val : (pathWalkT csum lgBcnt dev root path).val =
    (extWalkT csum lgBcnt (rekeyDev path dev) 0 level o (rekey (path level) m) nodes refs).val
  all : ∀ P, (pathWalkT csum lgBcnt dev root path).All P →
    (extWalkT csum lgBcnt (rekeyDev path dev) 0 level o (rekey (path level) m) nodes refs).All P
  check : ∀ P b, o = .block b → (pathWalkT csum lgBcnt dev root path).All P →
    (extCheckT csum o (rekey (path level) m) level).All P
  held : RefsHeld (fun _ => 0) nodes refs
  mem : ∀ b, o = .block b → (b, rekey (path level) m) ∈ nodes

/-- **Every node of the tree is visited** by a lookup, which can be told where
    to go from there. -/
theorem ExtNode.visits (csum : Bool) (h : ExtNode lgBcnt dev root level o m) :
    ∃ way : ℕ → ℕ, ∀ path, (∀ j, level < j → path j = way j) →
      ∃ nodes refs, LevelVisit csum lgBcnt dev root path level o m nodes refs := by
  induction h with
  | root =>
    refine ⟨fun _ => 0, fun path _ => ⟨[], fun _ => 0, ?_⟩⟩
    refine ⟨rfl, fun _ h => h, fun _ _ ho => ?_, fun _ _ => rfl, fun _ ho => ?_⟩
    · cases ho
    · cases ho
  | @child i o eh k m _ hk hlt hm ha ih =>
    obtain ⟨way, hway⟩ := ih
    refine ⟨Function.update way (i + 1) k, fun path hpath => ?_⟩
    have hat : path (i + 1) = k := by
      rw [hpath (i + 1) (Nat.lt_succ_self i), Function.update_self]
    obtain ⟨nodes, refs, hv⟩ := hway path fun j hj => by
      rw [hpath j (by omega), Function.update_of_ne (by omega)]
    obtain ⟨hval, hall, -, hheld, -⟩ := hv
    rw [hat] at hval hall
    have hfound : extFoundAt 0 o (rekey k eh) = k := extFoundAt_rekey o hk
    have hchild : extChild (rekey k eh) (extFoundAt 0 o (rekey k eh)) = extChild eh k := by
      rw [hfound, (rekey_same k eh).child]
    have hm' : rekeyDev path dev (extChild eh k) = some (rekey (path i) m) := by
      rw [rekeyDev, hm, Option.map_some, ha.depth]
    have ha' : (extHeader (rekey (path i) m)).Accepted i := by rwa [(rekey_same _ m).header]
    have hstep := @extWalkT_child csum lgBcnt (rekeyDev path dev) 0 o (rekey k eh) _ i nodes refs
      (by rwa [hchild]) (by rwa [hchild]) ha'
    rw [hchild] at hstep
    refine ⟨_, _, hval.trans hstep, fun P hP => ?_, fun P b ho hP => ?_, hheld.push _ _,
      fun b ho => ?_⟩
    · have h := extWalkT_succ_all.1 (hall P hP)
      rw [hchild] at h
      exact (h.2 hlt _ hm').2 ha'
    · have h := extWalkT_succ_all.1 (hall P hP)
      rw [hchild] at h
      exact (h.2 hlt _ hm').1
    · cases ho
      exact List.mem_append_right _ (List.mem_singleton_self _)

end Reach

/-! ## The trees that keep the lookup inside -/

/-- The entries of the path array that `ext4_find_extent` allocates. -/
def extPathSize (root : Mem) : ℕ := (extHeader root).depth + 1 + 1

/-- **A lookup stays inside**: it accesses the nodes only, ends, and the nodes
    it comes by fit in the path array. -/
structure LookupInside (csum : Bool) (blockSize lgBcnt : ℕ) (dev : ℕ → Option Mem) (root : Mem)
    (block : ℕ) (dirty : ℕ → Bool) (refs : ℕ → ℕ) : Prop where
  inside : (extFindExtentT csum lgBcnt dev block dirty refs root).All
    (Access.Inside (ExtObj.size blockSize))
  ends : ∃ found, (extFindExtentT csum lgBcnt dev block dirty refs root).val = some found ∧
    found.nodes.length < extPathSize root

section Exact

variable {csum : Bool} {dev : ℕ → Option Mem} {lgBcnt level blockSize : ℕ} {root m : Mem}
  {o : ExtObj} {nodes : List (ℕ × Mem)} {refs : ℕ → ℕ} {path : ℕ → ℕ}

/-- A block size is a power of two, so an entry that starts in a block ends in
    it, with room for the checksum. -/
theorem blockSize_mod (log : ℕ) : 1024 * 2 ^ log % 12 = 4 ∨ 1024 * 2 ^ log % 12 = 8 := by
  induction log with
  | zero => exact .inl rfl
  | succ log ih =>
    rw [Nat.pow_succ]
    omega

theorem blockSize_pos (log : ℕ) : 1024 ≤ 1024 * 2 ^ log :=
  Nat.le_mul_of_pos_right _ (Nat.two_pow_pos log)

/-- What the walk along a path accesses, and the release behind it. -/
theorem LookupInside.walk {depth : ℕ} (hd : (extHeader root).depth = depth)
    (h : LookupInside csum blockSize lgBcnt (rekeyDev path dev) (rekey (path depth) root) 0
      (fun _ => true) fun _ => 0) :
    (pathWalkT csum lgBcnt dev root path).All (Access.Inside (ExtObj.size blockSize)) ∧
      ∃ found r, (pathWalkT csum lgBcnt dev root path).val = some found ∧
        (extDropRefsT csum (fun _ => true) found.nodes found.refs).val = some r ∧
        (extDropRefsT csum (fun _ => true) found.nodes found.refs).All
          (Access.Inside (ExtObj.size blockSize)) := by
  subst hd
  obtain ⟨hall, found, hval, -⟩ := h
  have hdepth : getLE (rekey (path (extHeader root).depth) root) 6 2 = (extHeader root).depth :=
    congrArg ExtHeader.depth (rekey_same _ root).header
  rw [extFindExtentT, Traced.all_bind, Traced.all_bind, Traced.getLE_val, hdepth] at hall
  rw [extFindExtentT, Traced.bind_val, Traced.bind_val, Traced.getLE_val, hdepth] at hval
  obtain ⟨-, hwalk, hrest⟩ := hall
  refine ⟨hwalk, ?_⟩
  change (match (pathWalkT csum lgBcnt dev root path).val with
    | none => pure none
    | some found => _ : Traced ExtObj (Option ExtFound)).All _ at hrest
  change (match (pathWalkT csum lgBcnt dev root path).val with
    | none => pure none
    | some found => _ : Traced ExtObj (Option ExtFound)).val = _ at hval
  rcases hw : (pathWalkT csum lgBcnt dev root path).val with - | walked <;> rw [hw] at hrest hval
  · cases hval
  dsimp only at hrest hval
  rw [Traced.all_bind] at hrest
  rw [Traced.bind_val] at hval
  rcases hdrop : (extDropRefsT csum (fun _ => true) walked.nodes walked.refs).val with - | r
  · rw [hdrop] at hval
    cases hval
  · exact ⟨walked, r, rfl, hdrop, hrest.1⟩

/-- A lookup that stays inside, whatever the first blocks of the entries. -/
def LookupsInside (csum : Bool) (blockSize lgBcnt : ℕ) (dev : ℕ → Option Mem) (root : Mem) : Prop :=
  ∀ root' dev', OtherKeys root root' dev dev' → ∀ block dirty refs,
    LookupInside csum blockSize lgBcnt dev' root' block dirty refs

/-- The last entry of a node that a lookup reaches is read. -/
theorem extWalkT_last (he : (extHeader m).entriesCount ≠ 0)
    (hk : path level = (extHeader m).entriesCount - 1)
    (h : (extWalkT csum lgBcnt (rekeyDev path dev) 0 level o (rekey (path level) m) nodes refs).All
      (Access.Inside (ExtObj.size blockSize))) :
    12 * (extHeader m).entriesCount + 10 ≤ o.size blockSize := by
  have hfound : extFoundAt 0 o (rekey (path level) m) = path level :=
    extFoundAt_rekey o (by omega)
  have hsame := (rekey_same (path level) m).header
  cases level with
  | zero =>
    rw [extWalkT_zero_all, hfound, hsame] at h
    have h1 := (h.2 he).2.2
    simp only [Access.Inside, extEntryAt] at h1
    omega
  | succ level =>
    rw [extWalkT_succ_all, hfound] at h
    have h1 := h.1.2.2.2
    simp only [Access.Inside, extEntryAt] at h1
    omega

/-- A node is visited by a lookup that then takes a given entry. -/
theorem LookupsInside.visits (h : LookupsInside csum blockSize lgBcnt dev root)
    (hn : ExtNode lgBcnt dev root level o m) (k : ℕ) :
    ∃ path nodes refs, path level = k ∧ LevelVisit csum lgBcnt dev root path level o m nodes refs ∧
      (pathWalkT csum lgBcnt dev root path).All (Access.Inside (ExtObj.size blockSize)) ∧
      ∃ found r, (pathWalkT csum lgBcnt dev root path).val = some found ∧
        (extDropRefsT csum (fun _ => true) found.nodes found.refs).val = some r ∧
        (extDropRefsT csum (fun _ => true) found.nodes found.refs).All
          (Access.Inside (ExtObj.size blockSize)) := by
  obtain ⟨way, hway⟩ := hn.visits csum
  obtain ⟨nodes, refs, hv⟩ := hway (Function.update way level k) fun j hj =>
    Function.update_of_ne (by omega) _ _
  have hwalk := LookupInside.walk rfl (h _ _
    (rekeyDev_other (Function.update way level k) dev root _) 0 (fun _ => true) fun _ => 0)
  exact ⟨_, nodes, refs, Function.update_self _ _ _, hv, hwalk⟩

theorem LookupsInside.few (h : LookupsInside csum blockSize lgBcnt dev root) :
    (extHeader root).entriesCount ≤ 4 := by
  by_contra hgt
  obtain ⟨path, nodes, refs, hk, hv, hall, -⟩ := h.visits .root ((extHeader root).entriesCount - 1)
  have hle := extWalkT_last (by omega) hk (hv.all _ hall)
  simp only [ExtObj.size] at hle
  omega

theorem LookupsInside.node {log b : ℕ} (h : LookupsInside csum (1024 * 2 ^ log) lgBcnt dev root)
    (hn : ExtNode lgBcnt dev root level (.block b) m) :
    NodeFits csum (1024 * 2 ^ log) b (extHeader m) := by
  have hpos := blockSize_pos log
  have hmod := blockSize_mod log
  obtain ⟨path, nodes, refs, hk, hv, hall, found, r, hval, hdrop, hdropAll⟩ :=
    h.visits hn ((extHeader m).entriesCount - 1)
  have ha : (extHeader m).Accepted level := by
    cases hn with
    | child _ _ _ _ ha => exact ha
  have hsame := (rekey_same (path level) m).header
  refine ⟨?_, fun hor => ?_⟩
  · by_cases h0 : (extHeader m).entriesCount = 0
    · rw [h0, extEntryAt]
      omega
    · have hle := extWalkT_last h0 hk (hv.all _ hall)
      simp only [ExtObj.size] at hle
      rw [extEntryAt]
      omega
  · rcases hor with hcs | hb
    · have hcheck := hv.check _ b rfl hall
      rw [extCheckT_all (by rwa [hsame]), hsame] at hcheck
      exact (hcheck.2 hcs).1
    · rw [hv.val] at hval
      have hset := mem_extDropRefsT hdrop hdropAll (mem_extWalkT (hv.mem b rfl) hval) hb rfl
      rw [extBlockCsumSetT_all, hsame] at hset
      exact hset.2.2

/-- A child behind the end of the device has its parent released twice. -/
theorem LookupsInside.child {b k : ℕ} (h : LookupsInside csum blockSize lgBcnt dev root)
    (hn : ExtNode lgBcnt dev root (level + 1) (.block b) m) (hb : b ≠ 0)
    (hk : k < max 1 (extHeader m).entriesCount) : extChild m k < lgBcnt := by
  by_contra hge
  obtain ⟨path, nodes, refs, rfl, hv, -, found, r, hval, hdrop, -⟩ := h.visits hn k
  have hfound : extFoundAt 0 (.block b) (rekey (path (level + 1)) m) = path (level + 1) :=
    extFoundAt_rekey _ hk
  have hbehind : lgBcnt ≤ extChild (rekey (path (level + 1)) m)
      (extFoundAt 0 (.block b) (rekey (path (level + 1)) m)) := by
    rw [hfound, (rekey_same _ m).child]
    exact Nat.le_of_not_lt hge
  have hcount : 0 < (nodes.map Prod.fst).count b :=
    List.count_pos_iff.2 (List.mem_map_of_mem (f := Prod.fst) (hv.mem b rfl))
  have hrefs : refs b = 0 + (nodes.map Prod.fst).count b := hv.held b hb
  have hset : extBlockSet b refs = some (Function.update refs b (refs b - 1)) :=
    if_neg (by omega)
  rw [hv.val, extWalkT_behind hbehind, if_pos (show (ExtObj.block b).lbId ≠ 0 from hb)] at hval
  change (extBlockSet b refs).map _ = _ at hval
  rw [hset] at hval
  cases hval
  have hle : (nodes.map Prod.fst).count b ≤ Function.update refs b (refs b - 1) b :=
    extDropRefsT_ends_iff.1 ⟨r, hdrop⟩ b hb
  rw [Function.update_self] at hle
  omega

end Exact

end Lwext4
