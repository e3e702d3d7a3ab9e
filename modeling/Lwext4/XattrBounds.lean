/-
  The bytes that the extended attribute code reads.

  The two areas are bytes here: the space behind the extra fields of an inode,
  and a block.  The checks, the search, `ext4_xattr_get` and `ext4_xattr_list`
  log what they read.  The check of an entry reads its fields before it has seen
  that the entry ends inside the area; and in the inode it counts the offsets of
  values from the header, while they are read from behind it.

  Main result: `xattr_inside_iff`.
-/
import Lwext4.Xattr
import Lwext4.Lib.Traced

namespace Lwext4

open Lib

namespace Xattr

/-- What is read: the inode, and its block of attributes. -/
inductive XObj where
  | inode
  | block
  deriving DecidableEq

/-- An area of attributes: where the checks count offsets from, where values
    are read from, the first entry and the end. -/
structure Region where
  obj : XObj
  mem : Mem
  base : ℕ
  values : ℕ
  first : ℕ
  hi : ℕ

namespace Region

variable (R : Region)

/-- The first four bytes of an entry, which are zero behind the last one. -/
def mark (p : ℕ) : ℕ := getLE R.mem p 4

/-- The fields of the entry at `p`. -/
def nameLen (p : ℕ) : ℕ := getLE R.mem p 1

def valueOffs (p : ℕ) : ℕ := getLE R.mem (p + 2) 2

def valueSize (p : ℕ) : ℕ := getLE R.mem (p + 8) 4

/-- `EXT4_XATTR_NEXT`. -/
def next (p : ℕ) : ℕ := p + xattrLen (R.nameLen p)

theorem lt_next (p : ℕ) : p + 16 + R.nameLen p ≤ R.next p := by
  unfold next xattrLen
  omega

/-! ## The code -/

/-- The loop of `ext4_xattr_is_block_valid` and `ext4_xattr_is_ibody_valid`, and
    the comparison behind it. -/
def entriesValidT (p minOffs : ℕ) : Traced XObj Bool := do
  let mark ← Traced.getLE R.obj R.mem p 4
  if mark = 0 then pure (decide (p + 4 ≤ R.base + minOffs))
  else do
    let size ← Traced.getLE R.obj R.mem (p + 8) 4
    let offs ← Traced.getLE R.obj R.mem (p + 2) 2
    if size = 0 ∧ offs ≠ 0 then pure false
    else if R.hi < R.base + offs + size then pure false
    else do
      Traced.touch R.obj p 1
      if R.hi < R.next p + 4 then pure false
      else entriesValidT (R.next p) (if size ≠ 0 ∧ offs < minOffs then offs else minOffs)
termination_by R.hi - p
decreasing_by
  have := R.lt_next p
  omega

/-- `ext4_xattr_find_entry`: the place of the entry.  The outer `none` is a
    search that has not come to an end. -/
def findEntryT (nameIndex : ℕ) (name : List Byte) : (fuel p : ℕ) →
    Traced XObj (Option (Option ℕ))
  | 0, _ => pure none
  | fuel + 1, p => do
    let mark ← Traced.getLE R.obj R.mem p 4
    if mark = 0 then pure (some none)
    else do
      let nameLen ← Traced.getLE R.obj R.mem p 1
      if nameLen ≠ name.length then findEntryT nameIndex name fuel (R.next p)
      else do
        let index ← Traced.getLE R.obj R.mem (p + 1) 1
        if index ≠ nameIndex then findEntryT nameIndex name fuel (R.next p)
        else do
          let bytes ← Traced.read R.obj R.mem (p + 16) nameLen
          if bytes ≠ name then findEntryT nameIndex name fuel (R.next p)
          else do
            -- `value_len` and `value` of the caller
            let size ← Traced.getLE R.obj R.mem (p + 8) 4
            if size = 0 then pure (some (some p))
            else do
              Traced.touch R.obj (p + 2) 2
              pure (some (some p))

/-- A loop of `ext4_xattr_list`: the entries listed, and the lengths added to
    `buf_len`.  Without a list only the lengths are read. -/
def listEntriesT (withList : Bool) : (fuel p : ℕ) →
    Traced XObj (Option (List (ℕ × List Byte) × ℕ))
  | 0, _ => pure none
  | fuel + 1, p => do
    let mark ← Traced.getLE R.obj R.mem p 4
    if mark = 0 then pure (some ([], 0))
    else do
      let nameLen ← Traced.getLE R.obj R.mem p 1
      let listed ← (if withList then do
          let index ← Traced.getLE R.obj R.mem (p + 1) 1
          let name ← Traced.read R.obj R.mem (p + 16) nameLen
          pure [(index, name)]
        else pure [])
      let rest ← listEntriesT withList fuel (R.next p)
      pure (rest.map fun (names, len) => (listed ++ names, Inode.listEntrySize + nameLen + 1 + len))

/-- What `ext4_xattr_get` copies of an entry, and `value_len`. -/
def copyOutT (p bufLen : ℕ) : Traced XObj (List Byte × ℕ) := do
  let size ← Traced.getLE R.obj R.mem (p + 8) 4
  let offs ← Traced.getLE R.obj R.mem (p + 2) 2
  let bytes ← Traced.read R.obj R.mem (R.values + offs) (min bufLen size)
  pure (bytes, size)

end Region

/-- An inode and its block of attributes, as bytes; no block where `file_acl` is
    0, and an error where the block cannot be read. -/
structure RawInode where
  inodeSize : ℕ
  inode : Mem
  blockSize : ℕ
  block : Option (Except Errno Mem)
  block_size_ge : 1024 ≤ blockSize

/-- `EXT4_XATTR_MAGIC`. -/
def xattrMagic : ℕ := 0xEA020000

namespace RawInode

variable (v : RawInode)

/-- `ext4_inode_get_extra_isize`. -/
def extraIsize : ℕ := if 128 < v.inodeSize then getLE v.inode 128 2 else 0

/-- `EXT4_XATTR_IHDR`, as an offset in the inode. -/
def ihdr : ℕ := 128 + v.extraIsize

/-- The area in the inode. -/
def ibody : Region := ⟨.inode, v.inode, v.ihdr, v.ihdr + 4, v.ihdr + 4, v.inodeSize⟩

/-- The area in a block. -/
def blockRegion (m : Mem) : Region := ⟨.block, m, 0, 0, 32, v.blockSize⟩

/-- `ext4_xattr_is_ibody_valid`. -/
def isIbodyValidT : Traced XObj Bool := do
  let magic ← Traced.getLE .inode v.inode v.ihdr 4
  if magic ≠ xattrMagic then pure false
  else v.ibody.entriesValidT v.ibody.first (v.ibody.hi - v.ibody.base)

/-- `ext4_xattr_is_block_valid`. -/
def isBlockValidT (m : Mem) : Traced XObj Bool := do
  let magic ← Traced.getLE .block m 0 4
  if magic ≠ xattrMagic then pure false
  else do
    let blocks ← Traced.getLE .block m 8 4
    if blocks ≠ 1 then pure false
    else (v.blockRegion m).entriesValidT (v.blockRegion m).first (v.blockRegion m).hi

/-- `ext4_xattr_ibody_find_entry`. -/
def ibodyFindEntryT (nameIndex : ℕ) (name : List Byte) :
    Traced XObj (Option (Except Errno (Option ℕ))) :=
  if v.extraIsize = 0 then pure (some (.ok none))
  else do
    let valid ← v.isIbodyValidT
    if !valid then pure (some (.error Errno.EIO))
    else do
      let found ← v.ibody.findEntryT nameIndex name v.ibody.hi v.ibody.first
      pure (found.map .ok)

/-- `ext4_xattr_block_find_entry`. -/
def blockFindEntryT (m : Mem) (nameIndex : ℕ) (name : List Byte) :
    Traced XObj (Option (Except Errno (Option ℕ))) := do
  let valid ← v.isBlockValidT m
  if !valid then pure (some (.error Errno.EIO))
  else do
    let found ← (v.blockRegion m).findEntryT nameIndex name (v.blockRegion m).hi
      (v.blockRegion m).first
    pure (found.map .ok)

/-- `ext4_xattr_get`. -/
def getT (nameIndex : ℕ) (name : List Byte) (bufLen : ℕ) :
    Traced XObj (Option (Except Errno (List Byte × ℕ))) := do
  match ← v.ibodyFindEntryT nameIndex name with
  | none => pure none
  | some (.error e) => pure (some (.error e))
  | some (.ok (some p)) => do
    let r ← v.ibody.copyOutT p bufLen
    pure (some (.ok r))
  | some (.ok none) =>
    match v.block with
    | none => pure (some (.error .ENODATA))
    | some (.error e) => pure (some (.error e))
    | some (.ok m) => do
      match ← v.blockFindEntryT m nameIndex name with
      | none => pure none
      | some (.error e) => pure (some (.error e))
      | some (.ok none) => pure (some (.error .ENODATA))
      | some (.ok (some p)) => do
        let r ← (v.blockRegion m).copyOutT p bufLen
        pure (some (.ok r))

/-- The part of `ext4_xattr_list` for the inode. -/
def listIbodyT (withList : Bool) : Traced XObj (Option (List (ℕ × List Byte) × ℕ)) :=
  if v.extraIsize = 0 then pure (some ([], 0))
  else do
    let valid ← v.isIbodyValidT
    if !valid then pure (some ([], 0))
    else v.ibody.listEntriesT withList v.ibody.hi v.ibody.first

/-- The part of `ext4_xattr_list` for the block. -/
def listBlockT (withList : Bool) :
    Traced XObj (Option (Except Errno (List (ℕ × List Byte) × ℕ))) :=
  match v.block with
  | none => pure (some (.ok ([], 0)))
  | some (.error e) => pure (some (.error e))
  | some (.ok m) => do
    let valid ← v.isBlockValidT m
    if !valid then pure (some (.error Errno.EIO))
    else do
      let listed ← (v.blockRegion m).listEntriesT withList (v.blockRegion m).hi
        (v.blockRegion m).first
      pure (listed.map .ok)

/-- `ext4_xattr_list`: the entries listed, and `list_len`. -/
def listT (withList : Bool) : Traced XObj (Option (Except Errno (List (ℕ × List Byte) × ℕ))) := do
  let ibody ← v.listIbodyT withList
  let block ← v.listBlockT withList
  pure (ibody.bind fun (names, len) => block.map fun r =>
    r.map fun (names', len') => (names ++ names', len + len'))

end RawInode

namespace Region

variable {R : Region} {p q r lo minOffs fuel nameIndex : ℕ} {name : List Byte} {ps : List ℕ}
  {P : Access XObj → Prop}

/-! ## The table -/

/-- The entry at `p` passes the check. -/
structure Accepts (R : Region) (p : ℕ) : Prop where
  mark : R.mark p ≠ 0
  empty : R.valueSize p = 0 → R.valueOffs p = 0
  value : R.base + R.valueOffs p + R.valueSize p ≤ R.hi
  next : R.next p + 4 ≤ R.hi

/-- The check comes from `p` to `q`. -/
inductive Reaches (R : Region) : ℕ → ℕ → Prop
  | refl (p : ℕ) : Reaches R p p
  | head {p q : ℕ} : R.Accepts p → Reaches R (R.next p) q → Reaches R p q

/-- The entries of the table at `p` are at the places `ps`, and its end mark is
    at `q`. -/
inductive Table (R : Region) : ℕ → List ℕ → ℕ → Prop
  | nil {p : ℕ} : R.mark p = 0 → Table R p [] p
  | cons {p q : ℕ} {ps : List ℕ} : R.Accepts p → Table R (R.next p) ps q → Table R p (p :: ps) q

theorem Table.mem_of_reaches (h : R.Table p ps q) (hr : R.Reaches p r) (hm : R.mark r ≠ 0) :
    r ∈ ps := by
  induction h with
  | nil h0 =>
    cases hr with
    | refl => exact absurd h0 hm
    | head ha _ => exact absurd h0 ha.mark
  | cons _ _ ih =>
    cases hr with
    | refl => exact List.mem_cons_self
    | head _ hr => exact List.mem_cons_of_mem _ (ih hr)

theorem Table.reaches (h : R.Table p ps q) (hr : r ∈ ps) : R.Reaches p r ∧ R.Accepts r := by
  induction h with
  | nil => cases hr
  | cons ha _ ih =>
    rcases List.mem_cons.1 hr with rfl | hr
    · exact ⟨.refl _, ha⟩
    · exact ⟨.head ha (ih hr).1, (ih hr).2⟩

theorem Reaches.le (h : R.Reaches p q) : p ≤ q := by
  induction h with
  | refl => exact le_rfl
  | @head p q _ _ ih =>
    have := R.lt_next p
    omega

/-- The table has room for its entries. -/
theorem Table.length_le (h : R.Table p ps q) : p + 16 * ps.length ≤ q := by
  induction h with
  | nil => exact le_rfl
  | @cons p q ps _ _ ih =>
    have := R.lt_next p
    rw [List.length_cons]
    omega

theorem Table.next_le (h : R.Table p ps q) (hr : r ∈ ps) : R.next r ≤ q := by
  induction h with
  | nil => cases hr
  | cons _ ht ih =>
    rcases List.mem_cons.1 hr with rfl | hr
    · have := ht.length_le
      omega
    · exact ih hr

/-- The end mark is inside the area. -/
theorem Table.end_le (h : R.Table p ps q) (hp : p + 4 ≤ R.hi) : q + 4 ≤ R.hi := by
  induction h with
  | nil => exact hp
  | cons ha _ ih => exact ih ha.next

/-- What the check accepts: a table that ends in the area, with no value before
    its end. -/
structure Accepted (R : Region) (ps : List ℕ) (q : ℕ) : Prop where
  table : R.Table R.first ps q
  end_le : q + 4 ≤ R.hi
  clear : ∀ p ∈ ps, R.valueSize p ≠ 0 → q + 4 ≤ R.base + R.valueOffs p

/-- The entries with their names lie in the area before the end mark, and the
    values in the area behind it. -/
def Lies (R : Region) : Prop := ∃ ps q, R.Table R.first ps q ∧ q + 4 ≤ R.hi ∧
  ∀ p ∈ ps, p + 16 + R.nameLen p ≤ q ∧ (R.valueSize p ≠ 0 →
    q + 4 ≤ R.values + R.valueOffs p ∧ R.values + R.valueOffs p + R.valueSize p ≤ R.hi)

/-- Reads of the area from `lo` on. -/
def Covers (R : Region) (lo : ℕ) (P : Access XObj → Prop) : Prop :=
  ∀ {off len : ℕ}, lo ≤ off → off + len ≤ R.hi → P ⟨R.obj, off, len⟩

/-! ## The check -/

/-- What the check reads of an entry, and when it goes on. -/
theorem entriesValidT_all : (R.entriesValidT p minOffs).All P ↔
    P ⟨R.obj, p, 4⟩ ∧ (R.mark p ≠ 0 → P ⟨R.obj, p + 8, 4⟩ ∧ P ⟨R.obj, p + 2, 2⟩ ∧
      ((R.valueSize p = 0 → R.valueOffs p = 0) →
        R.base + R.valueOffs p + R.valueSize p ≤ R.hi → P ⟨R.obj, p, 1⟩ ∧
          (R.next p + 4 ≤ R.hi → (R.entriesValidT (R.next p)
            (if R.valueSize p ≠ 0 ∧ R.valueOffs p < minOffs then R.valueOffs p
              else minOffs)).All P))) := by
  rw [entriesValidT, Traced.all_bind, Traced.all_getLE, Traced.getLE_val,
    show getLE R.mem p 4 = R.mark p from rfl]
  refine and_congr_right fun _ => ?_
  by_cases hm : R.mark p = 0
  · rw [if_pos hm, Traced.all_pure]
    exact iff_of_true trivial fun h => absurd hm h
  · rw [if_neg hm, imp_iff_right hm, Traced.all_bind, Traced.all_bind, Traced.all_getLE,
      Traced.all_getLE, Traced.getLE_val, Traced.getLE_val,
      show getLE R.mem (p + 8) 4 = R.valueSize p from rfl,
      show getLE R.mem (p + 2) 2 = R.valueOffs p from rfl]
    refine and_congr_right fun _ => and_congr_right fun _ => ?_
    by_cases h0 : R.valueSize p = 0 ∧ R.valueOffs p ≠ 0
    · rw [if_pos h0, Traced.all_pure]
      exact iff_of_true trivial fun h => absurd (h h0.1) h0.2
    · rw [if_neg h0, imp_iff_right (by tauto)]
      by_cases hv : R.hi < R.base + R.valueOffs p + R.valueSize p
      · rw [if_pos hv, Traced.all_pure]
        exact iff_of_true trivial fun h => absurd hv (Nat.not_lt.2 h)
      · rw [if_neg hv, imp_iff_right (Nat.le_of_not_lt hv), Traced.all_bind, Traced.all_touch]
        refine and_congr_right fun _ => ?_
        by_cases hn : R.hi < R.next p + 4
        · rw [if_pos hn, Traced.all_pure]
          exact iff_of_true trivial fun h => absurd hn (Nat.not_lt.2 h)
        · rw [if_neg hn, imp_iff_right (Nat.le_of_not_lt hn)]

/-- **The check reads inside the area** if every entry it comes to begins 12
    bytes before the end or earlier. -/
theorem entriesValidT_inside (hP : R.Covers lo P) (hlo : lo ≤ p) (h4 : p + 4 ≤ R.hi)
    (h : ∀ r, R.Reaches p r → R.mark r ≠ 0 → r + 12 ≤ R.hi) :
    (R.entriesValidT p minOffs).All P := by
  induction hk : R.hi - p using Nat.strong_induction_on generalizing p minOffs with
  | _ k ih =>
    rw [entriesValidT_all]
    refine ⟨hP hlo h4, fun hm => ?_⟩
    have h12 := h p (.refl p) hm
    refine ⟨hP (by omega) (by omega), hP (by omega) (by omega), fun hempty hvalue =>
      ⟨hP (by omega) (by omega), fun hnext => ?_⟩⟩
    have hlt := R.lt_next p
    exact ih (R.hi - R.next p) (by omega) (by omega) hnext
      (fun r hr => h r (.head ⟨hm, hempty, hvalue, hnext⟩ hr)) rfl

/-- And only then. -/
theorem Reaches.inside (hr : R.Reaches p r)
    (h : (R.entriesValidT p minOffs).All P) :
    P ⟨R.obj, r, 4⟩ ∧ (R.mark r ≠ 0 → P ⟨R.obj, r + 8, 4⟩) := by
  induction hr generalizing minOffs with
  | refl p =>
    obtain ⟨h4, hm⟩ := entriesValidT_all.1 h
    exact ⟨h4, fun h0 => (hm h0).1⟩
  | head ha _ ih =>
    obtain ⟨-, hm⟩ := entriesValidT_all.1 h
    obtain ⟨-, -, hgo⟩ := hm ha.mark
    exact ih ((hgo ha.empty ha.value).2 ha.next)

/-- What the check accepts from an entry on. -/
theorem entriesValidT_val : (R.entriesValidT p minOffs).val = true ↔
    ∃ ps q, R.Table p ps q ∧ q + 4 ≤ R.base + minOffs ∧
      ∀ r ∈ ps, R.valueSize r ≠ 0 → q + 4 ≤ R.base + R.valueOffs r := by
  induction hk : R.hi - p using Nat.strong_induction_on generalizing p minOffs with
  | _ k ih =>
    rw [entriesValidT, Traced.bind_val, Traced.getLE_val,
      show getLE R.mem p 4 = R.mark p from rfl]
    by_cases hm : R.mark p = 0
    · rw [if_pos hm, Traced.pure_val, decide_eq_true_iff]
      refine ⟨fun h => ⟨[], p, .nil hm, h, by simp⟩, ?_⟩
      rintro ⟨ps, q, ht, hend, -⟩
      cases ht with
      | nil => exact hend
      | cons ha => exact absurd hm ha.mark
    rw [if_neg hm, Traced.bind_val, Traced.bind_val, Traced.getLE_val, Traced.getLE_val,
      show getLE R.mem (p + 8) 4 = R.valueSize p from rfl,
      show getLE R.mem (p + 2) 2 = R.valueOffs p from rfl]
    by_cases haccepts : R.Accepts p
    · have hlt := R.lt_next p
      have hnext := haccepts.next
      rw [if_neg fun h => h.2 (haccepts.empty h.1), if_neg (Nat.not_lt.2 haccepts.value),
        Traced.bind_val, if_neg (Nat.not_lt.2 haccepts.next),
        ih (R.hi - R.next p) (by omega) rfl]
      constructor
      · rintro ⟨ps, q, ht, hend, hvals⟩
        refine ⟨p :: ps, q, .cons haccepts ht, ?_, List.forall_mem_cons.2 ⟨fun hne => ?_, hvals⟩⟩
        · split_ifs at hend with hmin
          · exact hend.trans (Nat.add_le_add_left hmin.2.le _)
          · exact hend
        · split_ifs at hend with hmin
          · exact hend
          · have : minOffs ≤ R.valueOffs p := Nat.le_of_not_lt fun hlt => hmin ⟨hne, hlt⟩
            omega
      · rintro ⟨ps, q, ht, hend, hvals⟩
        cases ht with
        | nil h0 => exact absurd h0 hm
        | @cons _ _ ps _ ht =>
          obtain ⟨hval, hvals⟩ := List.forall_mem_cons.1 hvals
          refine ⟨ps, q, ht, ?_, hvals⟩
          split_ifs with hmin
          · exact hval hmin.1
          · exact hend
    · refine iff_of_false (fun h => ?_) ?_
      · split_ifs at h with h0 hv hn
        all_goals
          exact haccepts ⟨hm, fun hs => by_contra fun ho => h0 ⟨hs, ho⟩, Nat.not_lt.1 hv,
            Nat.not_lt.1 hn⟩
      · rintro ⟨ps, q, ht, -⟩
        cases ht with
        | nil h0 => exact hm h0
        | cons ha => exact haccepts ha

/-- **What the check accepts**. -/
theorem entriesValidT_val_first (hfirst : R.base ≤ R.first) :
    (R.entriesValidT R.first (R.hi - R.base)).val = true ↔ ∃ ps q, R.Accepted ps q := by
  rw [entriesValidT_val]
  refine exists_congr fun ps => exists_congr fun q => ⟨?_, fun h => ⟨h.table, ?_, h.clear⟩⟩
  · rintro ⟨ht, hend, hclear⟩
    have := ht.length_le
    exact ⟨ht, by omega, hclear⟩
  · have := h.end_le
    omega

/-! ## Behind the check -/

/-- The reads of an entry of the table. -/
theorem Accepts.inside (ha : R.Accepts p) (hP : R.Covers lo P) (hlo : lo ≤ p) (off len : ℕ)
    (h : off + len ≤ 16 + R.nameLen p) : P ⟨R.obj, p + off, len⟩ := by
  have hlt := R.lt_next p
  have hnext := ha.next
  exact hP (by omega) (by omega)

/-- **The search reads inside the area and comes to an end**. -/
theorem Table.find (h : R.Table p ps q) (hP : R.Covers lo P) (hlo : lo ≤ p) (hend : q + 4 ≤ R.hi)
    (hfuel : ps.length < fuel) : (R.findEntryT nameIndex name fuel p).All P ∧
      ∃ found, (R.findEntryT nameIndex name fuel p).val = some found ∧
        ∀ r, found = some r → r ∈ ps := by
  induction h generalizing fuel with
  | @nil p hm =>
    obtain ⟨fuel, rfl⟩ := Nat.exists_eq_succ_of_ne_zero (Nat.ne_of_gt hfuel)
    have hmark : getLE R.mem p 4 = 0 := hm
    rw [findEntryT]
    simp only [Traced.all_bind, Traced.all_getLE, Traced.getLE_val, Traced.bind_val, hmark, if_true,
      Traced.all_pure, Traced.pure_val]
    exact ⟨⟨hP hlo hend, trivial⟩, none, rfl, by simp⟩
  | @cons p q ps ha ht ih =>
    obtain ⟨fuel, rfl⟩ := Nat.exists_eq_succ_of_ne_zero (Nat.ne_of_gt (Nat.zero_lt_of_lt hfuel))
    have hlt := R.lt_next p
    have hmark : getLE R.mem p 4 ≠ 0 := ha.mark
    have hin := ha.inside hP hlo
    have hnext := @ih fuel (by omega) hend (Nat.lt_of_succ_lt_succ hfuel)
    -- the rest of the table
    have hgo : (R.findEntryT nameIndex name fuel (R.next p)).All P ∧
        ∃ found, (R.findEntryT nameIndex name fuel (R.next p)).val = some found ∧
          ∀ r, found = some r → r ∈ p :: ps := by
      obtain ⟨hall, found, hval, hmem⟩ := hnext
      exact ⟨hall, found, hval, fun r hr => List.mem_cons_of_mem _ (hmem r hr)⟩
    have h4 := hin 0 4 (by omega)
    have h1 := hin 0 1 (by omega)
    rw [Nat.add_zero] at h4 h1
    rw [findEntryT]
    simp only [Traced.all_bind, Traced.all_getLE, Traced.getLE_val, Traced.bind_val, hmark,
      if_false]
    have hi1 := hin 1 1 (by omega)
    have hn : P ⟨R.obj, p + 16, getLE R.mem p 1⟩ := hin 16 _ le_rfl
    by_cases hlen : getLE R.mem p 1 = name.length
    · rw [hlen] at hn
      by_cases hindex : getLE R.mem (p + 1) 1 = nameIndex
      · by_cases hname : R.mem.read (p + 16) name.length = name
        · by_cases hsize : getLE R.mem (p + 8) 4 = 0
          · simp only [ne_eq, hlen, hindex, hname, hsize, not_true, if_false, if_true,
              Traced.all_bind, Traced.all_getLE, Traced.all_read, Traced.read_val, Traced.getLE_val,
              Traced.bind_val, Traced.all_pure, Traced.pure_val]
            exact ⟨⟨h4, h1, hi1, hn, hin 8 4 (by omega), trivial⟩, some p, rfl, by simp⟩
          · simp only [ne_eq, hlen, hindex, hname, hsize, not_true, if_false, Traced.all_bind,
              Traced.all_getLE, Traced.all_read, Traced.all_touch, Traced.read_val,
              Traced.getLE_val, Traced.bind_val, Traced.all_pure, Traced.pure_val]
            exact ⟨⟨h4, h1, hi1, hn, hin 8 4 (by omega), hin 2 2 (by omega), trivial⟩, some p, rfl,
              by simp⟩
        · simp only [ne_eq, hlen, hindex, hname, not_true, not_false_iff, if_false, if_true,
            Traced.all_bind, Traced.all_getLE, Traced.all_read, Traced.read_val, Traced.getLE_val,
            Traced.bind_val]
          exact ⟨⟨h4, h1, hi1, hn, hgo.1⟩, hgo.2⟩
      · simp only [ne_eq, hlen, hindex, not_true, not_false_iff, if_false, if_true,
          Traced.all_bind, Traced.all_getLE, Traced.getLE_val, Traced.bind_val]
        exact ⟨⟨h4, h1, hi1, hgo.1⟩, hgo.2⟩
    · simp only [ne_eq, hlen, not_false_iff, if_true]
      exact ⟨⟨h4, h1, hgo.1⟩, hgo.2⟩

/-- **So does the listing**. -/
theorem Table.list (h : R.Table p ps q) (hP : R.Covers lo P) (hlo : lo ≤ p) (hend : q + 4 ≤ R.hi)
    (hfuel : ps.length < fuel) (withList : Bool) :
    (R.listEntriesT withList fuel p).All P ∧
      (R.listEntriesT withList fuel p).val ≠ none := by
  induction h generalizing fuel with
  | @nil p hm =>
    obtain ⟨fuel, rfl⟩ := Nat.exists_eq_succ_of_ne_zero (Nat.ne_of_gt hfuel)
    have hmark : getLE R.mem p 4 = 0 := hm
    rw [listEntriesT]
    simp only [Traced.all_bind, Traced.all_getLE, Traced.getLE_val, Traced.bind_val, hmark, if_true,
      Traced.all_pure, Traced.pure_val]
    exact ⟨⟨hP hlo hend, trivial⟩, by simp⟩
  | @cons p q ps ha ht ih =>
    obtain ⟨fuel, rfl⟩ := Nat.exists_eq_succ_of_ne_zero (Nat.ne_of_gt (Nat.zero_lt_of_lt hfuel))
    have hlt := R.lt_next p
    have hmark : getLE R.mem p 4 ≠ 0 := ha.mark
    have hin := ha.inside hP hlo
    obtain ⟨hall, hval⟩ := @ih fuel (by omega) hend (Nat.lt_of_succ_lt_succ hfuel)
    have h4 := hin 0 4 (by omega)
    have h1 := hin 0 1 (by omega)
    rw [Nat.add_zero] at h4 h1
    rw [listEntriesT]
    simp only [Traced.all_bind, Traced.all_getLE, Traced.getLE_val, Traced.bind_val, hmark,
      if_false, Traced.all_pure, Traced.pure_val, and_true, Option.map_eq_none_iff, ne_eq]
    refine ⟨⟨h4, h1, ?_, hall⟩, hval⟩
    cases withList with
    | false => exact (Traced.all_pure _).2 trivial
    | true =>
      simp only [if_true, Traced.all_bind, Traced.all_getLE, Traced.all_read, Traced.all_pure,
        and_true, Traced.getLE_val]
      exact ⟨hin 1 1 (by omega), hin 16 _ le_rfl⟩

variable (R) in
theorem all_copyOutT (bufLen : ℕ) : (R.copyOutT p bufLen).All P ↔
    P ⟨R.obj, p + 8, 4⟩ ∧ P ⟨R.obj, p + 2, 2⟩ ∧
      P ⟨R.obj, R.values + R.valueOffs p, min bufLen (R.valueSize p)⟩ := by
  rw [copyOutT]
  simp only [Traced.all_bind, Traced.all_getLE, Traced.all_read, Traced.getLE_val, Traced.all_pure,
    and_true]
  rfl

namespace Accepted

variable (h : R.Accepted ps q)

include h

/-- The bytes of the area are enough steps. -/
theorem length_lt : ps.length < R.hi := by
  have := h.table.length_le
  have := h.end_le
  omega

theorem find (hP : R.Covers lo P) (hlo : lo ≤ R.first) (nameIndex : ℕ) (name : List Byte) :
    (R.findEntryT nameIndex name R.hi R.first).All P ∧
      ∃ found, (R.findEntryT nameIndex name R.hi R.first).val = some found ∧
        ∀ r, found = some r → r ∈ ps :=
  h.table.find hP hlo h.end_le h.length_lt

theorem list (hP : R.Covers lo P) (hlo : lo ≤ R.first) (withList : Bool) :
    (R.listEntriesT withList R.hi R.first).All P ∧
      (R.listEntriesT withList R.hi R.first).val ≠ none :=
  h.table.list hP hlo h.end_le h.length_lt withList

/-- **The value is read inside the area**, if values end in it. -/
theorem copyOut (hP : R.Covers lo P) (hvalues : R.values ≤ R.first)
    (hlo' : lo ≤ R.values) (hin : R.valueSize r ≠ 0 →
      R.values + R.valueOffs r + R.valueSize r ≤ R.hi) (hr : r ∈ ps) (bufLen : ℕ) :
    (R.copyOutT r bufLen).All P := by
  obtain ⟨hreach, ha⟩ := h.table.reaches hr
  have hle := hreach.le
  have hlt := R.lt_next r
  have hnext := ha.next
  refine (R.all_copyOutT bufLen).2 ⟨hP (by omega) (by omega), hP (by omega) (by omega),
    hP (by omega) ?_⟩
  by_cases h0 : R.valueSize r = 0
  · have := ha.empty h0
    omega
  · have := hin h0
    omega

/-- **Nothing overlaps**, if values end in the area. -/
theorem lies (hbase : R.base ≤ R.values) (hin : ∀ r ∈ ps, R.valueSize r ≠ 0 →
    R.values + R.valueOffs r + R.valueSize r ≤ R.hi) : R.Lies := by
  refine ⟨ps, q, h.table, h.end_le, fun r hr => ⟨?_, fun h0 => ⟨?_, hin r hr h0⟩⟩⟩
  · exact (R.lt_next r).trans (h.table.next_le hr)
  · have := h.clear r hr h0
    omega

end Accepted

end Region

namespace RawInode

variable {v : RawInode} {m : Mem}

/-! ## The two areas -/

/-- The access is inside the area it is made to. -/
def InArea (v : RawInode) (a : Access XObj) : Prop :=
  match a.obj with
  | .inode => a.In v.ihdr v.inodeSize
  | .block => a.In 0 v.blockSize

/-- **Every read of the checks, of the search, of `ext4_xattr_get` and of
    `ext4_xattr_list` is inside its area, all of them come to an end, and what
    a check accepts lies in its area.** -/
structure Inside (v : RawInode) : Prop where
  ibodyCheck : v.extraIsize ≠ 0 → v.isIbodyValidT.All v.InArea
  blockCheck : ∀ m, v.block = some (.ok m) → (v.isBlockValidT m).All v.InArea
  ibodyFind : ∀ nameIndex name, (v.ibodyFindEntryT nameIndex name).All v.InArea ∧
    (v.ibodyFindEntryT nameIndex name).val ≠ none
  blockFind : ∀ m nameIndex name, v.block = some (.ok m) →
    (v.blockFindEntryT m nameIndex name).All v.InArea ∧
      (v.blockFindEntryT m nameIndex name).val ≠ none
  get : ∀ nameIndex name bufLen, (v.getT nameIndex name bufLen).All v.InArea ∧
    (v.getT nameIndex name bufLen).val ≠ none
  list : ∀ withList, (v.listT withList).All v.InArea ∧ (v.listT withList).val ≠ none
  ibodyAccepted : v.extraIsize ≠ 0 → v.isIbodyValidT.val = true → v.ibody.Lies
  blockAccepted : ∀ m, v.block = some (.ok m) → (v.isBlockValidT m).val = true →
    (v.blockRegion m).Lies

/-- The header and the first entry are inside the inode; entries that are read
    begin 12 bytes before the end of their area or earlier; and no value of the
    inode ends in the last four bytes that the check allows it. -/
structure Fits (v : RawInode) : Prop where
  header : v.extraIsize ≠ 0 → v.ihdr + 4 ≤ v.inodeSize
  first : v.extraIsize ≠ 0 → getLE v.inode v.ihdr 4 = xattrMagic → v.ihdr + 8 ≤ v.inodeSize
  ibodyEntries : v.extraIsize ≠ 0 → getLE v.inode v.ihdr 4 = xattrMagic →
    ∀ p, v.ibody.Reaches v.ibody.first p → v.ibody.mark p ≠ 0 → p + 12 ≤ v.inodeSize
  ibodyValues : v.extraIsize ≠ 0 → getLE v.inode v.ihdr 4 = xattrMagic →
    ∀ ps q, v.ibody.Accepted ps q → ∀ p ∈ ps, v.ibody.valueSize p ≠ 0 →
      v.ihdr + 4 + v.ibody.valueOffs p + v.ibody.valueSize p ≤ v.inodeSize
  blockEntries : ∀ m, v.block = some (.ok m) → getLE m 0 4 = xattrMagic → getLE m 8 4 = 1 →
    ∀ p, (v.blockRegion m).Reaches (v.blockRegion m).first p → (v.blockRegion m).mark p ≠ 0 →
      p + 12 ≤ v.blockSize

theorem ibody_covers : v.ibody.Covers v.ihdr v.InArea := fun h h' => ⟨h, h'⟩

theorem block_covers : (v.blockRegion m).Covers 0 v.InArea := fun h h' => ⟨h, h'⟩

theorem ihdr_le_first : v.ihdr ≤ v.ibody.first := Nat.le_add_right _ _

theorem isIbodyValidT_all : v.isIbodyValidT.All v.InArea ↔ v.ihdr + 4 ≤ v.inodeSize ∧
    (getLE v.inode v.ihdr 4 = xattrMagic →
      (v.ibody.entriesValidT v.ibody.first (v.ibody.hi - v.ibody.base)).All v.InArea) := by
  rw [isIbodyValidT, Traced.all_bind, Traced.all_getLE, Traced.getLE_val]
  refine and_congr ⟨fun h => h.2, fun h => ⟨le_rfl, h⟩⟩ ?_
  by_cases hm : getLE v.inode v.ihdr 4 = xattrMagic
  · rw [if_neg (not_not.2 hm), imp_iff_right hm]
  · rw [if_pos hm, Traced.all_pure]
    exact iff_of_true trivial fun h => absurd h hm

theorem isIbodyValidT_val : v.isIbodyValidT.val = true ↔
    getLE v.inode v.ihdr 4 = xattrMagic ∧ ∃ ps q, v.ibody.Accepted ps q := by
  rw [isIbodyValidT, Traced.bind_val, Traced.getLE_val]
  by_cases hm : getLE v.inode v.ihdr 4 = xattrMagic
  · rw [if_neg (not_not.2 hm), and_iff_right hm]
    exact Region.entriesValidT_val_first ihdr_le_first
  · rw [if_pos hm]
    exact iff_of_false Bool.false_ne_true fun h => hm h.1

theorem isBlockValidT_all : (v.isBlockValidT m).All v.InArea ↔
    (getLE m 0 4 = xattrMagic → getLE m 8 4 = 1 → ((v.blockRegion m).entriesValidT
      (v.blockRegion m).first (v.blockRegion m).hi).All v.InArea) := by
  have hsize := v.block_size_ge
  rw [isBlockValidT, Traced.all_bind, Traced.all_getLE, Traced.getLE_val,
    and_iff_right (show v.InArea ⟨.block, 0, 4⟩ from ⟨le_rfl, by simp only; omega⟩)]
  by_cases hm : getLE m 0 4 = xattrMagic
  · rw [if_neg (not_not.2 hm), imp_iff_right hm, Traced.all_bind, Traced.all_getLE,
      Traced.getLE_val,
      and_iff_right (show v.InArea ⟨.block, 8, 4⟩ from ⟨Nat.zero_le _, by simp only; omega⟩)]
    by_cases hb : getLE m 8 4 = 1
    · rw [if_neg (not_not.2 hb), imp_iff_right hb]
    · rw [if_pos hb, Traced.all_pure]
      exact iff_of_true trivial fun h => absurd h hb
  · rw [if_pos hm, Traced.all_pure]
    exact iff_of_true trivial fun h => absurd h hm

theorem isBlockValidT_val : (v.isBlockValidT m).val = true ↔
    (getLE m 0 4 = xattrMagic ∧ getLE m 8 4 = 1) ∧ ∃ ps q, (v.blockRegion m).Accepted ps q := by
  rw [isBlockValidT, Traced.bind_val, Traced.getLE_val]
  by_cases hm : getLE m 0 4 = xattrMagic
  · rw [if_neg (not_not.2 hm), Traced.bind_val, Traced.getLE_val]
    by_cases hb : getLE m 8 4 = 1
    · rw [if_neg (not_not.2 hb), and_iff_right ⟨hm, hb⟩]
      exact Region.entriesValidT_val_first (Nat.zero_le _)
    · rw [if_pos hb]
      exact iff_of_false Bool.false_ne_true fun h => hb h.1.2
  · rw [if_pos hm]
    exact iff_of_false Bool.false_ne_true fun h => hm h.1.1

/-- The search and the listing of the inode, behind the check. -/
theorem Fits.ibody (hf : v.Fits) (he : v.extraIsize ≠ 0) : v.isIbodyValidT.All v.InArea ∧
    (v.isIbodyValidT.val = true → ∃ ps q, v.ibody.Accepted ps q ∧ ∀ p ∈ ps,
      v.ibody.valueSize p ≠ 0 →
        v.ibody.values + v.ibody.valueOffs p + v.ibody.valueSize p ≤ v.ibody.hi) := by
  refine ⟨isIbodyValidT_all.2 ⟨hf.header he, fun hm => ?_⟩, fun hv => ?_⟩
  · exact Region.entriesValidT_inside ibody_covers ihdr_le_first (hf.first he hm)
      (hf.ibodyEntries he hm)
  · obtain ⟨hm, ps, q, h⟩ := isIbodyValidT_val.1 hv
    exact ⟨ps, q, h, hf.ibodyValues he hm ps q h⟩

/-- The same for the block. -/
theorem Fits.block (hf : v.Fits) (hblock : v.block = some (.ok m)) :
    (v.isBlockValidT m).All v.InArea ∧ ((v.isBlockValidT m).val = true →
      ∃ ps q, (v.blockRegion m).Accepted ps q ∧ ∀ p ∈ ps, (v.blockRegion m).valueSize p ≠ 0 →
        (v.blockRegion m).values + (v.blockRegion m).valueOffs p + (v.blockRegion m).valueSize p ≤
          (v.blockRegion m).hi) := by
  have hsize := v.block_size_ge
  refine ⟨isBlockValidT_all.2 fun hm hb => ?_, fun hv => ?_⟩
  · refine Region.entriesValidT_inside block_covers (Nat.zero_le _) ?_
      (hf.blockEntries m hblock hm hb)
    exact (show 32 + 4 ≤ v.blockSize by omega)
  · obtain ⟨-, ps, q, h⟩ := isBlockValidT_val.1 hv
    exact ⟨ps, q, h, fun p hp _ => (h.table.reaches hp).2.value⟩

/-- **The search in the inode.** -/
theorem Fits.ibodyFindEntryT (hf : v.Fits) (nameIndex : ℕ) (name : List Byte) :
    (v.ibodyFindEntryT nameIndex name).All v.InArea ∧
      ∃ found, (v.ibodyFindEntryT nameIndex name).val = some found ∧
        ∀ p, found = .ok (some p) → ∀ bufLen, (v.ibody.copyOutT p bufLen).All v.InArea := by
  rw [RawInode.ibodyFindEntryT]
  by_cases he : v.extraIsize = 0
  · rw [if_pos he]
    exact ⟨(Traced.all_pure _).2 trivial, _, rfl, by simp⟩
  rw [if_neg he]
  obtain ⟨hall, haccepted⟩ := hf.ibody he
  cases hv : v.isIbodyValidT.val with
  | false =>
    simp only [Traced.all_bind, Traced.bind_val, hv, Bool.not_false, if_true, Traced.all_pure,
      Traced.pure_val, and_true]
    exact ⟨hall, _, rfl, by simp⟩
  | true =>
    obtain ⟨ps, q, ha, hvalues⟩ := haccepted hv
    obtain ⟨hfind, found, hval, hmem⟩ := ha.find ibody_covers ihdr_le_first nameIndex name
    simp only [Traced.all_bind, Traced.bind_val, hv, Bool.not_true, Bool.false_eq_true, if_false,
      Traced.all_pure, Traced.pure_val, and_true]
    refine ⟨⟨hall, hfind⟩, .ok found, by rw [hval, Option.map_some], fun p hp bufLen => ?_⟩
    have hp : p ∈ ps := hmem p (Except.ok.inj hp)
    exact ha.copyOut ibody_covers le_rfl (Nat.le_add_right _ _) (hvalues p hp) hp bufLen

/-- **The search in the block.** -/
theorem Fits.blockFindEntryT (hf : v.Fits) (hblock : v.block = some (.ok m)) (nameIndex : ℕ)
    (name : List Byte) : (v.blockFindEntryT m nameIndex name).All v.InArea ∧
      ∃ found, (v.blockFindEntryT m nameIndex name).val = some found ∧
        ∀ p, found = .ok (some p) →
          ∀ bufLen, ((v.blockRegion m).copyOutT p bufLen).All v.InArea := by
  rw [RawInode.blockFindEntryT]
  obtain ⟨hall, haccepted⟩ := hf.block hblock
  cases hv : (v.isBlockValidT m).val with
  | false =>
    simp only [Traced.all_bind, Traced.bind_val, hv, Bool.not_false, if_true, Traced.all_pure,
      Traced.pure_val, and_true]
    exact ⟨hall, _, rfl, by simp⟩
  | true =>
    obtain ⟨ps, q, ha, hvalues⟩ := haccepted hv
    obtain ⟨hfind, found, hval, hmem⟩ := ha.find block_covers (Nat.zero_le _) nameIndex name
    simp only [Traced.all_bind, Traced.bind_val, hv, Bool.not_true, Bool.false_eq_true, if_false,
      Traced.all_pure, Traced.pure_val, and_true]
    refine ⟨⟨hall, hfind⟩, .ok found, by rw [hval, Option.map_some], fun p hp bufLen => ?_⟩
    have hp : p ∈ ps := hmem p (Except.ok.inj hp)
    exact ha.copyOut block_covers (Nat.zero_le _) le_rfl (hvalues p hp) hp bufLen

theorem Fits.getT (hf : v.Fits) (nameIndex : ℕ) (name : List Byte) (bufLen : ℕ) :
    (v.getT nameIndex name bufLen).All v.InArea ∧ (v.getT nameIndex name bufLen).val ≠ none := by
  obtain ⟨hall, found, hval, hcopy⟩ := hf.ibodyFindEntryT nameIndex name
  rw [RawInode.getT, Traced.all_bind, Traced.bind_val, and_assoc, and_iff_right hall, hval]
  rcases found with e | _ | p
  · simp
  · cases hb : v.block with
    | none => simp
    | some b =>
      rcases b with e | m
      · simp
      obtain ⟨hall, found, hval, hcopy⟩ := hf.blockFindEntryT hb nameIndex name
      simp only [Traced.all_bind, Traced.bind_val, hval]
      rw [and_assoc, and_iff_right hall]
      rcases found with e | _ | p
      · simp
      · simp
      · simpa using hcopy p rfl bufLen
  · simpa using hcopy p rfl bufLen

theorem Fits.listIbodyT (hf : v.Fits) (withList : Bool) :
    (v.listIbodyT withList).All v.InArea ∧ (v.listIbodyT withList).val ≠ none := by
  rw [RawInode.listIbodyT]
  by_cases he : v.extraIsize = 0
  · rw [if_pos he]
    simp
  rw [if_neg he]
  obtain ⟨hall, haccepted⟩ := hf.ibody he
  rw [Traced.all_bind, Traced.bind_val, and_assoc, and_iff_right hall]
  cases hv : v.isIbodyValidT.val with
  | false => simp
  | true =>
    obtain ⟨ps, q, ha, -⟩ := haccepted hv
    simpa using ha.list ibody_covers ihdr_le_first withList

theorem Fits.listBlockT (hf : v.Fits) (withList : Bool) :
    (v.listBlockT withList).All v.InArea ∧ (v.listBlockT withList).val ≠ none := by
  rw [RawInode.listBlockT]
  cases hb : v.block with
  | none => simp
  | some b =>
    rcases b with e | m
    · simp
    obtain ⟨hall, haccepted⟩ := hf.block hb
    simp only
    rw [Traced.all_bind, Traced.bind_val, and_assoc, and_iff_right hall]
    cases hv : (v.isBlockValidT m).val with
    | false => simp
    | true =>
      obtain ⟨ps, q, ha, -⟩ := haccepted hv
      simpa using ha.list block_covers (Nat.zero_le _) withList

theorem Fits.listT (hf : v.Fits) (withList : Bool) :
    (v.listT withList).All v.InArea ∧ (v.listT withList).val ≠ none := by
  obtain ⟨hall, hval⟩ := hf.listIbodyT withList
  obtain ⟨hall', hval'⟩ := hf.listBlockT withList
  obtain ⟨r, hr⟩ := Option.ne_none_iff_exists'.1 hval
  obtain ⟨r', hr'⟩ := Option.ne_none_iff_exists'.1 hval'
  rw [RawInode.listT]
  simp [hall, hall', hr, hr']

/-- **Where the conditions hold, everything is inside.** -/
theorem Fits.inside (hf : v.Fits) : v.Inside where
  ibodyCheck he := (hf.ibody he).1
  blockCheck m hb := (hf.block hb).1
  ibodyFind nameIndex name := by
    obtain ⟨hall, found, hval, -⟩ := hf.ibodyFindEntryT nameIndex name
    exact ⟨hall, by simp [hval]⟩
  blockFind m nameIndex name hb := by
    obtain ⟨hall, found, hval, -⟩ := hf.blockFindEntryT hb nameIndex name
    exact ⟨hall, by simp [hval]⟩
  get := hf.getT
  list := hf.listT
  ibodyAccepted he hv := by
    obtain ⟨ps, q, ha, hvalues⟩ := (hf.ibody he).2 hv
    exact ha.lies (Nat.le_add_right _ _) hvalues
  blockAccepted m hb hv := by
    obtain ⟨ps, q, ha, hvalues⟩ := (hf.block hb).2 hv
    exact ha.lies le_rfl hvalues

/-- **And only there.** -/
theorem Inside.fits (hi : v.Inside) : v.Fits where
  header he := (isIbodyValidT_all.1 (hi.ibodyCheck he)).1
  first he hm := by
    have h := (isIbodyValidT_all.1 (hi.ibodyCheck he)).2 hm
    exact ((Region.Reaches.refl _).inside h).1.2
  ibodyEntries he hm p hp h0 := by
    have h := (isIbodyValidT_all.1 (hi.ibodyCheck he)).2 hm
    exact ((hp.inside h).2 h0).2
  ibodyValues he hm ps q ha p hp h0 := by
    -- the tables are one table
    obtain ⟨ps', q', ht, -, hlies⟩ := hi.ibodyAccepted he (isIbodyValidT_val.2 ⟨hm, ps, q, ha⟩)
    obtain ⟨hreach, haccepts⟩ := ha.table.reaches hp
    exact ((hlies p (ht.mem_of_reaches hreach haccepts.mark)).2 h0).2
  blockEntries m hb hm h1 p hp h0 := by
    have h := isBlockValidT_all.1 (hi.blockCheck m hb) hm h1
    exact ((hp.inside h).2 h0).2

end RawInode

/-- **Attributes are read inside their areas exactly if the header and the first
    entry are inside the inode, no entry that the checks come to begins in the
    last 11 bytes, and no value in the inode ends in the four bytes behind it.** -/
theorem xattr_inside_iff (v : RawInode) : v.Inside ↔ v.Fits :=
  ⟨RawInode.Inside.fits, RawInode.Fits.inside⟩

/-- Extra fields up to four bytes before the end of an inode, and the magic
    number there. -/
def lastHeader : RawInode where
  inodeSize := 256
  inode off := if off = 128 then 124 else if off = 254 then 0x02 else if off = 255 then 0xEA else 0
  blockSize := 1024
  block := none
  block_size_ge := le_rfl

/-- The first entry is read behind the end of the inode. -/
theorem xattr_inside_wrong : ¬ lastHeader.Inside := by
  intro h
  have hfirst := h.fits.first (by decide) (by decide)
  exact absurd hfirst (by decide)

end Xattr

end Lwext4
