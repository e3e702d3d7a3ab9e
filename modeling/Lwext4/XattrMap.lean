/-
  The attributes of an inode as one map.

  `lookup` is the map: the area in the inode first, and then the block.
  `Safe` is what an operation must find: the areas pass their checks, and it
  takes none of the ways through the source that use a wrong block or a wrong
  search context.

  Main results.
  * `reach_map`: in every run of safe operations the two areas behave as one
    map, with no key in both.
  * `exact_fill`: a value that fills the area in the inode exactly cannot be
    read back.
-/
import Lwext4.XattrArea

namespace Lwext4

open Lib

namespace Xattr

namespace Inode

variable {s s' : Inode} {a : Area} {k key : Key} {v value : List Byte} {alloc : Option Errno} {b : Block}

/-! ## The map -/

/-- The area in the inode, once it has been initialised. -/
def inodeArea (s : Inode) : Option Area := if s.extraIsize ≠ 0 ∧ s.ibody.header then some s.ibody else none

def blockArea (s : Inode) : Option Area := s.block.map Block.area

/-- The value that an area holds, if there is an area. -/
def areaLookup (a : Option Area) (k : Key) : Option (List Byte) := a.bind fun a => a.lookup k

/-- The value of an attribute. -/
def lookup (s : Inode) (k : Key) : Option (List Byte) :=
  (areaLookup s.inodeArea k).or (areaLookup s.blockArea k)

/-- An inode with well-formed areas, and no key in both. -/
structure Inv (s : Inode) : Prop where
  inodeSize : s.extraIsize ≠ 0 → 128 + s.extraIsize + 8 ≤ s.inodeSize
  blockSize : 36 ≤ s.blockSize
  inodeArea : ∀ a, s.inodeArea = some a → Wf s.ibodyLayout a
  blockArea : ∀ a, s.blockArea = some a → Wf s.blockLayout a
  once : ∀ k, areaLookup s.inodeArea k = none ∨ areaLookup s.blockArea k = none

/-! ## Operations -/

inductive Op where
  | set (key : Key) (value : List Byte) (alloc : Option Errno)
  | remove (key : Key) (alloc : Option Errno)
  | get (key : Key) (bufLen : ℕ)
  | list

/-- What an operation returns; the error is `none` for `EOK`. -/
inductive Out where
  | rc (e : Option Errno)
  | value (bytes : List Byte) (len : ℕ)
  | keys (keys : List Key) (len : ℕ)

def rcOf : Except Errno Unit → Out
  | .ok _ => .rc none
  | .error e => .rc (some e)

def step (s : Inode) : Op → Option (Out × Inode)
  | .set key value alloc => (s.set key value alloc).map fun (r, s') => (rcOf r, s')
  | .remove key alloc => (s.remove key alloc).map fun (r, s') => (rcOf r, s')
  | .get key bufLen =>
    match s.get key bufLen with
    | .ok (bytes, len) => some (.value bytes len, s)
    | .error e => some (.rc (some e), s)
  | .list =>
    match s.list with
    | .ok (keys, len) => some (.keys keys len, s)
    | .error e => some (.rc (some e), s)

/-- What the operation does to the map: a set or remove that fails leaves it,
    a get returns the value, or `ENODATA` where there is none, and a list has
    each key once. -/
def Correct (s : Inode) : Op → Out → Inode → Prop
  | .set key value _, .rc none, s' => s'.lookup = Function.update s.lookup key (some value)
  | .set .., .rc (some _), s' => s'.lookup = s.lookup
  | .remove key _, .rc none, s' => s.lookup key ≠ none ∧ s'.lookup = Function.update s.lookup key none
  | .remove key _, .rc (some e), s' => s'.lookup = s.lookup ∧ (s.lookup key = none → e = .ENODATA)
  | .get key bufLen, .value bytes len, s' =>
    s' = s ∧ ∃ v, s.lookup key = some v ∧ bytes = v.take bufLen ∧ len = v.length
  | .get key _, .rc e, s' => s' = s ∧ e = some .ENODATA ∧ s.lookup key = none
  | .list, .keys keys len, s' => s' = s ∧ keys.Nodup ∧ (∀ k, k ∈ keys ↔ s.lookup k ≠ none) ∧
    len = (keys.map fun key => listEntrySize + key.name.length + 1).sum
  | _, _, _ => False

/-! ## What an operation must find -/

/-- The block, if there is one, passes its check. -/
def blockReady (s : Inode) : Prop := ∀ b, s.block = some b → isValid s.blockLayout b.area = true

/-- The area in the inode, if there is one, passes its check. -/
def ibodyReady (s : Inode) : Prop := s.extraIsize = 0 ∨ s.ibodyValid = true

/-- The area as `ext4_xattr_set` finds it: initialised if it was not. -/
def fresh (s : Inode) : Inode := if s.ibody.header then s else s.ibodyInitialize

/-- The key is in the area in the inode. -/
def inInode (s : Inode) (key : Key) : Prop := s.extraIsize ≠ 0 ∧ findEntry key s.ibody.entries ≠ none

/-- The value fits into the area in the inode. -/
def inodeTakes (s : Inode) (key : Key) (value : List Byte) : Prop :=
  s.extraIsize ≠ 0 ∧ xattrSize value.length + xattrLen key.name.length ≤
    freeSpace s.ibodyLayout s.ibody (findEntry key s.ibody.entries)

/-- The value fits into the block, which is not shared. -/
def blockTakes (s : Inode) (b : Block) (key : Key) (value : List Byte) : Prop :=
  b.refcount ≤ 1 ∧ xattrSize value.length + xattrLen key.name.length ≤
    freeSpace s.blockLayout b.area (findEntry key b.area.entries)

/-- The value fits into a block, new or old. -/
def anyBlockTakes (s : Inode) (key : Key) (value : List Byte) (alloc : Option Errno) : Prop :=
  match s.block with
  | some b => s.blockTakes b key value
  | none => alloc = none ∧ s.blockTakes newBlock key value

/-- `ext4_xattr_set` goes a way that works: an entry in the inode stays there,
    or moves to a block that takes it; an entry that is not in the inode goes
    to the block of the inode, or is refused by both areas before the block is
    copied. -/
def SetWay (s : Inode) (key : Key) (value : List Byte) (alloc : Option Errno) : Prop :=
  (s.inInode key → s.inodeTakes key value ∨ s.anyBlockTakes key value alloc) ∧
    ∀ b, s.block = some b → ¬ s.inInode key → s.blockTakes b key value ∨
      ¬ s.inodeTakes key value ∧ (1 < b.refcount → findEntry key b.area.entries = none ∨ alloc ≠ none)

def Safe (s : Inode) : Op → Prop
  | .set key value alloc => key.name.length < 256 ∧ s.fresh.ibodyReady ∧ s.blockReady ∧
    s.fresh.SetWay key value alloc
  | .remove key _ => s.ibodyReady ∧ s.blockReady ∧ ¬ s.inInode key ∧ s.block ≠ none
  | .get .. => s.ibodyReady ∧ s.blockReady
  | .list => s.fresh.ibodyReady ∧ s.blockReady

/-! ## Reading -/

theorem isValid_header {L : Layout} (h : isValid L a = true) : a.header = true := by
  rw [isValid, Bool.and_eq_true, Bool.and_eq_true] at h
  exact h.1.1

theorem inodeArea_eq (h : s.inodeArea = some a) : a = s.ibody ∧ s.extraIsize ≠ 0 ∧ s.ibody.header = true := by
  rw [inodeArea] at h
  split_ifs at h with hc
  exact ⟨(Option.some_inj.1 h).symm, hc⟩

/-- Where the check passes, the search is the one in the area. -/
theorem ibodyReady.find (h : s.ibodyReady) (key : Key) : s.ibodyFindEntry key =
    .ok (match s.inodeArea with
      | some a => findEntry key a.entries
      | none => none) := by
  rw [ibodyFindEntry, inodeArea]
  by_cases h0 : s.extraIsize = 0
  · rw [if_pos h0, if_neg fun hc => hc.1 h0]
  · have hv := h.resolve_left h0
    rw [if_neg h0, if_pos hv, if_pos ⟨h0, isValid_header hv⟩]

theorem ibodyReady.lookup_none (h : s.ibodyReady) (hf : s.ibodyFindEntry key = .ok none) :
    areaLookup s.inodeArea key = none := by
  rw [h.find] at hf
  cases ha : s.inodeArea with
  | none => rfl
  | some a =>
    rw [ha] at hf
    exact lookup_eq_none.2 (Except.ok.inj hf)

theorem ibodyReady.lookup_some (h : s.ibodyReady) {pre post : List Entry} {here : Entry}
    (hf : s.ibodyFindEntry key = .ok (some (pre, here, post))) : s.inodeArea = some s.ibody ∧
      findEntry key s.ibody.entries = some (pre, here, post) := by
  rw [h.find] at hf
  cases ha : s.inodeArea with
  | none =>
    rw [ha] at hf
    exact absurd hf (by simp)
  | some a =>
    rw [ha] at hf
    obtain ⟨rfl, -⟩ := inodeArea_eq ha
    exact ⟨rfl, Except.ok.inj hf⟩

theorem areaLookup_of_find {pre post : List Entry} {here : Entry}
    (hf : findEntry key a.entries = some (pre, here, post)) :
    areaLookup (some a) key = some (a.mem.read here.valueOffs here.valueSize) := by
  show (findEntry key a.entries).map _ = _
  rw [hf]
  rfl

/-- Reading a part of a value. -/
theorem read_min (m : Mem) (offs n k : ℕ) : m.read offs (min n k) = (m.read offs k).take n := by
  induction k generalizing offs n with
  | zero => simp [Mem.read]
  | succ k ih =>
    cases n with
    | zero => simp [Mem.read]
    | succ n => rw [Nat.succ_min_succ, Mem.read, Mem.read, List.take_succ_cons, ih]

theorem copyOut_spec {here : Entry} {n : ℕ} :
    copyOut a here n = ((a.mem.read here.valueOffs here.valueSize).take n,
      (a.mem.read here.valueOffs here.valueSize).length) := by
  rw [copyOut, read_min, Mem.length_read]

theorem blockReady.find (h : s.blockReady) (hb : s.block = some b) (key : Key) :
    s.blockFindEntry key b.area = .ok (findEntry key b.area.entries) := if_pos (h b hb)

/-- **`ext4_xattr_get`** returns the value in the map. -/
theorem get_correct (hi : s.ibodyReady) (hb : s.blockReady) (bufLen : ℕ) :
    s.get key bufLen = match s.lookup key with
      | some v => .ok (v.take bufLen, v.length)
      | none => .error .ENODATA := by
  rw [get]
  cases hf : s.ibodyFindEntry key with
  | error e =>
    rw [hi.find] at hf
    exact absurd hf (by simp)
  | ok found =>
    cases found with
    | some found =>
      obtain ⟨pre, here, post⟩ := found
      obtain ⟨ha, hfind⟩ := hi.lookup_some hf
      rw [lookup, ha, areaLookup_of_find hfind, Option.some_or]
      exact congrArg Except.ok copyOut_spec
    | none =>
      rw [lookup, hi.lookup_none hf, Option.none_or, blockArea]
      cases hblock : s.block with
      | none => rfl
      | some b =>
        simp only
        rw [hb.find hblock]
        cases hfind : findEntry key b.area.entries with
        | none =>
          rw [Option.map_some, show areaLookup (some b.area) key = none from lookup_eq_none.2 hfind]
        | some found =>
          obtain ⟨pre, here, post⟩ := found
          rw [Option.map_some, areaLookup_of_find hfind]
          exact congrArg Except.ok copyOut_spec

/-- What `ext4_xattr_get` reads in the block. -/
def blockReads (s : Inode) (k : Key) : Except Errno (List Byte) :=
  match s.block with
  | none => .error .ENODATA
  | some b =>
    if isValid s.blockLayout b.area then
      match b.area.lookup k with
      | some v => .ok v
      | none => .error .ENODATA
    else .error Errno.EIO

/-- What it reads in both areas, whatever the length of the buffer. -/
def reads (s : Inode) (k : Key) : Except Errno (List Byte) :=
  if s.extraIsize = 0 ∨ s.ibodyValid = true then
    match areaLookup s.inodeArea k with
    | some v => .ok v
    | none => s.blockReads k
  else .error Errno.EIO

/-- What it returns where the attributes are `m`. -/
def answer (m : Key → Option (List Byte)) (k : Key) (bufLen : ℕ) : Except Errno (List Byte × ℕ) :=
  match m k with
  | some v => .ok (v.take bufLen, v.length)
  | none => .error .ENODATA

theorem get_block (bufLen : ℕ) : (match s.block with
    | none => .error .ENODATA
    | some b =>
      match s.blockFindEntry k b.area with
      | .error e => .error e
      | .ok none => .error .ENODATA
      | .ok (some (_, here, _)) => .ok (copyOut b.area here bufLen)) =
    (s.blockReads k).map fun v => (v.take bufLen, v.length) := by
  rw [blockReads]
  cases s.block with
  | none => rfl
  | some b =>
    simp only [blockFindEntry]
    by_cases hv : isValid s.blockLayout b.area = true
    · rw [if_pos hv, if_pos hv, Area.lookup]
      cases findEntry k b.area.entries with
      | none => rfl
      | some found => exact congrArg Except.ok copyOut_spec
    · rw [if_neg hv, if_neg hv]
      rfl

theorem reads_ready (hi : s.ibodyReady) (k : Key) : s.reads k = match areaLookup s.inodeArea k with
    | some v => .ok v
    | none => s.blockReads k := if_pos hi

theorem reads_unready (hi : ¬s.ibodyReady) (k : Key) : s.reads k = .error Errno.EIO := if_neg hi

theorem get_eq_reads (s : Inode) (k : Key) (bufLen : ℕ) :
    s.get k bufLen = (s.reads k).map fun v => (v.take bufLen, v.length) := by
  by_cases hi : s.ibodyReady
  · rw [reads_ready hi, get]
    cases hf : s.ibodyFindEntry k with
    | error e =>
      rw [hi.find] at hf
      cases hf
    | ok found =>
      cases found with
      | some found =>
        obtain ⟨pre, here, post⟩ := found
        obtain ⟨ha, hfind⟩ := hi.lookup_some hf
        rw [ha, areaLookup_of_find hfind]
        exact congrArg Except.ok copyOut_spec
      | none =>
        rw [hi.lookup_none hf]
        exact get_block bufLen
  · rw [reads_unready hi, get, ibodyFindEntry, if_neg fun h0 => hi (.inl h0), if_neg fun hv => hi (.inr hv)]
    rfl

/-- Two inodes answer alike if they read the same. -/
theorem get_eq_iff : (∀ k bufLen, s'.get k bufLen = s.get k bufLen) ↔ s'.reads = s.reads := by
  constructor
  · intro h
    funext k
    have hget := h k
    simp only [get_eq_reads] at hget
    cases hr : s.reads k with
    | error e =>
      have h0 := hget 0
      rw [hr] at h0
      cases hr' : s'.reads k with
      | error e' =>
        rw [hr'] at h0
        cases h0
        rfl
      | ok v =>
        rw [hr'] at h0
        cases h0
    | ok v =>
      have hlen := hget v.length
      rw [hr] at hlen
      cases hr' : s'.reads k with
      | error e' =>
        rw [hr'] at hlen
        cases hlen
      | ok w =>
        rw [hr'] at hlen
        obtain ⟨htake, hw⟩ := Prod.mk.inj (Except.ok.inj hlen)
        rw [← hw, List.take_length, hw, List.take_length] at htake
        rw [htake]
  · intro h k bufLen
    rw [get_eq_reads, get_eq_reads, h]

/-- A key that no entry has. -/
theorem exists_absent (es : List Entry) : ∃ k, findEntry k es = none := by
  refine ⟨⟨1, List.replicate ((es.map fun e => e.key.name.length).sum + 1) 0, Nat.one_pos⟩,
    findEntry_none.2 fun e he hk => ?_⟩
  have hle := List.single_le_sum (fun n _ => Nat.zero_le n) _
    (List.mem_map_of_mem (f := fun e : Entry => e.key.name.length) he)
  rw [hk, List.length_replicate] at hle
  exact absurd hle (Nat.not_succ_le_self _)

/-- **`ext4_xattr_get` returns the attributes `m`** exactly if the areas pass
    their checks and hold them. -/
theorem get_answer_iff {m : Key → Option (List Byte)} :
    (∀ k bufLen, s.get k bufLen = answer m k bufLen) ↔ s.ibodyReady ∧ s.blockReady ∧ s.lookup = m := by
  have hcorrect : s.ibodyReady → s.blockReady → ∀ k bufLen, s.get k bufLen = answer s.lookup k bufLen :=
    fun hi hb k bufLen => get_correct hi hb bufLen
  constructor
  · intro h
    -- no answer is `EIO`
    have hread : ∀ k, s.reads k ≠ .error Errno.EIO := by
      intro k hk
      have h0 := h k 0
      rw [get_eq_reads, hk, answer] at h0
      cases hm : m k with
      | none =>
        rw [hm] at h0
        cases h0
      | some v =>
        rw [hm] at h0
        cases h0
    have hi : s.ibodyReady := by
      by_contra hi
      exact hread ⟨1, [], Nat.one_pos⟩ (reads_unready hi _)
    have hb : s.blockReady := by
      intro b hblock
      by_contra hv
      obtain ⟨k, hk⟩ := exists_absent s.ibody.entries
      have hnone : areaLookup s.inodeArea k = none := by
        rw [inodeArea]
        split
        · exact lookup_eq_none.2 hk
        · rfl
      refine hread k ?_
      rw [reads_ready hi, hnone, blockReads, hblock]
      exact if_neg hv
    refine ⟨hi, hb, funext fun k => ?_⟩
    have hk := fun bufLen => (hcorrect hi hb k bufLen).symm.trans (h k bufLen)
    unfold answer at hk
    cases hl : s.lookup k with
    | none =>
      cases hm : m k with
      | none => rfl
      | some w =>
        have := hk 0
        rw [hl, hm] at this
        cases this
    | some v =>
      cases hm : m k with
      | none =>
        have := hk 0
        rw [hl, hm] at this
        cases this
      | some w =>
        have := hk v.length
        rw [hl, hm] at this
        obtain ⟨htake, hlen⟩ := Prod.mk.inj (Except.ok.inj this)
        rw [List.take_length, hlen, List.take_length] at htake
        rw [htake]
  · rintro ⟨hi, hb, rfl⟩
    exact hcorrect hi hb

theorem header_of_not_fresh (h : s.ibody.header = true) : s.fresh = s := if_pos h

theorem inodeArea_of_header (h : s.ibody.header = false) : s.inodeArea = none :=
  if_neg fun hc => absurd (h.symm.trans hc.2) (by simp)

theorem keys_of_area (a : Option Area) (k : Key) :
    k ∈ (match a with
      | some a => a.entries.map Entry.key
      | none => []) ↔ areaLookup a k ≠ none := by
  cases a with
  | none => simp [areaLookup]
  | some a => exact lookup_ne_none.symm

/-- **`ext4_xattr_list`** lists each key in the map once. -/
theorem list_correct (h : s.Inv) (hi : s.fresh.ibodyReady) (hb : s.blockReady) : ∃ keys : List Key,
    s.list = .ok (keys, (keys.map fun key => listEntrySize + key.name.length + 1).sum) ∧ keys.Nodup ∧
      ∀ k, k ∈ keys ↔ s.lookup k ≠ none := by
  have hinode : (if s.extraIsize ≠ 0 ∧ s.ibodyValid then s.ibody.entries.map Entry.key else []) =
      match s.inodeArea with
      | some a => a.entries.map Entry.key
      | none => [] := by
    cases hh : s.ibody.header with
    | false =>
      rw [inodeArea_of_header hh, if_neg]
      exact fun hc => absurd (hh.symm.trans (isValid_header hc.2)) (by simp)
    | true =>
      rw [header_of_not_fresh hh] at hi
      rw [inodeArea]
      by_cases h0 : s.extraIsize = 0
      · rw [if_neg fun hc => hc.1 h0, if_neg fun hc => hc.1 h0]
      · rw [if_pos ⟨h0, hi.resolve_left h0⟩, if_pos ⟨h0, hh⟩]
  obtain ⟨keys, hkeys, hkeys'⟩ : ∃ keys, s.listKeys = .ok keys ∧ keys = (match s.inodeArea with
      | some a => a.entries.map Entry.key
      | none => []) ++ (match s.blockArea with
      | some a => a.entries.map Entry.key
      | none => []) := by
    rw [listKeys, hinode, blockArea]
    cases hblock : s.block with
    | none => exact ⟨_, rfl, (List.append_nil _).symm⟩
    | some b => exact ⟨_, if_pos (hb b hblock), rfl⟩
  refine ⟨keys, by rw [list, hkeys]; rfl, ?_, fun k => ?_⟩
  · rw [hkeys', List.nodup_append']
    refine ⟨?_, ?_, fun k hk hk' => ?_⟩
    · cases ha : s.inodeArea with
      | none => exact List.nodup_nil
      | some a => exact (h.inodeArea a ha).nodup
    · cases ha : s.blockArea with
      | none => exact List.nodup_nil
      | some a => exact (h.blockArea a ha).nodup
    · rcases h.once k with h0 | h0
      · exact (keys_of_area _ k).1 hk h0
      · exact (keys_of_area _ k).1 hk' h0
  · rw [hkeys', List.mem_append, keys_of_area, keys_of_area, lookup]
    cases areaLookup s.inodeArea k <;> simp

/-! ## Changes -/

/-- The sizes of the areas do not change. -/
structure SameSizes (s s' : Inode) : Prop where
  blockSize : s'.blockSize = s.blockSize
  inodeSize : s'.inodeSize = s.inodeSize
  extraIsize : s'.extraIsize = s.extraIsize

/-- Both areas change at one key, and only one of them has it afterwards. -/
theorem Inv.update (h : s.Inv) (s' : Inode) (key : Key) {x y : Option (List Byte)} (hs : SameSizes s s')
    (hin : ∀ a, s'.inodeArea = some a → Wf s.ibodyLayout a)
    (hbl : ∀ a, s'.blockArea = some a → Wf s.blockLayout a)
    (hf : areaLookup s'.inodeArea = Function.update (areaLookup s.inodeArea) key x)
    (hg : areaLookup s'.blockArea = Function.update (areaLookup s.blockArea) key y)
    (hxy : x = none ∨ y = none) :
    s'.Inv ∧ s'.lookup = Function.update s.lookup key (x.or y) := by
  have hil : s'.ibodyLayout = s.ibodyLayout := by rw [ibodyLayout, ibodyLayout, hs.inodeSize, hs.extraIsize]
  have hbl' : s'.blockLayout = s.blockLayout := by rw [blockLayout, blockLayout, hs.blockSize]
  refine ⟨⟨?_, ?_, by rw [hil]; exact hin, by rw [hbl']; exact hbl, fun k => ?_⟩, ?_⟩
  · rw [hs.extraIsize, hs.inodeSize]
    exact h.inodeSize
  · rw [hs.blockSize]
    exact h.blockSize
  · rw [hf, hg]
    by_cases hk : k = key
    · rw [hk, Function.update_self, Function.update_self]
      exact hxy
    · rw [Function.update_of_ne hk, Function.update_of_ne hk]
      exact h.once k
  · funext k
    rw [lookup, hf, hg]
    by_cases hk : k = key
    · rw [hk, Function.update_self, Function.update_self, Function.update_self]
    · rw [Function.update_of_ne hk, Function.update_of_ne hk, Function.update_of_ne hk]
      rfl

theorem update_none {f : Key → Option (List Byte)} (h : f key = none) : f = Function.update f key none := by
  rw [← h, Function.update_eq_self]

/-- **`ext4_xattr_remove`** of an entry that is not in the inode. -/
theorem remove_correct (h : s.Inv) (hi : s.ibodyReady) (hb : s.blockReady) (hin : ¬ s.inInode key)
    (hblock : s.block = some b) (alloc : Option Errno) : ∃ r s', s.remove key alloc = some (r, s') ∧
      s.Correct (.remove key alloc) (rcOf r) s' ∧ s'.Inv := by
  have hwf := h.blockArea b.area (by rw [blockArea, hblock]; rfl)
  have hfind : s.ibodyFindEntry key = .ok none := by
    rw [hi.find]
    cases ha : s.inodeArea with
    | none => rfl
    | some a =>
      obtain ⟨rfl, h0, -⟩ := inodeArea_eq ha
      exact congrArg Except.ok (not_not.1 fun hne => hin ⟨h0, hne⟩)
  have hnone := hi.lookup_none hfind
  have hlookup : s.lookup key = b.area.lookup key := by
    rw [lookup, hnone, Option.none_or, blockArea, hblock]
    rfl
  rw [remove, hfind, hblock]
  simp only
  rw [hb.find hblock]
  cases hf : findEntry key b.area.entries with
  | none =>
    refine ⟨_, _, rfl, ⟨rfl, fun _ => rfl⟩, h⟩
  | some found =>
    simp only
    have hsome : s.lookup key ≠ none := by
      rw [hlookup, Ne, lookup_eq_none, hf]
      simp
    cases hcopy : copyNewBlock b alloc with
    | error e => exact ⟨_, _, rfl, ⟨rfl, fun h0 => absurd h0 hsome⟩, h⟩
    | ok r =>
      obtain ⟨b', allocated⟩ := r
      have harea : b'.area = b.area := by
        unfold copyNewBlock at hcopy
        split_ifs at hcopy
        · cases alloc with
          | none =>
            obtain ⟨rfl, -⟩ := Prod.mk.inj (Except.ok.inj hcopy)
            rfl
          | some e => exact absurd hcopy (by simp)
        · obtain ⟨rfl, -⟩ := Prod.mk.inj (Except.ok.inj hcopy)
          rfl
      simp only
      rw [harea, hb.find hblock]
      simp only
      obtain ⟨a', ha', hwf', hl⟩ := @setEntry_erase _ _ key hwf (hb b hblock)
      rw [ha']
      simp only
      have hupdate : ∀ s' : Inode, SameSizes s s' → s'.inodeArea = s.inodeArea →
          (∀ a, s'.blockArea = some a → a = a') → areaLookup s'.blockArea = a'.lookup →
          s'.lookup = Function.update s.lookup key none ∧ s'.Inv := by
        intro s' hsame hina hbla hlook
        have hupd := h.update s' key (x := none) (y := none) hsame
          (by rw [hina]; exact h.inodeArea) (fun a ha => by rw [hbla a ha]; exact hwf')
          (by rw [hina]; exact update_none hnone) ?_ (.inl rfl)
        · exact ⟨hupd.2, hupd.1⟩
        · rw [hlook, hl, blockArea, hblock]
          rfl
      split_ifs with hempty
      · obtain ⟨hl', hinv⟩ := hupdate { s with block := none } ⟨rfl, rfl, rfl⟩ rfl
          (fun a ha => absurd ha (by simp [blockArea])) (by
            funext k
            exact (lookup_eq_none.2 (by rw [hempty]; rfl)).symm)
        exact ⟨_, _, rfl, ⟨hsome, hl'⟩, hinv⟩
      · obtain ⟨hl', hinv⟩ := hupdate { s with block := some { b' with area := a' } } ⟨rfl, rfl, rfl⟩ rfl
          (fun a ha => (Option.some_inj.1 ha).symm) rfl
        exact ⟨_, _, rfl, ⟨hsome, hl'⟩, hinv⟩

/-- The block takes the value. -/
theorem blockUpdate_takes (hv : isValid s.blockLayout b.area = true) (hwf : Wf s.blockLayout b.area)
    (hlen : key.name.length < 256) (ht : s.blockTakes b key value) (noInsert : Bool) (alloc : Option Errno) :
    ∃ area, s.blockUpdate b key value noInsert alloc =
        some (.ok (), { s with block := some { b with area := area } }) ∧
      Wf s.blockLayout area ∧ area.lookup = Function.update b.area.lookup key (some value) := by
  obtain ⟨hone, hroom⟩ := ht
  obtain ⟨area, harea⟩ := setEntry_isOk.2 hroom
  have hcopy : copyNewBlock b alloc = .ok (b, false) := if_neg (Nat.not_lt.2 hone)
  have hfind : s.blockFindEntry key b.area = .ok (findEntry key b.area.entries) := if_pos hv
  refine ⟨area, ?_, setEntry_set hwf hv hlen harea⟩
  rw [blockUpdate, hcopy]
  simp only
  rw [if_neg fun hc => absurd hc.1 (Nat.not_lt.2 hone), hfind]
  simp only
  rw [harea]

/-- The block does not take the value, and is not copied. -/
theorem blockUpdate_refuses (hv : isValid s.blockLayout b.area = true) (ht : ¬ s.blockTakes b key value)
    (hshared : 1 < b.refcount → findEntry key b.area.entries = none ∨ alloc ≠ none) :
    ∃ e, s.blockUpdate b key value true alloc = some (.error e, s) := by
  have hfind : s.blockFindEntry key b.area = .ok (findEntry key b.area.entries) := if_pos hv
  by_cases hone : 1 < b.refcount
  · rw [blockUpdate, if_pos ⟨hone, rfl⟩, hfind]
    cases hf : findEntry key b.area.entries with
    | none => exact ⟨_, rfl⟩
    | some found =>
      obtain ⟨e, he⟩ := Option.ne_none_iff_exists'.1 ((hshared hone).resolve_left (by rw [hf]; simp))
      have hcopy : copyNewBlock b alloc = .error e := by
        rw [he]
        exact if_pos hone
      rw [hcopy]
      exact ⟨e, rfl⟩
  · have hcopy : copyNewBlock b alloc = .ok (b, false) := if_neg hone
    have hfull : freeSpace s.blockLayout b.area (findEntry key b.area.entries) <
        xattrSize value.length + xattrLen key.name.length :=
      Nat.lt_of_not_le fun hle => ht ⟨Nat.le_of_not_lt hone, hle⟩
    rw [blockUpdate, hcopy, if_neg fun hc => absurd hc.1 hone]
    simp only
    rw [hfind]
    simp only
    rw [setEntry_error hfull]
    exact ⟨_, rfl⟩

/-- A value goes into the block, or into a new one. -/
theorem blockSet_takes (h : s.Inv) (hb : s.blockReady) (hlen : key.name.length < 256)
    (ht : s.anyBlockTakes key value alloc) : ∃ b' : Block, s.blockSet key value false alloc =
        some (.ok (), { s with block := some b' }) ∧ Wf s.blockLayout b'.area ∧
      b'.area.lookup = Function.update (areaLookup s.blockArea) key (some value) := by
  unfold blockSet blockArea
  cases hblock : s.block with
  | some b =>
    rw [anyBlockTakes, hblock] at ht
    have hwf := h.blockArea b.area (by rw [blockArea, hblock]; rfl)
    obtain ⟨area, hup, hwf', hl⟩ := blockUpdate_takes (hb b hblock) hwf hlen ht false alloc
    exact ⟨_, hup, hwf', hl⟩
  | none =>
    rw [anyBlockTakes, hblock] at ht
    obtain ⟨rfl, -, hroom⟩ := ht
    have hsize : s.blockLayout.first + 4 ≤ s.blockLayout.size := h.blockSize
    have hwf : Wf s.blockLayout newBlock.area := wf_nil hsize _
    have hv : isValid s.blockLayout newBlock.area = true := isValid_nil hsize _
    obtain ⟨area, harea⟩ := setEntry_isOk.2 hroom
    obtain ⟨hwf', hl⟩ := setEntry_set hwf hv hlen harea
    have hset : setEntry s.blockLayout newBlock.area key (some value) none = .ok area := harea
    refine ⟨{ newBlock with area := area }, ?_, hwf', ?_⟩
    · simp only [Bool.false_eq_true, if_false]
      rw [hset]
    · rw [hl]
      congr 1

/-- The insertion into the area in the inode. -/
def inodeInsert (s : Inode) (found : Search) (key : Key) (value : List Byte) : Except Errno Area :=
  if s.extraIsize ≠ 0 then setEntry s.ibodyLayout s.ibody key (some value) found else .error .ENOSPC

theorem inodeInsert_ok (ht : s.inodeTakes key value) : ∃ area,
    s.inodeInsert (findEntry key s.ibody.entries) key value = .ok area ∧
      setEntry s.ibodyLayout s.ibody key (some value) (findEntry key s.ibody.entries) = .ok area := by
  obtain ⟨area, harea⟩ := setEntry_isOk.2 ht.2
  exact ⟨area, (if_pos ht.1).trans harea, harea⟩

theorem inodeInsert_error {found : Search} (ht : ¬ s.inodeTakes key value)
    (hfound : s.extraIsize ≠ 0 → found = findEntry key s.ibody.entries) :
    s.inodeInsert found key value = .error .ENOSPC := by
  unfold inodeInsert
  split_ifs with h0
  · rw [hfound h0]
    exact setEntry_error (Nat.lt_of_not_le fun hle => ht ⟨h0, hle⟩)
  · rfl

theorem tryInsert_ok {found : Search} {area : Area} (h : s.inodeInsert found key value = .ok area) :
    s.tryInsert found key value alloc false = some (.ok (), { s with ibody := area }) := by
  unfold inodeInsert at h
  rw [tryInsert, h]
  rfl

theorem tryInsert_refused {found : Search} (h : s.inodeInsert found key value = .error .ENOSPC) :
    s.tryInsert found key value alloc true = some (.error .ENOSPC, s) := by
  unfold inodeInsert at h
  rw [tryInsert, h]
  rfl

/-- The value goes to the block, and the entry in the inode is removed. -/
theorem tryInsert_block {found : Search} {area : Area} {r : Except Errno Unit}
    (h : s.inodeInsert found key value = .error .ENOSPC) (hbs : s.blockSet key value false alloc = some (r, s'))
    (herase : setEntry s'.ibodyLayout s'.ibody key none found = .ok area) :
    s.tryInsert found key value alloc false = some (r, { s' with ibody := area }) := by
  unfold inodeInsert at h
  rw [tryInsert, h]
  simp only [Bool.false_eq_true, if_false]
  rw [hbs]
  simp only
  rw [herase]

theorem ibodyReady.area (h : s.ibodyReady) (h0 : s.extraIsize ≠ 0) : s.inodeArea = some s.ibody ∧
    isValid s.ibodyLayout s.ibody = true := by
  have hv := h.resolve_left h0
  exact ⟨if_pos ⟨h0, isValid_header hv⟩, hv⟩

theorem set_of_find {found : Search} (hf : s.ibodyFindEntry key = .ok found) :
    s.set key value alloc = s.setFound found key value alloc := by
  unfold set
  rw [hf]
  simp only
  rw [hf]

/-- The area in the inode takes the value. -/
theorem set_inode {area : Area} (h : s.Inv) (hi : s.ibodyReady) (hlen : key.name.length < 256)
    (h0 : s.extraIsize ≠ 0) (hnone : areaLookup s.blockArea key = none)
    (harea : setEntry s.ibodyLayout s.ibody key (some value) (findEntry key s.ibody.entries) = .ok area) :
    ({ s with ibody := area } : Inode).lookup = Function.update s.lookup key (some value) ∧
      ({ s with ibody := area } : Inode).Inv := by
  obtain ⟨ha, hv⟩ := hi.area h0
  obtain ⟨hwf', hl⟩ := setEntry_set (h.inodeArea _ ha) hv hlen harea
  have hina : ({ s with ibody := area } : Inode).inodeArea = some area := if_pos ⟨h0, hwf'.header⟩
  obtain ⟨hinv, hlook⟩ := h.update { s with ibody := area } key (x := some value) (y := none)
    ⟨rfl, rfl, rfl⟩ (fun a h => by rw [hina] at h; obtain rfl := Option.some_inj.1 h; exact hwf') h.blockArea
    (by rw [hina, ha]; exact hl) (update_none hnone) (.inr rfl)
  exact ⟨hlook, hinv⟩

/-- The block gets the value of an attribute that is not in the inode. -/
theorem set_block {b' : Block} (h : s.Inv) (hnone : areaLookup s.inodeArea key = none)
    (hwf : Wf s.blockLayout b'.area)
    (hl : b'.area.lookup = Function.update (areaLookup s.blockArea) key (some value)) :
    ({ s with block := some b' } : Inode).lookup = Function.update s.lookup key (some value) ∧
      ({ s with block := some b' } : Inode).Inv := by
  obtain ⟨hinv, hlook⟩ := h.update { s with block := some b' } key (x := none) (y := some value)
    ⟨rfl, rfl, rfl⟩ h.inodeArea (fun a ha => by obtain rfl := Option.some_inj.1 ha; exact hwf)
    (update_none hnone) hl (.inl rfl)
  exact ⟨hlook, hinv⟩

section

variable (h : s.Inv) (hi : s.ibodyReady) (hb : s.blockReady) (hlen : key.name.length < 256)

include h hi hb hlen

/-- The attribute is in the inode: it stays there, or moves to the block. -/
theorem setFound_some {found : List Entry × Entry × List Entry}
    (hf : s.ibodyFindEntry key = .ok (some found))
    (hmove : s.inInode key → s.inodeTakes key value ∨ s.anyBlockTakes key value alloc) :
    ∃ r s', s.setFound (some found) key value alloc = some (r, s') ∧
      s.Correct (.set key value alloc) (rcOf r) s' ∧ s'.Inv := by
  obtain ⟨pre, here, post⟩ := found
  obtain ⟨ha, hfe⟩ := hi.lookup_some hf
  obtain ⟨-, h0, -⟩ := inodeArea_eq ha
  have hv := (hi.area h0).2
  have hin : s.inInode key := ⟨h0, by rw [hfe]; simp⟩
  by_cases ht : s.inodeTakes key value
  · have hnone : areaLookup s.blockArea key = none :=
      (h.once key).resolve_left (by rw [ha, areaLookup_of_find hfe]; simp)
    obtain ⟨area, hok, harea⟩ := inodeInsert_ok ht
    rw [hfe] at hok
    obtain ⟨hl, hinv⟩ := set_inode h hi hlen h0 hnone harea
    exact ⟨_, _, tryInsert_ok hok, hl, hinv⟩
  · have herr := @inodeInsert_error _ _ _ (some (pre, here, post)) ht fun _ => hfe.symm
    obtain ⟨b', hbs, hwf', hl⟩ := blockSet_takes h hb hlen ((hmove hin).resolve_left ht)
    obtain ⟨area, herase, hwfe, hle⟩ := @setEntry_erase _ _ key (h.inodeArea _ ha) hv
    rw [hfe] at herase
    have hina : ({ s with block := some b', ibody := area } : Inode).inodeArea = some area :=
      if_pos ⟨h0, hwfe.header⟩
    obtain ⟨hinv, hlook⟩ := h.update { s with block := some b', ibody := area } key (x := none)
      (y := some value) ⟨rfl, rfl, rfl⟩
      (fun a h => by rw [hina] at h; obtain rfl := Option.some_inj.1 h; exact hwfe)
      (fun a h => by obtain rfl := Option.some_inj.1 h; exact hwf')
      (by rw [hina, ha]; exact hle) hl (.inl rfl)
    exact ⟨_, _, tryInsert_block herr hbs herase, hlook, hinv⟩

omit h hb hlen in
/-- The search in the inode, where the attribute is not found. -/
theorem ibodyReady.search_none (hf : s.ibodyFindEntry key = .ok none) (h0 : s.extraIsize ≠ 0) :
    none = findEntry key s.ibody.entries := by
  have hfind := hi.find key
  rw [hf, (hi.area h0).1] at hfind
  exact Except.ok.inj hfind

omit h hi hb hlen in
/-- No block is made: nothing changes. -/
theorem blockSet_alone (hblock : s.block = none) (hany : ¬ s.anyBlockTakes key value alloc) :
    ∃ e, s.blockSet key value false alloc = some (.error e, s) := by
  unfold blockSet
  rw [hblock]
  simp only [Bool.false_eq_true, if_false]
  cases alloc with
  | some e => exact ⟨e, rfl⟩
  | none =>
    rw [anyBlockTakes, hblock] at hany
    have hfull : freeSpace s.blockLayout newBlock.area none <
        xattrSize value.length + xattrLen key.name.length :=
      Nat.lt_of_not_le fun hle => hany ⟨rfl, Nat.le_refl 1, hle⟩
    simp only
    rw [setEntry_error hfull]
    exact ⟨_, rfl⟩

/-- There is no block: the attribute is put into the inode, or into a new block. -/
theorem setFound_alone (hf : s.ibodyFindEntry key = .ok none) (hblock : s.block = none) :
    ∃ r s', s.setFound none key value alloc = some (r, s') ∧
      s.Correct (.set key value alloc) (rcOf r) s' ∧ s'.Inv := by
  have hbnone : areaLookup s.blockArea key = none := by
    rw [blockArea, hblock]
    rfl
  unfold setFound
  rw [hblock]
  simp only
  by_cases ht : s.inodeTakes key value
  · obtain ⟨area, hok, harea⟩ := inodeInsert_ok ht
    rw [← hi.search_none hf ht.1] at hok
    obtain ⟨hl, hinv⟩ := set_inode h hi hlen ht.1 hbnone harea
    exact ⟨_, _, tryInsert_ok hok, hl, hinv⟩
  · have herr := @inodeInsert_error _ _ _ none ht (hi.search_none hf)
    by_cases hany : s.anyBlockTakes key value alloc
    · obtain ⟨b', hbs, hwf', hl⟩ := blockSet_takes h hb hlen hany
      obtain ⟨hlook, hinv⟩ := set_block h (hi.lookup_none hf) hwf' hl
      exact ⟨_, _, tryInsert_block herr hbs rfl, hlook, hinv⟩
    · obtain ⟨e, he⟩ := blockSet_alone hblock hany
      exact ⟨_, _, tryInsert_block herr he rfl, rfl, h⟩

/-- There is a block, which takes the attribute or leaves everything alone. -/
theorem setFound_beside (hf : s.ibodyFindEntry key = .ok none) (hblock : s.block = some b)
    (hblk : s.blockTakes b key value ∨ ¬ s.inodeTakes key value ∧
      (1 < b.refcount → findEntry key b.area.entries = none ∨ alloc ≠ none)) :
    ∃ r s', s.setFound none key value alloc = some (r, s') ∧
      s.Correct (.set key value alloc) (rcOf r) s' ∧ s'.Inv := by
  have hwf := h.blockArea b.area (by rw [blockArea, hblock]; rfl)
  have hv := hb b hblock
  have hbs : s.blockSet key value true alloc = s.blockUpdate b key value true alloc := by
    unfold blockSet
    rw [hblock]
  unfold setFound
  rw [hblock]
  simp only
  rw [hbs]
  by_cases ht : s.blockTakes b key value
  · obtain ⟨area, hup, hwf', hl⟩ := blockUpdate_takes hv hwf hlen ht true alloc
    rw [hup]
    have hold : areaLookup s.blockArea = b.area.lookup := by
      rw [blockArea, hblock]
      rfl
    obtain ⟨hlook, hinv⟩ := @set_block _ _ _ { b with area := area } h (hi.lookup_none hf) hwf'
      (by rw [hold]; exact hl)
    exact ⟨_, _, rfl, hlook, hinv⟩
  · obtain ⟨hno, hshared⟩ := hblk.resolve_left ht
    obtain ⟨e, hup⟩ := blockUpdate_refuses hv ht hshared
    rw [hup]
    have htry := @tryInsert_refused _ _ _ alloc _
      (@inodeInsert_error _ _ _ none hno (hi.search_none hf))
    cases e with
    | ENOSPC => exact ⟨_, _, htry, rfl, h⟩
    | ENODATA => exact ⟨_, _, htry, rfl, h⟩
    | _ => exact ⟨_, _, rfl, rfl, h⟩

/-- **`ext4_xattr_set`** with the areas ready. -/
theorem set_ready (hway : s.SetWay key value alloc) :
    ∃ r s', s.set key value alloc = some (r, s') ∧
      s.Correct (.set key value alloc) (rcOf r) s' ∧ s'.Inv := by
  obtain ⟨hmove, hblk⟩ := hway
  have hfind := hi.find key
  cases hf : s.ibodyFindEntry key with
  | error e =>
    rw [hf] at hfind
    exact absurd hfind (by simp)
  | ok found =>
    rw [set_of_find hf]
    cases found with
    | some found => exact setFound_some h hi hb hlen hf hmove
    | none =>
      cases hblock : s.block with
      | none => exact setFound_alone h hi hb hlen hf hblock
      | some b =>
        have hnin : ¬ s.inInode key := fun hin => hin.2 (hi.search_none hf hin.1).symm
        exact setFound_beside h hi hb hlen hf hblock (hblk b hblock hnin)

end

/-! ## The area that is not initialised -/

theorem fresh_of_not_header (h : s.ibody.header = false) : s.fresh = s.ibodyInitialize :=
  if_neg (by simp [h])

theorem set_fresh (hi : s.fresh.ibodyReady) : s.set key value alloc = s.fresh.set key value alloc := by
  cases hh : s.ibody.header with
  | true => rw [header_of_not_fresh hh]
  | false =>
    rw [fresh_of_not_header hh] at hi ⊢
    by_cases h0 : s.extraIsize = 0
    · rw [ibodyInitialize, if_pos h0]
    · have hinvalid : s.ibodyFindEntry key = .error Errno.EIO := by
        rw [ibodyFindEntry, if_neg h0, if_neg]
        exact fun hv => absurd (hh.symm.trans (isValid_header hv)) (by simp)
      unfold set
      rw [hinvalid]
      simp only
      rw [hi.find key]
      simp only
      rw [hi.find key]

theorem fresh_inodeArea : areaLookup s.fresh.inodeArea = areaLookup s.inodeArea := by
  cases hh : s.ibody.header with
  | true => rw [header_of_not_fresh hh]
  | false =>
    funext k
    rw [fresh_of_not_header hh, inodeArea_of_header hh, ibodyInitialize]
    split_ifs with h0
    · rw [inodeArea_of_header hh]
    · rw [inodeArea, if_pos ⟨h0, rfl⟩]
      rfl

theorem fresh_block : s.fresh.block = s.block := by
  unfold fresh ibodyInitialize
  split_ifs <;> rfl

theorem fresh_sizes : SameSizes s s.fresh := by
  unfold fresh ibodyInitialize
  split_ifs <;> exact ⟨rfl, rfl, rfl⟩

theorem fresh_lookup : s.fresh.lookup = s.lookup := by
  funext k
  rw [lookup, lookup, fresh_inodeArea, blockArea, fresh_block]
  rfl

theorem Inv.fresh (h : s.Inv) : s.fresh.Inv := by
  have hsizes := fresh_sizes (s := s)
  have hil : s.fresh.ibodyLayout = s.ibodyLayout := by
    rw [ibodyLayout, ibodyLayout, hsizes.inodeSize, hsizes.extraIsize]
  have hbl : s.fresh.blockLayout = s.blockLayout := by rw [blockLayout, blockLayout, hsizes.blockSize]
  have hba : s.fresh.blockArea = s.blockArea := by rw [Inode.blockArea, Inode.blockArea, fresh_block]
  refine ⟨?_, ?_, fun a ha => ?_, ?_, ?_⟩
  · rw [hsizes.extraIsize, hsizes.inodeSize]
    exact h.inodeSize
  · rw [hsizes.blockSize]
    exact h.blockSize
  · rw [hil]
    cases hh : s.ibody.header with
    | true =>
      rw [header_of_not_fresh hh] at ha
      exact h.inodeArea a ha
    | false =>
      obtain ⟨rfl, h0, -⟩ := inodeArea_eq ha
      rw [hsizes.extraIsize] at h0
      have hsize := h.inodeSize h0
      have hnil : s.fresh.ibody = ⟨true, [], fun _ => 0⟩ := by
        rw [fresh_of_not_header hh, ibodyInitialize, if_neg h0]
      rw [hnil]
      refine wf_nil ?_ _
      show 0 + 4 ≤ s.inodeSize - 128 - s.extraIsize - 4
      omega
  · rw [hba, hbl]
    exact h.blockArea
  · rw [hba, fresh_inodeArea]
    exact h.once

/-! ## Runs -/

/-- **Every safe operation** is right. -/
theorem step_correct (h : s.Inv) {op : Op} (hop : s.Safe op) :
    ∃ out s', s.step op = some (out, s') ∧ s.Correct op out s' ∧ s'.Inv := by
  cases op with
  | set key value alloc =>
    obtain ⟨hlen, hi, hb, hway⟩ := hop
    have hb' : s.fresh.blockReady := by
      intro b hblock
      rw [blockLayout, fresh_sizes.blockSize]
      exact hb b (by rw [← fresh_block, hblock])
    obtain ⟨r, s', hset, hc, hinv⟩ := set_ready h.fresh hi hb' hlen hway
    refine ⟨rcOf r, s', ?_, ?_, hinv⟩
    · rw [step, set_fresh hi, hset]
      rfl
    · cases r with
      | ok u =>
        have hl : s'.lookup = Function.update s.fresh.lookup key (some value) := hc
        rw [fresh_lookup] at hl
        exact hl
      | error e =>
        have hl : s'.lookup = s.fresh.lookup := hc
        rw [fresh_lookup] at hl
        exact hl
  | remove key alloc =>
    obtain ⟨hi, hb, hin, hsome⟩ := hop
    obtain ⟨b, hblock⟩ := Option.ne_none_iff_exists'.1 hsome
    obtain ⟨r, s', hremove, hc, hinv⟩ := remove_correct h hi hb hin hblock alloc
    exact ⟨rcOf r, s', by rw [step, hremove]; rfl, hc, hinv⟩
  | get key bufLen =>
    obtain ⟨hi, hb⟩ := hop
    have hget := @get_correct _ key hi hb bufLen
    cases hl : s.lookup key with
    | some v =>
      rw [hl] at hget
      exact ⟨.value (v.take bufLen) v.length, s, by rw [step, hget], ⟨rfl, v, hl, rfl, rfl⟩, h⟩
    | none =>
      rw [hl] at hget
      exact ⟨.rc (some .ENODATA), s, by rw [step, hget], ⟨rfl, rfl, hl⟩, h⟩
  | list =>
    obtain ⟨hi, hb⟩ := hop
    obtain ⟨keys, hlist, hnodup, hmem⟩ := list_correct h hi hb
    exact ⟨.keys keys _, s, by rw [step, hlist], ⟨rfl, hnodup, hmem, rfl⟩, h⟩

/-- The states that operations with the property `P` lead to, from an inode
    with well-formed areas. -/
inductive Reach (P : Inode → Op → Prop) : Inode → Prop
  | start (s : Inode) (h : s.Inv) : Reach P s
  | step {s s' : Inode} {out : Out} (op : Op) (hs : Reach P s) (hop : P s op)
    (hstep : s.step op = some (out, s')) :
    Reach P s'

/-- **In every run** of safe operations the areas are one map: no key is in
    both, and every safe operation does to the map what it should. -/
theorem reach_map (hs : Reach Safe s) :
    (∀ k, areaLookup s.inodeArea k = none ∨ areaLookup s.blockArea k = none) ∧
      ∀ op, s.Safe op → ∃ out s', s.step op = some (out, s') ∧ s.Correct op out s' := by
  have hinv : s.Inv := by
    induction hs with
    | start s h => exact h
    | step op _ hop hstep ih =>
      obtain ⟨out, s', hs', -, hinv⟩ := step_correct ih hop
      obtain ⟨-, rfl⟩ := Prod.mk.inj (Option.some_inj.1 (hstep.symm.trans hs'))
      exact hinv
  refine ⟨hinv.once, fun op hop => ?_⟩
  obtain ⟨out, s', hs', hc, -⟩ := step_correct hinv hop
  exact ⟨out, s', hs', hc⟩

/-- An inode of 256 bytes without attributes. -/
def emptyInode : Inode := ⟨4096, 256, 32, ⟨false, [], fun _ => 0⟩, none⟩

theorem emptyInode_inv : emptyInode.Inv where
  inodeSize := fun _ => by decide
  blockSize := by decide
  inodeArea := fun a ha => absurd ha (by simp [inodeArea, emptyInode])
  blockArea := fun a ha => absurd ha (by simp [blockArea, emptyInode])
  once := fun _ => .inr rfl

/-- The attribute `user.a`. -/
def userA : Key := ⟨1, [0x61], Nat.one_pos⟩

theorem emptyInode_safe (value : List Byte) : emptyInode.Safe (.set userA value none) := by
  refine ⟨by decide, .inr (by decide), fun b hb => absurd hb (by simp [emptyInode]), fun hin => ?_,
    fun b hb => ?_⟩
  · exact absurd hin.2 (by decide)
  · exact absurd hb (by simp [fresh, emptyInode, ibodyInitialize])

/-- A value of three bytes is set. -/
theorem reach_map_userA : ∃ out s, emptyInode.step (.set userA [1, 2, 3] none) = some (out, s) ∧
    (∀ k, areaLookup s.inodeArea k = none ∨ areaLookup s.blockArea k = none) ∧
      ∀ op, s.Safe op → ∃ out s', s.step op = some (out, s') ∧ s.Correct op out s' := by
  obtain ⟨out, s, hstep, -, -⟩ := step_correct emptyInode_inv (emptyInode_safe [1, 2, 3])
  exact ⟨out, s, hstep, reach_map (.step _ (.start _ emptyInode_inv) (emptyInode_safe _) hstep)⟩

/-- A value of 68 bytes is stored and cannot be read. -/
theorem exact_fill_get : (emptyInode.step (.set userA (List.replicate 68 1) none)).all (fun r =>
    match r.2.get userA 68 with
    | .error Errno.EIO => true
    | _ => false) = true := by decide +kernel

/-- **A value that fills the inode exactly** is set, and then the area in the
    inode does not pass its check any more. -/
theorem exact_fill : ¬ ∀ s : Inode, Reach (fun _ _ => True) s →
    ∀ op, ∃ out s', s.step op = some (out, s') ∧ s.Correct op out s' := by
  intro h
  obtain ⟨out, s, hstep, -, -⟩ := step_correct emptyInode_inv (emptyInode_safe (List.replicate 68 1))
  have hrun := exact_fill_get
  rw [hstep] at hrun
  obtain ⟨out', s', hget, hc⟩ := h s (.step _ (.start _ emptyInode_inv) trivial hstep) (.get userA 68)
  cases hg : s.get userA 68 with
  | ok r => simp [hg] at hrun
  | error e =>
    have he : e = Errno.EIO := by
      cases e <;> simp [hg] at hrun
      rfl
    rw [step, hg, he] at hget
    obtain ⟨rfl, rfl⟩ := Prod.mk.inj (Option.some_inj.1 hget)
    exact absurd hc.2.1 (by simp)

end Inode

end Xattr

end Lwext4
