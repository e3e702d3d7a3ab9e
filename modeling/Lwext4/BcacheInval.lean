/-
  `ext4_bcache_invalidate_lba` of a range of blocks.

  The walk over the tree begins at the buffer of the first block of the range.
  When that block is not cached there is no such buffer, and the walk ends
  before it has begun, whatever else of the range is in the cache
  (`invalidateLba_complete_iff`).
-/
import Lwext4.BcacheRun

namespace Lwext4

/-- The cache with the hooks of its buffers: `endWrite` of a buffer is its
    `end_write` with `end_write_arg`, and `none` where `end_write` is `NULL`. -/
structure HookedCache (α η : Type) where
  cache : Bcache α
  endWrite : ℕ → Option η

namespace HookedCache

variable {α η : Type}

/-- `ext4_bcache_invalidate_buf`. -/
def invalidateBuf (c : HookedCache α η) (id : ℕ) : HookedCache α η where
  cache := c.cache.invalidateBuf id
  endWrite := Function.update c.endWrite id none

/-- The buffers on the way of `RB_FOREACH_FROM` up to the block `end'`. -/
def walk (c : HookedCache α η) (from' end' : ℕ) : List ℕ :=
  match c.cache.lookup from' with
  | none => []
  | some _ => c.cache.lbaRoot.filter fun id =>
      (c.cache.heap id).any fun b => from' ≤ b.lba ∧ b.lba ≤ end'

/-- `ext4_bcache_invalidate_lba`. -/
def invalidateLba (c : HookedCache α η) (from' cnt : ℕ) : HookedCache α η :=
  (c.walk from' (sub64 (u64 (from' + cnt)) 1)).foldl invalidateBuf c

/-- The lists of the cache agree with its buffers. -/
structure Listed (c : HookedCache α η) : Prop where
  lba : ∀ i, i ∈ c.cache.lbaRoot ↔ c.cache.heap i ≠ none
  dirty : ∀ i, i ∈ c.cache.dirtyList ↔ ∃ b, c.cache.heap i = some b ∧ b.onDirtyList = true
  nodup : c.cache.dirtyList.Nodup
  flag : ∀ i b, c.cache.heap i = some b → b.onDirtyList = true → b.dirty = true

/-- The states of the cache's runs are of this kind. -/
theorem Listed.of_inv {c : HookedCache α η} (hi : c.cache.Inv) : c.Listed where
  lba := hi.lba
  dirty := hi.dirty
  nodup := hi.dirtyNodup
  flag := fun i b hb hon => ((hi.ok i b hb).list hon).1

/-! ## One buffer -/

/-- A buffer without contents: not dirty, not up to date, off the dirty list and
    without a hook. -/
structure Invalid (c : HookedCache α η) (id : ℕ) (b : Buf α) : Prop where
  clean : b.dirty = false
  stale : b.uptodate = false
  unlisted : id ∉ c.cache.dirtyList
  unhooked : c.endWrite id = none

/-- The buffer is the same, in the dirty list or not, and has the same hook. -/
structure Unchanged (c c' : HookedCache α η) (id : ℕ) (b : Buf α) : Prop where
  heap : c'.cache.heap id = some b
  listed : id ∈ c'.cache.dirtyList ↔ id ∈ c.cache.dirtyList
  hook : c'.endWrite id = c.endWrite id

variable {c : HookedCache α η}

/-- What `ext4_bcache_invalidate_buf` does to its buffer. -/
def clear (b : Buf α) : Buf α := { b with dirty := false, uptodate := false, onDirtyList := false }

/-- **What the invalidation of a buffer does.** -/
theorem Listed.invalidateBuf (hl : c.Listed) {id : ℕ} {b : Buf α} (hb : c.cache.heap id = some b) :
    (c.invalidateBuf id).cache.heap = Function.update c.cache.heap id (some (clear b)) ∧
      (c.invalidateBuf id).cache.dirtyList = c.cache.dirtyList.erase id ∧
      (c.invalidateBuf id).cache.lbaRoot = c.cache.lbaRoot := by
  have hunlisted : b.onDirtyList = false → id ∉ c.cache.dirtyList := by
    intro hoff hmem
    obtain ⟨b', hb', hon⟩ := (hl.dirty id).1 hmem
    rw [hb] at hb'
    obtain rfl := Option.some_inj.1 hb'
    exact absurd hon (by simp [hoff])
  have hflag := hl.flag id b hb
  simp only [HookedCache.invalidateBuf, Bcache.invalidateBuf, hb]
  cases hon : b.onDirtyList with
  | true =>
    have hd : b.dirty = true := hflag hon
    simp [hd, Bcache.removeDirtyNode, hon, Bcache.setBuf, clear]
  | false =>
    have herase := List.erase_of_not_mem (hunlisted hon)
    cases hd : b.dirty <;> simp [Bcache.removeDirtyNode, hon, Bcache.setBuf, herase, clear]

theorem Listed.kept (hl : c.Listed) {id : ℕ} {b : Buf α} (hb : c.cache.heap id = some b) :
    (c.invalidateBuf id).Listed := by
  obtain ⟨hheap, hdirty, hroot⟩ := hl.invalidateBuf hb
  refine ⟨?_, ?_, ?_, ?_⟩
  · intro i
    rw [hroot, hheap, hl.lba]
    by_cases hi : i = id
    · subst hi
      simp [hb]
    · rw [Function.update_of_ne hi]
  · intro i
    rw [hdirty, hheap, hl.nodup.mem_erase_iff, hl.dirty]
    by_cases hi : i = id
    · subst hi
      simp [clear]
    · rw [Function.update_of_ne hi]
      simp [hi]
  · rw [hdirty]
    exact hl.nodup.erase id
  · intro i b' hb' hon
    rw [hheap] at hb'
    by_cases hi : i = id
    · subst hi
      rw [Function.update_self] at hb'
      obtain rfl := Option.some_inj.1 hb'
      exact absurd hon Bool.false_ne_true
    · rw [Function.update_of_ne hi] at hb'
      exact hl.flag i b' hb' hon

/-! ## The walk -/

/-- The buffers of `ids` are cleared, and nothing else changes. -/
structure Cleared (c c' : HookedCache α η) (ids : List ℕ) : Prop where
  listed : c'.Listed
  heap : ∀ i, c'.cache.heap i = if i ∈ ids then (c.cache.heap i).map clear else c.cache.heap i
  dirty : ∀ i, i ∈ c'.cache.dirtyList ↔ i ∈ c.cache.dirtyList ∧ i ∉ ids
  hook : ∀ i, c'.endWrite i = if i ∈ ids then none else c.endWrite i

theorem Listed.foldl {ids : List ℕ} (hl : c.Listed) (hids : ∀ i ∈ ids, c.cache.heap i ≠ none) :
    Cleared c (ids.foldl HookedCache.invalidateBuf c) ids := by
  induction ids generalizing c with
  | nil => exact ⟨hl, by simp, by simp, by simp⟩
  | cons id ids ih =>
    obtain ⟨b, hb⟩ := Option.ne_none_iff_exists'.1 (hids id List.mem_cons_self)
    obtain ⟨hheap, hdirty, -⟩ := hl.invalidateBuf hb
    have hnext : ∀ i ∈ ids, (c.invalidateBuf id).cache.heap i ≠ none := by
      intro i hi
      rw [hheap]
      by_cases h : i = id
      · simp [h]
      · rw [Function.update_of_ne h]
        exact hids i (List.mem_cons_of_mem _ hi)
    have hc := ih (hl.kept hb) hnext
    rw [List.foldl_cons]
    refine ⟨hc.listed, ?_, ?_, ?_⟩
    · intro i
      rw [hc.heap, hheap]
      by_cases h : i = id
      · subst h
        simp [hb, clear]
      · simp [h]
    · intro i
      rw [hc.dirty, hdirty, hl.nodup.mem_erase_iff, List.mem_cons]
      tauto
    · intro i
      rw [hc.hook, HookedCache.invalidateBuf]
      by_cases h : i = id
      · subst h
        simp
      · simp [h]

/-- The walk meets the buffers from the first block to the last, provided the
    first block is cached. -/
theorem Listed.mem_walk (hl : c.Listed) {from' end' id : ℕ} {b : Buf α}
    (hb : c.cache.heap id = some b) :
    id ∈ c.walk from' end' ↔
      c.cache.lookup from' ≠ none ∧ from' ≤ b.lba ∧ b.lba ≤ end' := by
  have hmem : id ∈ c.cache.lbaRoot := (hl.lba id).2 (by simp [hb])
  unfold walk
  cases c.cache.lookup from' with
  | none => simp
  | some p => simp [hmem, hb]

theorem Listed.walk_cached (hl : c.Listed) {from' end' id : ℕ} (hid : id ∈ c.walk from' end') :
    c.cache.heap id ≠ none := by
  unfold walk at hid
  split at hid
  · exact absurd hid List.not_mem_nil
  · exact (hl.lba id).1 (List.mem_of_mem_filter hid)

/-! ## The range -/

/-- The invalidation of a range is complete, and touches nothing else. -/
structure Complete (c c' : HookedCache α η) (from' cnt : ℕ) : Prop where
  inside : ∀ i b, c'.cache.heap i = some b → from' ≤ b.lba → b.lba < from' + cnt → c'.Invalid i b
  outside : ∀ i b, c.cache.heap i = some b → ¬ (from' ≤ b.lba ∧ b.lba < from' + cnt) →
    Unchanged c c' i b

/-- A buffer without contents is left as it is. -/
theorem Listed.clear_invalid (hl : c.Listed) {i : ℕ} {b : Buf α} (hb : c.cache.heap i = some b)
    (hinv : c.Invalid i b) : clear b = b := by
  have hoff : b.onDirtyList = false := by
    by_contra hon
    exact hinv.unlisted ((hl.dirty i).2 ⟨b, hb, by simpa using hon⟩)
  cases b
  have h1 := hinv.clean
  have h2 := hinv.stale
  simp only at h1 h2 hoff
  simp [clear, h1, h2, hoff]

/-- A list of buffers to be cleared does for a range when it holds those of the
    range that have contents, and none with contents outside. -/
theorem Cleared.complete_iff {c' : HookedCache α η} {ids : List ℕ} (hl : c.Listed)
    (hc : Cleared c c' ids) (from' cnt : ℕ) :
    Complete c c' from' cnt ↔ ∀ i b, c.cache.heap i = some b → c.Invalid i b ∨
      (i ∈ ids ↔ from' ≤ b.lba ∧ b.lba < from' + cnt) := by
  constructor
  · intro h i b hb
    by_cases hr : from' ≤ b.lba ∧ b.lba < from' + cnt
    · by_cases hi : i ∈ ids
      · exact .inr (iff_of_true hi hr)
      · have hb' : c'.cache.heap i = some b := by rw [hc.heap, if_neg hi, hb]
        have hinv := h.inside i b hb' hr.1 hr.2
        refine .inl ⟨hinv.clean, hinv.stale, fun hmem => ?_, ?_⟩
        · exact hinv.unlisted ((hc.dirty i).2 ⟨hmem, hi⟩)
        · have hhook := hinv.unhooked
          rwa [hc.hook, if_neg hi] at hhook
    · by_cases hi : i ∈ ids
      · have hun := h.outside i b hb hr
        have hclear : clear b = b := by
          have := hun.heap
          rw [hc.heap, if_pos hi, hb] at this
          exact Option.some_inj.1 this
        refine .inl ⟨?_, ?_, fun hmem => ?_, ?_⟩
        · rw [← hclear]; rfl
        · rw [← hclear]; rfl
        · exact ((hc.dirty i).1 (hun.listed.2 hmem)).2 hi
        · rw [← hun.hook, hc.hook, if_pos hi]
      · exact .inr (iff_of_false hi hr)
  · intro h
    refine ⟨?_, ?_⟩
    · intro i b' hb' hlo hhi
      rw [hc.heap] at hb'
      by_cases hi : i ∈ ids
      · rw [if_pos hi] at hb'
        obtain ⟨b, -, rfl⟩ := Option.map_eq_some_iff.1 hb'
        refine ⟨rfl, rfl, fun hmem => ((hc.dirty i).1 hmem).2 hi, ?_⟩
        rw [hc.hook, if_pos hi]
      · rw [if_neg hi] at hb'
        rcases h i b' hb' with hinv | hiff
        · refine ⟨hinv.clean, hinv.stale, fun hmem => hinv.unlisted ((hc.dirty i).1 hmem).1, ?_⟩
          rw [hc.hook, if_neg hi]
          exact hinv.unhooked
        · exact absurd (hiff.2 ⟨hlo, hhi⟩) hi
    · intro i b hb hr
      by_cases hi : i ∈ ids
      · rcases h i b hb with hinv | hiff
        · refine ⟨?_, ?_, ?_⟩
          · rw [hc.heap, if_pos hi, hb, Option.map_some, hl.clear_invalid hb hinv]
          · exact iff_of_false (fun hmem => ((hc.dirty i).1 hmem).2 hi) hinv.unlisted
          · rw [hc.hook, if_pos hi, hinv.unhooked]
        · exact absurd (hiff.1 hi) hr
      · refine ⟨?_, ?_, ?_⟩
        · rw [hc.heap, if_neg hi, hb]
        · rw [hc.dirty]
          exact and_iff_left hi
        · rw [hc.hook, if_neg hi]

/-- The walk from `from'` covers the range: its first block is cached and it
    does not reach past the last 64-bit address, or nothing of it has contents;
    and an empty range does not begin at a cached block 0, or nothing at all
    has contents, because `end` is then the last address. -/
def Covers (c : HookedCache α η) (from' cnt : ℕ) : Prop :=
  (c.cache.lookup from' ≠ none ∧ from' + cnt ≤ 2 ^ 64 ∨
      ∀ i b, c.cache.heap i = some b → from' ≤ b.lba → b.lba < from' + cnt → c.Invalid i b) ∧
    (from' = 0 → cnt = 0 → c.cache.lookup 0 ≠ none →
      ∀ i b, c.cache.heap i = some b → b.lba < 2 ^ 64 → c.Invalid i b)

/-- The last block of the walk. -/
theorem le_end_iff {from' cnt lba : ℕ} (hfrom : from' < 2 ^ 64) (hcnt : cnt < 2 ^ 32) (hle : from' ≤ lba) :
    lba ≤ sub64 (u64 (from' + cnt)) 1 ↔
      from' + cnt ≤ 2 ^ 64 ∧ lba < from' + cnt ∨ from' = 0 ∧ cnt = 0 ∧ lba < 2 ^ 64 := by
  unfold sub64 u64
  omega

/-- **Invalidation is complete if and only if the walk covers the range.** -/
theorem invalidateLba_complete_iff (c : HookedCache α η) (hl : c.Listed) (from' cnt : ℕ)
    (hfrom : from' < 2 ^ 64) (hcnt : cnt < 2 ^ 32) :
    Complete c (c.invalidateLba from' cnt) from' cnt ↔ c.Covers from' cnt := by
  have hwalk := fun i (b : Buf α) (hb : c.cache.heap i = some b) =>
    (hl.mem_walk hb : i ∈ c.walk from' (sub64 (u64 (from' + cnt)) 1) ↔ _)
  rw [invalidateLba, (hl.foldl fun i hi => hl.walk_cached hi).complete_iff hl]
  constructor
  · intro h
    refine ⟨?_, ?_⟩
    · by_cases hcov : c.cache.lookup from' ≠ none ∧ from' + cnt ≤ 2 ^ 64
      · exact .inl hcov
      · refine .inr fun i b hb hlo hhi => (h i b hb).resolve_right fun hiff => hcov ?_
        obtain ⟨hcached, -, hend⟩ := (hwalk i b hb).1 (hiff.2 ⟨hlo, hhi⟩)
        have := (le_end_iff hfrom hcnt hlo).1 hend
        exact ⟨hcached, by omega⟩
    · rintro rfl rfl hcached i b hb hlt
      refine (h i b hb).resolve_right fun hiff => ?_
      have := hiff.1 ((hwalk i b hb).2 ⟨hcached, by omega,
        (le_end_iff hfrom hcnt (by omega)).2 (.inr ⟨rfl, rfl, hlt⟩)⟩)
      omega
  · rintro ⟨hrange, hempty⟩ i b hb
    by_cases hinv : c.Invalid i b
    · exact .inl hinv
    · refine .inr ?_
      rw [hwalk i b hb]
      constructor
      · rintro ⟨hcached, hlo, hend⟩
        rcases (le_end_iff hfrom hcnt hlo).1 hend with ⟨-, hhi⟩ | ⟨rfl, rfl, hlt⟩
        · exact ⟨hlo, hhi⟩
        · exact absurd (hempty rfl rfl hcached i b hb hlt) hinv
      · rintro ⟨hlo, hhi⟩
        rcases hrange with ⟨hcached, hle⟩ | hall
        · exact ⟨hcached, hlo, (le_end_iff hfrom hcnt hlo).2 (.inl ⟨hle, hhi⟩)⟩
        · exact absurd (hall i b hb hlo hhi) hinv

/-- The cache of the model without hooks is invalidated in the same way. -/
theorem invalidateLba_cache (c : HookedCache α η) (from' cnt : ℕ) :
    (c.invalidateLba from' cnt).cache = c.cache.invalidateLba from' cnt := by
  have hfold : ∀ (ids : List ℕ) (c : HookedCache α η),
      (ids.foldl invalidateBuf c).cache = ids.foldl Bcache.invalidateBuf c.cache := by
    intro ids
    induction ids with
    | nil => exact fun _ => rfl
    | cons id ids ih => exact fun c => ih (c.invalidateBuf id)
  rw [invalidateLba, Bcache.invalidateLba, hfold, walk]
  cases c.cache.lookup from' with
  | none => rfl
  | some p => rfl

/-! ## A range whose first block is not cached -/

/-- Block 6 of the journal's running transaction is the only cached block. -/
def blockSix : HookedCache ℕ Unit where
  cache :=
    { Bcache.init 8 100 (fun _ => 0) [] with
      lruCtr := 1
      refBlocks := 1
      next := 1
      lbaRoot := [0]
      heap := Function.update (fun _ => none) 0
        (some ⟨6, 7, true, true, false, false, 1, 2, 0, false⟩) }
  endWrite := fun i => if i = 0 then some () else none

theorem blockSix_reached : Bcache.Run (fun s op => s.Legal op ∧ s.Fits op)
    [.alloc 6 false 0, .setDirty 0 7, .transSetBlockDirty 0] (Bcache.init 8 100 (fun _ => 0) [])
      blockSix.cache := by
  simp [blockSix, Bcache.Run, Bcache.Legal, Bcache.Fits, Bcache.NoWrap, Bcache.Referenced, Bcache.step,
    Bcache.alloc, Bcache.findGet, Bcache.lookup, Bcache.newBuf, Bcache.setDirty, Bcache.modify,
    Bcache.transSetBlockDirty, Bcache.init, Bcache.setBuf, u32]

theorem blockSix_listed : blockSix.Listed := by
  refine ⟨?_, ?_, by decide, ?_⟩
  · intro i
    by_cases hi : i = 0 <;> simp [blockSix, Bcache.init, hi, Function.update]
  · intro i
    by_cases hi : i = 0 <;> simp [blockSix, Bcache.init, hi, Function.update]
  · intro i b hb hon
    by_cases hi : i = 0
    · subst hi
      simp only [blockSix, Bcache.init, Function.update_self, Option.some.injEq] at hb
      rw [← hb]
    · simp [blockSix, Bcache.init, Function.update, hi] at hb

theorem invalidateLba_complete_six : Complete blockSix (blockSix.invalidateLba 6 1) 6 1 :=
  (invalidateLba_complete_iff blockSix blockSix_listed 6 1 (by decide) (by decide)).2
    ⟨.inl ⟨by decide, by decide⟩, fun h => absurd h (by decide)⟩

/-- Blocks 5 and 6 are invalidated; block 6 stays dirty, and its hook stays. -/
theorem invalidateLba_incomplete :
    Bcache.Run (fun s op => s.Legal op ∧ s.Fits op)
      [.alloc 6 false 0, .setDirty 0 7, .transSetBlockDirty 0] (Bcache.init 8 100 (fun _ => 0) [])
      blockSix.cache ∧
    blockSix.Listed ∧ (blockSix.invalidateLba 5 2).cache.heap 0 =
      some ⟨6, 7, true, true, false, false, 1, 2, 0, false⟩ ∧
    (blockSix.invalidateLba 5 2).endWrite 0 = some () ∧
    ¬ Complete blockSix (blockSix.invalidateLba 5 2) 5 2 := by
  have hsame : blockSix.invalidateLba 5 2 = blockSix := rfl
  rw [hsame]
  refine ⟨blockSix_reached, blockSix_listed, rfl, rfl, fun h => ?_⟩
  exact absurd (h.inside 0 _ rfl (by decide) (by decide)).clean (by decide)

end HookedCache

end Lwext4
