/-
  The block cache refines a flat array of blocks.

  `flat` is what was last stored to each block.  `Coupled` says where it is
  found: in the up-to-date buffers, and on the disk for every block whose
  buffer is clean or that is not cached.  `Settled` is what makes a flush
  complete: a dirty buffer without references is on the dirty list.

  Main results.
  * `reach_refines`: in every run whose calls fit, `ext4_block_get` returns what
    was last stored, and after `ext4_block_cache_flush` the disk holds it for
    every released block.
  * `cache_breaks`: a run after which a cached block can no longer be read.
-/
import Lwext4.BcacheRun

namespace Lwext4

namespace Bcache

variable {α : Type}

/-! ## Coupling -/

/-- How a buffer and the disk hold the last contents of its block. -/
structure Holds (flat disk : ℕ → α) (b : Buf α) : Prop where
  data : b.uptodate = true → b.data = flat b.lba
  dirty : b.dirty = true → b.uptodate = true
  clean : b.dirty = false → disk b.lba = flat b.lba

/-- The buffers `h` and the disk hold the last contents of every block. -/
structure Coupled (flat disk : ℕ → α) (h : ℕ → Option (Buf α)) : Prop where
  buf : ∀ i b, h i = some b → Holds flat disk b
  rest : ∀ lba, (∀ i b, h i = some b → b.lba ≠ lba) → disk lba = flat lba

/-- Nobody has to flush a dirty buffer but `ext4_block_cache_flush`. -/
def Settled (h : ℕ → Option (Buf α)) : Prop :=
  ∀ i b, h i = some b → b.refctr = 0 → b.dirty = true → b.onDirtyList = true

/-- The disk only comes closer to the flat array. -/
def Closer (flat disk disk' : ℕ → α) : Prop := ∀ lba, disk' lba = disk lba ∨ disk' lba = flat lba

variable {s s' : Bcache α} {flat disk disk' : ℕ → α} {h : ℕ → Option (Buf α)} {id : ℕ} {b b' : Buf α}

theorem Closer.refl (flat disk : ℕ → α) : Closer flat disk disk := fun _ => .inl rfl

theorem Closer.at (hd : Closer flat disk disk') {lba : ℕ} (h : disk lba = flat lba) :
    disk' lba = flat lba :=
  (hd lba).elim (fun h' => h'.trans h) id

theorem Holds.closer (hb : Holds flat disk b) (hd : Closer flat disk disk') : Holds flat disk' b :=
  { hb with clean := fun h => hd.at (hb.clean h) }

/-- A change of one buffer, after which it still holds its block. -/
theorem Coupled.update (hc : Coupled flat disk h) (hb : h id = some b) (hd : Closer flat disk disk')
    (hlba : b'.lba = b.lba) (hb' : Holds flat disk' b') :
    Coupled flat disk' (Function.update h id (some b')) := by
  constructor
  · intro i c hi
    by_cases hne : i = id
    · subst hne
      rw [Function.update_self] at hi
      rwa [← Option.some_inj.1 hi]
    · rw [Function.update_of_ne hne] at hi
      exact (hc.buf i c hi).closer hd
  · intro lba hnone
    refine hd.at (hc.rest lba fun i c hi => ?_)
    by_cases hne : i = id
    · subst hne
      rw [hb] at hi
      rw [← Option.some_inj.1 hi, ← hlba]
      exact hnone i b' (Function.update_self ..)
    · exact hnone i c (by rwa [Function.update_of_ne hne])

/-- A clean buffer can be dropped. -/
theorem Coupled.drop (hc : Coupled flat disk h) (hb : h id = some b) (hd : Closer flat disk disk')
    (hlba : b'.lba = b.lba) (hb' : Holds flat disk' b') (hclean : b'.dirty = false) :
    Coupled flat disk' (Function.update h id none) := by
  constructor
  · intro i c hi
    by_cases hne : i = id
    · subst hne
      simp at hi
    · rw [Function.update_of_ne hne] at hi
      exact (hc.buf i c hi).closer hd
  · intro lba hnone
    by_cases hl : lba = b.lba
    · rw [hl, ← hlba]
      exact hb'.clean hclean
    · refine hd.at (hc.rest lba fun i c hi => ?_)
      by_cases hne : i = id
      · subst hne
        rw [hb] at hi
        rw [← Option.some_inj.1 hi]
        exact Ne.symm hl
      · exact hnone i c (by rwa [Function.update_of_ne hne])

/-- A new buffer holds nothing yet. -/
theorem Coupled.insert (hc : Coupled flat disk h) (hfresh : ∀ i c, h i = some c → c.lba ≠ b.lba)
    (hu : b.uptodate = false) (hd : b.dirty = false) (hnew : h id = none) :
    Coupled flat disk (Function.update h id (some b)) := by
  constructor
  · intro i c hi
    by_cases hne : i = id
    · subst hne
      rw [Function.update_self] at hi
      obtain rfl := Option.some_inj.1 hi
      exact ⟨fun h => absurd h (by simp [hu]), fun h => absurd h (by simp [hd]), fun _ => hc.rest _ hfresh⟩
    · rw [Function.update_of_ne hne] at hi
      exact hc.buf i c hi
  · intro lba hnone
    refine hc.rest lba fun i c hi => ?_
    have hne : i ≠ id := by
      rintro rfl
      rw [hnew] at hi
      exact absurd hi (by simp)
    exact hnone i c (by rwa [Function.update_of_ne hne])

/-- A store through a buffer. -/
theorem Coupled.store (hc : Coupled flat disk h) (hb : h id = some b)
    (hinj : ∀ i c, h i = some c → c.lba = b.lba → i = id) (hlba : b'.lba = b.lba)
    (hu : b'.uptodate = true) (hd : b'.dirty = true) :
    Coupled (Function.update flat b.lba b'.data) disk (Function.update h id (some b')) := by
  constructor
  · intro i c hi
    by_cases hne : i = id
    · subst hne
      rw [Function.update_self] at hi
      obtain rfl := Option.some_inj.1 hi
      exact ⟨fun _ => by rw [hlba, Function.update_self], fun _ => hu, fun h => absurd h (by simp [hd])⟩
    · rw [Function.update_of_ne hne] at hi
      have hother : c.lba ≠ b.lba := fun heq => hne (hinj i c hi heq)
      have hold := hc.buf i c hi
      refine ⟨fun h => ?_, hold.dirty, fun h => ?_⟩
      · rw [Function.update_of_ne hother]
        exact hold.data h
      · rw [Function.update_of_ne hother]
        exact hold.clean h
  · intro lba hnone
    have hl : lba ≠ b.lba := by
      rintro rfl
      exact hnone id b' (Function.update_self ..) hlba
    rw [Function.update_of_ne hl]
    refine hc.rest lba fun i c hi => ?_
    by_cases hne : i = id
    · subst hne
      rw [hb] at hi
      rw [← Option.some_inj.1 hi]
      exact Ne.symm hl
    · exact hnone i c (by rwa [Function.update_of_ne hne])

theorem Settled.update {o : Option (Buf α)} (hs : Settled h)
    (ho : ∀ b, o = some b → b.refctr = 0 → b.dirty = true → b.onDirtyList = true) :
    Settled (Function.update h id o) := by
  intro i c hi
  by_cases hne : i = id
  · subst hne
    rw [Function.update_self] at hi
    exact ho c hi
  · rw [Function.update_of_ne hne] at hi
    exact hs i c hi

/-! ## Working on a buffer -/

/-- Work on a buffer that writes nothing but what was last stored to it. -/
structure Works (flat : ℕ → α) (s s' : Bcache α) (b b' : Buf α) : Prop extends Kept s s' b b' where
  faults : s'.faults = []
  closer : Closer flat s.disk s'.disk
  holds : Holds flat s'.disk b'

theorem works_removeDirty (hf : s.faults = []) (hb : Holds flat s.disk b) (id : ℕ) :
    Works flat s (s.removeDirtyNode id b).1 b (s.removeDirtyNode id b).2 := by
  refine { kept_removeDirty s id b with faults := ?_, closer := ?_, holds := ?_ }
  all_goals
    unfold removeDirtyNode
    split_ifs
  exacts [hf, hf, Closer.refl flat s.disk, Closer.refl flat s.disk, ⟨hb.data, hb.dirty, hb.clean⟩, hb]

theorem works_insertDirty (hf : s.faults = []) (hb : Holds flat s.disk b) (id : ℕ) :
    Works flat s (s.insertDirtyNode id b).1 b (s.insertDirtyNode id b).2 := by
  refine { kept_insertDirty s id b with faults := ?_, closer := ?_, holds := ?_ }
  all_goals
    unfold insertDirtyNode
    split_ifs
  exacts [hf, hf, Closer.refl flat s.disk, Closer.refl flat s.disk, hb, ⟨hb.data, hb.dirty, hb.clean⟩]

theorem bwrite_ok (hf : s.faults = []) (lba : ℕ) (data : α) :
    s.bwrite lba data = (true, { s with disk := Function.update s.disk lba data }) := by
  rw [bwrite, hf]

/-- **`ext4_block_flush_buf`** succeeds and leaves the buffer clean. -/
theorem works_flushBuf (hf : s.faults = []) (hb : Holds flat s.disk b) (id : ℕ) :
    (s.flushBuf id b).1 = none ∧ Works flat s (s.flushBuf id b).2.1 b (s.flushBuf id b).2.2 ∧
      (s.flushBuf id b).2.2.dirty = false := by
  rw [flushBuf]
  by_cases hd : b.dirty = true
  · have hu := hb.dirty hd
    rw [if_pos (by rw [hd, hu]; rfl), bwrite_ok hf]
    have hcloser : Closer flat s.disk (Function.update s.disk b.lba b.data) := by
      intro lba
      by_cases hl : lba = b.lba
      · subst hl
        exact .inr (by rw [Function.update_self, hb.data hu])
      · exact .inl (by rw [Function.update_of_ne hl])
    have hw := works_removeDirty (s := { s with disk := Function.update s.disk b.lba b.data }) hf
      (hb.closer hcloser) id
    have hdisk : ({ s with disk := Function.update s.disk b.lba b.data } :
      Bcache α).removeDirtyNode id b |>.1.disk =
        Function.update s.disk b.lba b.data := by
      unfold removeDirtyNode
      split_ifs <;> rfl
    refine ⟨rfl, ?_, rfl⟩
    refine ⟨⟨hw.heap, hw.lruRoot, hw.lba, hw.lruId, hw.refctr, hw.uptodate, hw.tmp⟩, hw.faults, ?_, ?_⟩
    · rw [hdisk]
      exact hcloser
    · refine ⟨hw.holds.data, fun h => absurd h Bool.false_ne_true, fun _ => ?_⟩
      rw [hdisk]
      show Function.update s.disk b.lba b.data _ = flat _
      rw [hw.lba, Function.update_self, hb.data hu]
  · rw [if_neg (by simp [hd])]
    exact ⟨rfl, ⟨⟨rfl, rfl, rfl, rfl, rfl, rfl, rfl⟩, hf, Closer.refl flat s.disk, hb⟩, by simpa using hd⟩

/-- A buffer that is ready to be flushed is clean afterwards or on the dirty
    list, and not there if it is temporary. -/
theorem works_ready (hf : s.faults = []) (hb : Holds flat s.disk b) (id : ℕ) :
    Works flat s (s.ready id b).1 b (s.ready id b).2 ∧
      ((s.ready id b).2.dirty = true → (s.ready id b).2.onDirtyList = true ∧ b.tmp = false) := by
  rw [ready]
  split_ifs with hd hback
  · refine ⟨works_insertDirty hf hb id, fun _ => ⟨?_, hback.2.2⟩⟩
    unfold insertDirtyNode
    split_ifs with hon
    · exact hon
    · rfl
  · obtain ⟨-, hw, hclean⟩ := works_flushBuf hf hb id
    generalize s.flushBuf id b = r at hw hclean
    obtain ⟨e, s₁, b₁⟩ := r
    refine ⟨⟨⟨hw.heap, hw.lruRoot, hw.lba, hw.lruId, hw.refctr, hw.uptodate, hw.tmp⟩, hw.faults,
      hw.closer, ⟨hw.holds.data, hw.holds.dirty, hw.holds.clean⟩⟩, fun h => ?_⟩
    exact absurd (hclean.symm.trans h) Bool.false_ne_true
  · refine ⟨⟨⟨rfl, rfl, rfl, rfl, rfl, rfl, rfl⟩, hf, Closer.refl flat s.disk, hb⟩, fun h => ?_⟩
    exact absurd (Bool.and_eq_true_iff.2 ⟨h, hb.dirty h⟩) hd

theorem dropBuf_effect (hs : s.dropBuf id b = some s') :
    s'.heap = Function.update s.heap id none ∧ s'.disk = s.disk ∧ s'.faults = s.faults := by
  have hnode : ∀ s₁ : Bcache α, (if b.dirty then (s₁.removeDirtyNode id b).1 else s₁).heap = s₁.heap ∧
      (if b.dirty then (s₁.removeDirtyNode id b).1 else s₁).disk = s₁.disk ∧
      (if b.dirty then (s₁.removeDirtyNode id b).1 else s₁).faults = s₁.faults := by
    intro s₁
    unfold removeDirtyNode
    split_ifs <;> exact ⟨rfl, rfl, rfl⟩
  rw [dropBuf, Option.map_eq_some_iff] at hs
  obtain ⟨s₁, hs₁, rfl⟩ := hs
  obtain ⟨hheap, hdisk, hfaults⟩ := hnode s₁
  have h₁ : s₁.heap = s.heap ∧ s₁.disk = s.disk ∧ s₁.faults = s.faults := by
    split_ifs at hs₁
    · unfold lruRemove at hs₁
      split_ifs at hs₁
      obtain rfl := Option.some_inj.1 hs₁
      exact ⟨rfl, rfl, rfl⟩
    · obtain rfl := Option.some_inj.1 hs₁
      exact ⟨rfl, rfl, rfl⟩
  exact ⟨by rw [← h₁.1, ← hheap], hdisk.trans h₁.2.1, hfaults.trans h₁.2.2⟩

/-! ## Calls -/

/-- The cache holds `flat`. -/
structure Sim (s : Bcache α) (flat : ℕ → α) : Prop where
  inv : s.Inv
  faults : s.faults = []
  coupled : Coupled flat s.disk s.heap
  settled : Settled s.heap

theorem Sim.of (hi : s.Inv) (h : s.faults = [] ∧ Coupled flat s.disk s.heap ∧ Settled s.heap) :
    Sim s flat :=
  ⟨hi, h.1, h.2.1, h.2.2⟩

theorem sim_init (cnt lgBcnt : ℕ) (disk : ℕ → α) : Sim (init cnt lgBcnt disk []) disk where
  inv := inv_init ..
  faults := rfl
  coupled := ⟨fun i b h => absurd h (by simp [init]), fun _ _ => rfl⟩
  settled := fun i b h => absurd h (by simp [init])

theorem lruInsert_effect (s : Bcache α) (id : ℕ) (b : Buf α) : (s.lruInsert id b).heap = s.heap ∧
    (s.lruInsert id b).disk = s.disk ∧ (s.lruInsert id b).faults = s.faults := by
  unfold lruInsert
  split_ifs <;> exact ⟨rfl, rfl, rfl⟩

/-- **`ext4_block_set`** loses no data. -/
theorem Sim.free (hs : Sim s flat) (hb : s.heap id = some b) (hlba : b.lba ≠ 0) (href : b.refctr ≠ 0)
    (hclash : s.NoClash id) : ∃ s', s.free id = some s' ∧ Sim s' flat := by
  obtain ⟨s', hs', hi'⟩ := hs.inv.free hb hlba href hclash
  have hok := hs.inv.ok id b hb
  have hold := hs.coupled.buf id b hb
  have hdec : Holds flat s.disk (dec b) := ⟨hold.data, hold.dirty, hold.clean⟩
  refine ⟨s', hs', .of hi' ?_⟩
  rw [free_eq s hb, if_neg (not_or.2 ⟨hlba, href⟩)] at hs'
  by_cases hlast : (dec b).refctr = 0
  · rw [if_pos hlast] at hs'
    obtain ⟨hheap, hdisk, hfaults⟩ := lruInsert_effect s id (dec b)
    obtain ⟨hw, hlist⟩ := @works_ready _ (s.lruInsert id (dec b)) flat _
      (hfaults.trans hs.faults) (by rw [hdisk]; exact hdec) id
    generalize (s.lruInsert id (dec b)).ready id (dec b) = r at hw hlist hs'
    obtain ⟨s₁, b₁⟩ := r
    have hheap₁ : s₁.heap = s.heap := hw.heap.trans hheap
    have hcloser : Closer flat s.disk s₁.disk := by
      rw [← hdisk]
      exact hw.closer
    simp only at hs'
    split_ifs at hs' with hkeep
    · obtain rfl := Option.some_inj.1 hs'
      refine ⟨hw.faults, ?_, ?_⟩
      · show Coupled flat s₁.disk (Function.update s₁.heap id (some b₁))
        rw [hheap₁]
        exact hs.coupled.update hb hcloser hw.lba hw.holds
      · show Settled (Function.update s₁.heap id (some b₁))
        rw [hheap₁]
        exact hs.settled.update fun c hc _ hd => by
          obtain rfl := Option.some_inj.1 hc
          exact (hlist hd).1
    · obtain ⟨hheap', hdisk', hfaults'⟩ := dropBuf_effect hs'
      -- a dirty buffer is up-to-date and not temporary, hence kept
      have hclean : b₁.dirty = false := by
        by_contra hd
        have hd' : b₁.dirty = true := by simpa using hd
        have htmp : b₁.tmp = false := hw.tmp.trans (hlist hd').2
        exact hkeep (by rw [hw.holds.dirty hd', htmp]; rfl)
      refine ⟨hfaults'.trans hw.faults, ?_, ?_⟩
      · rw [hheap', hdisk', hheap₁]
        exact hs.coupled.drop hb hcloser hw.lba hw.holds hclean
      · rw [hheap', hheap₁]
        exact hs.settled.update fun c hc => absurd hc (by simp)
  · have hread : (dec b).refctr ≠ (dec b).readRefctr := fun h => hlast (h.trans hok.read)
    rw [if_neg hlast, if_neg hread] at hs'
    obtain rfl := Option.some_inj.1 hs'
    refine ⟨hs.faults, ?_, ?_⟩
    · exact hs.coupled.update hb (Closer.refl flat s.disk) rfl hdec
    · exact hs.settled.update fun c hc h0 => absurd h0 (by rw [← Option.some_inj.1 hc]; exact hlast)

/-- What a look-up does to the buffer it finds. -/
structure Found (s s' : Bcache α) (id : ℕ) (b b' : Buf α) : Prop where
  heap : s'.heap = Function.update s.heap id (some b')
  disk : s'.disk = s.disk
  faults : s'.faults = s.faults
  lba : b'.lba = b.lba
  data : b'.data = b.data
  uptodate : b'.uptodate = b.uptodate
  dirty : b'.dirty = b.dirty
  ref : b'.refctr ≠ 0
  idle : b.refctr = 0 → b'.lruId = u32 (s.lruCtr + 1) ∧ s'.lruRoot = s.lruRoot.erase id
  busy : b.refctr ≠ 0 → b'.refctr ≠ 1

theorem findGet_found (hi : s.Inv) {lba : ℕ} (hl : s.lookup lba = some (id, b))
    (hwrap : b.refctr + 1 < 2 ^ 32) : ∃ s' b', s.findGet lba = some (s', some id) ∧ Found s s' id b b' := by
  obtain ⟨hb, -⟩ := lookup_some hl
  have hok := hi.ok id b hb
  rw [Bcache.findGet, hl]
  simp only
  by_cases h0 : b.refctr = 0
  · rw [if_pos h0]
    have hmem : id ∈ s.lruRoot := (hi.lru id).2 ⟨b, hb, h0⟩
    rw [lruRemove, if_pos hmem, Option.map_some]
    simp only [removeDirty_of_ok _ id hok]
    have hsnd := removeDirtyNode_snd { s with lruRoot := s.lruRoot.erase id } id b
    have hk := kept_removeDirty { s with lruRoot := s.lruRoot.erase id } id b
    have hsame : (({ s with lruRoot := s.lruRoot.erase id } : Bcache α).removeDirtyNode id b).1.disk = s.disk ∧
        (({ s with lruRoot := s.lruRoot.erase id } : Bcache α).removeDirtyNode id b).1.faults = s.faults := by
      unfold removeDirtyNode
      split_ifs <;> exact ⟨rfl, rfl⟩
    generalize ({ s with lruRoot := s.lruRoot.erase id } : Bcache α).removeDirtyNode id b = r at hsnd hk hsame
    obtain ⟨s₁, c⟩ := r
    obtain rfl : c = { b with onDirtyList := false } := hsnd
    refine ⟨_, { b with onDirtyList := false, lruId := u32 (s.lruCtr + 1), refctr := 1 }, rfl, ?_,
      hsame.1, hsame.2, rfl, rfl, rfl, rfl, Nat.one_ne_zero, fun _ => ⟨rfl, hk.lruRoot⟩,
      fun h => absurd h0 h⟩
    show Function.update s₁.heap id _ = _
    rw [hk.heap]
  · rw [if_neg h0]
    have hone := u32_of_lt hwrap
    refine ⟨_, _, rfl, rfl, rfl, rfl, rfl, rfl, rfl, rfl, ?_, fun h => absurd h h0, fun _ => ?_⟩
    · exact hone.trans_ne (Nat.succ_ne_zero _)
    · exact hone.trans_ne (by omega)

theorem Found.sim (hf : Found s s' id b b') (hs : Sim s flat) (hb : s.heap id = some b) (hi' : s'.Inv) :
    Sim s' flat := by
  have hold := hs.coupled.buf id b hb
  refine ⟨hi', hf.faults.trans hs.faults, ?_, ?_⟩
  · rw [hf.heap, hf.disk]
    refine hs.coupled.update hb (Closer.refl flat s.disk) hf.lba ⟨fun h => ?_, fun h => ?_, fun h => ?_⟩
    · rw [hf.data, hf.lba]
      exact hold.data (hf.uptodate.symm.trans h)
    · rw [hf.uptodate]
      exact hold.dirty (hf.dirty.symm.trans h)
    · rw [hf.lba]
      exact hold.clean (hf.dirty.symm.trans h)
  · rw [hf.heap]
    exact hs.settled.update fun c hc h0 => absurd h0 (by rw [← Option.some_inj.1 hc]; exact hf.ref)

/-- **`ext4_bcache_alloc`**: the buffer it returns is one of the block. -/
theorem Sim.alloc (hs : Sim s flat) {lba : ℕ} (hwrap : s.NoWrap lba)
    (hroom : s.lookup lba = none → s.refBlocks + 1 < 2 ^ 32) (oom : Bool) (stale : α) :
    ∃ s' r, s.alloc lba oom stale = some (s', r) ∧ Sim s' flat ∧ (oom = false → r ≠ none) ∧
      ∀ id, r = some id → ∃ b, s'.heap id = some b ∧ b.lba = lba ∧ b.refctr ≠ 0 := by
  obtain ⟨s', r, hs', hi'⟩ := hs.inv.alloc hwrap hroom oom stale
  refine ⟨s', r, hs', ?_⟩
  cases hl : s.lookup lba with
  | some p =>
    obtain ⟨id, b⟩ := p
    obtain ⟨s₁, b₁, hs₁, hf⟩ := findGet_found hs.inv hl (hwrap _ hl)
    obtain ⟨hb, hlba⟩ := lookup_some hl
    rw [Bcache.alloc, hs₁] at hs'
    obtain ⟨rfl, rfl⟩ := Prod.mk.inj (Option.some_inj.1 hs')
    refine ⟨hf.sim hs hb hi', fun _ => by simp, fun i hi => ?_⟩
    obtain rfl := Option.some_inj.1 hi
    exact ⟨b₁, by rw [hf.heap, Function.update_self], hf.lba.trans hlba, hf.ref⟩
  | none =>
    have hfind : s.findGet lba = some (s, none) := by rw [Bcache.findGet, hl]
    rw [Bcache.alloc, hfind] at hs'
    cases oom with
    | true =>
      obtain ⟨rfl, rfl⟩ := Prod.mk.inj (Option.some_inj.1 hs')
      exact ⟨hs, fun h => absurd h (by simp), fun i hi => absurd hi (by simp)⟩
    | false =>
      obtain ⟨rfl, rfl⟩ := Prod.mk.inj (Option.some_inj.1 hs')
      have hfresh : s.heap s.next = none := by
        by_contra hne
        obtain ⟨c, hc⟩ := Option.ne_none_iff_exists'.1 hne
        exact absurd (hs.inv.fresh _ c hc) (lt_irrefl _)
      refine ⟨⟨hi', hs.faults, ?_, ?_⟩, fun _ => by simp, fun i hi => ?_⟩
      · rw [newBuf_heap]
        exact hs.coupled.insert (lookup_none hs.inv hl) rfl rfl hfresh
      · rw [newBuf_heap]
        exact hs.settled.update fun c hc h0 => absurd h0 (by rw [← Option.some_inj.1 hc]; exact Nat.one_ne_zero)
      · obtain rfl := Option.some_inj.1 hi
        exact ⟨_, by rw [newBuf_heap, Function.update_self], rfl, Nat.one_ne_zero⟩

/-- A change of a referenced buffer that stores nothing. -/
theorem Sim.modify (hs : Sim s flat) (hb : s.heap id = some b) (href : b.refctr ≠ 0) (f : Buf α → Buf α)
    (hlba : (f b).lba = b.lba) (hf : (f b).refctr ≠ 0) (hlist : (f b).onDirtyList = b.onDirtyList)
    (hread : (f b).readRefctr = b.readRefctr) (hholds : Holds flat s.disk (f b)) :
    ∃ s', s.modify id f = some s' ∧ Sim s' flat := by
  obtain ⟨s', hs', hi'⟩ := hs.inv.modify hb href f hlba hf hlist hread
  refine ⟨s', hs', .of hi' ?_⟩
  rw [Bcache.modify, hb] at hs'
  obtain rfl := Option.some_inj.1 hs'
  exact ⟨hs.faults, hs.coupled.update hb (Closer.refl flat s.disk) hlba hholds,
    hs.settled.update fun c hc h0 => absurd h0 (by rw [← Option.some_inj.1 hc]; exact hf)⟩

/-- Modifying a buffer and `ext4_bcache_set_dirty`. -/
theorem Sim.setDirty (hs : Sim s flat) (hb : s.heap id = some b) (href : b.refctr ≠ 0) (data : α) :
    ∃ s', s.setDirty id data = some s' ∧ Sim s' (Function.update flat b.lba data) := by
  obtain ⟨s', hs', hi'⟩ := hs.inv.modify hb href
    (fun b => { b with data := data, uptodate := true, dirty := true }) rfl href rfl rfl
  refine ⟨s', hs', .of hi' ?_⟩
  rw [Bcache.modify, hb] at hs'
  obtain rfl := Option.some_inj.1 hs'
  exact ⟨hs.faults,
    @Coupled.store _ _ _ _ _ _ { b with data := data, uptodate := true, dirty := true } hs.coupled hb
      (fun i c hc heq => hs.inv.inj i id c b hc hb heq) rfl rfl rfl,
    hs.settled.update fun c hc h0 => absurd h0 (by rw [← Option.some_inj.1 hc]; exact href)⟩

/-! ## Flushing and shaking -/

theorem Sim.setBuf (hs : Sim s flat) {s₁ : Bcache α} (hw : Works flat s s₁ b b') (hb : s.heap id = some b)
    (hi' : (s₁.setBuf id b').Inv) (hclean : b'.dirty = false) : Sim (s₁.setBuf id b') flat := by
  refine ⟨hi', hw.faults, ?_, ?_⟩
  · show Coupled flat s₁.disk (Function.update s₁.heap id (some b'))
    rw [hw.heap]
    exact hs.coupled.update hb hw.closer hw.lba hw.holds
  · show Settled (Function.update s₁.heap id (some b'))
    rw [hw.heap]
    exact hs.settled.update fun c hc _ hd => absurd hd (by rw [← Option.some_inj.1 hc, hclean]; simp)

theorem flushLoop_sim (fuel : ℕ) (hs : Sim s flat) {r : Option Errno}
    (hrun : flushLoop fuel s = some (r, s')) : r = none ∧ Sim s' flat := by
  induction fuel generalizing s with
  | zero => exact absurd hrun (by simp [flushLoop])
  | succ fuel ih =>
    rw [flushLoop] at hrun
    cases hlist : s.dirtyList with
    | nil =>
      rw [hlist] at hrun
      obtain ⟨rfl, rfl⟩ := Prod.mk.inj (Option.some_inj.1 hrun)
      exact ⟨rfl, hs⟩
    | cons id rest =>
      rw [hlist] at hrun
      obtain ⟨b, hb, hon⟩ := (hs.inv.dirty id).1 (by rw [hlist]; exact List.mem_cons_self)
      obtain ⟨hi₁, -⟩ := hs.inv.flushRound hb hon
      obtain ⟨hnone, hw, hclean⟩ := works_flushBuf hs.faults (hs.coupled.buf id b hb) id
      simp only [hb] at hrun
      generalize s.flushBuf id b = r at hi₁ hnone hw hclean hrun
      obtain ⟨e, s₁, b₁⟩ := r
      obtain rfl : e = none := hnone
      exact ih (hs.setBuf hw hb hi₁ hclean) hrun

/-- After **`ext4_block_cache_flush`** the disk holds every released block. -/
theorem Sim.cacheFlush (hs : Sim s flat) : ∃ s', s.cacheFlush = some (none, s') ∧ Sim s' flat ∧
    s'.dirtyList = [] := by
  obtain ⟨r, s', hs', -, hempty⟩ := hs.inv.cacheFlush
  obtain ⟨rfl, hsim⟩ := flushLoop_sim _ hs hs'
  exact ⟨s', hs', hsim, hempty rfl⟩

/-- A block is released when nobody has a reference to its buffer. -/
def Released (s : Bcache α) (lba : ℕ) : Prop := ∀ i b, s.heap i = some b → b.lba = lba → b.refctr = 0

theorem Sim.disk_of_released (hs : Sim s flat) (hempty : s.dirtyList = []) {lba : ℕ}
    (hrel : s.Released lba) : s.disk lba = flat lba := by
  by_cases hcached : ∃ i b, s.heap i = some b ∧ b.lba = lba
  · obtain ⟨i, b, hb, rfl⟩ := hcached
    refine (hs.coupled.buf i b hb).clean ?_
    by_contra hd
    have hon := hs.settled i b hb (hrel i b hb rfl) (by simpa using hd)
    have hmem := (hs.inv.dirty i).2 ⟨b, hb, hon⟩
    rw [hempty] at hmem
    exact absurd hmem (by simp)
  · exact hs.coupled.rest lba fun i b hb hl => hcached ⟨i, b, hb, hl⟩

/-- What shaking leaves of the cache. -/
def Shrinks (s s' : Bcache α) : Prop := ∀ i b', s'.heap i = some b' →
  ∃ b, s.heap i = some b ∧ b'.lba = b.lba ∧ b'.refctr = b.refctr

theorem shakeLoop_sim (fuel : ℕ) (hs : Sim s flat) {r : Option Errno}
    (hrun : shakeLoop fuel s = some (r, s')) : r = none ∧ Sim s' flat ∧ Shrinks s s' := by
  induction fuel generalizing s with
  | zero => exact absurd hrun (by simp [shakeLoop])
  | succ fuel ih =>
    have hstop : Shrinks s s := fun i b hb => ⟨b, hb, rfl, rfl⟩
    rw [shakeLoop] at hrun
    cases hlow : s.lowestLru with
    | none =>
      rw [hlow] at hrun
      obtain ⟨rfl, rfl⟩ := Prod.mk.inj (Option.some_inj.1 hrun)
      exact ⟨rfl, hs, hstop⟩
    | some id =>
      rw [hlow] at hrun
      obtain ⟨b, hb, h0⟩ := hs.inv.lowestLru hlow
      by_cases hroom : s.refBlocks < s.cnt
      · simp only [if_pos hroom] at hrun
        obtain ⟨rfl, rfl⟩ := Prod.mk.inj (Option.some_inj.1 hrun)
        exact ⟨rfl, hs, hstop⟩
      simp only [if_neg hroom, hb] at hrun
      obtain ⟨-, s₂, hs₂, hi₂, -⟩ := hs.inv.shakeRound hb h0
      have hold := hs.coupled.buf id b hb
      obtain ⟨hnone, hw, hclean⟩ : (if b.dirty then s.flushBuf id b else (none, s, b)).1 = none ∧
          Works flat s (if b.dirty then s.flushBuf id b else (none, s, b)).2.1 b
            (if b.dirty then s.flushBuf id b else (none, s, b)).2.2 ∧
          (if b.dirty then s.flushBuf id b else (none, s, b)).2.2.dirty = false := by
        split_ifs with hd
        · exact works_flushBuf hs.faults hold id
        · exact ⟨rfl, ⟨⟨rfl, rfl, rfl, rfl, rfl, rfl, rfl⟩, hs.faults, Closer.refl flat s.disk, hold⟩,
            by simpa using hd⟩
      generalize (if b.dirty then s.flushBuf id b else (none, s, b)) = r₁ at hs₂ hnone hw hclean hrun
      obtain ⟨e, s₁, b₁⟩ := r₁
      obtain rfl : e = none := hnone
      simp only [show s₁.dropBuf id b₁ = some s₂ from hs₂, Option.bind_some] at hrun
      obtain ⟨hheap, hdisk, hfaults⟩ := dropBuf_effect hs₂
      have hheap₁ : s₂.heap = Function.update s.heap id none := by rw [hheap, hw.heap]
      have hsim : Sim s₂ flat := by
        refine .of hi₂ ⟨hfaults.trans hw.faults, ?_, ?_⟩
        · rw [hheap₁, hdisk]
          exact hs.coupled.drop hb hw.closer hw.lba hw.holds hclean
        · rw [hheap₁]
          exact hs.settled.update fun c hc => absurd hc (by simp)
      obtain ⟨hr, hsim', hshrink⟩ := ih hsim hrun
      refine ⟨hr, hsim', fun i c hc => ?_⟩
      obtain ⟨d, hd, hlba, href⟩ := hshrink i c hc
      rw [hheap₁] at hd
      have hne : i ≠ id := by
        rintro rfl
        rw [Function.update_self] at hd
        exact absurd hd (by simp)
      exact ⟨d, by rwa [Function.update_of_ne hne] at hd, hlba, href⟩

theorem Sim.congr (hs : Sim s flat) (n : ℕ) (dontShake : Bool) :
    Sim ({ s with cacheWriteBack := n, dontShake := dontShake } : Bcache α) flat :=
  .of { hs.inv with } ⟨hs.faults, hs.coupled, hs.settled⟩

/-- **`ext4_block_cache_shake`** drops only buffers whose block is on the disk. -/
theorem Sim.cacheShake (hs : Sim s flat) :
    ∃ s', s.cacheShake = some (none, s') ∧ Sim s' flat ∧ Shrinks s s' := by
  obtain ⟨r, s', hs', -⟩ := hs.inv.cacheShake
  rw [Bcache.cacheShake] at hs'
  split_ifs at hs' with hdont
  · obtain ⟨rfl, rfl⟩ := Prod.mk.inj (Option.some_inj.1 hs')
    exact ⟨s, by rw [Bcache.cacheShake, if_pos hdont], hs, fun i b hb => ⟨b, hb, rfl, rfl⟩⟩
  · obtain ⟨⟨r₁, s₁⟩, hrun, heq⟩ := Option.map_eq_some_iff.1 hs'
    obtain ⟨rfl, hsim, hshrink⟩ := shakeLoop_sim _ (hs.congr s.cacheWriteBack true) hrun
    refine ⟨{ s₁ with dontShake := false }, ?_, hsim.congr s₁.cacheWriteBack false, hshrink⟩
    rw [Bcache.cacheShake, if_neg hdont, hrun, Option.map_some]

theorem Shrinks.refBlocks (hsh : Shrinks s s') (hi : s.Inv) (hi' : s'.Inv) :
    s'.refBlocks ≤ s.refBlocks := by
  rw [hi.ref, hi'.ref]
  refine (List.subperm_of_subset hi'.lbaNodup fun i hmem => ?_).length_le
  obtain ⟨c, hc⟩ := Option.ne_none_iff_exists'.1 ((hi'.lba i).1 hmem)
  obtain ⟨b, hb, -⟩ := hsh i c hc
  exact (hi.lba i).2 (by simp [hb])

/-- The counters have room for one reference more to the block. -/
def Room (s : Bcache α) (lba : ℕ) : Prop :=
  (∀ i b, s.heap i = some b → b.lba = lba → b.refctr + 1 < 2 ^ 32) ∧ s.refBlocks + 1 < 2 ^ 32

theorem Room.noWrap {lba : ℕ} (hr : s.Room lba) : s.NoWrap lba := by
  rintro ⟨i, b⟩ hl
  obtain ⟨hb, hlba⟩ := lookup_some hl
  exact hr.1 i b hb hlba

theorem Room.shrinks {lba : ℕ} (hr : s.Room lba) (hsh : Shrinks s s') (hi : s.Inv) (hi' : s'.Inv) :
    s'.Room lba := by
  constructor
  · intro i c hc hl
    obtain ⟨b, hb, hlba, href⟩ := hsh i c hc
    rw [href]
    exact hr.1 i b hb (hlba.symm.trans hl)
  · have hle := hsh.refBlocks hi hi'
    have hlt := hr.2
    omega

/-- What a call that looks for a block returns: one of the errors that are not
    the device's, or a buffer of the block that the caller holds. -/
def Got (s : Bcache α) (lba : ℕ) (oom : Bool) (s' : Bcache α) (P : Buf α → Prop) :
    Except Errno ℕ → Prop
  | .error e => (e = Errno.ENXIO ∧ s.lgBcnt ≤ lba) ∨ (e = Errno.ENOMEM ∧ oom = true)
  | .ok id => ∃ b, s'.heap id = some b ∧ b.lba = lba ∧ b.refctr ≠ 0 ∧ P b

/-- **`ext4_block_get_noread`**. -/
theorem Sim.blockGetNoread (hs : Sim s flat) {lba : ℕ} (hroom : s.Room lba) (oom : Bool) (stale : α) :
    ∃ r s', s.blockGetNoread lba oom stale = some (r, s') ∧ Sim s' flat ∧
      Got s lba oom s' (fun _ => True) r := by
  rw [Bcache.blockGetNoread]
  by_cases hbig : s.lgBcnt ≤ lba
  · rw [if_pos hbig]
    exact ⟨_, _, rfl, hs, .inl ⟨rfl, hbig⟩⟩
  rw [if_neg hbig]
  obtain ⟨s₁, hs₁, hsim₁, hsh⟩ := hs.cacheShake
  have hroom₁ := hroom.shrinks hsh hs.inv hsim₁.inv
  obtain ⟨s₂, r, hs₂, hsim₂, hoom, hgot⟩ := hsim₁.alloc hroom₁.noWrap (fun _ => hroom₁.2) oom stale
  simp only [hs₁, hs₂]
  cases r with
  | none =>
    refine ⟨_, _, rfl, hsim₂, .inr ⟨rfl, ?_⟩⟩
    by_contra hno
    exact hoom (by simpa using hno) rfl
  | some id =>
    obtain ⟨b, hb, hlba, href⟩ := hgot id rfl
    exact ⟨_, _, rfl, hsim₂, b, hb, hlba, href, trivial⟩

/-- **`ext4_block_get`** returns what was last stored to the block. -/
theorem Sim.blockGet (hs : Sim s flat) {lba : ℕ} (hroom : s.Room lba) (oom : Bool) (stale : α) :
    ∃ r s', s.blockGet lba oom stale = some (r, s') ∧ Sim s' flat ∧
      Got s lba oom s' (fun b => b.data = flat lba) r := by
  obtain ⟨r, s₁, hs₁, hsim₁, hgot⟩ := hs.blockGetNoread hroom oom stale
  rw [Bcache.blockGet, hs₁]
  cases r with
  | error e => exact ⟨_, _, rfl, hsim₁, hgot⟩
  | ok id =>
    obtain ⟨b, hb, hlba, href, -⟩ := hgot
    have hold := hsim₁.coupled.buf id b hb
    simp only [hb]
    by_cases hu : b.uptodate = true
    · rw [if_pos hu]
      exact ⟨_, _, rfl, hsim₁, b, hb, hlba, href, hlba ▸ hold.data hu⟩
    · -- a buffer that is not up-to-date is not dirty either
      have hclean : b.dirty = false := by
        by_contra hd
        exact hu (hold.dirty (by simpa using hd))
      have hread : s₁.bread lba = (some (flat lba), s₁) := by
        rw [bread, hsim₁.faults, ← hlba, ← hold.clean hclean]
      obtain ⟨s₂, hs₂, hsim₂⟩ := hsim₁.modify hb href
        (fun b => { b with data := flat lba, uptodate := true }) rfl href rfl rfl
        ⟨fun _ => by rw [← hlba], fun _ => rfl, hold.clean⟩
      rw [Bcache.modify, hb] at hs₂
      obtain rfl := Option.some_inj.1 hs₂
      rw [if_neg hu, hread]
      exact ⟨_, _, rfl, hsim₂, _, Function.update_self .., hlba, href, rfl⟩

/-- A buffer that `ext4_block_flush_lba` looks up and returns gets an LRU id of
    its own. -/
def NoClashNext (s : Bcache α) (lba : ℕ) : Prop := ∀ id b, s.lookup lba = some (id, b) → b.refctr = 0 →
  ∀ i ∈ s.lruRoot, i ≠ id → ∀ b', s.heap i = some b' → b'.lruId ≠ u32 (s.lruCtr + 1)

theorem Found.noClash (hf : Found s s' id b b') (hi : s.Inv) {lba : ℕ} (hl : s.lookup lba = some (id, b))
    (hclash : s.NoClashNext lba) {s₁ : Bcache α} {c : Buf α} (hw : Works flat s' s₁ b' c) :
    (s₁.setBuf id c).NoClash id := by
  intro d hd hone i hmem e he
  obtain rfl : c = d := by
    rw [show (s₁.setBuf id c).heap id = some c from Function.update_self ..] at hd
    exact Option.some_inj.1 hd
  rw [show (s₁.setBuf id c).lruRoot = s'.lruRoot from hw.lruRoot] at hmem
  have h0 : b.refctr = 0 := by
    by_contra hne
    exact hf.busy hne (hw.refctr.symm.trans hone)
  obtain ⟨hlru, hroot⟩ := hf.idle h0
  rw [hroot] at hmem
  have hne : i ≠ id := by
    rintro rfl
    exact hi.lruNodup.not_mem_erase hmem
  have he' : s.heap i = some e := by
    rw [show (s₁.setBuf id c).heap i = s₁.heap i from Function.update_of_ne hne .., hw.heap, hf.heap,
      Function.update_of_ne hne] at he
    exact he
  rw [hw.lruId, hlru]
  exact hclash id b hl h0 i (List.mem_of_mem_erase hmem) hne e he'

/-- **`ext4_block_flush_lba`**. -/
theorem Sim.flushLba (hs : Sim s flat) {lba : ℕ} (hlba : lba ≠ 0) (hwrap : s.NoWrap lba)
    (hclash : s.NoClashNext lba) : ∃ s', s.flushLba lba = some (none, s') ∧ Sim s' flat := by
  rw [Bcache.flushLba]
  cases hl : s.lookup lba with
  | none =>
    have hfind : s.findGet lba = some (s, none) := by rw [Bcache.findGet, hl]
    rw [hfind]
    exact ⟨s, rfl, hs⟩
  | some p =>
    obtain ⟨id, b⟩ := p
    obtain ⟨s₁, b₁, hs₁, hf⟩ := findGet_found hs.inv hl (hwrap _ hl)
    obtain ⟨hb, hlba'⟩ := lookup_some hl
    obtain ⟨s₁', r, hs₁', hi₁, -⟩ := hs.inv.findGet hwrap
    rw [hs₁] at hs₁'
    obtain ⟨rfl, rfl⟩ := Prod.mk.inj (Option.some_inj.1 hs₁')
    have hsim₁ := hf.sim hs hb hi₁
    have hb₁ : s₁.heap id = some b₁ := by rw [hf.heap, Function.update_self]
    obtain ⟨hnone, hw, hclean⟩ := works_flushBuf hsim₁.faults (hsim₁.coupled.buf id b₁ hb₁) id
    have hi₂ : ((s₁.flushBuf id b₁).2.1.setBuf id (s₁.flushBuf id b₁).2.2).Inv := by
      obtain ⟨hw₂, hk⟩ := (hi₁.focus hb₁).flushBuf
      rw [← hk.heap] at hw₂
      exact hw₂.close (by rw [hk.refctr])
    simp only [hs₁, hb₁]
    generalize s₁.flushBuf id b₁ = r at hnone hw hclean hi₂
    obtain ⟨e, s₂, c⟩ := r
    obtain rfl : e = none := hnone
    have hlba₂ : c.lba ≠ 0 := by
      rw [show c.lba = lba from hw.lba.trans (hf.lba.trans hlba')]
      exact hlba
    have href₂ : c.refctr ≠ 0 := by
      rw [show c.refctr = b₁.refctr from hw.refctr]
      exact hf.ref
    obtain ⟨s₃, hs₃, hsim₃⟩ := (hsim₁.setBuf hw hb₁ hi₂ hclean).free (b := c) (Function.update_self ..)
      hlba₂ href₂ (hf.noClash hs.inv hl hclash hw)
    refine ⟨s₃, ?_, hsim₃⟩
    show ((s₂.setBuf id c).free id).map (fun s => (none, s)) = some (none, s₃)
    rw [hs₃, Option.map_some]

theorem Sim.cacheSetWriteBack (hs : Sim s flat) (on : Bool) :
    ∃ s', s.cacheSetWriteBack on = some (none, s') ∧ Sim s' flat := by
  rw [Bcache.cacheSetWriteBack]
  generalize hsn : (if on = true then ({ s with cacheWriteBack := u32 (s.cacheWriteBack + 1) } : Bcache α)
    else { s with cacheWriteBack := s.cacheWriteBack - 1 }) = s₁
  have hs₁ : Sim s₁ flat := by
    rw [← hsn]
    split_ifs
    · exact hs.congr _ s.dontShake
    · exact hs.congr _ s.dontShake
  by_cases hback : s₁.cacheWriteBack ≠ 0
  · simp only [if_pos hback]
    exact ⟨s₁, rfl, hs₁⟩
  · simp only [if_neg hback]
    obtain ⟨s₂, hs₂, hsim₂, -⟩ := hs₁.cacheFlush
    exact ⟨s₂, hs₂, hsim₂⟩

/-! ## Runs -/

/-- The calls of the block device. -/
inductive BlockOp (α : Type) where
  | get (lba : ℕ) (oom : Bool) (stale : α)
  | getNoread (lba : ℕ) (oom : Bool) (stale : α)
  | store (id : ℕ) (data : α)
  | set (id : ℕ)
  | setFlush (id : ℕ)
  | setTmp (id : ℕ)
  | flushLba (lba : ℕ)
  | cacheFlush
  | cacheShake
  | cacheWriteBack (on : Bool)

/-- The cache after a call, whatever the call returns. -/
def blockStep (s : Bcache α) : BlockOp α → Option (Bcache α)
  | .get lba oom stale => (s.blockGet lba oom stale).map Prod.snd
  | .getNoread lba oom stale => (s.blockGetNoread lba oom stale).map Prod.snd
  | .store id data => s.setDirty id data
  | .set id => s.free id
  | .setFlush id => s.modify id fun b => { b with flush := true }
  | .setTmp id => s.modify id fun b => { b with tmp := true }
  | .flushLba lba => (s.flushLba lba).map Prod.snd
  | .cacheFlush => s.cacheFlush.map Prod.snd
  | .cacheShake => s.cacheShake.map Prod.snd
  | .cacheWriteBack on => (s.cacheSetWriteBack on).map Prod.snd

/-- The flat array after a call: only a store changes it, at the block of the
    buffer. -/
def flatStep (s : Bcache α) (flat : ℕ → α) : BlockOp α → ℕ → α
  | .store id data => ((s.heap id).map fun b => Function.update flat b.lba data).getD flat
  | _ => flat

/-- Callers use buffers that they hold, and never return or flush block 0. -/
def BlockLegal (s : Bcache α) : BlockOp α → Prop
  | .store id _ | .setFlush id | .setTmp id => s.Referenced id
  | .set id => s.Returnable id
  | .flushLba lba => lba ≠ 0
  | .get .. | .getNoread .. | .cacheFlush | .cacheShake | .cacheWriteBack _ => True

/-- The counters of the cache do not wrap onto a value in use. -/
def BlockFits (s : Bcache α) : BlockOp α → Prop
  | .get lba .. | .getNoread lba .. => s.Room lba
  | .set id => s.NoClash id
  | .flushLba lba => s.NoWrap lba ∧ s.NoClashNext lba
  | .store .. | .setFlush _ | .setTmp _ | .cacheFlush | .cacheShake | .cacheWriteBack _ => True

/-- The states that calls with the property `P` lead to without device errors,
    and the flat array there. -/
inductive BlockReach (P : Bcache α → BlockOp α → Prop) : Bcache α → (ℕ → α) → Prop
  | init (cnt lgBcnt : ℕ) (disk : ℕ → α) : BlockReach P (init cnt lgBcnt disk []) disk
  | step {s s' : Bcache α} {flat : ℕ → α} (op : BlockOp α) (hs : BlockReach P s flat) (hop : P s op)
    (hstep : s.blockStep op = some s') : BlockReach P s' (s.flatStep flat op)

/-- The cache refines the flat array: every call succeeds, `ext4_block_get`
    returns the contents of the block, and a flush brings all released blocks
    to the disk. -/
structure Refines (P : Bcache α → BlockOp α → Prop) (s : Bcache α) (flat : ℕ → α) : Prop where
  call : ∀ op, P s op → ∃ s', s.blockStep op = some s'
  get : ∀ lba oom stale, P s (.get lba oom stale) → ∃ r s', s.blockGet lba oom stale = some (r, s') ∧
    Got s lba oom s' (fun b => b.data = flat lba) r
  flush : ∃ s', s.cacheFlush = some (none, s') ∧ ∀ lba, s'.Released lba → s'.disk lba = flat lba

/-- **One call** that is legal and fits. -/
theorem Sim.step (hs : Sim s flat) (op : BlockOp α) (hlegal : s.BlockLegal op) (hfits : s.BlockFits op) :
    ∃ s', s.blockStep op = some s' ∧ Sim s' (s.flatStep flat op) := by
  cases op with
  | get lba oom stale =>
    obtain ⟨r, s', hs', hsim, -⟩ := hs.blockGet hfits oom stale
    exact ⟨s', by rw [blockStep, hs']; rfl, hsim⟩
  | getNoread lba oom stale =>
    obtain ⟨r, s', hs', hsim, -⟩ := hs.blockGetNoread hfits oom stale
    exact ⟨s', by rw [blockStep, hs']; rfl, hsim⟩
  | store id data =>
    obtain ⟨b, hb, href⟩ := hlegal
    obtain ⟨s', hs', hsim⟩ := hs.setDirty hb href data
    refine ⟨s', hs', ?_⟩
    rw [flatStep, hb]
    exact hsim
  | set id =>
    obtain ⟨b, hb, href, hlba⟩ := hlegal
    exact hs.free hb hlba href hfits
  | setFlush id =>
    obtain ⟨b, hb, href⟩ := hlegal
    have hold := hs.coupled.buf id b hb
    exact hs.modify hb href _ rfl href rfl rfl ⟨hold.data, hold.dirty, hold.clean⟩
  | setTmp id =>
    obtain ⟨b, hb, href⟩ := hlegal
    have hold := hs.coupled.buf id b hb
    exact hs.modify hb href _ rfl href rfl rfl ⟨hold.data, hold.dirty, hold.clean⟩
  | flushLba lba =>
    obtain ⟨s', hs', hsim⟩ := hs.flushLba hlegal hfits.1 hfits.2
    exact ⟨s', by rw [blockStep, hs']; rfl, hsim⟩
  | cacheFlush =>
    obtain ⟨s', hs', hsim, -⟩ := hs.cacheFlush
    exact ⟨s', by rw [blockStep, hs']; rfl, hsim⟩
  | cacheShake =>
    obtain ⟨s', hs', hsim, -⟩ := hs.cacheShake
    exact ⟨s', by rw [blockStep, hs']; rfl, hsim⟩
  | cacheWriteBack on =>
    obtain ⟨s', hs', hsim⟩ := hs.cacheSetWriteBack on
    exact ⟨s', by rw [blockStep, hs']; rfl, hsim⟩

/-- **In every run** of legal calls that fit, the cache refines the flat array. -/
theorem reach_refines (hs : BlockReach (fun s op => s.BlockLegal op ∧ s.BlockFits op) s flat) :
    Refines (fun s op => s.BlockLegal op ∧ s.BlockFits op) s flat := by
  have hsim : Sim s flat := by
    induction hs with
    | init => exact sim_init ..
    | step op _ hop hstep ih =>
      obtain ⟨s', hs', hsim'⟩ := ih.step op hop.1 hop.2
      rw [hstep] at hs'
      rwa [Option.some_inj.1 hs']
  constructor
  · intro op hop
    obtain ⟨s', hs', -⟩ := hsim.step op hop.1 hop.2
    exact ⟨s', hs'⟩
  · intro lba oom stale hop
    obtain ⟨r, s', hs', -, hgot⟩ := hsim.blockGet hop.2 oom stale
    exact ⟨r, s', hs', hgot⟩
  · obtain ⟨s', hs', hsim', hempty⟩ := hsim.cacheFlush
    exact ⟨s', hs', fun lba hrel => hsim'.disk_of_released hempty hrel⟩

/-! ## The wrap of the LRU counter -/

section Wrap

/-- The calls of a list have the property `P` and lead from `s` to `s'`. -/
def BlockRun (P : Bcache α → BlockOp α → Prop) : List (BlockOp α) → Bcache α → (ℕ → α) → Bcache α →
    (ℕ → α) → Prop
  | [], s, flat, s', flat' => s = s' ∧ flat = flat'
  | op :: ops, s, flat, s', flat' =>
    P s op ∧ ∃ s₁, s.blockStep op = some s₁ ∧ BlockRun P ops s₁ (s.flatStep flat op) s' flat'

theorem reach_blockRun {P : Bcache α → BlockOp α → Prop} {ops : List (BlockOp α)} {flat' : ℕ → α}
    (hs : BlockReach P s flat) (hrun : BlockRun P ops s flat s' flat') : BlockReach P s' flat' := by
  induction ops generalizing s flat with
  | nil =>
    obtain ⟨rfl, rfl⟩ := hrun
    exact hs
  | cons op ops ih =>
    obtain ⟨hop, s₁, hs₁, hrun⟩ := hrun
    exact ih (hs.step op hop hs₁) hrun

/-- There is nothing to shake while the cache has room. -/
theorem cacheShake_of_room (hdont : s.dontShake = false) (hroom : s.refBlocks < s.cnt) :
    s.cacheShake = some (none, s) := by
  have hloop : ∀ fuel, shakeLoop (fuel + 1) { s with dontShake := true } =
      some (none, { s with dontShake := true }) := by
    intro fuel
    rw [shakeLoop]
    split
    · rfl
    · simp only [if_pos hroom]
  rw [Bcache.cacheShake, if_neg (by simp [hdont]), hloop, Option.map_some, ← hdont]

/-- A block that is read, changed and released: the disk has it after a flush. -/
theorem reach_refines_stored : ∃ (s : Bcache ℕ) (flat : ℕ → ℕ),
    BlockRun (fun s op => s.BlockLegal op ∧ s.BlockFits op)
      [.cacheWriteBack true, .get 1 false 0, .store 0 7, .set 0] (init 8 100 (fun _ => 0) []) (fun _ => 0)
      s flat ∧ Refines (fun s op => s.BlockLegal op ∧ s.BlockFits op) s flat := by
  obtain ⟨s, flat, hs⟩ : ∃ (s : Bcache ℕ) (flat : ℕ → ℕ),
    BlockRun (fun s op => s.BlockLegal op ∧ s.BlockFits op)
      [.cacheWriteBack true, .get 1 false 0, .store 0 7, .set 0] (init 8 100 (fun _ => 0) []) (fun _ => 0)
      s flat := by
    simp [BlockRun, BlockLegal, BlockFits, Room, NoClash, Returnable, Referenced, blockStep, flatStep, blockGet,
      blockGetNoread, cacheShake, shakeLoop, lowestLru, bread, cacheSetWriteBack, alloc, findGet,
      lookup, newBuf, setDirty, modify, free, init, lruInsert, setBuf, ready, insertDirtyNode, u32]
  exact ⟨s, flat, hs, reach_refines (reach_blockRun (.init ..) hs)⟩

theorem get_twoCached (n : ℕ) :
    (twoCached n 0 [1, 0]).blockStep (.get 2 false 0) = some (twoCached (u32 (n + 1)) 1 [0]) := by
  have hshake : (twoCached n 0 [1, 0]).cacheShake = some (none, twoCached n 0 [1, 0]) :=
    cacheShake_of_room rfl (by simp [twoCached, init])
  rw [blockStep, blockGet, blockGetNoread, hshake]
  simp [twoCached, alloc, findGet, lookup, init, lruRemove, setBuf]

theorem fillTwo_blockRun : BlockRun BlockLegal [.get 1 false 0, .set 0, .get 2 false 0, .set 1]
    (init 3 100 (fun _ => 0) []) (fun _ => 0) (twoCached 2 0 [1, 0]) (fun _ => 0) := by
  simp [BlockRun, BlockLegal, Returnable, blockStep, flatStep, blockGet, blockGetNoread, cacheShake, shakeLoop,
    lowestLru, twoCached, alloc, findGet, lookup, newBuf, bread, free, init, lruInsert, setBuf, ready, u32]

/-- Block 2 is read and released. -/
theorem blockReach_round {n : ℕ} {flat : ℕ → ℕ} (hs : BlockReach BlockLegal (twoCached n 0 [1, 0]) flat)
    (hn : u32 (n + 1) ≠ 1) : BlockReach BlockLegal (twoCached (u32 (n + 1)) 0 [1, 0]) flat :=
  (hs.step (.get 2 false 0) trivial (get_twoCached n)).step (.set 1) (returnable_twoCached _)
    (free_twoCached hn)

theorem blockReach_twoCached (k : ℕ) (hk : k + 2 < 2 ^ 32) :
    BlockReach BlockLegal (twoCached (k + 2) 0 [1, 0]) fun _ => 0 := by
  induction k with
  | zero => exact reach_blockRun (.init ..) fillTwo_blockRun
  | succ k ih =>
    have hsucc : u32 (k + 2 + 1) = k + 1 + 2 := u32_of_lt hk
    have hround := blockReach_round (ih (by omega)) (by omega)
    rwa [hsucc] at hround

/-- With block 2 out of the LRU tree, block 1 is evicted for block 4; its memory
    is what the stale links of block 2 point to. -/
theorem evict_run : ∃ s, BlockRun BlockLegal [.get 3 false 0, .get 4 false 0] (twoCached 1 0 [0])
    (fun _ => 0) s (fun _ => 0) ∧ s.heap 0 = none ∧ s.blockStep (.get 2 false 0) = none := by
  simp [BlockRun, BlockLegal, blockStep, flatStep, blockGet, blockGetNoread, cacheShake, shakeLoop, dropBuf,
    lowestLru, twoCached, alloc, findGet, lookup, newBuf, bread, init, lruRemove, setBuf, u32, sub32]

/-- **The cache breaks** when the LRU counter has come back to the LRU id of a
    cached block: block 2 is cached but not in the LRU tree, and its next
    `ext4_block_get` unlinks a node whose neighbour has been freed. -/
theorem cache_breaks : ¬ ∀ (s : Bcache ℕ) flat, BlockReach BlockLegal s flat → Refines BlockLegal s flat := by
  intro h
  have hlast := blockReach_twoCached (2 ^ 32 - 3) (by omega)
  have hwrap : u32 (2 ^ 32 - 3 + 2 + 1) = 0 := by simp [u32]
  have hzero := blockReach_round hlast (by rw [hwrap]; exact Nat.zero_ne_one)
  rw [hwrap] at hzero
  have hone : u32 (0 + 1) = 1 := u32_of_lt (by omega)
  have hget := get_twoCached 0
  rw [hone] at hget
  have hlost := (hzero.step (.get 2 false 0) trivial hget).step (.set 1) (returnable_twoCached _)
    free_twoCached_one
  obtain ⟨s, hrun, -, hnone⟩ := evict_run
  obtain ⟨s', hs'⟩ := (h _ _ (reach_blockRun hlost hrun)).call (.get 2 false 0) trivial
  rw [hnone] at hs'
  exact absurd hs' (by simp)

end Wrap

end Bcache

end Lwext4
