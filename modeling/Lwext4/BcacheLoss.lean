/-
  Write errors of the block cache.

  `Saved` says that nothing that was stored has been lost: it is on the disk,
  or in a buffer that is dirty and, once nobody holds it, on the dirty list.
  Flushing and shaking keep it whatever the device does, since they return the
  error of a write and leave the buffer as it was.  Releasing a buffer does not
  look at the result of its write.

  Main results.
  * `write_nothing_lost`: in every run in which the writes at a release succeed,
    nothing is lost.
  * `write_loses`: a run of calls that all return `EOK` and lose a block.
-/
import Lwext4.BcacheSim

namespace Lwext4

namespace Bcache

variable {α : Type}

/-! ## Calls -/

/-- The calls that write, and what the holder of a buffer does to it. -/
inductive WriteOp (α : Type) where
  | store (id : ℕ) (data : α)
  | setFlush (id : ℕ)
  | setTmp (id : ℕ)
  | set (id : ℕ)
  | cacheShake
  | cacheWriteBack (on : Bool)
  | cacheFlush

/-- What a call returns, `none` for `EOK`, and the cache after it.
    `ext4_block_set` returns what `ext4_bcache_free` does, always `EOK`. -/
def writeStep (s : Bcache α) : WriteOp α → Option (Option Errno × Bcache α)
  | .store id data => (s.setDirty id data).map fun s => (none, s)
  | .setFlush id => (s.modify id fun b => { b with flush := true }).map fun s => (none, s)
  | .setTmp id => (s.modify id fun b => { b with tmp := true }).map fun s => (none, s)
  | .set id => (s.free id).map fun s => (none, s)
  | .cacheShake => s.cacheShake
  | .cacheWriteBack on => s.cacheSetWriteBack on
  | .cacheFlush => s.cacheFlush

/-- The last contents stored to each block, after a call. -/
def storeStep (s : Bcache α) (flat : ℕ → α) : WriteOp α → ℕ → α
  | .store id data => ((s.heap id).map fun b => Function.update flat b.lba data).getD flat
  | _ => flat

/-- Nobody has a reference to the buffer but those that only read it. -/
def Idle (b : Buf α) : Prop := b.refctr = 0 ∨ b.refctr = b.readRefctr

/-- Only a buffer that somebody holds, and not only to read it, is changed. -/
def Held (s : Bcache α) : WriteOp α → Prop
  | .store id _ | .setFlush id | .setTmp id => ∃ b, s.heap id = some b ∧ ¬ Idle b
  | .set _ | .cacheShake | .cacheWriteBack _ | .cacheFlush => True

/-- The release of the last reference, or of the last but those that only read, writes the buffer
    at once. -/
def WritesOut (s : Bcache α) (b : Buf α) : Prop :=
  (b.refctr = 1 ∨ b.refctr = b.readRefctr + 1) ∧ b.dirty = true ∧ b.uptodate = true ∧
    ¬ (s.cacheWriteBack ≠ 0 ∧ b.flush = false ∧ b.tmp = false)

/-- The device takes the write of a release. -/
def WriteOk (s : Bcache α) : WriteOp α → Prop
  | .set id => ∀ b, s.heap id = some b → s.WritesOut b → s.faults.head? ≠ some true
  | _ => True

/-! ## What is saved -/

/-- The dirty list and the buffers `h` agree. -/
structure Links (d : List ℕ) (h : ℕ → Option (Buf α)) : Prop where
  inj : ∀ i j b c, h i = some b → h j = some c → b.lba = c.lba → i = j
  mem : ∀ i, i ∈ d ↔ ∃ b, h i = some b ∧ b.onDirtyList = true
  nodup : d.Nodup
  ok : ∀ i b, h i = some b → b.onDirtyList = true → b.dirty = true ∧ b.uptodate = true

/-- A dirty buffer that nobody changes is on the dirty list. -/
def Rested (h : ℕ → Option (Buf α)) : Prop :=
  ∀ i b, h i = some b → Idle b → b.dirty = true → b.onDirtyList = true

/-- Nothing stored is lost: the buffers and the disk hold it, and a dirty
    buffer that nobody changes is on the dirty list. -/
structure Saved (s : Bcache α) (flat : ℕ → α) : Prop where
  links : Links s.dirtyList s.heap
  coupled : Coupled flat s.disk s.heap
  rested : Rested s.heap

/-- What the callers may rely on: a released block is on the disk or in a dirty
    buffer of the list, and no buffer is dirty off the list. -/
structure NothingLost (s : Bcache α) (flat : ℕ → α) : Prop where
  saved : ∀ lba, (∀ id b, s.heap id = some b → b.lba = lba → Idle b) → s.disk lba = flat lba ∨
    ∃ id b, s.heap id = some b ∧ b.lba = lba ∧ b.data = flat lba ∧ b.uptodate = true ∧
      b.dirty = true ∧ id ∈ s.dirtyList
  listed : ∀ id b, s.heap id = some b → Idle b → b.dirty = true → id ∈ s.dirtyList

/-- The states that calls with the property `P` lead to, all of them returning
    `EOK`, from any cache in which nothing is lost. -/
inductive WriteReach (P : Bcache α → WriteOp α → Prop) : Bcache α → (ℕ → α) → Prop
  | start {s : Bcache α} {flat : ℕ → α} (hs : Saved s flat) : WriteReach P s flat
  | step {s s' : Bcache α} {flat : ℕ → α} (op : WriteOp α) (hs : WriteReach P s flat)
    (hheld : s.Held op) (hop : P s op) (hstep : s.writeStep op = some (none, s')) :
    WriteReach P s' (s.storeStep flat op)

variable {s s' s₁ : Bcache α} {flat : ℕ → α} {d d' : List ℕ} {h : ℕ → Option (Buf α)} {id : ℕ}
  {b b₁ : Buf α}

/-- A cache in good order in which nothing is lost yet may be the start. -/
theorem Saved.of_inv (hi : s.Inv) (hc : Coupled flat s.disk s.heap) (hs : Settled s.heap) :
    Saved s flat := by
  refine ⟨⟨hi.inj, hi.dirty, hi.dirtyNodup, fun i b hb hon => ?_⟩, hc, fun i b hb hidle => ?_⟩
  · obtain ⟨hd, hu, -⟩ := (hi.ok i b hb).list hon
    exact ⟨hd, hu⟩
  · rw [Idle, (hi.ok i b hb).read, or_self] at hidle
    exact hs i b hb hidle

theorem Saved.nothingLost (hs : Saved s flat) : s.NothingLost flat where
  saved := by
    intro lba hrel
    by_cases hcached : ∃ i b, s.heap i = some b ∧ b.lba = lba
    · obtain ⟨i, b, hb, rfl⟩ := hcached
      have hh := hs.coupled.buf i b hb
      cases hd : b.dirty with
      | false => exact .inl (hh.clean hd)
      | true =>
        have hon := hs.rested i b hb (hrel i b hb rfl) hd
        exact .inr ⟨i, b, hb, rfl, hh.data (hh.dirty hd), hh.dirty hd, hd,
          (hs.links.mem i).2 ⟨b, hb, hon⟩⟩
    · exact .inl (hs.coupled.rest lba fun i b hb hl => hcached ⟨i, b, hb, hl⟩)
  listed := fun i b hb h0 hd => (hs.links.mem i).2 ⟨b, hb, hs.rested i b hb h0 hd⟩

theorem Rested.update {o : Option (Buf α)} (hs : Rested h)
    (ho : ∀ b, o = some b → Idle b → b.dirty = true → b.onDirtyList = true) :
    Rested (Function.update h id o) := by
  intro i c hi
  by_cases hne : i = id
  · subst hne
    rw [Function.update_self] at hi
    exact ho c hi
  · rw [Function.update_of_ne hne] at hi
    exact hs i c hi

/-- A change of one buffer, or its removal, and of its place in the list. -/
theorem Links.relink {o : Option (Buf α)} (hl : Links d (Function.update h id (some b)))
    (hb : ∀ c, o = some c → c.lba = b.lba ∧
      (c.onDirtyList = true → c.dirty = true ∧ c.uptodate = true)) (hd : d'.Nodup)
    (hself : id ∈ d' ↔ ∃ c, o = some c ∧ c.onDirtyList = true)
    (hother : ∀ i, i ≠ id → (i ∈ d' ↔ i ∈ d)) : Links d' (Function.update h id o) := by
  have hget : ∀ i c, Function.update h id o i = some c →
      ∃ c', Function.update h id (some b) i = some c' ∧ c.lba = c'.lba := by
    intro i c hc
    by_cases hi : i = id
    · subst hi
      rw [Function.update_self] at hc ⊢
      exact ⟨b, rfl, (hb c hc).1⟩
    · rw [Function.update_of_ne hi] at hc ⊢
      exact ⟨c, hc, rfl⟩
  refine ⟨fun i j b₁ c₁ hi hj heq => ?_, fun i => ?_, hd, fun i c hc => ?_⟩
  · obtain ⟨b₂, hb₂, h1⟩ := hget i b₁ hi
    obtain ⟨c₂, hc₂, h2⟩ := hget j c₁ hj
    exact hl.inj i j b₂ c₂ hb₂ hc₂ (by rw [← h1, ← h2, heq])
  · by_cases hi : i = id
    · subst hi
      rw [Function.update_self]
      exact hself
    · rw [hother i hi, hl.mem, Function.update_of_ne hi, Function.update_of_ne hi]
  · by_cases hi : i = id
    · subst hi
      rw [Function.update_self] at hc
      exact (hb c hc).2
    · rw [Function.update_of_ne hi] at hc
      exact hl.ok i c (by rw [Function.update_of_ne hi, hc])

theorem Links.self (hl : Links d (Function.update h id (some b))) (hon : b.onDirtyList = true) :
    b.dirty = true ∧ b.uptodate = true :=
  hl.ok id b (Function.update_self ..) hon

theorem Links.on_iff (hl : Links d (Function.update h id (some b))) :
    id ∈ d ↔ b.onDirtyList = true := by
  rw [hl.mem, Function.update_self]
  constructor
  · rintro ⟨c, hc, hon⟩
    rw [Option.some.inj hc]
    exact hon
  · intro hon
    exact ⟨b, rfl, hon⟩

/-- A change that leaves the list alone. -/
theorem Links.update (hl : Links d (Function.update h id (some b))) (hlba : b₁.lba = b.lba)
    (hon : b₁.onDirtyList = b.onDirtyList)
    (hok : b₁.onDirtyList = true → b₁.dirty = true ∧ b₁.uptodate = true) :
    Links d (Function.update h id (some b₁)) := by
  refine hl.relink (fun c hc => ?_) hl.nodup ?_ fun _ _ => Iff.rfl
  · rw [← Option.some.inj hc]
    exact ⟨hlba, hok⟩
  · rw [hl.on_iff, ← hon]
    constructor
    · intro h1
      exact ⟨b₁, rfl, h1⟩
    · rintro ⟨c, hc, h1⟩
      rw [Option.some.inj hc]
      exact h1

/-! ## Working on a buffer -/

/-- Work on a buffer that leaves what was stored where it can be found. -/
structure Tends (flat : ℕ → α) (s s₁ : Bcache α) (id : ℕ) (b b₁ : Buf α) : Prop where
  heap : s₁.heap = s.heap
  lba : b₁.lba = b.lba
  tmp : b₁.tmp = b.tmp
  links : Links s₁.dirtyList (Function.update s.heap id (some b₁))
  closer : Closer flat s.disk s₁.disk
  holds : Holds flat s₁.disk b₁

theorem Tends.refl (hl : Links s.dirtyList (Function.update s.heap id (some b)))
    (hb : Holds flat s.disk b) : Tends flat s s id b b :=
  ⟨rfl, rfl, rfl, hl, Closer.refl flat s.disk, hb⟩

/-- **`ext4_block_flush_buf`** makes the buffer clean, or returns the error of
    its write and leaves it as it was. -/
theorem flushBuf_tends (hl : Links s.dirtyList (Function.update s.heap id (some b)))
    (hb : Holds flat s.disk b) :
    Tends flat s (s.flushBuf id b).2.1 id b (s.flushBuf id b).2.2 ∧
      ((s.flushBuf id b).1 = none ∧ (s.flushBuf id b).2.2.dirty = false ∨
        (∃ e, (s.flushBuf id b).1 = some e) ∧ (s.flushBuf id b).2.2 = b ∧
          s.faults.head? = some true) := by
  rw [flushBuf]
  by_cases hd : b.dirty = true
  · have hu := hb.dirty hd
    rw [if_pos (by rw [hd, hu]; rfl)]
    have hwrite : (∃ fs, s.faults = true :: fs ∧
        s.bwrite b.lba b.data = (false, { s with faults := fs })) ∨
        ∃ fs, s.bwrite b.lba b.data =
          (true, { s with faults := fs, disk := Function.update s.disk b.lba b.data }) := by
      cases hf : s.faults with
      | nil =>
        refine .inr ⟨[], ?_⟩
        rw [bwrite_ok hf, ← hf]
      | cons f fs =>
        rw [bwrite, hf]
        cases f with
        | true => exact .inl ⟨fs, rfl, rfl⟩
        | false => exact .inr ⟨fs, rfl⟩
    rcases hwrite with ⟨fs, hfs, hw⟩ | ⟨fs, hw⟩
    · rw [hw]
      refine ⟨⟨rfl, rfl, rfl, hl, Closer.refl flat s.disk, hb⟩,
        .inr ⟨⟨_, rfl⟩, rfl, ?_⟩⟩
      rw [hfs]
      rfl
    · rw [hw]
      have hcloser : Closer flat s.disk (Function.update s.disk b.lba b.data) := by
        intro lba
        by_cases hlba : lba = b.lba
        · subst hlba
          exact .inr (by rw [Function.update_self, hb.data hu])
        · exact .inl (by rw [Function.update_of_ne hlba])
      have hclean : (Function.update s.disk b.lba b.data) b.lba = flat b.lba := by
        rw [Function.update_self, hb.data hu]
      have hlist : Links (s.dirtyList.erase id) (Function.update s.heap id
          (some { b with dirty := false, onDirtyList := false })) := by
        refine hl.relink (fun c hc => ?_) (hl.nodup.erase id) ?_ fun i hi => ?_
        · rw [← Option.some.inj hc]
          exact ⟨rfl, Bool.noConfusion⟩
        · constructor
          · intro hm
            exact absurd hm hl.nodup.not_mem_erase
          · rintro ⟨c, hc, hon⟩
            rw [← Option.some.inj hc] at hon
            cases hon
        · exact List.mem_erase_of_ne hi
      refine ⟨?_, .inl ⟨rfl, rfl⟩⟩
      simp only [removeDirtyNode]
      by_cases hon : b.onDirtyList = true
      · rw [if_pos hon]
        exact ⟨rfl, rfl, rfl, hlist, hcloser, hb.data, Bool.noConfusion, fun _ => hclean⟩
      · rw [if_neg hon]
        have hsame : s.dirtyList.erase id = s.dirtyList :=
          List.erase_of_not_mem fun hm => hon (hl.on_iff.1 hm)
        have hbuf : ({ b with dirty := false, onDirtyList := false } : Buf α) =
            { b with dirty := false } := by
          rw [Bool.not_eq_true] at hon
          rw [← hon]
        rw [hsame, hbuf] at hlist
        exact ⟨rfl, rfl, rfl, hlist, hcloser, hb.data, Bool.noConfusion, fun _ => hclean⟩
  · rw [if_neg (by simp [hd])]
    exact ⟨.refl hl hb, .inl ⟨rfl, by simpa using hd⟩⟩

/-- A released buffer is clean afterwards or on the dirty list, and not there if
    it is temporary, where the device takes its write. -/
theorem ready_tends (hl : Links s.dirtyList (Function.update s.heap id (some b)))
    (hb : Holds flat s.disk b) :
    Tends flat s (s.ready id b).1 id b (s.ready id b).2 ∧
      ((b.dirty = true → b.uptodate = true →
          ¬ (s.cacheWriteBack ≠ 0 ∧ b.flush = false ∧ b.tmp = false) →
          s.faults.head? ≠ some true) →
        (s.ready id b).2.dirty = true → (s.ready id b).2.onDirtyList = true ∧ b.tmp = false) := by
  rw [ready]
  split_ifs with hd hback
  · rw [Bool.and_eq_true] at hd
    rw [insertDirtyNode]
    split_ifs with hon
    · exact ⟨.refl hl hb, fun _ _ => ⟨hon, hback.2.2⟩⟩
    · have hnot : id ∉ s.dirtyList := fun hm => hon (hl.on_iff.1 hm)
      refine ⟨⟨rfl, rfl, rfl, ?_, Closer.refl flat s.disk, hb.data, hb.dirty, hb.clean⟩,
        fun _ _ => ⟨rfl, hback.2.2⟩⟩
      refine hl.relink (fun c hc => ?_) (List.nodup_cons.2 ⟨hnot, hl.nodup⟩) ?_ fun i hi => ?_
      · rw [← Option.some.inj hc]
        exact ⟨rfl, fun _ => hd⟩
      · simp
      · simp [hi]
  · rw [Bool.and_eq_true] at hd
    obtain ⟨ht, hrc⟩ := flushBuf_tends hl hb
    generalize s.flushBuf id b = r at ht hrc
    obtain ⟨e, s₁, b₁⟩ := r
    refine ⟨⟨ht.heap, ht.lba, ht.tmp, ?_, ht.closer, ht.holds.data, ht.holds.dirty,
      ht.holds.clean⟩, fun hok hdirty => ?_⟩
    · exact ht.links.update rfl rfl ht.links.self
    · rcases hrc with ⟨-, hclean⟩ | ⟨-, -, hfault⟩
      · rw [show b₁.dirty = true from hdirty] at hclean
        cases hclean
      · exact absurd hfault (hok hd.1 hd.2 hback)
  · refine ⟨.refl hl hb, fun _ hdirty => ?_⟩
    exact absurd (Bool.and_eq_true_iff.2 ⟨hdirty, hb.dirty hdirty⟩) hd

theorem Saved.focus (hs : Saved s flat) (hb : s.heap id = some b) :
    Links s.dirtyList (Function.update s.heap id (some b)) := by
  rw [← hb, Function.update_eq_self]
  exact hs.links

/-- A buffer that is stored back. -/
theorem Saved.setBuf (hs : Saved s flat) (hb : s.heap id = some b) (ht : Tends flat s s₁ id b b₁)
    (hset : Idle b₁ → b₁.dirty = true → b₁.onDirtyList = true) :
    Saved (s₁.setBuf id b₁) flat := by
  constructor
  · show Links s₁.dirtyList (Function.update s₁.heap id (some b₁))
    rw [ht.heap]
    exact ht.links
  · show Coupled flat s₁.disk (Function.update s₁.heap id (some b₁))
    rw [ht.heap]
    exact hs.coupled.update hb ht.closer ht.lba ht.holds
  · show Rested (Function.update s₁.heap id (some b₁))
    rw [ht.heap]
    refine hs.rested.update fun c hc h0 hd => ?_
    rw [← Option.some.inj hc] at h0 hd ⊢
    exact hset h0 hd

theorem dropBuf_list (hclean : b.dirty = false) (hdrop : s.dropBuf id b = some s') :
    s'.dirtyList = s.dirtyList := by
  rw [dropBuf, Option.map_eq_some_iff] at hdrop
  obtain ⟨s₁, hs₁, rfl⟩ := hdrop
  have hsame : s₁.dirtyList = s.dirtyList := by
    split_ifs at hs₁
    · rw [lruRemove] at hs₁
      split_ifs at hs₁
      rw [← Option.some.inj hs₁]
    · rw [Option.some.inj hs₁]
  simpa [hclean] using hsame

/-- A clean buffer that is dropped. -/
theorem Saved.dropBuf (hs : Saved s flat) (hb : s.heap id = some b) (ht : Tends flat s s₁ id b b₁)
    (hclean : b₁.dirty = false) (hdrop : s₁.dropBuf id b₁ = some s') : Saved s' flat := by
  obtain ⟨hheap, hdisk, -⟩ := dropBuf_effect hdrop
  have hheap' : s'.heap = Function.update s.heap id none := by rw [hheap, ht.heap]
  have hoff : ¬ b₁.onDirtyList = true := by
    intro hon
    rw [(ht.links.self hon).1] at hclean
    cases hclean
  constructor
  · rw [hheap', dropBuf_list hclean hdrop]
    refine ht.links.relink nofun ht.links.nodup ?_ fun _ _ => Iff.rfl
    rw [ht.links.on_iff]
    constructor
    · intro hon
      exact absurd hon hoff
    · rintro ⟨c, hc, -⟩
      exact nomatch hc
  · rw [hheap', hdisk]
    exact hs.coupled.drop hb ht.closer ht.lba ht.holds hclean
  · rw [hheap']
    exact hs.rested.update nofun

/-! ## The calls -/

/-- **`ext4_block_set`** keeps what was stored where the device takes its
    write. -/
theorem Saved.free (hs : Saved s flat) (hok : s.WriteOk (.set id)) (hrun : s.free id = some s') :
    Saved s' flat := by
  cases hb : s.heap id with
  | none =>
    rw [Bcache.free, hb] at hrun
    cases hrun
  | some b =>
    have hold := hs.coupled.buf id b hb
    have hbok := hs.links.ok id b hb
    rw [free_eq s hb] at hrun
    by_cases hbad : b.lba = 0 ∨ b.refctr = 0
    · rw [if_pos hbad] at hrun
      cases hrun
    rw [if_neg hbad] at hrun
    rw [not_or] at hbad
    have hdec : Holds flat s.disk (dec b) := ⟨hold.data, hold.dirty, hold.clean⟩
    have hlinks : Links s.dirtyList (Function.update s.heap id (some (dec b))) :=
      (hs.focus hb).update rfl rfl hbok
    by_cases hlast : (dec b).refctr = 0
    · rw [if_pos hlast] at hrun
      have hlru : ∃ l, s.lruInsert id (dec b) = { s with lruRoot := l } := by
        unfold lruInsert
        split_ifs
        · exact ⟨s.lruRoot, rfl⟩
        · exact ⟨_, rfl⟩
      obtain ⟨l, hl⟩ := hlru
      rw [hl] at hrun
      obtain ⟨ht, hready⟩ := @ready_tends _ { s with lruRoot := l } flat id (dec b) hlinks hdec
      have hlisted := hready fun hd hu hback => hok b hb ⟨.inl ?_, hd, hu, hback⟩
      · generalize ({ s with lruRoot := l } : Bcache α).ready id (dec b) = r at ht hlisted hrun
        obtain ⟨s₁, b₁⟩ := r
        have ht' : Tends flat s s₁ id b b₁ := by
          exact ⟨ht.heap, ht.lba, ht.tmp, ht.links, ht.closer, ht.holds⟩
        simp only at hrun
        split_ifs at hrun with hkeep
        · rw [← Option.some.inj hrun]
          exact hs.setBuf hb ht' fun _ hd => (hlisted hd).1
        · refine hs.dropBuf hb ht' ?_ hrun
          -- a dirty buffer is up-to-date and not temporary, hence kept
          by_contra hd
          have hd' : b₁.dirty = true := by simpa using hd
          have htmp : b₁.tmp = false := ht.tmp.trans (hlisted hd').2
          exact hkeep (by rw [ht.holds.dirty hd', htmp]; rfl)
      · have : b.refctr - 1 = 0 := hlast
        omega
    · rw [if_neg hlast] at hrun
      by_cases hread : (dec b).refctr = (dec b).readRefctr
      · rw [if_pos hread] at hrun
        rw [← Option.some.inj hrun]
        obtain ⟨ht, hready⟩ := ready_tends hlinks hdec
        have ht' : Tends flat s (s.ready id (dec b)).1 id b (s.ready id (dec b)).2 :=
          ⟨ht.heap, ht.lba, ht.tmp, ht.links, ht.closer, ht.holds⟩
        refine hs.setBuf hb ht' fun _ hd => (hready (fun hd hu hback => ?_) hd).1
        refine hok b hb ⟨.inr ?_, hd, hu, hback⟩
        have hdecr : b.refctr - 1 = b.readRefctr := hread
        omega
      · rw [if_neg hread] at hrun
        rw [← Option.some.inj hrun]
        exact hs.setBuf hb ⟨rfl, rfl, rfl, hlinks, Closer.refl flat s.disk, hdec⟩
          fun hidle => absurd hidle (not_or.2 ⟨hlast, hread⟩)

theorem flushLoop_saved (fuel : ℕ) (hs : Saved s flat) {r : Option Errno}
    (hrun : flushLoop fuel s = some (r, s')) : Saved s' flat := by
  induction fuel generalizing s with
  | zero => cases hrun
  | succ fuel ih =>
    rw [flushLoop] at hrun
    cases hlist : s.dirtyList with
    | nil =>
      rw [hlist] at hrun
      cases hrun
      exact hs
    | cons id rest =>
      rw [hlist] at hrun
      obtain ⟨b, hb, hon⟩ := (hs.links.mem id).1 (by rw [hlist]; exact List.mem_cons_self)
      obtain ⟨ht, hrc⟩ := flushBuf_tends (hs.focus hb) (hs.coupled.buf id b hb)
      simp only [hb] at hrun
      generalize s.flushBuf id b = res at ht hrc hrun
      obtain ⟨e, s₁, b₁⟩ := res
      rcases hrc with ⟨he, hclean⟩ | ⟨⟨e', he⟩, hsame, -⟩
      · obtain rfl : e = none := he
        refine ih (hs.setBuf hb ht fun _ hd => ?_) hrun
        rw [show b₁.dirty = false from hclean] at hd
        cases hd
      · obtain rfl : e = some e' := he
        cases hrun
        refine hs.setBuf hb ht fun _ _ => ?_
        rw [show b₁ = b from hsame]
        exact hon

/-- **`ext4_block_cache_flush`** loses nothing, with or without an error. -/
theorem Saved.cacheFlush (hs : Saved s flat) {r : Option Errno}
    (hrun : s.cacheFlush = some (r, s')) : Saved s' flat := flushLoop_saved _ hs hrun

/-- The same cache with another write-back count and another shaking flag. -/
theorem Saved.congr (hs : Saved s flat) (n : ℕ) (dontShake : Bool) :
    Saved ({ s with cacheWriteBack := n, dontShake := dontShake } : Bcache α) flat :=
  ⟨hs.links, hs.coupled, hs.rested⟩

theorem shakeLoop_saved (fuel : ℕ) (hs : Saved s flat) {r : Option Errno}
    (hrun : shakeLoop fuel s = some (r, s')) : Saved s' flat := by
  induction fuel generalizing s with
  | zero => cases hrun
  | succ fuel ih =>
    rw [shakeLoop] at hrun
    cases hlow : s.lowestLru with
    | none =>
      rw [hlow] at hrun
      cases hrun
      exact hs
    | some id =>
      rw [hlow] at hrun
      by_cases hroom : s.refBlocks < s.cnt
      · simp only [if_pos hroom] at hrun
        cases hrun
        exact hs
      simp only [if_neg hroom] at hrun
      cases hb : s.heap id with
      | none =>
        rw [hb] at hrun
        cases hrun
      | some b =>
        simp only [hb] at hrun
        have hold := hs.coupled.buf id b hb
        obtain ⟨ht, hrc⟩ : Tends flat s (if b.dirty then s.flushBuf id b else (none, s, b)).2.1 id b
            (if b.dirty then s.flushBuf id b else (none, s, b)).2.2 ∧
            ((if b.dirty then s.flushBuf id b else (none, s, b)).1 = none ∧
                (if b.dirty then s.flushBuf id b else (none, s, b)).2.2.dirty = false ∨
              (∃ e, (if b.dirty then s.flushBuf id b else (none, s, b)).1 = some e) ∧
                (if b.dirty then s.flushBuf id b else (none, s, b)).2.2 = b) := by
          split_ifs with hd
          · obtain ⟨ht, h | ⟨h1, h2, -⟩⟩ := flushBuf_tends (hs.focus hb) hold
            · exact ⟨ht, .inl h⟩
            · exact ⟨ht, .inr ⟨h1, h2⟩⟩
          · exact ⟨.refl (hs.focus hb) hold, .inl ⟨rfl, by simpa using hd⟩⟩
        generalize (if b.dirty then s.flushBuf id b else (none, s, b)) = res at ht hrc hrun
        obtain ⟨e, s₁, b₁⟩ := res
        rcases hrc with ⟨he, hclean⟩ | ⟨⟨e', he⟩, hsame⟩
        · obtain rfl : e = none := he
          obtain ⟨s₂, hdrop, hrun⟩ := Option.bind_eq_some_iff.1 hrun
          exact ih (hs.dropBuf hb ht hclean hdrop) hrun
        · obtain rfl : e = some e' := he
          cases hrun
          refine hs.setBuf hb ht fun h0 hd => ?_
          obtain rfl : b₁ = b := hsame
          exact hs.rested id b₁ hb h0 hd

/-- **`ext4_block_cache_shake`** loses nothing, with or without an error. -/
theorem Saved.cacheShake (hs : Saved s flat) {r : Option Errno}
    (hrun : s.cacheShake = some (r, s')) : Saved s' flat := by
  rw [Bcache.cacheShake] at hrun
  split_ifs at hrun with hdont
  · cases hrun
    exact hs
  · obtain ⟨⟨r₁, s₁⟩, hloop, heq⟩ := Option.map_eq_some_iff.1 hrun
    cases heq
    exact (shakeLoop_saved _ (hs.congr s.cacheWriteBack true) hloop).congr s₁.cacheWriteBack false

/-- **`ext4_block_cache_write_back`** loses nothing, with or without an error. -/
theorem Saved.cacheSetWriteBack (hs : Saved s flat) (on : Bool) {r : Option Errno}
    (hrun : s.cacheSetWriteBack on = some (r, s')) : Saved s' flat := by
  have hs₁ : Saved (if on then { s with cacheWriteBack := u32 (s.cacheWriteBack + 1) }
      else { s with cacheWriteBack := s.cacheWriteBack - 1 } : Bcache α) flat := by
    split_ifs
    · exact hs.congr _ s.dontShake
    · exact hs.congr _ s.dontShake
  rw [Bcache.cacheSetWriteBack] at hrun
  generalize (if on then { s with cacheWriteBack := u32 (s.cacheWriteBack + 1) }
    else { s with cacheWriteBack := s.cacheWriteBack - 1 } : Bcache α) = s₁ at hs₁ hrun
  by_cases hback : s₁.cacheWriteBack ≠ 0
  · rw [if_pos hback] at hrun
    cases hrun
    exact hs₁
  · rw [if_neg hback] at hrun
    exact hs₁.cacheFlush hrun

/-- A held buffer that is changed, and with it perhaps what was stored. -/
theorem Saved.update (hs : Saved s flat) {flat' : ℕ → α} (hb : s.heap id = some b)
    (hidle : ¬ Idle b) (hlba : b₁.lba = b.lba) (hr : b₁.refctr = b.refctr)
    (hrr : b₁.readRefctr = b.readRefctr) (hon : b₁.onDirtyList = b.onDirtyList)
    (hd : b.dirty = true → b₁.dirty = true) (hu : b.uptodate = true → b₁.uptodate = true)
    (hc : Coupled flat' s.disk (Function.update s.heap id (some b₁))) :
    Saved (s.setBuf id b₁) flat' := by
  refine ⟨(hs.focus hb).update hlba hon fun h1 => ?_, hc, ?_⟩
  · obtain ⟨hdirty, hup⟩ := hs.links.ok id b hb (hon.symm.trans h1)
    exact ⟨hd hdirty, hu hup⟩
  · refine hs.rested.update fun c hc h0 => absurd h0 ?_
    rw [← Option.some.inj hc, Idle, hr, hrr]
    exact hidle

/-- A change of the flags of a held buffer. -/
theorem Saved.modify (hs : Saved s flat) (hheld : ∃ b, s.heap id = some b ∧ ¬ Idle b)
    {f : Buf α → Buf α}
    (hf : ∀ b, (f b).lba = b.lba ∧ (f b).refctr = b.refctr ∧ (f b).readRefctr = b.readRefctr ∧
      (f b).onDirtyList = b.onDirtyList ∧ (f b).dirty = b.dirty ∧ (f b).uptodate = b.uptodate)
    (hholds : ∀ b, Holds flat s.disk b → Holds flat s.disk (f b))
    (hrun : s.modify id f = some s') : Saved s' flat := by
  obtain ⟨b, hb, hidle⟩ := hheld
  obtain ⟨hlba, hr, hrr, hon, hd, hu⟩ := hf b
  rw [Bcache.modify, hb] at hrun
  rw [← Option.some.inj hrun]
  exact hs.update hb hidle hlba hr hrr hon hd.trans hu.trans
    (hs.coupled.update hb (Closer.refl flat s.disk) hlba (hholds b (hs.coupled.buf id b hb)))

/-- Modifying a held buffer and `ext4_bcache_set_dirty`. -/
theorem Saved.setDirty (hs : Saved s flat) (hb : s.heap id = some b) (hidle : ¬ Idle b)
    {data : α} (hrun : s.setDirty id data = some s') :
    Saved s' (Function.update flat b.lba data) := by
  rw [Bcache.setDirty, Bcache.modify, hb] at hrun
  rw [← Option.some.inj hrun]
  refine hs.update hb hidle rfl rfl rfl rfl (fun _ => rfl) (fun _ => rfl) ?_
  exact @Coupled.store _ _ _ _ _ _ { b with data := data, uptodate := true, dirty := true }
    hs.coupled hb (fun i c hc heq => hs.links.inj i id c b hc hb heq) rfl rfl rfl

/-- **One call**, also one that returns an error, where the device takes the
    write of a release. -/
theorem Saved.step (hs : Saved s flat) {op : WriteOp α} (hheld : s.Held op) (hok : s.WriteOk op)
    {r : Option Errno} (hrun : s.writeStep op = some (r, s')) : Saved s' (s.storeStep flat op) := by
  cases op with
  | store id data =>
    obtain ⟨b, hb, href⟩ := hheld
    obtain ⟨s₁, hs₁, heq⟩ := Option.map_eq_some_iff.1 hrun
    cases heq
    rw [storeStep, hb]
    exact hs.setDirty hb href hs₁
  | setFlush id =>
    obtain ⟨s₁, hs₁, heq⟩ := Option.map_eq_some_iff.1 hrun
    cases heq
    exact hs.modify (f := fun b => { b with flush := true }) hheld
      (fun _ => ⟨rfl, rfl, rfl, rfl, rfl, rfl⟩) (fun b hb => ⟨hb.data, hb.dirty, hb.clean⟩) hs₁
  | setTmp id =>
    obtain ⟨s₁, hs₁, heq⟩ := Option.map_eq_some_iff.1 hrun
    cases heq
    exact hs.modify (f := fun b => { b with tmp := true }) hheld
      (fun _ => ⟨rfl, rfl, rfl, rfl, rfl, rfl⟩) (fun b hb => ⟨hb.data, hb.dirty, hb.clean⟩) hs₁
  | set id =>
    obtain ⟨s₁, hs₁, heq⟩ := Option.map_eq_some_iff.1 hrun
    cases heq
    exact hs.free hok hs₁
  | cacheShake => exact hs.cacheShake hrun
  | cacheWriteBack on => exact hs.cacheSetWriteBack on hrun
  | cacheFlush => exact hs.cacheFlush hrun

/-- **No write error is lost** in a run in which the device takes the writes of
    the releases: what was stored to a released block is on the disk, or in a
    dirty buffer of the dirty list. -/
theorem write_nothing_lost (hs : WriteReach WriteOk s flat) : s.NothingLost flat := by
  have hsaved : Saved s flat := by
    induction hs with
    | start hs => exact hs
    | step op _ hheld hop hstep ih => exact ih.step hheld hop hstep
  exact hsaved.nothingLost

/-! ## A lost block -/

/-- A cache with one buffer, of block 5, which somebody has got and which
    agrees with the disk; the device answers as `faults` says. -/
def oneHeld (faults : List Bool) : Bcache ℕ :=
  { init 8 0 (fun _ => 0) faults with
    lruCtr := 1
    refBlocks := 1
    heap := Function.update (fun _ => none) 0
      (some ⟨5, 0, true, false, false, false, 1, 1, 0, false⟩)
    next := 1
    lbaRoot := [0] }

theorem oneHeld_saved (faults : List Bool) : Saved (oneHeld faults) fun _ => 0 := by
  have hone : ∀ i b, (oneHeld faults).heap i = some b →
      i = 0 ∧ b = ⟨5, 0, true, false, false, false, 1, 1, 0, false⟩ := by
    intro i b hb
    by_cases hi : i = 0
    · subst hi
      exact ⟨rfl, (Option.some.inj hb).symm⟩
    · have hnone : (oneHeld faults).heap i = none := by
        simp only [oneHeld]
        rw [Function.update_of_ne hi]
      rw [hnone] at hb
      cases hb
  refine ⟨⟨fun i j b c hi hj _ => ?_, fun i => ?_, List.nodup_nil, fun i b hb => ?_⟩,
    ⟨fun i b hb => ?_, fun _ _ => rfl⟩, fun i b hb h0 => ?_⟩
  · rw [(hone i b hi).1, (hone j c hj).1]
  · constructor
    · exact fun hm => absurd hm List.not_mem_nil
    · rintro ⟨b, hb, hon⟩
      rw [(hone i b hb).2] at hon
      cases hon
  · rw [(hone i b hb).2]
    exact nofun
  · rw [(hone i b hb).2]
    exact ⟨fun _ => rfl, nofun, fun _ => rfl⟩
  · rw [(hone i b hb).2] at h0
    rcases h0 with h0 | h0 <;> cases h0

/-- A release whose write succeeds. -/
theorem write_nothing_lost_stored : ∃ s : Bcache ℕ, ∃ flat,
    WriteReach WriteOk s flat ∧ flat 5 = 7 ∧ s.NothingLost flat := by
  have hheld : (oneHeld []).Held (.store 0 7) :=
    ⟨_, rfl, not_or.2 ⟨Nat.one_ne_zero, Nat.one_ne_zero⟩⟩
  have hstore := (WriteReach.start (P := WriteOk) (oneHeld_saved [])).step (.store 0 7) hheld
    trivial rfl
  have hset := hstore.step (.set 0) trivial (fun _ _ _ => nofun) rfl
  exact ⟨_, _, hset, rfl, write_nothing_lost hset⟩

/-- **The release of a buffer loses its write error**: it returns `EOK`, and the
    modified buffer is neither on the disk nor on the dirty list. -/
theorem write_loses : ¬ ∀ (s : Bcache ℕ) flat, WriteReach (fun _ _ => True) s flat →
    s.NothingLost flat := by
  intro hall
  have hheld : (oneHeld [true]).Held (.store 0 7) :=
    ⟨_, rfl, not_or.2 ⟨Nat.one_ne_zero, Nat.one_ne_zero⟩⟩
  have hstore := (WriteReach.start (P := fun _ _ => True) (oneHeld_saved [true])).step (.store 0 7)
    hheld trivial rfl
  have hset := hstore.step (.set 0) trivial trivial rfl
  exact List.not_mem_nil ((hall _ _ hset).listed 0 _ rfl (.inl rfl) rfl)

end Bcache

end Lwext4
