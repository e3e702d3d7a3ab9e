/-
  Runs of the block cache.

  `Op` are the calls of the cache and of the journal on it; the journal's abort
  of a transaction is an `abort` for each buffer it holds, and a roll-back from
  the log is made of the other calls.  `Legal` is what callers keep to (they
  use buffers they hold a reference to), and `Fits` says that no 32-bit counter
  of the cache wraps onto a value in use.

  Main results.
  * `reach_inv`: where every call is legal and fits, the cache keeps its
    invariant, and every such call succeeds.
  * `lru_loses`: a buffer that is given the LRU id of another one after 2^32 - 1
    look-ups gets lost to the LRU tree.
-/
import Lwext4.BcacheInv

namespace Lwext4

namespace Bcache

variable {α : Type}

/-! ## Calls -/

/-- The calls that work on the cache. -/
inductive Op (α : Type) where
  | findGet (lba : ℕ)
  | alloc (lba : ℕ) (oom : Bool) (stale : α)
  | free (id : ℕ)
  | dropBuf (id : ℕ)
  | invalidateLba (from' cnt : ℕ)
  | cacheFlush
  | cacheShake
  | cacheWriteBack (on : Bool)
  | read (id : ℕ)
  | setFlush (id : ℕ)
  | setTmp (id : ℕ)
  | setDirty (id : ℕ) (data : α)
  | transSetBlockDirty (id : ℕ)
  | abort (id : ℕ)

/-- A change of a buffer in place. -/
def modify (s : Bcache α) (id : ℕ) (f : Buf α → Buf α) : Option (Bcache α) :=
  (s.heap id).map fun b => s.setBuf id (f b)

/-- The read of `ext4_block_get`: the device fills the buffer. -/
def fill (s : Bcache α) (id : ℕ) : Option (Bcache α) :=
  match s.heap id with
  | none => none
  | some b =>
    match s.bread b.lba with
    | (none, s) => some s
    | (some data, s) => some (s.setBuf id { b with data := data, uptodate := true })

/-- `ext4_bcache_set_dirty` after writing `data` to the buffer. -/
def setDirty (s : Bcache α) (id : ℕ) (data : α) : Option (Bcache α) :=
  s.modify id fun b => { b with data := data, uptodate := true, dirty := true }

/-- What `jbd_trans_set_block_dirty` does to a buffer that is new to the
    transaction: the journal takes a reference. -/
def transSetBlockDirty (s : Bcache α) (id : ℕ) : Option (Bcache α) :=
  s.modify id fun b => { b with refctr := u32 (b.refctr + 1), uptodate := true, dirty := true }

/-- What the abort of `jbd_journal_free_trans` does to a buffer of the
    transaction: its flags are cleared, and the reference is returned. -/
def abort (s : Bcache α) (id : ℕ) : Option (Bcache α) :=
  (s.modify id fun b => { b with dirty := false, uptodate := false }).bind fun s => s.free id

/-- The cache after a call, whatever the call returns. -/
def step (s : Bcache α) : Op α → Option (Bcache α)
  | .findGet lba => (s.findGet lba).map Prod.fst
  | .alloc lba oom stale => (s.alloc lba oom stale).map Prod.fst
  | .free id => s.free id
  | .dropBuf id => (s.heap id).bind fun b => s.dropBuf id b
  | .invalidateLba from' cnt => some (s.invalidateLba from' cnt)
  | .cacheFlush => s.cacheFlush.map Prod.snd
  | .cacheShake => s.cacheShake.map Prod.snd
  | .cacheWriteBack on => (s.cacheSetWriteBack on).map Prod.snd
  | .read id => s.fill id
  | .setFlush id => s.modify id fun b => { b with flush := true }
  | .setTmp id => s.modify id fun b => { b with tmp := true }
  | .setDirty id data => s.setDirty id data
  | .transSetBlockDirty id => s.transSetBlockDirty id
  | .abort id => s.abort id

/-- Somebody has a reference to the buffer. -/
def Referenced (s : Bcache α) (id : ℕ) : Prop := ∃ b, s.heap id = some b ∧ b.refctr ≠ 0

/-- Somebody has a reference to the buffer, and it can be returned. -/
def Returnable (s : Bcache α) (id : ℕ) : Prop :=
  ∃ b, s.heap id = some b ∧ b.refctr ≠ 0 ∧ b.lba ≠ 0

/-- Callers use buffers that they hold; only `ext4_bcache_drop_buf` is for any
    buffer of the cache. -/
def Legal (s : Bcache α) : Op α → Prop
  | .findGet _ | .alloc .. | .invalidateLba .. | .cacheFlush | .cacheShake | .cacheWriteBack _ => True
  | .dropBuf id => s.heap id ≠ none
  | .read id | .setFlush id | .setTmp id | .setDirty id _ | .transSetBlockDirty id => s.Referenced id
  | .free id | .abort id => s.Returnable id

/-- The counters of the cache do not wrap onto a value in use: a buffer that
    joins the LRU tree has an LRU id of its own, and there are less than 2^32
    buffers and less than 2^32 references to a buffer. -/
def Fits (s : Bcache α) : Op α → Prop
  | .findGet lba => s.NoWrap lba
  | .alloc lba .. => s.NoWrap lba ∧ (s.lookup lba = none → s.refBlocks + 1 < 2 ^ 32)
  | .free id | .abort id => s.NoClash id
  | .transSetBlockDirty id => ∀ b, s.heap id = some b → b.refctr + 1 < 2 ^ 32
  | .dropBuf _ | .invalidateLba .. | .cacheFlush | .cacheShake | .cacheWriteBack _ => True
  | .read _ | .setFlush _ | .setTmp _ | .setDirty .. => True

/-- The states that calls with the property `P` lead to. -/
inductive Reach (P : Bcache α → Op α → Prop) : Bcache α → Prop
  | init (cnt lgBcnt : ℕ) (disk : ℕ → α) (faults : List Bool) : Reach P (init cnt lgBcnt disk faults)
  | step {s s' : Bcache α} (op : Op α) (hs : Reach P s) (hop : P s op) (hstep : s.step op = some s') :
    Reach P s'

/-- What the cache's trees and lists are for. -/
structure Good (s : Bcache α) : Prop where
  lba : ∀ i ∈ s.lbaRoot, ∀ j ∈ s.lbaRoot, ∀ b c, s.heap i = some b → s.heap j = some c →
    b.lba = c.lba → i = j
  size : s.lbaRoot.Nodup ∧ s.refBlocks = s.lbaRoot.length
  lru : s.lruRoot.Nodup ∧ ∀ i, i ∈ s.lruRoot ↔ i ∈ s.lbaRoot ∧ ∃ b, s.heap i = some b ∧ b.refctr = 0
  dirty : s.dirtyList.Nodup ∧ ∀ i ∈ s.dirtyList, i ∈ s.lbaRoot ∧
    ∃ b, s.heap i = some b ∧ b.dirty = true ∧ b.uptodate = true
  freed : ∀ i, s.heap i = none → i ∉ s.lbaRoot ∧ i ∉ s.lruRoot ∧ i ∉ s.dirtyList
  flush : ∃ r s', s.cacheFlush = some (r, s')

variable {s s' : Bcache α} {id : ℕ} {b : Buf α}

theorem Inv.good (hi : s.Inv) : s.Good where
  lba := fun i _ j _ b c hb hc heq => hi.inj i j b c hb hc heq
  size := ⟨hi.lbaNodup, hi.ref⟩
  lru := by
    refine ⟨hi.lruNodup, fun i => (hi.lru i).trans ⟨fun hu => ⟨?_, hu⟩, fun h => h.2⟩⟩
    obtain ⟨b, hb, -⟩ := hu
    exact (hi.lba i).2 (by simp [hb])
  dirty := by
    refine ⟨hi.dirtyNodup, fun i hmem => ?_⟩
    obtain ⟨b, hb, hon⟩ := (hi.dirty i).1 hmem
    obtain ⟨hd, hu, -⟩ := (hi.ok i b hb).list hon
    exact ⟨(hi.lba i).2 (by simp [hb]), b, hb, hd, hu⟩
  freed := by
    refine fun i hnone => ⟨?_, ?_, ?_⟩
    · rw [hi.lba]
      exact not_not_intro hnone
    · rw [hi.lru]
      rintro ⟨b, hb, -⟩
      rw [hnone] at hb
      exact absurd hb (by simp)
    · rw [hi.dirty]
      rintro ⟨b, hb, -⟩
      rw [hnone] at hb
      exact absurd hb (by simp)
  flush := by
    obtain ⟨r, s', hs', -⟩ := hi.cacheFlush
    exact ⟨r, s', hs'⟩

/-! ## One call -/

theorem inv_init (cnt lgBcnt : ℕ) (disk : ℕ → α) (faults : List Bool) :
    (init cnt lgBcnt disk faults).Inv where
  lba := by simp [init]
  lbaNodup := List.nodup_nil
  inj := by simp [init]
  ref := rfl
  refLt := by simp [init]
  lru := by simp [init, Unref]
  lruNodup := List.nodup_nil
  lruInj := by simp [init]
  dirty := by simp [init]
  dirtyNodup := List.nodup_nil
  ok := by simp [init]
  fresh := by simp [init]

/-- A change of a referenced buffer. -/
theorem Inv.modify (hi : s.Inv) (hb : s.heap id = some b) (href : b.refctr ≠ 0) (f : Buf α → Buf α)
    (hlba : (f b).lba = b.lba) (hf : (f b).refctr ≠ 0) (hlist : (f b).onDirtyList = b.onDirtyList)
    (hread : (f b).readRefctr = b.readRefctr) : ∃ s', s.modify id f = some s' ∧ s'.Inv := by
  have hw := hi.focus hb
  have hoff : ¬ (f b).onDirtyList = true := fun hon => href (hw.self.list (hlist.symm.trans hon)).2.2
  have hw₁ := hw.update hlba (fun h => absurd h (by simp [UnrefBut, href])) hlist
    ⟨hread.trans hw.self.read, fun hon => absurd hon hoff⟩
  rw [Bcache.modify, hb]
  exact ⟨_, rfl, hw₁.close (iff_of_false hf href)⟩

theorem Inv.fill (hi : s.Inv) (hr : s.Referenced id) : ∃ s', s.fill id = some s' ∧ s'.Inv := by
  obtain ⟨b, hb, href⟩ := hr
  obtain ⟨data, faults, hs⟩ : ∃ data faults, s.bread b.lba = (data, { s with faults := faults }) := by
    unfold bread
    split
    · exact ⟨_, _, rfl⟩
    · exact ⟨_, _, rfl⟩
    · exact ⟨_, s.faults, rfl⟩
  have hi₁ : ({ s with faults := faults } : Bcache α).Inv := { hi with }
  rw [Bcache.fill, hb]
  simp only [hs]
  cases data with
  | none => exact ⟨_, rfl, hi₁⟩
  | some data =>
    obtain ⟨s', hs', hi'⟩ := hi₁.modify hb href (fun b => { b with data := data, uptodate := true })
      rfl href rfl rfl
    rw [Bcache.modify, show ({ s with faults := faults } : Bcache α).heap id = some b from hb] at hs'
    exact ⟨s', hs', hi'⟩

theorem Inv.dropAny (hi : s.Inv) (hb : s.heap id = some b) : ∃ s', s.dropBuf id b = some s' ∧ s'.Inv := by
  have hw := hi.focus hb
  by_cases h0 : b.refctr = 0
  · obtain ⟨s', hs', hi', -⟩ := (@Wf.congr _ _ _ _ (UnrefBut s.heap id True) hw
      fun i => by rw [UnrefBut, UnrefBut, eq_true h0]).dropBuf h0
    exact ⟨s', hs', hi'⟩
  · have hoff : b.onDirtyList = false := by
      by_contra hon
      exact h0 (hw.self.list (by simpa using hon)).2.2
    have hw₁ := @Wf.congr _ _ _ _ (UnrefBut s.heap id False) hw fun i => by rw [UnrefBut, UnrefBut, eq_false h0]
    have hnode : s.removeDirtyNode id b = (s, b) := if_neg (by rw [hoff]; exact Bool.false_ne_true)
    have hsame : (if b.dirty then (s.removeDirtyNode id b).1 else s) = s := by rw [hnode, ite_self]
    rw [Bcache.dropBuf, if_neg h0, Option.map_some]
    simp only [hsame]
    exact ⟨_, rfl, hw₁.drop hoff⟩

theorem Inv.abort (hi : s.Inv) (hr : s.Returnable id) (hclash : s.NoClash id) :
    ∃ s', s.abort id = some s' ∧ s'.Inv := by
  obtain ⟨b, hb, href, hlba⟩ := hr
  obtain ⟨s₁, hs₁, hi₁⟩ := hi.modify hb href (fun b => { b with dirty := false, uptodate := false })
    rfl href rfl rfl
  rw [Bcache.abort, hs₁, Option.bind_some]
  rw [Bcache.modify, hb, Option.map_some] at hs₁
  obtain rfl := Option.some_inj.1 hs₁
  refine hi₁.free (Function.update_self ..) hlba href fun c hc hone i hmem c' hc' => ?_
  have hne : i ≠ id := by
    rintro rfl
    obtain ⟨d, hd, h0⟩ := (hi.lru i).1 hmem
    rw [hb] at hd
    exact href (by rw [Option.some_inj.1 hd, h0])
  have hcb : c = { b with dirty := false, uptodate := false } := by
    rw [show (setBuf s id _).heap id = _ from Function.update_self ..] at hc
    exact (Option.some_inj.1 hc).symm
  rw [show (setBuf s id _).heap i = s.heap i from Function.update_of_ne hne ..] at hc'
  rw [hcb] at hone ⊢
  exact hclash b hb hone i hmem c' hc'

/-- **One call** that is legal and fits succeeds and keeps the invariant. -/
theorem Inv.step (hi : s.Inv) (op : Op α) (hlegal : s.Legal op) (hfits : s.Fits op) :
    ∃ s', s.step op = some s' ∧ s'.Inv := by
  cases op with
  | findGet lba =>
    obtain ⟨s', r, hs', hi', -⟩ := hi.findGet hfits
    exact ⟨s', by rw [Bcache.step, hs']; rfl, hi'⟩
  | alloc lba oom stale =>
    obtain ⟨s', r, hs', hi'⟩ := hi.alloc hfits.1 hfits.2 oom stale
    exact ⟨s', by rw [Bcache.step, hs']; rfl, hi'⟩
  | free id =>
    obtain ⟨b, hb, href, hlba⟩ := hlegal
    exact hi.free hb hlba href hfits
  | dropBuf id =>
    obtain ⟨b, hb⟩ := Option.ne_none_iff_exists'.1 hlegal
    rw [Bcache.step, hb]
    exact hi.dropAny hb
  | invalidateLba from' cnt => exact ⟨_, rfl, hi.invalidateLba from' cnt⟩
  | cacheFlush =>
    obtain ⟨r, s', hs', hi', -⟩ := hi.cacheFlush
    exact ⟨s', by rw [Bcache.step, hs']; rfl, hi'⟩
  | cacheShake =>
    obtain ⟨r, s', hs', hi'⟩ := hi.cacheShake
    exact ⟨s', by rw [Bcache.step, hs']; rfl, hi'⟩
  | cacheWriteBack on =>
    obtain ⟨r, s', hs', hi', -⟩ := hi.cacheSetWriteBack on
    exact ⟨s', by rw [Bcache.step, hs']; rfl, hi'⟩
  | read id => exact hi.fill hlegal
  | setFlush id =>
    obtain ⟨b, hb, href⟩ := hlegal
    exact hi.modify hb href _ rfl href rfl rfl
  | setTmp id =>
    obtain ⟨b, hb, href⟩ := hlegal
    exact hi.modify hb href _ rfl href rfl rfl
  | setDirty id data =>
    obtain ⟨b, hb, href⟩ := hlegal
    exact hi.modify hb href _ rfl href rfl rfl
  | transSetBlockDirty id =>
    obtain ⟨b, hb, href⟩ := hlegal
    have hone := u32_of_lt (hfits b hb)
    exact hi.modify hb href _ rfl (hone.trans_ne (Nat.succ_ne_zero _)) rfl rfl
  | abort id => exact hi.abort hlegal hfits

/-! ## Runs -/

/-- The calls of a list have the property `P` and lead from `s` to `s'`. -/
def Run (P : Bcache α → Op α → Prop) : List (Op α) → Bcache α → Bcache α → Prop
  | [], s, s' => s = s'
  | op :: ops, s, s' => P s op ∧ ∃ s₁, s.step op = some s₁ ∧ Run P ops s₁ s'

theorem reach_run {P : Bcache α → Op α → Prop} {ops : List (Op α)} (hs : Reach P s)
    (hrun : Run P ops s s') : Reach P s' := by
  induction ops generalizing s with
  | nil => exact hrun ▸ hs
  | cons op ops ih =>
    obtain ⟨hop, s₁, hs₁, hrun⟩ := hrun
    exact ih (hs.step op hop hs₁) hrun

/-- **In every run** of legal calls that fit, the trees and the dirty list are
    as they should be, and every further such call succeeds. -/
theorem reach_good (hs : Reach (fun s op => s.Legal op ∧ s.Fits op) s) :
    s.Good ∧ ∀ op, s.Legal op → s.Fits op → ∃ s', s.step op = some s' := by
  have hi : s.Inv := by
    induction hs with
    | init => exact inv_init ..
    | step op _ hop hstep ih =>
      obtain ⟨s', hs', hi'⟩ := ih.step op hop.1 hop.2
      rw [hstep] at hs'
      rwa [Option.some_inj.1 hs']
  refine ⟨hi.good, fun op hlegal hfits => ?_⟩
  obtain ⟨s', hs', -⟩ := hi.step op hlegal hfits
  exact ⟨s', hs'⟩

/-- A block is written back in the background. -/
theorem reach_good_delayed : ∃ s : Bcache ℕ,
    Run (fun s op => s.Legal op ∧ s.Fits op) [.cacheWriteBack true, .alloc 1 false 0, .setDirty 0 7, .free 0]
      (init 8 100 (fun _ => 0) []) s ∧ s.Good := by
  obtain ⟨s, hs⟩ : ∃ s : Bcache ℕ, Run (fun s op => s.Legal op ∧ s.Fits op)
      [.cacheWriteBack true, .alloc 1 false 0, .setDirty 0 7, .free 0] (init 8 100 (fun _ => 0) []) s := by
    simp [Run, Legal, Fits, NoWrap, NoClash, Returnable, Referenced, step, cacheSetWriteBack, alloc, findGet,
      lookup, newBuf, setDirty, modify, free, init, lruInsert, setBuf, ready, insertDirtyNode, u32]
  exact ⟨s, hs, (reach_good (reach_run (.init ..) hs)).1⟩

/-! ## The wrap of the LRU counter -/

section Wrap

/-- Two clean blocks are cached, and block 2 has been used last. -/
def twoCached (n : ℕ) (refctr : ℕ) (lruRoot : List ℕ) : Bcache ℕ :=
  { init 3 100 (fun _ => 0) [] with
    lruCtr := n
    refBlocks := 2
    next := 2
    lbaRoot := [1, 0]
    lruRoot := lruRoot
    heap := Function.update
      (Function.update (fun _ => none) 0 (some ⟨1, 0, true, false, false, false, 1, 0, 0, false⟩))
      1 (some ⟨2, 0, true, false, false, false, n, refctr, 0, false⟩) }

/-- The calls that cache blocks 1 and 2. -/
def fillTwo : List (Op ℕ) :=
  [.alloc 1 false 0, .read 0, .free 0, .alloc 2 false 0, .read 1, .free 1]

theorem fillTwo_run : Run Legal fillTwo (init 3 100 (fun _ => 0) []) (twoCached 2 0 [1, 0]) := by
  simp [fillTwo, Run, Legal, Referenced, Returnable, twoCached, step, alloc, findGet, lookup, newBuf, fill,
    bread, free, init, lruInsert, setBuf, ready, u32]

/-- A look-up takes block 2 out of the LRU tree and gives it a new LRU id. -/
theorem findGet_twoCached (n : ℕ) :
    (twoCached n 0 [1, 0]).step (.findGet 2) = some (twoCached (u32 (n + 1)) 1 [0]) := by
  simp [twoCached, step, findGet, lookup, init, lruRemove, setBuf]

/-- Block 1 has the LRU id 1, so that block 2 is linked again with any other. -/
theorem free_twoCached {n : ℕ} (hn : n ≠ 1) :
    (twoCached n 1 [0]).step (.free 1) = some (twoCached n 0 [1, 0]) := by
  simp [twoCached, step, free, init, lruInsert, setBuf, ready, hn.symm]

theorem free_twoCached_one : (twoCached 1 1 [0]).step (.free 1) = some (twoCached 1 0 [0]) := by
  simp [twoCached, step, free, init, lruInsert, setBuf, ready]

theorem returnable_twoCached (n : ℕ) : (twoCached n 1 [0]).Legal (.free 1) :=
  ⟨⟨2, 0, true, false, false, false, n, 1, 0, false⟩, rfl, Nat.one_ne_zero, by simp⟩

/-- A look-up of block 2 and its return. -/
theorem reach_round {n : ℕ} (hs : Reach Legal (twoCached n 0 [1, 0])) (hn : u32 (n + 1) ≠ 1) :
    Reach Legal (twoCached (u32 (n + 1)) 0 [1, 0]) :=
  (hs.step (.findGet 2) trivial (findGet_twoCached n)).step (.free 1) (returnable_twoCached _)
    (free_twoCached hn)

theorem reach_twoCached (k : ℕ) (hk : k + 2 < 2 ^ 32) : Reach Legal (twoCached (k + 2) 0 [1, 0]) := by
  induction k with
  | zero => exact reach_run (.init ..) fillTwo_run
  | succ k ih =>
    have hsucc : u32 (k + 2 + 1) = k + 1 + 2 := u32_of_lt hk
    have hround := reach_round (ih (by omega)) (by omega)
    rwa [hsucc] at hround

/-- **The LRU tree loses a buffer**: when 2^32 - 1 look-ups have brought the LRU
    counter back to 1, block 2 gets the LRU id of block 1, and is left out of
    the tree when it is returned. -/
theorem lru_loses : ¬ ∀ s : Bcache ℕ, Reach Legal s → s.Good := by
  intro h
  have hlast := reach_twoCached (2 ^ 32 - 3) (by omega)
  have hwrap : u32 (2 ^ 32 - 3 + 2 + 1) = 0 := by simp [u32]
  have hzero := reach_round hlast (by rw [hwrap]; exact Nat.zero_ne_one)
  rw [hwrap] at hzero
  have hone : u32 (0 + 1) = 1 := u32_of_lt (by omega)
  have hget := findGet_twoCached 0
  rw [hone] at hget
  have hlost := (hzero.step (.findGet 2) trivial hget).step (.free 1) (returnable_twoCached _)
    free_twoCached_one
  have hmem := ((h _ hlost).lru.2 1).2 ⟨by simp [twoCached], _, rfl, rfl⟩
  exact absurd hmem (by simp [twoCached])

end Wrap

end Bcache

end Lwext4
