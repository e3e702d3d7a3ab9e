/-
  The representation invariant of the block cache.

  `Wf s h L` says that the lists of `s` agree with the buffers `h`, where `L`
  are the buffers in the LRU tree; between operations `h` is the heap and `L`
  the buffers without references (`Inv`).  Inside an operation one buffer is
  ahead of the heap (`Function.update`), and the lemmas below say what each
  link operation does to `Wf`.
-/
import Lwext4.Bcache

namespace Lwext4

namespace Bcache

variable {α : Type}

/-- What a buffer says about itself: one on the dirty list is ready to be
    flushed, and nobody uses it. -/
structure Ok (b : Buf α) : Prop where
  read : b.readRefctr = 0
  list : b.onDirtyList = true → b.dirty = true ∧ b.uptodate = true ∧ b.refctr = 0

/-- The lists of the cache agree with the buffers. -/
structure Wf (s : Bcache α) (h : ℕ → Option (Buf α)) (L : ℕ → Prop) : Prop where
  lba : ∀ i, i ∈ s.lbaRoot ↔ h i ≠ none
  lbaNodup : s.lbaRoot.Nodup
  inj : ∀ i j b c, h i = some b → h j = some c → b.lba = c.lba → i = j
  ref : s.refBlocks = s.lbaRoot.length
  refLt : s.refBlocks < 2 ^ 32
  lru : ∀ i, i ∈ s.lruRoot ↔ L i
  lruNodup : s.lruRoot.Nodup
  lruInj : ∀ i j b c, L i → L j → h i = some b → h j = some c → b.lruId = c.lruId → i = j
  dirty : ∀ i, i ∈ s.dirtyList ↔ ∃ b, h i = some b ∧ b.onDirtyList = true
  dirtyNodup : s.dirtyList.Nodup
  ok : ∀ i b, h i = some b → Ok b
  fresh : ∀ i b, h i = some b → i < s.next

/-- The buffers without references. -/
def Unref (h : ℕ → Option (Buf α)) (i : ℕ) : Prop := ∃ b, h i = some b ∧ b.refctr = 0

/-- The invariant between operations. -/
def Inv (s : Bcache α) : Prop := s.Wf s.heap (Unref s.heap)

/-- The unreferenced buffers when the buffer `id` is linked as `p` says. -/
def UnrefBut (h : ℕ → Option (Buf α)) (id : ℕ) (p : Prop) (i : ℕ) : Prop :=
  if i = id then p else Unref h i

variable {s : Bcache α} {h : ℕ → Option (Buf α)} {L L' : ℕ → Prop} {id : ℕ} {b b' : Buf α}

theorem Wf.congr (hw : s.Wf h L) (hL : ∀ i, L i ↔ L' i) : s.Wf h L' :=
  { hw with
    lru := fun i => (hw.lru i).trans (hL i)
    lruInj := fun i j b c hi hj => hw.lruInj i j b c ((hL i).2 hi) ((hL j).2 hj) }

theorem unrefBut_update {p : Prop} (hb : b.refctr = 0 ↔ p) (i : ℕ) :
    UnrefBut h id p i ↔ Unref (Function.update h id (some b)) i := by
  unfold UnrefBut Unref
  by_cases hi : i = id
  · subst hi
    simp [hb]
  · simp [hi]

/-- At the end of an operation the buffer is stored back. -/
theorem Wf.close {p : Prop} (hw : s.Wf (Function.update s.heap id (some b)) (UnrefBut s.heap id p))
    (hb : b.refctr = 0 ↔ p) : (s.setBuf id b).Inv := by
  have hw' := hw.congr (unrefBut_update hb)
  exact { hw' with }

/-- At the beginning of an operation the buffer is in the heap. -/
theorem Inv.focus (hi : s.Inv) (hb : s.heap id = some b) :
    s.Wf (Function.update s.heap id (some b)) (UnrefBut s.heap id (b.refctr = 0)) := by
  have hsame : Function.update s.heap id (some b) = s.heap := by
    rw [← hb, Function.update_eq_self]
  rw [hsame]
  refine hi.congr fun i => ?_
  unfold UnrefBut Unref
  split_ifs with h
  · subst h
    simp [hb]
  · exact Iff.rfl

/-- A change of the buffer and of its place in the dirty list. -/
theorem Wf.relink {d : List ℕ} (hw : s.Wf (Function.update h id (some b)) L)
    (hlba : b'.lba = b.lba) (hlru : L id → b'.lruId = b.lruId) (hd : d.Nodup)
    (hself : id ∈ d ↔ b'.onDirtyList = true) (hother : ∀ i, i ≠ id → (i ∈ d ↔ i ∈ s.dirtyList))
    (hok : Ok b') : ({ s with dirtyList := d } : Bcache α).Wf (Function.update h id (some b')) L := by
  have hget : ∀ i c, Function.update h id (some b') i = some c →
      ∃ c', Function.update h id (some b) i = some c' ∧ c.lba = c'.lba ∧
        (L i → c.lruId = c'.lruId) := by
    intro i c hc
    by_cases hi : i = id
    · subst hi
      rw [Function.update_self] at hc ⊢
      obtain rfl := Option.some_inj.1 hc
      exact ⟨b, rfl, hlba, hlru⟩
    · rw [Function.update_of_ne hi] at hc ⊢
      exact ⟨c, hc, rfl, fun _ => rfl⟩
  refine ⟨fun i => ?_, hw.lbaNodup, fun i j b₁ c₁ hi hj heq => ?_, hw.ref, hw.refLt, hw.lru, hw.lruNodup,
    fun i j b₁ c₁ hLi hLj hi hj heq => ?_, fun i => ?_, hd, fun i c hc => ?_, fun i c hc => ?_⟩
  · rw [hw.lba]
    by_cases hi : i = id
    · subst hi
      simp
    · rw [Function.update_of_ne hi, Function.update_of_ne hi]
  · obtain ⟨b₂, hb₂, h1, -⟩ := hget i b₁ hi
    obtain ⟨c₂, hc₂, h2, -⟩ := hget j c₁ hj
    exact hw.inj i j b₂ c₂ hb₂ hc₂ (by rw [← h1, ← h2, heq])
  · obtain ⟨b₂, hb₂, -, h1⟩ := hget i b₁ hi
    obtain ⟨c₂, hc₂, -, h2⟩ := hget j c₁ hj
    exact hw.lruInj i j b₂ c₂ hLi hLj hb₂ hc₂ (by rw [← h1 hLi, ← h2 hLj, heq])
  · by_cases hi : i = id
    · subst hi
      simp [hself]
    · rw [hother i hi, hw.dirty, Function.update_of_ne hi, Function.update_of_ne hi]
  · by_cases hi : i = id
    · subst hi
      rw [Function.update_self] at hc
      obtain rfl := Option.some_inj.1 hc
      exact hok
    · rw [Function.update_of_ne hi] at hc
      exact hw.ok i c (by rwa [Function.update_of_ne hi])
  · obtain ⟨c', hc', -⟩ := hget i c hc
    exact hw.fresh i c' hc'

theorem Wf.mem_dirty (hw : s.Wf (Function.update h id (some b)) L) :
    id ∈ s.dirtyList ↔ b.onDirtyList = true := by
  rw [hw.dirty, Function.update_self]
  simp

/-- A change of the buffer that the lists do not see. -/
theorem Wf.update (hw : s.Wf (Function.update h id (some b)) L) (hlba : b'.lba = b.lba)
    (hlru : L id → b'.lruId = b.lruId) (hlist : b'.onDirtyList = b.onDirtyList) (hok : Ok b') :
    s.Wf (Function.update h id (some b')) L :=
  hw.relink hlba hlru hw.dirtyNodup (by rw [hw.mem_dirty, hlist]) (fun _ _ => Iff.rfl) hok

/-- The buffer at work is as it should be. -/
theorem Wf.self (hw : s.Wf (Function.update h id (some b)) L) : Ok b :=
  hw.ok id b (Function.update_self ..)

/-- The LRU counter is no link. -/
theorem Wf.setLruCtr (hw : s.Wf h L) (n : ℕ) : ({ s with lruCtr := n } : Bcache α).Wf h L :=
  { hw with }

/-! ## Links -/

theorem Wf.insertDirty (hw : s.Wf (Function.update h id (some b)) L)
    (hflags : b.dirty = true ∧ b.uptodate = true) (href : b.refctr = 0) :
    (s.insertDirtyNode id b).1.Wf (Function.update h id (some (s.insertDirtyNode id b).2)) L := by
  unfold insertDirtyNode
  cases hon : b.onDirtyList with
  | true => simpa using hw
  | false =>
    have hmem : id ∉ s.dirtyList := by
      rw [hw.mem_dirty, hon]
      exact Bool.false_ne_true
    exact hw.relink rfl (fun _ => rfl) (List.nodup_cons.2 ⟨hmem, hw.dirtyNodup⟩)
      (iff_of_true List.mem_cons_self rfl) (fun i hi => by simp [hi])
      ⟨hw.self.read, fun _ => ⟨hflags.1, hflags.2, href⟩⟩

theorem Wf.removeDirty (hw : s.Wf (Function.update h id (some b)) L) :
    (s.removeDirtyNode id b).1.Wf (Function.update h id (some (s.removeDirtyNode id b).2)) L := by
  unfold removeDirtyNode
  cases hon : b.onDirtyList with
  | true =>
    exact hw.relink rfl (fun _ => rfl) (hw.dirtyNodup.erase id)
      (iff_of_false hw.dirtyNodup.not_mem_erase Bool.false_ne_true)
      (fun i hi => List.mem_erase_of_ne hi) ⟨hw.self.read, fun h => absurd h Bool.false_ne_true⟩
  | false => simpa using hw

theorem removeDirtyNode_snd (s : Bcache α) (id : ℕ) (b : Buf α) :
    (s.removeDirtyNode id b).2 = { b with onDirtyList := false } := by
  unfold removeDirtyNode
  cases hon : b.onDirtyList with
  | true => rfl
  | false =>
    cases b
    simp_all

theorem removeDirty_off (s : Bcache α) (id : ℕ) (b : Buf α) :
    ¬ (s.removeDirtyNode id b).2.onDirtyList = true := by
  rw [removeDirtyNode_snd]
  exact Bool.false_ne_true

/-- Only a dirty buffer is on the dirty list, so that the test of its flag
    makes no difference. -/
theorem removeDirty_of_ok (s : Bcache α) (id : ℕ) (hok : Ok b) :
    (if b.dirty then s.removeDirtyNode id b else (s, b)) = s.removeDirtyNode id b := by
  split_ifs with hd
  · rfl
  · have hoff : ¬ b.onDirtyList = true := fun hon => hd (hok.list hon).1
    rw [removeDirtyNode, if_neg hoff]

/-- Linking into the LRU tree a buffer with an LRU id of its own. -/
theorem Wf.lruInsert {c : Buf α} (hw : s.Wf (Function.update s.heap id (some b)) (UnrefBut s.heap id False))
    (hid : c.lruId = b.lruId) (hnew : ∀ i ∈ s.lruRoot, ∀ b', s.heap i = some b' → b'.lruId ≠ b.lruId) :
    (s.lruInsert id c).Wf (Function.update s.heap id (some b)) (UnrefBut s.heap id True) := by
  have hnone : ¬ (s.lruRoot.any fun i => (s.heap i).any fun b' => b'.lruId == c.lruId) = true := by
    rw [List.any_eq_true]
    rintro ⟨i, hi, hany⟩
    rw [Option.any_eq_true] at hany
    obtain ⟨b', hb', heq⟩ := hany
    exact hnew i hi b' hb' ((eq_of_beq heq).trans hid)
  have hmem : id ∉ s.lruRoot := by
    rw [hw.lru]
    simp [UnrefBut]
  have hL : ∀ i, i ≠ id → (UnrefBut s.heap id True i ↔ UnrefBut s.heap id False i) := by
    intro i hi
    simp [UnrefBut, hi]
  rw [Bcache.lruInsert, if_neg hnone]
  refine { hw with lru := fun i => ?_, lruNodup := List.nodup_cons.2 ⟨hmem, hw.lruNodup⟩, lruInj := ?_ }
  · by_cases hi : i = id
    · subst hi
      simp [UnrefBut]
    · rw [hL i hi, ← hw.lru, List.mem_cons, or_iff_right hi]
  · have hself : ∀ i c₁, UnrefBut s.heap id True i → i ≠ id →
        Function.update s.heap id (some b) i = some c₁ → c₁.lruId ≠ b.lruId := by
      intro i c₁ hi hne hc₁
      rw [Function.update_of_ne hne] at hc₁
      exact hnew i ((hw.lru i).2 ((hL i hne).1 hi)) c₁ hc₁
    intro i j b₁ c₁ hLi hLj hb₁ hc₁ heq
    by_cases hi : i = id <;> by_cases hj : j = id
    · rw [hi, hj]
    · subst hi
      rw [Function.update_self] at hb₁
      obtain rfl := Option.some_inj.1 hb₁
      exact absurd heq.symm (hself j c₁ hLj hj hc₁)
    · subst hj
      rw [Function.update_self] at hc₁
      obtain rfl := Option.some_inj.1 hc₁
      exact absurd heq (hself i b₁ hLi hi hb₁)
    · exact hw.lruInj i j b₁ c₁ ((hL i hi).1 hLi) ((hL j hj).1 hLj) hb₁ hc₁ heq

/-- A buffer without references can be taken from the LRU tree. -/
theorem Wf.lruRemove {s' : Bcache α} (hw : s.Wf (Function.update h id (some b)) (UnrefBut h id True))
    (hs : s.lruRemove id = some s') :
    s'.Wf (Function.update h id (some b)) (UnrefBut h id False) := by
  unfold Bcache.lruRemove at hs
  split_ifs at hs
  obtain rfl := Option.some_inj.1 hs
  have hL : ∀ i, UnrefBut h id False i → UnrefBut h id True i := by
    intro i hi
    by_cases h : i = id
    · simp [UnrefBut, h]
    · simpa [UnrefBut, h] using hi
  refine { hw with
    lru := fun i => ?_, lruNodup := hw.lruNodup.erase id
    lruInj := fun i j b₁ c₁ hi hj => hw.lruInj i j b₁ c₁ (hL i hi) (hL j hj) }
  by_cases hi : i = id
  · subst hi
    exact iff_of_false hw.lruNodup.not_mem_erase (by simp [UnrefBut])
  · rw [List.mem_erase_of_ne hi, hw.lru]
    simp [UnrefBut, hi]

theorem Wf.lruRemove_isSome (hw : s.Wf (Function.update h id (some b)) (UnrefBut h id True)) :
    ∃ s', s.lruRemove id = some s' :=
  ⟨_, if_pos ((hw.lru id).2 (by simp [UnrefBut]))⟩

/-- Taking a buffer out of the cache. -/
theorem Wf.drop (hw : s.Wf (Function.update h id (some b)) (UnrefBut h id False))
    (hoff : b.onDirtyList = false) :
    ({ s with
      lbaRoot := s.lbaRoot.erase id
      heap := Function.update h id none
      refBlocks := sub32 s.refBlocks 1 } : Bcache α).Inv := by
  have hmem : id ∈ s.lbaRoot := (hw.lba id).2 (by simp)
  have hget : ∀ i c, Function.update h id none i = some c →
      i ≠ id ∧ Function.update h id (some b) i = some c := by
    intro i c hc
    by_cases hi : i = id
    · subst hi
      simp at hc
    · rw [Function.update_of_ne hi] at hc ⊢
      exact ⟨hi, hc⟩
  have hL : ∀ i, UnrefBut h id False i ↔ Unref (Function.update h id none) i := by
    intro i
    by_cases hi : i = id
    · subst hi
      simp [UnrefBut, Unref]
    · simp [UnrefBut, Unref, hi]
  have hpos : 1 ≤ s.refBlocks := by
    rw [hw.ref]
    exact List.length_pos_of_mem hmem
  have hsub := sub32_of_le hpos hw.refLt
  have hlt := hw.refLt
  refine ⟨fun i => ?_, hw.lbaNodup.erase id, fun i j b₁ c₁ hi hj => ?_, ?_, ?_, fun i => ?_, hw.lruNodup,
    fun i j b₁ c₁ hLi hLj hi hj => ?_, fun i => ?_, hw.dirtyNodup, fun i c hc => ?_, fun i c hc => ?_⟩
  · by_cases hi : i = id
    · subst hi
      simp [hw.lbaNodup.not_mem_erase]
    · rw [List.mem_erase_of_ne hi, hw.lba]
      simp [hi]
  · exact hw.inj i j b₁ c₁ (hget i b₁ hi).2 (hget j c₁ hj).2
  · show sub32 s.refBlocks 1 = (s.lbaRoot.erase id).length
    rw [hsub, List.length_erase_of_mem hmem, hw.ref]
  · show sub32 s.refBlocks 1 < 2 ^ 32
    omega
  · exact (hw.lru i).trans (hL i)
  · exact hw.lruInj i j b₁ c₁ ((hL i).2 hLi) ((hL j).2 hLj) (hget i b₁ hi).2 (hget j c₁ hj).2
  · show i ∈ s.dirtyList ↔ _
    rw [hw.dirty]
    by_cases hi : i = id
    · subst hi
      simp [hoff]
    · simp [hi]
  · exact hw.ok i c (hget i c hc).2
  · exact hw.fresh i c (hget i c hc).2

theorem newBuf_heap (s : Bcache α) (lba : ℕ) (stale : α) : (s.newBuf lba stale).heap =
    Function.update s.heap s.next
      (some ⟨lba, stale, false, false, false, false, u32 (s.lruCtr + 1), 1, 0, false⟩) :=
  rfl

/-- A new buffer. -/
theorem Inv.newBuf (hi : s.Inv) {lba : ℕ} (hlba : ∀ i c, s.heap i = some c → c.lba ≠ lba)
    (hroom : s.refBlocks + 1 < 2 ^ 32) (stale : α) : (s.newBuf lba stale).Inv := by
  have hfresh : s.heap s.next = none := by
    by_contra hne
    obtain ⟨c, hc⟩ := Option.ne_none_iff_exists'.1 hne
    exact absurd (hi.fresh _ c hc) (lt_irrefl _)
  have hget : ∀ i c, (s.newBuf lba stale).heap i = some c →
      (i = s.next ∧ c = ⟨lba, stale, false, false, false, false, u32 (s.lruCtr + 1), 1, 0, false⟩) ∨
      (i ≠ s.next ∧ s.heap i = some c) := by
    intro i c hc
    by_cases hi : i = s.next
    · subst hi
      left
      rw [newBuf_heap, Function.update_self] at hc
      exact ⟨rfl, (Option.some_inj.1 hc).symm⟩
    · rw [newBuf_heap, Function.update_of_ne hi] at hc
      exact .inr ⟨hi, hc⟩
  have hmem : s.next ∉ s.lbaRoot := by rw [hi.lba, hfresh]; simp
  have hL : ∀ i, Unref s.heap i ↔ Unref (s.newBuf lba stale).heap i := by
    intro i
    rw [newBuf_heap]
    by_cases h : i = s.next
    · subst h
      simp [Unref, hfresh]
    · simp [Unref, h]
  have hLne : ∀ i, Unref (s.newBuf lba stale).heap i → i ≠ s.next := by
    rintro i hu rfl
    obtain ⟨c, hc, -⟩ := (hL _).2 hu
    rw [hfresh] at hc
    exact absurd hc (by simp)
  have href := u32_of_lt hroom
  refine ⟨fun i => ?_, List.nodup_cons.2 ⟨hmem, hi.lbaNodup⟩, fun i j b₁ c₁ hbi hcj heq => ?_, ?_, ?_,
    fun i => (hi.lru i).trans (hL i), hi.lruNodup, fun i j b₁ c₁ hLi hLj hbi hcj heq => ?_,
    fun i => ?_, hi.dirtyNodup, fun i c hc => ?_, fun i c hc => ?_⟩
  · rw [newBuf_heap, show (s.newBuf lba stale).lbaRoot = s.next :: s.lbaRoot by rfl]
    by_cases h : i = s.next
    · subst h
      simp
    · simp [h, hi.lba]
  · rcases hget i b₁ hbi with ⟨rfl, rfl⟩ | ⟨-, hb⟩ <;> rcases hget j c₁ hcj with ⟨rfl, rfl⟩ | ⟨-, hc⟩
    · rfl
    · exact absurd heq.symm (hlba j c₁ hc)
    · exact absurd heq (hlba i b₁ hb)
    · exact hi.inj i j b₁ c₁ hb hc heq
  · show u32 (s.refBlocks + 1) = (s.next :: s.lbaRoot).length
    rw [href, List.length_cons, hi.ref]
  · show u32 (s.refBlocks + 1) < 2 ^ 32
    exact href.trans_lt hroom
  · have hb := (hget i b₁ hbi).resolve_left fun h => hLne i hLi h.1
    have hc := (hget j c₁ hcj).resolve_left fun h => hLne j hLj h.1
    exact hi.lruInj i j b₁ c₁ ((hL i).2 hLi) ((hL j).2 hLj) hb.2 hc.2 heq
  · show i ∈ s.dirtyList ↔ _
    rw [hi.dirty, newBuf_heap]
    by_cases h : i = s.next
    · subst h
      simp [hfresh]
    · simp [h]
  · rcases hget i c hc with ⟨-, rfl⟩ | ⟨-, hc⟩
    · exact ⟨rfl, fun hon => absurd hon Bool.false_ne_true⟩
    · exact hi.ok i c hc
  · show i < s.next + 1
    rcases hget i c hc with ⟨rfl, -⟩ | ⟨-, hc⟩
    · exact Nat.lt_succ_self _
    · exact Nat.lt_succ_of_lt (hi.fresh i c hc)

/-! ## Buffers -/

/-- What working on a buffer leaves alone. -/
structure Kept (s s' : Bcache α) (b b' : Buf α) : Prop where
  heap : s'.heap = s.heap
  lruRoot : s'.lruRoot = s.lruRoot
  lba : b'.lba = b.lba
  lruId : b'.lruId = b.lruId
  refctr : b'.refctr = b.refctr
  uptodate : b'.uptodate = b.uptodate
  tmp : b'.tmp = b.tmp

theorem kept_removeDirty (s : Bcache α) (id : ℕ) (b : Buf α) :
    Kept s (s.removeDirtyNode id b).1 b (s.removeDirtyNode id b).2 := by
  unfold removeDirtyNode
  split_ifs <;> exact ⟨rfl, rfl, rfl, rfl, rfl, rfl, rfl⟩

theorem kept_insertDirty (s : Bcache α) (id : ℕ) (b : Buf α) :
    Kept s (s.insertDirtyNode id b).1 b (s.insertDirtyNode id b).2 := by
  unfold insertDirtyNode
  split_ifs <;> exact ⟨rfl, rfl, rfl, rfl, rfl, rfl, rfl⟩

theorem bwrite_links (s : Bcache α) (lba : ℕ) (data : α) :
    ∃ disk faults, (s.bwrite lba data).2 = { s with disk := disk, faults := faults } := by
  unfold bwrite
  split
  · exact ⟨_, _, rfl⟩
  · exact ⟨_, _, rfl⟩
  · exact ⟨_, s.faults, rfl⟩

theorem Wf.flushBuf (hw : s.Wf (Function.update h id (some b)) L) :
    (s.flushBuf id b).2.1.Wf (Function.update h id (some (s.flushBuf id b).2.2)) L ∧
      Kept s (s.flushBuf id b).2.1 b (s.flushBuf id b).2.2 := by
  rw [Bcache.flushBuf]
  split_ifs with hd
  · obtain ⟨disk, faults, hs⟩ := bwrite_links s b.lba b.data
    have hw₁ : (s.bwrite b.lba b.data).2.Wf (Function.update h id (some b)) L := by
      rw [hs]
      exact { hw with }
    have hk₁ : Kept s (s.bwrite b.lba b.data).2 b b := by
      rw [hs]
      exact ⟨rfl, rfl, rfl, rfl, rfl, rfl, rfl⟩
    generalize s.bwrite b.lba b.data = r at hw₁ hk₁
    obtain ⟨ok, s₁⟩ := r
    cases ok with
    | false => exact ⟨hw₁, hk₁⟩
    | true =>
      have hw₂ := hw₁.removeDirty
      have hk₂ := kept_removeDirty s₁ id b
      have hoff : (s₁.removeDirtyNode id b).2.onDirtyList = false := by rw [removeDirtyNode_snd]
      refine ⟨hw₂.update rfl (fun _ => rfl) rfl ⟨hw₂.self.read, fun hon => ?_⟩, ?_⟩
      · exact absurd (hoff.symm.trans hon) Bool.false_ne_true
      · exact ⟨hk₂.heap.trans hk₁.heap, hk₂.lruRoot.trans hk₁.lruRoot, hk₂.lba, hk₂.lruId, hk₂.refctr,
          hk₂.uptodate, hk₂.tmp⟩
  · exact ⟨hw, rfl, rfl, rfl, rfl, rfl, rfl, rfl⟩

theorem Wf.ready (hw : s.Wf (Function.update h id (some b)) L) (href : b.refctr = 0) :
    (s.ready id b).1.Wf (Function.update h id (some (s.ready id b).2)) L ∧
      Kept s (s.ready id b).1 b (s.ready id b).2 := by
  rw [Bcache.ready]
  split_ifs with hd hback
  · exact ⟨hw.insertDirty (Bool.and_eq_true_iff.1 hd) href, kept_insertDirty s id b⟩
  · obtain ⟨hw₁, hk⟩ := hw.flushBuf
    generalize s.flushBuf id b = r at hw₁ hk
    obtain ⟨e, s₁, b₁⟩ := r
    refine ⟨hw₁.update rfl (fun _ => rfl) rfl ⟨hw₁.self.read, hw₁.self.list⟩, ?_⟩
    · exact ⟨hk.heap, hk.lruRoot, hk.lba, hk.lruId, hk.refctr, hk.uptodate, hk.tmp⟩
  · exact ⟨hw, rfl, rfl, rfl, rfl, rfl, rfl, rfl⟩

/-- Dropping a buffer that is in the LRU tree. -/
theorem Wf.dropBuf (hw : s.Wf (Function.update s.heap id (some b)) (UnrefBut s.heap id True))
    (h0 : b.refctr = 0) : ∃ s', s.dropBuf id b = some s' ∧ s'.Inv ∧
      s'.heap = Function.update s.heap id none ∧ s'.lruRoot = s.lruRoot.erase id := by
  obtain ⟨s₁, hs₁⟩ := hw.lruRemove_isSome
  have hw₁ := hw.lruRemove hs₁
  have hlinks : s₁.heap = s.heap ∧ s₁.lruRoot = s.lruRoot.erase id := by
    unfold Bcache.lruRemove at hs₁
    split_ifs at hs₁
    rw [← Option.some_inj.1 hs₁]
    exact ⟨rfl, rfl⟩
  rw [Bcache.dropBuf, if_pos h0, hs₁, Option.map_some]
  refine ⟨_, rfl, ?_, ?_, ?_⟩
  · by_cases hd : b.dirty = true
    · simp only [if_pos hd]
      have hk := kept_removeDirty s₁ id b
      have hw₂ := hw₁.removeDirty
      rw [hk.heap, hlinks.1]
      exact hw₂.drop (by rw [removeDirtyNode_snd])
    · simp only [if_neg hd]
      rw [hlinks.1]
      refine hw₁.drop ?_
      by_contra hon
      exact hd (hw₁.self.list (by simpa using hon)).1
  · split_ifs
    · simp only [(kept_removeDirty s₁ id b).heap, hlinks.1]
    · simp only [hlinks.1]
  · split_ifs
    · simp only [(kept_removeDirty s₁ id b).lruRoot, hlinks.2]
    · simp only [hlinks.2]

/-! ## The operations -/

/-- No buffer of the LRU tree has the LRU id of the buffer `id`, if this is the
    last reference to it. -/
def NoClash (s : Bcache α) (id : ℕ) : Prop := ∀ b, s.heap id = some b → b.refctr = 1 →
  ∀ i ∈ s.lruRoot, ∀ b', s.heap i = some b' → b'.lruId ≠ b.lruId

/-- A buffer with one reference fewer. -/
def dec (b : Buf α) : Buf α := { b with refctr := b.refctr - 1 }

theorem free_eq (s : Bcache α) (hb : s.heap id = some b) : s.free id =
    if b.lba = 0 ∨ b.refctr = 0 then none
    else if (dec b).refctr = 0 then
      let r := (s.lruInsert id (dec b)).ready id (dec b)
      if r.2.uptodate && !r.2.tmp then some (r.1.setBuf id r.2) else r.1.dropBuf id r.2
    else if (dec b).refctr = (dec b).readRefctr then
      some ((s.ready id (dec b)).1.setBuf id (s.ready id (dec b)).2)
    else some (s.setBuf id (dec b)) := by
  rw [Bcache.free, hb]
  show (if _ then none else if (dec b).refctr = 0 then _ else _) = _
  split_ifs <;> simp_all [dec]

/-- **`ext4_bcache_free`** of a referenced buffer keeps the invariant where no
    LRU ids clash. -/
theorem Inv.free (hi : s.Inv) (hb : s.heap id = some b) (hlba : b.lba ≠ 0) (href : b.refctr ≠ 0)
    (hclash : s.NoClash id) : ∃ s', s.free id = some s' ∧ s'.Inv := by
  have hw := hi.focus hb
  have hoff : b.onDirtyList ≠ true := fun hon => href (hw.self.list hon).2.2
  have hw₀ : s.Wf (Function.update s.heap id (some (dec b))) (UnrefBut s.heap id False) := by
    have hwb := @Wf.congr _ _ _ _ (UnrefBut s.heap id False) hw fun i => by simp [UnrefBut, href]
    exact hwb.update rfl (fun _ => rfl) rfl ⟨hw.self.read, fun hon => absurd hon hoff⟩
  rw [free_eq s hb, if_neg (not_or.2 ⟨hlba, href⟩)]
  by_cases hlast : (dec b).refctr = 0
  · rw [if_pos hlast]
    have hone : b.refctr = 1 := by
      have : b.refctr - 1 = 0 := hlast
      omega
    have hins : (s.lruInsert id (dec b)).Wf (Function.update s.heap id (some (dec b)))
        (UnrefBut s.heap id True) :=
      hw₀.lruInsert rfl (hclash b hb hone)
    have hheap : (s.lruInsert id (dec b)).heap = s.heap := by
      unfold Bcache.lruInsert
      split_ifs <;> rfl
    obtain ⟨hw₁, hk⟩ := hins.ready hlast
    generalize (s.lruInsert id (dec b)).ready id (dec b) = r at hw₁ hk
    obtain ⟨s₁, c₁⟩ := r
    have hheap₁ : s₁.heap = s.heap := hk.heap.trans hheap
    have href₁ : c₁.refctr = 0 := hk.refctr.trans hlast
    rw [← hheap₁] at hw₁
    simp only
    split_ifs
    · exact ⟨_, rfl, hw₁.close (iff_of_true href₁ trivial)⟩
    · obtain ⟨s₂, hs₂, hi₂, -⟩ := hw₁.dropBuf href₁
      exact ⟨s₂, hs₂, hi₂⟩
  · have hread : (dec b).refctr ≠ (dec b).readRefctr := fun h => hlast (h.trans hw.self.read)
    rw [if_neg hlast, if_neg hread]
    exact ⟨_, rfl, hw₀.close (iff_of_false hlast not_false)⟩

theorem lookup_some {lba : ℕ} (h : s.lookup lba = some (id, b)) :
    s.heap id = some b ∧ b.lba = lba := by
  unfold lookup at h
  obtain ⟨i, -, hi⟩ := List.exists_of_findSome?_eq_some h
  rw [Option.bind_eq_some_iff] at hi
  obtain ⟨c, hc, hi⟩ := hi
  split_ifs at hi with hl
  obtain ⟨rfl, rfl⟩ := Prod.mk.inj (Option.some_inj.1 hi)
  exact ⟨hc, hl⟩

theorem lookup_none {lba : ℕ} (hi : s.Inv) (h : s.lookup lba = none) :
    ∀ i c, s.heap i = some c → c.lba ≠ lba := by
  intro i c hc hl
  have hmem : i ∈ s.lbaRoot := (hi.lba i).2 (by rw [hc]; simp)
  have hnone := List.findSome?_eq_none_iff.1 h i hmem
  rw [hc, Option.bind_some, if_pos hl] at hnone
  exact absurd hnone (by simp)

/-- The reference counter of the buffer found does not wrap. -/
def NoWrap (s : Bcache α) (lba : ℕ) : Prop :=
  ∀ p, s.lookup lba = some p → p.2.refctr + 1 < 2 ^ 32

/-- **`ext4_bcache_find_get`** keeps the invariant. -/
theorem Inv.findGet (hi : s.Inv) {lba : ℕ} (hwrap : s.NoWrap lba) :
    ∃ s' r, s.findGet lba = some (s', r) ∧ s'.Inv ∧
    (r = none → s' = s ∧ s.lookup lba = none) := by
  rw [Bcache.findGet]
  cases hl : s.lookup lba with
  | none => exact ⟨s, none, rfl, hi, fun _ => ⟨rfl, rfl⟩⟩
  | some p =>
    obtain ⟨id, b⟩ := p
    obtain ⟨hb, hlba⟩ := lookup_some hl
    have hw := hi.focus hb
    simp only
    by_cases h0 : b.refctr = 0
    · rw [if_pos h0]
      have hw₀ := @Wf.congr _ _ _ _ (UnrefBut s.heap id True) hw fun i => by simp [UnrefBut, h0]
      obtain ⟨s₁, hs₁⟩ := hw₀.lruRemove_isSome
      have hw₁ := hw₀.lruRemove hs₁
      have hheap₁ : s₁.heap = s.heap := by
        unfold Bcache.lruRemove at hs₁
        split_ifs at hs₁
        rw [← Option.some_inj.1 hs₁]
      rw [hs₁, Option.map_some]
      simp only [removeDirty_of_ok s₁ id hw.self]
      have hw₂ := hw₁.removeDirty
      have hk := kept_removeDirty s₁ id b
      have hoff := removeDirty_off s₁ id b
      generalize s₁.removeDirtyNode id b = r at hw₂ hk hoff
      obtain ⟨s₂, c⟩ := r
      refine ⟨_, some id, rfl, ?_, fun h => absurd h (by simp)⟩
      have hw₃ := @Wf.update _ _ _ _ _ _ { c with lruId := u32 (s.lruCtr + 1), refctr := 1 } hw₂ rfl
        (fun h => absurd h (by simp [UnrefBut])) rfl ⟨hw₂.self.read, fun hon => absurd hon hoff⟩
      rw [← hheap₁, ← hk.heap] at hw₃
      have hw₄ := hw₃.setLruCtr (u32 (s.lruCtr + 1))
      exact hw₄.close (iff_of_false Nat.one_ne_zero not_false)
    · rw [if_neg h0]
      have hone := u32_of_lt (hwrap _ hl)
      refine ⟨_, some id, rfl, ?_, fun h => absurd h (by simp)⟩
      have hw₁ := @Wf.update _ _ _ _ _ _ { b with refctr := u32 (b.refctr + 1) } hw rfl (fun _ => rfl) rfl
        ⟨hw.self.read, fun hon => absurd (hw.self.list hon).2.2 h0⟩
      exact hw₁.close (iff_of_false (hone.trans_ne (Nat.succ_ne_zero _)) h0)

theorem Inv.alloc (hi : s.Inv) {lba : ℕ} (hwrap : s.NoWrap lba)
    (hroom : s.lookup lba = none → s.refBlocks + 1 < 2 ^ 32) (oom : Bool) (stale : α) :
    ∃ s' r, s.alloc lba oom stale = some (s', r) ∧ s'.Inv := by
  obtain ⟨s₁, r, hs₁, hi₁, hnone⟩ := hi.findGet hwrap
  rw [Bcache.alloc, hs₁]
  cases r with
  | some id => exact ⟨s₁, some id, rfl, hi₁⟩
  | none =>
    obtain ⟨rfl, hl⟩ := hnone rfl
    cases oom with
    | true => exact ⟨_, _, rfl, hi⟩
    | false => exact ⟨_, _, rfl, hi.newBuf (lookup_none hi hl) (hroom hl) stale⟩

theorem Inv.invalidateBuf (hi : s.Inv) (id : ℕ) : (s.invalidateBuf id).Inv := by
  rw [Bcache.invalidateBuf]
  cases hb : s.heap id with
  | none => exact hi
  | some b =>
    have hw := hi.focus hb
    simp only [removeDirty_of_ok s id hw.self]
    have hw₁ := hw.removeDirty
    have hk := kept_removeDirty s id b
    have hoff := removeDirty_off s id b
    generalize s.removeDirtyNode id b = r at hw₁ hk hoff
    obtain ⟨s₁, c⟩ := r
    have hw₂ := @Wf.update _ _ _ _ _ _ { c with dirty := false, uptodate := false } hw₁ rfl (fun _ => rfl) rfl
      ⟨hw₁.self.read, fun hon => absurd hon hoff⟩
    rw [← hk.heap] at hw₂
    exact hw₂.close (by rw [← hk.refctr])

theorem Inv.invalidateLba (hi : s.Inv) (from' cnt : ℕ) : (s.invalidateLba from' cnt).Inv := by
  rw [Bcache.invalidateLba]
  cases s.lookup from' with
  | none => exact hi
  | some p =>
    simp only
    generalize List.filter _ s.lbaRoot = ids
    induction ids generalizing s with
    | nil => exact hi
    | cons id ids ih => exact ih (hi.invalidateBuf id)

/-! ## Flushing and shaking -/

/-- A round of the flush takes the first buffer off the dirty list, or stops
    at a write error. -/
theorem Inv.flushRound (hi : s.Inv) (hb : s.heap id = some b) (hon : b.onDirtyList = true) :
    ((s.flushBuf id b).2.1.setBuf id (s.flushBuf id b).2.2).Inv ∧
      ((s.flushBuf id b).1 = none → (s.flushBuf id b).2.1.dirtyList = s.dirtyList.erase id) := by
  have hw := hi.focus hb
  obtain ⟨hd, hu, h0⟩ := hw.self.list hon
  constructor
  · obtain ⟨hw₁, hk⟩ := hw.flushBuf
    rw [← hk.heap] at hw₁
    exact hw₁.close (by rw [hk.refctr])
  · intro hnone
    rw [Bcache.flushBuf, if_pos (by rw [hd, hu]; rfl)] at hnone ⊢
    obtain ⟨disk, faults, hs⟩ := bwrite_links s b.lba b.data
    generalize s.bwrite b.lba b.data = r at hs hnone
    obtain ⟨ok, s₁⟩ := r
    cases ok with
    | false => exact absurd hnone (by simp)
    | true =>
      have hlist : s₁.dirtyList = s.dirtyList := by rw [show s₁ = _ from hs]
      simp only [removeDirtyNode, if_pos hon, hlist]

theorem flushLoop_inv (fuel : ℕ) (hi : s.Inv) (hfuel : s.dirtyList.length < fuel) :
    ∃ r s', flushLoop fuel s = some (r, s') ∧ s'.Inv ∧ (r = none → s'.dirtyList = []) := by
  induction fuel generalizing s with
  | zero => exact absurd hfuel (Nat.not_lt_zero _)
  | succ fuel ih =>
    rw [flushLoop]
    cases hlist : s.dirtyList with
    | nil => exact ⟨none, s, rfl, hi, fun _ => hlist⟩
    | cons id rest =>
      obtain ⟨b, hb, hon⟩ := (hi.dirty id).1 (by rw [hlist]; exact List.mem_cons_self)
      obtain ⟨hi₁, hround⟩ := hi.flushRound hb hon
      simp only [hb]
      generalize s.flushBuf id b = r at hi₁ hround
      obtain ⟨e, s₁, b₁⟩ := r
      cases e with
      | some e => exact ⟨some e, _, rfl, hi₁, fun h => absurd h (by simp)⟩
      | none =>
        have hrest : (s₁.setBuf id b₁).dirtyList = rest := by
          show s₁.dirtyList = rest
          rw [hround rfl, hlist, List.erase_cons_head]
        rw [hlist, List.length_cons] at hfuel
        exact ih hi₁ (by rw [hrest]; omega)

/-- **`ext4_block_cache_flush`** terminates; without a write error nothing is
    left on the dirty list. -/
theorem Inv.cacheFlush (hi : s.Inv) :
    ∃ r s', s.cacheFlush = some (r, s') ∧ s'.Inv ∧ (r = none → s'.dirtyList = []) :=
  flushLoop_inv _ hi (Nat.lt_succ_self _)

theorem Inv.lowestLru (hi : s.Inv) (h : s.lowestLru = some id) :
    ∃ b, s.heap id = some b ∧ b.refctr = 0 :=
  (hi.lru id).1 (List.argmin_mem h)

/-- A round of the shake stops at a write error, or drops the buffer. -/
theorem Inv.shakeRound (hi : s.Inv) (hb : s.heap id = some b) (h0 : b.refctr = 0) :
    let r := if b.dirty then s.flushBuf id b else (none, s, b)
    (r.2.1.setBuf id r.2.2).Inv ∧
      ∃ s', r.2.1.dropBuf id r.2.2 = some s' ∧ s'.Inv ∧ s'.lruRoot = s.lruRoot.erase id := by
  intro r
  have hw := hi.focus hb
  obtain ⟨hw₁, hk⟩ : r.2.1.Wf (Function.update s.heap id (some r.2.2)) (UnrefBut s.heap id (b.refctr = 0)) ∧
      Kept s r.2.1 b r.2.2 := by
    by_cases hd : b.dirty = true
    · rw [show r = s.flushBuf id b from if_pos hd]
      exact hw.flushBuf
    · rw [show r = (none, s, b) from if_neg hd]
      exact ⟨hw, rfl, rfl, rfl, rfl, rfl, rfl, rfl⟩
  have h0₁ : r.2.2.refctr = 0 := hk.refctr.trans h0
  rw [← hk.heap] at hw₁
  refine ⟨hw₁.close (by rw [h0, h0₁]), ?_⟩
  obtain ⟨s', hs', hi', -, hlru⟩ := (@Wf.congr _ _ _ _ (UnrefBut r.2.1.heap id True) hw₁
    fun i => by rw [UnrefBut, UnrefBut, eq_true h0]).dropBuf h0₁
  exact ⟨s', hs', hi', by rw [hlru, hk.lruRoot]⟩

theorem shakeLoop_inv (fuel : ℕ) (hi : s.Inv) (hfuel : s.lruRoot.length < fuel) :
    ∃ r s', shakeLoop fuel s = some (r, s') ∧ s'.Inv := by
  induction fuel generalizing s with
  | zero => exact absurd hfuel (Nat.not_lt_zero _)
  | succ fuel ih =>
    rw [shakeLoop]
    cases hlow : s.lowestLru with
    | none => exact ⟨none, s, rfl, hi⟩
    | some id =>
      obtain ⟨b, hb, h0⟩ := hi.lowestLru hlow
      have hmem : id ∈ s.lruRoot := List.argmin_mem hlow
      by_cases hroom : s.refBlocks < s.cnt
      · simp only [if_pos hroom]
        exact ⟨none, s, rfl, hi⟩
      simp only [if_neg hroom, hb]
      obtain ⟨hstop, hgo⟩ := hi.shakeRound hb h0
      generalize (if b.dirty then s.flushBuf id b else (none, s, b)) = r at hstop hgo
      obtain ⟨e, s₁, b₁⟩ := r
      cases e with
      | some e => exact ⟨some e, _, rfl, hstop⟩
      | none =>
        obtain ⟨s₂, hs₂, hi₂, hlru⟩ := hgo
        have hless : s₂.lruRoot.length < fuel := by
          rw [hlru, List.length_erase_of_mem hmem]
          have hpos := List.length_pos_of_mem hmem
          omega
        simp only [show s₁.dropBuf id b₁ = some s₂ from hs₂, Option.bind_some]
        exact ih hi₂ hless

/-- **`ext4_block_cache_shake`** terminates. -/
theorem Inv.cacheShake (hi : s.Inv) : ∃ r s', s.cacheShake = some (r, s') ∧ s'.Inv := by
  rw [Bcache.cacheShake]
  split_ifs
  · exact ⟨none, s, rfl, hi⟩
  · have hi₁ : ({ s with dontShake := true } : Bcache α).Inv := { hi with }
    obtain ⟨r, s', hs', hi'⟩ := shakeLoop_inv (s.lruRoot.length + 1) hi₁ (Nat.lt_succ_self _)
    rw [hs']
    exact ⟨r, _, rfl, { hi' with }⟩

theorem Inv.cacheSetWriteBack (hi : s.Inv) (on : Bool) : ∃ r s',
    s.cacheSetWriteBack on = some (r, s') ∧ s'.Inv ∧
      (s'.cacheWriteBack = 0 → r = none → s'.dirtyList = []) := by
  have hi₁ : ∀ n, ({ s with cacheWriteBack := n } : Bcache α).Inv := fun n => { hi with }
  rw [Bcache.cacheSetWriteBack]
  generalize hsn : (if on = true then ({ s with cacheWriteBack := u32 (s.cacheWriteBack + 1) } : Bcache α)
    else { s with cacheWriteBack := s.cacheWriteBack - 1 }) = s₁
  have hs₁ : s₁.Inv := by
    rw [← hsn]
    split_ifs
    · exact hi₁ _
    · exact hi₁ _
  by_cases hback : s₁.cacheWriteBack ≠ 0
  · simp only [if_pos hback]
    exact ⟨none, s₁, rfl, hs₁, fun h => absurd h hback⟩
  · simp only [if_neg hback]
    obtain ⟨r, s₂, hs₂, hi₂, hempty⟩ := hs₁.cacheFlush
    exact ⟨r, s₂, hs₂, hi₂, fun _ => hempty⟩

end Bcache

end Lwext4
