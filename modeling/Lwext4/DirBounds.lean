/-
  Where the walks over directory blocks go, on blocks of any content.

  The iterator checks every record.  The search of a name, the insertion and
  the search of a predecessor trust the record lengths and the name lengths:
  a record may begin right in front of the end of the block, the room in a
  record may wrap around, a record may be longer than the block, which an
  assertion rejects, a record of length 0 holds the insertion forever, and
  clearing the inode of an entry may destroy the length of the record in front.

  Main results.
  * `walksSafe_iff`: the exact condition under which all of them end, stay in
    the block and keep away from the checksum tail;
  * `zeros_loop`: a block of zeros, in which the insertion does not end.
-/
import Lwext4.DirWalk

namespace Lwext4

open Lib

/-- The access lies in the block, and in front of the tail if it writes an
    entry. -/
def InBlock (sb : DirSb) (b : Mem) (a : Access DirUse) : Prop :=
  a.off + a.len ≤ sb.blockSize ∧ (a.obj = .put → a.off + a.len ≤ dirArea sb b)

/-- No assertion failed. -/
def NoAssert {α : Type} (r : Except Stop α) : Prop := r ≠ .error .assert

/-- The operation ends, and well, with some fuel, and stays in the block. -/
structure StaysIn (sb : DirSb) (b : Mem) {α : Type} (well : α → Prop)
    (run : ℕ → Traced DirUse (Option α)) : Prop where
  ends : ∃ fuel r, (run fuel).val = some r ∧ well r
  inside : ∀ fuel, (run fuel).All (InBlock sb b)

/-! ## The condition -/

/-- The records a walk comes to if it halts at the first one with `halt`. -/
inductive Record (b : Mem) (halt : ℕ → Prop) : ℕ → Prop
  | first : Record b halt 0
  | next {p : ℕ} (hp : Record b halt p) (hgo : ¬ halt p) : Record b halt (p + dirEnGetEntryLen b p)

/-- The search of a name halts at the record. -/
def FindHalts (sb : DirSb) (b : Mem) (name : List Byte) (p : ℕ) : Prop :=
  sb.blockSize ≤ p ∨ sb.blockSize < p + name.length ∨ dirEnMatches sb b name p = true ∨
    dirEnGetEntryLen b p = 0

/-- The insertion halts at the record. -/
def InsertHalts (sb : DirSb) (b : Mem) (len p : ℕ) : Prop :=
  sb.blockSize ≤ p ∨ TakesUnused sb b len p ∨ Splits sb b len p

/-- How much of a record the search of a name looks at. -/
def findNeed (sb : DirSb) (b : Mem) (len p : ℕ) : ℕ :=
  if dirEnGetInode b p = 0 then 6
  else if dirEnGetNameLen sb b p = len then 8 + len
  else if sb.oldRev then 8 else 7

/-- How much of a record the insertion looks at. -/
def insertNeed (sb : DirSb) (b : Mem) (p : ℕ) : ℕ :=
  if sb.oldRev ∧ dirEnGetInode b p = 0 then 6 else 8

/-- What the search looks at lies in the block. -/
def DirFindOk (sb : DirSb) (b : Mem) (name : List Byte) : Prop :=
  ∀ p, Record b (FindHalts sb b name) p → p < sb.blockSize → p + name.length ≤ sb.blockSize →
    p + findNeed sb b name.length p ≤ sb.blockSize

/-- What the insertion does at a record lies in the block. -/
structure DirInsertOkAt (sb : DirSb) (b : Mem) (len p : ℕ) : Prop where
  head : p + insertNeed sb b p ≤ sb.blockSize
  /-- An unused record that is said to be long enough is, and is no longer than
      the block. -/
  unused : TakesUnused sb b len p →
    dirEnGetEntryLen b p ≤ sb.blockSize ∧ p + (8 + len) ≤ dirArea sb b
  /-- A used record that is said to have room for another entry has it, and it
      is no longer than the block. -/
  split : Splits sb b len p → p + 6 ≤ dirArea sb b ∧ dirFreeSpace sb b p ≤ sb.blockSize ∧
    p + dirUsedSize (dirEnGetNameLen sb b p) + (8 + len) ≤ dirArea sb b
  /-- A record left behind has a length. -/
  moves : ¬ TakesUnused sb b len p → ¬ Splits sb b len p → dirEnGetEntryLen b p ≠ 0

/-- What the insertion does lies in the block, and it goes forward. -/
def DirInsertOk (sb : DirSb) (b : Mem) (len : ℕ) : Prop :=
  ∀ p, Record b (InsertHalts sb b len) p → p < sb.blockSize → DirInsertOkAt sb b len p

/-- The inode of the entry found can be cleared: it lies in front of the tail
    and behind the lengths of the records before it. -/
def DirTakeOk (sb : DirSb) (b : Mem) (name : List Byte) : Prop :=
  ∀ pos, Record b (FindHalts sb b name) pos → pos < sb.blockSize →
    pos + name.length ≤ sb.blockSize → dirEnMatches sb b name pos = true →
    pos + 4 ≤ dirArea sb b ∧
      ∀ p, Record b (FindHalts sb b name) p → p < pos → p + 5 ≤ pos

/-! ## The accesses of single steps -/

section
variable {sb : DirSb} {csum : Mem → ℕ} {b b' : Mem} {child : Child} {name : List Byte}
  {p pos fuel off len : ℕ}

@[simp] theorem inBlock_get : InBlock sb b ⟨.get, off, len⟩ ↔ off + len ≤ sb.blockSize :=
  and_iff_left nofun

@[simp] theorem inBlock_put : InBlock sb b ⟨.put, off, len⟩ ↔ off + len ≤ dirArea sb b :=
  ⟨fun h => h.2 rfl, fun h => ⟨h.trans (area_le sb b), fun _ => h⟩⟩

@[simp] theorem inBlock_csum : InBlock sb b ⟨.csum, off, len⟩ ↔ off + len ≤ sb.blockSize :=
  and_iff_left nofun

theorem getNameLenT_all : (dirEnGetNameLenT sb b' p).All (InBlock sb b) ↔
    p + (if sb.oldRev then 8 else 7) ≤ sb.blockSize := by
  unfold dirEnGetNameLenT
  split_ifs with h
  · simp only [Traced.all_bind, Traced.all_getLE, Traced.all_pure, inBlock_get, and_true]
    omega
  · rw [Traced.all_getLE, inBlock_get, Nat.add_assoc]

theorem getInodeTypeT_all : (dirEnGetInodeTypeT sb b' p).All (InBlock sb b) ↔
    (sb.oldRev = false → p + 8 ≤ sb.blockSize) := by
  unfold dirEnGetInodeTypeT
  cases h : sb.oldRev with
  | true => simp
  | false => simp [Nat.add_assoc]

theorem writeEntryT_all : (ext4DirWriteEntryT sb b' p len child name).All (InBlock sb b) ↔
    (len ≤ sb.blockSize → p + (8 + name.length) ≤ dirArea sb b) := by
  unfold ext4DirWriteEntryT
  split_ifs with h
  · rw [Traced.all_pure]
    exact iff_of_true trivial fun hle => absurd h (Nat.not_lt.2 hle)
  · simp only [Traced.all_bind, Traced.all_touch, Traced.all_pure, inBlock_put, and_true]
    omega

/-- The checksum lies in the block. -/
theorem setCsumT_all (hbs : dirEntryTailSize ≤ sb.blockSize) :
    (ext4DirSetCsumT sb csum b').All (InBlock sb b) := by
  have h12 : dirEntryTailSize = 12 := rfl
  unfold ext4DirSetCsumT
  by_cases h : sb.metadataCsum = true
  · rw [if_pos h, Traced.all_bind, Traced.all_touch, inBlock_get]
    refine ⟨by omega, ?_⟩
    by_cases ht : ext4DirGetTail sb b' = true
    · rw [if_pos ht]
      simp only [Traced.all_bind, Traced.all_touch, Traced.all_pure, inBlock_get, inBlock_csum,
        and_true]
      omega
    · rw [if_neg ht]
      exact (Traced.all_pure _).2 trivial
  · rw [if_neg h]
    exact (Traced.all_pure _).2 trivial

theorem finishT_all (hbs : dirEntryTailSize ≤ sb.blockSize) (r : Except Stop Mem) :
    (dirFinishT sb csum r).All (InBlock sb b) := by
  cases r with
  | error e => exact (Traced.all_pure _).2 trivial
  | ok b' =>
    rw [dirFinishT, Traced.all_bind]
    exact ⟨setCsumT_all hbs, (Traced.all_pure _).2 trivial⟩

theorem matchesT_all : (dirEnMatchesT sb b name p).All (InBlock sb b) ↔
    p + (if dirEnGetInode b p = 0 then 4 else findNeed sb b name.length p) ≤ sb.blockSize := by
  have h : (dirEnMatchesT sb b name p).All (InBlock sb b) ↔ p + 4 ≤ sb.blockSize ∧
      (dirEnMatchesAtT sb b name p (dirEnGetInode b p)).All (InBlock sb b) := by
    rw [dirEnMatchesT, Traced.all_bind, Traced.all_getLE, inBlock_get]
    rfl
  rw [h, dirEnMatchesAtT, findNeed]
  by_cases hi : dirEnGetInode b p = 0
  · simp only [if_pos hi, Traced.all_pure, and_true]
  rw [if_neg hi, if_neg hi, if_neg hi, Traced.all_bind, getNameLenT_all, getNameLenT_val]
  by_cases hl : dirEnGetNameLen sb b p = name.length
  · rw [if_pos hl, if_pos hl, Traced.all_bind, Traced.all_read, inBlock_get]
    simp only [Traced.all_pure, and_true]
    split_ifs <;> omega
  · rw [if_neg hl, if_neg hl]
    simp only [Traced.all_pure, and_true]
    split_ifs <;> omega

theorem findNeed_le : 6 ≤ findNeed sb b len p := by
  unfold findNeed
  split_ifs <;> omega

/-- What a round of the search looks at. -/
theorem findBody_all : (dirFindBody sb b name p).All (InBlock sb b) ↔
    (p < sb.blockSize → p + name.length ≤ sb.blockSize →
      p + findNeed sb b name.length p ≤ sb.blockSize) := by
  unfold dirFindBody
  by_cases h1 : sb.blockSize ≤ p
  · simp [h1, Nat.not_lt.2 h1]
  by_cases h2 : sb.blockSize < p + name.length
  · simp [h1, h2, Nat.not_le.2 h2]
  rw [if_neg h1, if_neg h2, Traced.all_bind, matchesT_val, matchesT_all]
  simp only [Nat.not_le.1 h1, Nat.not_lt.1 h2, forall_true_left]
  by_cases hm : dirEnMatches sb b name p = true
  · rw [if_pos hm, if_neg (matches_iff.1 hm).1]
    exact and_iff_left ((Traced.all_pure _).2 trivial)
  rw [if_neg hm, Traced.all_bind, Traced.all_getLE, inBlock_get]
  have hrest : (if (Traced.getLE DirUse.get b (p + 4) 2).val = 0 then
      (pure (.stop (.error (.rc Errno.EINVAL))) : Traced DirUse (Next (Except Stop ℕ)))
      else pure (.go (p + (Traced.getLE DirUse.get b (p + 4) 2).val))).All (InBlock sb b) := by
    split_ifs <;> exact (Traced.all_pure _).2 trivial
  rw [and_iff_left hrest]
  have hneed := @findNeed_le sb b p name.length
  have hzero : dirEnGetInode b p = 0 → findNeed sb b name.length p = 6 := fun h => by
    rw [findNeed, if_pos h]
  split_ifs with hi
  · have := hzero hi
    omega
  · omega

/-- What a round of the insertion touches. -/
theorem insertAt_all (hbs : dirEntryTailSize ≤ sb.blockSize) :
    (dirInsertAtT sb csum b child name p (dirEnGetInode b p) (dirEnGetEntryLen b p)
      (dirEnGetInodeType sb b p)).All (InBlock sb b) ↔
    (dirEnGetInode b p ≠ 0 → p + (if sb.oldRev then 8 else 7) ≤ sb.blockSize) ∧
    (TakesUnused sb b name.length p → dirEnGetEntryLen b p ≤ sb.blockSize →
      p + (8 + name.length) ≤ dirArea sb b) ∧
    (Splits sb b name.length p → p + 6 ≤ dirArea sb b ∧ (dirFreeSpace sb b p ≤ sb.blockSize →
      p + dirUsedSize (dirEnGetNameLen sb b p) + (8 + name.length) ≤ dirArea sb b)) := by
  unfold dirInsertAtT
  by_cases hi : dirEnGetInode b p = 0
  · have hns : ¬ Splits sb b name.length p := fun h => h.1 hi
    by_cases ht : TakesUnused sb b name.length p
    · rw [if_pos (show _ ∧ _ ∧ _ from ht), Traced.all_bind, writeEntryT_all,
        and_iff_left (finishT_all hbs _)]
      simp [hi, ht, hns]
    · rw [if_neg (show ¬(_ ∧ _ ∧ _) from ht), if_pos hi]
      simp [hi, ht, hns]
  · have hnt : ¬ TakesUnused sb b name.length p := fun h => hi h.1
    rw [if_neg fun h => hi h.1, if_neg hi, Traced.all_bind, getNameLenT_all, getNameLenT_val,
      dirSplitAtT, ← dirFreeSpace]
    by_cases hs : Splits sb b name.length p
    · rw [if_pos hs.2, Traced.all_bind, Traced.all_touch, inBlock_put, Traced.all_bind,
        writeEntryT_all, and_iff_left (finishT_all hbs _)]
      simp [hi, hnt, hs, Nat.add_assoc]
    · rw [if_neg fun h => hs ⟨hi, h⟩]
      simp [hi, hnt, hs]

/-- A round of the insertion at a record in the block. -/
theorem tryInsertBody_all (hbs : dirEntryTailSize ≤ sb.blockSize) (hp : p < sb.blockSize) :
    (dirTryInsertBody sb csum b child name p).All (InBlock sb b) ↔
    p + insertNeed sb b p ≤ sb.blockSize ∧
    (TakesUnused sb b name.length p → dirEnGetEntryLen b p ≤ sb.blockSize →
      p + (8 + name.length) ≤ dirArea sb b) ∧
    (Splits sb b name.length p → p + 6 ≤ dirArea sb b ∧ (dirFreeSpace sb b p ≤ sb.blockSize →
      p + dirUsedSize (dirEnGetNameLen sb b p) + (8 + name.length) ≤ dirArea sb b)) := by
  have h : (dirTryInsertBody sb csum b child name p).All (InBlock sb b) ↔
      p + 4 ≤ sb.blockSize ∧ p + 6 ≤ sb.blockSize ∧ (sb.oldRev = false → p + 8 ≤ sb.blockSize) ∧
        (dirInsertAtT sb csum b child name p (dirEnGetInode b p) (dirEnGetEntryLen b p)
          (dirEnGetInodeType sb b p)).All (InBlock sb b) := by
    unfold dirTryInsertBody
    rw [if_neg (Nat.not_le.2 hp), Traced.all_bind, Traced.all_getLE, inBlock_get, Traced.all_bind,
      Traced.all_getLE, inBlock_get, Traced.all_bind, getInodeTypeT_all, getInodeTypeT_val]
    rfl
  have hhead : p + insertNeed sb b p ≤ sb.blockSize ↔
      p + 4 ≤ sb.blockSize ∧ p + 6 ≤ sb.blockSize ∧ (sb.oldRev = false → p + 8 ≤ sb.blockSize) ∧
        (dirEnGetInode b p ≠ 0 → p + (if sb.oldRev then 8 else 7) ≤ sb.blockSize) := by
    rw [insertNeed]
    cases sb.oldRev with
    | true => by_cases hi : dirEnGetInode b p = 0 <;> simp [hi] <;> omega
    | false => by_cases hi : dirEnGetInode b p = 0 <;> simp [hi] <;> omega
  rw [h, insertAt_all hbs, hhead]
  simp only [and_assoc]

/-! ## The search and the insertion -/

theorem visits_iff_record {α : Type} {body : ℕ → Traced DirUse (Next α)} {halt : ℕ → Prop}
    (h : ∀ p q, (body p).val = .go q ↔ ¬ halt p ∧ q = p + dirEnGetEntryLen b p) :
    Visits body 0 p ↔ Record b halt p := by
  constructor
  · intro hv
    induction hv with
    | start => exact .first
    | next _ hs ih =>
      obtain ⟨hgo, rfl⟩ := (h _ _).1 hs
      exact .next ih hgo
  · intro hr
    induction hr with
    | first => exact .start
    | next _ hgo ih => exact .next ih ((h _ _).2 ⟨hgo, rfl⟩)

theorem find_go_iff (p q : ℕ) : (dirFindBody sb b name p).val = .go q ↔
    ¬ FindHalts sb b name p ∧ q = p + dirEnGetEntryLen b p := by
  rw [findBody_val, FindHalts]
  split_ifs with h1 h2 h3 h4
  · simp [h1]
  · simp [h2]
  · simp [h3]
  · simp [h4]
  · simp [h1, h2, h3, h4, eq_comm]

theorem find_stop_iff (p q : ℕ) : (dirFindBody sb b name p).val = .stop (.ok q) ↔
    q = p ∧ p < sb.blockSize ∧ p + name.length ≤ sb.blockSize ∧
      dirEnMatches sb b name p = true := by
  rw [findBody_val]
  split_ifs with h1 h2 h3 h4
  · simp [Nat.not_lt.2 h1]
  · simp [Nat.not_le.2 h2]
  · simp [Nat.not_le.1 h1, Nat.not_lt.1 h2, h3, eq_comm]
  · simp [h3]
  · simp [h3]

theorem insert_go_iff (p q : ℕ) : (dirTryInsertBody sb csum b child name p).val = .go q ↔
    ¬ InsertHalts sb b name.length p ∧ q = p + dirEnGetEntryLen b p := by
  rw [tryInsertBody_val, InsertHalts]
  split_ifs with h1 h2
  · simp [h1]
  · simp [h2]
  · simp [h1, h2, eq_comm]

theorem visits_find : Visits (dirFindBody sb b name) 0 p ↔ Record b (FindHalts sb b name) p :=
  visits_iff_record find_go_iff

theorem visits_insert : Visits (dirTryInsertBody sb csum b child name) 0 p ↔
    Record b (InsertHalts sb b name.length) p :=
  visits_iff_record insert_go_iff

/-- The search goes forward, below the end of the block. -/
theorem find_lt {p q : ℕ} (h : (dirFindBody sb b name p).val = .go q) :
    p < q ∧ p < sb.blockSize := by
  obtain ⟨hgo, rfl⟩ := (find_go_iff p q).1 h
  have hlen : dirEnGetEntryLen b p ≠ 0 := fun h0 => hgo (.inr (.inr (.inr h0)))
  have hlt : ¬ sb.blockSize ≤ p := fun h0 => hgo (.inl h0)
  omega

/-- **The search ends**, on every block. -/
theorem find_ends : (walk (dirFindBody sb b name) (sb.blockSize + 1) 0).val ≠ none :=
  walk_ends_of_lt (fun _ _ h => (find_lt h).1) (fun _ _ h => (find_lt h).2) (by omega)

theorem findLoop_noAssert {r : Except Stop ℕ}
    (h : (walk (dirFindBody sb b name) fuel 0).val = some r) : NoAssert r := by
  obtain ⟨q, -, hq⟩ := walk_some h
  rw [findBody_val] at hq
  split_ifs at hq <;> cases hq <;> exact nofun

theorem find_all : (∀ q, Visits (dirFindBody sb b name) 0 q →
    (dirFindBody sb b name q).All (InBlock sb b)) ↔ DirFindOk sb b name := by
  simp only [visits_find, findBody_all]
  rfl

theorem find_staysIn : StaysIn sb b NoAssert (fun fuel => walk (dirFindBody sb b name) fuel 0) ↔
    DirFindOk sb b name := by
  rw [← find_all, ← walk_all]
  constructor
  · exact fun h => h.inside
  · intro h
    obtain ⟨r, hr⟩ := Option.ne_none_iff_exists'.1 (@find_ends sb b name)
    exact ⟨⟨_, r, hr, findLoop_noAssert hr⟩, h⟩

theorem writeEntry_noAssert : NoAssert ((ext4DirWriteEntry sb b' p len child name).map
    (ext4DirSetCsum sb csum)) ↔ len ≤ sb.blockSize := by
  unfold ext4DirWriteEntry NoAssert
  split_ifs with h
  · exact iff_of_false (fun hne => hne rfl) (Nat.not_le.2 h)
  · exact iff_of_true nofun (Nat.not_lt.1 h)

/-- The entry written at a record is no longer than the block. -/
theorem insertedAt_noAssert (h : TakesUnused sb b len p ∨ Splits sb b len p) :
    NoAssert (insertedAt sb csum b child name p) ↔
      (TakesUnused sb b len p → dirEnGetEntryLen b p ≤ sb.blockSize) ∧
      (Splits sb b len p → dirFreeSpace sb b p ≤ sb.blockSize) := by
  rw [insertedAt]
  rcases h with ht | hs
  · have hns : ¬ Splits sb b len p := fun h => h.1 ht.1
    rw [if_pos ht.1]
    simp only [writeEntry_noAssert, ht, hns, forall_true_left, false_implies, and_true]
  · have hnt : ¬ TakesUnused sb b len p := fun h => hs.1 h.1
    rw [if_neg hs.1]
    simp only [writeEntry_noAssert, hs, hnt, forall_true_left, false_implies, true_and]

/-- The insertion passes the assertion of `ext4_dir_write_entry` exactly if the
    record it takes is no longer than the block. -/
theorem insert_noAssert {r : Except Stop Mem}
    (h : (walk (dirTryInsertBody sb csum b child name) fuel 0).val = some r) :
    NoAssert r ↔ ∀ p, Record b (InsertHalts sb b name.length) p → p < sb.blockSize →
      (TakesUnused sb b name.length p → dirEnGetEntryLen b p ≤ sb.blockSize) ∧
      (Splits sb b name.length p → dirFreeSpace sb b p ≤ sb.blockSize) := by
  obtain ⟨q, hq, hr⟩ := walk_some h
  constructor
  · intro hno p hp hlt
    by_cases hhold : TakesUnused sb b name.length p ∨ Splits sb b name.length p
    · have hstop : (dirTryInsertBody sb csum b child name p).val =
          .stop (insertedAt sb csum b child name p) := by
        rw [tryInsertBody_val, if_neg (Nat.not_le.2 hlt), if_pos hhold]
      obtain rfl := hq.stop_unique (visits_insert.2 hp) hr hstop
      obtain rfl := Next.stop.inj (hr.symm.trans hstop)
      exact (insertedAt_noAssert hhold).1 hno
    · exact ⟨fun ht => absurd (.inl ht) hhold, fun hs => absurd (.inr hs) hhold⟩
  · intro hall
    rw [tryInsertBody_val] at hr
    split_ifs at hr with h1 h2
    · obtain rfl := Next.stop.inj hr
      exact nofun
    · obtain rfl := Next.stop.inj hr
      exact (insertedAt_noAssert h2).2 (hall q (visits_insert.1 hq) (Nat.not_le.1 h1))

/-- The insertion ends exactly if it leaves no record of length 0 behind. -/
theorem insert_ends_iff : Ends (dirTryInsertBody sb csum b child name) 0 ↔
    ∀ p, Record b (InsertHalts sb b name.length) p → p < sb.blockSize →
      ¬ TakesUnused sb b name.length p → ¬ Splits sb b name.length p →
      dirEnGetEntryLen b p ≠ 0 := by
  rw [@ends_iff _ _ _ _ sb.blockSize]
  · simp only [visits_insert, ne_eq, insert_go_iff, InsertHalts, not_or]
    refine forall_congr' fun p => forall_congr' fun _ => ?_
    constructor
    · intro h hp ht hs h0
      exact h ⟨⟨Nat.not_le.2 hp, ht, hs⟩, by omega⟩
    · rintro h ⟨⟨hp, ht, hs⟩, h0⟩
      exact h (Nat.not_le.1 hp) ht hs (by omega)
  · intro p q h
    obtain ⟨-, rfl⟩ := (insert_go_iff p q).1 h
    exact Nat.le_add_right _ _
  · intro p q h
    exact Nat.not_le.1 fun h0 => ((insert_go_iff p q).1 h).1 (.inl h0)

theorem insert_staysIn (hbs : dirEntryTailSize ≤ sb.blockSize) :
    StaysIn sb b NoAssert (fun fuel => walk (dirTryInsertBody sb csum b child name) fuel 0) ↔
      DirInsertOk sb b name.length := by
  have hall : (∀ fuel, (walk (dirTryInsertBody sb csum b child name) fuel 0).All (InBlock sb b)) ↔
      ∀ p, Record b (InsertHalts sb b name.length) p →
        (dirTryInsertBody sb csum b child name p).All (InBlock sb b) := by
    rw [walk_all]
    simp only [visits_insert]
  constructor
  · rintro ⟨⟨fuel, r, hr, hno⟩, hin⟩ p hp hlt
    obtain ⟨h1, h2, h3⟩ := (tryInsertBody_all hbs hlt).1 (hall.1 hin p hp)
    obtain ⟨h4, h5⟩ := (insert_noAssert hr).1 hno p hp hlt
    have hends : Ends (dirTryInsertBody sb csum b child name) 0 :=
      ⟨fuel, by rw [hr]; exact Option.some_ne_none r⟩
    exact ⟨h1, fun ht => ⟨h4 ht, h2 ht (h4 ht)⟩, fun hs => ⟨(h3 hs).1, h5 hs, (h3 hs).2 (h5 hs)⟩,
      insert_ends_iff.1 hends p hp hlt⟩
  · intro h
    obtain ⟨fuel, hf⟩ : Ends (dirTryInsertBody sb csum b child name) 0 :=
      insert_ends_iff.2 fun p hp hlt => (h p hp hlt).moves
    obtain ⟨r, hr⟩ := Option.ne_none_iff_exists'.1 hf
    have hno : NoAssert r := (insert_noAssert hr).2 fun p hp hlt =>
      ⟨fun ht => ((h p hp hlt).unused ht).1, fun hs => ((h p hp hlt).split hs).2.1⟩
    refine ⟨⟨fuel, r, hr, hno⟩, hall.2 fun p hp => ?_⟩
    by_cases hlt : p < sb.blockSize
    · obtain ⟨h1, h2, h3, -⟩ := h p hp hlt
      exact (tryInsertBody_all hbs hlt).2
        ⟨h1, fun ht _ => (h2 ht).2, fun hs => ⟨(h3 hs).1, fun _ => (h3 hs).2.2⟩⟩
    · rw [dirTryInsertBody, if_pos (Nat.not_lt.1 hlt)]
      exact (Traced.all_pure _).2 trivial

/-! ## Removing -/

/-- The two bytes of a length. -/
theorem entryLen_bytes (c : Mem) (p : ℕ) :
    dirEnGetEntryLen c p = getLE c (p + 4) 1 + 256 * getLE c (p + 5) 1 :=
  getLE_add c (p + 4) 1 1

theorem setInode_zero_byte {i : ℕ} (h1 : pos ≤ i) (h2 : i < pos + 4) :
    getLE (dirEnSetInode b pos 0) i 1 = 0 := by
  have h0 : getLE (dirEnSetInode b pos 0) pos 4 = 0 := getLE_putLE b pos 4 0
  refine getLE_eq_zero_iff.2 fun j hj1 hj2 => ?_
  exact getLE_eq_zero_iff.1 h0 j (by omega) (by omega)

/-- Clearing an inode leaves the length of a record before it alone, if it does
    not lie over its low byte. -/
theorem entryLen_clear_far (hfar : p + 5 ≤ pos) (hlen : p + dirEnGetEntryLen b p ≤ pos) :
    dirEnGetEntryLen (dirEnSetInode b pos 0) p = dirEnGetEntryLen b p := by
  by_cases h6 : p + 6 ≤ pos
  · exact getLE_putLE_of_disjoint (.inl (by omega))
  · have hlow : getLE (dirEnSetInode b pos 0) (p + 4) 1 = getLE b (p + 4) 1 :=
      getLE_putLE_of_disjoint (.inl (by omega))
    have hhigh := @setInode_zero_byte b pos (p + 5) (by omega) (by omega)
    have hb := entryLen_bytes b p
    rw [entryLen_bytes, hlow, hhigh]
    omega

/-- Otherwise it makes it 0. -/
theorem entryLen_clear_near (hlt : p < pos) (hnear : pos < p + 5)
    (hlen : p + dirEnGetEntryLen b p ≤ pos) :
    dirEnGetEntryLen (dirEnSetInode b pos 0) p = 0 := by
  have hlow := @setInode_zero_byte b pos (p + 4) (by omega) (by omega)
  have hhigh : getLE (dirEnSetInode b pos 0) (p + 5) 1 = 0 := by
    by_cases h1 : p + 5 < pos + 4
    · exact setInode_zero_byte (by omega) h1
    · have hsame : getLE (dirEnSetInode b pos 0) (p + 5) 1 = getLE b (p + 5) 1 :=
        getLE_putLE_of_disjoint (.inr (by omega))
      have hb := entryLen_bytes b p
      omega
  rw [entryLen_bytes, hlow, hhigh]

theorem pred_go_iff {c : Mem} (p q : ℕ) : (dirPredBody c pos p).val = .go q ↔
    p + dirEnGetEntryLen c p < pos ∧ q = p + dirEnGetEntryLen c p := by
  rw [predBody_val]
  split_ifs with h
  · simp [h, eq_comm]
  · simp [h]

theorem pred_stop_iff {c : Mem} (p q : ℕ) : (dirPredBody c pos p).val = .stop q ↔
    q = p ∧ pos ≤ p + dirEnGetEntryLen c p := by
  rw [predBody_val]
  split_ifs with h
  · simp [Nat.not_le.2 h]
  · simp [Nat.not_lt.1 h, eq_comm]

/-- The search of the predecessor goes on in front of `pos` only. -/
theorem pred_ends_iff {c : Mem} : Ends (dirPredBody c pos) 0 ↔
    ∀ p, Visits (dirPredBody c pos) 0 p → p < pos → dirEnGetEntryLen c p ≠ 0 := by
  rw [@ends_iff _ _ _ _ pos]
  · refine forall_congr' fun p => forall_congr' fun _ => ?_
    rw [ne_eq, pred_go_iff]
    constructor
    · intro h hlt h0
      exact h ⟨by omega, by omega⟩
    · rintro h ⟨hlt, h0⟩
      exact h (by omega) (by omega)
  · intro p q h
    obtain ⟨-, rfl⟩ := (pred_go_iff p q).1 h
    exact Nat.le_add_right _ _
  · intro p q h
    have := ((pred_go_iff p q).1 h).1
    omega

/-- The record in front of another one on the way of the search. -/
theorem Record.next_le (hp : Visits (dirFindBody sb b name) 0 p)
    (hpos : Visits (dirFindBody sb b name) 0 pos) (hlt : p < pos) :
    Visits (dirFindBody sb b name) 0 (p + dirEnGetEntryLen b p) ∧ dirEnGetEntryLen b p ≠ 0 ∧
      p + dirEnGetEntryLen b p ≤ pos := by
  have hle : ∀ q r, (dirFindBody sb b name q).val = .go r → q ≤ r := fun q r h => (find_lt h).1.le
  rcases hp.total hpos with h | h
  · rcases h.uncons with rfl | ⟨q, hq, hv⟩
    · exact absurd hlt (lt_irrefl _)
    · have hgt := (find_lt hq).1
      obtain ⟨-, rfl⟩ := (find_go_iff p q).1 hq
      exact ⟨.next hp hq, by omega, hv.le hle⟩
  · exact absurd (h.le hle) (Nat.not_le.2 hlt)

/-- The search of the predecessor comes to the records of the search. -/
theorem pred_visits (hpos : Visits (dirFindBody sb b name) 0 pos)
    (hfar : ∀ p, Visits (dirFindBody sb b name) 0 p → p < pos → p + 5 ≤ pos) (h0 : 0 < pos)
    (h : Visits (dirPredBody (dirEnSetInode b pos 0) pos) 0 p) :
    Visits (dirFindBody sb b name) 0 p ∧ p < pos := by
  induction h with
  | start => exact ⟨.start, h0⟩
  | @next q r _ hs ih =>
    obtain ⟨hv, hlt⟩ := ih
    obtain ⟨hn, -, hle⟩ := Record.next_le hv hpos hlt
    obtain ⟨hgo, rfl⟩ := (pred_go_iff q r).1 hs
    rw [entryLen_clear_far (hfar q hv hlt) hle] at hgo ⊢
    exact ⟨hn, hgo⟩

/-- **The predecessor is found**, if no length is destroyed. -/
theorem pred_found (hpos : Visits (dirFindBody sb b name) 0 pos)
    (hfar : ∀ p, Visits (dirFindBody sb b name) 0 p → p < pos → p + 5 ≤ pos) (h0 : 0 < pos) :
    ∃ fuel p, (walk (dirPredBody (dirEnSetInode b pos 0) pos) fuel 0).val = some p := by
  obtain ⟨fuel, hf⟩ : Ends (dirPredBody (dirEnSetInode b pos 0) pos) 0 := by
    refine pred_ends_iff.2 fun p hp hlt => ?_
    obtain ⟨hv, -⟩ := pred_visits hpos hfar h0 hp
    obtain ⟨-, hlen, hle⟩ := Record.next_le hv hpos hlt
    rwa [entryLen_clear_far (hfar p hv hlt) hle]
  exact ⟨fuel, Option.ne_none_iff_exists'.1 hf⟩

/-- What is found lies in front of the entry and ends at it. -/
theorem pred_is (hpos : Visits (dirFindBody sb b name) 0 pos)
    (hfar : ∀ p, Visits (dirFindBody sb b name) 0 p → p < pos → p + 5 ≤ pos) (h0 : 0 < pos)
    (h : (walk (dirPredBody (dirEnSetInode b pos 0) pos) fuel 0).val = some p) :
    p + 5 ≤ pos ∧ dirEnGetEntryLen (dirEnSetInode b pos 0) p + p = pos := by
  obtain ⟨q, hq, hs⟩ := walk_some h
  obtain ⟨rfl, hge⟩ := (pred_stop_iff q p).1 hs
  obtain ⟨hv, hlt⟩ := pred_visits hpos hfar h0 hq
  obtain ⟨-, -, hle⟩ := Record.next_le hv hpos hlt
  have h5 := hfar p hv hlt
  rw [entryLen_clear_far h5 hle] at hge ⊢
  exact ⟨h5, by omega⟩

/-- If the search of the predecessor ends, no length was destroyed. -/
theorem pred_far (hpos : Visits (dirFindBody sb b name) 0 pos)
    (h : Ends (dirPredBody (dirEnSetInode b pos 0) pos) 0)
    (hp : Visits (dirFindBody sb b name) 0 p) (hlt : p < pos) :
    p + 5 ≤ pos ∧ Visits (dirPredBody (dirEnSetInode b pos 0) pos) 0 p := by
  have hends := pred_ends_iff.1 h
  have hfar : ∀ q, Visits (dirFindBody sb b name) 0 q → q < pos →
      Visits (dirPredBody (dirEnSetInode b pos 0) pos) 0 q → q + 5 ≤ pos := by
    intro q hq hlt hv
    by_contra hnear
    obtain ⟨-, -, hle⟩ := Record.next_le hq hpos hlt
    exact hends q hv hlt (entryLen_clear_near hlt (by omega) hle)
  induction hp with
  | start => exact ⟨hfar 0 .start hlt .start, .start⟩
  | @next q r hq hs ih =>
    have hqr := (find_lt hs).1
    obtain ⟨h5, hv⟩ := ih (by omega)
    obtain ⟨-, rfl⟩ := (find_go_iff q r).1 hs
    have hlen : dirEnGetEntryLen (dirEnSetInode b pos 0) q = dirEnGetEntryLen b q :=
      entryLen_clear_far h5 (by omega)
    have hr : Visits (dirPredBody (dirEnSetInode b pos 0) pos) 0 (q + dirEnGetEntryLen b q) :=
      .next hv ((pred_go_iff q _).2 ⟨by omega, by omega⟩)
    exact ⟨hfar _ (.next hq hs) hlt hr, hr⟩

theorem predBody_all {c : Mem} : (dirPredBody c pos p).All (InBlock sb b) ↔
    p + 6 ≤ sb.blockSize := by
  unfold dirPredBody
  rw [Traced.all_bind, Traced.all_getLE, inBlock_get]
  refine and_iff_left ?_
  split_ifs <;> exact (Traced.all_pure _).2 trivial

theorem removeAt_all (h0 : pos ≠ 0) : (dirRemoveAtT sb csum b fuel pos).All (InBlock sb b) ↔
    pos + 4 ≤ dirArea sb b ∧
      (walk (dirPredBody (dirEnSetInode b pos 0) pos) fuel 0).All (InBlock sb b) ∧
      ∀ p, (walk (dirPredBody (dirEnSetInode b pos 0) pos) fuel 0).val = some p →
        (dirMergeT sb csum (dirEnSetInode b pos 0) pos p).All (InBlock sb b) := by
  rw [dirRemoveAtT, Traced.all_bind, Traced.all_touch, inBlock_put, if_pos h0, Traced.all_bind]
  cases (walk (dirPredBody (dirEnSetInode b pos 0) pos) fuel 0).val with
  | none => simp
  | some p => simp

/-- What clearing the entry at `pos` needs. -/
theorem removeAt_staysIn (hbs : dirEntryTailSize ≤ sb.blockSize)
    (hpos : Visits (dirFindBody sb b name) 0 pos) (hhead : pos + 6 ≤ sb.blockSize) :
    StaysIn sb b NoAssert (fun fuel => dirRemoveAtT sb csum b fuel pos) ↔
      pos + 4 ≤ dirArea sb b ∧
        ∀ p, Visits (dirFindBody sb b name) 0 p → p < pos → p + 5 ≤ pos := by
  by_cases h0 : pos = 0
  · subst h0
    have hall : ∀ fuel, (dirRemoveAtT sb csum b fuel 0).All (InBlock sb b) ↔
        0 + 4 ≤ dirArea sb b := by
      intro fuel
      rw [dirRemoveAtT, Traced.all_bind, Traced.all_touch, inBlock_put, if_neg (not_not.2 rfl),
        Traced.all_bind]
      exact and_iff_left ⟨setCsumT_all hbs, (Traced.all_pure _).2 trivial⟩
    constructor
    · exact fun h => ⟨(hall 0).1 (h.inside 0), fun p _ hp => absurd hp (Nat.not_lt_zero p)⟩
    · rintro ⟨h, -⟩
      exact ⟨⟨0, _, removeAtT_zero, fun hs => by cases hs⟩, fun fuel => (hall fuel).2 h⟩
  have hpos0 : 0 < pos := Nat.pos_of_ne_zero h0
  constructor
  · rintro ⟨⟨fuel, r, hr, -⟩, hin⟩
    refine ⟨((removeAt_all h0).1 (hin 0)).1, fun p hp hlt => ?_⟩
    have hends : Ends (dirPredBody (dirEnSetInode b pos 0) pos) 0 := by
      refine ⟨fuel, fun hnone => ?_⟩
      rw [removeAtT_pos h0, hnone] at hr
      cases hr
    exact (pred_far hpos hends hp hlt).1
  · rintro ⟨harea, hfar⟩
    constructor
    · obtain ⟨fuel, p, hp⟩ := pred_found hpos hfar hpos0
      refine ⟨fuel, (dirMergeT sb csum (dirEnSetInode b pos 0) pos p).val, ?_, ?_⟩
      · rw [removeAtT_pos h0, hp]
        rfl
      · rw [mergeT_val, if_neg (not_not.2 (pred_is hpos hfar hpos0 hp).2)]
        exact fun hs => by cases hs
    · intro fuel
      refine (removeAt_all h0).2 ⟨harea, walk_all.2 (fun p hp => ?_) fuel, fun p hp => ?_⟩
      · obtain ⟨hv, hlt⟩ := pred_visits hpos hfar hpos0 hp
        exact predBody_all.2 (by omega)
      · obtain ⟨h5, hlen⟩ := pred_is hpos hfar hpos0 hp
        rw [dirMergeT, Traced.all_bind, Traced.all_getLE, inBlock_get, Traced.getLE_val]
        rw [if_neg (not_not.2 (show getLE (dirEnSetInode b pos 0) (p + 4) 2 + p = pos from hlen))]
        simp only [Traced.all_bind, Traced.all_getLE, Traced.all_touch, Traced.all_pure,
          inBlock_get, inBlock_put, setCsumT_all hbs, and_true]
        omega

/-- What `ext4_dir_remove_entry` needs. -/
theorem remove_staysIn (hbs : dirEntryTailSize ≤ sb.blockSize) :
    StaysIn sb b NoAssert (fun fuel => ext4DirRemoveEntryT sb csum b name fuel) ↔
      DirFindOk sb b name ∧ DirTakeOk sb b name := by
  obtain ⟨r, hr⟩ := Option.ne_none_iff_exists'.1 (@find_ends sb b name)
  obtain ⟨q, hq, hs⟩ := walk_some hr
  have hfind : ext4DirFindInBlock sb b name = some r := by
    rw [ext4DirFindInBlock, ← walk_find]
    exact hr
  have hall : ∀ fuel, (ext4DirRemoveEntryT sb csum b name fuel).All (InBlock sb b) ↔
      DirFindOk sb b name ∧ ∀ pos, r = .ok pos →
        (dirRemoveAtT sb csum b fuel pos).All (InBlock sb b) := by
    intro fuel
    rw [ext4DirRemoveEntryT, Traced.all_bind, walk_all_of_ends find_ends, find_all, hr]
    cases r with
    | error e => simp
    | ok pos => simp
  cases r with
  | error e =>
    constructor
    · rintro ⟨-, hin⟩
      refine ⟨((hall 0).1 (hin 0)).1, fun pos hpos h1 h2 h3 => ?_⟩
      have hstop := (find_stop_iff pos pos).2 ⟨rfl, h1, h2, h3⟩
      have heq := hq.stop_unique (visits_find.2 hpos) hs hstop
      rw [heq, hstop] at hs
      cases hs
    · rintro ⟨h, -⟩
      refine ⟨⟨0, _, removeEntryT_error hfind, ?_⟩,
        fun fuel => (hall fuel).2 ⟨h, fun _ hs => by cases hs⟩⟩
      exact fun he => findLoop_noAssert hr (by cases he; rfl)
  | ok pos =>
    obtain ⟨rfl, h1, h2, h3⟩ := (find_stop_iff q pos).1 hs
    have hremove : DirFindOk sb b name →
        (StaysIn sb b NoAssert (fun fuel => dirRemoveAtT sb csum b fuel pos) ↔
          DirTakeOk sb b name) := by
      intro hf
      have hhead := hf pos (visits_find.1 hq) h1 h2
      have := @findNeed_le sb b pos name.length
      rw [removeAt_staysIn hbs hq (by omega)]
      simp only [visits_find]
      constructor
      · intro h pos' hpos' h1' h2' h3'
        have hstop := (find_stop_iff pos' pos').2 ⟨rfl, h1', h2', h3'⟩
        rw [← hq.stop_unique (visits_find.2 hpos') hs hstop]
        exact h
      · exact fun h => h pos (visits_find.1 hq) h1 h2 h3
    constructor
    · rintro ⟨⟨fuel, r, hr, hn⟩, hin⟩
      have hf := ((hall 0).1 (hin 0)).1
      refine ⟨hf, (hremove hf).1 ⟨⟨fuel, r, ?_, hn⟩, fun k => ((hall k).1 (hin k)).2 _ rfl⟩⟩
      rwa [removeEntryT_ok hfind] at hr
    · rintro ⟨hf, ht⟩
      obtain ⟨⟨fuel, r, hr, hn⟩, hin⟩ := (hremove hf).2 ht
      refine ⟨⟨fuel, r, ?_, hn⟩, fun fuel => (hall fuel).2 ⟨hf, ?_⟩⟩
      · rwa [removeEntryT_ok hfind]
      · rintro pos' h
        cases h
        exact hin fuel

end

/-! ## The iterator -/

namespace DirFile

variable {d : DirFile} {sb : DirSb} {b : Mem} {it it' : DirIter} {pos fuel : ℕ}

/-- The states of an iterator behind calls without errors. -/
inductive IterReached (d : DirFile) : DirIter → Prop
  | init {pos : ℕ} {it : DirIter} (h : d.iteratorInit pos = (.ok (), it)) : IterReached d it
  | next {fuel : ℕ} {it it' : DirIter} (hr : IterReached d it) (hcurr : it.curr ≠ none)
      (h : d.iteratorNext fuel it = some (.ok (), it')) : IterReached d it'

/-- If the iterator stands at a record, the record lies in the block. -/
def Placed (d : DirFile) (it : DirIter) : Prop :=
  ∀ en, it.curr = some en → it.currOff < d.size ∧ en + 8 ≤ d.sb.blockSize ∧
    8 ≤ dirEnGetEntryLen (d.disk it.lbId) en ∧
    en + dirEnGetEntryLen (d.disk it.lbId) en ≤ d.sb.blockSize

theorem iteratorSet_curr {en : ℕ} (h : (d.iteratorSet it).2.curr = some en) :
    (d.iteratorSet it).2 = { it with curr := some en } ∧ en + 8 ≤ d.sb.blockSize ∧
      8 ≤ dirEnGetEntryLen (d.disk it.lbId) en ∧
      en + dirEnGetEntryLen (d.disk it.lbId) en ≤ d.sb.blockSize := by
  unfold iteratorSet at h ⊢
  dsimp only at h ⊢
  split_ifs at h ⊢ with h1 h2 h3 h4
  cases h
  exact ⟨rfl, by omega, by omega, by omega⟩

/-- After a seek the iterator stands at a record, at the offset sought, or
    nowhere. -/
theorem iteratorSeek_curr {en : ℕ}
    (h : (d.iteratorSeek it pos).2.curr = some en) :
    (d.iteratorSeek it pos).2.currOff = pos ∧ pos < d.size ∧ en + 8 ≤ d.sb.blockSize ∧
      8 ≤ dirEnGetEntryLen (d.disk (d.iteratorSeek it pos).2.lbId) en ∧
      en + dirEnGetEntryLen (d.disk (d.iteratorSeek it pos).2.lbId) en ≤ d.sb.blockSize := by
  unfold iteratorSeek at h ⊢
  by_cases hsize : d.size ≤ pos
  · rw [if_pos hsize] at h
    cases h
  · rw [if_neg hsize] at h ⊢
    obtain ⟨heq, h8, hlen⟩ := iteratorSet_curr h
    rw [heq]
    exact ⟨rfl, Nat.not_le.1 hsize, h8, hlen⟩

theorem iteratorSeek_placed : d.Placed (d.iteratorSeek it pos).2 := by
  intro en h
  obtain ⟨hoff, hlt, h8, hlen⟩ := iteratorSeek_curr h
  exact ⟨by omega, h8, hlen⟩

theorem iteratorSetT_all (hd : d.sb = sb) (hbs : 8 ≤ sb.blockSize) :
    (d.iteratorSetT it).All (InBlock sb b) := by
  subst hd
  unfold iteratorSetT
  dsimp only
  split_ifs with h1 h2
  · exact (Traced.all_pure _).2 trivial
  · exact (Traced.all_pure _).2 trivial
  · rw [Traced.all_bind, Traced.all_getLE, inBlock_get]
    refine ⟨by omega, ?_⟩
    unfold iteratorCheckT
    split_ifs with h3
    · exact (Traced.all_pure _).2 trivial
    · rw [Traced.all_bind, getNameLenT_all]
      constructor
      · split_ifs <;> omega
      · split_ifs <;> exact (Traced.all_pure _).2 trivial

theorem iteratorSeekT_all (hd : d.sb = sb) (hbs : 8 ≤ sb.blockSize) :
    (d.iteratorSeekT it pos).All (InBlock sb b) := by
  unfold iteratorSeekT
  split_ifs with h
  · exact (Traced.all_pure _).2 trivial
  · exact iteratorSetT_all hd hbs

theorem iteratorSet_noAssert : NoAssert (d.iteratorSet it).1 := by
  unfold iteratorSet
  dsimp only
  split_ifs <;> exact nofun

theorem iteratorSeek_noAssert : NoAssert (d.iteratorSeek it pos).1 := by
  unfold iteratorSeek
  split_ifs
  · exact nofun
  · exact iteratorSet_noAssert

/-- The result of a step of the iterator. -/
theorem iteratorNext_cases {r : Except Stop Unit × DirIter} (hcurr : it.curr ≠ none)
    (h : d.iteratorNext fuel it = some r) : NoAssert r.1 ∧ d.Placed r.2 := by
  induction fuel generalizing it with
  | zero => cases h
  | succ fuel ih =>
    obtain ⟨en, hen⟩ := Option.ne_none_iff_exists'.1 hcurr
    rw [iteratorNext, hen] at h
    dsimp only at h
    generalize u64 (it.currOff + dirEnGetEntryLen (d.disk it.lbId) en) = pos at h
    have hplaced : d.Placed (d.iteratorSeek it pos).2 := iteratorSeek_placed
    have hno : NoAssert (d.iteratorSeek it pos).1 := iteratorSeek_noAssert
    generalize d.iteratorSeek it pos = x at h hplaced hno
    obtain ⟨e, it'⟩ := x
    dsimp only at h hplaced hno
    cases hc : it'.curr with
    | none =>
      rw [hc] at h
      cases h
      exact ⟨hno, hplaced⟩
    | some en' =>
      rw [hc] at h
      dsimp only at h
      split_ifs at h with hi
      · cases h
        exact ⟨hno, hplaced⟩
      · cases e with
        | error e =>
          cases h
          exact ⟨hno, hplaced⟩
        | ok u => exact ih (by rw [hc]; exact Option.some_ne_none en') h

theorem IterReached.placed (h : d.IterReached it) : d.Placed it := by
  induction h with
  | @init pos it h =>
    have hp := @iteratorSeek_placed d { curr := none, currOff := 0, lbId := 0 } pos
    rw [← iteratorInit, h] at hp
    exact hp
  | next _ hcurr h _ => exact (iteratorNext_cases hcurr h).2

/-- **The iterator ends**: every record moves it forward. -/
theorem iteratorNext_ends (hbs : 8 ≤ d.sb.blockSize) (hsize : d.size + d.sb.blockSize ≤ 2 ^ 64)
    (hp : d.Placed it) (hcurr : it.curr ≠ none) (hfuel : d.size - it.currOff < fuel) :
    d.iteratorNext fuel it ≠ none := by
  induction fuel generalizing it with
  | zero => omega
  | succ fuel ih =>
    obtain ⟨en, hen⟩ := Option.ne_none_iff_exists'.1 hcurr
    obtain ⟨hlt, -, hlen, hend⟩ := hp en hen
    rw [iteratorNext, hen]
    dsimp only
    have hpos : u64 (it.currOff + dirEnGetEntryLen (d.disk it.lbId) en) =
        it.currOff + dirEnGetEntryLen (d.disk it.lbId) en := u64_of_lt (by omega)
    rw [hpos]
    generalize hq : it.currOff + dirEnGetEntryLen (d.disk it.lbId) en = pos
    have hplaced : d.Placed (d.iteratorSeek it pos).2 := iteratorSeek_placed
    have hoff : ∀ en', (d.iteratorSeek it pos).2.curr = some en' →
        (d.iteratorSeek it pos).2.currOff = pos := fun en' h => (iteratorSeek_curr h).1
    generalize d.iteratorSeek it pos = x at hplaced hoff
    obtain ⟨e, it'⟩ := x
    dsimp only at hplaced hoff ⊢
    cases hc : it'.curr with
    | none => exact Option.some_ne_none _
    | some en' =>
      dsimp only
      have := hoff en' hc
      split_ifs with hi
      · exact Option.some_ne_none _
      · cases e with
        | error e => exact Option.some_ne_none _
        | ok u => exact ih hplaced (by rw [hc]; exact Option.some_ne_none en') (by omega)

/-- **The iterator stays in the block.** -/
theorem iteratorNextT_all (hd : d.sb = sb) (hbs : 8 ≤ sb.blockSize) (hp : d.Placed it) :
    (d.iteratorNextT fuel it).All (InBlock sb b) := by
  induction fuel generalizing it with
  | zero => exact (Traced.all_pure _).2 trivial
  | succ fuel ih =>
    rw [iteratorNextT]
    cases hen : it.curr with
    | none => exact (Traced.all_pure _).2 trivial
    | some en =>
      obtain ⟨-, h8, -⟩ := hp en hen
      dsimp only
      rw [Traced.all_bind, Traced.all_getLE, inBlock_get, Traced.all_bind]
      refine ⟨by rw [← hd]; omega, iteratorSeekT_all hd hbs, ?_⟩
      rw [iteratorSeekT_val, Traced.getLE_val]
      generalize u64 (it.currOff + getLE (d.disk it.lbId) (en + 4) 2) = pos
      have hplaced : d.Placed (d.iteratorSeek it pos).2 := iteratorSeek_placed
      generalize d.iteratorSeek it pos = x at hplaced
      obtain ⟨e, it'⟩ := x
      dsimp only at hplaced ⊢
      cases hc : it'.curr with
      | none => exact (Traced.all_pure _).2 trivial
      | some en' =>
        obtain ⟨-, h8', -⟩ := hplaced en' hc
        dsimp only
        rw [Traced.all_bind, Traced.all_getLE, inBlock_get]
        refine ⟨by rw [← hd]; omega, ?_⟩
        split_ifs with hi
        · exact (Traced.all_pure _).2 trivial
        · cases e with
          | error e => exact (Traced.all_pure _).2 trivial
          | ok u => exact ih hplaced

end DirFile

/-- The iterator ends and stays in the block, on every directory and wherever it
    starts. -/
structure IterSafe (sb : DirSb) (b : Mem) (d : DirFile) : Prop where
  init : ∀ pos, (d.iteratorInitT pos).All (InBlock sb b)
  next : ∀ it, d.IterReached it → it.curr ≠ none →
    StaysIn sb b (fun r => NoAssert r.1) (fun fuel => d.iteratorNextT fuel it)

theorem iterSafe {sb : DirSb} {b : Mem} {d : DirFile} (hd : d.sb = sb) (hbs : 8 ≤ sb.blockSize)
    (hsize : d.size + d.sb.blockSize ≤ 2 ^ 64) : IterSafe sb b d := by
  have hbs' : 8 ≤ d.sb.blockSize := hd ▸ hbs
  refine ⟨fun pos => DirFile.iteratorSeekT_all hd hbs, fun it hit hcurr => ⟨?_, fun fuel => ?_⟩⟩
  · obtain ⟨r, hr⟩ := Option.ne_none_iff_exists'.1 (DirFile.iteratorNext_ends hbs' hsize
      hit.placed hcurr (Nat.lt_succ_self (d.size - it.currOff)))
    refine ⟨d.size - it.currOff + 1, r, ?_, (DirFile.iteratorNext_cases hcurr hr).1⟩
    rw [DirFile.iteratorNextT_val]
    exact hr
  · exact DirFile.iteratorNextT_all hd hbs hit.placed

/-! ## All walks -/

/-- The walks over a directory block end and stay in it. -/
structure WalksSafe (sb : DirSb) (csum : Mem → ℕ) (b : Mem) (child : Child) (name : List Byte) :
    Prop where
  find : StaysIn sb b NoAssert (fun fuel => walk (dirFindBody sb b name) fuel 0)
  insert : StaysIn sb b NoAssert (fun fuel => walk (dirTryInsertBody sb csum b child name) fuel 0)
  remove : StaysIn sb b NoAssert (fun fuel => ext4DirRemoveEntryT sb csum b name fuel)
  iter : ∀ d : DirFile, d.sb = sb → d.size + d.sb.blockSize ≤ 2 ^ 64 → IterSafe sb b d

/-- **The walks over a directory block are safe exactly** if the records the
    search and the insertion come to have what they look at in the block, and
    the entry found does not lie over the length of a record in front. -/
theorem walksSafe_iff (sb : DirSb) (csum : Mem → ℕ) (b : Mem) (child : Child) (name : List Byte)
    (hbs : 1024 ≤ sb.blockSize) :
    WalksSafe sb csum b child name ↔
      DirFindOk sb b name ∧ DirInsertOk sb b name.length ∧ DirTakeOk sb b name := by
  have h12 : dirEntryTailSize ≤ sb.blockSize := le_trans (by decide) hbs
  constructor
  · rintro ⟨hf, hi, hr, -⟩
    exact ⟨find_staysIn.1 hf, (insert_staysIn h12).1 hi, ((remove_staysIn h12).1 hr).2⟩
  · rintro ⟨hf, hi, ht⟩
    refine ⟨find_staysIn.2 hf, (insert_staysIn h12).2 hi, (remove_staysIn h12).2 ⟨hf, ht⟩, ?_⟩
    exact fun d hd hsize => iterSafe hd (by omega) hsize

/-- A fresh block: one unused record as long as the block. -/
def freshBlock : Mem := dirEnSetEntryLen (fun _ => 0) 0 1024

theorem walksSafe_iff_fresh :
    WalksSafe ⟨1024, false, false⟩ (fun _ => 0) freshBlock ⟨12, 0x8000⟩ [97] := by
  have hrec : ∀ {halt : ℕ → Prop}, (∀ p, 1024 ≤ p → halt p) →
      ∀ p, Record freshBlock halt p → p = 0 ∨ p = 1024 := by
    intro halt hhalt p hp
    induction hp with
    | first => exact .inl rfl
    | next _ hgo ih =>
      rcases ih with rfl | rfl
      · exact .inr rfl
      · exact absurd (hhalt _ le_rfl) hgo
  have hunused : TakesUnused ⟨1024, false, false⟩ freshBlock 1 0 := by decide
  refine (walksSafe_iff ⟨1024, false, false⟩ (fun _ => 0) freshBlock ⟨12, 0x8000⟩ [97] le_rfl).2
    ⟨?_, ?_, ?_⟩
  · intro p hp hlt _
    rcases hrec (fun p h => .inl h) p hp with rfl | rfl
    · decide
    · exact absurd hlt (lt_irrefl _)
  · intro p hp hlt
    rcases hrec (fun p h => .inl h) p hp with rfl | rfl
    · refine ⟨by decide, fun _ => by decide, fun h => absurd rfl h.1, fun h => absurd hunused h⟩
    · exact absurd hlt (lt_irrefl _)
  · intro p hp hlt _ hm
    rcases hrec (fun p h => .inl h) p hp with rfl | rfl
    · exact absurd rfl (matches_iff.1 hm).1
    · exact absurd hlt (lt_irrefl _)

/-- **An endless insertion.**  The search of a name finds the record length of 0
    and returns `EINVAL`; the insertion stays at it. -/
theorem zeros_loop :
    (∀ csum child fuel,
      dirTryInsertLoop ⟨1024, false, false⟩ csum (fun _ => 0) child [97] fuel 0 = none) ∧
    (∀ csum child, ¬ WalksSafe ⟨1024, false, false⟩ csum (fun _ => 0) child [97]) ∧
    ext4DirFindInBlock ⟨1024, false, false⟩ (fun _ => 0) [97] =
      some (.error (.rc Errno.EINVAL)) := by
  have hgo : ∀ csum child,
      (dirTryInsertBody ⟨1024, false, false⟩ csum (fun _ => 0) child [97] 0).val = .go 0 := by
    intro csum child
    refine (insert_go_iff 0 0).2 ⟨?_, rfl⟩
    rw [InsertHalts]
    decide
  refine ⟨fun csum child fuel => ?_, fun csum child h => ?_, rfl⟩
  · rw [← walk_tryInsert]
    by_contra h
    exact not_ends_of_stay (hgo csum child) ⟨fuel, h⟩
  · obtain ⟨⟨fuel, r, hr, -⟩, -⟩ := h.insert
    exact not_ends_of_stay (hgo csum child) ⟨fuel, by rw [hr]; exact Option.some_ne_none r⟩

end Lwext4
