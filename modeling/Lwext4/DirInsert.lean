/-
  Inserting into a directory block: `ext4_dir_try_insert_entry`.

  The walk finds the first entry that can hold the name (`tryInsertLoop_spec`);
  the entry is taken over when it is not in use, else cut behind its name
  (`insertAt_spec`).  A block without a checksum tail does not get one by an
  insertion, because a name has no zero bytes (`insertAt_noTail`).
-/
import Lwext4.DirBlock

namespace Lwext4

open Lib

/-- The entry can hold a new one of the given length: it is not in use and no
    checksum tail, or it has the room behind its name. -/
def CanHold (req : ℕ) (e : DirEnt) : Prop :=
  (e.inode = 0 ∧ e.ftype ≠ ext4DirentryDirCsum ∧ req ≤ e.recLen) ∨
    (e.inode ≠ 0 ∧ dirUsedSize e.name.length + req ≤ e.recLen)

instance (req : ℕ) (e : DirEnt) : Decidable (CanHold req e) :=
  inferInstanceAs (Decidable (_ ∨ _))

/-- The stores of `ext4_dir_try_insert_entry` when it takes the entry at `o`. -/
def insertAt (sb : DirSb) (b : Mem) (o : ℕ) (e : DirEnt) (child : Child) (name : List Byte) : Mem :=
  if e.inode = 0 then dirEnWrite sb b o e.recLen child name
  else
    let sz := dirUsedSize e.name.length
    dirEnWrite sb (dirEnSetEntryLen b o sz) (o + sz) (e.recLen - sz) child name

/-- The link made for a child under a name. -/
def newLink (sb : DirSb) (child : Child) (name : List Byte) : DirLink :=
  ⟨name, child.index, if sb.oldRev then 0 else dirEnTypeOf child.mode⟩

section

variable {sb : DirSb} {csum : Mem → ℕ} {b : Mem} {o o' : ℕ} {e : DirEnt} {child : Child}
  {name : List Byte}

/-! ## The walk -/

/-- An entry no longer than the block is written. -/
theorem writeEntry_ok {len : ℕ} (h : len ≤ sb.blockSize) :
    ext4DirWriteEntry sb b o len child name = .ok (dirEnWrite sb b o len child name) :=
  if_neg (Nat.not_lt.2 h)

theorem tryInsertLoop_hold (he : EntAt sb b o o' e) (hle : o' ≤ sb.blockSize)
    (hhold : CanHold (dirRequiredLen name.length) e) (fuel : ℕ) :
    dirTryInsertLoop sb csum b child name (fuel + 1) o =
      some (.ok (ext4DirSetCsum sb csum (insertAt sb b o e child name))) := by
  have hstop := he.stop
  have hmin := he.min
  rw [dirTryInsertLoop, if_neg (by omega)]
  simp only [he.inode, he.len, he.ftype]
  rcases hhold with ⟨h0, htype, hlen⟩ | ⟨hlive, hlen⟩
  · rw [if_pos ⟨h0, htype, hlen⟩, insertAt, if_pos h0, writeEntry_ok (by omega)]
    rfl
  · obtain ⟨-, hle⟩ := usedSize_eq (he.room hlive) he.dvd he.recLen_lt
    have hfree : u16 (e.recLen + (2 ^ 16 - dirUsedSize e.name.length)) =
        e.recLen - dirUsedSize e.name.length := by
      have := he.recLen_lt
      rw [u16]
      omega
    rw [if_neg (fun h => hlive h.1), he.nameLen hlive, hfree, if_pos ⟨hlive, by omega⟩, insertAt,
      if_neg hlive, writeEntry_ok (by omega)]
    rfl

theorem tryInsertLoop_skip (he : EntAt sb b o o' e) (ho : o < sb.blockSize)
    (hhold : ¬ CanHold (dirRequiredLen name.length) e) (fuel : ℕ) :
    dirTryInsertLoop sb csum b child name (fuel + 1) o =
      dirTryInsertLoop sb csum b child name fuel o' := by
  rw [dirTryInsertLoop, if_neg (Nat.not_le.2 ho)]
  simp only [he.inode, he.len, he.ftype]
  rw [if_neg (fun h => hhold (.inl h)), he.stop]
  by_cases hlive : e.inode = 0
  · rw [if_neg (fun h => h.1 hlive)]
  · obtain ⟨-, hle⟩ := usedSize_eq (he.room hlive) he.dvd he.recLen_lt
    have hfree : u16 (e.recLen + (2 ^ 16 - dirUsedSize e.name.length)) =
        e.recLen - dirUsedSize e.name.length := by
      have := he.recLen_lt
      rw [u16]
      omega
    rw [he.nameLen hlive, hfree, if_neg]
    exact fun h => hhold (.inr ⟨hlive, by omega⟩)

/-- **The walk** takes the first entry that can hold the name, or comes to the
    end of the entries. -/
theorem tryInsertLoop_spec {a c : ℕ} {es : List DirEnt} (hp : Packed (EntAt sb b) a c es)
    (hc : c ≤ sb.blockSize) : ∀ fuel, sb.blockSize - a < fuel →
    (∃ l₁ e l₂ o o', es = l₁ ++ e :: l₂ ∧ Packed (EntAt sb b) a o l₁ ∧ EntAt sb b o o' e ∧
      Packed (EntAt sb b) o' c l₂ ∧ CanHold (dirRequiredLen name.length) e ∧
      dirTryInsertLoop sb csum b child name fuel a =
        some (.ok (ext4DirSetCsum sb csum (insertAt sb b o e child name)))) ∨
    ((∀ e ∈ es, ¬ CanHold (dirRequiredLen name.length) e) ∧ ∃ fuel', sb.blockSize - c < fuel' ∧
      dirTryInsertLoop sb csum b child name fuel a =
        dirTryInsertLoop sb csum b child name fuel' c) := by
  induction hp with
  | nil => exact fun fuel hfuel => .inr ⟨by simp, fuel, hfuel, rfl⟩
  | cons he hlt hp ih =>
    rename_i a m c e es
    intro fuel hfuel
    have hmc := hp.le
    obtain ⟨fuel, rfl⟩ : ∃ f, fuel = f + 1 := ⟨fuel - 1, by omega⟩
    by_cases hhold : CanHold (dirRequiredLen name.length) e
    · exact .inl ⟨[], e, es, a, m, rfl, .nil, he, hp, hhold,
        tryInsertLoop_hold he (by omega) hhold fuel⟩
    · rw [tryInsertLoop_skip he (by omega) hhold fuel]
      rcases ih hc fuel (by omega) with
        ⟨l₁, e', l₂, o, o', rfl, h1, h2, h3, h4, h5⟩ | ⟨hnone, fuel', hf, hrun⟩
      · exact .inl ⟨e :: l₁, e', l₂, o, o', rfl, .cons he hlt h1, h2, h3, h4, h5⟩
      · refine .inr ⟨fun e' he' => ?_, fuel', hf, hrun⟩
        rcases List.mem_cons.1 he' with rfl | he'
        · exact hhold
        · exact hnone e' he'

theorem tryInsertLoop_stop {a fuel : ℕ} (ha : sb.blockSize ≤ a) (hfuel : 0 < fuel) :
    dirTryInsertLoop sb csum b child name fuel a = some (.error (.rc Errno.ENOSPC)) := by
  obtain ⟨fuel, rfl⟩ : ∃ f, fuel = f + 1 := ⟨fuel - 1, by omega⟩
  rw [dirTryInsertLoop, if_pos ha]

/-- The checksum tail seen as an entry. -/
def tailEnt (sb : DirSb) : DirEnt :=
  ⟨0, dirEntryTailSize, if sb.oldRev then 0 else ext4DirentryDirCsum, []⟩

theorem getTail_iff : ext4DirGetTail sb b = true ↔
    getLE b (sb.blockSize - dirEntryTailSize) 4 = 0 ∧
    getLE b (sb.blockSize - dirEntryTailSize + 6) 1 = 0 ∧
    getLE b (sb.blockSize - dirEntryTailSize + 4) 2 = dirEntryTailSize ∧
    getLE b (sb.blockSize - dirEntryTailSize + 7) 1 = ext4DirentryDirCsum := by
  simp [ext4DirGetTail, and_assoc]

theorem tailEnt_at (hbs : dirEntryTailSize ≤ sb.blockSize) (h : ext4DirGetTail sb b = true) :
    EntAt sb b (sb.blockSize - dirEntryTailSize) sb.blockSize (tailEnt sb) := by
  obtain ⟨h1, -, h3, h4⟩ := getTail_iff.1 h
  refine ⟨h1, h3, (Nat.sub_add_cancel hbs).symm, ?_, (by decide : 8 ≤ 12), (by decide : 4 ∣ 12),
    fun hl => absurd rfl hl, fun hl => absurd rfl hl, fun hl => absurd rfl hl,
    fun hl => absurd rfl hl⟩
  rw [dirEnGetInodeType, tailEnt, h4]

/-! ## The stores -/

/-- What an insertion makes of the entry in `[o, o')`: the new entry lies in
    `[s, o')`, and besides it only the length of the old one has changed. -/
structure InsertedAt (sb : DirSb) (b b₁ : Mem) (o o' s : ℕ) (e new : DirEnt) (mid : List DirEnt) :
    Prop where
  packed : Packed (EntAt sb b₁) o o' mid
  links : links mid = links [e] ++ [⟨new.name, new.inode, new.ftype⟩]
  ent : EntAt sb b₁ s o' new
  start : s = o ∨ o + 8 ≤ s
  below : ∀ i < s, i < o + 4 ∨ o + 6 ≤ i → b₁ i = b i
  above : ∀ i, s + 8 + new.name.length ≤ i → b₁ i = b i

theorem insertAt_spec (he : EntAt sb b o o' e) (hname : NameOk name) (hpos : child.index ≠ 0)
    (hchild : child.index < 2 ^ 32) (hhold : CanHold (dirRequiredLen name.length) e) :
    ∃ s len mid, InsertedAt sb b (insertAt sb b o e child name) o o' s e
      (newEnt sb len child name) mid := by
  have hreq := requiredLen_eq hname.le
  have hlt := he.recLen_lt
  rcases hhold with ⟨h0, -, hlen⟩ | ⟨hlive, hlen⟩
  · have hroom : 8 + name.length ≤ e.recLen := by omega
    have hent := @writeEntry_spec sb b o _ _ _ hname hchild hroom he.dvd hlt
    rw [← he.stop] at hent
    rw [insertAt, if_pos h0]
    refine ⟨o, e.recLen, [newEnt sb e.recLen child name], .single hent hent.lt, ?_, hent, .inl rfl,
      fun i hi _ => writeEntry_frame (.inl hi), fun i hi => writeEntry_frame (.inr hi)⟩
    simp [links, newEnt, h0, hpos]
  · obtain ⟨hsz, hle⟩ := usedSize_eq (he.room hlive) he.dvd hlt
    have hdvd : 4 ∣ dirUsedSize e.name.length := by
      rw [hsz]
      exact Nat.dvd_add (by decide) (Nat.dvd_mul_left 4 _)
    rw [insertAt, if_neg hlive]
    simp only
    have hold : EntAt sb (dirEnSetEntryLen b o (dirUsedSize e.name.length)) o
        (o + dirUsedSize e.name.length) { e with recLen := dirUsedSize e.name.length } :=
      he.setLen (by omega) hdvd (by omega) fun _ => by omega
    have hent := @writeEntry_spec sb (dirEnSetEntryLen b o (dirUsedSize e.name.length))
      (o + dirUsedSize e.name.length) (e.recLen - dirUsedSize e.name.length) _ _ hname hchild (by omega)
      (Nat.dvd_sub he.dvd hdvd) (by omega)
    rw [show o + dirUsedSize e.name.length + (e.recLen - dirUsedSize e.name.length) = o' by
      have := he.stop
      omega] at hent
    refine ⟨o + dirUsedSize e.name.length, _, [_, _],
      .cons (hold.congr fun i _ hi => writeEntry_frame (.inl hi)) (by omega)
        (.single hent hent.lt), ?_, hent, .inr (by omega), fun i hi hi' => ?_, fun i hi => ?_⟩
    · simp [links, newEnt, hlive, hpos]
    · rw [writeEntry_frame (.inl hi), setEntryLen_frame hi']
    · have hi' : o + dirUsedSize e.name.length + 8 + name.length ≤ i := hi
      rw [writeEntry_frame (.inr hi'), setEntryLen_frame (.inr (by omega))]

/-- An entry in use lies in front of the bytes of a tail, because its inode and
    its length are not zero and its name has no zero bytes. -/
theorem tail_apart (hbs : dirEntryTailSize ≤ sb.blockSize) (htail : ext4DirGetTail sb b = true)
    (he : EntAt sb b o o' e) (hlive : e.inode ≠ 0) (hnul : ∀ c ∈ e.name, c ≠ 0)
    (ho : o' ≤ sb.blockSize) (hdvd : 4 ∣ sb.blockSize - o) :
    o + 8 + e.name.length ≤ sb.blockSize - dirEntryTailSize := by
  have hroom := he.room hlive
  have hstop := he.stop
  have hpos := List.length_pos_iff.2 (he.ne hlive)
  obtain ⟨hzero, -, -, -⟩ := getTail_iff.1 htail
  rw [getLE_eq_zero_iff] at hzero
  rw [dirEntryTailSize] at hbs hzero ⊢
  have hle : o + 12 ≤ sb.blockSize := by omega
  by_cases h12 : o + 12 = sb.blockSize
  · refine absurd (he.inode.symm.trans (getLE_eq_zero_iff.2 fun i h1 h2 => ?_)) hlive
    exact hzero i (by omega) (by omega)
  by_cases h16 : o + 16 = sb.blockSize
  · have hlen : e.recLen = 0 := he.len.symm.trans (getLE_eq_zero_iff.2 fun i h1 h2 =>
      hzero i (by omega) (by omega))
    have := he.min
    omega
  by_contra hcon
  have hmem := Mem.mem_read (m := b) (a := o + 8) (n := e.name.length) (i := sb.blockSize - 12)
    (by omega) (by omega)
  have hname := he.name hlive
  rw [dirEnName] at hname
  rw [hname] at hmem
  exact hnul _ hmem (hzero _ le_rfl (by omega))

/-- A block without a tail does not get one. -/
theorem InsertedAt.noTail {b₁ : Mem} {s : ℕ} {new : DirEnt} {mid : List DirEnt}
    (h : InsertedAt sb b b₁ o o' s e new mid) (hbs : dirEntryTailSize ≤ sb.blockSize)
    (hlive : new.inode ≠ 0) (hnul : ∀ c ∈ new.name, c ≠ 0) (ho : o' ≤ sb.blockSize)
    (hdvd : 4 ∣ sb.blockSize - s) (hnone : hasTail sb b = false) : hasTail sb b₁ = false := by
  rw [hasTail] at hnone ⊢
  by_contra hcon
  rw [Bool.not_eq_false, Bool.and_eq_true] at hcon
  obtain ⟨hfeat, htail⟩ := hcon
  have hapart := tail_apart hbs htail h.ent hlive hnul ho hdvd
  have hsame : ext4DirGetTail sb b₁ = ext4DirGetTail sb b :=
    getTail_congr hbs fun i hi _ => h.above i (hapart.trans hi)
  rw [hfeat, ← hsame, htail] at hnone
  exact absurd hnone (by decide)

/-- An insertion takes an entry of the block. -/
theorem insert_updated {es l₁ l₂ : List DirEnt} (hbs : dirEntryTailSize ≤ sb.blockSize)
    (hdvd : 4 ∣ sb.blockSize) (hes : es = l₁ ++ e :: l₂)
    (h1 : Packed (EntAt sb b) 0 o l₁) (he : EntAt sb b o o' e)
    (h2 : Packed (EntAt sb b) o' (dirArea sb b) l₂) (hname : NameOk name) (hpos : child.index ≠ 0)
    (hchild : child.index < 2 ^ 32) (hhold : CanHold (dirRequiredLen name.length) e) :
    ∃ es' k₁ k₂, Rewritten sb csum b (ext4DirSetCsum sb csum (insertAt sb b o e child name)) es' ∧
      links es = k₁ ++ k₂ ∧ links es' = k₁ ++ newLink sb child name :: k₂ := by
  obtain ⟨s, len, mid, h⟩ := insertAt_spec he hname hpos hchild hhold
  generalize insertAt sb b o e child name = b₁ at h ⊢
  have harea := area_le sb b
  have hle := h2.le
  have hs := h.start
  have hent := h.ent.stop
  have hroom := h.ent.room hpos
  refine ⟨l₁ ++ mid ++ l₂, links l₁ ++ links [e], links l₂, ?_, ?_, ?_⟩
  · refine setCsum_spec hbs (((h1.mono fun i j e' _ hj he' => he'.congr fun k _ hk => ?_).append
      h.packed).append (h2.mono fun i j e' hi _ he' => he'.congr fun k hk _ => ?_)) (fun i hi => ?_) ?_
    · exact h.below k (by omega) (.inl (by omega))
    · exact h.above k (by omega)
    · exact h.above i (by omega)
    · refine h.noTail hbs hpos hname.nul (by omega) ?_
      have hd1 : 4 ∣ o - 0 := h1.dvd fun i j e' he' => by
        rw [he'.stop, Nat.add_sub_cancel_left]
        exact he'.dvd
      have hd2 : 4 ∣ o' - o := by
        rw [he.stop, Nat.add_sub_cancel_left]
        exact he.dvd
      have hd3 : 4 ∣ (newEnt sb len child name).recLen := h.ent.dvd
      omega
  · rw [hes, ← List.singleton_append, links_append, links_append, List.append_assoc]
  · rw [links_append, links_append, h.links]
    simp [newLink, newEnt]

/-! ## Insertion -/

/-- `ext4_dir_try_insert_entry` adds exactly the link for the name, or says
    that no entry can hold it. -/
def InsertExact (sb : DirSb) (csum : Mem → ℕ) (b : Mem) (es : List DirEnt) (child : Child)
    (name : List Byte) : Prop :=
  match ext4DirTryInsertEntry sb csum b child name with
  | some (.ok b') => ∃ es' k₁ k₂, Rewritten sb csum b b' es' ∧
      links es = k₁ ++ k₂ ∧ links es' = k₁ ++ newLink sb child name :: k₂
  | some (.error stop) => stop = .rc Errno.ENOSPC ∧
      ∀ e ∈ es, ¬ CanHold (dirRequiredLen name.length) e
  | none => False

theorem setCsum_frame {i : ℕ} (h : i < sb.blockSize - 4) : ext4DirSetCsum sb csum b i = b i := by
  unfold ext4DirSetCsum
  split_ifs
  · exact putLE_of_lt h
  · rfl

/-- Taking the tail for an entry destroys it. -/
theorem not_updated_tail {b₁ : Mem} {es' : List DirEnt} (hbs : dirEntryTailSize ≤ sb.blockSize)
    (htail : hasTail sb b = true)
    (he : EntAt sb b₁ (sb.blockSize - dirEntryTailSize) sb.blockSize e) (hlive : e.inode ≠ 0) :
    ¬ Rewritten sb csum b (ext4DirSetCsum sb csum b₁) es' := by
  intro h
  have harea : dirArea sb b = sb.blockSize - dirEntryTailSize := by rw [dirArea, htail, if_pos rfl]
  have hget : ext4DirGetTail sb b = true := (Bool.and_eq_true_iff.1 htail).2
  have hsame := @getTail_congr sb _ _ hbs fun i h1 h2 => h.tail i (harea ▸ h1) h2
  rw [getTail_congr hbs fun i _ h2 => setCsum_frame h2, hget] at hsame
  exact hlive (he.inode.symm.trans (getTail_iff.1 hsame).1)

/-- **Insertion** is exact, unless the block has a checksum tail, the
    revision has no entry types to tell it by, and the tail is the only place
    that looks free. -/
theorem insertExact_iff {es : List DirEnt} (hbs : dirEntryTailSize ≤ sb.blockSize)
    (hdvd : 4 ∣ sb.blockSize) (hb : DirBlock sb b es) (hname : NameOk name)
    (hpos : child.index ≠ 0) (hchild : child.index < 2 ^ 32) :
    InsertExact sb csum b es child name ↔
      ¬ (sb.oldRev = true ∧ hasTail sb b = true ∧ name.length ≤ 4 ∧
        ∀ e ∈ es, ¬ CanHold (dirRequiredLen name.length) e) := by
  have hreq := requiredLen_eq hname.le
  rw [InsertExact, ext4DirTryInsertEntry]
  rcases @tryInsertLoop_spec _ csum _ child name _ _ _ hb (area_le sb b)
    (sb.blockSize + 1) (by omega) with ⟨l₁, e, l₂, o, o', hes, h1, he, h2, hhold, hrun⟩ |
      ⟨hnone, fuel, hfuel, hrun⟩
  · rw [hrun]
    refine iff_of_true (insert_updated hbs hdvd hes h1 he h2 hname hpos hchild hhold) ?_
    exact fun h => h.2.2.2 e (hes ▸ List.mem_append_right _ List.mem_cons_self) hhold
  · rw [hrun]
    cases htail : hasTail sb b with
    | false =>
      have harea : dirArea sb b = sb.blockSize := by rw [dirArea, htail, if_neg Bool.false_ne_true]
      rw [harea, tryInsertLoop_stop le_rfl (by omega)]
      exact iff_of_true ⟨rfl, hnone⟩ fun h => absurd h.2.1 Bool.false_ne_true
    | true =>
      have harea : dirArea sb b = sb.blockSize - dirEntryTailSize := by
        rw [dirArea, htail, if_pos rfl]
      have hent := tailEnt_at hbs (Bool.and_eq_true_iff.1 htail).2
      have hlt : sb.blockSize - dirEntryTailSize < sb.blockSize := hent.lt
      obtain ⟨fuel, rfl⟩ : ∃ f, fuel = f + 1 := ⟨fuel - 1, by omega⟩
      rw [harea]
      have hiff : CanHold (dirRequiredLen name.length) (tailEnt sb) ↔
          sb.oldRev = true ∧ name.length ≤ 4 := by
        have hlen : dirRequiredLen name.length ≤ dirEntryTailSize ↔ name.length ≤ 4 := by
          rw [hreq, dirEntryTailSize]
          omega
        rw [CanHold, tailEnt, hlen]
        cases sb.oldRev <;> simp [ext4DirentryDirCsum]
      by_cases hhold : CanHold (dirRequiredLen name.length) (tailEnt sb)
      · obtain ⟨hold, hshort⟩ := hiff.1 hhold
        rw [tryInsertLoop_hold hent le_rfl hhold]
        refine iff_of_false ?_ (not_not.2 ⟨hold, rfl, hshort, hnone⟩)
        rintro ⟨es', k₁, k₂, hupd, -⟩
        have hins := @writeEntry_spec sb b (sb.blockSize - dirEntryTailSize) dirEntryTailSize _ _ hname
          hchild (by rw [dirEntryTailSize]; omega) (by decide) (by decide)
        rw [Nat.sub_add_cancel hbs] at hins
        exact not_updated_tail hbs htail hins hpos hupd
      · rw [tryInsertLoop_skip hent hlt hhold, tryInsertLoop_stop le_rfl (by omega)]
        exact iff_of_true ⟨rfl, hnone⟩ fun h => hhold (hiff.2 ⟨h.1, h.2.2.1⟩)

end

end Lwext4
