/-
  Descriptor blocks: `jbd_journal_prepare` writes them with the data blocks of
  a transaction, and `jbd_iterate_block_table` walks their tags.

  `DescBlk.Holds` says what a block being filled holds; exactly the last dirty
  buffer of the queue gets the last tag (`prepareLoop_spec`).  The writer
  clears a whole `struct jbd_block_tag` even where a tag is shorter, so the last
  tag of a full block may reach beyond the tag area:
  `descriptorCodec_exact_iff`.
-/
import Lwext4.JbdTag

namespace Lwext4

open Lib

/-! ## The writer of descriptor blocks -/

/-- A buffer of a transaction (`struct jbd_buf`): the block it belongs to, what
    it holds, and whether it is still dirty. -/
structure JbdBuf where
  lba : ℕ
  data : Mem
  dirty : Bool

/-- The first four bytes of a block look like a block header. -/
def jbdIsEscape (data : Mem) : Bool := getBE data 0 4 == jbdMagicNumber

/-- The copy of a block that goes to the log. -/
def jbdLogCopy (data : Mem) : Mem := if jbdIsEscape data then putBE data 0 4 0 else data

/-- The descriptor block being filled: its buffer, `tag_ptr` as an offset,
    `tag_tbl_size`, and the data blocks logged behind it. -/
structure DescBlk where
  blk : Mem
  tagPtr : ℕ
  tagTblSize : ℕ
  data : List Mem

namespace DescBlk

/-- A descriptor block without tags, in a buffer that holds `stale`. -/
def new (sb : JbdSb) (sequence : ℕ) (stale : Mem) : DescBlk where
  blk := jbdSetBhdr stale jbdDescriptorBlock sequence
  tagPtr := jbdBhdrSize
  tagTblSize := jbdTagArea sb
  data := []

/-- Write a tag for a buffer and log the buffer; nothing when the tag does not
    fit.  The first tag of a block carries the UUID. -/
def put (sb : JbdSb) (d : DescBlk) (buf : JbdBuf) (first last : Bool) (checksum : ℕ) :
    Option DescBlk :=
  match jbdWriteBlockTag sb d.blk d.tagPtr d.tagTblSize
      ⟨buf.lba, jbdIsEscape buf.data, first, last, checksum⟩ with
  | none => none
  | some (blk, tagBytes) =>
    some ⟨blk, d.tagPtr + tagBytes, d.tagTblSize - tagBytes, d.data ++ [jbdLogCopy buf.data]⟩

/-- Store the checksum of the block. -/
def close (sb : JbdSb) (csum : Mem → ℕ) (d : DescBlk) : Mem := jbdMetaCsumSet sb csum d.blk

end DescBlk

/-- `EXT4_CRC32_INIT`. -/
def ext4Crc32Init : ℕ := 0xffffffff

section Prepare

variable (sb : JbdSb) (bcsum : Mem → ℕ → ℕ) (sequence : ℕ) (stale : ℕ → Mem)

/-- The second loop of `jbd_journal_prepare`: `i` buffers are logged, `dataCnt`
    is `trans->data_cnt`, `checksum` runs over the logged buffers, and the
    `k`-th descriptor block is fetched next, in a buffer that holds `stale k`.
    A new block has room for a tag (`new_put`), else the source would fetch
    blocks without end. -/
def jbdPrepareLoop : List JbdBuf → (i dataCnt checksum k : ℕ) → Option DescBlk → List DescBlk
  | [], _, _, _, _, cur => cur.toList
  | buf :: bufs, i, dataCnt, checksum, k, cur =>
    if !buf.dirty then jbdPrepareLoop bufs i (dataCnt - 1) checksum k cur
    else
      let checksum := bcsum buf.data checksum
      let last := decide (i + 1 = dataCnt)
      let fetch := (DescBlk.new sb sequence (stale k)).put sb buf true last checksum
      match cur with
      | none =>
        match fetch with
        | none => []
        | some d => jbdPrepareLoop bufs (i + 1) dataCnt checksum (k + 1) (some d)
      | some d =>
        match d.put sb buf false last checksum with
        | some d' => jbdPrepareLoop bufs (i + 1) dataCnt checksum k (some d')
        | none =>
          d :: match fetch with
            | none => []
            | some d' => jbdPrepareLoop bufs (i + 1) dataCnt checksum (k + 1) (some d')

/-- `jbd_journal_prepare` on the buffers of a transaction: buffers that are not
    dirty are dropped, first from the tail of the queue. -/
def jbdJournalPrepare (bufs : List JbdBuf) : List DescBlk :=
  let bufs := bufs.rdropWhile (!·.dirty)
  jbdPrepareLoop sb bcsum sequence stale bufs 0 bufs.length ext4Crc32Init 0 none

end Prepare

/-! ## What a descriptor block holds -/

section Desc

variable {sb : JbdSb}

/-- Walking the tags from one place of a block leads to another. -/
inductive Tags (sb : JbdSb) (b : Mem) : ℕ → ℕ → List TagInfo → ℕ → ℕ → Prop
  | nil {p r} : Tags sb b p r [] p r
  | snoc {p r p' r' infos info} : Tags sb b p r infos p' r' →
    TagHolds sb b p' info.block info.flags → info.bytes sb ≤ r' →
    Tags sb b p r (infos ++ [info]) (p' + info.bytes sb) (r' - info.bytes sb)

theorem Tags.le {b : Mem} {p r p' r' : ℕ} {infos : List TagInfo}
    (h : Tags sb b p r infos p' r') : p ≤ p' ∧ p' + r' = p + r := by
  induction h with
  | nil => exact ⟨le_rfl, rfl⟩
  | snoc _ _ hroom ih => omega

theorem Tags.congr {b b' : Mem} {p r p' r' : ℕ} {infos : List TagInfo}
    (h : Tags sb b p r infos p' r') (heq : ∀ i, p ≤ i → i < p' → b' i = b i) :
    Tags sb b' p r infos p' r' := by
  induction h with
  | nil => exact .nil
  | snoc h hholds hroom ih =>
    rename_i info
    have hle := @TagInfo.le_bytes sb info
    have hp := h.le.1
    refine .snoc (ih fun i h1 h2 => heq i h1 (by omega)) ?_ hroom
    exact hholds.congr fun i h1 h2 => heq i (by omega) (by omega)

/-- The loop over tags that are not the last. -/
theorem Tags.iterate {b : Mem} {p r p' r' : ℕ} {infos : List TagInfo}
    (h : Tags sb b p r infos p' r') (hlast : ∀ info ∈ infos, info.lastTag = false) :
    ∀ f, r ≤ f → ∃ ts f', r' ≤ f' ∧ List.Forall₂ (TagInfo.Read sb) infos ts ∧
      jbdIterateTags sb b f p r = ts ++ jbdIterateTags sb b f' p' r' := by
  induction h with
  | nil => exact fun f hf => ⟨[], f, hf, .nil, rfl⟩
  | snoc _ hholds hroom ih =>
    rename_i p₁ r₁ infos info _
    intro f hf
    obtain ⟨ts, f₁, hf₁, hread, hrun⟩ :=
      ih (fun i hi => hlast i (List.mem_append_left _ hi)) f hf
    obtain ⟨t, ht, htr⟩ := extractBlockTag_spec hholds hroom
    have hpos : 0 < info.bytes sb := by
      have := @TagInfo.le_bytes sb info
      have := tagBytes_bounds sb
      omega
    have hnot : t.lastTag = false :=
      htr.2.2.2.trans (hlast info (List.mem_append_right _ List.mem_cons_self))
    obtain ⟨f₂, rfl⟩ : ∃ f₂, f₁ = f₂ + 1 := ⟨f₁ - 1, by omega⟩
    refine ⟨ts ++ [t], f₂, by omega, List.rel_append hread (.cons htr .nil), ?_⟩
    rw [hrun, jbdIterateTags, if_neg (by omega), ht]
    simp only [hnot, Bool.false_eq_true, if_false, List.append_assoc, List.singleton_append, htr.1]

theorem iterateTags_none {b : Mem} {f p r : ℕ} (h : r < jbdTagBytes sb) :
    jbdIterateTags sb b f p r = [] := by
  cases f with
  | zero => rfl
  | succ f =>
    rw [jbdIterateTags, extractBlockTag_none h]
    split_ifs <;> rfl

/-- **The walk over a block that has no room left.** -/
theorem Tags.iterate_full {b : Mem} {p' r' : ℕ} {infos : List TagInfo}
    (h : Tags sb b jbdBhdrSize (jbdTagArea sb) infos p' r')
    (hlast : ∀ info ∈ infos, info.lastTag = false) (hfull : r' < jbdTagBytes sb) :
    List.Forall₂ (TagInfo.Read sb) infos (jbdIterateBlockTable sb b) := by
  obtain ⟨ts, f, -, hread, hrun⟩ := h.iterate hlast _ le_rfl
  rw [jbdIterateBlockTable, hrun, iterateTags_none hfull, List.append_nil]
  exact hread

/-- **The walk over a block with a last tag.** -/
theorem Tags.iterate_last {b : Mem} {p' r' : ℕ} {infos : List TagInfo} {info : TagInfo}
    (h : Tags sb b jbdBhdrSize (jbdTagArea sb) (infos ++ [info]) p' r')
    (hlast : ∀ info ∈ infos, info.lastTag = false) (hend : info.lastTag = true) :
    List.Forall₂ (TagInfo.Read sb) (infos ++ [info]) (jbdIterateBlockTable sb b) := by
  generalize hall : infos ++ [info] = all at h
  cases h with
  | nil => exact absurd hall (by simp)
  | snoc h hholds hroom =>
    rename_i p₁ r₁ infos₁ info₁
    obtain ⟨rfl, hinfo⟩ := List.append_inj' hall rfl
    obtain rfl := List.singleton_inj.1 hinfo
    obtain ⟨ts, f, hf, hread, hrun⟩ := h.iterate hlast _ le_rfl
    obtain ⟨t, ht, htr⟩ := extractBlockTag_spec hholds hroom
    have hpos : 0 < info.bytes sb := by
      have := @TagInfo.le_bytes sb info
      have := tagBytes_bounds sb
      omega
    obtain ⟨f', rfl⟩ : ∃ f', f = f' + 1 := ⟨f - 1, by omega⟩
    have hstop : t.lastTag = true := htr.2.2.2.trans hend
    rw [jbdIterateBlockTable, hrun, jbdIterateTags, if_neg (by omega), ht]
    simp only [hstop, if_true]
    exact List.rel_append hread (.cons htr .nil)

/-- How far the header of the last tag reaches beyond the tag. -/
def tagOver (sb : JbdSb) : ℕ := (jbdTagLayout sb).size - jbdTagBytes sb

/-- The block holds tags `infos` for the buffers `chunk`, and is otherwise its
    old buffer. -/
structure DescBlk.Holds (sb : JbdSb) (sequence : ℕ) (stale : Mem) (d : DescBlk)
    (chunk : List JbdBuf) (infos : List TagInfo) : Prop where
  tags : Tags sb d.blk jbdBhdrSize (jbdTagArea sb) infos d.tagPtr d.tagTblSize
  infos : List.Forall₂ (fun buf info => info.block = buf.lba ∧
    info.isEscape = jbdIsEscape buf.data) chunk infos
  data : d.data = chunk.map fun buf => jbdLogCopy buf.data
  ne : chunk ≠ []
  ptr : d.tagPtr = jbdBhdrSize + uuidSize + chunk.length * jbdTagBytes sb
  header : ∀ i < jbdBhdrSize, d.blk i = jbdSetBhdr stale jbdDescriptorBlock sequence i
  rest : ∀ i, d.tagPtr + (if 2 ≤ chunk.length then tagOver sb else 0) ≤ i → d.blk i = stale i
  spill : 2 ≤ chunk.length → ∀ i, d.tagPtr ≤ i → i < d.tagPtr + tagOver sb → d.blk i = 0

theorem layout_size_le (sb : JbdSb) : (jbdTagLayout sb).size ≤ jbdTagBytes sb + tagOver sb ∧
    tagOver sb ≤ 4 ∧ (jbdTagLayout sb).size ≤ jbdTagBytes sb + uuidSize := by
  unfold tagOver uuidSize
  rcases tagBytes_cases sb with ⟨-, h, hl⟩ | ⟨-, h1, h2, -, hl⟩ <;> rw [hl] <;> simp only <;> omega

theorem put_spec {d : DescBlk} {buf : JbdBuf} {first last : Bool} {checksum : ℕ} {info : TagInfo}
    (hinfo : info = ⟨buf.lba, jbdIsEscape buf.data, first, last, checksum⟩)
    (hroom : info.bytes sb ≤ d.tagTblSize) :
    ∃ b', d.put sb buf first last checksum = some ⟨b', d.tagPtr + info.bytes sb,
      d.tagTblSize - info.bytes sb, d.data ++ [jbdLogCopy buf.data]⟩ ∧
      TagWritten sb d.blk b' d.tagPtr info info.flags := by
  obtain ⟨b', hput, hw⟩ := @writeBlockTag_spec _ d.blk d.tagPtr _ _ hroom
  refine ⟨b', ?_, hw⟩
  rw [DescBlk.put, ← hinfo, hput]

/-- The first tag of a block. -/
theorem new_put (hmin : 1024 ≤ sb.blocksize) (sequence : ℕ) (stale : Mem) (buf : JbdBuf)
    (last : Bool) (checksum : ℕ) :
    ∃ d info, (DescBlk.new sb sequence stale).put sb buf true last checksum = some d ∧
      d.Holds sb sequence stale [buf] [info] ∧ info.lastTag = last := by
  have hbounds := tagBytes_bounds sb
  have hsize := layout_size_le sb
  have harea : jbdTagBytes sb + uuidSize ≤ jbdTagArea sb := by
    unfold jbdTagArea jbdTailSize uuidSize jbdBhdrSize jbdBlockTailSize
    split_ifs <;> omega
  obtain ⟨info, hinfo⟩ : ∃ info : TagInfo,
    info = ⟨buf.lba, jbdIsEscape buf.data, true, last, checksum⟩ := ⟨_, rfl⟩
  have hbytes : info.bytes sb = jbdTagBytes sb + uuidSize := by rw [hinfo, TagInfo.bytes, if_pos rfl]
  obtain ⟨b', hput, hw⟩ := put_spec (d := DescBlk.new sb sequence stale) hinfo (hbytes ▸ harea)
  refine ⟨_, info, hput, ?_, by rw [hinfo]⟩
  have htags : Tags sb b' jbdBhdrSize (jbdTagArea sb) ([] ++ [info])
      (jbdBhdrSize + info.bytes sb) (jbdTagArea sb - info.bytes sb) :=
    .snoc .nil hw.holds (hbytes ▸ harea)
  refine ⟨htags, .cons (by rw [hinfo]; exact ⟨rfl, rfl⟩) .nil, rfl, List.cons_ne_nil _ _, ?_,
    fun i hi => hw.frame i (.inl hi), fun i hi => ?_, fun h => absurd h (by simp)⟩
  · rw [List.length_singleton, Nat.one_mul, Nat.add_assoc, Nat.add_comm uuidSize, ← hbytes]
    rfl
  · rw [if_neg (by simp), Nat.add_zero] at hi
    have hi' : jbdBhdrSize + info.bytes sb ≤ i := hi
    have hframe := hw.frame i (.inr ⟨hi', Nat.le_trans (Nat.add_le_add_left (by omega) _) hi'⟩)
    exact hframe.trans (jbdSetBhdr_of_ge (by omega))

/-- Each further tag. -/
theorem DescBlk.Holds.put {sequence : ℕ} {stale : Mem} {d : DescBlk} {chunk : List JbdBuf}
    {infos : List TagInfo} (h : d.Holds sb sequence stale chunk infos)
    (hroom : jbdTagBytes sb ≤ d.tagTblSize) (buf : JbdBuf) (last : Bool) (checksum : ℕ) :
    ∃ d' info, d.put sb buf false last checksum = some d' ∧
      d'.Holds sb sequence stale (chunk ++ [buf]) (infos ++ [info]) ∧ info.lastTag = last := by
  have hsize := layout_size_le sb
  obtain ⟨info, hinfo⟩ : ∃ info : TagInfo,
    info = ⟨buf.lba, jbdIsEscape buf.data, false, last, checksum⟩ := ⟨_, rfl⟩
  have hbytes : info.bytes sb = jbdTagBytes sb := by
    rw [hinfo, TagInfo.bytes, if_neg Bool.false_ne_true]
  obtain ⟨b', hput, hw⟩ := put_spec (d := d) hinfo (hbytes ▸ hroom)
  have hlen : 2 ≤ (chunk ++ [buf]).length := by
    have := List.length_pos_of_ne_nil h.ne
    rw [List.length_append, List.length_singleton]
    omega
  have hover : (if 2 ≤ chunk.length then tagOver sb else 0) ≤ tagOver sb := by split_ifs <;> omega
  have hle := h.tags.le.1
  refine ⟨_, info, hput, ?_, by rw [hinfo]⟩
  refine ⟨.snoc (h.tags.congr fun i _ hi => hw.frame i (.inl hi)) hw.holds (hbytes ▸ hroom),
    List.rel_append h.infos (.cons (by rw [hinfo]; exact ⟨rfl, rfl⟩) .nil), ?_, by simp, ?_,
    fun i hi => ?_, fun i hi => ?_, fun _ i h1 h2 => ?_⟩
  · rw [h.data, List.map_append]
    rfl
  · rw [h.ptr, hbytes, List.length_append, List.length_singleton, Nat.add_mul, Nat.one_mul,
      ← Nat.add_assoc]
  · exact (hw.frame i (.inl (by omega))).trans (h.header i hi)
  · rw [if_pos hlen] at hi
    have hi' : d.tagPtr + info.bytes sb + tagOver sb ≤ i := hi
    exact (hw.frame i (.inr ⟨by omega, by omega⟩)).trans (h.rest i (by omega))
  · have h1' : d.tagPtr + info.bytes sb ≤ i := h1
    have h2' : i < d.tagPtr + info.bytes sb + tagOver sb := h2
    unfold tagOver at h2'
    exact hw.spill (by rw [hinfo]) i (by omega) (by omega)

theorem DescBlk.put_full {d : DescBlk} (h : d.tagTblSize < jbdTagBytes sb) (buf : JbdBuf)
    (last : Bool) (checksum : ℕ) : d.put sb buf false last checksum = none := by
  rw [DescBlk.put, writeBlockTag_none h]

/-! ## The descriptor blocks of a transaction -/

/-- Descriptor blocks for chunks of buffers, the first one in the `k`-th
    buffer: only the last block has a last tag, the others are full. -/
inductive Descs (sb : JbdSb) (sequence : ℕ) (stale : ℕ → Mem) :
    ℕ → List DescBlk → List (List JbdBuf) → Prop
  | last {k d chunk infos info} : d.Holds sb sequence (stale k) chunk (infos ++ [info]) →
    (∀ info ∈ infos, info.lastTag = false) → info.lastTag = true → Descs sb sequence stale k [d] [chunk]
  | spill {k d ds chunk chunks infos} : d.Holds sb sequence (stale k) chunk infos →
    (∀ info ∈ infos, info.lastTag = false) → d.tagTblSize < jbdTagBytes sb →
    Descs sb sequence stale (k + 1) ds chunks →
    Descs sb sequence stale k (d :: ds) (chunk :: chunks)

/-- The queue ends with a dirty buffer. -/
def EndsDirty (bufs : List JbdBuf) : Prop := ∀ h : bufs ≠ [], (bufs.getLast h).dirty = true

theorem EndsDirty.tail {buf : JbdBuf} {bufs : List JbdBuf} (h : EndsDirty (buf :: bufs)) :
    EndsDirty bufs := fun hne => by
  have := h (List.cons_ne_nil _ _)
  rwa [List.getLast_cons hne] at this

/-- **The writer of descriptor blocks**: exactly the last dirty buffer gets the
    last tag. -/
theorem prepareLoop_spec {bcsum : Mem → ℕ → ℕ} {sequence : ℕ} {stale : ℕ → Mem}
    (hmin : 1024 ≤ sb.blocksize) (bufs : List JbdBuf) (hend : EndsDirty bufs) (hne : bufs ≠ []) :
    (∀ i checksum k, ∃ chunks,
      Descs sb sequence stale k (jbdPrepareLoop sb bcsum sequence stale bufs i (i + bufs.length)
        checksum k none) chunks ∧ chunks.flatten = bufs.filter (·.dirty)) ∧
    ∀ i checksum k d chunk infos, d.Holds sb sequence (stale k) chunk infos →
      (∀ info ∈ infos, info.lastTag = false) → ∃ chunks,
        Descs sb sequence stale k (jbdPrepareLoop sb bcsum sequence stale bufs i (i + bufs.length)
          checksum (k + 1) (some d)) chunks ∧ chunks.flatten = chunk ++ bufs.filter (·.dirty) := by
  induction bufs with
  | nil => exact absurd rfl hne
  | cons buf bufs ih =>
    cases hdirty : buf.dirty with
    | false =>
      have hne' : bufs ≠ [] := by
        rintro rfl
        have := hend (List.cons_ne_nil _ _)
        rw [List.getLast_singleton, hdirty] at this
        exact absurd this (by decide)
      obtain ⟨ih1, ih2⟩ := ih hend.tail hne'
      have hcnt (i : ℕ) : i + (buf :: bufs).length - 1 = i + bufs.length := rfl
      simp only [jbdPrepareLoop, hdirty, Bool.not_false, if_true, hcnt, List.filter_cons,
        Bool.false_eq_true, if_false]
      exact ⟨ih1, ih2⟩
    | true =>
      have hlast (i : ℕ) : decide (i + 1 = i + (buf :: bufs).length) = decide (bufs = []) := by
        cases bufs <;> simp
      have hcnt (i : ℕ) : i + (buf :: bufs).length = i + 1 + bufs.length := by
        rw [List.length_cons]
        omega
      have hfilter : (buf :: bufs).filter (·.dirty) = buf :: bufs.filter (·.dirty) :=
        List.filter_cons_of_pos hdirty
      have hrun : ∀ i checksum k d chunk infos info,
          d.Holds sb sequence (stale k) (chunk ++ [buf]) (infos ++ [info]) →
          (∀ info ∈ infos, info.lastTag = false) → info.lastTag = decide (bufs = []) → ∃ chunks,
            Descs sb sequence stale k (jbdPrepareLoop sb bcsum sequence stale bufs (i + 1)
              (i + 1 + bufs.length) checksum (k + 1) (some d)) chunks ∧
            chunks.flatten = chunk ++ buf :: bufs.filter (·.dirty) := by
        intro i checksum k d chunk infos info hd hnone hflag
        by_cases hnil : bufs = []
        · rw [decide_eq_true hnil] at hflag
          subst hnil
          exact ⟨[chunk ++ [buf]], .last hd hnone hflag, by simp⟩
        · rw [decide_eq_false hnil] at hflag
          have hall : ∀ j ∈ infos ++ [info], j.lastTag = false := by
            intro j hj
            rcases List.mem_append.1 hj with hj | hj
            · exact hnone j hj
            · rwa [List.mem_singleton.1 hj]
          obtain ⟨chunks, hdescs, hflat⟩ := (ih hend.tail hnil).2 (i + 1) checksum k d _ _ hd hall
          exact ⟨chunks, hdescs, by rw [hflat, List.append_assoc, List.singleton_append]⟩
      have hfetch := fun k last checksum => new_put hmin sequence (stale k) buf last checksum
      refine ⟨fun i checksum k => ?_, fun i checksum k d chunk infos hd hnone => ?_⟩
      · obtain ⟨d, info, hput, hd, hflag⟩ :=
          hfetch k (decide (bufs = [])) (bcsum buf.data checksum)
        simp only [jbdPrepareLoop, hdirty, Bool.not_true, Bool.false_eq_true, if_false, hlast, hput,
          hfilter]
        rw [hcnt]
        exact hrun i _ k d [] [] info hd (by simp) hflag
      · simp only [jbdPrepareLoop, hdirty, Bool.not_true, Bool.false_eq_true, if_false, hlast,
          hfilter]
        rw [hcnt]
        by_cases hroom : jbdTagBytes sb ≤ d.tagTblSize
        · obtain ⟨d', info, hput, hd', hflag⟩ :=
            hd.put hroom buf (decide (bufs = [])) (bcsum buf.data checksum)
          rw [hput]
          exact hrun i _ k d' chunk infos info hd' hnone hflag
        · rw [DescBlk.put_full (Nat.not_le.1 hroom)]
          obtain ⟨d', info, hput, hd', hflag⟩ :=
            hfetch (k + 1) (decide (bufs = [])) (bcsum buf.data checksum)
          simp only [hput]
          obtain ⟨chunks, hdescs, hflat⟩ := hrun i (bcsum buf.data checksum) (k + 1) d' [] [] info hd'
            (by simp) hflag
          refine ⟨chunk :: chunks, .spill hd hnone (Nat.not_le.1 hroom) hdescs, ?_⟩
          rw [List.flatten_cons, hflat, List.nil_append]

theorem filter_rdropWhile {α : Type} (p : α → Bool) (l : List α) :
    (l.rdropWhile (!p ·)).filter p = l.filter p := by
  conv_rhs => rw [← List.rdropWhile_append_rtakeWhile (p := (!p ·)) (l := l)]
  have hnil : (l.rtakeWhile (!p ·)).filter p = [] := by
    rw [List.filter_eq_nil_iff]
    intro x hx
    simpa using List.mem_rtakeWhile_imp hx
  rw [List.filter_append, hnil, List.append_nil]

theorem journalPrepare_spec {bcsum : Mem → ℕ → ℕ} {sequence : ℕ} {stale : ℕ → Mem}
    (hmin : 1024 ≤ sb.blocksize) (bufs : List JbdBuf) :
    (jbdJournalPrepare sb bcsum sequence stale bufs = [] ∧ bufs.filter (·.dirty) = []) ∨
    ∃ chunks, Descs sb sequence stale 0 (jbdJournalPrepare sb bcsum sequence stale bufs) chunks ∧
      chunks.flatten = bufs.filter (·.dirty) := by
  have hfilter := filter_rdropWhile JbdBuf.dirty bufs
  have hend : EndsDirty (bufs.rdropWhile (!·.dirty)) := by
    intro hne
    simpa using List.rdropWhile_last_not _ _ hne
  rw [← hfilter]
  by_cases hne : bufs.rdropWhile (!·.dirty) = []
  · left
    rw [jbdJournalPrepare, hne]
    exact ⟨rfl, rfl⟩
  · right
    have h := (@prepareLoop_spec _ bcsum sequence stale hmin _ hend
      hne).1 0 ext4Crc32Init 0
    rwa [Nat.zero_add] at h

/-- The tag area ends where the checksum begins. -/
theorem tagArea_end (hmin : 1024 ≤ sb.blocksize) :
    jbdBhdrSize + jbdTagArea sb = sb.blocksize - jbdTailSize sb := by
  unfold jbdTagArea jbdTailSize jbdBhdrSize jbdBlockTailSize
  split_ifs <;> omega

/-- What the reader makes of a descriptor block: a tag for each data block. -/
def DescRead (sb : JbdSb) (csum : Mem → ℕ) (d : DescBlk) (chunk : List JbdBuf) : Prop :=
  d.data = chunk.map (fun buf => jbdLogCopy buf.data) ∧
    (jbdIterateBlockTable sb (d.close sb csum)).map (fun t => (t.block, t.isEscape)) =
      chunk.map fun buf =>
        (buf.lba % (if sb.is64 then 2 ^ 64 else 2 ^ 32), jbdIsEscape buf.data)

theorem DescBlk.Holds.read {sequence : ℕ} {stale : Mem} {d : DescBlk} {chunk : List JbdBuf}
    {infos : List TagInfo} {csum : Mem → ℕ} (h : d.Holds sb sequence stale chunk infos)
    (hread : List.Forall₂ (TagInfo.Read sb) infos (jbdIterateBlockTable sb (d.close sb csum))) :
    DescRead sb csum d chunk := by
  refine ⟨h.data, ?_⟩
  have hinfos := h.infos
  generalize jbdIterateBlockTable sb (d.close sb csum) = ts at hread ⊢
  clear h
  induction hinfos generalizing ts with
  | nil =>
    cases hread
    rfl
  | cons hbuf _ ih =>
    cases hread with
    | cons ht hread =>
      rw [List.map_cons, List.map_cons, ih _ hread, ht.2.1, ht.2.2.1, hbuf.1, hbuf.2]

theorem Descs.read {sequence k : ℕ} {stale : ℕ → Mem} {ds : List DescBlk}
    {chunks : List (List JbdBuf)} (hmin : 1024 ≤ sb.blocksize)
    (h : Descs sb sequence stale k ds chunks) (csum : Mem → ℕ) :
    List.Forall₂ (DescRead sb csum) ds chunks := by
  have hclose {d : DescBlk} {chunk infos} {k : ℕ} (hd : d.Holds sb sequence (stale k) chunk infos) :
      Tags sb (d.close sb csum) jbdBhdrSize (jbdTagArea sb) infos d.tagPtr d.tagTblSize := by
    have hle := hd.tags.le
    have harea := tagArea_end hmin
    exact hd.tags.congr fun i _ hi => jbdMetaCsumSet_of_lt (by omega)
  induction h with
  | last hd hnone hlast => exact .cons (hd.read ((hclose hd).iterate_last hnone hlast)) .nil
  | spill hd hnone hfull _ ih => exact .cons (hd.read ((hclose hd).iterate_full hnone hfull)) ih

/-- Reading back the descriptor blocks gives the numbers and escape flags of
    the dirty buffers, block by block as many as there are data blocks, and
    only the tag area of each block has been written. -/
def DescriptorCodecExact (sb : JbdSb) (sequence : ℕ) (bufs : List JbdBuf) : Prop :=
  ∀ bcsum csum stale,
    let ds := jbdJournalPrepare sb bcsum sequence stale bufs
    let tags d := jbdIterateBlockTable sb (DescBlk.close sb csum d)
    (∀ d ∈ ds, (tags d).length = d.data.length) ∧
    (ds.flatMap fun d => (tags d).map fun t => (t.block, t.isEscape)) =
      (bufs.filter (·.dirty)).map (fun buf => (buf.lba, jbdIsEscape buf.data)) ∧
    ds.flatMap (·.data) = (bufs.filter (·.dirty)).map (fun buf => jbdLogCopy buf.data) ∧
    ∀ k (h : k < ds.length) i, i < jbdBhdrSize ∨ jbdBhdrSize + jbdTagArea sb ≤ i →
      (ds[k]).blk i = jbdSetBhdr (stale k) jbdDescriptorBlock sequence i

theorem read_exact {csum : Mem → ℕ} {ds : List DescBlk} {chunks : List (List JbdBuf)}
    (h : List.Forall₂ (DescRead sb csum) ds chunks) :
    (∀ d ∈ ds, (jbdIterateBlockTable sb (d.close sb csum)).length = d.data.length) ∧
    (ds.flatMap fun d => (jbdIterateBlockTable sb (d.close sb csum)).map fun t =>
      (t.block, t.isEscape)) = chunks.flatten.map (fun buf =>
        (buf.lba % (if sb.is64 then 2 ^ 64 else 2 ^ 32), jbdIsEscape buf.data)) ∧
    ds.flatMap (·.data) = chunks.flatten.map fun buf => jbdLogCopy buf.data := by
  induction h with
  | nil => simp
  | cons hd _ ih =>
    obtain ⟨ih1, ih2, ih3⟩ := ih
    refine ⟨fun d hmem => ?_, ?_, ?_⟩
    · rcases List.mem_cons.1 hmem with rfl | hmem
      · have hlen := congrArg List.length hd.2
        rw [List.length_map, List.length_map] at hlen
        rw [hlen, hd.1, List.length_map]
      · exact ih1 d hmem
    · rw [List.flatMap_cons, hd.2, ih2, List.flatten_cons, List.map_append]
    · rw [List.flatMap_cons, hd.1, ih3, List.flatten_cons, List.map_append]

/-- The number of tags a descriptor block has room for. -/
def jbdTagsPerBlock (sb : JbdSb) : ℕ := (jbdTagArea sb - uuidSize) / jbdTagBytes sb

theorem DescBlk.Holds.room {sequence : ℕ} {stale : Mem} {d : DescBlk} {chunk : List JbdBuf}
    {infos : List TagInfo} (h : d.Holds sb sequence stale chunk infos) :
    jbdTagBytes sb * chunk.length + d.tagTblSize = jbdTagArea sb - uuidSize := by
  have hle := h.tags.le.2
  have hptr := h.ptr
  rw [Nat.mul_comm] at hptr
  omega

theorem DescBlk.Holds.length_le {sequence : ℕ} {stale : Mem} {d : DescBlk} {chunk : List JbdBuf}
    {infos : List TagInfo} (h : d.Holds sb sequence stale chunk infos) :
    chunk.length ≤ jbdTagsPerBlock sb := by
  have hroom := h.room
  have hbounds := tagBytes_bounds sb
  rw [jbdTagsPerBlock, Nat.le_div_iff_mul_le (by omega), Nat.mul_comm]
  omega

/-- A block with all its tags is filled up to the remainder. -/
theorem DescBlk.Holds.full_iff {sequence : ℕ} {stale : Mem} {d : DescBlk} {chunk : List JbdBuf}
    {infos : List TagInfo} (h : d.Holds sb sequence stale chunk infos) :
    (chunk.length = jbdTagsPerBlock sb ↔ d.tagTblSize < jbdTagBytes sb) ∧
      (jbdTagArea sb - uuidSize) % jbdTagBytes sb ≤ d.tagTblSize ∧
      (d.tagTblSize < jbdTagBytes sb →
        d.tagTblSize = (jbdTagArea sb - uuidSize) % jbdTagBytes sb) := by
  have hbounds := tagBytes_bounds sb
  rw [jbdTagsPerBlock, ← h.room, Nat.mul_add_div (by omega), Nat.mul_add_mod]
  refine ⟨⟨fun hq => ?_, fun hlt => ?_⟩, Nat.mod_le _ _, fun hlt => (Nat.mod_eq_of_lt hlt).symm⟩
  · have hzero : d.tagTblSize / jbdTagBytes sb = 0 := by omega
    exact (Nat.div_eq_zero_iff_lt (by omega)).1 hzero
  · rw [Nat.div_eq_of_lt hlt, Nat.add_zero]

theorem Descs.get {sequence k : ℕ} {stale : ℕ → Mem} {ds : List DescBlk}
    {chunks : List (List JbdBuf)} (h : Descs sb sequence stale k ds chunks) :
    ∀ j (hj : j < ds.length), ∃ chunk infos, (ds[j]).Holds sb sequence (stale (k + j)) chunk infos ∧
      chunk.length ≤ chunks.flatten.length := by
  induction h with
  | last hd _ _ =>
    intro j hj
    obtain rfl : j = 0 := by
      rw [List.length_singleton] at hj
      omega
    exact ⟨_, _, hd, by simp⟩
  | spill hd _ _ _ ih =>
    rename_i k _ _ _ _ _ _
    intro j hj
    rw [List.flatten_cons, List.length_append]
    cases j with
    | zero => exact ⟨_, _, hd, Nat.le_add_right _ _⟩
    | succ j =>
      obtain ⟨chunk, infos, hh, hlen⟩ := ih j (Nat.lt_of_succ_lt_succ hj)
      rw [Nat.add_assoc, Nat.add_comm 1] at hh
      exact ⟨chunk, infos, hh, by omega⟩

/-- With enough buffers the first block is full. -/
theorem Descs.first_full {sequence k : ℕ} {stale : ℕ → Mem} {ds : List DescBlk}
    {chunks : List (List JbdBuf)} (h : Descs sb sequence stale k ds chunks)
    (hmany : jbdTagsPerBlock sb ≤ chunks.flatten.length) :
    ∃ (h0 : 0 < ds.length) (chunk : List JbdBuf) (infos : List TagInfo),
      (ds[0]).Holds sb sequence (stale k) chunk infos ∧ chunk.length = jbdTagsPerBlock sb := by
  cases h with
  | last hd _ _ =>
    rw [List.flatten_singleton] at hmany
    exact ⟨by simp, _, _, hd, Nat.le_antisymm hd.length_le hmany⟩
  | spill hd _ hfull _ => exact ⟨by simp, _, _, hd, hd.full_iff.1.2 hfull⟩

/-- The header of the last tag stays inside the tag area of every block. -/
def TagsInside (sb : JbdSb) (n : ℕ) : Prop :=
  tagOver sb ≤ (jbdTagArea sb - uuidSize) % jbdTagBytes sb ∨ n < jbdTagsPerBlock sb

theorem DescBlk.Holds.inside {sequence n : ℕ} {stale : Mem} {d : DescBlk} {chunk : List JbdBuf}
    {infos : List TagInfo} (h : d.Holds sb sequence stale chunk infos) (hn : TagsInside sb n)
    (hlen : chunk.length ≤ n) {i : ℕ} (hi : i < jbdBhdrSize ∨ jbdBhdrSize + jbdTagArea sb ≤ i) :
    d.blk i = jbdSetBhdr stale jbdDescriptorBlock sequence i := by
  rcases hi with hi | hi
  · exact h.header i hi
  · have hle := h.tags.le.2
    have hbounds := tagBytes_bounds sb
    have hover := (layout_size_le sb).2.1
    obtain ⟨hiff, hmod, -⟩ := h.full_iff
    have hroom : tagOver sb ≤ d.tagTblSize := by
      rcases hn with hn | hn
      · omega
      · by_contra hcon
        have := hiff.2 (by omega)
        omega
    rw [h.rest i (by split_ifs <;> omega), jbdSetBhdr_of_ge (by omega)]

theorem one_lt_tagsPerBlock (hmin : 1024 ≤ sb.blocksize) : 2 ≤ jbdTagsPerBlock sb := by
  have hbounds := tagBytes_bounds sb
  have harea : 1000 ≤ jbdTagArea sb := by
    unfold jbdTagArea jbdTailSize jbdBhdrSize jbdBlockTailSize
    split_ifs <;> omega
  rw [jbdTagsPerBlock, uuidSize, Nat.le_div_iff_mul_le (by omega)]
  omega

theorem DescriptorCodecExact.fits {sequence : ℕ} {bufs : List JbdBuf}
    (hmin : 1024 ≤ sb.blocksize) (h : DescriptorCodecExact sb sequence bufs) :
    sb.is64 = true ∨ ∀ buf ∈ bufs, buf.dirty = true → buf.lba < 2 ^ 32 := by
  rw [or_iff_not_imp_left, Bool.not_eq_true]
  intro h64 buf hbuf hdirty
  obtain ⟨-, htags, -, -⟩ := h (fun _ _ => 0) (fun _ => 0) (fun _ _ => 0)
  have hmem : (buf.lba, jbdIsEscape buf.data) ∈
      (bufs.filter (·.dirty)).map fun buf => (buf.lba, jbdIsEscape buf.data) :=
    List.mem_map.2 ⟨buf, List.mem_filter.2 ⟨hbuf, hdirty⟩, rfl⟩
  rcases @journalPrepare_spec _ (fun _ _ => 0) sequence (fun _ _ => 0) hmin bufs with ⟨-, hnil⟩ |
    ⟨chunks, hdescs, hflat⟩
  · rw [hnil] at hmem
    exact absurd hmem (by simp)
  · have hread := (read_exact (hdescs.read hmin fun _ => 0)).2.1
    rw [hflat, h64, if_neg Bool.false_ne_true] at hread
    rw [← htags, hread] at hmem
    obtain ⟨buf', -, heq⟩ := List.mem_map.1 hmem
    obtain ⟨hlba, -⟩ := Prod.mk.inj heq
    rw [← hlba]
    exact Nat.mod_lt _ (Nat.two_pow_pos 32)

/-- The last tag of a full block clears the bytes behind the tag area. -/
theorem DescriptorCodecExact.inside {sequence : ℕ} {bufs : List JbdBuf}
    (hmin : 1024 ≤ sb.blocksize) (h : DescriptorCodecExact sb sequence bufs) :
    TagsInside sb (bufs.filter (·.dirty)).length := by
  by_contra hcon
  obtain ⟨hover, hmany⟩ := not_or.1 hcon
  obtain ⟨-, -, -, hinside⟩ := h (fun _ _ => 0) (fun _ => 0) (fun _ _ => 1)
  have htwo := one_lt_tagsPerBlock hmin
  rcases @journalPrepare_spec _ (fun _ _ => 0) sequence (fun _ _ => 1) hmin bufs with ⟨-, hnil⟩ |
    ⟨chunks, hdescs, hflat⟩
  · rw [hnil, List.length_nil] at hmany
    omega
  · obtain ⟨h0, chunk, infos, hd, hlen⟩ :=
      hdescs.first_full (by rw [hflat]; exact Nat.not_lt.1 hmany)
    obtain ⟨hiff, -, hmod⟩ := hd.full_iff
    have hle := hd.tags.le.2
    have hrest := hmod (hiff.1 hlen)
    have hzero := hd.spill (by omega) (jbdBhdrSize + jbdTagArea sb) (by omega) (by omega)
    rw [hinside 0 h0 _ (.inr le_rfl), jbdSetBhdr_of_ge (by omega)] at hzero
    exact absurd hzero (by decide)

/-- **Descriptor codec**: what is written is read back exactly, and only the
    tag area is written, iff the block numbers fit into the tags and no header
    of a last tag reaches beyond the tag area. -/
theorem descriptorCodec_exact_iff {sequence : ℕ} {bufs : List JbdBuf} (hmin : 1024 ≤ sb.blocksize)
    (hlba : ∀ buf ∈ bufs, buf.lba < 2 ^ 64) :
    DescriptorCodecExact sb sequence bufs ↔
      (sb.is64 = true ∨ ∀ buf ∈ bufs, buf.dirty = true → buf.lba < 2 ^ 32) ∧
        TagsInside sb (bufs.filter (·.dirty)).length := by
  constructor
  · exact fun h => ⟨h.fits hmin, h.inside hmin⟩
  · rintro ⟨hfit, hinside⟩ bcsum csum stale
    rcases @journalPrepare_spec _ bcsum sequence stale hmin bufs with
      ⟨hnil, hdirty⟩ | ⟨chunks, hdescs, hflat⟩
    · simp [hnil, hdirty]
    · obtain ⟨h1, h2, h3⟩ := read_exact (hdescs.read hmin csum)
      rw [hflat] at h2 h3
      refine ⟨h1, h2.trans (List.map_congr_left fun buf hbuf => ?_), h3, fun k hk i hi => ?_⟩
      · obtain ⟨hmem, hdirty⟩ := List.mem_filter.1 hbuf
        congr 1
        refine Nat.mod_eq_of_lt ?_
        split_ifs with h64
        · exact hlba buf hmem
        · exact (hfit.resolve_left h64) buf hmem hdirty
      · obtain ⟨chunk, infos, hd, hlen⟩ := hdescs.get k hk
        rw [Nat.zero_add] at hd
        rw [hflat] at hlen
        exact hd.inside hinside hlen hi

end Desc

/-- A journal with 64-bit block numbers.  The tags of 100 buffers take two descriptor blocks, and
    the last buffer is no longer dirty. -/
theorem descriptorCodec_exact_64bit :
    DescriptorCodecExact ⟨1024, true, true, false, .replicate 16 0⟩ 5
      ((List.range 100).map (fun n => ⟨2 ^ 40 + n, fun _ => 0, true⟩) ++ [⟨9, fun _ => 0, false⟩]) :=
  (@descriptorCodec_exact_iff ⟨1024, true, true, false, .replicate 16 0⟩ _ _ (by decide) (by
    intro buf hbuf
    rcases List.mem_append.1 hbuf with h | h
    · obtain ⟨n, hn, rfl⟩ := List.mem_map.1 h
      have := List.mem_range.1 hn
      show 2 ^ 40 + n < 2 ^ 64
      omega
    · rw [List.mem_singleton.1 h]
      decide)).2 ⟨.inl rfl, .inl (by decide)⟩

/-- Blocks of 8 KiB with `CSUM_V2`: the 816th tag fills the tag area, and its
    header reaches two bytes into the checksum tail.  And without `64BIT`,
    block `2 ^ 32 + 7` is logged as block 7. -/
theorem descriptor_inexact :
    ¬ DescriptorCodecExact ⟨8192, false, true, false, .replicate 16 0⟩ 1
      ((List.range 816).map fun n => ⟨n + 100, fun _ => 0, true⟩) ∧
    ¬ DescriptorCodecExact ⟨1024, false, false, false, .replicate 16 0⟩ 1
      [⟨2 ^ 32 + 7, fun _ => 0, true⟩] := by
  constructor
  · intro h
    have hinside := h.inside (by decide)
    rw [List.filter_eq_self.2 (by simp), List.length_map, List.length_range] at hinside
    revert hinside
    unfold TagsInside
    decide
  · intro h
    have hfit := h.fits (by decide)
    simp at hfit

end Lwext4
