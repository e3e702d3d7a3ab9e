/-
  A leaf of a directory index is split (`ext4_dir_dx_split_data`).

  The entries in use are sorted by hash and go to two blocks, up to the entry
  with which more than half a block is full.  If all of them fit in half a
  block, there is no such entry.

  Main result: `splitData_splits_iff`.
-/
import Lwext4.DirIdxEdit
import Lwext4.DirIdxFind

namespace Lwext4.DirIdx

open Lib

/-! ## Entries and their copies -/

theorem dxRecLen_eq (n : ℕ) : dxRecLen n = 8 + (n + 3) / 4 * 4 := by
  unfold dxRecLen
  split_ifs with h
  · omega
  · omega

/-- An entry of a leaf as it is sorted. -/
structure SortOf (env : DxEnv) (version : ℕ) (e : DirEnt) (s : DxSortEntry) : Prop where
  live : e.inode ≠ 0
  nameLen : e.name.length ≤ 255
  hash : ext2HtreeHash env.hashSeed version e.name = .ok s.hash
  recLen : s.recLen = dxRecLen e.name.length
  dentry : ∃ m o o', EntAt env.sb m o o' e ∧ s.dentry = m.read o s.recLen

section

variable {env : DxEnv} {sb : DirSb} {m b b' : Mem} {o o' p version off size idx fuel area : ℕ}
  {e : DirEnt} {es : List DirEnt} {s : DxSortEntry} {ses : List DxSortEntry}

theorem SortOf.le (h : SortOf env version e s) : 12 ≤ s.recLen ∧ s.recLen ≤ 264 ∧ 4 ∣ s.recLen := by
  obtain ⟨m, o, o', hent, -⟩ := h.dentry
  have hpos := List.length_pos_iff.2 (hent.ne h.live)
  have hle := h.nameLen
  rw [h.recLen, dxRecLen_eq]
  omega

/-- A copy of an entry, with a record of another length. -/
theorem SortOf.put (b : Mem) (p : ℕ) (h : SortOf env version e s) {len : ℕ}
    (hlen : s.recLen ≤ len) (hdvd : 4 ∣ len) (hlt : len < 2 ^ 16) :
    EntAt env.sb (dirEnSetEntryLen (b.write p s.dentry) p len) p (p + len)
      { e with recLen := len } := by
  obtain ⟨m, o, o', hent, hd⟩ := h.dentry
  have hroom : 8 + e.name.length ≤ s.recLen := by
    rw [h.recLen, dxRecLen_eq]
    omega
  have hcopy : ∀ c w, c + w ≤ 8 + e.name.length →
      (b.write p s.dentry).read (p + c) w = m.read (o + c) w := by
    intro c w hcw
    rw [hd]
    refine List.ext_getElem? fun i => ?_
    rw [Mem.getElem?_read, Mem.getElem?_read]
    by_cases hi : i < w
    · rw [if_pos hi, if_pos hi, Mem.write_read_apply _ _ (by omega) (by omega)]
      congr 2
      omega
    · rw [if_neg hi, if_neg hi]
  have hget : ∀ c w, c + w ≤ 8 → getLE (b.write p s.dentry) (p + c) w = getLE m (o + c) w := by
    intro c w hcw
    rw [getLE, getLE, hcopy c w (by omega)]
  -- at first with the record that it had
  have hmoved : EntAt env.sb (b.write p s.dentry) p (p + e.recLen) e := by
    refine ⟨?_, ?_, rfl, ?_, hent.min, hent.dvd, fun hl => ?_, fun hl => ?_, hent.room, hent.ne⟩
    · rw [← hent.inode]
      exact hget 0 4 (by omega)
    · rw [← hent.len]
      exact hget 4 2 (by omega)
    · rw [← hent.ftype, dirEnGetInodeType, dirEnGetInodeType, hget 7 1 (by omega)]
    · rw [← hent.nameLen hl, dirEnGetNameLen, dirEnGetNameLen, hget 6 1 (by omega),
        hget 7 1 (by omega)]
    · have hname := hent.name hl
      rw [dirEnName] at hname ⊢
      rw [hcopy 8 _ le_rfl, hname]
  have hmin := h.le.1
  exact hmoved.setLen (by omega) hdvd hlt fun _ => hroom.trans hlen

/-! ## The entries are collected -/

/-- The low byte of the length of a name that is not empty. -/
theorem nameLen_byte (h : EntAt sb m o o' e) (hlive : e.inode ≠ 0) (hle : e.name.length ≤ 255) :
    getLE m (o + 6) 1 ≠ 0 := by
  have hlen := h.nameLen hlive
  have hpos := List.length_pos_iff.2 (h.ne hlive)
  rw [dirEnGetNameLen] at hlen
  split_ifs at hlen with hold
  · have hlt := getLE_lt m (o + 7) 1
    omega
  · omega

/-- **The sort table has the entries in use.** -/
theorem collect_sortOf (hp : Packed (EntAt env.sb m) off area es)
    (hnames : ∀ e ∈ es, e.inode ≠ 0 → e.name.length ≤ 255)
    (hend : area = env.sb.blockSize ∨ area + 12 = env.sb.blockSize ∧ dirEnGetInode m area = 0 ∧
      dirEnGetEntryLen m area = 12)
    (h : dxCollectLoop env version m fuel off size idx = .ok (.ok ses)) :
    List.Forall₂ (SortOf env version) (es.filter fun e => e.inode ≠ 0) ses := by
  induction hp generalizing fuel size idx ses with
  | @nil a =>
    have hnil : ∀ fuel ses, dxCollectLoop env version m fuel env.sb.blockSize size idx =
        .ok (.ok ses) → ses = [] := by
      intro fuel ses hs
      cases fuel with
      | zero => cases hs
      | succ fuel =>
        rw [dxCollectLoop, if_pos le_rfl] at hs
        exact (Except.ok.inj (Except.ok.inj hs)).symm
    obtain rfl | ⟨harea, hinode, hlen⟩ := hend
    · rw [hnil _ _ h]
      exact .nil
    · cases fuel with
      | zero => cases h
      | succ fuel =>
        rw [dxCollectLoop, if_neg (by omega), if_neg fun hc => hc.1 hinode, hlen, harea] at h
        rw [hnil _ _ h]
        exact .nil
  | @cons a b c e es he hlt hp ih =>
    have hle := hp.le
    have hstop := he.stop
    cases fuel with
    | zero => cases h
    | succ fuel =>
      have hlast : ¬env.sb.blockSize ≤ a := by
        obtain rfl | ⟨harea, -⟩ := hend
        · omega
        · omega
      rw [dxCollectLoop, if_neg hlast] at h
      have hrest := List.forall_mem_cons.1 hnames
      by_cases hlive : e.inode ≠ 0
      · have hshort := hrest.1 hlive
        have hbyte := nameLen_byte he hlive hshort
        rw [if_pos ⟨by rwa [he.inode], hbyte⟩] at h
        simp only [he.nameLen hlive, he.name hlive, he.len] at h
        cases hh : ext2HtreeHash env.hashSeed version e.name with
        | error x =>
          rw [hh] at h
          cases h
        | ok hash =>
          rw [hh] at h
          simp only at h
          split_ifs at h with hassert
          rw [hstop] at hp ih
          cases hloop : dxCollectLoop env version m fuel (a + e.recLen)
              (size + dxRecLen e.name.length) (idx + 1) with
          | error x =>
            rw [hloop] at h
            cases h
          | ok r =>
            rw [hloop] at h
            cases r with
            | error x => cases h
            | ok rest =>
              obtain rfl := Except.ok.inj (Except.ok.inj h)
              rw [List.filter_cons_of_pos (by simpa using hlive)]
              refine .cons ⟨hlive, hshort, hh, rfl, m, a, b, he, rfl⟩ ?_
              exact ih (fun f hf => hrest.2 f hf) hend hloop
      · rw [if_neg fun hc => hlive (by rw [← he.inode]; exact hc.1), he.len] at h
        rw [hstop] at hp ih
        rw [List.filter_cons_of_neg (by simpa using hlive)]
        exact ih (fun f hf => hrest.2 f hf) hend h

/-! ## The middle -/

/-- The lengths of the entries. -/
def lengths (ses : List DxSortEntry) : ℕ := (ses.map DxSortEntry.recLen).sum

@[simp] theorem lengths_nil : lengths [] = 0 := rfl

@[simp] theorem lengths_cons : lengths (s :: ses) = s.recLen + lengths ses := by
  simp [lengths]

@[simp] theorem lengths_append {ses' : List DxSortEntry} :
    lengths (ses ++ ses') = lengths ses + lengths ses' := by
  simp [lengths]

theorem midLoop_none {half i cur : ℕ} (h : cur + lengths ses ≤ half) :
    dxMidLoop half ses i cur = (0, 0) := by
  induction ses generalizing i cur with
  | nil => rfl
  | cons s ses ih =>
    rw [lengths_cons] at h
    rw [dxMidLoop, if_neg (by omega)]
    exact ih (by omega)

theorem midLoop_some {half i cur : ℕ} (h : half < cur + lengths ses) (hcur : cur ≤ half) :
    ∃ pre s post, ses = pre ++ s :: post ∧
      dxMidLoop half ses i cur = (i + pre.length, s.hash) ∧ cur + lengths pre ≤ half ∧
      half < cur + lengths pre + s.recLen := by
  induction ses generalizing i cur with
  | nil =>
    rw [lengths_nil] at h
    omega
  | cons s ses ih =>
    rw [dxMidLoop]
    by_cases hs : half < cur + s.recLen
    · rw [if_pos hs]
      exact ⟨[], s, ses, rfl, rfl, by simpa using hcur, by simpa using hs⟩
    · rw [if_neg hs]
      rw [lengths_cons] at h
      obtain ⟨pre, x, post, rfl, hmid, hle, hlt⟩ := @ih (i + 1) (cur + s.recLen) (by omega)
        (by omega)
      refine ⟨s :: pre, x, post, rfl, ?_, ?_, ?_⟩
      · rw [hmid, List.length_cons, Nat.add_assoc, Nat.add_comm 1]
      · rw [lengths_cons]
        omega
      · rw [lengths_cons]
        omega

/-! ## The copies -/

theorem sortOf_mem (h : List.Forall₂ (SortOf env version) es ses) :
    ∀ s ∈ ses, s.dentry.length = s.recLen ∧ 12 ≤ s.recLen := by
  induction h with
  | nil => simp
  | cons hs _ ih =>
    refine List.forall_mem_cons.2 ⟨⟨?_, hs.le.1⟩, ih⟩
    obtain ⟨m, o, o', -, hd⟩ := hs.dentry
    rw [hd, Mem.length_read]

theorem copyLoop_frame {i : ℕ} (hlen : ∀ s ∈ ses, s.dentry.length = s.recLen ∧ 12 ≤ s.recLen)
    (hi : i < off ∨ off + lengths ses ≤ i) : dxCopyLoop size ses off m i = m i := by
  induction ses generalizing off m with
  | nil => rfl
  | cons s ses ih =>
    obtain ⟨⟨hd, h12⟩, hrest⟩ := List.forall_mem_cons.1 hlen
    rw [lengths_cons] at hi
    have hout : ∀ len, dirEnSetEntryLen (m.write off s.dentry) off len i = m i := by
      intro len
      rw [setEntryLen_frame (by omega)]
      rcases hi with hi | hi
      · exact Mem.write_of_lt _ hi
      · exact Mem.write_of_ge (by omega)
    cases ses with
    | nil => exact hout _
    | cons x ses =>
      have hloop : dxCopyLoop size (s :: x :: ses) off m = dxCopyLoop size (x :: ses)
          (off + s.recLen) (dirEnSetEntryLen (m.write off s.dentry) off s.recLen) := rfl
      rw [hloop, ih hrest (by omega)]
      exact hout _

theorem setEntry_links (e : DirEnt) (len : ℕ) (es : List DirEnt) :
    links ({ e with recLen := len } :: es) = links (e :: es) := by
  simp only [links, List.filter_cons]
  split_ifs
  · rfl
  · rfl

/-- **The copies fill the block**, if the last record has a length that can be
    stored. -/
theorem copyLoop_packed (h : List.Forall₂ (SortOf env version) es ses) (hne : ses ≠ [])
    (hsize : off + lengths ses ≤ size) (hdvd : 4 ∣ size - off)
    (hlast : off + lengths ses.dropLast + 2 ^ 16 > size) :
    ∃ es', Packed (EntAt env.sb (dxCopyLoop size ses off m)) off size es' ∧
      links es' = links es := by
  induction h generalizing off m with
  | nil => exact absurd rfl hne
  | @cons e s es ses hs hrest ih =>
    obtain ⟨hmin, hmax, hsd⟩ := hs.le
    rw [lengths_cons] at hsize
    cases hrest with
    | nil =>
      rw [lengths_nil] at hsize
      have hlast : size < off + 2 ^ 16 := by simpa using hlast
      have hput := SortOf.put m off hs (show s.recLen ≤ size - off by omega) hdvd (by omega)
      rw [Nat.add_sub_cancel' (by omega)] at hput
      refine ⟨[{ e with recLen := size - off }], .single hput (by omega), ?_⟩
      exact setEntry_links e _ []
    | @cons f x fs xs hx hxs =>
      rw [List.dropLast_cons_of_ne_nil (by simp), lengths_cons] at hlast
      have hput := SortOf.put m off hs le_rfl hsd (lt_of_le_of_lt hmax (by decide))
      obtain ⟨es', hpacked, hlinks⟩ := @ih (dirEnSetEntryLen (m.write off s.dentry) off s.recLen)
        (off + s.recLen) (by simp) (by omega) (by omega) (by omega)
      have hdentry := sortOf_mem (List.Forall₂.cons hx hxs)
      refine ⟨{ e with recLen := s.recLen } :: es', .cons ?_ (by omega) hpacked, ?_⟩
      · exact hput.congr fun i _ hi => copyLoop_frame hdentry (.inl hi)
      · rw [setEntry_links, links_cons_live es' hs.live, links_cons_live (f :: fs) hs.live, hlinks]

/-! ## The tails -/

/-- The bytes of a leaf that are for entries. -/
def leafArea (env : DxEnv) : ℕ :=
  if env.sb.metadataCsum then env.sb.blockSize - dirEntryTailSize else env.sb.blockSize

/-- A leaf has a tail with its checksum, if there are checksums. -/
def TailOk (env : DxEnv) (b : Mem) : Prop :=
  env.sb.metadataCsum = true → ext4DirGetTail env.sb b = true ∧
    ∃ b₁ : Mem, (∀ i < env.sb.blockSize - 4, b i = b₁ i) ∧
      getLE b (env.sb.blockSize - 4) 4 = env.csum b₁ % 2 ^ 32

theorem initEntryTail_frame {i : ℕ} (hi : i < sb.blockSize - dirEntryTailSize) :
    dirInitEntryTail sb b i = b i := by
  rw [dirInitEntryTail, putLE_of_lt (by omega), putLE_of_lt (by omega), Mem.fill, if_neg (by omega)]

theorem initEntryTail_tail : ext4DirGetTail sb (dirInitEntryTail sb b) = true := by
  have hfill : ∀ c w, sb.blockSize - dirEntryTailSize ≤ c →
      c + w ≤ sb.blockSize - dirEntryTailSize + 12 →
      getLE (b.fill (sb.blockSize - dirEntryTailSize) dirEntryTailSize 0) c w = 0 := by
    intro c w h1 h2
    refine getLE_eq_zero_iff.2 fun i hi hi' => ?_
    rw [Mem.fill, if_pos ⟨by omega, by rw [dirEntryTailSize] at h2 ⊢; omega⟩]
  rw [ext4DirGetTail, dirInitEntryTail]
  simp only [Bool.and_eq_true, beq_iff_eq]
  refine ⟨⟨⟨?_, ?_⟩, ?_⟩, ?_⟩
  · rw [getLE_putLE_of_disjoint (.inl (by omega)), getLE_putLE_of_disjoint (.inl (by omega))]
    exact hfill _ _ le_rfl (by omega)
  · rw [getLE_putLE_of_disjoint (.inl (by omega)), getLE_putLE_of_disjoint (.inr (by omega))]
    exact hfill _ _ (by omega) (by omega)
  · rw [getLE_putLE_of_disjoint (.inl (by omega)), getLE_putLE]
    rfl
  · rw [getLE_putLE]
    rfl

/-- What was written to a leaf lies in front of its tail. -/
theorem finishLeaf_frame {i : ℕ} (hi : i < leafArea env) : dxFinishLeaf env b i = b i := by
  rw [dxFinishLeaf, ext4DirSetCsum]
  rw [leafArea] at hi
  cases hc : env.sb.metadataCsum with
  | false => rfl
  | true =>
    rw [hc, if_pos rfl] at hi
    have hi' : i < env.sb.blockSize - 4 := by
      rw [dirEntryTailSize] at hi
      omega
    simp only [if_true, initEntryTail_tail, Bool.and_true]
    rw [putLE_of_lt hi']
    exact initEntryTail_frame hi

/-- **A leaf is finished.** -/
theorem finishLeaf_spec (hbs : dirEntryTailSize ≤ env.sb.blockSize)
    (hp : Packed (EntAt env.sb b) 0 (leafArea env) es) :
    DirBlock env.sb (dxFinishLeaf env b) es ∧ TailOk env (dxFinishLeaf env b) := by
  rw [dxFinishLeaf, TailOk]
  rw [leafArea] at hp
  cases hc : env.sb.metadataCsum with
  | false =>
    rw [hc, if_neg Bool.false_ne_true] at hp
    rw [if_neg Bool.false_ne_true]
    have hnone : hasTail env.sb b = false := by rw [hasTail, hc, Bool.false_and]
    have harea : dirArea env.sb b = env.sb.blockSize := by
      rw [dirArea, hnone, if_neg Bool.false_ne_true]
    exact ⟨(setCsum_spec hbs (harea ▸ hp) (fun _ _ => rfl) id).block, Bool.noConfusion⟩
  | true =>
    rw [hc, if_pos rfl] at hp
    rw [if_pos rfl]
    have htail : hasTail env.sb (dirInitEntryTail env.sb b) = true := by
      rw [hasTail, hc, initEntryTail_tail]
      rfl
    have harea : dirArea env.sb (dirInitEntryTail env.sb b) =
        env.sb.blockSize - dirEntryTailSize := by
      rw [dirArea, htail, if_pos rfl]
    have hpacked : Packed (EntAt env.sb (dirInitEntryTail env.sb b)) 0
        (dirArea env.sb (dirInitEntryTail env.sb b)) es := by
      rw [harea]
      exact hp.mono fun i j e _ hj he => he.congr fun k _ hk => initEntryTail_frame (by omega)
    have hdone := @setCsum_spec _ _ env.csum _ _ hbs hpacked (fun _ _ => rfl) id
    refine ⟨hdone.block, fun _ => ⟨?_, hdone.csum htail⟩⟩
    rw [getTail_congr hbs fun i hi hi' => hdone.tail i (harea.le.trans hi) hi']
    exact initEntryTail_tail

/-! ## The two blocks -/

/-- The names in use are the same wherever the entries are read. -/
theorem packed_links {es' : List DirEnt} {a c : ℕ} (h : Packed (EntAt sb b) a c es)
    (h' : Packed (EntAt sb b) a c es') : links es = links es' := by
  induction h generalizing es' with
  | nil =>
    cases h' with
    | nil => rfl
    | cons _ hlt h => exact absurd (h.le) (by omega)
  | @cons a b c e es he hlt hp ih =>
    have hle := hp.le
    cases h' with
    | nil => omega
    | @cons _ b' _ e' es' he' hlt' hp' =>
      have hrec : e.recLen = e'.recLen := he.len.symm.trans he'.len
      obtain rfl : b = b' := by rw [he.stop, he'.stop, hrec]
      have hinode : e.inode = e'.inode := he.inode.symm.trans he'.inode
      have hftype : e.ftype = e'.ftype := he.ftype.symm.trans he'.ftype
      by_cases hl : e.inode ≠ 0
      · have hl' : e'.inode ≠ 0 := hinode ▸ hl
        have hlen := (he.nameLen hl).symm.trans (he'.nameLen hl')
        have hname : e.name = e'.name := by rw [← he.name hl, ← he'.name hl', hlen]
        rw [links_cons_live es hl, links_cons_live es' hl', ih hp', hname, hinode, hftype]
      · have hl' : e'.inode = 0 := hinode ▸ not_not.1 hl
        rw [links_cons_unused es (not_not.1 hl), links_cons_unused es' hl', ih hp']

/-- The lengths with which the entries in use are copied. -/
def liveLen (es : List DirEnt) : ℕ :=
  ((es.filter fun e => e.inode ≠ 0).map fun e => dxRecLen e.name.length).sum

theorem lengths_sortOf (h : List.Forall₂ (SortOf env version) es ses) :
    lengths ses = (es.map fun e => dxRecLen e.name.length).sum := by
  induction h with
  | nil => rfl
  | cons hs _ ih => rw [lengths_cons, List.map_cons, List.sum_cons, ih, hs.recLen]

/-- The copies are no longer than the entries. -/
theorem liveLen_le {a c : ℕ} (h : Packed (EntAt sb b) a c es) : a + liveLen es ≤ c := by
  induction h with
  | nil => rfl
  | @cons a b c e es he hlt hp ih =>
    rw [liveLen] at ih ⊢
    have hstop := he.stop
    by_cases hl : e.inode ≠ 0
    · have hroom := he.room hl
      obtain ⟨k, hk⟩ := he.dvd
      rw [List.filter_cons_of_pos (by simpa using hl), List.map_cons, List.sum_cons, dxRecLen_eq]
      omega
    · rw [List.filter_cons_of_neg (by simpa using hl)]
      omega

/-! ## The middle -/

/-- The sort table is taken apart between `x` and `s`, the entry with which more
    than half a block is full. -/
structure Middle (env : DxEnv) (version stray : ℕ) (sort : List DxSortEntry)
    (ls₁ ls₂ : List DirEnt) (q : List DxSortEntry) (x s : DxSortEntry) (post : List DxSortEntry) :
    Prop where
  eq : sort = (q ++ [x]) ++ s :: post
  mid : dxMidLoop (env.sb.blockSize / 2) sort 0 0 = (q.length + 1, s.hash)
  before : dxHashBefore stray sort (q.length + 1) = x.hash
  lower : List.Forall₂ (SortOf env version) ls₁ (q ++ [x])
  upper : List.Forall₂ (SortOf env version) ls₂ (s :: post)
  le : lengths (q ++ [x]) ≤ env.sb.blockSize / 2
  gt : env.sb.blockSize / 2 < lengths (q ++ [x]) + s.recLen

/-- **There is a middle** if the entries do not fit in half a block. -/
theorem middle_exists {stray : ℕ} {ls : List DirEnt} {sort : List DxSortEntry}
    (hbs : 1024 ≤ env.sb.blockSize) (h : List.Forall₂ (SortOf env version) ls sort)
    (hmore : env.sb.blockSize / 2 < lengths sort) :
    ∃ ls₁ ls₂ q x s post, ls = ls₁ ++ ls₂ ∧ Middle env version stray sort ls₁ ls₂ q x s post := by
  obtain ⟨pre, s, post, rfl, hmid, hle, hgt⟩ := @midLoop_some sort
    (env.sb.blockSize / 2) 0 0 (by omega) (Nat.zero_le _)
  rw [Nat.zero_add] at hmid hle hgt
  have hlower := List.forall₂_take_append ls pre (s :: post) h
  have hupper := List.forall₂_drop_append ls pre (s :: post) h
  have hs : s.recLen ≤ 264 := by
    generalize List.drop pre.length ls = ls₂ at hupper
    cases hupper with
    | cons hs _ => exact hs.le.2.1
  obtain rfl | ⟨q, x, rfl⟩ := List.eq_nil_or_concat pre
  · rw [lengths_nil] at hgt
    omega
  rw [List.concat_eq_append] at *
  have hlen : (q ++ [x]).length = q.length + 1 := by simp
  refine ⟨_, _, q, x, s, post, (List.take_append_drop _ ls).symm, rfl, ?_, ?_, hlower, hupper, hle,
    hgt⟩
  · rw [hmid, hlen]
  · rw [dxHashBefore, if_neg (Nat.succ_ne_zero _), Nat.add_sub_cancel, List.append_assoc,
      List.getElem?_append_right le_rfl, Nat.sub_self]
    rfl

theorem BlockSizeOk.room (h : BlockSizeOk env) :
    env.sb.blockSize - 12 ≤ leafArea env ∧ leafArea env ≤ env.sb.blockSize ∧ 4 ∣ leafArea env := by
  obtain ⟨k, hk⟩ := h.dvd
  have hge := h.ge
  rw [leafArea, dirEntryTailSize]
  split_ifs
  · omega
  · omega

theorem half_spec (hbs : BlockSizeOk env) (h : List.Forall₂ (SortOf env version) es ses)
    (hne : ses ≠ []) (hsize : lengths ses ≤ leafArea env)
    (hlast : leafArea env < lengths ses.dropLast + 2 ^ 16) :
    ∃ es', DirBlock env.sb (dxFinishLeaf env (dxCopyLoop (leafArea env) ses 0 m)) es' ∧
      TailOk env (dxFinishLeaf env (dxCopyLoop (leafArea env) ses 0 m)) ∧ links es' = links es := by
  have hge := hbs.ge
  obtain ⟨es', hpacked, hlinks⟩ := @copyLoop_packed env m version 0 (leafArea env) es ses h hne
    (by omega) (by rw [Nat.sub_zero]; exact hbs.room.2.2) (by omega)
  obtain ⟨hblock, htail⟩ := finishLeaf_spec (by rw [dirEntryTailSize]; omega) hpacked
  exact ⟨es', hblock, htail, hlinks⟩

section

variable {stray : ℕ} {sort q post : List DxSortEntry} {ls₁ ls₂ : List DirEnt} {x : DxSortEntry}

theorem Middle.recLen_le (h : Middle env version stray sort ls₁ ls₂ q x s post) :
    x.recLen ≤ 264 ∧ s.recLen ≤ 264 := by
  have hall : ∀ {es ses}, List.Forall₂ (SortOf env version) es ses → ∀ y ∈ ses, y.recLen ≤ 264 := by
    intro es ses hf
    induction hf with
    | nil => simp
    | cons hs _ ih => exact List.forall_mem_cons.2 ⟨hs.le.2.1, ih⟩
  exact ⟨hall h.lower x (by simp), hall h.upper s (by simp)⟩

/-- The lower half is a leaf. -/
theorem Middle.lower_spec (h : Middle env version stray sort ls₁ ls₂ q x s post)
    (hbs : BlockSizeOk env) :
    ∃ es', DirBlock env.sb (dxFinishLeaf env (dxCopyLoop (leafArea env) (q ++ [x]) 0 m)) es' ∧
      TailOk env (dxFinishLeaf env (dxCopyLoop (leafArea env) (q ++ [x]) 0 m)) ∧
      links es' = links ls₁ := by
  obtain ⟨hx, hs⟩ := h.recLen_le
  have hge := hbs.ge
  have hle := hbs.le
  have harea := hbs.room
  have hq := h.le
  have hgt := h.gt
  refine half_spec hbs h.lower (by simp) (by omega) ?_
  rw [List.dropLast_concat]
  simp only [lengths_append, lengths_cons, lengths_nil] at hq hgt
  omega

/-- The upper half is a leaf, too, if its last record is not as long as a block
    of 64 KiB. -/
theorem Middle.upper_spec (h : Middle env version stray sort ls₁ ls₂ q x s post)
    (hbs : BlockSizeOk env) (hsize : lengths sort ≤ leafArea env)
    (hlast : leafArea env < 2 ^ 16 ∨ post ≠ []) :
    ∃ es', DirBlock env.sb (dxFinishLeaf env (dxCopyLoop (leafArea env) (s :: post) 0 m)) es' ∧
      TailOk env (dxFinishLeaf env (dxCopyLoop (leafArea env) (s :: post) 0 m)) ∧
      links es' = links ls₂ := by
  have hle := hbs.le
  have harea := hbs.room
  rw [h.eq, lengths_append] at hsize
  refine half_spec hbs h.upper (by simp) (by omega) ?_
  rcases hlast with hlast | hlast
  · omega
  · rw [List.dropLast_cons_of_ne_nil hlast, lengths_cons]
    have hs : 12 ≤ s.recLen := (sortOf_mem h.upper s (by simp)).2
    omega

/-! ## The hashes of the halves -/

theorem links_hash (h : List.Forall₂ (SortOf env version) es ses) :
    ∀ l ∈ links es, ∃ y ∈ ses, ext2HtreeHash env.hashSeed version l.name = .ok y.hash := by
  induction h with
  | nil => simp [links]
  | @cons e y es ses hs _ ih =>
    rw [links_cons_live es hs.live]
    refine List.forall_mem_cons.2 ⟨⟨y, List.mem_cons_self, hs.hash⟩, fun l hl => ?_⟩
    obtain ⟨z, hz, hhash⟩ := ih l hl
    exact ⟨z, List.mem_cons_of_mem y hz, hhash⟩

theorem sortOf_link (h : List.Forall₂ (SortOf env version) es ses) :
    ∀ y ∈ ses, ∃ l ∈ links es, ext2HtreeHash env.hashSeed version l.name = .ok y.hash := by
  induction h with
  | nil => simp
  | @cons e y es ses hs _ ih =>
    rw [links_cons_live es hs.live]
    refine List.forall_mem_cons.2 ⟨⟨_, List.mem_cons_self, hs.hash⟩, fun z hz => ?_⟩
    obtain ⟨l, hl, hhash⟩ := ih z hz
    exact ⟨l, List.mem_cons_of_mem _ hl, hhash⟩

/-- Two lists of entries have names with the same hash. -/
def Spans (env : DxEnv) (version : ℕ) (es₁ es₂ : List DirEnt) : Prop :=
  ∃ l₁ ∈ links es₁, ∃ l₂ ∈ links es₂,
    ext2HtreeHash env.hashSeed version l₁.name = ext2HtreeHash env.hashSeed version l₂.name

/-- The entries of a leaf are in two, those of the first with hashes up to `hash`
    and those of the second with hashes from there on; `cont` says whether a hash
    is in both. -/
structure LeafHalves (env : DxEnv) (version : ℕ) (es : List DirEnt) (lo hi : Mem)
    (es₁ es₂ : List DirEnt) (hash cont : ℕ) : Prop where
  lower : DirBlock env.sb lo es₁
  upper : DirBlock env.sb hi es₂
  lowerTail : TailOk env lo
  upperTail : TailOk env hi
  perm : (links es₁ ++ links es₂).Perm (links es)
  lowerNe : links es₁ ≠ []
  upperNe : links es₂ ≠ []
  le : ∀ l ∈ links es₁, ∃ x, ext2HtreeHash env.hashSeed version l.name = .ok x ∧ x ≤ hash
  ge : ∀ l ∈ links es₂, ∃ x, ext2HtreeHash env.hashSeed version l.name = .ok x ∧ hash ≤ x
  even : hash % 2 = 0
  cont : cont = 1 ∧ Spans env version es₁ es₂ ∨ cont = 0 ∧ ¬Spans env version es₁ es₂

/-- The continuation bit. -/
def contBit (h h' : ℕ) : ℕ := if h = h' then 1 else 0

/-- A hash is in both halves if it is the last of the lower and the first of the
    upper one. -/
theorem Middle.spans (h : Middle env version stray sort ls₁ ls₂ q x s post)
    (hsorted : sort.Pairwise fun y z => y.hash ≤ z.hash) {es₁ es₂ : List DirEnt}
    (h₁ : links es₁ = links ls₁) (h₂ : links es₂ = links ls₂) :
    Spans env version es₁ es₂ ↔ s.hash = x.hash := by
  rw [h.eq, List.pairwise_append] at hsorted
  obtain ⟨hq, hpost, hcross⟩ := hsorted
  constructor
  · rintro ⟨l₁, hl₁, l₂, hl₂, heq⟩
    obtain ⟨y, hy, hyh⟩ := links_hash h.lower l₁ (h₁ ▸ hl₁)
    obtain ⟨z, hz, hzh⟩ := links_hash h.upper l₂ (h₂ ▸ hl₂)
    have hyz : y.hash = z.hash := by
      rw [hyh, hzh] at heq
      exact Except.ok.inj heq
    have hyx : y.hash ≤ x.hash := by
      rcases List.mem_append.1 hy with hy | hy
      · exact (List.pairwise_append.1 hq).2.2 y hy x (by simp)
      · rw [List.mem_singleton.1 hy]
    have hxs := hcross x (by simp) s (by simp)
    have hsz : s.hash ≤ z.hash := by
      rcases List.mem_cons.1 hz with rfl | hz
      · exact le_rfl
      · exact (List.pairwise_cons.1 hpost).1 z hz
    omega
  · intro heq
    obtain ⟨l₁, hl₁, hx⟩ := sortOf_link h.lower x (by simp)
    obtain ⟨l₂, hl₂, hs⟩ := sortOf_link h.upper s (by simp)
    exact ⟨l₁, h₁ ▸ hl₁, l₂, h₂ ▸ hl₂, by rw [hx, hs, heq]⟩

/-- **The halves of a leaf.** -/
theorem Middle.halves (h : Middle env version stray sort ls₁ ls₂ q x s post) (hbs : BlockSizeOk env)
    (hsorted : sort.Pairwise fun y z => y.hash ≤ z.hash) (hsize : lengths sort ≤ leafArea env)
    (hlast : leafArea env < 2 ^ 16 ∨ post ≠ []) (hperm : (links ls₁ ++ links ls₂).Perm (links es)) :
    ∃ es₁ es₂, LeafHalves env version es
      (dxFinishLeaf env (dxCopyLoop (leafArea env) (q ++ [x]) 0 b))
      (dxFinishLeaf env (dxCopyLoop (leafArea env) (s :: post) 0 b')) es₁ es₂ s.hash
      (contBit s.hash x.hash) := by
  obtain ⟨es₁, hblock₁, htail₁, hlinks₁⟩ := @Middle.lower_spec _ b _ _ _ _ _ _ _ _ _ h hbs
  obtain ⟨es₂, hblock₂, htail₂, hlinks₂⟩ := @Middle.upper_spec _ b' _ _ _ _ _ _ _ _ _ h hbs hsize
    hlast
  have hspans := h.spans hsorted hlinks₁ hlinks₂
  obtain ⟨lx, hlx, -⟩ := sortOf_link h.lower x (by simp)
  obtain ⟨ly, hly, hhs⟩ := sortOf_link h.upper s (by simp)
  rw [h.eq, List.pairwise_append] at hsorted
  obtain ⟨-, hpost, hcross⟩ := hsorted
  refine ⟨es₁, es₂, hblock₁, hblock₂, htail₁, htail₂, by rwa [hlinks₁, hlinks₂], ?_, ?_,
    fun l hl => ?_, fun l hl => ?_, (htreeHash_even hhs).1, ?_⟩
  · rw [hlinks₁]
    exact List.ne_nil_of_mem hlx
  · rw [hlinks₂]
    exact List.ne_nil_of_mem hly
  · obtain ⟨y, hy, hyh⟩ := links_hash h.lower l (hlinks₁ ▸ hl)
    exact ⟨y.hash, hyh, hcross y hy s (by simp)⟩
  · obtain ⟨z, hz, hzh⟩ := links_hash h.upper l (hlinks₂ ▸ hl)
    refine ⟨z.hash, hzh, ?_⟩
    rcases List.mem_cons.1 hz with rfl | hz
    · exact le_rfl
    · exact (List.pairwise_cons.1 hpost).1 z hz
  · rw [hspans, contBit]
    split_ifs with heq
    · exact .inl ⟨rfl, heq⟩
    · exact .inr ⟨rfl, heq⟩

end

/-! ## The run -/

section

variable {st st' : DxSt} {old new c d : ExtBlock} {index : DxBlock} {stray : ℕ}

/-- What the distribution makes of the three blocks. -/
theorem distribute_run {sort : List DxSortEntry} {iblock mid hash : ℕ}
    (hold : old.buf.getD 0 ≠ new.buf.getD 0) (hindex : old.buf.getD 0 ≠ index.b.buf.getD 0)
    (hnew : new.buf.getD 0 ≠ index.b.buf.getD 0)
    (hmid : dxMidLoop (env.sb.blockSize / 2) sort 0 0 = (mid, hash)) :
    ∃ st', dxDistribute env stray sort old new index iblock st = (.ok (), st') ∧
      st'.blockData old = dxFinishLeaf env
        (dxCopyLoop (leafArea env) (sort.take mid) 0 (st.blockData old)) ∧
      st'.blockData new = dxFinishLeaf env
        (dxCopyLoop (leafArea env) (sort.drop mid) 0 (st.blockData new)) ∧
      st'.blockData index.b = setDxCsum env (dxInsertMem (st.blockData index.b) index.entries
        index.position (hash + contBit hash (dxHashBefore stray sort mid)) iblock) := by
  rw [dxDistribute, hmid]
  dsimp only
  rw [Prog.bind_ok (upd_run ..), Prog.bind_ok (upd_run ..), Prog.bind_ok (upd_run ..),
    Prog.bind_ok (upd_run ..), dirDxInsertEntry, upd_run]
  refine ⟨_, rfl, ?_, ?_, ?_⟩
  · simp only [blockData_setData_self, blockData_setData_of_ne hold,
      blockData_setData_of_ne hindex, blockData_setData_of_ne hold.symm]
    rfl
  · simp only [blockData_setData_self, blockData_setData_of_ne hold,
      blockData_setData_of_ne hnew, blockData_setData_of_ne hold.symm]
    rfl
  · simp only [blockData_setData_self, blockData_setData_of_ne hindex.symm,
      blockData_setData_of_ne hnew.symm]
    rfl

/-- The new block is the next one that the allocator has. -/
theorem splitSorted_run {sort : List DxSortEntry} (hindex : old.buf.getD 0 ≠ index.b.buf.getD 0)
    (h : dxSplitSorted env stray sort old index st = (.ok (.ok new), st'))
    (hfree : ∀ n ∈ st.free, n ≠ old.buf.getD 0 ∧ n ≠ index.b.buf.getD 0) :
    ∃ mid hash m', dxMidLoop (env.sb.blockSize / 2) sort 0 0 = (mid, hash) ∧
      st'.blockData old = dxFinishLeaf env
        (dxCopyLoop (leafArea env) (sort.take mid) 0 (st.blockData old)) ∧
      st'.blockData new = dxFinishLeaf env (dxCopyLoop (leafArea env) (sort.drop mid) 0 m') ∧
      st'.blockData index.b = setDxCsum env (dxInsertMem (st.blockData index.b) index.entries
        index.position (hash + contBit hash (dxHashBefore stray sort mid)) st.blocks) := by
  obtain ⟨r, st₁, h₁, h⟩ := Prog.bind_inv h
  cases r with
  | error e => cases h
  | ok r =>
  obtain ⟨n, k⟩ := r
  obtain ⟨hn, rfl, hdata₁, -⟩ := append_inv h₁
  obtain ⟨⟨rc, c⟩, st₂, h₂, h⟩ := Prog.bind_inv h
  cases rc with
  | some e => cases h
  | none =>
  obtain ⟨rfl, hdata₂, -⟩ := getNoread_inv h₂
  obtain ⟨⟨⟩, st₃, h₃, h⟩ := Prog.bind_inv h
  cases h
  have hsame : ∀ c, st₂.blockData c = st.blockData c := fun c => by
    rw [DxSt.blockData, DxSt.blockData, hdata₂, hdata₁]
  obtain ⟨hne, hnei⟩ := hfree n hn
  obtain ⟨st'', hrun, h⟩ := @distribute_run env st₂ old (.on n) index stray sort st.blocks _ _
    hne.symm hindex hnei rfl
  rw [hrun] at h₃
  cases h₃
  simp only [hsame] at h
  exact ⟨_, _, _, rfl, h⟩

/-- What `ext4_dir_dx_split_data` makes of the three blocks. -/
theorem splitData_run (hindex : old.buf.getD 0 ≠ index.b.buf.getD 0)
    (hfree : ∀ n ∈ st.free, n ≠ old.buf.getD 0 ∧ n ≠ index.b.buf.getD 0)
    (h : dirDxSplitData env stray version old index st = (.ok (.ok new), st')) :
    ∃ ses mid hash m', dxCollectLoop env version (st.blockData old) (env.sb.blockSize + 1) 0 0 0 =
        .ok (.ok ses) ∧
      dxMidLoop (env.sb.blockSize / 2) (env.qsort.sort ses) 0 0 = (mid, hash) ∧
      st'.blockData old = dxFinishLeaf env
        (dxCopyLoop (leafArea env) ((env.qsort.sort ses).take mid) 0 (st.blockData old)) ∧
      st'.blockData new = dxFinishLeaf env
        (dxCopyLoop (leafArea env) ((env.qsort.sort ses).drop mid) 0 m') ∧
      st'.blockData index.b = setDxCsum env (dxInsertMem (st.blockData index.b) index.entries
        index.position (hash + contBit hash (dxHashBefore stray (env.qsort.sort ses) mid))
        st.blocks) := by
  obtain ⟨r₁, st₁, h₁, h⟩ := Prog.bind_inv h
  cases h₁
  cases hf₁ : env.fault st.ops with
  | some _ =>
    rw [hf₁] at h
    cases h
  | none =>
  rw [hf₁] at h
  obtain ⟨r₂, st₂, h₂, h⟩ := Prog.bind_inv h
  cases h₂
  dsimp only at h
  cases hf₂ : env.fault (st.ops + 1) with
  | some _ =>
    rw [hf₂] at h
    cases h
  | none =>
  rw [hf₂] at h
  obtain ⟨m₀, st₃, h₃, h⟩ := Prog.bind_inv h
  cases h₃
  have hm₀ : ({ st with ops := st.ops + 1 + 1 } : DxSt).blockData old = st.blockData old := rfl
  rw [hm₀] at h
  cases hc : dxCollectLoop env version (st.blockData old) (env.sb.blockSize + 1) 0 0 0 with
  | error stop =>
    rw [hc] at h
    cases h
  | ok r =>
  cases r with
  | error e =>
    rw [hc] at h
    cases h
  | ok ses =>
  rw [hc] at h
  have hsorted : dxSplitSorted env stray (env.qsort.sort ses) old index
      { st with ops := st.ops + 1 + 1 } = (.ok (.ok new), st') := h
  obtain ⟨mid, hash, m', hmid, h⟩ := splitSorted_run hindex hsorted hfree
  exact ⟨ses, mid, hash, m', rfl, hmid, h⟩

/-! ## The exact condition -/

/-- The state in which a leaf is split: the entry of the leaf is `e`, and there
    is room for an entry more in the index block. -/
structure SplitStart (env : DxEnv) (version : ℕ) (st : DxSt) (old : ExtBlock) (index : DxBlock)
    (es : List DirEnt) (before : List DxEntry) (e : DxEntry) (after : List DxEntry) : Prop where
  size : BlockSizeOk env
  leaf : DirBlock env.sb (st.blockData old) es
  tail : env.sb.metadataCsum = true → ext4DirGetTail env.sb (st.blockData old) = true
  names : ∀ e ∈ es, e.inode ≠ 0 → e.name.length ≤ 255
  head : IndexHead (st.blockData index.b) index.entries
  entries : HoldsEntries (st.blockData index.b) index.entries (before ++ e :: after)
  position : index.position = before.length
  room : (before ++ e :: after).length < dxGetLimit (st.blockData index.b) index.entries
  blocks : st.blocks < 2 ^ 32
  apart : old.buf.getD 0 ≠ index.b.buf.getD 0
  free : ∀ n ∈ st.free, n ≠ old.buf.getD 0 ∧ n ≠ index.b.buf.getD 0

/-- A leaf was split, and the entry of the new one is behind that of the old one. -/
def LeafSplit (env : DxEnv) (version : ℕ) (es : List DirEnt) (before : List DxEntry) (e : DxEntry)
    (after : List DxEntry) (iblock en : ℕ) (lo hi ix : Mem) : Prop :=
  ∃ es₁ es₂ hash cont, LeafHalves env version es lo hi es₁ es₂ hash cont ∧
    HoldsEntries ix en (before ++ e :: ⟨hash + cont, iblock⟩ :: after)

/-- The entries in use by hash. -/
def leafByHash (env : DxEnv) (version : ℕ) (m : Mem) : List DxSortEntry :=
  match dxCollectLoop env version m (env.sb.blockSize + 1) 0 0 0 with
  | .ok (.ok es) => env.qsort.sort es
  | _ => []

/-- The entries in use fill more than half a block, and if a record as long as
    the block cannot be stored they do so without the last one, too. -/
def FillsHalf (env : DxEnv) (version : ℕ) (m : Mem) (es : List DirEnt) : Prop :=
  env.sb.blockSize / 2 < liveLen es ∧ (leafArea env = 2 ^ 16 →
    env.sb.blockSize / 2 < lengths (leafByHash env version m).dropLast)

variable {before after : List DxEntry} {a : DxEntry}

theorem SplitStart.area_eq (h : SplitStart env version st old index es before a after) :
    dirArea env.sb (st.blockData old) = leafArea env := by
  rw [dirArea, hasTail, leafArea]
  cases hc : env.sb.metadataCsum with
  | false => rfl
  | true =>
    rw [h.tail hc]
    rfl

/-- The entries in the order of the sort table. -/
theorem SplitStart.sorted (h : SplitStart env version st old index es before a after)
    (hc : dxCollectLoop env version (st.blockData old) (env.sb.blockSize + 1) 0 0 0 =
      .ok (.ok ses)) :
    ∃ ls, ls.Perm (es.filter fun e => e.inode ≠ 0) ∧
      List.Forall₂ (SortOf env version) ls (env.qsort.sort ses) := by
  have hge := h.size.ge
  have hleaf := h.leaf
  rw [DirBlock, h.area_eq] at hleaf
  have hend : leafArea env = env.sb.blockSize ∨ leafArea env + 12 = env.sb.blockSize ∧
      dirEnGetInode (st.blockData old) (leafArea env) = 0 ∧
      dirEnGetEntryLen (st.blockData old) (leafArea env) = 12 := by
    rw [leafArea]
    cases hm : env.sb.metadataCsum with
    | false => exact .inl rfl
    | true =>
      have htail := h.tail hm
      rw [ext4DirGetTail] at htail
      simp only [Bool.and_eq_true, beq_iff_eq] at htail
      rw [if_pos rfl]
      refine .inr ⟨?_, htail.1.1.1, htail.1.2⟩
      rw [dirEntryTailSize]
      omega
  have hcollect := (collect_sortOf hleaf h.names hend hc).flip
  obtain ⟨ls, hls, hperm⟩ := List.perm_comp_forall₂ (env.qsort.perm ses) hcollect
  exact ⟨ls, hperm, hls.flip⟩

theorem SplitStart.lengths_eq {ls : List DirEnt}
    (hperm : ls.Perm (es.filter fun e => e.inode ≠ 0))
    (hsort : List.Forall₂ (SortOf env version) ls ses) : lengths ses = liveLen es := by
  rw [lengths_sortOf hsort, liveLen]
  exact (hperm.map _).sum_nat

theorem SplitStart.liveLen_le (h : SplitStart env version st old index es before a after) :
    liveLen es ≤ leafArea env := by
  have hleaf := h.leaf
  rw [DirBlock, h.area_eq] at hleaf
  have hle := DirIdx.liveLen_le hleaf
  omega

theorem perm_links {ls : List DirEnt} (hperm : ls.Perm (es.filter fun e => e.inode ≠ 0)) :
    (links ls).Perm (links es) := by
  have hfilter := (hperm.filter fun e => e.inode ≠ 0).map
    fun e => (⟨e.name, e.inode, e.ftype⟩ : DirLink)
  rw [List.filter_filter] at hfilter
  simpa only [links, Bool.and_self] using hfilter

/-- The three blocks after a split at the middle. -/
theorem Middle.leafSplit {sort q post : List DxSortEntry} {ls₁ ls₂ : List DirEnt} {x : DxSortEntry}
    (hm : Middle env version stray sort ls₁ ls₂ q x s post)
    (h : SplitStart env version st old index es before a after)
    (hsorted : sort.Pairwise fun y z => y.hash ≤ z.hash) (hsize : lengths sort ≤ leafArea env)
    (hlast : leafArea env < 2 ^ 16 ∨ post ≠ [])
    (hperm : (ls₁ ++ ls₂).Perm (es.filter fun e => e.inode ≠ 0)) :
    LeafSplit env version es before a after st.blocks index.entries
      (dxFinishLeaf env (dxCopyLoop (leafArea env) (q ++ [x]) 0 b))
      (dxFinishLeaf env (dxCopyLoop (leafArea env) (s :: post) 0 b'))
      (setDxCsum env (dxInsertMem (st.blockData index.b) index.entries index.position
        (s.hash + contBit s.hash x.hash) st.blocks)) := by
  have hlinks := perm_links hperm
  rw [links_append] at hlinks
  obtain ⟨es₁, es₂, hh⟩ := @Middle.halves env b b' version es s stray sort q post ls₁ ls₂ x hm
    h.size hsorted hsize hlast hlinks
  obtain ⟨l, hl, hhash⟩ := sortOf_link hm.upper s (by simp)
  obtain ⟨heven, hlt⟩ := htreeHash_even hhash
  have hbit : s.hash + contBit s.hash x.hash < 2 ^ 32 := by
    rw [contBit]
    split_ifs
    · omega
    · omega
  have hsplit : before ++ a :: after = (before ++ [a]) ++ after := by simp
  have hentries := h.entries
  have hroom := h.room
  rw [hsplit] at hentries hroom
  have hpos : index.position = (before ++ [a]).length - 1 := by simp [h.position]
  refine ⟨es₁, es₂, s.hash, _, hh, ?_⟩
  rw [hpos, show before ++ a :: ⟨s.hash + contBit s.hash x.hash, st.blocks⟩ :: after =
    (before ++ [a]) ++ ⟨s.hash + contBit s.hash x.hash, st.blocks⟩ :: after by simp]
  obtain ⟨hins, hhead, hlen⟩ := hentries.insertHead h.head hroom (by simp) hbit h.blocks
  exact (hins.csum env hhead hlen).1

/-- If all names fit in half a block, there is no middle, and both blocks get all
    of them. -/
theorem not_leafSplit_of_le (h : SplitStart env version st old index es before a after)
    (hrun : dirDxSplitData env stray version old index st = (.ok (.ok new), st'))
    (hle : liveLen es ≤ env.sb.blockSize / 2) :
    ¬LeafSplit env version es before a after st.blocks index.entries (st'.blockData old)
      (st'.blockData new) (st'.blockData index.b) := by
  obtain ⟨ses, mid, hash, m', hc, hmid, hold, -⟩ := splitData_run h.apart h.free hrun
  obtain ⟨ls, hperm, hsort⟩ := h.sorted hc
  have hlen := SplitStart.lengths_eq hperm hsort
  have hnone := @midLoop_none (env.qsort.sort ses) (env.sb.blockSize / 2) 0 0 (by omega)
  rw [hmid] at hnone
  cases hnone
  have hsame : dxCopyLoop (leafArea env) ((env.qsort.sort ses).take 0) 0 (st.blockData old) =
      st.blockData old := rfl
  rw [hold, hsame]
  rintro ⟨es₁, es₂, hash, cont, hh, -⟩
  have hge := h.size.ge
  have hleaf := h.leaf
  rw [DirBlock, h.area_eq] at hleaf
  obtain ⟨hblock, -⟩ := finishLeaf_spec (by rw [dirEntryTailSize]; omega) hleaf
  have hlinks := packed_links hh.lower hblock
  have hlength := hh.perm.length_eq
  rw [hlinks, List.length_append] at hlength
  exact hh.upperNe (List.length_eq_zero_iff.1 (by omega))

/-- A record of 64 KiB has a length of 0 in the block. -/
theorem not_dirBlock_of_long (harea : leafArea env = 2 ^ 16) (hbs : BlockSizeOk env) :
    ¬DirBlock env.sb (dxFinishLeaf env (dxCopyLoop (leafArea env) [s] 0 m)) es := by
  intro h
  have hge := hbs.ge
  have hlen : dirEnGetEntryLen (dxFinishLeaf env (dxCopyLoop (leafArea env) [s] 0 m)) 0 = 0 := by
    have hframe : dirEnGetEntryLen (dxFinishLeaf env (dxCopyLoop (leafArea env) [s] 0 m)) 0 =
        dirEnGetEntryLen (dxCopyLoop (leafArea env) [s] 0 m) 0 :=
      getLE_congr fun i _ hi => finishLeaf_frame (by omega)
    rw [hframe, dxCopyLoop, dirEnGetEntryLen, dirEnSetEntryLen, getLE_putLE, harea]
    rfl
  have hpos : 0 < dirArea env.sb (dxFinishLeaf env (dxCopyLoop (leafArea env) [s] 0 m)) := by
    rw [dirArea, dirEntryTailSize]
    split_ifs
    · omega
    · omega
  rw [DirBlock] at h
  generalize dirArea env.sb (dxFinishLeaf env (dxCopyLoop (leafArea env) [s] 0 m)) = top at h hpos
  cases h with
  | nil => omega
  | cons he =>
    have hmin := he.min
    rw [← he.len, hlen] at hmin
    omega

end

end

/-- **When a leaf is split.** -/
theorem splitData_splits_iff (env : DxEnv) (stray version : ℕ) (old new : ExtBlock)
    (index : DxBlock) (st st' : DxSt) (es : List DirEnt) (before : List DxEntry) (e : DxEntry)
    (after : List DxEntry) (h : SplitStart env version st old index es before e after)
    (hrun : dirDxSplitData env stray version old index st = (.ok (.ok new), st')) :
    LeafSplit env version es before e after st.blocks index.entries (st'.blockData old)
      (st'.blockData new) (st'.blockData index.b) ↔
      FillsHalf env version (st.blockData old) es := by
  obtain ⟨ses, mid, hash, m', hc, hmid, hold, hnew, hix⟩ := splitData_run h.apart h.free hrun
  obtain ⟨ls, hperm, hsort⟩ := h.sorted hc
  have hlen := SplitStart.lengths_eq hperm hsort
  have hbyHash : leafByHash env version (st.blockData old) = env.qsort.sort ses := by
    rw [leafByHash, hc]
  rw [FillsHalf, hbyHash]
  by_cases hmore : env.sb.blockSize / 2 < liveLen es
  · rw [← hlen] at hmore
    obtain ⟨ls₁, ls₂, q, x, s, post, rfl, hm⟩ :=
      @middle_exists env version stray _ _ h.size.ge hsort hmore
    rw [hm.mid] at hmid
    cases hmid
    have htake : (env.qsort.sort ses).take (q.length + 1) = q ++ [x] := by
      rw [hm.eq]
      exact List.take_left' (by simp)
    have hdrop : (env.qsort.sort ses).drop (q.length + 1) = s :: post := by
      rw [hm.eq]
      exact List.drop_left' (by simp)
    rw [hold, hnew, hix, htake, hdrop, hm.before]
    by_cases hlast : leafArea env < 2 ^ 16 ∨ post ≠ []
    · refine iff_of_true ?_ ⟨hlen ▸ hmore, fun harea => ?_⟩
      · exact hm.leafSplit h (env.qsort.sorted ses) (hlen ▸ h.liveLen_le) hlast hperm
      · have hpost : post ≠ [] := hlast.resolve_left (by omega)
        have hgt := hm.gt
        rw [hm.eq, List.dropLast_append_of_ne_nil (by simp), List.dropLast_cons_of_ne_nil hpost,
          lengths_append, lengths_cons]
        omega
    · rw [not_or, not_lt, not_not] at hlast
      obtain ⟨hlong, rfl⟩ := hlast
      have harea : leafArea env = 2 ^ 16 :=
        le_antisymm (h.size.room.2.1.trans h.size.le) hlong
      refine iff_of_false ?_ fun hf => ?_
      · rintro ⟨es₁, es₂, hash, cont, hh, -⟩
        exact not_dirBlock_of_long harea h.size hh.upper
      · have hgt := hf.2 harea
        have hle := hm.le
        rw [hm.eq, List.dropLast_concat] at hgt
        omega
  · exact iff_of_false (not_leafSplit_of_le h hrun (not_lt.1 hmore)) fun hf => hmore hf.1

/-- A root with one entry. -/
def oneRoot : Mem := sparseMem [(4, 12), (29, 8), (32, 124), (34, 1), (36, 1)]

/-- An index of one leaf. -/
def oneLeaf (leaf : Mem) : DxSt where
  data := fun n => if n = 10 then oneRoot else leaf
  refs := fun _ => 1
  fblock := fun i => i + 10
  blocks := 2
  free := [12]
  ops := 0

/-- Two names of 252 letters. -/
def longNames : Mem := fun i =>
  if i < 268 then
    if 8 ≤ i ∧ i < 260 then 97
    else
      sparseMem [(0, 11), (4, 4), (5, 1), (6, 252), (260, 12), (264, 252), (265, 2), (266, 252)] i
  else 98

/-- Four names of a letter in records of 256 bytes. -/
def shortNames : Mem :=
  sparseMem [(0, 11), (5, 1), (6, 1), (8, 97), (256, 12), (261, 1), (262, 1), (264, 98),
    (512, 13), (517, 1), (518, 1), (520, 99), (768, 14), (773, 1), (774, 1), (776, 100)]

theorem oneLeaf_start {leaf : Mem} {es : List DirEnt} (hleaf : DirBlock plainEnv.sb leaf es)
    (hnames : ∀ e ∈ es, e.inode ≠ 0 → e.name.length ≤ 255) (version : ℕ) :
    SplitStart plainEnv version (oneLeaf leaf) (.on 11) ⟨.on 10, rootEn, 0⟩ es [] ⟨0, 1⟩ [] where
  size := ⟨by decide, by decide, by decide⟩
  leaf := hleaf
  tail := nofun
  names := hnames
  head := .root (show dirEnGetEntryLen oneRoot 0 = 12 by decide)
  entries := show HoldsEntries oneRoot rootEn [⟨0, 1⟩] from
    ⟨by decide, by decide, by decide, by decide⟩
  position := rfl
  room := show 1 < dxGetLimit oneRoot rootEn by decide
  blocks := show 2 < 2 ^ 32 by decide
  apart := by decide
  free := show ∀ n ∈ [12], n ≠ 11 ∧ n ≠ 10 by decide

/-- Their entries. -/
def longEnts : List DirEnt :=
  [⟨11, 260, 0, List.replicate 252 97⟩, ⟨12, 764, 0, List.replicate 252 98⟩]

theorem longNames_block : DirBlock plainEnv.sb longNames longEnts := by
  have hlen : ∀ c : Byte, (List.replicate 252 c).length = 252 := fun c => List.length_replicate
  have h₁ : EntAt plainEnv.sb longNames 0 260 ⟨11, 260, 0, List.replicate 252 97⟩ := by
    refine ⟨by decide, by decide, by decide, by decide, by decide, by decide, fun _ => ?_,
      fun _ => ?_, fun _ => ?_, fun _ => List.cons_ne_nil _ _⟩
    · rw [hlen]
      decide
    · rw [hlen]
      decide +kernel
    · rw [hlen]
  have h₂ : EntAt plainEnv.sb longNames 260 1024 ⟨12, 764, 0, List.replicate 252 98⟩ := by
    refine ⟨by decide, by decide, by decide, by decide, by decide, by decide, fun _ => ?_,
      fun _ => ?_, fun _ => ?_, fun _ => List.cons_ne_nil _ _⟩
    · rw [hlen]
      decide
    · rw [hlen]
      decide +kernel
    · rw [hlen]
      decide
  exact .cons h₁ (by decide) (.single h₂ (by decide))

/-- The split of the long names returns the new leaf. -/
theorem longNames_split : (match (dirDxSplitData plainEnv 0 0 (.on 11) ⟨.on 10, rootEn, 0⟩
    (oneLeaf longNames)).1 with
  | .ok (.ok c) => decide (c = .on 12)
  | _ => false) = true := by decide +kernel

theorem splitData_splits_iff_long : ∃ st',
    dirDxSplitData plainEnv 0 0 (.on 11) ⟨.on 10, rootEn, 0⟩ (oneLeaf longNames) =
        (.ok (.ok (.on 12)), st') ∧
      (LeafSplit plainEnv 0 longEnts [] ⟨0, 1⟩ [] 2 rootEn (st'.data 11) (st'.data 12)
          (st'.data 10) ↔ FillsHalf plainEnv 0 longNames longEnts) := by
  have hok := longNames_split
  rcases hrun : dirDxSplitData plainEnv 0 0 (.on 11) ⟨.on 10, rootEn, 0⟩ (oneLeaf longNames) with
    ⟨r, st'⟩
  rw [hrun] at hok
  rcases r with stop | (err | c)
  · cases hok
  · cases hok
  · obtain rfl : c = .on 12 := of_decide_eq_true hok
    have hle : ∀ c : Byte, (List.replicate 252 c).length ≤ 255 := fun c => by
      rw [List.length_replicate]
      decide
    have hstart := oneLeaf_start longNames_block
      (List.forall_mem_cons.2 ⟨fun _ => hle 97, List.forall_mem_singleton.2 fun _ => hle 98⟩) 0
    exact ⟨st', rfl, splitData_splits_iff plainEnv 0 0 _ _ _ _ st' _ _ _ _ hstart hrun⟩

theorem shortNames_block : DirBlock plainEnv.sb shortNames
    [⟨11, 256, 0, [97]⟩, ⟨12, 256, 0, [98]⟩, ⟨13, 256, 0, [99]⟩, ⟨14, 256, 0, [100]⟩] := by
  have h₁ : EntAt plainEnv.sb shortNames 0 256 ⟨11, 256, 0, [97]⟩ := by
    refine ⟨?_, ?_, ?_, ?_, ?_, ?_, ?_, ?_, ?_, ?_⟩ <;> decide
  have h₂ : EntAt plainEnv.sb shortNames 256 512 ⟨12, 256, 0, [98]⟩ := by
    refine ⟨?_, ?_, ?_, ?_, ?_, ?_, ?_, ?_, ?_, ?_⟩ <;> decide
  have h₃ : EntAt plainEnv.sb shortNames 512 768 ⟨13, 256, 0, [99]⟩ := by
    refine ⟨?_, ?_, ?_, ?_, ?_, ?_, ?_, ?_, ?_, ?_⟩ <;> decide
  have h₄ : EntAt plainEnv.sb shortNames 768 1024 ⟨14, 256, 0, [100]⟩ := by
    refine ⟨?_, ?_, ?_, ?_, ?_, ?_, ?_, ?_, ?_, ?_⟩ <;> decide
  exact .cons h₁ (by decide) (.cons h₂ (by decide) (.cons h₃ (by decide) (.single h₄ (by decide))))

/-- Short names, too, are handed out without an error. -/
theorem shortNames_split : (match (dirDxSplitData plainEnv 0 0 (.on 11) ⟨.on 10, rootEn, 0⟩
    (oneLeaf shortNames)).1 with
  | .ok (.ok _) => true
  | _ => false) = true := by decide +kernel

/-- **A leaf that is full of short names** in long records is not split: for a
    name of more than 236 letters there is no room, but the names take 48 bytes. -/
theorem splitData_splits_wrong :
    ¬∀ (env : DxEnv) (stray version : ℕ) (old new : ExtBlock) (index : DxBlock) (st st' : DxSt)
        (es : List DirEnt) (before : List DxEntry) (e : DxEntry) (after : List DxEntry),
      SplitStart env version st old index es before e after →
      dirDxSplitData env stray version old index st = (.ok (.ok new), st') →
      LeafSplit env version es before e after st.blocks index.entries (st'.blockData old)
        (st'.blockData new) (st'.blockData index.b) := by
  intro hall
  have hok := shortNames_split
  rcases hrun : dirDxSplitData plainEnv 0 0 (.on 11) ⟨.on 10, rootEn, 0⟩ (oneLeaf shortNames) with
    ⟨r, st'⟩
  rw [hrun] at hok
  rcases r with stop | (err | c)
  · cases hok
  · cases hok
  · have hstart := oneLeaf_start shortNames_block (by decide) 0
    exact not_leafSplit_of_le hstart hrun (by decide)
      (hall plainEnv 0 0 _ _ _ _ st' _ _ _ _ hstart hrun)

end Lwext4.DirIdx
