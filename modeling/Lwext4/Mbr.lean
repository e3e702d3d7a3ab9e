/-
  `ext4_mbr.c`: a disk is divided into four partitions, and the partitions are
  read back.

  `ext4_mbr_write` counts cylinders of `cyl_size` bytes and stores the first
  byte of a partition, counted so, as its first sector; only the first partition
  is told in sectors, with the track of the record left out.  The record is
  built in the buffer for one physical block, and written from there.

  Main result: `table_roundTrips_iff`.
-/
import Lwext4.BlockBytes

namespace Lwext4

open Lib

namespace Mbr

/-! ## The record -/

/-- The loop that finds the number of heads. -/
def headsLoop (diskSize : ℕ) : (fuel k : ℕ) → ℕ
  | 0, k => k
  | fuel + 1, k => if k < 256 ∧ 1024 < diskSize / k / 63 then headsLoop diskSize fuel (k * 2) else k

/-- The `k` of `ext4_mbr_write`; the loop ends at 256, after four rounds. -/
def heads (diskSize : ℕ) : ℕ :=
  let k := headsLoop diskSize 4 16
  if k = 256 then k - 1 else k

/-- `cyl_size`. -/
def cylSize (diskSize : ℕ) : ℕ := 63 * heads diskSize

/-- `cyl_count`. -/
def cylCount (diskSize : ℕ) : ℕ := u32 (diskSize / cylSize diskSize)

/-- `cyl_part` of partition `i`. -/
def cylPart (diskSize : ℕ) (division : Fin 4 → ℕ) (i : Fin 4) : ℕ :=
  u32 (cylCount diskSize * division i) / 100

/-- `struct ext4_part_entry`, with the addresses by cylinder and head cut to bytes. -/
def partEntry (i : Fin 4) (k cylIt cylEnd firstLba sectors : ℕ) : List Byte :=
  [0, if i = 0 then 1 else 0, cylIt / 4 + 1, cylIt, 0x83, k - 1, cylEnd / 4 + 63, cylEnd].map
    (BitVec.ofNat 8) ++ leBytes 4 firstLba ++ leBytes 4 sectors

/-- The entry of partition `i` with `cylPart` cylinders behind the first `cylIt`. -/
def mkEntry (diskSize phBsize : ℕ) (i : Fin 4) (cylIt cylPart : ℕ) : List Byte :=
  let partStart := u32 (cylIt * cylSize diskSize)
  let partSize := u32 (cylPart * cylSize diskSize)
  let (partStart, partSize) :=
    if i = 0 then (u32 (partStart + 63), sub32 partSize (u32 (63 * phBsize)))
    else (partStart, partSize)
  let cylEnd := sub32 (u32 (cylPart + cylIt)) 1
  partEntry i (heads diskSize) cylIt cylEnd partStart (partSize / phBsize)

/-- The loop over the partitions. -/
def mbrLoop (diskSize phBsize : ℕ) (division : Fin 4 → ℕ) : List (Fin 4) → Mem → (cylIt : ℕ) → Mem
  | [], mbr, _ => mbr
  | i :: is, mbr, cylIt =>
    let part := cylPart diskSize division i
    if part = 0 then mbrLoop diskSize phBsize division is mbr cylIt
    else
      mbrLoop diskSize phBsize division is
        (mbr.write (446 + 16 * i.1) (mkEntry diskSize phBsize i cylIt part)) (u32 (cylIt + part))

/-- `struct ext4_mbr` as `ext4_mbr_write` fills it in. -/
def mkRecord (diskSize phBsize : ℕ) (division : Fin 4 → ℕ) (diskId : ℕ) (mbr : Mem) : Mem :=
  let mbr := putLE (mbr.fill 0 512 0) 442 4 diskId
  putLE (mbrLoop diskSize phBsize division [0, 1, 2, 3] mbr 0) 510 2 0xAA55

/-! ## The device -/

/-- `ext4_block_init`; the device can be opened. -/
def blockInit (d : Bdev) : Bdev := { d with phRefctr := d.phRefctr + 1 }

/-- `ext4_block_fini`. -/
def blockFini (d : Bdev) : Bdev := { d with phRefctr := d.phRefctr - 1 }

/-- `ext4_bdif_bread` to `ph_bbuf`. -/
def readToBuf (blockIdx cnt : ℕ) : BdevM Unit := do
  let b ← bdifBread blockIdx cnt
  Prog.modify fun d => { d with phBbuf := d.phBbuf.write 0 b }

/-- The rest of the data, from byte `p` of `ph_bbuf` on: the block is read to
    the same buffer first. -/
def writeRest (blockIdx p len : ℕ) : BdevM Unit := do
  readToBuf blockIdx 1
  Prog.modify fun d => { d with phBbuf := d.phBbuf.write 0 (d.phBbuf.read p len) }
  let d ← Prog.get
  bdifBwrite (d.phBbuf.read 0 d.phBsize) blockIdx 1

/-- The aligned data. -/
def writeAligned (blockIdx blen : ℕ) : BdevM Unit := do
  let d ← Prog.get
  if blen ≠ 0 then bdifBwrite (d.phBbuf.read 0 (d.phBsize * blen)) blockIdx blen else pure ()

/-- The aligned data, and the rest. -/
def writeParts (blockIdx blen phBsize len : ℕ) : BdevM Unit := do
  writeAligned blockIdx blen
  if len - phBsize * blen ≠ 0 then
    writeRest (blockIdx + blen) (phBsize * blen) (len - phBsize * blen)
  else pure ()

/-- `ext4_block_writebytes` of the first `len` bytes of `ph_bbuf` to offset 0. -/
def writeBuf (len : ℕ) : BdevM Unit := do
  let d ← Prog.get
  if d.phRefctr = 0 then Prog.fail Errno.EIO
  else if d.partSize < len then Prog.fail Errno.EINVAL
  else writeParts (d.partOffset / d.phBsize) (len / d.phBsize) d.phBsize len

/-- The rest of the data, to byte `p` of `ph_bbuf`. -/
def readRest (blockIdx p len : ℕ) : BdevM Unit := do
  readToBuf blockIdx 1
  Prog.modify fun d => { d with phBbuf := d.phBbuf.write p (d.phBbuf.read 0 len) }

/-- The aligned data. -/
def readAligned (blockIdx blen : ℕ) : BdevM Unit :=
  if blen ≠ 0 then readToBuf blockIdx blen else pure ()

/-- The aligned data, and the rest. -/
def readParts (blockIdx blen phBsize len : ℕ) : BdevM Unit := do
  readAligned blockIdx blen
  if len - phBsize * blen ≠ 0 then
    readRest (blockIdx + blen) (phBsize * blen) (len - phBsize * blen)
  else pure ()

/-- `ext4_block_readbytes` of `len` bytes at offset 0 to `ph_bbuf`. -/
def readBuf (len : ℕ) : BdevM Unit := do
  let d ← Prog.get
  if d.phRefctr = 0 then Prog.fail Errno.EIO
  else if d.partSize < len then Prog.fail Errno.EINVAL
  else readParts (d.partOffset / d.phBsize) (len / d.phBsize) d.phBsize len

/-- `ext4_mbr_write`. -/
def mbrWrite (division : Fin 4 → ℕ) (diskId : ℕ) : BdevM Unit := fun d =>
  if 100 < division 0 + division 1 + division 2 + division 3 then (.error Errno.EINVAL, d)
  else
    let d := blockInit d
    let d := { d with phBbuf := mkRecord d.partSize d.phBsize division diskId d.phBbuf }
    let (r, d) := writeBuf 512 d
    (r, blockFini d)

/-- A partition as `ext4_mbr_scan` reads it: offset and size in bytes. -/
def scanEntry (pe : List Byte) : Option (ℕ × ℕ) :=
  let firstLba := leVal ((pe.drop 8).take 4)
  let sectors := leVal ((pe.drop 12).take 4)
  if sectors = 0 then none
  else if pe[4]? ≠ some 0x83#8 then none
  else some (firstLba * 512, sectors * 512)

/-- What `ext4_mbr_scan` makes of the record in `ph_bbuf`. -/
def scanRecord (mbr : Mem) : Except Errno (Fin 4 → Option (ℕ × ℕ)) :=
  if getLE mbr 510 2 ≠ 0xAA55 then .error Errno.ENOENT
  else .ok fun i => scanEntry (mbr.read (446 + 16 * i.1) 16)

/-- `ext4_mbr_scan`. -/
def mbrScan : BdevM (Fin 4 → Option (ℕ × ℕ)) := fun d =>
  match readBuf 512 (blockInit d) with
  | (.error e, d) => (.error e, blockFini d)
  | (.ok (), d) => (scanRecord d.phBbuf, blockFini d)

/-! ## What is promised -/

/-- The cylinders of the partitions before `i`. -/
def before (f : Fin 4 → ℕ) : Fin 4 → ℕ
  | 0 => 0
  | 1 => f 0
  | 2 => f 0 + f 1
  | 3 => f 0 + f 1 + f 2

/-- The cylinders of a partition: its percentage of all, rounded down. -/
def cylinders (diskSize : ℕ) (division : Fin 4 → ℕ) (i : Fin 4) : ℕ :=
  diskSize / cylSize diskSize * division i / 100

/-- Offset and size in bytes of a partition with a cylinder.  The first one
    leaves a track of 63 sectors to the record; the size is in whole sectors. -/
def layout (diskSize phBsize : ℕ) (division : Fin 4 → ℕ) (i : Fin 4) : Option (ℕ × ℕ) :=
  let part := cylinders diskSize division i
  let track := if i = 0 then 63 * phBsize else 0
  if part = 0 then none
  else some (before (cylinders diskSize division) i * cylSize diskSize + track,
    (part * cylSize diskSize - track) / phBsize * phBsize)

/-- The partitions that are read are those of the layout, apart from each other
    and from the first sector, inside the disk, and of the size asked for but
    for two cylinders and the track. -/
structure Partitioned (diskSize phBsize : ℕ) (division : Fin 4 → ℕ)
    (parts : Fin 4 → Option (ℕ × ℕ)) : Prop where
  readBack : ∀ i, parts i = layout diskSize phBsize division i
  disjoint : ∀ i j p q, i ≠ j → parts i = some p → parts j = some q →
    p.1 + p.2 ≤ q.1 ∨ q.1 + q.2 ≤ p.1
  behind : ∀ i p, parts i = some p → 512 ≤ p.1
  inside : ∀ i p, parts i = some p → p.1 + p.2 ≤ diskSize
  covers : ∀ i p, parts i = some p → 100 * p.2 ≤ diskSize * division i ∧
    diskSize * division i < 100 * (p.2 + 2 * cylSize diskSize + 64 * phBsize)

/-- Whatever disk of this size is divided so: where the call returns `EOK`, the
    partitions are read back, unless a transfer fails. -/
def RoundTrips (diskSize phBsize : ℕ) (division : Fin 4 → ℕ) : Prop :=
  ∀ (d d' : Bdev) (diskId : ℕ), d.partSize = diskSize → d.phBsize = phBsize → d.partOffset = 0 →
    mbrWrite division diskId d = (.ok (), d') →
      (∀ parts d'', mbrScan d' = (.ok parts, d'') → Partitioned diskSize phBsize division parts) ∧
        (d'.faults = [] → ∃ parts d'', mbrScan d' = (.ok parts, d''))

/-- At most the first partition has a cylinder, and it has 64 sectors or more,
    and fewer than `2 ^ 32` bytes behind its track. -/
structure FirstOnly (diskSize : ℕ) (division : Fin 4 → ℕ) : Prop where
  others : ∀ i, i ≠ 0 → cylinders diskSize division i = 0
  first : cylinders diskSize division 0 = 0 ∨
    (64 * 512 ≤ cylinders diskSize division 0 * cylSize diskSize ∧
      cylinders diskSize division 0 * cylSize diskSize < 2 ^ 32 + 63 * 512)

/-! ## The transfers -/

section Transfers

variable {d : Bdev} {m : Mem}

theorem write_read_self (m : Mem) (a n : ℕ) : m.write a (m.read a n) = m := by
  funext i
  obtain h | h := Nat.lt_or_ge i a
  · exact Mem.write_of_lt _ h
  · obtain hn | hn := Nat.lt_or_ge i (a + n)
    · rw [Mem.write_read_apply m m h hn, Nat.add_sub_cancel' h]
    · exact Mem.write_of_ge (by rwa [Mem.length_read])

theorem sat_readToBuf (d : Bdev) (blk cnt : ℕ) :
    Prog.Sat (· = d) (readToBuf blk cnt)
      (fun _ d' => d.Holds d.disk d' ∧
        ∃ q : Mem, d'.phBbuf = q.write 0 (d.disk.read (d.phBsize * blk) (d.phBsize * cnt)))
      d.Broken := by
  refine Prog.Sat.bind (sat_bdifBread d blk cnt) fun b => Prog.Sat.modify ?_
  rintro d' ⟨rfl, h⟩
  exact ⟨h.buffer _, _, rfl⟩

/-- Where a block is larger than the record, what it holds is written back. -/
theorem sat_writeRest (hb : 512 < d.phBsize) :
    Prog.Sat (· = d) (writeRest 0 0 512) (fun _ => d.Holds d.disk) d.Broken := by
  refine Prog.Sat.bind (sat_readToBuf d 0 1) fun _ => ?_
  refine Prog.Sat.modify_bind (M := fun s => d.Holds d.disk s ∧ ∃ q : Mem, s.phBbuf =
    (q.write 0 (d.disk.read (d.phBsize * 0) (d.phBsize * 1))).write 0
      (d.disk.read (d.phBsize * 0) 512)) ?_ ?_
  swap
  · rintro s ⟨hs, q, hq⟩
    refine ⟨hs.buffer _, q, ?_⟩
    simp only [hq]
    rw [Mem.read_write_read q d.disk (by omega), Nat.add_zero]
  refine Prog.Sat.get_bind ?_
  rintro d₂ ⟨h₂, q, hq⟩
  refine (sat_bdifBwrite _ _ _ _).conseq (fun _ => id) ?_ fun _ _ h => h₂.broken h
  intro _ d₃ h₃
  have h₄ := h₂.trans h₃
  refine ⟨h₄.phBsize, h₄.phRefctr, h₄.partOffset, h₄.partSize, ?_, h₄.faults⟩
  rw [h₃.disk, hq, h₂.phBsize, h₂.disk, Nat.mul_one,
    List.take_of_length_le (by rw [Mem.length_read]),
    Mem.write_patch _ _ (by rw [Mem.length_read]; omega), Nat.add_zero, write_read_self]

/-- The record is written if it is as long as a block, and not at all if it is
    shorter. -/
theorem sat_writeBuf (href : d.phRefctr ≠ 0) (hoff : d.partOffset = 0) (hsize : 512 ≤ d.partSize)
    (hb : 512 ≤ d.phBsize) :
    Prog.Sat (· = d) (writeBuf 512)
      (fun _ => d.Holds (if d.phBsize = 512 then d.disk.write 0 (d.phBbuf.read 0 512) else d.disk))
      d.Broken := by
  refine Prog.Sat.get_bind ?_
  rintro d rfl
  rw [if_neg href, if_neg (by omega), hoff, Nat.zero_div]
  by_cases h512 : d.phBsize = 512
  · rw [if_pos h512, h512]
    refine Prog.Sat.bind (Q := fun _ => d.Holds (d.disk.write 0 (d.phBbuf.read 0 512))) ?_
      fun _ => Prog.Sat.pure fun _ h => h
    refine Prog.Sat.get_bind ?_
    rintro d rfl
    rw [if_pos (by decide), h512]
    refine (sat_bdifBwrite d _ 0 1).conseq (fun _ => id) ?_ fun _ _ => id
    intro _ d' h
    rwa [h512, List.take_of_length_le (by rw [Mem.length_read])] at h
  · have hlt : 512 < d.phBsize := by omega
    rw [if_neg h512, Nat.div_eq_of_lt hlt]
    refine Prog.Sat.bind (Q := fun _ => (· = d)) ?_ fun _ => ?_
    · refine Prog.Sat.get_bind ?_
      rintro d rfl
      exact Prog.Sat.pure fun _ => id
    · rw [if_pos (by omega)]
      exact sat_writeRest hlt

/-- The first 512 bytes of the disk are read. -/
theorem sat_readBuf (href : d.phRefctr ≠ 0) (hoff : d.partOffset = 0) (hsize : 512 ≤ d.partSize)
    (hb : 512 ≤ d.phBsize) :
    Prog.Sat (· = d) (readBuf 512)
      (fun _ d' => d.Holds d.disk d' ∧
        ∃ q : Mem, d'.phBbuf = q.write 0 (d.disk.read 0 512)) d.Broken := by
  refine Prog.Sat.get_bind ?_
  rintro d rfl
  rw [if_neg href, if_neg (by omega), hoff, Nat.zero_div]
  by_cases h512 : d.phBsize = 512
  · rw [h512]
    refine Prog.Sat.bind (Q := fun _ d' => d.Holds d.disk d' ∧
      ∃ q : Mem, d'.phBbuf = q.write 0 (d.disk.read 0 512)) ?_ fun _ => Prog.Sat.pure fun _ h => h
    have h := sat_readToBuf d 0 1
    rwa [h512] at h
  · have hlt : 512 < d.phBsize := by omega
    rw [Nat.div_eq_of_lt hlt]
    refine Prog.Sat.bind (Q := fun _ => (· = d)) (Prog.Sat.pure fun _ => id) fun _ => ?_
    rw [if_pos (by omega)]
    refine Prog.Sat.bind (sat_readToBuf d 0 1) fun _ => Prog.Sat.modify ?_
    rintro d' ⟨h, q, hq⟩
    refine ⟨h.buffer _, d'.phBbuf, ?_⟩
    simp only [Nat.mul_zero]
    rw [hq, Mem.read_write_read q d.disk (by omega), Nat.mul_zero, Nat.add_zero]

/-- What `ext4_mbr_write` leaves on the device. -/
theorem mbrWrite_ok {d' : Bdev} {division : Fin 4 → ℕ} {diskId : ℕ} (hoff : d.partOffset = 0)
    (hsize : 512 ≤ d.partSize) (hb : 512 ≤ d.phBsize)
    (h : mbrWrite division diskId d = (.ok (), d')) :
    d.Holds (if d.phBsize = 512 then
      d.disk.write 0 ((mkRecord d.partSize d.phBsize division diskId d.phBbuf).read 0 512)
      else d.disk) d' := by
  unfold mbrWrite at h
  split at h
  · cases h
  · have hsat := @sat_writeBuf
      { blockInit d with phBbuf := mkRecord d.partSize d.phBsize division diskId d.phBbuf }
      (Nat.succ_ne_zero _) hoff hsize hb
    simp only [Prod.mk.injEq] at h
    obtain ⟨hok, rfl⟩ := h
    have hrun := hsat.ok rfl (Prod.ext hok rfl)
    exact ⟨hrun.phBsize, congrArg (· - 1) hrun.phRefctr, hrun.partOffset, hrun.partSize, hrun.disk,
      hrun.faults⟩

/-- Without transfer errors the record is written. -/
theorem mbrWrite_total {division : Fin 4 → ℕ} (diskId : ℕ) (hoff : d.partOffset = 0)
    (hsize : 512 ≤ d.partSize) (hb : 512 ≤ d.phBsize)
    (hsum : division 0 + division 1 + division 2 + division 3 ≤ 100) (hf : d.faults = []) :
    ∃ d', mbrWrite division diskId d = (.ok (), d') := by
  have hsat := @sat_writeBuf
    { blockInit d with phBbuf := mkRecord d.partSize d.phBsize division diskId d.phBbuf }
    (Nat.succ_ne_zero _) hoff hsize hb
  obtain ⟨_, d', hrun⟩ := Bdev.exists_ok_of_sat hsat hf
  refine ⟨blockFini d', ?_⟩
  rw [mbrWrite, if_neg (by omega)]
  have hbuf := congrArg (fun r => (r.1, blockFini r.2)) hrun
  exact hbuf

theorem writeBuf_small (href : d.phRefctr ≠ 0) (hsize : d.partSize < 512) :
    writeBuf 512 d = (.error Errno.EINVAL, d) := by
  rw [writeBuf, Prog.bind_ok (Prog.get_run d), if_neg href, if_pos hsize]
  rfl

/-- There is no room for a record on a disk of less than a sector. -/
theorem mbrWrite_small {division : Fin 4 → ℕ} {diskId : ℕ} (hsize : d.partSize < 512) (d' : Bdev) :
    mbrWrite division diskId d ≠ (.ok (), d') := by
  intro h
  unfold mbrWrite at h
  split at h
  · cases h
  · simp only [Prod.mk.injEq] at h
    have hrun := congrArg Prod.fst (@writeBuf_small
      { blockInit d with phBbuf := mkRecord d.partSize d.phBsize division diskId d.phBbuf }
      (Nat.succ_ne_zero _) hsize)
    cases hrun.symm.trans h.1

/-- What `ext4_mbr_scan` finds on the device. -/
theorem mbrScan_ok {d' : Bdev} {parts : Fin 4 → Option (ℕ × ℕ)} (hoff : d.partOffset = 0)
    (hsize : 512 ≤ d.partSize) (hb : 512 ≤ d.phBsize) (h : mbrScan d = (.ok parts, d')) :
    getLE d.disk 510 2 = 0xAA55 ∧ ∀ i, parts i = scanEntry (d.disk.read (446 + 16 * i.1) 16) := by
  have hsat := @sat_readBuf (blockInit d) (Nat.succ_ne_zero _) hoff hsize hb
  unfold mbrScan at h
  rcases hr : readBuf 512 (blockInit d) with ⟨e | _, d₁⟩
  · rw [hr] at h
    cases h
  · rw [hr] at h
    obtain ⟨-, q, hq⟩ := hsat.ok rfl hr
    have hread : ∀ a n, a + n ≤ 512 → d₁.phBbuf.read a n = d.disk.read a n := by
      intro a n hle
      have hcopy := Mem.read_write_read q d.disk hle (c := 0)
      rw [Nat.zero_add] at hcopy
      rw [hq]
      exact hcopy
    simp only [scanRecord, Prod.mk.injEq] at h
    split at h
    · cases h.1
    · rename_i hsig
      rw [getLE, hread _ _ (by decide)] at hsig
      refine ⟨not_not.mp hsig, fun i => ?_⟩
      have hparts := congrFun (Except.ok.inj h.1) i
      rw [← hparts, hread _ _ (by omega)]

/-- Without transfer errors a record is found. -/
theorem mbrScan_total (hoff : d.partOffset = 0) (hsize : 512 ≤ d.partSize) (hb : 512 ≤ d.phBsize)
    (hf : d.faults = []) (hsig : getLE d.disk 510 2 = 0xAA55) :
    ∃ parts d', mbrScan d = (.ok parts, d') := by
  have hsat := @sat_readBuf (blockInit d) (Nat.succ_ne_zero _) hoff hsize hb
  obtain ⟨_, d₁, hr⟩ := Bdev.exists_ok_of_sat hsat hf
  obtain ⟨-, q, hq⟩ := hsat.ok rfl hr
  have hcopy := @Mem.read_write_read q d.disk 0 512 510 2 (by decide)
  have hsig₁ : getLE d₁.phBbuf 510 2 = 0xAA55 := by
    rw [hq]
    exact (congrArg leVal hcopy).trans hsig
  rw [mbrScan, hr]
  simp only [scanRecord, hsig₁]
  exact ⟨_, _, rfl⟩

end Transfers

/-! ## The entries -/

section Entries

variable {N b : ℕ} {division : Fin 4 → ℕ} {i j : Fin 4} {m : Mem} {cyl : ℕ}

theorem length_mkEntry (N b : ℕ) (i : Fin 4) (cylIt part : ℕ) :
    (mkEntry N b i cylIt part).length = 16 := by
  simp only [mkEntry, partEntry, List.length_append, List.length_map, length_leBytes,
    List.length_cons, List.length_nil]

/-- The other entries stay. -/
theorem read_write_entry (h : j ≠ i) (cylIt part : ℕ) :
    (m.write (446 + 16 * i.1) (mkEntry N b i cylIt part)).read (446 + 16 * j.1) 16 =
      m.read (446 + 16 * j.1) 16 := by
  have hne : j.1 ≠ i.1 := fun h' => h (Fin.ext h')
  refine Mem.read_write_of_disjoint ?_
  rw [length_mkEntry]
  omega

/-- What the loop does at the first of its partitions. -/
def putEntry (N b : ℕ) (division : Fin 4 → ℕ) (i : Fin 4) (cyl : ℕ) (m : Mem) : Mem :=
  if cylPart N division i = 0 then m
  else m.write (446 + 16 * i.1) (mkEntry N b i cyl (cylPart N division i))

theorem cylPart_lt (N : ℕ) (division : Fin 4 → ℕ) (i : Fin 4) : cylPart N division i < 2 ^ 26 := by
  have h := u32_lt (cylCount N * division i)
  rw [cylPart]
  omega

theorem mbrLoop_cons (is : List (Fin 4)) (hcyl : cyl < 2 ^ 31) :
    mbrLoop N b division (i :: is) m cyl =
      mbrLoop N b division is (putEntry N b division i cyl m) (cyl + cylPart N division i) := by
  have hlt := cylPart_lt N division i
  simp only [mbrLoop, putEntry]
  split_ifs with h
  · rw [h, Nat.add_zero]
  · rw [u32_of_lt (by omega)]

/-- The four rounds. -/
theorem mbrLoop_eq (m : Mem) : mbrLoop N b division [0, 1, 2, 3] m 0 =
    putEntry N b division 3 (before (cylPart N division) 3)
      (putEntry N b division 2 (before (cylPart N division) 2)
        (putEntry N b division 1 (before (cylPart N division) 1)
          (putEntry N b division 0 (before (cylPart N division) 0) m))) := by
  have h0 := cylPart_lt N division 0
  have h1 := cylPart_lt N division 1
  have h2 := cylPart_lt N division 2
  rw [mbrLoop_cons _ (by decide), mbrLoop_cons _ (by omega), mbrLoop_cons _ (by omega),
    mbrLoop_cons _ (by omega), Nat.zero_add]
  rfl

theorem putEntry_other (h : j ≠ i) :
    (putEntry N b division i cyl m).read (446 + 16 * j.1) 16 = m.read (446 + 16 * j.1) 16 := by
  unfold putEntry
  split_ifs
  · rfl
  · exact read_write_entry h _ _

theorem putEntry_self : (putEntry N b division i cyl m).read (446 + 16 * i.1) 16 =
    if cylPart N division i = 0 then m.read (446 + 16 * i.1) 16
    else mkEntry N b i cyl (cylPart N division i) := by
  unfold putEntry
  split_ifs
  · rfl
  · have h := Mem.read_write m (446 + 16 * i.1) (mkEntry N b i cyl (cylPart N division i))
    rwa [length_mkEntry] at h

theorem mbrLoop_read (m : Mem) (i : Fin 4) :
    (mbrLoop N b division [0, 1, 2, 3] m 0).read (446 + 16 * i.1) 16 =
      if cylPart N division i = 0 then m.read (446 + 16 * i.1) 16
      else mkEntry N b i (before (cylPart N division) i) (cylPart N division i) := by
  rw [mbrLoop_eq]
  match i with
  | 0 => rw [putEntry_other (by decide), putEntry_other (by decide), putEntry_other (by decide),
      putEntry_self]
  | 1 => rw [putEntry_other (by decide), putEntry_other (by decide), putEntry_self,
      putEntry_other (by decide)]
  | 2 => rw [putEntry_other (by decide), putEntry_self, putEntry_other (by decide),
      putEntry_other (by decide)]
  | 3 => rw [putEntry_self, putEntry_other (by decide), putEntry_other (by decide),
      putEntry_other (by decide)]

/-- An entry of zeros is empty. -/
theorem scanEntry_zeros : scanEntry (List.replicate 16 0) = none := by decide

/-- **What is read of the record.** -/
theorem mkRecord_scan (diskId : ℕ) (m : Mem) (i : Fin 4) :
    scanEntry ((mkRecord N b division diskId m).read (446 + 16 * i.1) 16) =
      if cylPart N division i = 0 then none
      else scanEntry (mkEntry N b i (before (cylPart N division) i) (cylPart N division i)) := by
  have hi := i.isLt
  rw [mkRecord, putLE, Mem.read_write_of_disjoint (by left; omega), mbrLoop_read]
  split_ifs
  · rw [putLE, Mem.read_write_of_disjoint (by right; rw [length_leBytes]; omega)]
    rw [Mem.read_fill (by omega) (by omega), scanEntry_zeros]
  · rfl

theorem mkRecord_signature (diskId : ℕ) (m : Mem) :
    getLE (mkRecord N b division diskId m) 510 2 = 0xAA55 := by
  rw [mkRecord, getLE_putLE]
  rfl

/-- An entry that is filled in has the right type. -/
theorem scanEntry_partEntry (i : Fin 4) (k cylIt cylEnd firstLba sectors : ℕ)
    (hlba : firstLba < 2 ^ 32) (hsec : sectors < 2 ^ 32) :
    scanEntry (partEntry i k cylIt cylEnd firstLba sectors) =
      if sectors = 0 then none else some (firstLba * 512, sectors * 512) := by
  have hl : leVal (leBytes 4 firstLba) = firstLba := by
    rw [leVal_leBytes]
    exact Nat.mod_eq_of_lt hlba
  have hs : leVal (leBytes 4 sectors) = sectors := by
    rw [leVal_leBytes]
    exact Nat.mod_eq_of_lt hsec
  have hdrop : ((partEntry i k cylIt cylEnd firstLba sectors).drop 8).take 4 =
      leBytes 4 firstLba := rfl
  have hrest : ((partEntry i k cylIt cylEnd firstLba sectors).drop 12).take 4 =
      leBytes 4 sectors := rfl
  have htype : (partEntry i k cylIt cylEnd firstLba sectors)[4]? = some 0x83#8 := rfl
  rw [scanEntry, hdrop, hrest, hl, hs, htype, if_neg (not_not_intro rfl)]

/-! ## The geometry -/

theorem headsLoop_mem (N : ℕ) : headsLoop N 4 16 ∈ [16, 32, 64, 128, 256] := by
  simp only [headsLoop]
  split_ifs <;> decide

theorem heads_mem (N : ℕ) : heads N ∈ [16, 32, 64, 128, 255] := by
  have hall : ∀ k ∈ [16, 32, 64, 128, 256],
      (if k = 256 then k - 1 else k) ∈ [16, 32, 64, 128, 255] := by decide
  exact hall _ (headsLoop_mem N)

theorem cylSize_bounds (N : ℕ) : 1008 ≤ cylSize N ∧ cylSize N ≤ 16065 := by
  have h := heads_mem N
  simp only [List.mem_cons, List.not_mem_nil, or_false] at h
  unfold cylSize
  omega

/-- Below `2 ^ 25` cylinders nothing wraps. -/
theorem cylPart_eq (h : cylinders N division i < 2 ^ 25) :
    cylPart N division i = cylinders N division i := by
  rw [cylinders] at h ⊢
  rw [cylPart, cylCount]
  generalize N / cylSize N = cnt at *
  obtain hd | hd := Nat.eq_zero_or_pos (division i)
  · rw [hd, Nat.mul_zero, Nat.mul_zero, u32_of_lt (by decide)]
  · have hle : cnt ≤ cnt * division i := Nat.le_mul_of_pos_right cnt hd
    have hcnt : u32 cnt = cnt := u32_of_lt (by omega)
    rw [hcnt, u32_of_lt (by omega)]

/-- The cylinders of a partition are the percentage asked for, but for two. -/
theorem cylinders_bounds (N : ℕ) (division : Fin 4 → ℕ) (i : Fin 4) :
    100 * (cylinders N division i * cylSize N) ≤ N * division i ∧
      N * division i ≤
        100 * (cylinders N division i * cylSize N + cylSize N) + division i * cylSize N := by
  rw [cylinders]
  generalize hcnt : N / cylSize N = cnt
  generalize hp : cnt * division i / 100 = p
  have hN : cnt * cylSize N ≤ N := hcnt ▸ Nat.div_mul_le_self N (cylSize N)
  have hN' : N ≤ (cnt + 1) * cylSize N := by
    have hpos : 0 < cylSize N := by have := cylSize_bounds N; omega
    rw [← hcnt, Nat.mul_comm]
    exact (Nat.lt_mul_div_succ N hpos).le
  have hlo : 100 * p ≤ cnt * division i := by omega
  have hhi : cnt * division i ≤ 100 * (p + 1) := by omega
  constructor
  · calc 100 * (p * cylSize N) = 100 * p * cylSize N := (Nat.mul_assoc ..).symm
      _ ≤ cnt * division i * cylSize N := Nat.mul_le_mul_right _ hlo
      _ = cnt * cylSize N * division i := Nat.mul_right_comm ..
      _ ≤ N * division i := Nat.mul_le_mul_right _ hN
  · calc N * division i ≤ (cnt + 1) * cylSize N * division i := Nat.mul_le_mul_right _ hN'
      _ = cnt * division i * cylSize N + division i * cylSize N := by ring
      _ ≤ 100 * (p + 1) * cylSize N + division i * cylSize N :=
        Nat.add_le_add_right (Nat.mul_le_mul_right _ hhi) _
      _ = 100 * (p * cylSize N + cylSize N) + division i * cylSize N := by ring

theorem cylinders_le (hdiv : division i ≤ 100) : cylinders N division i * cylSize N ≤ N := by
  have h := (cylinders_bounds N division i).1
  have hle : N * division i ≤ N * 100 := Nat.mul_le_mul_left N hdiv
  omega

end Entries

/-! ## When the partitions are read back -/

section Exact

variable {N : ℕ} {division : Fin 4 → ℕ} {i : Fin 4}

/-- The partition that the scan finds at `i`, with sectors of 512 bytes. -/
def recorded (N : ℕ) (division : Fin 4 → ℕ) (i : Fin 4) : Option (ℕ × ℕ) :=
  if cylPart N division i = 0 then none
  else scanEntry (mkEntry N 512 i (before (cylPart N division) i) (cylPart N division i))

/-- The sectors of the first partition. -/
def firstSectors (N : ℕ) (division : Fin 4 → ℕ) : ℕ :=
  sub32 (u32 (cylPart N division 0 * cylSize N)) 32256 / 512

theorem firstSectors_lt (N : ℕ) (division : Fin 4 → ℕ) : firstSectors N division < 2 ^ 23 := by
  have hsub : sub32 (u32 (cylPart N division 0 * cylSize N)) 32256 < 2 ^ 32 := by
    unfold sub32
    exact Nat.mod_lt _ (by decide)
  rw [firstSectors]
  omega

/-- The first partition, told in sectors. -/
theorem recorded_zero (N : ℕ) (division : Fin 4 → ℕ) : recorded N division 0 =
    if cylPart N division 0 = 0 ∨ firstSectors N division = 0 then none
    else some (63 * 512, firstSectors N division * 512) := by
  have htrack : u32 (63 * 512) = 32256 := u32_of_lt (by decide)
  have hstart : u32 (u32 (0 * cylSize N) + 63) = 63 := by
    have hzero : u32 0 = 0 := u32_of_lt (by decide)
    rw [Nat.zero_mul, hzero, u32_of_lt (by decide)]
  have hlt := firstSectors_lt N division
  rw [recorded]
  by_cases h0 : cylPart N division 0 = 0
  · rw [if_pos h0, if_pos (.inl h0)]
  · simp only [h0, if_false, false_or, mkEntry, if_true, before, htrack, hstart]
    exact scanEntry_partEntry _ _ _ _ _ _ (by decide) (hlt.trans (by decide))

/-- Another partition, told in bytes. -/
theorem recorded_succ (hi : i ≠ 0) (h0 : cylPart N division i ≠ 0) :
    recorded N division i = none ∨ ∃ size, recorded N division i =
      some (u32 (before (cylPart N division) i * cylSize N) * 512, size) := by
  have hsize : u32 (cylPart N division i * cylSize N) / 512 < 2 ^ 32 := by
    have := u32_lt (cylPart N division i * cylSize N)
    omega
  rw [recorded, if_neg h0]
  simp only [mkEntry, if_neg hi]
  rw [scanEntry_partEntry _ _ _ _ _ _ (u32_lt _) hsize]
  split_ifs
  · exact .inl rfl
  · exact .inr ⟨_, rfl⟩

theorem layout_zero (h0 : cylinders N division 0 ≠ 0) : layout N 512 division 0 =
    some (63 * 512, (cylinders N division 0 * cylSize N - 63 * 512) / 512 * 512) := by
  simp only [layout, if_neg h0, if_true, before, Nat.zero_mul, Nat.zero_add]

/-- **When the first partition is read back.** -/
theorem recorded_zero_iff (h0 : cylinders N division 0 ≠ 0) :
    recorded N division 0 = layout N 512 division 0 ↔
      64 * 512 ≤ cylinders N division 0 * cylSize N ∧
        cylinders N division 0 * cylSize N < 2 ^ 32 + 63 * 512 := by
  have hlt := firstSectors_lt N division
  have hread : recorded N division 0 = layout N 512 division 0 ↔
      ¬(cylPart N division 0 = 0 ∨ firstSectors N division = 0) ∧
        firstSectors N division = (cylinders N division 0 * cylSize N - 63 * 512) / 512 := by
    rw [recorded_zero, layout_zero h0]
    split_ifs with h
    · exact iff_of_false (by rintro ⟨⟩) fun hn => hn.1 h
    · rw [Option.some_inj, Prod.mk.injEq, and_iff_right rfl, Nat.mul_left_inj (by decide)]
      exact (and_iff_right h).symm
  rw [hread]
  obtain hsmall | hlarge := Nat.lt_or_ge (cylinders N division 0) (2 ^ 25)
  · have hpart := cylPart_eq hsmall
    rw [hpart, firstSectors, hpart]
    generalize cylinders N division 0 * cylSize N = x
    unfold sub32 u32
    omega
  · -- so many cylinders have more bytes than a size of 32 bits tells
    have hbytes : 2 ^ 25 * 1008 ≤ cylinders N division 0 * cylSize N :=
      Nat.mul_le_mul hlarge (cylSize_bounds N).1
    omega

/-- **A partition behind another one is not read back.** -/
theorem recorded_ne_layout (hi : i ≠ 0) (hpart : cylinders N division i ≠ 0)
    (hbefore : before (cylinders N division) i = cylinders N division 0)
    (hbefore' : before (cylPart N division) i = cylPart N division 0)
    (h0 : cylinders N division 0 ≠ 0)
    (hfirst : cylinders N division 0 * cylSize N < 2 ^ 32 + 63 * 512) :
    recorded N division i ≠ layout N 512 division i := by
  have hbytes : 1008 * cylinders N division 0 ≤ cylinders N division 0 * cylSize N := by
    rw [Nat.mul_comm]
    exact Nat.mul_le_mul_left _ (cylSize_bounds N).1
  have hsmall : cylPart N division 0 = cylinders N division 0 := cylPart_eq (by omega)
  have hlayout : layout N 512 division i =
      some (cylinders N division 0 * cylSize N,
        cylinders N division i * cylSize N / 512 * 512) := by
    simp only [layout, if_neg hpart, if_neg hi, hbefore, Nat.add_zero, Nat.sub_zero]
  have hrec : recorded N division i = none ∨ ∃ size, recorded N division i =
      some (u32 (cylinders N division 0 * cylSize N) * 512, size) := by
    rw [← hsmall, ← hbefore']
    by_cases hz : cylPart N division i = 0
    · exact .inl (by rw [recorded, if_pos hz])
    · exact recorded_succ hi hz
  rw [hlayout]
  obtain hrec | ⟨size, hrec⟩ := hrec
  · rw [hrec]
    rintro ⟨⟩
  · rw [hrec, ne_eq, Option.some_inj, Prod.mk.injEq]
    rintro ⟨hoff, -⟩
    generalize cylinders N division 0 * cylSize N = x at *
    unfold u32 at hoff
    omega

/-- **A record is as laid out only if at most its first partition has a cylinder.** -/
theorem FirstOnly.of_readBack (h : ∀ i, recorded N division i = layout N 512 division i)
    (hbehind : ∀ i p, recorded N division i = some p → 512 ≤ p.1) : FirstOnly N division := by
  -- a partition without any before it would start with the first sector
  have hstart : ∀ i, i ≠ 0 → before (cylinders N division) i = 0 → cylinders N division i = 0 := by
    intro i hi hb
    by_contra hpart
    have hlayout := h i
    simp only [layout, if_neg hpart, if_neg hi, hb, Nat.zero_mul, Nat.add_zero] at hlayout
    have := hbehind i _ hlayout
    omega
  by_cases h0 : cylinders N division 0 = 0
  · have h1 := hstart 1 (by decide) h0
    have h2 := hstart 2 (by decide) (by simp only [before, h0, h1])
    have h3 := hstart 3 (by decide) (by simp only [before, h0, h1, h2])
    refine ⟨fun i _ => ?_, .inl h0⟩
    match i with
    | 0 => exact h0
    | 1 => exact h1
    | 2 => exact h2
    | 3 => exact h3
  · have hfirst := (recorded_zero_iff h0).mp (h 0)
    have hzero : ∀ i, cylinders N division i = 0 → cylPart N division i = 0 := by
      intro i hi
      rw [cylPart_eq (by omega), hi]
    have hnext : ∀ i, i ≠ 0 → before (cylinders N division) i = cylinders N division 0 →
        before (cylPart N division) i = cylPart N division 0 → cylinders N division i = 0 := by
      intro i hi hb hb'
      by_contra hpart
      exact recorded_ne_layout hi hpart hb hb' h0 hfirst.2 (h i)
    have h1 := hnext 1 (by decide) rfl rfl
    have h2 := hnext 2 (by decide) (by simp only [before, h1, Nat.add_zero])
      (by simp only [before, hzero 1 h1, Nat.add_zero])
    have h3 := hnext 3 (by decide) (by simp only [before, h1, h2, Nat.add_zero])
      (by simp only [before, hzero 1 h1, hzero 2 h2, Nat.add_zero])
    refine ⟨fun i hi => ?_, .inr hfirst⟩
    match i with
    | 0 => exact absurd rfl hi
    | 1 => exact h1
    | 2 => exact h2
    | 3 => exact h3

/-- The partitions that are read then. -/
theorem FirstOnly.recorded (h : FirstOnly N division) :
    (∀ i, recorded N division i = layout N 512 division i) ∧
      ∀ i p, recorded N division i = some p → i = 0 ∧ cylinders N division 0 ≠ 0 := by
  have hnone : ∀ i, cylinders N division i = 0 →
      Mbr.recorded N division i = none ∧ layout N 512 division i = none := by
    intro i hi
    have hpart : cylPart N division i = 0 := by rw [cylPart_eq (by omega), hi]
    constructor
    · rw [Mbr.recorded, if_pos hpart]
    · rw [layout]
      exact if_pos hi
  constructor
  · intro i
    by_cases hi : cylinders N division i = 0
    · rw [(hnone i hi).1, (hnone i hi).2]
    · obtain rfl : i = 0 := by
        by_contra hne
        exact hi (h.others i hne)
      exact (recorded_zero_iff hi).mpr (h.first.resolve_left hi)
  · intro i p hp
    have hi : cylinders N division i ≠ 0 := by
      intro hi
      rw [(hnone i hi).1] at hp
      cases hp
    obtain rfl : i = 0 := by
      by_contra hne
      exact hi (h.others i hne)
    exact ⟨rfl, hi⟩

/-- Then all that is promised holds. -/
theorem FirstOnly.partitioned (h : FirstOnly N division) (hdiv : division 0 ≤ 100) :
    Partitioned N 512 division (Mbr.recorded N division) := by
  obtain ⟨hread, hzero⟩ := h.recorded
  have hvalue : ∀ i p, Mbr.recorded N division i = some p → i = 0 ∧
      64 * 512 ≤ cylinders N division 0 * cylSize N ∧
        p = (63 * 512, (cylinders N division 0 * cylSize N - 63 * 512) / 512 * 512) := by
    intro i p hp
    obtain ⟨rfl, h0⟩ := hzero i p hp
    rw [hread, layout_zero h0] at hp
    exact ⟨rfl, (h.first.resolve_left h0).1, (Option.some.inj hp).symm⟩
  have hin := @cylinders_le N division 0 hdiv
  have hcyl := cylinders_bounds N division 0
  have htwo : division 0 * cylSize N ≤ 100 * cylSize N := Nat.mul_le_mul_right _ hdiv
  refine ⟨hread, fun i j p q hij hp hq => ?_, fun i p hp => ?_, fun i p hp => ?_, fun i p hp => ?_⟩
  · exact absurd ((hvalue i p hp).1.trans (hvalue j q hq).1.symm) hij
  · obtain ⟨-, -, rfl⟩ := hvalue i p hp
    show 512 ≤ 63 * 512
    decide
  · obtain ⟨-, hge, rfl⟩ := hvalue i p hp
    show 63 * 512 + (cylinders N division 0 * cylSize N - 63 * 512) / 512 * 512 ≤ N
    omega
  · obtain ⟨rfl, hge, rfl⟩ := hvalue i p hp
    simp only
    omega

end Exact

/-- The record on a disk. -/
theorem written_scan (N : ℕ) (division : Fin 4 → ℕ) (diskId : ℕ) (m disk : Mem) :
    let disk' := disk.write 0 ((mkRecord N 512 division diskId m).read 0 512)
    getLE disk' 510 2 = 0xAA55 ∧
      ∀ i : Fin 4, scanEntry (disk'.read (446 + 16 * i.1) 16) = recorded N division i := by
  intro disk'
  have hread : ∀ a n, a + n ≤ 512 →
      disk'.read a n = (mkRecord N 512 division diskId m).read a n := by
    intro a n hle
    have hcopy := @Mem.read_write_read disk (mkRecord N 512 division diskId m) 0 512 a n hle
    rwa [Nat.zero_add] at hcopy
  constructor
  · rw [getLE, hread _ _ (by decide)]
    exact mkRecord_signature diskId m
  · intro i
    rw [hread _ _ (by omega), mkRecord_scan]
    rfl

/-- A disk that takes a record takes it only in blocks of 512 bytes. -/
theorem RoundTrips.firstOnly {diskSize phBsize : ℕ} {division : Fin 4 → ℕ} (hb : 512 ≤ phBsize)
    (hsum : division 0 + division 1 + division 2 + division 3 ≤ 100) (hsize : 512 ≤ diskSize)
    (h : RoundTrips diskSize phBsize division) : phBsize = 512 ∧ FirstOnly diskSize division := by
  -- a disk of zeros
  obtain ⟨d', hw⟩ := @mbrWrite_total ⟨phBsize, 0, fun _ => 0, 0, diskSize, fun _ => 0, []⟩
    division 0 rfl hsize hb hsum rfl
  have hd' := mbrWrite_ok rfl hsize hb hw
  obtain ⟨hparts, htotal⟩ := h _ d' 0 rfl rfl rfl hw
  obtain ⟨parts, d'', hs⟩ := htotal (hd'.faults rfl)
  have hscan := mbrScan_ok hd'.partOffset (hd'.partSize ▸ hsize) (hd'.phBsize ▸ hb) hs
  rw [hd'.disk] at hscan
  by_cases h512 : phBsize = 512
  · subst h512
    have hrec := written_scan diskSize division 0 (fun _ => 0) fun _ => 0
    obtain rfl : parts = recorded diskSize division :=
      funext fun i => (hscan.2 i).trans (hrec.2 i)
    have hread := hparts _ d'' hs
    exact ⟨rfl, .of_readBack hread.readBack hread.behind⟩
  · simp only [if_neg h512] at hscan
    exact absurd hscan.1 (by decide)

/-- The other way round, whatever the disk holds. -/
theorem FirstOnly.roundTrips {diskSize : ℕ} {division : Fin 4 → ℕ} (hdiv : division 0 ≤ 100)
    (h : FirstOnly diskSize division) : RoundTrips diskSize 512 division := by
  intro d d' diskId hN hB hoff hw
  subst hN
  obtain hsmall | hsize := Nat.lt_or_ge d.partSize 512
  · exact absurd hw (mbrWrite_small hsmall d')
  have hd' := mbrWrite_ok hoff hsize hB.ge hw
  rw [if_pos hB, hB] at hd'
  have hrec := written_scan d.partSize division diskId d.phBbuf d.disk
  rw [← hd'.disk] at hrec
  have hsize' : 512 ≤ d'.partSize := hd'.partSize ▸ hsize
  have hb' : 512 ≤ d'.phBsize := hd'.phBsize ▸ hB.ge
  have hoff' : d'.partOffset = 0 := hd'.partOffset.trans hoff
  refine ⟨fun parts d'' hs => ?_, fun hf => mbrScan_total hoff' hsize' hb' hf hrec.1⟩
  have hscan := mbrScan_ok hoff' hsize' hb' hs
  obtain rfl : parts = Mbr.recorded d.partSize division :=
    funext fun i => (hscan.2 i).trans (hrec.2 i)
  exact h.partitioned hdiv

/-- **When a disk that is divided is read back**: it has blocks of 512 bytes, and
    at most the first partition has a cylinder.  A disk of less than 512 bytes
    is refused. -/
theorem table_roundTrips_iff (diskSize phBsize : ℕ) (division : Fin 4 → ℕ) (hb : 512 ≤ phBsize)
    (hsum : division 0 + division 1 + division 2 + division 3 ≤ 100) :
    RoundTrips diskSize phBsize division ↔
      diskSize < 512 ∨ (phBsize = 512 ∧ FirstOnly diskSize division) := by
  constructor
  · intro h
    obtain hsmall | hsize := Nat.lt_or_ge diskSize 512
    · exact .inl hsmall
    · exact .inr (h.firstOnly hb hsum hsize)
  · rintro (hsmall | ⟨rfl, hfirst⟩)
    · intro d d' diskId hN _ _ hw
      exact absurd hw (mbrWrite_small (hN ▸ hsmall) d')
    · exact hfirst.roundTrips (by omega)

/-- The whole disk. -/
def whole : Fin 4 → ℕ
  | 0 => 100
  | _ => 0

/-- A half of the disk each. -/
def halves : Fin 4 → ℕ
  | 0 => 50
  | 1 => 50
  | _ => 0

/-- One partition on a disk of 1 MiB. -/
theorem table_roundTrips_iff_whole : RoundTrips (2 ^ 20) 512 whole ↔
    2 ^ 20 < 512 ∨ (512 = 512 ∧ FirstOnly (2 ^ 20) whole) :=
  table_roundTrips_iff (2 ^ 20) 512 whole (by decide) (by decide)

/-- Two halves of a disk of 1 MiB: the second one is found at 256 MiB. -/
theorem roundTrips_wrong : recorded (2 ^ 20) halves 1 = some (268369920, 523776) ∧
    ¬RoundTrips (2 ^ 20) 512 halves := by
  refine ⟨by decide +kernel, fun h => ?_⟩
  obtain ⟨-, hfirst⟩ := h.firstOnly (by decide) (by decide) (by decide)
  have hcyl : cylinders (2 ^ 20) halves 1 = 260 := by decide +kernel
  rw [hfirst.others 1 (by decide)] at hcyl
  cases hcyl

end Mbr

end Lwext4
