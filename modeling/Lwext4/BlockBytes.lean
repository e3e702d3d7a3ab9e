/-
  Byte access to the device: `ext4_block_writebytes` and `ext4_block_readbytes`.

  A request is cut into a head up to the next physical block, whole blocks and
  a tail; head and tail go through the buffer `ph_bbuf`.  Main result:
  `blockBytes_exact_iff`.  Both are exact if and only if the range check
  `off + len > part_size`, which is made in 64 bits, does not wrap below the
  size of the partition.
-/
import Lwext4.Basic
import Lwext4.Lib.Prog
import Lwext4.Lib.Bytes

namespace Lwext4

open Lib

/-- `struct ext4_blockdev` with the interface under it: the bytes of the
    device, and of each transfer to come whether it fails (none does where the
    list has ended). -/
structure Bdev where
  phBsize : ℕ
  phRefctr : ℕ
  phBbuf : Mem
  partOffset : ℕ
  partSize : ℕ
  disk : Mem
  faults : List Bool

/-- Calls on a block device. -/
abbrev BdevM := Prog Errno Bdev

/-- Consume one entry of `faults`. -/
def bdifAccess : BdevM Unit := fun d =>
  match d.faults with
  | [] => (.ok (), d)
  | bad :: faults => (if bad then .error Errno.EIO else .ok (), { d with faults := faults })

/-- `ext4_bdif_bread`: the bytes of `cnt` blocks. -/
def bdifBread (blkId cnt : ℕ) : BdevM (List Byte) := do
  bdifAccess
  let d ← Prog.get
  pure (d.disk.read (d.phBsize * blkId) (d.phBsize * cnt))

/-- `ext4_bdif_bwrite` of `cnt` blocks from `buf`. -/
def bdifBwrite (buf : List Byte) (blkId cnt : ℕ) : BdevM Unit := do
  bdifAccess
  Prog.modify fun d => { d with disk := d.disk.write (d.phBsize * blkId) (buf.take (d.phBsize * cnt)) }

/-! ## `ext4_block_writebytes` -/

/-- Read a block to `ph_bbuf`, copy `bs` into it from byte `at'` on, and write
    it back. -/
def writeThrough (blockIdx at' : ℕ) (bs : List Byte) : BdevM Unit := do
  let b ← bdifBread blockIdx 1
  Prog.modify fun d => { d with phBbuf := d.phBbuf.write 0 b }
  Prog.modify fun d => { d with phBbuf := d.phBbuf.write at' bs }
  let d ← Prog.get
  bdifBwrite (d.phBbuf.read 0 d.phBsize) blockIdx 1

/-- The first possibly unaligned block; returns `p` and `block_idx` after it. -/
def writeHead (unalg blockIdx : ℕ) (p : List Byte) : BdevM (List Byte × ℕ) := do
  if unalg ≠ 0 then
    let d ← Prog.get
    let wlen := if p.length < d.phBsize - unalg then p.length else d.phBsize - unalg
    writeThrough blockIdx unalg (p.take wlen)
    pure (p.drop wlen, blockIdx + 1)
  else pure (p, blockIdx)

/-- The aligned data. -/
def writeBlocks (blockIdx : ℕ) (p : List Byte) : BdevM (List Byte × ℕ) := do
  let d ← Prog.get
  let blen := p.length / d.phBsize
  if blen ≠ 0 then
    bdifBwrite p blockIdx blen
    pure (p.drop (d.phBsize * blen), blockIdx + blen)
  else pure (p, blockIdx)

/-- `ext4_block_writebytes`. -/
def blockWritebytes (off : ℕ) (buf : List Byte) : BdevM Unit := do
  let d ← Prog.get
  if d.phRefctr = 0 then Prog.fail Errno.EIO
  else if d.partSize < u64 (off + buf.length) then Prog.fail Errno.EINVAL
  else
    let blockIdx := u64 (off + d.partOffset) / d.phBsize
    let unalg := off &&& (d.phBsize - 1)
    let (p, blockIdx) ← writeHead unalg blockIdx buf
    let (p, blockIdx) ← writeBlocks blockIdx p
    if p.length ≠ 0 then writeThrough blockIdx 0 p else pure ()

/-! ## `ext4_block_readbytes` -/

/-- Read a block to `ph_bbuf`, and give `n` bytes of it from byte `at'` on. -/
def readThrough (blockIdx at' n : ℕ) : BdevM (List Byte) := do
  let b ← bdifBread blockIdx 1
  Prog.modify fun d => { d with phBbuf := d.phBbuf.write 0 b }
  let d ← Prog.get
  pure (d.phBbuf.read at' n)

/-- The first possibly unaligned block; returns what it has read, and `len` and
    `block_idx` after it. -/
def readHead (unalg blockIdx len : ℕ) : BdevM (List Byte × ℕ × ℕ) := do
  if unalg ≠ 0 then
    let d ← Prog.get
    let rlen := if len < d.phBsize - unalg then len else d.phBsize - unalg
    let bs ← readThrough blockIdx unalg rlen
    pure (bs, len - rlen, blockIdx + 1)
  else pure ([], len, blockIdx)

/-- The aligned data. -/
def readBlocks (blockIdx len : ℕ) : BdevM (List Byte × ℕ × ℕ) := do
  let d ← Prog.get
  let blen := len / d.phBsize
  if blen ≠ 0 then
    let bs ← bdifBread blockIdx blen
    pure (bs, len - d.phBsize * blen, blockIdx + blen)
  else pure ([], len, blockIdx)

/-- `ext4_block_readbytes`: what it has copied to `buf`. -/
def blockReadbytes (off len : ℕ) : BdevM (List Byte) := do
  let d ← Prog.get
  if d.phRefctr = 0 then Prog.fail Errno.EIO
  else if d.partSize < u64 (off + len) then Prog.fail Errno.EINVAL
  else
    let blockIdx := u64 (off + d.partOffset) / d.phBsize
    let unalg := off &&& (d.phBsize - 1)
    let (bs, len, blockIdx) ← readHead unalg blockIdx len
    let (bs', len, blockIdx) ← readBlocks blockIdx len
    if len ≠ 0 then
      let bs'' ← readThrough blockIdx 0 len
      pure (bs ++ bs' ++ bs'')
    else pure (bs ++ bs')

/-! ## Steps -/

/-- The device with other contents; the buffer and the errors to come may
    differ, but no error comes up. -/
structure Bdev.Holds (d : Bdev) (disk : Mem) (d' : Bdev) : Prop where
  phBsize : d'.phBsize = d.phBsize
  phRefctr : d'.phRefctr = d.phRefctr
  partOffset : d'.partOffset = d.partOffset
  partSize : d'.partSize = d.partSize
  disk : d'.disk = disk
  faults : d.faults = [] → d'.faults = []

/-- A call fails with `EIO`, and on device errors only. -/
def Bdev.Broken (d : Bdev) (e : Errno) (_ : Bdev) : Prop := e = Errno.EIO ∧ d.faults ≠ []

section Steps

variable {d d' d'' : Bdev} {m m' : Mem}

theorem Bdev.Holds.refl (d : Bdev) : d.Holds d.disk d := ⟨rfl, rfl, rfl, rfl, rfl, id⟩

theorem Bdev.Holds.trans (h : d.Holds m d') (h' : d'.Holds m' d'') : d.Holds m' d'' :=
  ⟨h'.phBsize.trans h.phBsize, h'.phRefctr.trans h.phRefctr, h'.partOffset.trans h.partOffset,
    h'.partSize.trans h.partSize, h'.disk, fun hf => h'.faults (h.faults hf)⟩

theorem Bdev.Holds.broken {e : Errno} (h : d.Holds m d') (h' : d'.Broken e d'') : d.Broken e d'' :=
  ⟨h'.1, fun hf => h'.2 (h.faults hf)⟩

theorem sat_bdifAccess (d : Bdev) :
    Prog.Sat (· = d) bdifAccess (fun _ => d.Holds d.disk) d.Broken := by
  rintro d rfl
  unfold bdifAccess
  cases hf : d.faults with
  | nil => exact .refl d
  | cons bad rest =>
    cases bad with
    | false => exact ⟨rfl, rfl, rfl, rfl, rfl, fun h => by rw [hf] at h; cases h⟩
    | true => exact ⟨rfl, fun h => by rw [hf] at h; cases h⟩

theorem sat_bdifBread (d : Bdev) (blkId cnt : ℕ) :
    Prog.Sat (· = d) (bdifBread blkId cnt)
      (fun bs d' => bs = d.disk.read (d.phBsize * blkId) (d.phBsize * cnt) ∧ d.Holds d.disk d')
      d.Broken := by
  refine Prog.Sat.bind (sat_bdifAccess d) fun _ => Prog.Sat.get_bind fun d' h => Prog.Sat.pure ?_
  rintro _ rfl
  exact ⟨by rw [h.disk, h.phBsize], h⟩

theorem sat_bdifBwrite (d : Bdev) (buf : List Byte) (blkId cnt : ℕ) :
    Prog.Sat (· = d) (bdifBwrite buf blkId cnt)
      (fun _ => d.Holds (d.disk.write (d.phBsize * blkId) (buf.take (d.phBsize * cnt)))) d.Broken := by
  refine Prog.Sat.bind (sat_bdifAccess d) fun _ => Prog.Sat.modify fun d' h => ?_
  exact ⟨h.phBsize, h.phRefctr, h.partOffset, h.partSize, by rw [h.disk, h.phBsize], h.faults⟩

/-- A change of the buffer only. -/
theorem Bdev.Holds.buffer (h : d.Holds m d') (q : Mem) : d.Holds m { d' with phBbuf := q } :=
  ⟨h.phBsize, h.phRefctr, h.partOffset, h.partSize, h.disk, h.faults⟩

/-- Head and tail of a write change the given bytes of their block. -/
theorem sat_writeThrough {blk u : ℕ} {bs : List Byte} (h : u + bs.length ≤ d.phBsize) :
    Prog.Sat (· = d) (writeThrough blk u bs)
      (fun _ => d.Holds (d.disk.write (d.phBsize * blk + u) bs)) d.Broken := by
  refine Prog.Sat.bind (sat_bdifBread d blk 1) fun b => Prog.Sat.of_forall fun d₁ h₁ => ?_
  obtain ⟨rfl, h₁⟩ := h₁
  refine Prog.Sat.modify_bind (M := fun s => d.Holds d.disk s ∧
    ∃ q, s.phBbuf = Mem.write q 0 (d.disk.read (d.phBsize * blk) (d.phBsize * 1))) ?_ ?_
  swap
  · rintro s rfl
    exact ⟨h₁.buffer _, _, rfl⟩
  refine Prog.Sat.modify_bind (M := fun s => d.Holds d.disk s ∧
    ∃ q, s.phBbuf = (Mem.write q 0 (d.disk.read (d.phBsize * blk) (d.phBsize * 1))).write u bs) ?_ ?_
  swap
  · rintro s ⟨hs, q, hq⟩
    exact ⟨hs.buffer _, q, by rw [hq]⟩
  refine Prog.Sat.get_bind ?_
  rintro d₂ ⟨h₂, q, hq⟩
  refine (sat_bdifBwrite _ _ _ _).conseq (fun _ => id) ?_ fun _ _ h => h₂.broken h
  intro _ d₃ h₃
  have h₄ := h₂.trans h₃
  have hdisk := h₃.disk
  refine ⟨h₄.phBsize, h₄.phRefctr, h₄.partOffset, h₄.partSize, ?_, h₄.faults⟩
  rw [hdisk, hq, h₂.phBsize, h₂.disk, Nat.mul_one,
    List.take_of_length_le (by rw [Mem.length_read]), Mem.write_patch _ _ h]

/-- The head of a write ends at its last byte or at a block. -/
theorem sat_writeHead {blk u : ℕ} (hu : u < d.phBsize) (p : List Byte) :
    Prog.Sat (· = d) (writeHead u blk p)
      (fun r d' => ∃ w ≤ p.length, r.1 = p.drop w ∧
        d.Holds (d.disk.write (d.phBsize * blk + u) (p.take w)) d' ∧
        (r.1 ≠ [] → d.phBsize * r.2 = d.phBsize * blk + u + w)) d.Broken := by
  unfold writeHead
  by_cases h0 : u ≠ 0
  · rw [if_pos h0]
    refine Prog.Sat.get_bind ?_
    rintro d rfl
    simp only
    generalize hw : (if p.length < d.phBsize - u then p.length else d.phBsize - u) = w
    have hlen : w ≤ p.length ∧ u + w ≤ d.phBsize ∧ (w < p.length → u + w = d.phBsize) := by
      split_ifs at hw <;> omega
    refine Prog.Sat.bind (sat_writeThrough (by rw [List.length_take]; omega)) fun _ =>
      Prog.Sat.pure fun d' h => ⟨w, hlen.1, rfl, h, fun hne => ?_⟩
    have hlt : w < p.length := by
      by_contra hn
      exact hne (List.drop_eq_nil_of_le (by omega))
    rw [Nat.mul_succ, ← hlen.2.2 hlt]
    omega
  · obtain rfl : u = 0 := by omega
    rw [if_neg h0]
    refine Prog.Sat.pure ?_
    rintro d rfl
    refine ⟨0, Nat.zero_le _, rfl, ?_, fun _ => rfl⟩
    rw [List.take_zero, Mem.write_nil]
    exact .refl d

/-- The whole blocks of a write. -/
theorem sat_writeBlocks (blk : ℕ) (hB : 0 < d.phBsize) (p : List Byte) :
    Prog.Sat (· = d) (writeBlocks blk p)
      (fun r d' => ∃ w ≤ p.length, r.1 = p.drop w ∧ r.1.length < d.phBsize ∧
        d.Holds (d.disk.write (d.phBsize * blk) (p.take w)) d' ∧
        d.phBsize * r.2 = d.phBsize * blk + w) d.Broken := by
  refine Prog.Sat.get_bind ?_
  rintro d rfl
  have hdm := Nat.div_add_mod p.length d.phBsize
  have hml := Nat.mod_lt p.length hB
  simp only
  by_cases h0 : p.length / d.phBsize ≠ 0
  · rw [if_pos h0]
    refine Prog.Sat.bind (sat_bdifBwrite d p blk _) fun _ => Prog.Sat.pure fun d' h => ?_
    refine ⟨d.phBsize * (p.length / d.phBsize), by omega, rfl, ?_, h, Nat.mul_add _ _ _⟩
    rw [List.length_drop]
    omega
  · rw [if_neg h0]
    refine Prog.Sat.pure ?_
    rintro d rfl
    have hz : p.length / d.phBsize = 0 := by omega
    rw [hz, Nat.mul_zero] at hdm
    refine ⟨0, Nat.zero_le _, rfl, show p.length < d.phBsize by omega, ?_, rfl⟩
    rw [List.take_zero, Mem.write_nil]
    exact .refl d

/-- **Head, blocks and tail** write the data from their first byte on. -/
theorem sat_writeAll {blk u : ℕ} (hu : u < d.phBsize) (buf : List Byte) :
    Prog.Sat (· = d)
      (do let (p, blockIdx) ← writeHead u blk buf
          let (p, blockIdx) ← writeBlocks blockIdx p
          if p.length ≠ 0 then writeThrough blockIdx 0 p else pure ())
      (fun _ => d.Holds (d.disk.write (d.phBsize * blk + u) buf)) d.Broken := by
  refine Prog.Sat.bind (sat_writeHead hu buf) fun r => Prog.Sat.of_forall fun d₁ h => ?_
  obtain ⟨p, b⟩ := r
  obtain ⟨w, hw, rfl, h₁, hpos⟩ := h
  simp only at hpos ⊢
  refine Prog.Sat.bind ((sat_writeBlocks b (by rw [h₁.phBsize]; omega) _).conseq (fun _ => id)
    (fun _ _ => id) fun _ _ h => h₁.broken h) fun r => Prog.Sat.of_forall fun d₂ h => ?_
  obtain ⟨p, b'⟩ := r
  obtain ⟨v, hv, rfl, hlt, h₂, hb'⟩ := h
  simp only at hlt hb' ⊢
  have h₁₂ := h₁.trans h₂
  rw [h₁.phBsize] at h₂ hlt hb'
  rw [h₁.disk] at h₂
  -- what the first two steps have written, if there is anything left
  have hfront : buf.drop w ≠ [] → (d.disk.write (d.phBsize * blk + u) (buf.take w)).write
      (d.phBsize * b) ((buf.drop w).take v) =
      d.disk.write (d.phBsize * blk + u) (buf.take (w + v)) := by
    intro hne
    rw [List.take_add, Mem.write_append, List.length_take, Nat.min_eq_left hw, hpos hne]
  by_cases htail : (List.drop v (List.drop w buf)).length ≠ 0
  · rw [if_pos htail]
    have hne : buf.drop w ≠ [] := by
      rintro h
      rw [h] at htail
      simp at htail
    refine (sat_writeThrough (by rw [h₁₂.phBsize]; omega)).conseq (fun _ => id) ?_
      fun _ _ h => h₁₂.broken h
    intro _ d₃ h₃
    have h₄ := h₁₂.trans h₃
    refine ⟨h₄.phBsize, h₄.phRefctr, h₄.partOffset, h₄.partSize, ?_, h₄.faults⟩
    have hend : d.phBsize * b' + 0 = d.phBsize * blk + u + (buf.take (w + v)).length := by
      rw [List.length_take, Nat.min_eq_left (by rw [List.length_drop] at hv; omega), hb', hpos hne]
      omega
    rw [h₃.disk, h₁₂.phBsize, h₂.disk, hfront hne, hend, List.drop_drop, ← Mem.write_append,
      List.take_append_drop]
  · rw [if_neg htail]
    refine Prog.Sat.pure ?_
    rintro d₂ rfl
    refine ⟨h₁₂.phBsize, h₁₂.phRefctr, h₁₂.partOffset, h₁₂.partSize, ?_, h₁₂.faults⟩
    rw [h₂.disk]
    by_cases hne : buf.drop w = []
    · rw [hne, List.take_nil, Mem.write_nil]
      rw [List.drop_eq_nil_iff] at hne
      rw [List.take_of_length_le hne]
    · rw [hfront hne, List.take_of_length_le]
      simp only [List.length_drop, ne_eq, Decidable.not_not] at htail
      omega

/-- Head and tail of a read give the bytes of their block. -/
theorem sat_readThrough {blk u n : ℕ} (h : u + n ≤ d.phBsize) :
    Prog.Sat (· = d) (readThrough blk u n)
      (fun bs d' => bs = d.disk.read (d.phBsize * blk + u) n ∧ d.Holds d.disk d') d.Broken := by
  refine Prog.Sat.bind (sat_bdifBread d blk 1) fun b => Prog.Sat.of_forall fun d₁ h₁ => ?_
  obtain ⟨rfl, h₁⟩ := h₁
  refine Prog.Sat.modify_bind (M := fun s => d.Holds d.disk s ∧
    ∃ q, s.phBbuf = Mem.write q 0 (d.disk.read (d.phBsize * blk) (d.phBsize * 1))) ?_ ?_
  · refine Prog.Sat.get_bind ?_
    rintro d₂ ⟨h₂, q, hq⟩
    refine Prog.Sat.pure ?_
    rintro _ rfl
    exact ⟨by rw [hq, Mem.read_write_read _ _ (by omega)], h₂⟩
  · rintro s rfl
    exact ⟨h₁.buffer _, _, rfl⟩

theorem sat_readHead {blk u : ℕ} (hu : u < d.phBsize) (len : ℕ) :
    Prog.Sat (· = d) (readHead u blk len)
      (fun r d' => ∃ w ≤ len, r.1 = d.disk.read (d.phBsize * blk + u) w ∧ r.2.1 = len - w ∧
        d.Holds d.disk d' ∧ (r.2.1 ≠ 0 → d.phBsize * r.2.2 = d.phBsize * blk + u + w)) d.Broken := by
  unfold readHead
  by_cases h0 : u ≠ 0
  · rw [if_pos h0]
    refine Prog.Sat.get_bind ?_
    rintro d rfl
    simp only
    generalize hw : (if len < d.phBsize - u then len else d.phBsize - u) = w
    have hlen : w ≤ len ∧ u + w ≤ d.phBsize ∧ (w < len → u + w = d.phBsize) := by
      split_ifs at hw <;> omega
    refine Prog.Sat.bind (sat_readThrough hlen.2.1) fun bs => Prog.Sat.pure ?_
    rintro d' ⟨rfl, h⟩
    refine ⟨w, hlen.1, rfl, rfl, h, fun hne => ?_⟩
    simp only at hne ⊢
    rw [Nat.mul_succ, ← hlen.2.2 (by omega)]
    omega
  · obtain rfl : u = 0 := by omega
    rw [if_neg h0]
    refine Prog.Sat.pure ?_
    rintro d rfl
    exact ⟨0, Nat.zero_le _, rfl, rfl, .refl d, fun _ => rfl⟩

theorem sat_readBlocks (blk : ℕ) (hB : 0 < d.phBsize) (len : ℕ) :
    Prog.Sat (· = d) (readBlocks blk len)
      (fun r d' => ∃ w ≤ len, r.1 = d.disk.read (d.phBsize * blk) w ∧ r.2.1 = len - w ∧
        r.2.1 < d.phBsize ∧ d.Holds d.disk d' ∧ d.phBsize * r.2.2 = d.phBsize * blk + w)
      d.Broken := by
  refine Prog.Sat.get_bind ?_
  rintro d rfl
  have hdm := Nat.div_add_mod len d.phBsize
  have hml := Nat.mod_lt len hB
  simp only
  by_cases h0 : len / d.phBsize ≠ 0
  · rw [if_pos h0]
    refine Prog.Sat.bind (sat_bdifBread d blk _) fun bs => Prog.Sat.pure ?_
    rintro d' ⟨rfl, h⟩
    refine ⟨d.phBsize * (len / d.phBsize), by omega, rfl, rfl, ?_, h, Nat.mul_add _ _ _⟩
    simp only
    omega
  · rw [if_neg h0]
    refine Prog.Sat.pure ?_
    rintro d rfl
    have hz : len / d.phBsize = 0 := by omega
    rw [hz, Nat.mul_zero] at hdm
    exact ⟨0, Nat.zero_le _, rfl, rfl, show len < d.phBsize by omega, .refl d, rfl⟩

/-- **Head, blocks and tail** read the bytes from the first one on, and change
    none. -/
theorem sat_readAll {blk u : ℕ} (hu : u < d.phBsize) (len : ℕ) :
    Prog.Sat (· = d)
      (do let (bs, len, blockIdx) ← readHead u blk len
          let (bs', len, blockIdx) ← readBlocks blockIdx len
          if len ≠ 0 then
            let bs'' ← readThrough blockIdx 0 len
            pure (bs ++ bs' ++ bs'')
          else pure (bs ++ bs'))
      (fun bs d' => bs = d.disk.read (d.phBsize * blk + u) len ∧ d.Holds d.disk d') d.Broken := by
  refine Prog.Sat.bind (sat_readHead hu len) fun r => Prog.Sat.of_forall fun d₁ h => ?_
  obtain ⟨bs, len₁, b⟩ := r
  obtain ⟨w, hw, rfl, rfl, h₁, hpos⟩ := h
  simp only at hpos ⊢
  refine Prog.Sat.bind ((sat_readBlocks b (by rw [h₁.phBsize]; omega) _).conseq (fun _ => id)
    (fun _ _ => id) fun _ _ h => h₁.broken h) fun r => Prog.Sat.of_forall fun d₂ h => ?_
  obtain ⟨bs, len₂, b'⟩ := r
  obtain ⟨v, hv, rfl, rfl, hlt, h₂, hb'⟩ := h
  simp only at hlt hb' ⊢
  have h₁₂ := h₁.trans h₂
  rw [h₁.phBsize] at hlt hb' ⊢
  rw [h₁.disk] at h₁₂ ⊢
  -- the first two steps have read one after the other
  have hfront : d.disk.read (d.phBsize * blk + u) w ++ d.disk.read (d.phBsize * b) v =
      d.disk.read (d.phBsize * blk + u) (w + v) := by
    rw [Mem.read_append]
    by_cases hv0 : v = 0
    · subst hv0; rfl
    · rw [hpos (by omega)]
  by_cases htail : len - w - v ≠ 0
  · rw [if_pos htail]
    refine Prog.Sat.bind ((sat_readThrough (by rw [h₁₂.phBsize]; omega)).conseq (fun _ => id)
      (fun _ _ => id) fun _ _ h => h₁₂.broken h) fun bs => Prog.Sat.pure ?_
    rintro d₃ ⟨rfl, h₃⟩
    have h₄ := h₁₂.trans h₃
    rw [h₁₂.disk] at h₄
    refine ⟨?_, h₄⟩
    have hend : d.phBsize * b' + 0 = d.phBsize * blk + u + (w + v) := by
      rw [hb', hpos (by omega)]
      omega
    rw [hfront, h₁₂.phBsize, h₁₂.disk, hend, ← Mem.read_append]
    congr 1
    omega
  · rw [if_neg htail]
    refine Prog.Sat.pure ?_
    rintro d₂ rfl
    rw [hfront]
    exact ⟨congrArg _ (by omega), h₁₂⟩

end Steps

/-! ## The range of a request -/

namespace Bdev

/-- An open device with a partition of whole blocks, inside the 64-bit range. -/
structure Sound (d : Bdev) : Prop where
  isOpen : d.phRefctr ≠ 0
  pow : ∃ k < 32, d.phBsize = 2 ^ k
  aligned : d.phBsize ∣ d.partOffset
  fits : d.partOffset + d.partSize ≤ 2 ^ 64
  width : d.partSize < 2 ^ 64

/-- What is asked of a request at `off`, of the bytes `buf` when it writes and
    of as many bytes when it reads. -/
structure ExactAt (d : Bdev) (off : ℕ) (buf : List Byte) : Prop where
  writes : off + buf.length ≤ d.partSize → ∀ d', blockWritebytes off buf d = (.ok (), d') →
    d'.disk = d.disk.write (d.partOffset + off) buf
  reads : off + buf.length ≤ d.partSize → ∀ bs d', blockReadbytes off buf.length d = (.ok bs, d') →
    bs = d.disk.read (d.partOffset + off) buf.length ∧ d'.disk = d.disk
  readBack : off + buf.length ≤ d.partSize → ∀ d' bs d'', blockWritebytes off buf d = (.ok (), d') →
    blockReadbytes off buf.length d' = (.ok bs, d'') → bs = buf
  total : off + buf.length ≤ d.partSize → d.faults = [] → ∃ d' bs d'',
    blockWritebytes off buf d = (.ok (), d') ∧ blockReadbytes off buf.length d' = (.ok bs, d'')
  writeOutside : d.partSize < off + buf.length →
    blockWritebytes off buf d = (.error Errno.EINVAL, d)
  readOutside : d.partSize < off + buf.length →
    blockReadbytes off buf.length d = (.error Errno.EINVAL, d)

theorem Sound.phBsize_pos {d : Bdev} (h : d.Sound) : 0 < d.phBsize := by
  obtain ⟨k, -, hk⟩ := h.pow
  rw [hk]
  exact Nat.two_pow_pos k

/-- The mask of the source. -/
theorem Sound.unalg {d : Bdev} (h : d.Sound) (off : ℕ) :
    off &&& (d.phBsize - 1) = off % d.phBsize := by
  obtain ⟨k, -, hk⟩ := h.pow
  rw [hk, Nat.and_two_pow_sub_one_eq_mod]

theorem Sound.unalg_lt {d : Bdev} (h : d.Sound) (off : ℕ) :
    off &&& (d.phBsize - 1) < d.phBsize := by
  rw [h.unalg]
  exact Nat.mod_lt _ h.phBsize_pos

/-- The address of the first byte. -/
theorem Sound.address {d : Bdev} (h : d.Sound) {off : ℕ} (hlt : off + d.partOffset < 2 ^ 64) :
    d.phBsize * (u64 (off + d.partOffset) / d.phBsize) + (off &&& (d.phBsize - 1)) =
      d.partOffset + off := by
  obtain ⟨c, hc⟩ := h.aligned
  have hdiv : (off + d.partOffset) / d.phBsize = off / d.phBsize + c := by
    rw [hc, Nat.add_mul_div_left _ _ h.phBsize_pos]
  have hdm := Nat.div_add_mod off d.phBsize
  rw [u64_of_lt hlt, h.unalg, hdiv, Nat.mul_add, ← hc]
  omega

/-- Another state of the device is sound too. -/
theorem Sound.of_holds {d d' : Bdev} {m : Mem} (h : d.Sound) (hd : d.Holds m d') : d'.Sound := by
  refine ⟨?_, ?_, ?_, ?_, ?_⟩
  · rw [hd.phRefctr]
    exact h.isOpen
  · rw [hd.phBsize]
    exact h.pow
  · rw [hd.phBsize, hd.partOffset]
    exact h.aligned
  · rw [hd.partOffset, hd.partSize]
    exact h.fits
  · rw [hd.partSize]
    exact h.width

end Bdev

section Requests

variable {d : Bdev}

theorem blockWritebytes_outside (hs : d.Sound) {off : ℕ} {buf : List Byte}
    (h : d.partSize < u64 (off + buf.length)) :
    blockWritebytes off buf d = (.error Errno.EINVAL, d) := by
  rw [blockWritebytes, Prog.bind_run, Prog.get_run]
  simp only [if_neg hs.isOpen, if_pos h, Prog.fail_run]

theorem blockReadbytes_outside (hs : d.Sound) {off len : ℕ} (h : d.partSize < u64 (off + len)) :
    blockReadbytes off len d = (.error Errno.EINVAL, d) := by
  rw [blockReadbytes, Prog.bind_run, Prog.get_run]
  simp only [if_neg hs.isOpen, if_pos h, Prog.fail_run]

/-- A call that can fail on device errors only does not where there are none. -/
theorem Bdev.exists_ok_of_sat {α : Type} {x : BdevM α} {Q : α → Bdev → Prop}
    (h : Prog.Sat (· = d) x Q d.Broken) (hf : d.faults = []) : ∃ a d', x d = (.ok a, d') := by
  rcases hx : x d with ⟨e | a, d'⟩
  · exact absurd hf (h.error rfl hx).2
  · exact ⟨a, d', rfl⟩

theorem Bdev.ne_einval_of_sat {α : Type} {x : BdevM α} {Q : α → Bdev → Prop}
    (h : Prog.Sat (· = d) x Q d.Broken) (d' : Bdev) : x d ≠ (.error Errno.EINVAL, d') := by
  intro hx
  exact absurd (h.error rfl hx).1 (by decide)

/-- A write past the check. -/
theorem sat_blockWritebytes (hs : d.Sound) {off : ℕ} {buf : List Byte}
    (h : ¬ d.partSize < u64 (off + buf.length)) :
    Prog.Sat (· = d) (blockWritebytes off buf)
      (fun _ => d.Holds (d.disk.write (d.phBsize * (u64 (off + d.partOffset) / d.phBsize) +
        (off &&& (d.phBsize - 1))) buf)) d.Broken := by
  unfold blockWritebytes
  refine Prog.Sat.get_bind ?_
  rintro d rfl
  rw [if_neg hs.isOpen, if_neg h]
  exact sat_writeAll (hs.unalg_lt off) buf

/-- A read past the check. -/
theorem sat_blockReadbytes (hs : d.Sound) {off len : ℕ} (h : ¬ d.partSize < u64 (off + len)) :
    Prog.Sat (· = d) (blockReadbytes off len)
      (fun bs d' => bs = d.disk.read (d.phBsize * (u64 (off + d.partOffset) / d.phBsize) +
        (off &&& (d.phBsize - 1))) len ∧ d.Holds d.disk d') d.Broken := by
  unfold blockReadbytes
  refine Prog.Sat.get_bind ?_
  rintro d rfl
  rw [if_neg hs.isOpen, if_neg h]
  exact sat_readAll (hs.unalg_lt off) len

/-- Inside the partition the check passes, and the bytes are those from
    `partOffset + off` on; an empty request may start at its end. -/
theorem Bdev.Sound.inside (hs : d.Sound) {off len : ℕ} (hin : off + len ≤ d.partSize) :
    ¬ d.partSize < u64 (off + len) ∧ (len ≠ 0 →
      d.phBsize * (u64 (off + d.partOffset) / d.phBsize) + (off &&& (d.phBsize - 1)) =
        d.partOffset + off) := by
  have hfits := hs.fits
  have hwidth := hs.width
  refine ⟨?_, fun hne => hs.address (by omega)⟩
  rw [u64_of_lt (by omega)]
  omega

/-- A write inside. -/
theorem sat_blockWritebytes_inside (hs : d.Sound) {off : ℕ} {buf : List Byte}
    (hin : off + buf.length ≤ d.partSize) :
    Prog.Sat (· = d) (blockWritebytes off buf)
      (fun _ => d.Holds (d.disk.write (d.partOffset + off) buf)) d.Broken := by
  obtain ⟨hck, haddr⟩ := hs.inside hin
  refine (sat_blockWritebytes hs hck).conseq (fun _ => id) (fun _ d' h => ?_) fun _ _ => id
  by_cases hne : buf = []
  · subst hne
    rw [Mem.write_nil] at h ⊢
    exact h
  · rw [haddr (by rwa [ne_eq, List.length_eq_zero_iff])] at h
    exact h

/-- A read inside. -/
theorem sat_blockReadbytes_inside (hs : d.Sound) {off len : ℕ}
    (hin : off + len ≤ d.partSize) :
    Prog.Sat (· = d) (blockReadbytes off len)
      (fun bs d' => bs = d.disk.read (d.partOffset + off) len ∧ d.Holds d.disk d') d.Broken := by
  obtain ⟨hck, haddr⟩ := hs.inside hin
  refine (sat_blockReadbytes hs hck).conseq (fun _ => id) (fun _ d' h => ⟨?_, h.2⟩) fun _ _ => id
  by_cases hne : len = 0
  · subst hne
    exact h.1
  · rw [h.1, haddr hne]

end Requests

/-- **Byte access is exact if and only if the sum of offset and length is
    checked without wrapping, or exceeds the partition also when it wraps.** -/
theorem blockBytes_exact_iff (d : Bdev) (hs : d.Sound) (off : ℕ) (buf : List Byte)
    (hoff : off < 2 ^ 64) (hbuf : buf.length < 2 ^ 32) :
    d.ExactAt off buf ↔
      (off + buf.length < 2 ^ 64 ∨ d.partSize < off + buf.length - 2 ^ 64) := by
  constructor
  · intro h
    by_contra hn
    rw [not_or, Nat.not_lt, Nat.not_lt] at hn
    have hwidth := hs.width
    have hck : ¬ d.partSize < u64 (off + buf.length) := by
      rw [u64]
      omega
    exact Bdev.ne_einval_of_sat (sat_blockWritebytes hs hck) _ (h.writeOutside (by omega))
  · intro h
    have hck : d.partSize < off + buf.length → d.partSize < u64 (off + buf.length) := by
      rw [u64]
      omega
    have hwrite : off + buf.length ≤ d.partSize → Prog.Sat (· = d) (blockWritebytes off buf)
        (fun _ => d.Holds (d.disk.write (d.partOffset + off) buf)) d.Broken :=
      fun hin => sat_blockWritebytes_inside hs hin
    have hread : ∀ d' m, d.Holds m d' → off + buf.length ≤ d.partSize →
        Prog.Sat (· = d') (blockReadbytes off buf.length)
          (fun bs s => bs = m.read (d.partOffset + off) buf.length ∧ d'.Holds m s) d'.Broken := by
      intro d' m hd hin
      have h := sat_blockReadbytes_inside (hs.of_holds hd) (hd.partSize ▸ hin)
      rwa [hd.partOffset, hd.disk] at h
    refine ⟨?_, ?_, ?_, ?_, ?_, ?_⟩
    · intro hin d' hw
      exact ((hwrite hin).ok rfl hw).disk
    · intro hin bs d' hr
      have h := (hread d _ (.refl d) hin).ok rfl hr
      exact ⟨h.1, h.2.disk⟩
    · intro hin d' bs d'' hw hr
      have hd := (hwrite hin).ok rfl hw
      rw [((hread d' _ hd hin).ok rfl hr).1, Mem.read_write]
    · intro hin hf
      obtain ⟨_, d', hw⟩ := Bdev.exists_ok_of_sat (hwrite hin) hf
      have hd := (hwrite hin).ok rfl hw
      obtain ⟨bs, d'', hr⟩ := Bdev.exists_ok_of_sat (hread d' _ hd hin) (hd.faults hf)
      exact ⟨d', bs, d'', hw, hr⟩
    · intro hout
      exact blockWritebytes_outside hs (hck hout)
    · intro hout
      exact blockReadbytes_outside hs (hck hout)

/-- A partition of four blocks of 4 bytes behind the first two blocks. -/
def Bdev.small : Bdev :=
  { phBsize := 4, phRefctr := 1, phBbuf := fun _ => 0, partOffset := 8, partSize := 16,
    disk := fun i => BitVec.ofNat 8 i, faults := [] }

theorem Bdev.small_sound : Bdev.small.Sound :=
  ⟨by decide, ⟨2, by decide, rfl⟩, ⟨2, rfl⟩, by decide, by decide⟩

/-- Seven bytes over three blocks. -/
theorem blockBytes_exact_small : Bdev.small.ExactAt 3 [1, 2, 3, 4, 5, 6, 7] :=
  (blockBytes_exact_iff Bdev.small Bdev.small_sound 3 [1, 2, 3, 4, 5, 6, 7] (by decide)
    (by decide)).2 (.inl (by decide))

/-- Four bytes at `2 ^ 64 - 4` pass the check, and are written in front of the
    partition. -/
theorem blockBytes_wrapped :
    let off := 2 ^ 64 - 4
    let r := blockWritebytes off [9, 9, 9, 9] Bdev.small
    r.1 = .ok () ∧ r.2.disk 4 = 9 ∧ Bdev.small.disk 4 = 4 ∧
      ¬ Bdev.small.ExactAt off [9, 9, 9, 9] := by
  have hrun : (blockWritebytes (2 ^ 64 - 4) [9, 9, 9, 9] Bdev.small).1 = .ok () := by
    decide +kernel
  refine ⟨hrun, by decide +kernel, by decide +kernel, ?_⟩
  intro h
  rw [h.writeOutside (by decide)] at hrun
  cases hrun

end Lwext4
