/-
  `ext4_fread` (`ext4.c`).

  A block of the file is looked up as a block of the device, 0 for a hole or an
  unwritten extent.  Whole blocks are collected in runs that follow each other on
  the device; the block with which a run ends begins the next one.

  Main result: `fread_law_iff`.
-/
import Lwext4.FwriteLoop
import Lwext4.Lib.Bytes

namespace Lwext4

open Lib

/-- What the filesystem below `ext4_fread` does during a call, for a regular file
    or a symlink: `ext4_fs_get_inode_ref`, the inode, `ext4_fs_get_inode_dblk_idx`
    by the logical block, and the device, whose reads may fail by the place in the
    buffer. -/
structure FrEnv where
  getRef : Except Errno Unit
  blockSize : ℕ
  inodeSize : ℕ
  softlink : Bool
  blocksCount : ℕ
  /-- `inode->blocks`, as bytes. -/
  inline : Mem
  map : ℕ → Except Errno ℕ
  dev : Mem
  read : ℕ → Except Errno Unit

/-- The file handle, the caller's buffer and `rcnt`, `none` for a null pointer. -/
structure FrState where
  fpos : ℕ
  fsize : ℕ
  buf : Mem
  rcnt : Option ℕ

/-- `n` bytes are at `pos` in the buffer. -/
def FrState.put (st : FrState) (pos n : ℕ) (f : Mem) : FrState :=
  { st with buf := fun i => if pos ≤ i ∧ i < pos + n then f (i - pos) else st.buf i }

/-- `fpos += n` and `*rcnt += n`. -/
def FrState.advance (st : FrState) (n : ℕ) : FrState :=
  { st with fpos := st.fpos + n, rcnt := st.rcnt.map (· + n) }

/-- The variables of the loops: `iblock_idx`, `fblock`, `fblock_start` and
    `fblock_count`. -/
structure FrRun where
  iblk : ℕ
  fblk : ℕ
  start : ℕ
  count : ℕ

section

variable (env : FrEnv)

/-- A read from the device, from byte `off` on. -/
def frDevRead (off pos n : ℕ) (st : FrState) : Except Errno FrState :=
  match env.read pos with
  | .error e => .error e
  | .ok _ => .ok (st.put pos n fun i => env.dev (off + i))

/-- The inner loop: blocks are looked up as long as they follow each other. -/
def frFetchRun (last : ℕ) : (fuel : ℕ) → FrRun → Option (Except Errno FrRun)
  | 0, _ => none
  | fuel + 1, r =>
    if ¬ r.iblk < last then some (.ok r)
    else match env.map r.iblk with
      | .error e => some (.error e)
      | .ok b =>
        let start := if r.start = 0 then b else r.start
        let r := { r with iblk := r.iblk + 1, fblk := b, start := start }
        if start + r.count ≠ b then some (.ok r)
        else frFetchRun last fuel { r with count := r.count + 1 }

/-- A run of blocks goes to the buffer; without a first block it is zeros. -/
def frRunToBuf (r : FrRun) (pos : ℕ) (st : FrState) : Except Errno FrState :=
  let n := u32 (env.blockSize * r.count)
  if r.start = 0 then .ok (st.put pos n fun _ => 0)
  else frDevRead env (r.start * env.blockSize) pos (env.blockSize * r.count) st

/-- The outer loop: the state, the rest of the size, the place in the buffer and
    `iblock_idx`. -/
def frLoop (last : ℕ) : (fuel size pos : ℕ) → FrRun → FrState →
    Option (Except Errno (ℕ × ℕ × ℕ) × FrState)
  | 0, _, _, _, _ => none
  | fuel + 1, size, pos, r, st =>
    if size < env.blockSize then some (.ok (size, pos, r.iblk), st)
    else match frFetchRun env last (last + 1) r with
      | none => none
      | some (.error e) => some (.error e, st)
      | some (.ok r) =>
        match frRunToBuf env r pos st with
        | .error e => some (.error e, st)
        | .ok st =>
          let n := u32 (env.blockSize * r.count)
          frLoop last fuel (size - n) (pos + n) { r with start := r.fblk, count := 1 }
            (st.advance n)

/-- The part in front of the first whole block. -/
def frHead (size : ℕ) (st : FrState) : Except Errno (ℕ × ℕ × ℕ) × FrState :=
  let iblk := u32 (st.fpos / env.blockSize)
  let unalg := st.fpos % env.blockSize
  if unalg = 0 then (.ok (size, 0, iblk), st)
  else
    let len := if size > env.blockSize - unalg then env.blockSize - unalg else size
    match env.map iblk with
    | .error e => (.error e, st)
    | .ok b =>
      let r := if b ≠ 0 then frDevRead env (b * env.blockSize + unalg) 0 len st
        else .ok (st.put 0 len fun _ => 0)
      match r with
      | .error e => (.error e, st)
      | .ok st => (.ok (size - len, len, iblk + 1), st.advance len)

/-- The part behind the last whole block. -/
def frTail (size pos iblk : ℕ) (st : FrState) : Except Errno Unit × FrState :=
  if size = 0 then (.ok (), st)
  else
    match env.map iblk with
    | .error e => (.error e, st)
    | .ok b =>
      match frDevRead env (b * env.blockSize) pos size st with
      | .error e => (.error e, st)
      | .ok st => (.ok (), st.advance size)

/-- The blocks of a file. -/
def frBlocks (size : ℕ) (st : FrState) : Option (Except Errno Unit × FrState) :=
  let last := u32 ((st.fpos + size) / env.blockSize)
  match frHead env size st with
  | (.error e, st) => some (.error e, st)
  | (.ok (size, pos, iblk), st) =>
    match frLoop env last (size + 1) size pos ⟨iblk, 0, 0, 0⟩ st with
    | none => none
    | some (.error e, st) => some (.error e, st)
    | some (.ok (size, pos, iblk), st) => some (frTail env size pos iblk st)

/-- The target of a symlink that lies in the inode. -/
def frInline (size : ℕ) (st : FrState) : FrState :=
  let unalg := st.fpos % env.blockSize
  if st.fpos < st.fsize then
    let len := if unalg + size > u32 st.fsize then u32 st.fsize - unalg else size
    { st.put 0 len fun i => env.inline (unalg + i) with rcnt := st.rcnt.map fun _ => len }
  else st

/-- `ext4_fread`; `wronly` is `O_WRONLY` of the handle. -/
def ext4Fread (wronly : Bool) (size : ℕ) (st : FrState) : Option (Except Errno Unit × FrState) :=
  if wronly then some (.error Errno.EPERM, st)
  else if size = 0 then some (.ok (), st)
  else
    let st := { st with rcnt := st.rcnt.map fun _ => 0 }
    match env.getRef with
    | .error e => some (.error e, st)
    | .ok _ =>
      let st := { st with fsize := env.inodeSize }
      let left := sub64 st.fsize st.fpos
      let size := if size > left then left else size
      if env.softlink ∧ st.fsize < 60 ∧ env.blocksCount = 0 then some (.ok (), frInline env size st)
      else frBlocks env size st

end

/-! ## Blocks and bytes -/

namespace FrEnv

variable (env : FrEnv)

/-- The block that a logical block is looked up as. -/
def blk (k : ℕ) : ℕ := (env.map k).toOption.getD 0

/-- A byte of a block; block 0 stands for a hole. -/
def blockByte (b i : ℕ) : Byte := if b = 0 then 0 else env.dev (b * env.blockSize + i)

/-- The content of the file. -/
def content (x : ℕ) : Byte :=
  env.blockByte (env.blk (x / env.blockSize)) (x % env.blockSize)

/-- The block that is read for a logical block: for a hole it is the next one, if
    that is read, too. -/
def src (last k : ℕ) : ℕ :=
  if env.blk k ≠ 0 then env.blk k else if k + 1 < last then env.blk (k + 1) else 0

/-- The byte that is delivered for a place in the file: those in front of the
    first whole block are right. -/
def delivered (first last x : ℕ) : Byte :=
  let k := x / env.blockSize
  let i := x % env.blockSize
  if k < first then env.content x
  else if k < last then env.blockByte (env.src last k) i
  else env.dev (env.blk k * env.blockSize + i)

end FrEnv

section

variable {env : FrEnv} {last k₀ : ℕ} {r : FrRun}

theorem blk_of_map {k b : ℕ} (h : env.map k = .ok b) : env.blk k = b := by
  rw [FrEnv.blk, h]
  rfl

/-! ## The inner loop -/

/-- The run from block `k₀` on in the inner loop: nothing, a hole, or blocks that
    follow each other. -/
structure FrInner (env : FrEnv) (last k₀ : ℕ) (r : FrRun) : Prop where
  idx : k₀ + r.count = r.iblk
  le : r.iblk ≤ last
  run : r.count = 0 ∧ r.start = 0 ∨ r.count = 1 ∧ r.start = 0 ∧ env.blk k₀ = 0 ∨
    0 < r.count ∧ r.start ≠ 0 ∧ ∀ t < r.count, env.blk (k₀ + t) = r.start + t

/-- The run that the inner loop ends with; unless all blocks are taken one more
    has been looked up. -/
structure FrGot (env : FrEnv) (last k₀ : ℕ) (r : FrRun) : Prop where
  pos : 0 < r.count
  le : k₀ + r.count ≤ last
  follow : 1 < r.count → r.start ≠ 0 ∧ ∀ t < r.count, env.blk (k₀ + t) = r.start + t
  run : r.start = 0 ∧ r.count = 1 ∧ env.src last k₀ = 0 ∨
    r.start ≠ 0 ∧ ∀ t < r.count, env.src last (k₀ + t) = r.start + t
  next : k₀ + r.count = last ∧ r.iblk = last ∨
    k₀ + r.count < last ∧ r.iblk = k₀ + r.count + 1 ∧ r.fblk = env.blk (k₀ + r.count)

theorem src_of_blk {k : ℕ} (h : env.blk k ≠ 0) : env.src last k = env.blk k := by
  rw [FrEnv.src, if_pos h]

/-- More than one block in a run follow each other. -/
theorem FrInner.follow (h : FrInner env last k₀ r) (hc : 1 < r.count) :
    r.start ≠ 0 ∧ ∀ t < r.count, env.blk (k₀ + t) = r.start + t := by
  rcases h.run with ⟨h0, -⟩ | ⟨h1, -⟩ | ⟨-, hs, hrun⟩
  · omega
  · omega
  · exact ⟨hs, hrun⟩

/-- All blocks are taken. -/
theorem FrInner.got (h : FrInner env last k₀ r) (hk : k₀ < last) (hlast : r.iblk = last) :
    FrGot env last k₀ r := by
  have hidx := h.idx
  refine ⟨by omega, by omega, h.follow, ?_, .inl ⟨by omega, hlast⟩⟩
  rcases h.run with ⟨hc, -⟩ | ⟨hc, hs, hb⟩ | ⟨-, hs, hrun⟩
  · omega
  · refine .inl ⟨hs, hc, ?_⟩
    rw [FrEnv.src, if_neg (not_not.2 hb), if_neg (by omega)]
  · refine .inr ⟨hs, fun t ht => ?_⟩
    rw [src_of_blk (by rw [hrun t ht]; omega), hrun t ht]

/-- The next block does not follow. -/
theorem FrInner.broken {b : ℕ} (h : FrInner env last k₀ r) (hlt : r.iblk < last)
    (hb : env.blk r.iblk = b) (hne : (if r.start = 0 then b else r.start) + r.count ≠ b) :
    FrGot env last k₀ ⟨r.iblk + 1, b, if r.start = 0 then b else r.start, r.count⟩ := by
  have hidx := h.idx
  have hfblk : b = env.blk (k₀ + r.count) := by rw [hidx, hb]
  rcases h.run with ⟨hc, hs⟩ | ⟨hc, hs, hb₀⟩ | ⟨hc, hs, hrun⟩
  · rw [if_pos hs, hc] at hne
    exact absurd rfl hne
  · have hsrc : env.src last k₀ = b := by
      rw [FrEnv.src, if_neg (not_not.2 hb₀), if_pos (by omega), hfblk, hc]
    rw [if_pos hs]
    refine ⟨by dsimp only; omega, by dsimp only; omega, fun h1 => ?_, ?_,
      .inr ⟨by dsimp only; omega, ?_, hfblk⟩⟩
    · dsimp only at h1
      omega
    · by_cases h0 : b = 0
      · exact .inl ⟨h0, hc, hsrc.trans h0⟩
      · refine .inr ⟨h0, fun t ht => ?_⟩
        obtain rfl : t = 0 := by
          dsimp only at ht
          omega
        exact hsrc
    · dsimp only
      omega
  · rw [if_neg hs]
    refine ⟨hc, by dsimp only; omega, fun _ => ⟨hs, hrun⟩, .inr ⟨hs, fun t ht => ?_⟩,
      .inr ⟨by dsimp only; omega, ?_, hfblk⟩⟩
    · have ht' : t < r.count := ht
      rw [src_of_blk (by rw [hrun t ht']; omega), hrun t ht']
    · dsimp only
      omega

/-- The next block follows. -/
theorem FrInner.join {b : ℕ} (h : FrInner env last k₀ r) (hlt : r.iblk < last)
    (hb : env.blk r.iblk = b) (heq : (if r.start = 0 then b else r.start) + r.count = b) :
    FrInner env last k₀ ⟨r.iblk + 1, b, if r.start = 0 then b else r.start, r.count + 1⟩ := by
  have hidx := h.idx
  refine ⟨by dsimp only; omega, hlt, ?_⟩
  rcases h.run with ⟨hc, hs⟩ | ⟨hc, hs, -⟩ | ⟨hc, hs, hrun⟩
  · rw [if_pos hs]
    have hk : k₀ = r.iblk := by omega
    by_cases h0 : b = 0
    · exact .inr (.inl ⟨by dsimp only; omega, h0, by rw [hk, hb, h0]⟩)
    · refine .inr (.inr ⟨Nat.succ_pos _, h0, fun t ht => ?_⟩)
      obtain rfl : t = 0 := by
        dsimp only at ht
        omega
      rw [Nat.add_zero, hk, hb]
      rfl
  · rw [if_pos hs, hc] at heq
    omega
  · rw [if_neg hs] at heq ⊢
    refine .inr (.inr ⟨Nat.succ_pos _, hs, fun t ht => ?_⟩)
    dsimp only at ht ⊢
    by_cases htc : t < r.count
    · exact hrun t htc
    · obtain rfl : t = r.count := by omega
      rw [hidx, hb, heq]

/-- **The inner loop.** -/
theorem fetchRun_got (h : FrInner env last k₀ r) (hk : k₀ < last) {fuel : ℕ}
    (hfuel : last < fuel + r.iblk) :
    ∃ out, frFetchRun env last fuel r = some out ∧ ∀ r', out = .ok r' → FrGot env last k₀ r' := by
  induction fuel generalizing r with
  | zero =>
    have hle := h.le
    omega
  | succ fuel ih =>
    rw [frFetchRun]
    by_cases hlt : r.iblk < last
    · rw [if_neg (not_not.2 hlt)]
      cases hmap : env.map r.iblk with
      | error e => exact ⟨_, rfl, nofun⟩
      | ok b =>
        have hb := blk_of_map hmap
        dsimp only
        by_cases hne : (if r.start = 0 then b else r.start) + r.count ≠ b
        · rw [if_pos hne]
          refine ⟨_, rfl, fun r' hr => ?_⟩
          cases hr
          exact h.broken hlt hb hne
        · rw [if_neg hne]
          exact ih (h.join hlt hb (not_not.1 hne)) (by dsimp only; omega)
    · rw [if_pos hlt]
      refine ⟨_, rfl, fun r' hr => ?_⟩
      cases hr
      have hle := h.le
      exact h.got hk (by omega)

end

/-! ## The call -/

/-- A call of `ext4_fread` on a regular file: the handle, the buffer, `rcnt` and the
    size of the request. -/
structure FrCall where
  env : FrEnv
  fpos : ℕ
  fsize : ℕ
  buf : Mem
  rcnt : Option ℕ
  size : ℕ

namespace FrCall

variable (c : FrCall)

/-- `file->fsize - file->fpos`, which wraps behind the end of the file. -/
def left : ℕ := sub64 c.env.inodeSize c.fpos

/-- The bytes that the call goes for. -/
def len : ℕ := if c.size > c.left then c.left else c.size

/-- The first whole block, the block behind the last one, and the bytes in it. -/
def first : ℕ := (c.fpos + c.env.blockSize - 1) / c.env.blockSize
def last : ℕ := (c.fpos + c.len) / c.env.blockSize
def rem : ℕ := (c.fpos + c.len) % c.env.blockSize

/-- What is delivered for byte `j` of the buffer. -/
def got (j : ℕ) : Byte := c.env.delivered c.first c.last (c.fpos + j)

/-- Sizes for which the 32-bit numbers of the source do not wrap: logical blocks
    have 32-bit numbers, and blocks that follow each other on the device are fewer
    than 4 GiB. -/
structure Fits : Prop where
  block : 0 < c.env.blockSize
  block_lt : c.env.blockSize < 2 ^ 32
  runs : ∀ k n, c.first ≤ k → k + n ≤ c.last → c.env.blk k ≠ 0 →
    (∀ t < n, c.env.blk (k + t) = c.env.blk k + t) → c.env.blockSize * n < 2 ^ 32
  last : (c.fpos + c.len) / c.env.blockSize < 2 ^ 32
  fpos : c.fpos < 2 ^ 64
  file : c.env.inodeSize < 2 ^ 64

/-- The first `n` bytes are delivered. -/
structure At (n : ℕ) (st : FrState) : Prop where
  fpos : st.fpos = c.fpos + n
  rcnt : st.rcnt = c.rcnt.map fun _ => n
  buf : st.buf = fun j => if j < n then c.got j else c.buf j

end FrCall

section

variable {c : FrCall} {st : FrState} {r : FrRun} {pos n k₀ size : ℕ} {f : Mem}

theorem FrCall.At.put (h : c.At pos st) (hf : ∀ i < n, f i = c.got (pos + i)) :
    c.At (pos + n) ((st.put pos n f).advance n) := by
  refine ⟨?_, ?_, ?_⟩
  · show st.fpos + n = _
    rw [h.fpos, Nat.add_assoc]
  · show st.rcnt.map (· + n) = _
    rw [h.rcnt, Option.map_map]
    rfl
  · funext j
    show (if pos ≤ j ∧ j < pos + n then f (j - pos) else st.buf j) = _
    by_cases hj : pos ≤ j ∧ j < pos + n
    · rw [if_pos hj, if_pos hj.2, hf _ (by omega), Nat.add_sub_cancel' hj.1]
    · rw [if_neg hj, h.buf]
      dsimp only
      by_cases hlt : j < pos
      · rw [if_pos hlt, if_pos (by omega)]
      · rw [if_neg hlt, if_neg (by omega)]

/-- Where byte `i` from block `k₀` on is. -/
theorem block_of_byte {bs i : ℕ} (hbs : 0 < bs) :
    (k₀ * bs + i) / bs = k₀ + i / bs ∧ (k₀ * bs + i) % bs = i % bs := by
  constructor
  · rw [Nat.add_comm, Nat.add_mul_div_right _ _ hbs, Nat.add_comm]
  · rw [Nat.add_comm, Nat.add_mul_mod_self_right]

/-- What is delivered for a whole block. -/
theorem FrCall.got_block {i t : ℕ} (hbs : 0 < c.env.blockSize)
    (hk : k₀ * c.env.blockSize = c.fpos + pos) (ht : i / c.env.blockSize = t)
    (hfirst : c.first ≤ k₀) (hlast : k₀ + t < c.last) : c.got (pos + i) =
      c.env.blockByte (c.env.src c.last (k₀ + t)) (i % c.env.blockSize) := by
  obtain ⟨hdiv, hmod⟩ := @block_of_byte k₀ c.env.blockSize i hbs
  rw [FrCall.got, FrEnv.delivered, ← Nat.add_assoc, ← hk, hdiv, hmod, ht, if_neg (by omega),
    if_pos hlast]

/-- A run is delivered. -/
theorem FrGot.deliver (h : FrGot c.env c.last k₀ r) (hbs : 0 < c.env.blockSize)
    (hk : k₀ * c.env.blockSize = c.fpos + pos) (hfirst : c.first ≤ k₀) (hst : c.At pos st)
    (hn : u32 (c.env.blockSize * r.count) = c.env.blockSize * r.count) {st' : FrState}
    (hrun : frRunToBuf c.env r pos st = .ok st') :
    c.At (pos + c.env.blockSize * r.count) (st'.advance (c.env.blockSize * r.count)) := by
  have hle := h.le
  have hdiv : ∀ i < c.env.blockSize * r.count, i / c.env.blockSize < r.count :=
    fun i hi => Nat.div_lt_of_lt_mul hi
  rw [frRunToBuf] at hrun
  rcases h.run with ⟨hs, hc, hsrc⟩ | ⟨hs, hsrc⟩
  · rw [if_pos hs, hn] at hrun
    cases hrun
    refine hst.put fun i hi => ?_
    have hlt := hdiv i hi
    generalize hq : i / c.env.blockSize = t at hlt
    obtain rfl : t = 0 := by omega
    rw [FrCall.got_block hbs hk hq hfirst (by omega), Nat.add_zero, hsrc]
    rfl
  · rw [if_neg hs, frDevRead] at hrun
    cases hread : c.env.read pos with
    | error e =>
      rw [hread] at hrun
      cases hrun
    | ok u =>
      rw [hread] at hrun
      cases hrun
      refine hst.put fun i hi => ?_
      have hlt := hdiv i hi
      have hmod := Nat.div_add_mod i c.env.blockSize
      generalize hq : i / c.env.blockSize = t at hlt hmod
      rw [FrCall.got_block hbs hk hq hfirst (by omega), hsrc t hlt, FrEnv.blockByte,
        if_neg (by omega), Nat.add_mul, Nat.add_assoc, Nat.mul_comm t, hmod]

/-! ## The outer loop -/

/-- The block with which the last run has ended is pending. -/
def FrPending (env : FrEnv) (last k₀ : ℕ) (r : FrRun) : Prop :=
  r.count = 0 ∧ r.start = 0 ∧ r.iblk = k₀ ∨
    r.count = 1 ∧ r.start = env.blk k₀ ∧ k₀ < last ∧ r.iblk = k₀ + 1 ∨ k₀ = last ∧ r.iblk = last

theorem FrPending.inner {env : FrEnv} {last : ℕ} (h : FrPending env last k₀ r) (hlt : k₀ < last) :
    FrInner env last k₀ r := by
  rcases h with ⟨hc, hs, hi⟩ | ⟨hc, hs, -, hi⟩ | ⟨hk, -⟩
  · exact ⟨by omega, by omega, .inl ⟨hc, hs⟩⟩
  · refine ⟨by omega, by omega, .inr ?_⟩
    by_cases h0 : r.start = 0
    · exact .inl ⟨hc, h0, by rw [← hs, h0]⟩
    · refine .inr ⟨by omega, h0, fun t ht => ?_⟩
      obtain rfl : t = 0 := by omega
      rw [Nat.add_zero, hs, Nat.add_zero]
  · omega

theorem FrGot.pending {env : FrEnv} {last : ℕ} (h : FrGot env last k₀ r) :
    FrPending env last (k₀ + r.count) { r with start := r.fblk, count := 1 } := by
  rcases h.next with ⟨hk, hi⟩ | ⟨hlt, hi, hb⟩
  · exact .inr (.inr ⟨hk, hi⟩)
  · exact .inr (.inl ⟨rfl, hb, hlt, hi⟩)

/-- The bytes of a run are counted with 32 bits. -/
theorem FrGot.bytes_lt (h : FrGot c.env c.last k₀ r) (hfits : c.Fits) (hfirst : c.first ≤ k₀) :
    c.env.blockSize * r.count < 2 ^ 32 := by
  by_cases h1 : 1 < r.count
  · obtain ⟨hs, hrun⟩ := h.follow h1
    have hstart : c.env.blk k₀ = r.start := hrun 0 (by omega)
    refine hfits.runs k₀ r.count hfirst h.le (by rwa [hstart]) fun t ht => ?_
    rw [hstart]
    exact hrun t ht
  · have hpos := h.pos
    rw [show r.count = 1 by omega, Nat.mul_one]
    exact hfits.block_lt

/-- **The outer loop.** -/
theorem frLoop_spec (hfits : c.Fits) {fuel : ℕ} (hk : k₀ * c.env.blockSize = c.fpos + pos)
    (hsize : size = (c.last - k₀) * c.env.blockSize + c.rem) (hle : k₀ ≤ c.last)
    (hfirst : c.first ≤ k₀) (hr : FrPending c.env c.last k₀ r)
    (hst : c.At pos st) (hfuel : size < fuel) :
    ∃ out, frLoop c.env c.last fuel size pos r st = some out ∧
      ∀ s p i, out.1 = .ok (s, p, i) → s = c.rem ∧ i = c.last ∧
        c.last * c.env.blockSize = c.fpos + p ∧ c.At p out.2 := by
  have hbs := hfits.block
  have hrem : c.rem < c.env.blockSize := Nat.mod_lt _ hbs
  induction fuel generalizing size pos k₀ r st with
  | zero => omega
  | succ fuel ih =>
    rw [frLoop]
    by_cases hdone : size < c.env.blockSize
    · rw [if_pos hdone]
      have hlast : c.last = k₀ := by
        by_contra hne
        have hmul : c.env.blockSize ≤ (c.last - k₀) * c.env.blockSize :=
          Nat.le_mul_of_pos_left _ (by omega)
        omega
      refine ⟨_, rfl, fun s p i h => ?_⟩
      cases h
      refine ⟨?_, ?_, by rw [hlast, hk], hst⟩
      · rw [hsize, hlast, Nat.sub_self, Nat.zero_mul, Nat.zero_add]
      · rcases hr with ⟨-, -, hi⟩ | ⟨-, -, hlt', -⟩ | ⟨-, hi⟩
        · omega
        · omega
        · exact hi
    · rw [if_neg hdone]
      have hklt : k₀ < c.last := by
        by_contra hge
        rw [show c.last - k₀ = 0 by omega, Nat.zero_mul, Nat.zero_add] at hsize
        omega
      have hinner := hr.inner hklt
      have hidx := hinner.idx
      obtain ⟨out, hout, hgot⟩ := fetchRun_got hinner hklt
        (show c.last < c.last + 1 + r.iblk by omega)
      rw [hout]
      cases out with
      | error e => exact ⟨_, rfl, nofun⟩
      | ok r' =>
        have hg := hgot r' rfl
        have hpos := hg.pos
        have hle' := hg.le
        have hmul : c.env.blockSize * r'.count + (c.last - (k₀ + r'.count)) * c.env.blockSize =
            (c.last - k₀) * c.env.blockSize := by
          rw [Nat.mul_comm, ← Nat.add_mul]
          congr 1
          omega
        have hn : u32 (c.env.blockSize * r'.count) = c.env.blockSize * r'.count :=
          u32_of_lt (hg.bytes_lt hfits hfirst)
        have hbig : c.env.blockSize ≤ c.env.blockSize * r'.count := Nat.le_mul_of_pos_right _ hpos
        dsimp only
        cases hrun : frRunToBuf c.env r' pos st with
        | error e => exact ⟨_, rfl, nofun⟩
        | ok st' =>
          dsimp only
          rw [hn]
          refine ih ?_ (by omega) hle' (by omega) hg.pending
            (hg.deliver hbs hk hfirst hst hn hrun) (by omega)
          rw [Nat.add_mul, hk, Nat.mul_comm r'.count, Nat.add_assoc]

/-! ## The parts before and behind -/

theorem FrCall.Fits.first_block (hfits : c.Fits) :
    u32 (c.fpos / c.env.blockSize) = c.fpos / c.env.blockSize := by
  refine u32_of_lt (lt_of_le_of_lt (Nat.div_le_div_right ?_) hfits.last)
  omega

/-- A byte in front of the first whole block. -/
theorem FrCall.got_head {j : ℕ} (hbs : 0 < c.env.blockSize)
    (hun : c.fpos % c.env.blockSize ≠ 0)
    (hj : c.fpos % c.env.blockSize + j < c.env.blockSize) :
    c.got j = c.env.blockByte (c.env.blk (c.fpos / c.env.blockSize))
      (c.fpos % c.env.blockSize + j) := by
  have hdm := Nat.div_add_mod c.fpos c.env.blockSize
  have hx : c.fpos + j =
      c.fpos / c.env.blockSize * c.env.blockSize + (c.fpos % c.env.blockSize + j) := by
    rw [Nat.mul_comm]
    omega
  obtain ⟨hdiv, hmod⟩ := @block_of_byte (c.fpos / c.env.blockSize) c.env.blockSize
    (c.fpos % c.env.blockSize + j) hbs
  rw [Nat.div_eq_of_lt hj, Nat.add_zero] at hdiv
  rw [Nat.mod_eq_of_lt hj] at hmod
  have hfirst : c.first = c.fpos / c.env.blockSize + 1 := by
    rw [FrCall.first, ceil_eq hbs, if_neg hun]
  rw [FrCall.got, FrEnv.delivered, hx, hdiv, if_pos (by omega), FrEnv.content, hdiv, hmod]

/-- **The head.** -/
theorem frHead_spec (hfits : c.Fits) (hst : c.At 0 st) {s p i : ℕ} {st' : FrState}
    (h : frHead c.env c.len st = (.ok (s, p, i), st')) :
    c.At p st' ∧ s + p = c.len ∧ i = c.first ∧
      (s ≠ 0 → c.first * c.env.blockSize = c.fpos + p) := by
  have hbs := hfits.block
  have hfpos : st.fpos = c.fpos := hst.fpos
  have hdm := Nat.div_add_mod c.fpos c.env.blockSize
  have hmlt := Nat.mod_lt c.fpos hbs
  rw [frHead] at h
  simp only [hfpos, hfits.first_block] at h
  by_cases hun : c.fpos % c.env.blockSize = 0
  · rw [if_pos hun] at h
    cases h
    have hfirst : c.first = c.fpos / c.env.blockSize := by
      rw [FrCall.first, ceil_eq hbs, if_pos hun, Nat.add_zero]
    refine ⟨hst, rfl, hfirst.symm, fun _ => ?_⟩
    rw [hfirst, Nat.mul_comm]
    omega
  · rw [if_neg hun] at h
    have hfirst : c.first = c.fpos / c.env.blockSize + 1 := by
      rw [FrCall.first, ceil_eq hbs, if_neg hun]
    generalize hlen : (if c.len > c.env.blockSize - c.fpos % c.env.blockSize then
      c.env.blockSize - c.fpos % c.env.blockSize else c.len) = len at h
    have hle : len ≤ c.len ∧ len ≤ c.env.blockSize - c.fpos % c.env.blockSize ∧
        (len < c.len → len = c.env.blockSize - c.fpos % c.env.blockSize) := by
      split_ifs at hlen
      · omega
      · omega
    cases hmap : c.env.map (c.fpos / c.env.blockSize) with
    | error e =>
      rw [hmap] at h
      cases h
    | ok b =>
      have hb := blk_of_map hmap
      have hbyte : ∀ j < len, c.got (0 + j) =
          c.env.blockByte b (c.fpos % c.env.blockSize + j) := by
        intro j hj
        rw [Nat.zero_add, FrCall.got_head hbs hun (by omega), hb]
      rw [hmap] at h
      dsimp only at h
      generalize hr : (if b ≠ 0 then frDevRead c.env (b * c.env.blockSize +
        c.fpos % c.env.blockSize) 0 len st else .ok (st.put 0 len fun _ => 0)) = out at h
      cases out with
      | error e => cases h
      | ok st₁ =>
        have hat : c.At (0 + len) (st₁.advance len) := by
          by_cases h0 : b ≠ 0
          · rw [if_pos h0, frDevRead] at hr
            cases hread : c.env.read 0 with
            | error e =>
              rw [hread] at hr
              cases hr
            | ok u =>
              rw [hread] at hr
              cases hr
              refine hst.put fun j hj => ?_
              rw [hbyte j hj, FrEnv.blockByte, if_neg h0, Nat.add_assoc]
          · rw [if_neg h0] at hr
            cases hr
            refine hst.put fun j hj => ?_
            rw [hbyte j hj, FrEnv.blockByte, if_pos (not_not.1 h0)]
        rw [Nat.zero_add] at hat
        cases h
        refine ⟨hat, by omega, hfirst.symm, fun hs => ?_⟩
        rw [hfirst, Nat.add_mul, Nat.one_mul, Nat.mul_comm]
        omega

/-- **The tail.** -/
theorem frTail_spec (hbs : 0 < c.env.blockSize) (hfirst : c.first ≤ c.last)
    (hp : c.last * c.env.blockSize = c.fpos + pos) (hst : c.At pos st) {st' : FrState}
    (h : frTail c.env c.rem pos c.last st = (.ok (), st')) : c.At (pos + c.rem) st' := by
  rw [frTail] at h
  by_cases h0 : c.rem = 0
  · rw [if_pos h0] at h
    cases h
    rw [h0]
    exact hst
  · rw [if_neg h0] at h
    cases hmap : c.env.map c.last with
    | error e =>
      rw [hmap] at h
      cases h
    | ok b =>
      have hb := blk_of_map hmap
      rw [hmap] at h
      dsimp only at h
      rw [frDevRead] at h
      cases hread : c.env.read pos with
      | error e =>
        rw [hread] at h
        cases h
      | ok u =>
        rw [hread] at h
        cases h
        refine hst.put fun j hj => ?_
        have hlt : j < c.env.blockSize := hj.trans (Nat.mod_lt _ hbs)
        obtain ⟨hdiv, hmod⟩ := @block_of_byte c.last c.env.blockSize j hbs
        rw [Nat.div_eq_of_lt hlt, Nat.add_zero] at hdiv
        rw [Nat.mod_eq_of_lt hlt] at hmod
        rw [FrCall.got, FrEnv.delivered, ← Nat.add_assoc, ← hp, hdiv, hmod, if_neg (by omega),
          if_neg (lt_irrefl _), hb]

/-! ## The whole call -/

namespace FrCall

def begin (c : FrCall) : FrState := ⟨c.fpos, c.fsize, c.buf, c.rcnt⟩

def run (c : FrCall) : Option (Except Errno Unit × FrState) := ext4Fread c.env false c.size c.begin

end FrCall

/-- **What a call delivers.** -/
theorem blocks_spec (hfits : c.Fits) (hst : c.At 0 st) : ∃ out,
    frBlocks c.env c.len st = some out ∧ (out.1 = .ok () → c.At c.len out.2) := by
  have hbs := hfits.block
  have hfpos : st.fpos = c.fpos := hst.fpos
  have hlast : u32 ((st.fpos + c.len) / c.env.blockSize) = c.last := by
    rw [hfpos]
    exact u32_of_lt hfits.last
  rw [frBlocks, hlast]
  rcases hhead : frHead c.env c.len st with ⟨_ | ⟨s, p, i⟩, st₁⟩
  · exact ⟨_, rfl, nofun⟩
  · obtain ⟨hat, hsum, hi, hgo⟩ := frHead_spec hfits hst hhead
    dsimp only
    by_cases hs : s = 0
    · -- nothing is left behind the head
      subst hs
      have hloop : frLoop c.env c.last (0 + 1) 0 p ⟨i, 0, 0, 0⟩ st₁ =
          some (.ok (0, p, i), st₁) := by
        rw [frLoop, if_pos hbs]
      rw [hloop]
      dsimp only
      rw [frTail, if_pos rfl]
      refine ⟨_, rfl, fun _ => ?_⟩
      rw [← hsum, Nat.zero_add]
      exact hat
    · have hk := hgo hs
      have hdm := Nat.div_add_mod (c.fpos + c.len) c.env.blockSize
      have hle : c.first ≤ c.last := by
        rw [FrCall.last, Nat.le_div_iff_mul_le hbs, hk]
        omega
      have hmul : c.first * c.env.blockSize + (c.last - c.first) * c.env.blockSize =
          c.last * c.env.blockSize := by
        rw [← Nat.add_mul]
        congr 1
        omega
      have hend : c.last * c.env.blockSize + c.rem = c.fpos + c.len := by
        rw [FrCall.last, FrCall.rem, Nat.mul_comm]
        exact hdm
      have hpending : FrPending c.env c.last c.first ⟨i, 0, 0, 0⟩ := .inl ⟨rfl, rfl, hi⟩
      have hsize' : s = (c.last - c.first) * c.env.blockSize + c.rem := by omega
      obtain ⟨out, hout, hspec⟩ := frLoop_spec hfits hk hsize' hle le_rfl hpending hat
        (Nat.lt_succ_self s)
      rw [hout]
      rcases out with ⟨_ | ⟨s', p', i'⟩, st₂⟩
      · exact ⟨_, rfl, nofun⟩
      · obtain ⟨rfl, rfl, hp', hat'⟩ := hspec s' p' i' rfl
        dsimp only
        refine ⟨_, rfl, fun hok => ?_⟩
        rcases htail : frTail c.env c.rem p' c.last st₂ with ⟨r, st₃⟩
        rw [htail] at hok
        dsimp only at hok ⊢
        subst hok
        have hdone := frTail_spec hbs hle hp' hat' htail
        rwa [show p' + c.rem = c.len by omega] at hdone

/-! ## The exact condition -/

namespace FrCall

/-- What a read that returns without an error has to leave: all bytes up to the end
    of the file are delivered, counted and passed, and no others. -/
def Law (c : FrCall) (st : FrState) : Prop :=
  let n := min c.size (c.env.inodeSize - c.fpos)
  st.fpos = c.fpos + n ∧ (st.rcnt = c.rcnt.map fun _ => n) ∧
    ∀ j, st.buf j = if j < n then c.env.content (c.fpos + j) else c.buf j

/-- No hole is read as another block: a hole before the last whole block is followed
    by a hole or by zeros, and if the read ends in a hole the device begins with
    zeros. -/
structure HolesRead (c : FrCall) : Prop where
  whole : ∀ k, c.first ≤ k → k + 1 < c.last → c.env.blk k = 0 →
    ∀ i < c.env.blockSize, c.env.blockByte (c.env.blk (k + 1)) i = 0
  part : c.first ≤ c.last → c.env.blk c.last = 0 → ∀ i < c.rem, c.env.dev i = 0

/-- When a read does what it should. -/
def Safe (c : FrCall) : Prop :=
  if c.size = 0 then c.rcnt = none ∨ c.rcnt = some 0
  else c.fpos ≤ c.env.inodeSize ∧ c.HolesRead

end FrCall

/-- The bytes delivered are those of the file if no hole is read as another block. -/
theorem FrCall.got_iff (hbs : 0 < c.env.blockSize) :
    (∀ j < c.len, c.got j = c.env.content (c.fpos + j)) ↔ c.HolesRead := by
  have hdm := Nat.div_add_mod (c.fpos + c.len) c.env.blockSize
  have hend : c.last * c.env.blockSize + c.rem = c.fpos + c.len := by
    rw [FrCall.last, FrCall.rem, Nat.mul_comm]
    exact hdm
  have hceil : c.fpos ≤ c.first * c.env.blockSize := by
    have hd := Nat.div_add_mod c.fpos c.env.blockSize
    have hm := Nat.mod_lt c.fpos hbs
    rw [FrCall.first, ceil_eq hbs, Nat.add_mul, Nat.mul_comm (c.fpos / _)]
    split_ifs
    · omega
    · omega
  -- byte `i` of block `k`
  have hplace : ∀ k i, c.first ≤ k → i < c.env.blockSize → ∃ j,
      c.fpos + j = k * c.env.blockSize + i ∧ (c.fpos + j) / c.env.blockSize = k ∧
        (c.fpos + j) % c.env.blockSize = i := by
    intro k i hk hi
    have hmul := Nat.mul_le_mul_right c.env.blockSize hk
    obtain ⟨hdiv, hmod⟩ := @block_of_byte k c.env.blockSize i hbs
    rw [Nat.div_eq_of_lt hi, Nat.add_zero] at hdiv
    rw [Nat.mod_eq_of_lt hi] at hmod
    have heq : c.fpos + (k * c.env.blockSize + i - c.fpos) = k * c.env.blockSize + i := by omega
    exact ⟨_, heq, by rw [heq, hdiv], by rw [heq, hmod]⟩
  constructor
  · intro h
    refine ⟨fun k hk hlast hhole i hi => ?_, fun hle hhole i hi => ?_⟩
    · obtain ⟨j, hj, hdiv, hmod⟩ := hplace k i hk hi
      have hmul : (k + 1) * c.env.blockSize ≤ c.last * c.env.blockSize :=
        Nat.mul_le_mul_right _ hlast.le
      rw [Nat.add_mul, Nat.one_mul] at hmul
      have hgot := h j (by omega)
      rw [FrCall.got, FrEnv.delivered, hdiv, hmod, if_neg (by omega), if_pos (by omega),
        FrEnv.src, if_neg (not_not.2 hhole), if_pos hlast, FrEnv.content, hdiv, hhole] at hgot
      exact hgot
    · have hlt : i < c.env.blockSize := hi.trans (Nat.mod_lt _ hbs)
      obtain ⟨j, hj, hdiv, hmod⟩ := hplace c.last i hle hlt
      have hgot := h j (by omega)
      rw [FrCall.got, FrEnv.delivered, hdiv, hmod, if_neg (by omega), if_neg (lt_irrefl _),
        FrEnv.content, hdiv, hhole, Nat.zero_mul, Nat.zero_add] at hgot
      exact hgot
  · intro h j hj
    have hd := Nat.div_add_mod (c.fpos + j) c.env.blockSize
    have hm := Nat.mod_lt (c.fpos + j) hbs
    rw [FrCall.got, FrEnv.delivered, FrEnv.content]
    generalize hk : (c.fpos + j) / c.env.blockSize = k at hd ⊢
    generalize hi : (c.fpos + j) % c.env.blockSize = i at hd hm ⊢
    split_ifs with h1 h2
    · rfl
    · by_cases hhole : c.env.blk k = 0
      · rw [FrEnv.src, if_neg (not_not.2 hhole), hhole]
        split_ifs with hlast
        · rw [h.whole k (by omega) hlast hhole i hm]
          rfl
        · rfl
      · rw [src_of_blk hhole]
    · have hle : k ≤ c.last := by
        rw [← hk]
        exact Nat.div_le_div_right (by omega)
      obtain rfl : k = c.last := by omega
      rw [FrEnv.blockByte]
      split_ifs with hhole
      · rw [hhole, Nat.zero_mul, Nat.zero_add]
        refine h.part (by omega) hhole i ?_
        rw [Nat.mul_comm] at hd
        omega
      · rfl

/-- In front of the end of the file the read is cut off there. -/
theorem FrCall.len_eq (c : FrCall) (hfile : c.env.inodeSize < 2 ^ 64)
    (hpos : c.fpos ≤ c.env.inodeSize) :
    c.len = min c.size (c.env.inodeSize - c.fpos) := by
  have hleft : c.left = c.env.inodeSize - c.fpos := by
    rw [FrCall.left, sub64_of_le hpos hfile]
  rw [FrCall.len, hleft]
  split_ifs <;> omega

/-- Behind the end of the file it is not. -/
theorem FrCall.len_pos (c : FrCall) (hfits : c.Fits) (hpos : ¬c.fpos ≤ c.env.inodeSize)
    (hsize : c.size ≠ 0) : 0 < c.len := by
  have hfpos := hfits.fpos
  have hleft : 0 < c.left := by
    rw [FrCall.left, sub64]
    omega
  rw [FrCall.len]
  split_ifs <;> omega

end

/-- **When a read does what it should.** -/
theorem fread_law_iff (c : FrCall) (hfits : c.Fits) (hreg : c.env.softlink = false) :
    ∃ out, c.run = some out ∧ (out.1 = .ok () → (c.Law out.2 ↔ c.Safe)) := by
  rw [FrCall.run, ext4Fread, if_neg Bool.false_ne_true, FrCall.Safe]
  by_cases hsize : c.size = 0
  · rw [if_pos hsize, if_pos hsize]
    refine ⟨_, rfl, fun _ => ?_⟩
    rw [FrCall.Law, hsize, Nat.zero_min]
    simp only [FrCall.begin, Nat.not_lt_zero, if_false, Nat.add_zero, implies_true, and_true,
      true_and]
    cases c.rcnt with
    | none => simp
    | some n => simp
  · rw [if_neg hsize, if_neg hsize]
    cases hget : c.env.getRef with
    | error e => exact ⟨_, rfl, nofun⟩
    | ok u =>
      dsimp only
      rw [if_neg (by rw [hreg]; exact fun h => Bool.false_ne_true h.1)]
      have hstart : c.At 0 { c.begin with rcnt := c.begin.rcnt.map fun _ => 0
                                          fsize := c.env.inodeSize } :=
        ⟨rfl, rfl, funext fun j => (if_neg (Nat.not_lt_zero j)).symm⟩
      obtain ⟨out, hout, hspec⟩ := blocks_spec hfits hstart
      refine ⟨out, hout, fun hok => ?_⟩
      have hat := hspec hok
      by_cases hpos : c.fpos ≤ c.env.inodeSize
      · have hlen := c.len_eq hfits.file hpos
        rw [FrCall.Law, ← hlen, ← FrCall.got_iff hfits.block, hat.buf]
        dsimp only
        constructor
        · rintro ⟨-, -, hbuf⟩
          refine ⟨hpos, fun j hj => ?_⟩
          have hbyte := hbuf j
          rwa [if_pos hj, if_pos hj] at hbyte
        · rintro ⟨-, hgot⟩
          refine ⟨hat.fpos, hat.rcnt, fun j => ?_⟩
          split_ifs with hj
          · exact hgot j hj
          · rfl
      · have hlen := c.len_pos hfits hpos hsize
        refine iff_of_false ?_ fun h => hpos h.1
        rintro ⟨hf, -⟩
        rw [hat.fpos] at hf
        omega

/-- Two blocks are read of a file of two blocks, the first at `b` and the second at
    block 7 of a device that is full of ones. -/
def twoBlocks (b : ℕ) : FrCall where
  env :=
    { getRef := .ok ()
      blockSize := 1024
      inodeSize := 2048
      softlink := false
      blocksCount := 2
      inline := fun _ => 0
      map := fun k => .ok (if k = 0 then b else 7)
      dev := fun _ => 1
      read := fun _ => .ok () }
  fpos := 0
  fsize := 2048
  buf := fun _ => 255
  rcnt := some 0
  size := 2048

theorem twoBlocks_fits (b : ℕ) : (twoBlocks b).Fits := by
  have hfile : (twoBlocks b).env.inodeSize < 2 ^ 64 := show 2048 < 2 ^ 64 by decide
  have hlen : (twoBlocks b).len = 2048 := (twoBlocks b).len_eq hfile (Nat.zero_le 2048)
  refine ⟨show 0 < 1024 by decide, show 1024 < 2 ^ 32 by decide, fun k n _ hn _ _ => ?_, ?_,
    show 0 < 2 ^ 64 by decide, hfile⟩
  · rw [FrCall.last, hlen] at hn
    have hlast : k + n ≤ (0 + 2048) / 1024 := hn
    show 1024 * n < 2 ^ 32
    omega
  · rw [hlen]
    exact show (0 + 2048) / 1024 < 2 ^ 32 by decide

theorem fread_law_iff_two : ∃ out, (twoBlocks 6).run = some out ∧
    (out.1 = .ok () → ((twoBlocks 6).Law out.2 ↔ (twoBlocks 6).Safe)) :=
  fread_law_iff (twoBlocks 6) (twoBlocks_fits 6) rfl

/-- **A hole in front of a block reads as that block.** -/
theorem fread_law_wrong :
    ¬∀ c : FrCall, c.Fits → c.env.softlink = false →
      ∀ st, c.run = some (.ok (), st) → c.Law st := by
  intro hall
  have hrun : (match (twoBlocks 0).run with
    | some (.ok (), st) => st.buf 0 == 1
    | _ => false) = true := by decide +kernel
  rcases hr : (twoBlocks 0).run with _ | ⟨_ | ⟨⟩, st⟩
  · rw [hr] at hrun
    cases hrun
  · rw [hr] at hrun
    cases hrun
  · rw [hr] at hrun
    have hone : st.buf 0 = 1 := beq_iff_eq.1 hrun
    obtain ⟨-, -, hbuf⟩ := hall _ (twoBlocks_fits 0) rfl st hr
    have hzero : st.buf 0 = 0 := hbuf 0
    rw [hone] at hzero
    exact absurd hzero (by decide)

end Lwext4
