/-
  Files as strings of bytes (`ext4.c` over `ext4_fs.c` and `ext4_extent.c`).

  A volume has any number of files with extents.  `ext4_fwrite` looks its blocks up in the extent
  tree of the file and appends new ones to it, `ext4_fread` looks them up, and
  `ext4_fs_truncate_inode` removes them; all files take their blocks from one allocator, and others
  take and give back blocks and write to theirs in between.  A byte of a file is the byte of the
  device that the tree maps it to (`Volume.bytes`).

  Positions are inside the file or at its end.  Requests are smaller than 4 GiB and files have fewer
  than `2 ^ 32` blocks.  Any operation may fail in any call, but for the lookups of a read, the
  releases of blocks and a device write of no blocks; a truncation that fails is not followed.

  What a caller expects are strings of bytes: a write replaces or appends bytes, a read returns
  the bytes of its file, and no call changes another file (`Strings.Step`).
-/
import Lwext4.ExtentLife
import Lwext4.Fread
import Lwext4.FwriteFront
import Lwext4.Lib.Splice

namespace Lwext4

open Lib

/-! ## Appending several blocks -/

/-- The error of a call; a failed assertion does not return one. -/
def Stop.errno : Stop → Errno
  | .rc e => e
  | .assert => Errno.EIO

section Appends

variable (bs fuel : ℕ) (alloc : ℕ → (used : ℕ → Bool) → ExtEnv used) (s : ExtInode)

/-- Up to `n` blocks are appended, until one cannot be had; `alloc i` is what the `i`-th call
    meets with. -/
def ExtInode.appendN : ℕ → Except Stop Unit × ExtInode
  | 0 => (.ok (), s)
  | n + 1 =>
    match ExtInode.appendN n with
    | (.error e, s') => (.error e, s')
    | (.ok _, s') =>
      match s'.ext4FsAppendInodeDblk bs fuel (alloc n s'.used) with
      | (.error e, s'') => (.error e, s'')
      | (.ok _, s'') => (.ok (), s'')

/-- The block that the `n`-th of these calls returns. -/
def ExtInode.appended (n : ℕ) : Except Stop ℕ :=
  match s.appendN bs fuel alloc n with
  | (.error e, _) => .error e
  | (.ok _, s') =>
    match (s'.ext4FsAppendInodeDblk bs fuel (alloc n s'.used)).1 with
    | .error e => .error e
    | .ok r => .ok r.1

end Appends

/-! ## The volume -/

/-- The inode of a file with extents. -/
structure FileInode where
  size : ℕ
  tree : Tree

/-- A volume with the files `F`; `dev` is the device without the nodes of the trees. -/
structure Volume (F : Type) where
  file : F → FileInode
  used : ℕ → Bool
  dev : Mem

/-- What a call of `ext4_fwrite` meets with: how the operations end, and what the lookups and
    the appends find. -/
structure FwIo (used : ℕ → Bool) where
  start : Except Errno Unit
  getRef : Except Errno Unit
  write : ℕ → Except Errno Unit
  writeBackOn : Except Errno Unit
  writeBackOff : Except Errno Unit
  stop : Except Errno Unit
  isOpen : Bool
  getRef_open : getRef = .ok () → isOpen = true
  look : ℕ → ExtEnv used
  alloc : ℕ → (used : ℕ → Bool) → ExtEnv used

/-- What a call of `ext4_fread` meets with, and the buffer it is given. -/
structure FrIo (used : ℕ → Bool) where
  getRef : Except Errno Unit
  read : ℕ → Except Errno Unit
  look : ℕ → ExtEnv used
  buf : Mem

namespace Volume

variable {F : Type} [DecidableEq F] (bs fuel : ℕ) (v : Volume F)

/-- A file as the code below sees it. -/
def inode (f : F) : ExtInode := ⟨(v.file f).size, (v.file f).tree, v.used⟩

/-- The volume with another inode for `f`. -/
def withInode (f : F) (s : ExtInode) : Volume F :=
  { v with file := Function.update v.file f ⟨s.size, s.tree⟩, used := s.used }

/-- Byte `x` of a file. -/
def byte (f : F) (x : ℕ) : Byte :=
  match (v.file f).tree.map (x / bs) with
  | some (b, _) => v.dev (b * bs + x % bs)
  | none => 0

/-- The content of a file. -/
def bytes (f : F) : List Byte := (List.range (v.file f).size).map (v.byte bs f)

/-- The call of `ext4_fwrite` on file `f` at `pos`, with the bytes `d`.  No extent is unwritten,
    and the cache holds no dirty buffer of a block of a file. -/
def fwCall (io : FwIo v.used) (f : F) (pos : ℕ) (d : List Byte) : FwCall where
  env :=
    { start := io.start
      getRef := io.getRef
      init k :=
        ((v.inode f).ext4FsGetInodeDblkIdxInternal bs fuel (io.look k) k true true).1.mapError
          Stop.errno
      goal _ := .error Errno.EIO
      alloc _ _ := .error Errno.EIO
      setIndex _ _ := .error Errno.EIO
      extent k := ((v.inode f).appended bs fuel io.alloc
        (k - sizeBlocksCnt bs (v.file f).size)).mapError Stop.errno
      write := io.write
      writeBackOn := io.writeBackOn
      writeBackOff := io.writeBackOff
      stop := io.stop
      isOpen := io.isOpen
      zeroed _ := none
      dirty _ := false
      getRef_open := io.getRef_open
      zeroed_init _ _ _ _ h := absurd h.symm (Option.some_ne_none _)
      zeroed_extent _ _ _ _ h := absurd h.symm (Option.some_ne_none _) }
  readOnly := false
  extents := true
  blockSize := bs
  fpos := pos
  fsize := (v.file f).size
  inodeSize := (v.file f).size
  size := d.length
  wcnt := some 0

/-- The volume after the call, which has tried to append `a` blocks. -/
def wrote (io : FwIo v.used) (f : F) (d : List Byte) (st : FwState) (a : ℕ) : Volume F :=
  { v.withInode f { ((v.inode f).appendN bs fuel io.alloc a).2 with size := st.inodeSize } with
    dev := fun i => match st.dev i with
      | some j => d.getD j 0
      | none => v.dev i }

/-- The number of appends tried: those that the size counts, and perhaps one that has failed. -/
def Tried (io : FwIo v.used) (f : F) (pos : ℕ) (d : List Byte) (st : FwState) (a : ℕ) : Prop :=
  sizeBlocksCnt bs (v.file f).size + a = (st.inodeSize + bs - 1) / bs ∨
    sizeBlocksCnt bs (v.file f).size + a = (st.inodeSize + bs - 1) / bs + 1 ∧
      (st.inodeSize + bs - 1) / bs * bs < pos + d.length ∧
      ∃ e, ((v.inode f).appendN bs fuel io.alloc a).1 = .error e

/-- The call of `ext4_fread` on file `f` at `pos`, for `n` bytes. -/
def frCall (io : FrIo v.used) (f : F) (pos n : ℕ) : FrCall where
  env :=
    { getRef := io.getRef
      blockSize := bs
      inodeSize := (v.file f).size
      softlink := false
      blocksCount := 0
      inline := fun _ => 0
      map k :=
        ((v.inode f).ext4FsGetInodeDblkIdxInternal bs fuel (io.look k) k false true).1.mapError
          Stop.errno
      dev := v.dev
      read := io.read }
  fpos := pos
  fsize := (v.file f).size
  buf := io.buf
  rcnt := some 0
  size := n

end Volume

/-- A call on the files `F`, with what the caller sees of its result: `cnt` is what `wcnt` says and
    `clean` that nothing has failed, `got` are the bytes read. -/
inductive FileCall (F : Type) where
  | write (f : F) (pos : ℕ) (d : List Byte) (cnt : ℕ) (clean : Bool)
  | read (f : F) (pos n : ℕ) (got : List Byte)
  | truncate (f : F) (size : ℕ)
  | others

/-- A block that a file holds. -/
def Volume.Has {F : Type} (v : Volume F) (f : F) (b : ℕ) : Prop :=
  b ∈ (v.file f).tree.root.blocks ∨ ∃ k w, (v.file f).tree.map k = some (b, w)

/-- A step of the volume. -/
inductive Volume.Step {F : Type} [DecidableEq F] (bs : ℕ) :
    Volume F → FileCall F → Volume F → Prop
  | write {v : Volume F} {f : F} {pos : ℕ} {d : List Byte} {fuel a cnt : ℕ} {io : FwIo v.used}
      {rc : Except Errno Unit} {st : FwState} (hd : d ≠ []) (hpos : pos ≤ (v.file f).size)
      (hlen : d.length < 2 ^ 32) (hend : (pos + d.length + bs - 1) / bs < 2 ^ 32) (hfuel : 2 ≤ fuel)
      (hset : (v.fwCall bs fuel io f pos d).Settled) (hfrees : ∀ i used, (io.alloc i used).Frees)
      (hrun : (v.fwCall bs fuel io f pos d).run = some (rc, st)) (hcnt : st.wcnt = some cnt)
      (ha : v.Tried bs fuel io f pos d st a) :
      Step bs v (.write f pos d cnt st.failures.isEmpty) (v.wrote bs fuel io f d st a)
  | read {v : Volume F} {f : F} {pos n fuel cnt : ℕ} {io : FrIo v.used} {st : FrState}
      (hn : n ≠ 0) (hpos : pos ≤ (v.file f).size) (hlen : n < 2 ^ 32)
      (hfile : (v.file f).size < 2 ^ 64) (hlook : ∀ k, (io.look k).faults = [])
      (hrun : (v.frCall bs fuel io f pos n).run = some (.ok (), st)) (hcnt : st.rcnt = some cnt) :
      Step bs v (.read f pos n ((List.range cnt).map st.buf)) v
  | truncate {v : Volume F} {f : F} {fuel size : ℕ} {canTruncate : Bool} {env : ExtEnv v.used}
      {s : ExtInode} (hfrees : env.Frees)
      (hrun : (v.inode f).ext4FsTruncateInode bs fuel env canTruncate size = (.ok (), s)) :
      Step bs v (.truncate f size) (v.withInode f s)
  | others {v : Volume F} {used : ℕ → Bool} {dev : Mem}
      (hused : ∀ f b, v.Has f b → used b = true)
      (hdev : ∀ f b, v.Has f b → ∀ i < bs, dev (b * bs + i) = v.dev (b * bs + i)) :
      Step bs v .others { v with used := used, dev := dev }

/-! ## Calls on strings -/

/-- What a write makes of a string: the first `cnt` bytes of `d` are in it from `pos` on.  If
    something has failed, blocks may have come behind them that are not written; if nothing has,
    all of `d` is there and nothing else. -/
structure Spliced (s s' : List Byte) (pos : ℕ) (d : List Byte) (cnt : ℕ) (clean : Bool) : Prop where
  le : cnt ≤ d.length
  written : splice s pos (d.take cnt) <+: s'
  clean : clean = true → cnt = d.length ∧ s' = splice s pos d

/-- A step of a store of strings. -/
inductive Strings.Step {F : Type} [DecidableEq F] :
    (F → List Byte) → FileCall F → (F → List Byte) → Prop
  | write {σ : F → List Byte} {f : F} {pos cnt : ℕ} {d s' : List Byte} {clean : Bool}
      (hpos : pos ≤ (σ f).length) (h : Spliced (σ f) s' pos d cnt clean) :
      Step σ (.write f pos d cnt clean) (Function.update σ f s')
  | read {σ : F → List Byte} {f : F} {pos n : ℕ} (hpos : pos ≤ (σ f).length) :
      Step σ (.read f pos n (((σ f).drop pos).take n)) σ
  | truncate {σ : F → List Byte} {f : F} {size : ℕ} (hsize : size ≤ (σ f).length) :
      Step σ (.truncate f size) (Function.update σ f ((σ f).take size))
  | others {σ : F → List Byte} : Step σ .others σ

end Lwext4
