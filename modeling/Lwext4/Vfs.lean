/-
  The name space: directories, the calls that make, link, rename and remove
  names, and the walk along a path (`ext4.c`, with the parts of `ext4_fs.c`,
  `ext4_dir.c` and `ext4_dir_idx.c` they use).

  A directory is the list of its entries in the order the iterator meets
  them.  The dot entries of an indexed directory stand in its index root,
  where the search by hash does not look; those of a linear one are its first
  entries.  What the space on the device decides (which inode is free, whether
  an entry or a new directory finds room, where an entry lands) is answered by
  `choice` and `fill`, which the results leave arbitrary.  Transactions are
  not modelled: without a journal `ext4_trans_abort` takes nothing back.
-/
import Lwext4.Basic
import Lwext4.Lib.Bytes
import Lwext4.Lib.Prog

namespace Lwext4.Vfs

open Lib

abbrev Name := List Byte

/-- `EXT4_INODE_MODE_*` -/
inductive Mode where
  | fifo | chardev | directory | blockdev | file | softlink | socket
  deriving DecidableEq, Repr

/-- `EXT4_DE_*` -/
inductive FileType where
  | unknown | regFile | dir | chrdev | blkdev | fifo | sock | symlink
  deriving DecidableEq, Repr

/-- `ext4_fs_correspond_inode_mode` -/
def correspondInodeMode : FileType → Mode
  | .dir => .directory
  | .regFile => .file
  | .symlink => .softlink
  | .chrdev => .chardev
  | .blkdev => .blockdev
  | .fifo => .fifo
  | .sock => .socket
  | .unknown => .file

/-- The type `ext4_dir_write_entry` stores for an inode. -/
def Mode.entryType : Mode → FileType
  | .directory => .dir
  | .file => .regFile
  | .softlink => .symlink
  | .chardev => .chrdev
  | .blockdev => .blkdev
  | .fifo => .fifo
  | .socket => .sock

theorem correspond_entryType (m : Mode) : correspondInodeMode m.entryType = m := by
  cases m <;> rfl

def slash : Byte := 47
def dot : Name := [46]
def dotdot : Name := [46, 46]

/-- `ext4_is_dots` -/
def isDots (n : Name) : Bool := n = dot || n = dotdot

structure Entry where
  name : Name
  inode : ℕ
  type : FileType
  deriving DecidableEq, Repr

/-- An inode as the name space sees it.  `data` counts the blocks a truncation
    to size `0` gives back, `aux` those that go with the inode (indirect
    blocks, the attribute block). -/
structure Inode where
  mode : Mode
  links : ℕ
  /-- `EXT4_INODE_FLAG_INDEX` -/
  index : Bool
  /-- the dot entries in the index root -/
  dots : List Entry
  ents : List Entry
  content : List Byte
  data : ℕ
  aux : ℕ
  deriving Repr

/-- The entries in the order of the iterator. -/
def Inode.entries (n : Inode) : List Entry := n.dots ++ n.ents

/-- Where a new entry lands.  Nothing is put in front of dot entries at the
    beginning of a directory, since `.` leaves no room behind it and `..`
    follows it. -/
structure Placement where
  place : List Entry → Entry → List Entry
  front : ∀ d l e, (∀ x ∈ d, isDots x.name) → ∃ l', place (d ++ l) e = d ++ l' ∧ l'.Perm (e :: l)

/-- A new entry may land behind all others. -/
theorem place_last (d l : List Entry) (e : Entry) (_ : ∀ x ∈ d, isDots x.name) :
    ∃ l', (d ++ l) ++ [e] = d ++ l' ∧ l'.Perm (e :: l) :=
  ⟨l ++ [e], List.append_assoc .., List.perm_append_singleton e l⟩

/-- What the device answers when an entry is made: the inode the search finds,
    whether the directory has room, by how many blocks it grows and where the
    entry lands. -/
structure Choice where
  fresh : ℕ
  room : Bool
  grow : ℕ
  place : Placement

/-- A mounted file system. -/
structure Ns where
  inode : ℕ → Inode
  used : ℕ → Bool
  inodesCount : ℕ
  freeInodes : ℕ
  freeBlocks : ℤ
  /-- `EXT4_FCOM_DIR_INDEX` -/
  dirIndex : Bool
  /-- `EXT4_FINCOM_FILETYPE` -/
  filetype : Bool
  /-- `EXT4_FINCOM_EXTENTS`: whether the inodes map their blocks by extents -/
  extents : Bool
  readOnly : Bool
  /-- the answers for the entries to come, and how many were used -/
  choice : ℕ → Choice
  tick : ℕ
  /-- whether the first blocks of a directory find room -/
  fill : ℕ → Bool
  filled : ℕ

/-- The mount points with the file system of each. -/
structure World where
  mounts : List Name
  fs : ℕ → Ns

abbrev NsM := Prog Stop Ns
abbrev VfsM := Prog Stop World

/-- Run a program on the file system of mount point `m`. -/
def onFs {α : Type} (m : ℕ) (x : NsM α) : VfsM α := fun w =>
  ((x (w.fs m)).1, { w with fs := Function.update w.fs m (x (w.fs m)).2 })

/-- Run `h` when `x` fails; the error stays. -/
def onFail {σ α : Type} (x : Prog Stop σ α) (h : Prog Stop σ Unit) : Prog Stop σ α := fun s =>
  match x s with
  | (.ok a, s') => (.ok a, s')
  | (.error e, s') => (.error e, (h s').2)

/-- Whether `x` succeeds. -/
def succeeds {σ α : Type} (x : Prog Stop σ α) : Prog Stop σ Bool := fun s =>
  match x s with
  | (.ok _, s') => (.ok true, s')
  | (.error _, s') => (.ok false, s')

def Ns.setInode (s : Ns) (i : ℕ) (n : Inode) : Ns :=
  { s with inode := Function.update s.inode i n }

def modifyInode (i : ℕ) (f : Inode → Inode) : NsM Unit :=
  Prog.modify fun s => s.setInode i (f (s.inode i))

/-! ## Inodes -/

/-- `ext4_fs_inode_links_count_inc` -/
def fsInodeLinksCountInc (dirIndex : Bool) (n : Inode) : Inode :=
  let link := (n.links + 1) % 2 ^ 16
  if dirIndex && n.index && 1 < link && (65000 ≤ link || link == 2) then { n with links := 1 }
  else { n with links := link }

/-- `ext4_fs_inode_links_count_dec` -/
def fsInodeLinksCountDec (n : Inode) : Inode :=
  if n.mode ≠ .directory then { n with links := n.links - 1 }
  else if 2 < n.links then { n with links := n.links - 1 }
  else n

/-- The inode `ext4_fs_alloc_inode` writes. -/
def newInode (filetype : FileType) : Inode where
  mode := if filetype = .dir then .directory
    else if filetype = .symlink then .softlink
    else correspondInodeMode filetype
  links := 0
  index := false
  dots := []
  ents := []
  content := []
  data := 0
  aux := 0

def Ns.alloc (s : Ns) (i : ℕ) (n : Inode) : Ns :=
  { s with
    used := Function.update s.used i true
    freeInodes := s.freeInodes - 1
    inode := Function.update s.inode i n }

/-- `ext4_fs_alloc_inode` -/
def fsAllocInode (filetype : FileType) : NsM ℕ := do
  let s ← Prog.get
  let i := (s.choice s.tick).fresh
  if i = 0 ∨ s.inodesCount < i ∨ s.used i = true then
    Prog.fail (.rc .ENOSPC)
  else do
    Prog.modify fun s => s.alloc i (newInode filetype)
    pure i

def Ns.release (s : Ns) (i : ℕ) : Ns :=
  { s with
    used := Function.update s.used i false
    freeInodes := s.freeInodes + 1
    freeBlocks := s.freeBlocks + (s.inode i).aux
    inode := Function.update s.inode i { s.inode i with aux := 0 } }

/-- `ext4_fs_free_inode` -/
def fsFreeInode (i : ℕ) : NsM Unit := Prog.modify fun s => s.release i

def Ns.trunc (s : Ns) (i : ℕ) : Ns :=
  { s with
    freeBlocks := s.freeBlocks + (s.inode i).data
    inode := Function.update s.inode i
      { s.inode i with content := [], data := 0, dots := [], ents := [] } }

/-- `ext4_trunc_inode` and `ext4_fs_truncate_inode` to size `0` -/
def truncInode (i : ℕ) : NsM Unit := Prog.modify fun s => s.trunc i

/-! ## Directory entries -/

/-- `ext4_dir_find_entry` -/
def dirFindEntry (s : Ns) (parent : ℕ) (name : Name) : Option Entry :=
  (s.inode parent).ents.find? fun e => e.name = name

def Ns.addEntry (s : Ns) (parent : ℕ) (e : Entry) : Ns :=
  { s with
    tick := s.tick + 1
    freeBlocks := s.freeBlocks - (s.choice s.tick).grow
    inode := Function.update s.inode parent
      { s.inode parent with
        ents := (s.choice s.tick).place.place (s.inode parent).ents e
        data := (s.inode parent).data + (s.choice s.tick).grow } }

/-- `ext4_dir_add_entry` -/
def dirAddEntry (parent : ℕ) (name : Name) (child : ℕ) (mode : Mode) : NsM Unit := do
  let s ← Prog.get
  if (s.choice s.tick).room = false then
    Prog.fail (.rc .ENOSPC)
  else
    Prog.modify fun s => s.addEntry parent ⟨name, child, mode.entryType⟩

def Inode.erase (n : Inode) (name : Name) : Inode :=
  { n with ents := n.ents.eraseP fun e => e.name = name }

/-- `ext4_dir_remove_entry` -/
def dirRemoveEntry (parent : ℕ) (name : Name) : NsM Unit := do
  let s ← Prog.get
  if (s.inode parent).mode ≠ .directory then
    Prog.fail (.rc .ENOTDIR)
  else if (dirFindEntry s parent name).isNone then
    Prog.fail (.rc .ENOENT)
  else
    modifyInode parent fun n => n.erase name

/-- Room for the first blocks of a directory. -/
def takeFill : NsM Unit := do
  let s ← Prog.get
  if s.fill s.filled = false then
    Prog.fail (.rc .ENOSPC)
  else
    Prog.modify fun s => { s with filled := s.filled + 1 }

def dotEntries (dir parent : ℕ) : List Entry := [⟨dot, dir, .dir⟩, ⟨dotdot, parent, .dir⟩]

def Ns.dxInit (s : Ns) (dir parent : ℕ) : Ns :=
  { s with
    freeBlocks := s.freeBlocks - ((2 - (s.inode dir).data : ℕ) : ℤ)
    inode := Function.update s.inode dir
      { s.inode dir with
        dots := dotEntries dir parent, ents := [], data := max (s.inode dir).data 2 } }

/-- `ext4_dir_dx_init`.  Blocks `0` and `1` are there when the directory has
    its index; they become the index root and an empty leaf. -/
def dirDxInit (dir parent : ℕ) : NsM Unit := do
  let s ← Prog.get
  if (s.inode dir).index = true then
    pure ()
  else if (s.inode dir).data = 1 ∧ s.extents = false then
    -- block 1 of a linear directory is mapped to block 0, which cannot be put
    Prog.fail .assert
  else
    takeFill
  Prog.modify fun s => s.dxInit dir parent

def Ns.addDots (s : Ns) (dir parent : ℕ) : Ns :=
  { s with
    freeBlocks := s.freeBlocks - 1
    inode := Function.update s.inode dir
      { s.inode dir with ents := dotEntries dir parent, data := (s.inode dir).data + 1 } }

/-- Add `.` and `..` to a new linear directory; both go into its first block. -/
def dirAddDots (dir parent : ℕ) : NsM Unit := do
  takeFill
  Prog.modify fun s => s.addDots dir parent

def reparent (parent : ℕ) (e : Entry) : Entry :=
  if e.name = dotdot then { e with inode := parent } else e

/-- Point the `..` entry of a directory at another parent: the entry found by
    name, or the second one of the index root (`ext4_dir_dx_reset_parent_inode`). -/
def resetParent (dir parent : ℕ) : NsM Unit := do
  let s ← Prog.get
  if (s.inode dir).index = false then
    if (dirFindEntry s dir dotdot).isNone then
      Prog.fail (.rc Errno.EIO)
    else
      modifyInode dir fun n => { n with ents := n.ents.map (reparent parent) }
  else
    modifyInode dir fun n => { n with dots := n.dots.map (reparent parent) }

/-- `ext4_has_children` -/
def hasChildren (s : Ns) (i : ℕ) : Bool :=
  (s.inode i).mode = .directory && (s.inode i).entries.any fun e => !isDots e.name

/-- `EXT4_DIRECTORY_FILENAME_LEN` -/
def directoryFilenameLen : ℕ := 255

/-- Fill a new directory.  When a linear one finds no room its entry is taken
    out again, by the name that reaches to the end of the path string. -/
def linkFill (mp parent mc ch : ℕ) (path : List Byte) : VfsM Unit := do
  let s ← onFs mp Prog.get
  if s.dirIndex = true then do
    onFs mc (dirDxInit ch parent)
    onFs mc (modifyInode ch fun n => { n with index := true })
  else
    onFail (onFs mc (dirAddDots ch parent)) (onFs mp (dirRemoveEntry parent path))
  onFs mc (modifyInode ch fun n => { n with links := 2 })
  onFs mp (modifyInode parent (fsInodeLinksCountInc s.dirIndex))

/-- `ext4_link` of inode `ch` of mount point `mc` under the name `n`; `path` is
    the string `n` is the beginning of. -/
def link (mp parent mc ch : ℕ) (n : Name) (path : List Byte) (rename : Bool) : VfsM Unit := do
  if directoryFilenameLen < n.length then
    Prog.fail (.rc .EINVAL)
  else do
    let c ← onFs mc Prog.get
    onFs mp (dirAddEntry parent n ch (c.inode ch).mode)
    if (c.inode ch).mode = .directory then
      if rename = true then do
        onFs mc (resetParent ch parent)
        let p ← onFs mp Prog.get
        onFs mp (modifyInode parent (fsInodeLinksCountInc p.dirIndex))
      else
        linkFill mp parent mc ch path
    else if rename = true then
      pure ()
    else
      onFs mc (modifyInode ch (fsInodeLinksCountInc c.dirIndex))

/-- `ext4_unlink` -/
def unlink (parent child : ℕ) (name : Name) : NsM Unit := do
  let s ← Prog.get
  if hasChildren s child = true then
    Prog.fail (.rc .ENOTEMPTY)
  else do
    dirRemoveEntry parent name
    if (s.inode child).mode = .directory then modifyInode parent fsInodeLinksCountDec else pure ()
    modifyInode child fsInodeLinksCountDec

/-- `ext4_trunc_dir` -/
def truncDir (parent dir : ℕ) : NsM Unit := do
  let s ← Prog.get
  if (s.inode dir).mode ≠ .directory then
    Prog.fail (.rc .EINVAL)
  else do
    if s.dirIndex = true then dirDxInit dir parent else pure ()
    truncInode dir

/-! ## Paths -/

/-- `ext4_get_mount` for one mount point: its name begins the path and ends
    there at a separator. -/
def mountFits (name path : List Byte) : Bool :=
  name.isPrefixOf path &&
    !(1 < name.length && name.length < path.length && path[name.length]? != some slash)

/-- `ext4_get_mount`: the last of the longest names that fit. -/
def getMount (mounts : List Name) (path : List Byte) : Option ℕ :=
  (mounts.zipIdx.foldl (fun best m =>
    match best with
    | none => if mountFits m.1 path then some m else none
    | some b => if b.1.length ≤ m.1.length && mountFits m.1 path then some m else best)
    none).map Prod.snd

/-- The path behind the mount point's name, cut at its slashes.  The walk
    takes one component at a time, and the last one is the goal. -/
def components (mp path : List Byte) : List Name :=
  let rest := path.drop mp.length
  (if rest.head? = some slash then rest.tail else rest).splitOn slash

/-- The length `ext4_path_check` finds for a component: `0` when it does not
    end within `EXT4_DIRECTORY_FILENAME_LEN` bytes. -/
def pathCheck (n : Name) : ℕ := if n.length < directoryFilenameLen then n.length else 0

/-- The string a component is the beginning of. -/
def pathFrom (n : Name) (rest : List Name) : List Byte := [slash].intercalate (n :: rest)

/-- The type of the inode behind an entry, from the entry or from the inode. -/
def entryMode (s : Ns) (e : Entry) : Mode :=
  if s.filetype then correspondInodeMode e.type else (s.inode e.inode).mode

/-- What `ext4_generic_open2` finds: the inode, the directory it was found in
    and the last component, to which `name_off` points. -/
structure Opened where
  inode : ℕ
  parent : ℕ
  name : Name
  imode : Mode
  deriving DecidableEq, Repr

/-- Make the missing component `n` in `dir`. -/
def openCreate (m dir : ℕ) (filetype : FileType) (n : Name) (rest : List Name) : VfsM Unit := do
  let c ← onFs m (fsAllocInode filetype)
  onFail (link m dir m c n (pathFrom n rest) false) (onFs m (fsFreeInode c))

/-- Make the component `n` of `dir` unless it is there. -/
def openMake (m dir : ℕ) (creat : Bool) (filetype : FileType) (n : Name) (rest : List Name) :
    VfsM Unit := do
  let s ← onFs m Prog.get
  if (dirFindEntry s dir n).isSome = true then pure ()
  else if creat = true then openCreate m dir filetype n rest
  else Prog.fail (.rc .ENOENT)

/-- The loop of `ext4_generic_open2`. -/
def openWalk (m : ℕ) (creat : Bool) (ftype : FileType) :
    List Name → ℕ → ℕ → Mode → VfsM Opened
  | [], _, _, _ => Prog.fail (.rc .ENOENT)
  | n :: rest, dir, parent, imode => do
    if pathCheck n = 0 then
      if (ftype = .dir ∨ ftype = .unknown) ∧ n = [] ∧ rest = [] then
        pure ⟨dir, parent, n, imode⟩
      else
        Prog.fail (.rc .ENOENT)
    else do
      openMake m dir creat (if rest = [] then ftype else .dir) n rest
      let s ← onFs m Prog.get
      match dirFindEntry s dir n with
      | none => Prog.fail .assert
      | some e =>
        if entryMode s e ≠ .directory ∧ rest ≠ [] then
          Prog.fail (.rc .ENOENT)
        else if ftype ≠ .unknown ∧ entryMode s e ≠ correspondInodeMode ftype ∧ rest = [] then
          Prog.fail (.rc .ENOENT)
        else if rest = [] then
          pure ⟨e.inode, dir, n, entryMode s e⟩
        else
          openWalk m creat ftype rest e.inode dir (entryMode s e)

/-- The open flags the name space depends on. -/
structure OpenFlags where
  /-- `O_CREAT` -/
  creat : Bool
  /-- `O_TRUNC` -/
  trunc : Bool
  deriving DecidableEq, Repr

/-- `ext4_parse_flags` -/
def parseFlags (flags : String) : Option OpenFlags :=
  if flags = "r" ∨ flags = "rb" then some ⟨false, false⟩
  else if flags = "w" ∨ flags = "wb" then some ⟨true, true⟩
  else if flags = "a" ∨ flags = "ab" then some ⟨true, false⟩
  else if flags = "r+" ∨ flags = "rb+" ∨ flags = "r+b" then some ⟨false, false⟩
  else if flags = "w+" ∨ flags = "wb+" ∨ flags = "w+b" then some ⟨true, true⟩
  else if flags = "a+" ∨ flags = "ab+" ∨ flags = "a+b" then some ⟨true, false⟩
  else none

def getMp (path : List Byte) : VfsM ℕ := do
  let w ← Prog.get
  match getMount w.mounts path with
  | none => Prog.fail (.rc .ENOENT)
  | some m => pure m

/-- The components of a path below mount point `m`. -/
def World.comps (w : World) (m : ℕ) (path : List Byte) : List Name :=
  components (w.mounts.getD m []) path

/-- `EXT4_INODE_ROOT_INDEX` -/
def rootIndex : ℕ := 2

/-- `ext4_generic_open2` -/
def genericOpen2 (path : List Byte) (flags : OpenFlags) (ftype : FileType) : VfsM Opened := do
  let m ← getMp path
  let w ← Prog.get
  if (w.fs m).readOnly = true ∧ flags.creat = true then
    Prog.fail (.rc .EROFS)
  else do
    let o ← openWalk m flags.creat ftype (w.comps m path) rootIndex rootIndex .directory
    if flags.trunc = true ∧ o.imode = .file then onFs m (truncInode o.inode) else pure ()
    pure o

/-- `ext4_generic_open` -/
def genericOpen (path : List Byte) (flags : String) (fileExpect : Bool) : VfsM Opened :=
  match parseFlags flags with
  | none => Prog.fail (.rc .EINVAL)
  | some f => genericOpen2 path f (if fileExpect then .regFile else .dir)

/-- The loop of `ext4_create_hardlink`. -/
def hardlinkWalk (m mc child : ℕ) (rename : Bool) : List Name → ℕ → VfsM Unit
  | [], _ => Prog.fail (.rc .ENOENT)
  | n :: rest, dir => do
    if pathCheck n = 0 then
      Prog.fail (.rc (if n = [] ∧ rest = [] then .EINVAL else .ENOENT))
    else do
      let s ← onFs m Prog.get
      match dirFindEntry s dir n with
      | none =>
        if rest = [] then link m dir mc child n n rename
        else Prog.fail (.rc .ENOENT)
      | some e =>
        if rest = [] then Prog.fail (.rc .EEXIST)
        else if entryMode s e ≠ .directory then Prog.fail (.rc .ENOENT)
        else hardlinkWalk m mc child rename rest e.inode

/-- `ext4_create_hardlink` -/
def createHardlink (path : List Byte) (mc child : ℕ) (rename : Bool) : VfsM Unit := do
  let m ← getMp path
  let w ← Prog.get
  hardlinkWalk m mc child rename (w.comps m path) rootIndex

/-- `ext4_remove_orig_reference` -/
def removeOrigReference (parent child : ℕ) (name : Name) : NsM Unit := do
  dirRemoveEntry parent name
  let s ← Prog.get
  if (s.inode child).mode = .directory then modifyInode parent fsInodeLinksCountDec else pure ()

/-! ## The calls -/

/-- `ext4_flink` -/
def flink (path hardlinkPath : List Byte) : VfsM Unit := do
  let m ← getMp path
  let w ← Prog.get
  if (w.fs m).readOnly = true then
    Prog.fail (.rc .EROFS)
  else if getMount w.mounts hardlinkPath ≠ some m then
    Prog.fail (.rc .EINVAL)
  else do
    let o ← genericOpen2 path ⟨false, false⟩ .unknown
    if ((w.fs m).inode o.inode).mode = .directory then
      Prog.fail (.rc .EINVAL)
    else
      createHardlink hardlinkPath m o.inode false

/-- `ext4_frename` -/
def frename (path newPath : List Byte) : VfsM Unit := do
  let m ← getMp path
  let w ← Prog.get
  if (w.fs m).readOnly = true then
    Prog.fail (.rc .EROFS)
  else do
    let o ← genericOpen2 path ⟨false, false⟩ .unknown
    createHardlink newPath m o.inode true
    onFs m (removeOrigReference o.parent o.inode o.name)

/-- `ext4_dir_mv` -/
def dirMv (path newPath : List Byte) : VfsM Unit := frename path newPath

/-- Take the name of a file away, and the file with its last name. -/
def removeFile (parent child : ℕ) (name : Name) : NsM Unit := do
  let s ← Prog.get
  if (s.inode child).links = 1 then truncInode child else pure ()
  unlink parent child name
  let s ← Prog.get
  if (s.inode child).links = 0 then fsFreeInode child else pure ()

/-- `ext4_fremove`.  On a directory it does nothing and returns `EOK`. -/
def fremove (path : List Byte) : VfsM Unit := do
  let m ← getMp path
  let w ← Prog.get
  if (w.fs m).readOnly = true then
    Prog.fail (.rc .EROFS)
  else do
    let o ← genericOpen2 path ⟨false, false⟩ .unknown
    if ((w.fs m).inode o.inode).mode = .directory then
      pure ()
    else
      onFs m (removeFile o.parent o.inode o.name)

/-- `ext4_fopen` -/
def fopen (path : List Byte) (flags : String) : VfsM Unit := do
  let _ ← genericOpen path flags true
  pure ()

/-- `ext4_fopen2` -/
def fopen2 (path : List Byte) (flags : OpenFlags) : VfsM Unit := do
  let _ ← genericOpen2 path flags .regFile
  pure ()

/-- `ext4_dir_mk` -/
def dirMk (path : List Byte) : VfsM Unit := do
  let m ← getMp path
  let w ← Prog.get
  if (w.fs m).readOnly = true then
    Prog.fail (.rc .EROFS)
  else do
    let found ← succeeds (genericOpen path "r" false)
    if found = true then pure ()
    else do
      let _ ← genericOpen path "w" false
      pure ()

/-! ## Removing a directory -/

/-- The variables of `ext4_dir_rm`: the directory being read, the one above
    it, the depth below the directory to remove and the position in the
    directory. -/
structure RmPos where
  cur : ℕ
  up : ℕ
  depth : ℕ
  pos : ℕ
  deriving DecidableEq, Repr

/-- Remove one entry of `dir` with what it names. -/
def rmEntry (dir : ℕ) (e : Entry) : NsM Unit := do
  let s ← Prog.get
  if (s.inode e.inode).mode ≠ .directory then truncInode e.inode else truncDir dir e.inode
  unlink dir e.inode e.name
  modifyInode e.inode fun n => { n with links := 0 }
  fsFreeInode e.inode

/-- One round of the inner loop of `ext4_dir_rm`, with the step back to the
    directory above at the end of a directory. -/
def rmRound (p : RmPos) : NsM RmPos := do
  let s ← Prog.get
  match (s.inode p.cur).entries[p.pos]? with
  | none =>
    pure { cur := if p.depth - 1 = 0 then p.cur else p.up, up := p.up, depth := p.depth - 1,
           pos := 0 }
  | some e =>
    let up := if e.name = dotdot then e.inode else p.up
    if isDots e.name = true then
      pure { p with up := up, pos := p.pos + 1 }
    else if hasChildren s e.inode = true then
      pure { cur := e.inode, up := p.cur, depth := p.depth + 1, pos := 0 }
    else do
      rmEntry p.cur e
      pure { p with up := up }

/-- The loops of `ext4_dir_rm`, for a number of rounds. -/
def rmLoop : ℕ → RmPos → NsM RmPos
  | 0, _ => Prog.fail .assert
  | k + 1, p => do
    let p ← rmRound p
    if p.depth = 0 then pure p else rmLoop k p

/-- The entries below the dots, over all directories. -/
def Ns.entryCount (s : Ns) : ℕ :=
  ((List.range (s.inodesCount + 1)).map fun d =>
    ((s.inode d).entries.filter fun e => !isDots e.name).length).sum

/-- More rounds than a tree can take. -/
def rmRounds (s : Ns) : ℕ := (s.entryCount + 1) * (6 * s.inodesCount + 20)

/-- The last steps of `ext4_dir_rm`, on the directory itself. -/
def rmTop (parent dir : ℕ) (name : Name) : NsM Unit := do
  unlink parent dir name
  let s ← Prog.get
  if (s.inode dir).links = 2 then do
    modifyInode dir fun n => { n with links := 0 }
    truncDir parent dir
    fsFreeInode dir
  else pure ()

/-- `ext4_dir_rm` behind the opening of the path. -/
def rmTree (o : Opened) : NsM Unit := do
  let s ← Prog.get
  let p ← rmLoop (rmRounds s) { cur := o.inode, up := o.parent, depth := 1, pos := 0 }
  rmTop p.up p.cur o.name

/-- `ext4_dir_rm` -/
def dirRm (path : List Byte) : VfsM Unit := do
  let m ← getMp path
  let w ← Prog.get
  if (w.fs m).readOnly = true then
    Prog.fail (.rc .EROFS)
  else do
    let o ← genericOpen path "r" false
    onFs m (rmTree o)

end Lwext4.Vfs
