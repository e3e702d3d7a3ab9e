/-
  Removing a file, with a device that may fail (`ext4_fremove` and what it
  calls).

  `Lwext4.Vfs` removes files on a device that always answers.  Here every step
  of the call has an answer of its own: whether it fails, and what it has done
  until then.  There is no journal, so that an abort takes nothing back.

  Main results.
  * `fremove_truthful_iff`: the exact condition under which the result of the
    call tells what became of the file;
  * `fremove_lies`: an error after which the file is empty, and a directory
    that is not removed with `EOK`.
-/
import Lwext4.VfsResolve

namespace Lwext4.Vfs

open Lib

/-! ## Answers -/

/-- `CONFIG_MAX_TRUNCATE_SIZE` -/
def maxTruncateSize : ℕ := 16 * 1024 * 1024

/-- The answers to one transaction of a truncation: to loading the inode, to
    the truncation and to writing the inode.  `trunc` also stands for the inode
    flags that forbid it.  A truncation that fails has given back `freed`
    blocks, with the bytes that `hole` names; one that succeeds and does not
    end at size `0` has given back `freed` blocks. -/
structure ChunkAnswer where
  get : Option Errno
  trunc : Option Errno
  hole : ℕ → Bool
  freed : ℕ
  put : Option Errno

/-- The answers to `ext4_fs_free_inode`: where it stops, it has given back
    `freed` blocks, and perhaps has cleared the bit of the inode. -/
structure FreeAnswer where
  stop : Option Errno
  freed : ℕ
  cleared : Bool

/-- The answers to the steps of `ext4_fremove`: to the walk, to loading the
    parent and the child, to loading the size, to the transactions of the
    truncation and to the last of them, to the search of the entry and to
    freeing the inode. -/
structure RemoveAnswer where
  walk : Option Errno
  parent : Option Errno
  child : Option Errno
  size : Option Errno
  chunk : ℕ → ChunkAnswer
  last : ChunkAnswer
  unlink : Option Errno
  free : FreeAnswer

/-- A step that does nothing but fail or not. -/
def answer (e : Option Errno) : NsM Unit :=
  match e with
  | some e => Prog.fail (.rc e)
  | none => pure ()

/-! ## Truncation -/

/-- Inode `i` with contents `c` and `d` data blocks; the other blocks it had
    are free. -/
def Ns.giveBack (s : Ns) (i : ℕ) (c : List Byte) (d : ℕ) : Ns :=
  { s with
    freeBlocks := s.freeBlocks + (s.inode i).data - d
    inode := Function.update s.inode i { s.inode i with content := c, data := d } }

/-- Contents with some bytes read from holes. -/
def punch (hole : ℕ → Bool) (c : List Byte) : List Byte :=
  c.mapIdx fun k b => if hole k then 0 else b

/-- `ext4_fs_truncate_inode` -/
def fsTruncateInode (a : ChunkAnswer) (i size : ℕ) : NsM Unit := do
  let s ← Prog.get
  if (s.inode i).content.length = size then pure ()
  else if (s.inode i).content.length < size then Prog.fail (.rc .EINVAL)
  else match a.trunc with
    | some e => do
      Prog.modify fun s =>
        s.giveBack i (punch a.hole (s.inode i).content) ((s.inode i).data - a.freed)
      Prog.fail (.rc e)
    | none =>
      Prog.modify fun s =>
        s.giveBack i ((s.inode i).content.take size)
          (if size = 0 then 0 else (s.inode i).data - a.freed)

/-- The loop of `ext4_trunc_inode` to size `0`, from transaction `k` on.  An
    inode that cannot be loaded ends the loop, and the error is forgotten. -/
def truncLoop (a : ℕ → ChunkAnswer) (i k size : ℕ) : NsM Unit :=
  if maxTruncateSize < size then
    match (a k).get with
    | some _ => pure ()
    | none => do
      fsTruncateInode (a k) i (size - maxTruncateSize)
      answer (a k).put
      truncLoop a i (k + 1) (size - maxTruncateSize)
  else pure ()
termination_by size
decreasing_by
  have : 0 < maxTruncateSize := by decide
  omega

/-- `ext4_trunc_inode` to size `0` -/
def truncInodeWith (a : RemoveAnswer) (i : ℕ) : NsM Unit := do
  answer a.size
  let s ← Prog.get
  if (s.inode i).content.length = 0 then pure ()
  else do
    truncLoop a.chunk i 0 (s.inode i).content.length
    answer a.last.get
    fsTruncateInode a.last i 0
    answer a.last.put

/-! ## Removal -/

/-- `ext4_unlink` of a file: only the search of the entry can fail. -/
def unlinkWith (a : Option Errno) (parent child : ℕ) (name : Name) : NsM Unit := do
  answer a
  unlink parent child name

/-- What `ext4_fs_free_inode` has done where it stops. -/
def Ns.releasePart (s : Ns) (i : ℕ) (a : FreeAnswer) : Ns :=
  { s with
    used := if a.cleared then Function.update s.used i false else s.used
    freeInodes := if a.cleared then s.freeInodes + 1 else s.freeInodes
    freeBlocks := s.freeBlocks + (min a.freed (s.inode i).aux : ℕ)
    inode := Function.update s.inode i { s.inode i with aux := (s.inode i).aux - a.freed } }

/-- `ext4_fs_free_inode` -/
def fsFreeInodeWith (a : FreeAnswer) (i : ℕ) : NsM Unit :=
  match a.stop with
  | some e => do
    Prog.modify fun s => s.releasePart i a
    Prog.fail (.rc e)
  | none => fsFreeInode i

/-- The last steps of `ext4_fremove`: the entry, and the inode with its last
    link. -/
def removeName (a : RemoveAnswer) (path : List Byte) (f : OpenedAt) : NsM Unit := do
  unlinkWith a.unlink f.parentInode f.inode (unlinkName path f.nameOff)
  let s ← Prog.get
  if (s.inode f.inode).links = 0 then fsFreeInodeWith a.free f.inode else pure ()

/-- `ext4_fremove` behind the walk.  On a directory `r` still is `EOK`. -/
def removeOpened (a : RemoveAnswer) (path : List Byte) (f : OpenedAt) : NsM Unit := do
  answer a.parent
  answer a.child
  let s ← Prog.get
  if (s.inode f.inode).mode = .directory then pure ()
  else do
    if (s.inode f.inode).links = 1 then truncInodeWith a f.inode else pure ()
    removeName a path f

/-- `ext4_fremove` -/
def fremoveWith (a : RemoveAnswer) (path : List Byte) : VfsM Unit := do
  let m ← getMp path
  let w ← Prog.get
  if (w.fs m).readOnly = true then
    Prog.fail (.rc .EROFS)
  else match a.walk with
    | some e => Prog.fail (.rc e)
    | none =>
      match genericOpen2At w path .unknown with
      | .error e => Prog.fail (.rc e)
      | .ok f => onFs m (removeOpened a path f.2)

/-! ## What the result says -/

/-- The file of inode `c` has lost a name, and is gone with the last one. -/
structure Gone (s s' : Ns) (c : ℕ) : Prop where
  links : (s'.inode c).links + 1 = (s.inode c).links
  freed : (s'.inode c).links = 0 → s'.used c = false ∧ s'.freeInodes = s.freeInodes + 1 ∧
    s'.freeBlocks = s.freeBlocks + (s.inode c).data + (s.inode c).aux

/-- The result of `ext4_fremove` tells what became of the path and the file. -/
structure FremoveTruthful (a : RemoveAnswer) (w : World) (path : List Byte) : Prop where
  ok : ∀ w', fremoveWith a path w = (.ok (), w') →
    (∃ e, genericOpen2At w' path .unknown = .error e) ∧
    ∃ m f, genericOpen2At w path .unknown = .ok (m, f) ∧ Gone (w.fs m) (w'.fs m) f.inode
  error : ∀ e w', fremoveWith a path w = (.error e, w') →
    ∀ m f, genericOpen2At w path .unknown = .ok (m, f) →
      genericOpen2At w' path .unknown = .ok (m, f) ∧
      ((w'.fs m).inode f.inode).content = ((w.fs m).inode f.inode).content

/-! ## The condition -/

/-- The transaction goes through. -/
def ChunkAnswer.Ok (a : ChunkAnswer) : Prop := a.get = none ∧ a.trunc = none ∧ a.put = none

/-- The transactions from `k` on, for `size` bytes, go through, up to the first
    one that cannot load the inode. -/
def LoopOk (a : ℕ → ChunkAnswer) (k size : ℕ) : Prop :=
  ∃ j, (∀ i, i < j → (a (k + i)).Ok) ∧
    ((a (k + j)).get ≠ none ∨ size ≤ (j + 1) * maxTruncateSize)

/-- The truncation goes through. -/
def TruncOk (a : RemoveAnswer) (n : Inode) : Prop :=
  a.size = none ∧ (n.content ≠ [] → LoopOk a.chunk 0 n.content.length ∧ a.last.Ok)

/-- The first transaction that loads the inode, or the last one. -/
def RemoveAnswer.first (a : RemoveAnswer) (n : Inode) : ChunkAnswer :=
  if maxTruncateSize < n.content.length ∧ (a.chunk 0).get = none then a.chunk 0 else a.last

/-- The truncation fails before it changes the contents. -/
def TruncStops (a : RemoveAnswer) (n : Inode) : Prop :=
  a.size ≠ none ∨ (n.content ≠ [] ∧ ((a.first n).get ≠ none ∨
    ((a.first n).trunc ≠ none ∧ punch (a.first n).hole n.content = n.content)))

/-- The condition for a file with one name: the truncation fails in time, or
    all steps succeed and an empty file has no blocks, or the file is empty and
    only the search of its entry fails. -/
def LastNameOk (a : RemoveAnswer) (n : Inode) : Prop :=
  TruncStops a n ∨
    (TruncOk a n ∧ a.unlink = none ∧ a.free.stop = none ∧ (n.content = [] → n.data = 0)) ∨
    (TruncOk a n ∧ a.unlink ≠ none ∧ n.content = [])

/-- The condition for what was opened: it is not a directory, it has another
    name or meets `LastNameOk`, and without any link its entry is not found. -/
structure FileOk (a : RemoveAnswer) (n : Inode) : Prop where
  mode : n.mode ≠ .directory
  noLink : n.links = 0 → a.unlink ≠ none
  last : n.links = 1 → LastNameOk a n

/-- **The condition** for `ext4_fremove`, where it opens the path and loads the
    parent and the child. -/
def FremoveOk (a : RemoveAnswer) (w : World) (path : List Byte) : Prop :=
  ∀ m f, genericOpen2At w path .unknown = .ok (m, f) → (w.fs m).readOnly = false →
    a.walk = none → a.parent = none → a.child = none → FileOk a ((w.fs m).inode f.inode)

/-! ## Running a truncation -/

section
variable {s : Ns} {i k size d : ℕ} {c : List Byte} {a : ChunkAnswer} {as : ℕ → ChunkAnswer}
  {ra : RemoveAnswer}

@[simp] theorem giveBack_inode : (s.giveBack i c d).inode i = { s.inode i with content := c, data := d } :=
  Function.update_self ..

theorem giveBack_inode_of_ne {j : ℕ} (h : j ≠ i) : (s.giveBack i c d).inode j = s.inode j :=
  Function.update_of_ne h ..

@[simp] theorem giveBack_giveBack {c' : List Byte} {d' : ℕ} :
    (s.giveBack i c d).giveBack i c' d' = s.giveBack i c' d' := by
  simp [Ns.giveBack]

theorem giveBack_self : s.giveBack i (s.inode i).content (s.inode i).data = s := by
  simp [Ns.giveBack]

theorem punch_length (hole : ℕ → Bool) : (punch hole c).length = c.length := List.length_mapIdx

theorem answer_none : answer none s = (.ok (), s) := rfl

theorem fsTruncateInode_ok (h : size < c.length) (ha : a.trunc = none) :
    fsTruncateInode a i size (s.giveBack i c d) =
      (.ok (), s.giveBack i (c.take size) (if size = 0 then 0 else d - a.freed)) := by
  rw [fsTruncateInode, Prog.bind_run, Prog.get_run]
  simp only [giveBack_inode]
  rw [if_neg (by omega), if_neg (by omega)]
  simp only [ha, Prog.modify_run, giveBack_inode, giveBack_giveBack]

theorem fsTruncateInode_error (h : size < c.length) {e : Errno} (ha : a.trunc = some e) :
    fsTruncateInode a i size (s.giveBack i c d) =
      (.error (.rc e), s.giveBack i (punch a.hole c) (d - a.freed)) := by
  rw [fsTruncateInode, Prog.bind_run, Prog.get_run]
  simp only [giveBack_inode]
  rw [if_neg (by omega), if_neg (by omega)]
  simp only [ha, Prog.bind_run, Prog.modify_run, Prog.fail_run, giveBack_inode, giveBack_giveBack]

/-- The first transaction of several. -/
theorem loopOk_succ (hsize : maxTruncateSize < size) (hget : (as k).get = none) :
    LoopOk as k size ↔ (as k).Ok ∧ LoopOk as (k + 1) (size - maxTruncateSize) := by
  have hshift : ∀ i, k + 1 + i = k + (i + 1) := fun i => by omega
  constructor
  · rintro ⟨j, hok, hend⟩
    cases j with
    | zero =>
      rcases hend with h | h
      · exact absurd hget h
      · omega
    | succ j =>
      refine ⟨hok 0 (Nat.succ_pos j), j, fun i hi => ?_, ?_⟩
      · rw [hshift]
        exact hok (i + 1) (by omega)
      · rw [hshift]
        refine hend.imp_right fun h => ?_
        rw [Nat.add_mul] at h
        omega
  · rintro ⟨hk, j, hok, hend⟩
    refine ⟨j + 1, fun i hi => ?_, ?_⟩
    · cases i with
      | zero => exact hk
      | succ i =>
        rw [← hshift]
        exact hok i (by omega)
    · rw [← hshift]
      refine hend.imp_right fun h => ?_
      rw [Nat.add_mul]
      omega

/-- How the loop of `ext4_trunc_inode` ends. -/
inductive Looped (as : ℕ → ChunkAnswer) (k size : ℕ) (c : List Byte) :
    Except Stop Unit → List Byte → Prop
  | ok {c' : List Byte} (hok : LoopOk as k size) (hne : c' ≠ [])
    (hsame : ¬ (maxTruncateSize < size ∧ (as k).get = none) → c' = c)
    (hcut : maxTruncateSize < size → (as k).get = none → c'.length < c.length) :
    Looped as k size c (.ok ()) c'
  | error {c' : List Byte} (e : Stop) (hok : ¬ LoopOk as k size)
    (hfirst : maxTruncateSize < size ∧ (as k).get = none)
    (hsame : c' = c ↔ (as k).trunc ≠ none ∧ punch (as k).hole c = c) :
    Looped as k size c (.error e) c'

/-- **The loop of `ext4_trunc_inode`**: by induction on the size, one
    transaction at a time. -/
theorem truncLoop_run (hc : c.length = size) (hpos : 0 < size) :
    ∃ r c' d', truncLoop as i k size (s.giveBack i c d) = (r, s.giveBack i c' d') ∧
      c'.length ≤ size ∧ Looped as k size c r c' := by
  induction size using Nat.strong_induction_on generalizing k c d with
  | _ size ih =>
  rw [truncLoop]
  have hne : c ≠ [] := List.length_pos_iff.1 (hc ▸ hpos)
  by_cases hsize : maxTruncateSize < size
  swap
  · rw [if_neg hsize]
    exact ⟨.ok (), c, d, rfl, hc.le,
      .ok ⟨0, nofun, .inr (by omega)⟩ hne (fun _ => rfl) fun h => absurd h hsize⟩
  rw [if_pos hsize]
  cases hget : (as k).get with
  | some e =>
    refine ⟨.ok (), c, d, rfl, hc.le, .ok ⟨0, nofun, .inl ?_⟩ hne (fun _ => rfl) fun _ h => ?_⟩
    · rw [Nat.add_zero, hget]
      exact Option.some_ne_none e
    · rw [hget] at h
      cases h
  | none =>
    have hmax : 0 < maxTruncateSize := by decide
    have hshort : size - maxTruncateSize < c.length := by omega
    have hlen : (c.take (size - maxTruncateSize)).length = size - maxTruncateSize := by
      rw [List.length_take]
      omega
    have hcut : ∀ c' : List Byte, c'.length ≤ size - maxTruncateSize → c' ≠ c := by
      rintro c' hle rfl
      omega
    simp only [Prog.bind_run]
    cases htrunc : (as k).trunc with
    | some e =>
      rw [fsTruncateInode_error hshort htrunc]
      refine ⟨_, _, _, rfl, by rw [punch_length, hc], .error _ ?_ ⟨hsize, hget⟩ ?_⟩
      · rw [loopOk_succ hsize hget]
        rintro ⟨⟨-, h, -⟩, -⟩
        rw [htrunc] at h
        cases h
      · rw [htrunc]
        simp
    | none =>
      rw [fsTruncateInode_ok hshort htrunc]
      cases hput : (as k).put with
      | some e =>
        refine ⟨_, _, _, rfl, by omega, .error _ ?_ ⟨hsize, hget⟩ ?_⟩
        · rw [loopOk_succ hsize hget]
          rintro ⟨⟨-, -, h⟩, -⟩
          rw [hput] at h
          cases h
        · rw [htrunc]
          exact iff_of_false (hcut _ hlen.le) fun h => h.1 rfl
      | none =>
        simp only [answer_none]
        obtain ⟨r, c', d', hrun, hle, hend⟩ := ih (size - maxTruncateSize) (by omega) (k := k + 1)
          (d := if size - maxTruncateSize = 0 then 0 else d - (as k).freed) hlen (by omega)
        refine ⟨r, c', d', hrun, by omega, ?_⟩
        have hiff : LoopOk as k size ↔ (as k).Ok ∧ LoopOk as (k + 1) (size - maxTruncateSize) :=
          loopOk_succ hsize hget
        cases hend with
        | ok hok hne' =>
          refine .ok (hiff.2 ⟨⟨hget, htrunc, hput⟩, hok⟩) hne' (fun h => ?_) fun _ _ => ?_
          · exact absurd ⟨hsize, hget⟩ h
          · omega
        | error e hok hfirst hsame =>
          refine .error e (fun h => hok (hiff.1 h).2) ⟨hsize, hget⟩ ?_
          rw [htrunc]
          exact iff_of_false (hcut c' hle) fun h => h.1 rfl

/-- The last transaction of `ext4_trunc_inode`. -/
theorem lastChunk_run (hne : c ≠ []) : ∃ r c' d', (do
      answer a.get
      fsTruncateInode a i 0
      answer a.put : NsM Unit) (s.giveBack i c d) = (r, s.giveBack i c' d') ∧
    c'.length ≤ c.length ∧ ((r = .ok () ∧ a.Ok ∧ c' = [] ∧ d' = 0) ∨
      ∃ e, r = .error e ∧ ¬ a.Ok ∧
        (c' = c ↔ a.get ≠ none ∨ (a.trunc ≠ none ∧ punch a.hole c = c))) := by
  have hpos : 0 < c.length := List.length_pos_iff.2 hne
  simp only [Prog.bind_run]
  cases hget : a.get with
  | some e =>
    refine ⟨_, c, d, rfl, le_rfl, .inr ⟨_, rfl, fun h => ?_, iff_of_true rfl (.inl ?_)⟩⟩
    · rw [ChunkAnswer.Ok, hget] at h
      exact nomatch h.1
    · exact Option.some_ne_none e
  | none =>
    simp only [answer_none]
    cases htrunc : a.trunc with
    | some e =>
      rw [fsTruncateInode_error hpos htrunc]
      refine ⟨_, _, _, rfl, (punch_length _).le, .inr ⟨_, rfl, fun h => ?_, by simp⟩⟩
      rw [ChunkAnswer.Ok, htrunc] at h
      exact nomatch h.2.1
    | none =>
      rw [fsTruncateInode_ok hpos htrunc, List.take_zero, if_pos rfl]
      cases hput : a.put with
      | some e =>
        refine ⟨_, _, _, rfl, Nat.zero_le _, .inr ⟨_, rfl, fun h => ?_, ?_⟩⟩
        · rw [ChunkAnswer.Ok, hput] at h
          exact nomatch h.2.2
        · refine iff_of_false (fun h => hne h.symm) fun h => ?_
          exact h.elim (fun h => h rfl) fun h => h.1 rfl
      | none => exact ⟨_, _, _, rfl, Nat.zero_le _, .inl ⟨rfl, ⟨hget, htrunc, hput⟩, rfl, rfl⟩⟩

/-- How `ext4_trunc_inode` ends. -/
inductive Truncated (ra : RemoveAnswer) (n : Inode) : Except Stop Unit → List Byte → ℕ → Prop
  | ok (hok : TruncOk ra n) (hstop : ¬ TruncStops ra n) :
    Truncated ra n (.ok ()) [] (if n.content = [] then n.data else 0)
  | error {c : List Byte} {d : ℕ} (e : Stop) (hok : ¬ TruncOk ra n)
    (hsame : c = n.content ↔ TruncStops ra n) : Truncated ra n (.error e) c d

/-- **`ext4_trunc_inode`** to size `0`. -/
theorem truncInodeWith_run : ∃ r c d, truncInodeWith ra i s = (r, s.giveBack i c d) ∧
    Truncated ra (s.inode i) r c d := by
  generalize hn : s.inode i = n
  rw [truncInodeWith, Prog.bind_run]
  cases hsize : ra.size with
  | some e =>
    refine ⟨_, (s.inode i).content, (s.inode i).data, by rw [giveBack_self]; rfl, .error _ ?_ ?_⟩
    · rintro ⟨h, -⟩
      rw [hsize] at h
      cases h
    · rw [hn]
      refine iff_of_true rfl (.inl ?_)
      rw [hsize]
      exact Option.some_ne_none e
  | none =>
    simp only [answer_none, Prog.bind_run, Prog.get_run, hn]
    by_cases hnil : n.content = []
    · rw [if_pos (by rw [hnil]; rfl)]
      refine ⟨.ok (), [], n.data, ?_, ?_⟩
      · rw [← hnil, ← hn, giveBack_self]
        rfl
      · have h : Truncated ra n (.ok ()) [] (if n.content = [] then n.data else 0) :=
          .ok ⟨hsize, fun h => absurd hnil h⟩
            (fun h => h.elim (fun h => h hsize) fun h => h.1 hnil)
        rwa [if_pos hnil] at h
    have hpos : 0 < n.content.length := List.length_pos_iff.2 hnil
    rw [if_neg hpos.ne']
    obtain ⟨r, c', d', hrun, hle, hend⟩ := @truncLoop_run s i 0 n.content.length n.data n.content
      ra.chunk rfl hpos
    have hself : s.giveBack i n.content n.data = s := by
      rw [← hn]
      exact giveBack_self
    rw [hself] at hrun
    have hfirst : ∀ b : ChunkAnswer, ra.first n = b →
        (TruncStops ra n ↔ b.get ≠ none ∨ (b.trunc ≠ none ∧ punch b.hole n.content = n.content)) := by
      rintro b rfl
      constructor
      · exact fun h => h.elim (fun h => absurd hsize h) And.right
      · exact fun h => .inr ⟨hnil, h⟩
    cases hend with
    | error e hok hch hsame =>
      rw [Prog.bind_error hrun]
      refine ⟨_, c', d', rfl, .error e (fun h => hok (h.2 hnil).1) ?_⟩
      rw [hsame, hfirst _ (if_pos hch)]
      exact ⟨.inr, fun h => h.elim (fun h => absurd hch.2 h) id⟩
    | ok hok hne hsame hcut =>
      rw [Prog.bind_ok hrun]
      obtain ⟨r, x, y, hlast, hxle, hxend⟩ := @lastChunk_run s i d' c' ra.last hne
      rw [hlast]
      by_cases hch : maxTruncateSize < n.content.length ∧ (ra.chunk 0).get = none
      · -- the first transaction has cut the contents
        have hk := ((loopOk_succ hch.1 hch.2).1 hok).1
        have hstop : ¬ TruncStops ra n := by
          rw [hfirst _ (if_pos hch)]
          exact fun h => h.elim (fun h => h hk.1) fun h => h.1 hk.2.1
        have hshort := hcut hch.1 hch.2
        rcases hxend with ⟨rfl, hl, rfl, rfl⟩ | ⟨e, rfl, hl, -⟩
        · have h : Truncated ra n (.ok ()) [] (if n.content = [] then n.data else 0) :=
            .ok ⟨hsize, fun _ => ⟨hok, hl⟩⟩ hstop
          rw [if_neg hnil] at h
          exact ⟨_, _, _, rfl, h⟩
        · refine ⟨_, _, _, rfl, .error e (fun h => hl (h.2 hnil).2) (iff_of_false ?_ hstop)⟩
          rintro rfl
          omega
      · obtain rfl := hsame hch
        have hstop := hfirst _ (if_neg hch)
        rcases hxend with ⟨rfl, hl, rfl, rfl⟩ | ⟨e, rfl, hl, hxsame⟩
        · have h : Truncated ra n (.ok ()) [] (if n.content = [] then n.data else 0) := by
            refine .ok ⟨hsize, fun _ => ⟨hok, hl⟩⟩ fun h => ?_
            exact (hstop.1 h).elim (fun h => h hl.1) fun h => h.1 hl.2.1
          rw [if_neg hnil] at h
          exact ⟨_, _, _, rfl, h⟩
        · exact ⟨_, _, _, rfl, .error e (fun h => hl (h.2 hnil).2) (hxsame.trans hstop.symm)⟩

end

/-! ## Looking the path up again -/

section
variable {s s' : Ns} {d p i q : ℕ} {n : Name} {e : Entry} {ft : FileType} {cs : List Name}
  {o : Opened} {w : World} {m : ℕ} {path : List Byte} {f : OpenedAt}

/-- Every name means the same. -/
structure SameNames (s s' : Ns) : Prop where
  find : ∀ d n, dirFindEntry s' d n = dirFindEntry s d n
  mode : ∀ e, entryMode s' e = entryMode s e

/-- All but one name mean the same, and that one is gone. -/
structure Unlinked (s s' : Ns) (p : ℕ) (n : Name) : Prop where
  find : ∀ d k, dirFindEntry s' d k = if d = p ∧ k = n then none else dirFindEntry s d k
  mode : ∀ e, entryMode s' e = entryMode s e

theorem SameNames.giveBack {c : List Byte} : SameNames s (s.giveBack i c d) := by
  refine ⟨fun k n => ?_, fun e => ?_⟩
  · rw [dirFindEntry, dirFindEntry]
    by_cases hk : k = i
    · rw [hk, giveBack_inode]
    · rw [giveBack_inode_of_ne hk]
  · rw [entryMode, entryMode]
    by_cases hk : e.inode = i
    · rw [hk, giveBack_inode]
      rfl
    · rw [giveBack_inode_of_ne hk]
      rfl

theorem SameNames.loop (h : SameNames s s') (g : Bool) (ref off parent : ℕ) (imode : Mode) :
    genericOpenLoop s' ft path g ref off parent imode =
      genericOpenLoop s ft path g ref off parent imode := by
  induction hk : path.length using Nat.strong_induction_on generalizing path g ref off parent imode with
  | _ k ih =>
  rw [genericOpenLoop, genericOpenLoop]
  by_cases hc : (ext4PathCheck path g).1 = 0
  · rw [dif_pos hc, dif_pos hc]
  have hne : path ≠ [] := by
    rintro rfl
    exact hc (ext4PathCheck_nil g)
  have hlt : (path.drop ((ext4PathCheck path g).1 + 1)).length < k := by
    have := List.length_pos_iff.2 hne
    rw [List.length_drop]
    omega
  have hrec := fun g ref off parent imode => ih _ hlt g ref off parent imode rfl
  rw [dif_neg hc, dif_neg hc]
  simp only [h.find, h.mode, hrec]

theorem SameNames.opened (h : SameNames (w.fs m) s') (hm : getMount w.mounts path = some m) :
    genericOpen2At (w.set m s') path ft = genericOpen2At w path ft := by
  rw [genericOpen2At, genericOpen2At, World.set_mounts, hm]
  simp only [World.set_fs, h.loop]

/-- A path that ends at the name that is gone resolves no more. -/
theorem Unlinked.resolve (h : Unlinked s s' o.parent o.name) (hpc : pathCheck o.name ≠ 0)
    (ho : Vfs.resolve s ft cs d p = some o) : Vfs.resolve s' ft cs d p = none := by
  induction cs generalizing d p with
  | nil => rfl
  | cons n rest ih =>
    rw [Vfs.resolve] at ho ⊢
    by_cases hn : pathCheck n = 0
    · rw [if_pos hn] at ho
      split_ifs at ho
      cases ho
      exact absurd hn hpc
    rw [if_neg hn] at ho ⊢
    rw [h.find]
    by_cases hgone : d = o.parent ∧ n = o.name
    · rw [if_pos hgone]
    rw [if_neg hgone]
    cases hf : dirFindEntry s d n with
    | none => rfl
    | some e =>
      rw [hf] at ho
      simp only [h.mode] at ho ⊢
      split_ifs at ho ⊢
      · cases ho
        exact absurd ⟨rfl, rfl⟩ hgone
      · exact ih ho

theorem Unlinked.not_open (h : Unlinked (w.fs m) s' o.parent o.name) (hpc : pathCheck o.name ≠ 0)
    (hm : getMount w.mounts path = some m)
    (ho : Vfs.resolve (w.fs m) ft (w.comps m path) rootIndex rootIndex = some o) :
    genericOpen2At (w.set m s') path ft = .error .ENOENT := by
  have hm' : getMount (w.set m s').mounts path = some m := hm
  have hgone := h.resolve hpc ho
  rcases genericOpen2At_eq ft hm' with ⟨o', off, hres, -⟩ | ⟨-, hopen⟩
  · rw [World.set_fs] at hres
    rw [show (w.set m s').comps m path = w.comps m path from rfl, hgone] at hres
    cases hres
  · exact hopen

/-- Inode `c` with one link less, in a directory without the entry. -/
def Ns.unlinked (s : Ns) (p c : ℕ) (n : Name) : Ns :=
  (s.erase p n).setInode c { s.inode c with links := (s.inode c).links - 1 }

theorem unlinked_inode {c : ℕ} : (s.unlinked p c n).inode c =
    { s.inode c with links := (s.inode c).links - 1 } := setInode_self

theorem unlinked_mode {c : ℕ} (d : ℕ) : ((s.unlinked p c n).inode d).mode = (s.inode d).mode := by
  rw [Ns.unlinked, Ns.erase]
  by_cases hd : d = c
  · rw [hd, setInode_self]
  rw [setInode_of_ne hd]
  by_cases hp : d = p
  · rw [hp, setInode_self]
    rfl
  · rw [setInode_of_ne hp]

theorem unlinked_ents {c : ℕ} (hne : p ≠ c) (d : ℕ) : ((s.unlinked p c n).inode d).ents =
    if d = p then (s.inode p).ents.eraseP (fun e => e.name = n) else (s.inode d).ents := by
  rw [Ns.unlinked, Ns.erase]
  split_ifs with hp
  · rw [hp, setInode_of_ne hne, setInode_self]
    rfl
  · by_cases hd : d = c
    · rw [hd, setInode_self]
    · rw [setInode_of_ne hd, setInode_of_ne hp]

theorem unlink_file {c : ℕ} (hp : (s.inode p).mode = .directory)
    (hc : (s.inode c).mode ≠ .directory) (hf : (dirFindEntry s p n).isSome = true) :
    unlink p c n s = (.ok (), s.unlinked p c n) := by
  have hne : c ≠ p := by
    rintro rfl
    exact hc hp
  have hkids : ¬ hasChildren s c = true := by
    rw [hasChildren, Bool.and_eq_true]
    exact fun h => hc (of_decide_eq_true h.1)
  have hinode : (s.erase p n).inode c = s.inode c := setInode_of_ne hne
  rw [unlink, Prog.bind_run, Prog.get_run]
  simp only
  rw [if_neg hkids, Prog.bind_run, dirRemoveEntry_run hp hf]
  simp only
  rw [if_neg hc]
  simp only [modifyInode, Prog.modify_run]
  rw [hinode, decLinks_eq, decLinks_links hc, Ns.unlinked]

/-- In a list of names that occur once, erasing one hides that one. -/
theorem find_eraseP {l : List Entry} (hnd : (l.map Entry.name).Nodup) (k : Name) :
    (l.eraseP fun e => e.name = n).find? (fun e => e.name = k) =
      if k = n then none else l.find? fun e => e.name = k := by
  induction l with
  | nil => simp
  | cons x l ih =>
    rw [List.map_cons, List.nodup_cons] at hnd
    by_cases hx : x.name = n
    · rw [List.eraseP_cons_of_pos (by simpa using hx)]
      split_ifs with hk
      · rw [List.find?_eq_none]
        intro e he
        rw [hk, ← hx]
        simpa using fun heq : e.name = x.name => hnd.1 (heq ▸ List.mem_map_of_mem he)
      · rw [List.find?_cons_of_neg (by rw [hx]; simpa using fun h => hk h.symm)]
    · rw [List.eraseP_cons_of_neg (by simpa using hx)]
      by_cases hxk : x.name = k
      · rw [List.find?_cons_of_pos (by simpa using hxk), if_neg fun h => hx (hxk.trans h),
          List.find?_cons_of_pos (by simpa using hxk)]
      · rw [List.find?_cons_of_neg (by simpa using hxk), ih hnd.2,
          List.find?_cons_of_neg (by simpa using hxk)]

/-- What is left of the names when an entry is unlinked. -/
theorem unlinked_names {c : ℕ} (hne : p ≠ c) (hnd : ((s.inode p).ents.map Entry.name).Nodup) :
    Unlinked s (s.unlinked p c n) p n := by
  refine ⟨fun d k => ?_, fun e => ?_⟩
  · rw [dirFindEntry, dirFindEntry, unlinked_ents hne]
    by_cases hd : d = p
    · rw [if_pos hd, find_eraseP hnd, hd]
      simp only [true_and]
    · rw [if_neg hd, if_neg fun h => hd h.1]
  · rw [entryMode, entryMode, unlinked_mode]
    rfl

theorem SameNames.unlinked {s₁ : Ns} {k : Name} (h : SameNames s s₁) (hu : Unlinked s₁ s' p k) :
    Unlinked s s' p k := by
  refine ⟨fun d n => ?_, fun e => (hu.mode e).trans (h.mode e)⟩
  rw [hu.find, h.find]

/-- Freeing an inode, in part or as a whole, changes no name. -/
theorem Unlinked.aux {i : ℕ} {x : ℕ} {s₁ : Ns} (h : Unlinked s s₁ p n)
    (hft : s'.filetype = s₁.filetype)
    (hi : s'.inode = Function.update s₁.inode i { s₁.inode i with aux := x }) :
    Unlinked s s' p n := by
  have hinode : ∀ d, (s'.inode d).ents = (s₁.inode d).ents ∧
      (s'.inode d).mode = (s₁.inode d).mode := by
    intro d
    rw [hi]
    by_cases hd : d = i
    · rw [hd, Function.update_self]
      exact ⟨rfl, rfl⟩
    · rw [Function.update_of_ne hd]
      exact ⟨rfl, rfl⟩
  refine ⟨fun d k => ?_, fun e => ?_⟩
  · rw [← h.find, dirFindEntry, dirFindEntry, (hinode d).1]
  · rw [← h.mode, entryMode, entryMode, hft, (hinode e.inode).2]

end

/-! ## Removing what was opened -/

section
variable {s : Ns} {a : RemoveAnswer} {path : List Byte} {f : OpenedAt} {n : Name} {e : Entry}

/-- A file that was opened by the name `n`. -/
structure Named (s : Ns) (path : List Byte) (f : OpenedAt) (n : Name) : Prop where
  dir : (s.inode f.parentInode).mode = .directory
  nodup : ((s.inode f.parentInode).ents.map Entry.name).Nodup
  found : (dirFindEntry s f.parentInode n).isSome = true
  name : unlinkName path f.nameOff = n

/-- How `ext4_fremove` ends on a file: its name is there and the call fails, or
    the name is gone and the call fails or succeeds. -/
inductive Removed (a : RemoveAnswer) (s : Ns) (f : OpenedAt) (n : Name) :
    Except Stop Unit → Ns → Prop
  | kept {c : List Byte} {d : ℕ} (e : Stop)
    (hok : c = (s.inode f.inode).content ↔ FileOk a (s.inode f.inode)) :
    Removed a s f n (.error e) (s.giveBack f.inode c d)
  | lost {s' : Ns} (e : Stop) (hname : Unlinked s s' f.parentInode n)
    (hok : ¬ FileOk a (s.inode f.inode)) : Removed a s f n (.error e) s'
  | gone {s' : Ns} (hname : Unlinked s s' f.parentInode n)
    (hok : Gone s s' f.inode ↔ FileOk a (s.inode f.inode)) : Removed a s f n (.ok ()) s'

/-- How the steps behind the truncation end for a file that had `d` data blocks
    then. -/
inductive RestRemoved (a : RemoveAnswer) (s : Ns) (f : OpenedAt) (d : ℕ) :
    Except Stop Unit → Ns → Prop
  | stopped {s' : Ns} (e : Stop) (hl : (s.inode f.inode).links ≤ 1) (hstop : a.free.stop ≠ none) :
    RestRemoved a s f d (.error e) s'
  | freed {s' : Ns} (hl : (s.inode f.inode).links ≤ 1) (hstop : a.free.stop = none)
    (hl' : (s'.inode f.inode).links = 0) (hused : s'.used f.inode = false)
    (hinodes : s'.freeInodes = s.freeInodes + 1)
    (hblocks : s'.freeBlocks + d = s.freeBlocks + (s.inode f.inode).data + (s.inode f.inode).aux) :
    RestRemoved a s f d (.ok ()) s'
  | linked {s' : Ns} (hl : 1 < (s.inode f.inode).links)
    (hl' : (s'.inode f.inode).links = (s.inode f.inode).links - 1) :
    RestRemoved a s f d (.ok ()) s'

/-- The steps behind the truncation, where the entry is found. -/
theorem removeName_run {c : List Byte} {d : ℕ} (hn : Named s path f n)
    (hm : (s.inode f.inode).mode ≠ .directory) (hu : a.unlink = none) :
    ∃ r s', removeName a path f (s.giveBack f.inode c d) = (r, s') ∧
      Unlinked s s' f.parentInode n ∧ RestRemoved a s f d r s' := by
  have hne : f.parentInode ≠ f.inode := by
    intro h
    exact hm (h ▸ hn.dir)
  have hparent : (s.giveBack f.inode c d).inode f.parentInode = s.inode f.parentInode :=
    giveBack_inode_of_ne hne
  have hself : ((s.giveBack f.inode c d).inode f.inode).links = (s.inode f.inode).links := by
    rw [giveBack_inode]
  have hrun : unlink f.parentInode f.inode n (s.giveBack f.inode c d) =
      (.ok (), (s.giveBack f.inode c d).unlinked f.parentInode f.inode n) := by
    refine unlink_file ?_ ?_ ?_
    · rw [hparent]
      exact hn.dir
    · rw [giveBack_inode]
      exact hm
    · rw [SameNames.giveBack.find]
      exact hn.found
  have hnames : Unlinked s ((s.giveBack f.inode c d).unlinked f.parentInode f.inode n)
      f.parentInode n := by
    refine SameNames.giveBack.unlinked (unlinked_names hne ?_)
    rw [hparent]
    exact hn.nodup
  have hlinks : (((s.giveBack f.inode c d).unlinked f.parentInode f.inode n).inode f.inode).links =
      (s.inode f.inode).links - 1 := by
    rw [unlinked_inode, hself]
  rw [removeName, unlinkWith, hu, hn.name, Prog.bind_ok ((Prog.bind_ok answer_none).trans hrun),
    Prog.bind_run, Prog.get_run]
  simp only [hlinks]
  by_cases hl : (s.inode f.inode).links ≤ 1
  · rw [if_pos (by omega), fsFreeInodeWith]
    cases hstop : a.free.stop with
    | some e =>
      refine ⟨_, _, rfl, hnames.aux rfl rfl, .stopped _ hl ?_⟩
      rw [hstop]
      exact Option.some_ne_none e
    | none =>
      refine ⟨_, _, rfl, hnames.aux rfl rfl, .freed hl hstop ?_ ?_ rfl ?_⟩
      · simp only [Ns.release]
        rw [Function.update_self]
        simp only [hlinks]
        omega
      · exact Function.update_self ..
      · simp only [Ns.release]
        rw [unlinked_inode, giveBack_inode]
        show s.freeBlocks + ((s.inode f.inode).data : ℤ) - (d : ℤ) + ((s.inode f.inode).aux : ℤ) +
          (d : ℤ) = _
        omega
  · rw [if_neg (by omega : ¬ (s.inode f.inode).links - 1 = 0)]
    exact ⟨_, _, rfl, hnames, .linked (by omega) hlinks⟩

/-- The removal of the name fails at its first step. -/
theorem removeName_refused {c : List Byte} {d : ℕ} {e : Errno} (hu : a.unlink = some e) :
    removeName a path f (s.giveBack f.inode c d) = (.error (.rc e), s.giveBack f.inode c d) := by
  rw [removeName, unlinkWith, hu]
  rfl

section

variable (hn : Named s path f n) (hm : (s.inode f.inode).mode ≠ .directory)

include hn hm

/-- The last name goes: the file is truncated first. -/
theorem removeLast_run (hl : (s.inode f.inode).links = 1) :
    ∃ r s', (truncInodeWith a f.inode >>= fun _ => removeName a path f) s = (r, s') ∧
      Removed a s f n r s' := by
  have hok : FileOk a (s.inode f.inode) ↔ LastNameOk a (s.inode f.inode) := by
    constructor
    · exact fun h => h.last hl
    · exact fun h => ⟨hm, fun h0 => absurd (hl.symm.trans h0) Nat.one_ne_zero, fun _ => h⟩
  obtain ⟨r, c, d, htrunc, hend⟩ := @truncInodeWith_run s f.inode a
  cases hend with
  | error e hbad hsame =>
    refine ⟨_, _, Prog.bind_error htrunc, .kept e ?_⟩
    rw [hsame, hok]
    constructor
    · exact .inl
    · exact fun h => h.elim id fun h => h.elim (fun h => absurd h.1 hbad) fun h => absurd h.1 hbad
  | ok htr hstop =>
    cases hu : a.unlink with
    | some e =>
      refine ⟨_, _, (Prog.bind_ok htrunc).trans (removeName_refused hu), .kept _ ?_⟩
      rw [hok]
      constructor
      · intro h
        refine .inr (.inr ⟨htr, ?_, h.symm⟩)
        rw [hu]
        exact Option.some_ne_none e
      · rintro (h | ⟨-, h, -⟩ | ⟨-, -, h⟩)
        · exact absurd h hstop
        · rw [hu] at h
          cases h
        · exact h.symm
    | none =>
      obtain ⟨r, s', hrun, hnames, hend⟩ := @removeName_run s a path f n []
        (if (s.inode f.inode).content = [] then (s.inode f.inode).data else 0) hn hm hu
      refine ⟨r, s', (Prog.bind_ok htrunc).trans hrun, ?_⟩
      cases hend with
      | stopped e hle hfree =>
        refine .lost e hnames ?_
        rw [hok]
        rintro (h | ⟨-, -, h, -⟩ | ⟨-, h, -⟩)
        · exact absurd h hstop
        · exact hfree h
        · exact h hu
      | freed hle hfree hl' hused hinodes hblocks =>
        refine .gone hnames ?_
        rw [hok]
        constructor
        · intro hgone
          refine .inr (.inl ⟨htr, hu, hfree, fun hnil => ?_⟩)
          have := (hgone.freed hl').2.2
          rw [if_pos hnil] at hblocks
          omega
        · rintro (h | ⟨-, -, -, h⟩ | ⟨-, h, -⟩)
          · exact absurd h hstop
          · refine ⟨by rw [hl', hl], fun _ => ⟨hused, hinodes, ?_⟩⟩
            split_ifs at hblocks with hnil
            · rw [h hnil] at hblocks ⊢
              omega
            · omega
          · exact absurd hu h
      | linked hlt => omega

/-- A name goes of a file that has others, or none. -/
theorem removeOther_run (hl : (s.inode f.inode).links ≠ 1) :
    ∃ r s', removeName a path f s = (r, s') ∧ Removed a s f n r s' := by
  have hself : s.giveBack f.inode (s.inode f.inode).content (s.inode f.inode).data = s :=
    giveBack_self
  have hok : FileOk a (s.inode f.inode) ↔ ((s.inode f.inode).links = 0 → a.unlink ≠ none) := by
    constructor
    · exact FileOk.noLink
    · exact fun h => ⟨hm, h, fun h1 => absurd h1 hl⟩
  cases hu : a.unlink with
  | some e =>
    have hrun := @removeName_refused s a path f (s.inode f.inode).content (s.inode f.inode).data e hu
    rw [hself] at hrun
    have hkept := Removed.kept (a := a) (n := n) (c := (s.inode f.inode).content)
      (d := (s.inode f.inode).data) (.rc e) (iff_of_true rfl (hok.2 fun _ => by simp [hu]))
    rw [hself] at hkept
    exact ⟨_, _, hrun, hkept⟩
  | none =>
    obtain ⟨r, s', hrun, hnames, hend⟩ := @removeName_run s a path f n (s.inode f.inode).content
      (s.inode f.inode).data hn hm hu
    rw [hself] at hrun
    refine ⟨r, s', hrun, ?_⟩
    cases hend with
    | stopped e hle hfree =>
      exact .lost e hnames fun h => hok.1 h (by omega) hu
    | freed hle hfree hl' =>
      refine .gone hnames (iff_of_false (fun h => ?_) fun h => hok.1 h (by omega) hu)
      have := h.links
      omega
    | linked hlt hl' =>
      refine .gone hnames (iff_of_true ⟨by omega, fun h => ?_⟩ (hok.2 fun h => ?_))
      · omega
      · omega

/-- **`ext4_fremove` on a file**, behind the walk. -/
theorem removeOpened_run (hp : a.parent = none) (hc : a.child = none) :
    ∃ r s', removeOpened a path f s = (r, s') ∧ Removed a s f n r s' := by
  rw [removeOpened, hp, hc]
  rw [Prog.bind_ok answer_none, Prog.bind_ok answer_none, Prog.bind_ok (Prog.get_run s), if_neg hm]
  by_cases hl : (s.inode f.inode).links = 1
  · rw [if_pos hl]
    exact removeLast_run hn hm hl
  · rw [if_neg hl]
    exact removeOther_run hn hm hl

end

end

/-! ## The call -/

section
variable {w : World} {a : RemoveAnswer} {path : List Byte} {m : ℕ} {f : OpenedAt}

/-- A path that opens a file ends in the name of an entry. -/
theorem opened_named (ht : ∀ m, DirTree (w.fs m))
    (hopen : genericOpen2At w path .unknown = .ok (m, f)) : getMount w.mounts path = some m ∧
      (((w.fs m).inode f.inode).mode ≠ .directory →
        ∃ o, resolve (w.fs m) .unknown (w.comps m path) rootIndex rootIndex = some o ∧
          pathCheck o.name ≠ 0 ∧ o.parent = f.parentInode ∧ Named (w.fs m) path f o.name) := by
  have hm : getMount w.mounts path = some m := by
    cases hm : getMount w.mounts path with
    | none =>
      rw [genericOpen2At, hm] at hopen
      cases hopen
    | some k =>
      rw [genericOpen2At, hm] at hopen
      simp only at hopen
      split at hopen
      · cases hopen
      · cases hopen
        rfl
  refine ⟨hm, fun hfile => ?_⟩
  have hroot := (ht m).rootDir
  rcases genericOpen2At_eq .unknown hm with ⟨o, off, hres, hat, hname⟩ | ⟨-, hat⟩
  · rw [hopen] at hat
    cases hat
    obtain ⟨dirs, hends⟩ := resolve_ends (ht m) hroot hroot hres
    rcases hends.last with ⟨-, -, hdir⟩ | ⟨hpc, -, e, hf, -⟩
    · exact absurd (isDir_iff.1 hdir).2 hfile
    · refine ⟨o, hres, hpc, rfl, (isDir_iff.1 hends.parent).2, names_nodup (ht m) hends.parent, ?_,
        hname.unlink⟩
      rw [hf]
      rfl
  · rw [hopen] at hat
    cases hat

/-- `ext4_fremove` fails before it does anything, or works on what was opened. -/
theorem fremoveWith_cases (ht : ∀ m, DirTree (w.fs m)) :
    ((∃ e, fremoveWith a path w = (.error e, w)) ∧
      ∀ m f, genericOpen2At w path .unknown = .ok (m, f) → (w.fs m).readOnly = false →
        a.walk = none → a.parent = none → a.child = none → False) ∨
    ∃ m f, genericOpen2At w path .unknown = .ok (m, f) ∧ a.parent = none ∧ a.child = none ∧
      (w.fs m).readOnly = false ∧ a.walk = none ∧
      fremoveWith a path w = onFs m (removeOpened a path f) w := by
  rw [fremoveWith, getMp]
  simp only [Prog.bind_run, Prog.get_run]
  cases hm : getMount w.mounts path with
  | none =>
    refine .inl ⟨⟨_, rfl⟩, fun m f hopen => ?_⟩
    have := (opened_named ht hopen).1
    rw [hm] at this
    cases this
  | some m =>
    have hsame : ∀ {m' f}, genericOpen2At w path .unknown = .ok (m', f) → m' = m := by
      intro m' f hopen
      have := (opened_named ht hopen).1
      rw [hm] at this
      exact (Option.some.inj this).symm
    simp only [Prog.pure_run]
    by_cases hro : (w.fs m).readOnly = true
    · rw [if_pos hro]
      refine .inl ⟨⟨_, rfl⟩, fun m' f hopen h => ?_⟩
      rw [hsame hopen, hro] at h
      cases h
    rw [if_neg hro]
    cases hwalk : a.walk with
    | some e => exact .inl ⟨⟨_, rfl⟩, fun _ _ _ _ h => by cases h⟩
    | none =>
      cases hopen : genericOpen2At w path .unknown with
      | error e => exact .inl ⟨⟨_, rfl⟩, fun _ _ h => by cases h⟩
      | ok r =>
        obtain ⟨m', f⟩ := r
        obtain rfl := hsame hopen
        simp only [Bool.not_eq_true] at hro
        by_cases hload : a.parent = none ∧ a.child = none
        · exact .inr ⟨m', f, rfl, hload.1, hload.2, hro, rfl, rfl⟩
        · refine .inl ⟨?_, fun _ _ _ _ _ hp hc => hload ⟨hp, hc⟩⟩
          have hfail : ∃ e, removeOpened a path f (w.fs m') = (.error e, w.fs m') := by
            rw [removeOpened]
            cases hp : a.parent with
            | some e => exact ⟨_, rfl⟩
            | none =>
              cases hc : a.child with
              | some e => exact ⟨_, rfl⟩
              | none => exact absurd ⟨hp, hc⟩ hload
          obtain ⟨e, he⟩ := hfail
          refine ⟨e, ?_⟩
          simp only [onFs_run, he, World.set_self]

/-- How `ext4_fremove` ends: before it does anything, on a directory, or on a
    file whose name is kept, is gone with an error, or is gone. -/
inductive Called (a : RemoveAnswer) (w : World) (path : List Byte) :
    Except Stop Unit → World → Prop
  | early (e : Stop) (hok : FremoveOk a w path) : Called a w path (.error e) w
  | dir {m : ℕ} {f : OpenedAt} (hopen : genericOpen2At w path .unknown = .ok (m, f))
    (hok : ¬ FremoveOk a w path) : Called a w path (.ok ()) w
  | kept {m : ℕ} {f : OpenedAt} {s' : Ns} (e : Stop)
    (hopen : genericOpen2At w path .unknown = .ok (m, f))
    (hopen' : genericOpen2At (w.set m s') path .unknown = .ok (m, f))
    (hok : (s'.inode f.inode).content = ((w.fs m).inode f.inode).content ↔ FremoveOk a w path) :
    Called a w path (.error e) (w.set m s')
  | lost {m : ℕ} {f : OpenedAt} {s' : Ns} (e : Stop)
    (hopen : genericOpen2At w path .unknown = .ok (m, f))
    (hopen' : genericOpen2At (w.set m s') path .unknown = .error .ENOENT)
    (hok : ¬ FremoveOk a w path) : Called a w path (.error e) (w.set m s')
  | gone {m : ℕ} {f : OpenedAt} {s' : Ns}
    (hopen : genericOpen2At w path .unknown = .ok (m, f))
    (hopen' : genericOpen2At (w.set m s') path .unknown = .error .ENOENT)
    (hok : Gone (w.fs m) s' f.inode ↔ FremoveOk a w path) : Called a w path (.ok ()) (w.set m s')

theorem fremoveWith_run (ht : ∀ m, DirTree (w.fs m)) :
    ∃ r w', fremoveWith a path w = (r, w') ∧ Called a w path r w' := by
  rcases @fremoveWith_cases w a path ht with
    ⟨⟨e, hrun⟩, hnone⟩ | ⟨m, f, hopen, hp, hc, hro, hwalk, hrun⟩
  · exact ⟨_, _, hrun, .early e fun m f hopen hro hw hp hc => (hnone m f hopen hro hw hp hc).elim⟩
  have hone : FremoveOk a w path ↔ FileOk a ((w.fs m).inode f.inode) := by
    constructor
    · exact fun h => h m f hopen hro hwalk hp hc
    · intro h m' f' hopen'
      rw [hopen] at hopen'
      cases hopen'
      exact fun _ _ _ _ => h
  obtain ⟨hm, hfile⟩ := opened_named ht hopen
  rw [onFs_run] at hrun
  by_cases hdir : ((w.fs m).inode f.inode).mode = .directory
  · -- nothing happens, and the result is `EOK`
    have hres : removeOpened a path f (w.fs m) = (.ok (), w.fs m) := by
      rw [removeOpened, hp, hc]
      rw [Prog.bind_ok answer_none, Prog.bind_ok answer_none, Prog.bind_ok (Prog.get_run _),
        if_pos hdir]
      rfl
    rw [hres, World.set_self] at hrun
    exact ⟨_, _, hrun, .dir hopen fun h => (hone.1 h).mode hdir⟩
  obtain ⟨o, hres, hpc, hpar, hn⟩ := hfile hdir
  obtain ⟨r, s', hrem, hend⟩ := removeOpened_run hn hdir hp hc
  rw [hrem] at hrun
  refine ⟨r, w.set m s', hrun, ?_⟩
  have hlost : Unlinked (w.fs m) s' f.parentInode o.name →
      genericOpen2At (w.set m s') path .unknown = .error .ENOENT := by
    rw [← hpar]
    exact fun h => h.not_open hpc hm hres
  cases hend with
  | kept e hok =>
    refine .kept e hopen ((SameNames.giveBack.opened hm).trans hopen) ?_
    rw [hone, giveBack_inode]
    exact hok
  | lost e hname hok => exact .lost e hopen (hlost hname) fun h => hok (hone.1 h)
  | gone hname hok => exact .gone hopen (hlost hname) (hok.trans hone.symm)

theorem FremoveTruthful.fremoveOk (ht : ∀ m, DirTree (w.fs m)) (h : FremoveTruthful a w path) :
    FremoveOk a w path := by
  obtain ⟨r, w', hrun, hend⟩ := @fremoveWith_run w a path ht
  cases hend with
  | early e hok => exact hok
  | dir hopen hok =>
    obtain ⟨⟨e, hgone⟩, -⟩ := h.ok w hrun
    rw [hopen] at hgone
    cases hgone
  | kept e hopen hopen' hok =>
    have := (h.error e _ hrun _ _ hopen).2
    rw [World.set_fs] at this
    exact hok.1 this
  | lost e hopen hopen' hok =>
    have := (h.error e _ hrun _ _ hopen).1
    rw [hopen'] at this
    cases this
  | gone hopen hopen' hok =>
    obtain ⟨m', f', hopen₁, hgone⟩ := (h.ok _ hrun).2
    rw [hopen] at hopen₁
    cases hopen₁
    rw [World.set_fs] at hgone
    exact hok.1 hgone

theorem FremoveOk.truthful (ht : ∀ m, DirTree (w.fs m)) (h : FremoveOk a w path) :
    FremoveTruthful a w path := by
  obtain ⟨r, w', hrun, hend⟩ := @fremoveWith_run w a path ht
  refine ⟨fun w₁ h₁ => ?_, fun e₁ w₁ h₁ m₁ f₁ hopen₁ => ?_⟩
  · rw [hrun] at h₁
    cases hend with
    | early e hok => cases h₁
    | dir hopen hok => exact absurd h hok
    | kept e hopen hopen' hok => cases h₁
    | lost e hopen hopen' hok => cases h₁
    | gone hopen hopen' hok =>
      cases h₁
      refine ⟨⟨_, hopen'⟩, _, _, hopen, ?_⟩
      rw [World.set_fs]
      exact hok.2 h
  · rw [hrun] at h₁
    cases hend with
    | early e hok =>
      cases h₁
      exact ⟨hopen₁, rfl⟩
    | dir hopen hok => cases h₁
    | kept e hopen hopen' hok =>
      cases h₁
      rw [hopen] at hopen₁
      cases hopen₁
      refine ⟨hopen', ?_⟩
      rw [World.set_fs]
      exact hok.2 h
    | lost e hopen hopen' hok => exact absurd h hok
    | gone hopen hopen' hok => cases h₁

/-- **`ext4_fremove` tells the truth exactly** under the condition: it does not
    meet a directory, and nothing fails behind the first change of the file. -/
theorem fremove_truthful_iff (ht : ∀ m, DirTree (w.fs m)) :
    FremoveTruthful a w path ↔ FremoveOk a w path :=
  ⟨fun h => h.fremoveOk ht, fun h => h.truthful ht⟩

end

/-! ## One file below the root -/

/-- The root with the file "f" in inode `12`, of one byte. -/
def oneFile : Ns where
  inode i := if i = 2 then emptyDir 2 2 [⟨[102], 12, .regFile⟩]
    else { newInode .regFile with links := 1, content := [1], data := 1 }
  used i := i = 2 || i = 12
  inodesCount := 16
  freeInodes := 4
  freeBlocks := 100
  dirIndex := false
  filetype := true
  extents := true
  readOnly := false
  choice _ := ⟨0, false, 0, ⟨fun l e => l ++ [e], place_last⟩⟩
  tick := 0
  fill _ := false
  filled := 0

/-- It is mounted at "/". -/
def oneFileWorld : World := ⟨[[47]], fun _ => oneFile⟩

theorem oneFile_isDir {d : ℕ} : oneFile.isDir d = true ↔ d = 2 := by
  rw [isDir_iff]
  constructor
  · rintro ⟨hu, hm⟩
    by_contra hd
    simp [oneFile, hd, newInode, correspondInodeMode] at hm
  · rintro rfl
    exact ⟨rfl, rfl⟩

theorem oneFile_kids {d : ℕ} {e : Entry} (h : e ∈ oneFile.kids d) :
    d = 2 ∧ e = ⟨[102], 12, .regFile⟩ := by
  obtain rfl := oneFile_isDir.1 (isDir_of_mem h)
  exact ⟨rfl, List.mem_singleton.1 h⟩

theorem oneFile_tree : DirTree oneFile where
  rootDir := rfl
  rootUp := rfl
  shape := by
    intro d hd
    obtain rfl := oneFile_isDir.1 hd
    exact ⟨fun _ => ⟨rfl, rfl⟩, nofun, by decide, by decide⟩
  named := by
    intro d e he
    rw [(oneFile_kids he).2]
    exact List.cons_ne_nil _ _
  kid := by
    intro d e he
    rw [(oneFile_kids he).2]
    exact ⟨rfl, by decide⟩
  type := by
    intro d e he
    rw [(oneFile_kids he).2]
    rfl
  parent := by
    intro d e he hd
    rw [(oneFile_kids he).2] at hd
    exact nomatch oneFile_isDir.1 hd
  upDir := by
    intro d hd
    obtain rfl := oneFile_isDir.1 hd
    rfl
  rooted := by
    intro d hd
    obtain rfl := oneFile_isDir.1 hd
    exact ⟨0, rfl⟩

/-- Every step succeeds, but perhaps the search of the entry. -/
def mostlyOk (unlink : Option Errno) : RemoveAnswer where
  walk := none
  parent := none
  child := none
  size := none
  chunk _ := ⟨none, none, fun _ => false, 0, none⟩
  last := ⟨none, none, fun _ => false, 0, none⟩
  unlink := unlink
  free := ⟨none, 0, false⟩

theorem open_f : ∃ f, genericOpen2At oneFileWorld [47, 102] .unknown = .ok (0, f) ∧
    f.inode = 12 := by
  rcases @genericOpen2At_eq oneFileWorld [47, 102] 0 .unknown rfl with
    ⟨o, off, hres, hopen, -⟩ | ⟨hres, -⟩
  · have ho : some ⟨12, 2, [102], .file⟩ = some o := hres
    cases ho
    exact ⟨_, hopen, rfl⟩
  · exact nomatch (hres : some (⟨12, 2, [102], .file⟩ : Opened) = none)

theorem open_d : ∃ f, genericOpen2At oneDirWorld [47, 100] .unknown = .ok (0, f) ∧
    f.inode = 11 := by
  rcases @genericOpen2At_eq oneDirWorld [47, 100] 0 .unknown rfl with
    ⟨o, off, hres, hopen, -⟩ | ⟨hres, -⟩
  · have ho : some ⟨11, 2, [100], .directory⟩ = some o := hres
    cases ho
    exact ⟨_, hopen, rfl⟩
  · exact nomatch (hres : some (⟨11, 2, [100], .directory⟩ : Opened) = none)

/-- "/f" is removed. -/
theorem fremove_truthful_f : FremoveTruthful (mostlyOk none) oneFileWorld [47, 102] := by
  refine (fremove_truthful_iff fun _ => oneFile_tree).2 fun m f hopen _ _ _ _ => ?_
  obtain ⟨f', hf, hi⟩ := open_f
  rw [hf] at hopen
  cases hopen
  rw [hi]
  refine ⟨nofun, nofun, fun _ => .inr (.inl ⟨⟨rfl, fun _ => ⟨?_, rfl, rfl, rfl⟩⟩, rfl, rfl, nofun⟩)⟩
  exact ⟨0, nofun, .inr (by decide)⟩

/-- The content of "/f" is lost when its entry cannot be read, and a directory
    is not removed with `EOK`. -/
theorem fremove_lies :
    ((∀ m, DirTree (oneFileWorld.fs m)) ∧
      ¬ FremoveTruthful (mostlyOk (some Errno.EIO)) oneFileWorld [47, 102]) ∧
    (∀ m, DirTree (oneDirWorld.fs m)) ∧ ¬ FremoveTruthful (mostlyOk none) oneDirWorld [47, 100] := by
  refine ⟨⟨fun _ => oneFile_tree, fun h => ?_⟩, fun _ => oneDir_tree, fun h => ?_⟩
  · obtain ⟨f, hf, hi⟩ := open_f
    have hok := h.fremoveOk (fun _ => oneFile_tree) 0 f hf rfl rfl rfl rfl
    rw [hi] at hok
    rcases hok.last rfl with (h | ⟨-, h | ⟨h, -⟩⟩) | ⟨-, h, -⟩ | ⟨-, -, h⟩
    · exact h rfl
    · exact h rfl
    · exact h rfl
    · cases h
    · cases h
  · obtain ⟨f, hf, hi⟩ := open_d
    have hok := h.fremoveOk (fun _ => oneDir_tree) 0 f hf rfl rfl rfl rfl
    rw [hi] at hok
    exact hok.mode rfl

end Lwext4.Vfs
