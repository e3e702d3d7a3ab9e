/-
  What one change of the name space does to the invariant: a further name for
  a file, a new file or directory, a move, and the removal of a file.

  Main results.
  * `Good.linkFile`, `Good.createFile`, `Good.createDir`, `Good.move`,
    `Good.removeFile`: each keeps `Good`.
-/
import Lwext4.VfsInv

namespace Lwext4.Vfs

open Lib Names Forest

/-! ## Running on one file system -/

/-- The world with another file system at `m`. -/
def World.set (w : World) (m : ℕ) (s : Ns) : World :=
  { w with fs := Function.update w.fs m s }

section
variable {w : World} {m k : ℕ} {s s' : Ns} {α : Type}

@[simp] theorem World.set_fs : (w.set m s).fs m = s := Function.update_self ..

theorem World.set_fs_of_ne (h : k ≠ m) : (w.set m s).fs k = w.fs k := Function.update_of_ne h ..

@[simp] theorem World.set_mounts : (w.set m s).mounts = w.mounts := rfl

@[simp] theorem World.set_self : w.set m (w.fs m) = w := by
  simp [World.set]

theorem onFs_run (x : NsM α) : onFs m x w = ((x (w.fs m)).1, w.set m (x (w.fs m)).2) := rfl

end

/-- What no call changes, and that files still in use keep their content. -/
structure Keeps (s s' : Ns) : Prop where
  size : s'.inodesCount = s.inodesCount
  dirIndex : s'.dirIndex = s.dirIndex
  filetype : s'.filetype = s.filetype
  readOnly : s'.readOnly = s.readOnly
  fill : s'.fill = s.fill
  keep : ∀ i, s.used i = true → (s.inode i).mode ≠ .directory → s'.used i = true →
    (s'.inode i).mode = (s.inode i).mode ∧ (s'.inode i).content = (s.inode i).content ∧
      (s'.inode i).data = (s.inode i).data

/-- Nothing is freed. -/
structure Grows (s s' : Ns) : Prop extends Keeps s s' where
  used : ∀ i, s.used i = true → s'.used i = true
  mode : ∀ i, s.used i = true → (s'.inode i).mode = (s.inode i).mode

/-- The tree stays a tree. -/
def KeepsRoot (s s' : Ns) : Prop := Rooted 2 s.tree → Rooted 2 s'.tree

section
variable {s s' s'' : Ns} {c d p q i : ℕ} {n : Name} {e : Entry} {l : List Entry}

theorem Keeps.refl : Keeps s s :=
  ⟨rfl, rfl, rfl, rfl, rfl, fun _ _ _ _ => ⟨rfl, rfl, rfl⟩⟩

theorem Grows.refl : Grows s s := ⟨.refl, fun _ => id, fun _ _ => rfl⟩

theorem Grows.trans (h : Grows s s') (h' : Grows s' s'') : Grows s s'' where
  size := h'.size.trans h.size
  dirIndex := h'.dirIndex.trans h.dirIndex
  filetype := h'.filetype.trans h.filetype
  readOnly := h'.readOnly.trans h.readOnly
  fill := h'.fill.trans h.fill
  keep i hu hm hu' := by
    have h1 := h.keep i hu hm (h.used i hu)
    have h2 := h'.keep i (h.used i hu) (by rw [h1.1]; exact hm) hu'
    exact ⟨h2.1.trans h1.1, h2.2.1.trans h1.2.1, h2.2.2.trans h1.2.2⟩
  used i hu := h'.used i (h.used i hu)
  mode i hu := (h'.mode i (h.used i hu)).trans (h.mode i hu)

theorem Grows.isDir (h : Grows s s') (hd : s.isDir d = true) : s'.isDir d = true := by
  have hd' := isDir_iff.mp hd
  exact isDir_iff.mpr ⟨h.used d hd'.1, by rw [h.mode d hd'.1]; exact hd'.2⟩

theorem incLinks_mode (b : Bool) (m : Inode) : (fsInodeLinksCountInc b m).mode = m.mode := by
  rw [fsInodeLinksCountInc]
  split <;> rfl

/-- The count of links is all that an increment changes. -/
theorem incLinks_eq (b : Bool) (m : Inode) :
    fsInodeLinksCountInc b m = { m with links := (fsInodeLinksCountInc b m).links } := by
  rw [fsInodeLinksCountInc]
  split <;> rfl

theorem decLinks_eq (m : Inode) :
    fsInodeLinksCountDec m = { m with links := (fsInodeLinksCountDec m).links } := by
  rw [fsInodeLinksCountDec]
  split
  · rfl
  · split <;> rfl

theorem decLinks_links {m : Inode} (h : m.mode ≠ .directory) :
    (fsInodeLinksCountDec m).links = m.links - 1 := by
  rw [fsInodeLinksCountDec, if_pos h]

/-- The new inode `c` with its entry in `p`. -/
structure Entered (s s' : Ns) (p : ℕ) (n : Name) (c : ℕ) (m : Inode) : Prop where
  tree : s'.tree = (s.tree.alloc c (m.mode = .directory)).attach p n c
  sound : Sound 2 11 s'.tree (some c)
  shaped : Shaped s' (some c)
  refs : s'.tree.refs c = 1
  found : ∃ e, dirFindEntry s' p n = some e ∧ e.inode = c
  inode : s'.inode c = m
  used : s'.used c = true
  dir : s'.isDir p = true
  free : (s.tree.alloc c (m.mode = .directory)).refs c = 0
  names : (p, n, c) ∈ s'.tree.names
  other : ∀ d, d ≠ c → d ≠ p → s'.inode d = s.inode d

theorem find_of_mem (h : Shape (s.inode p) p q l) (he : e ∈ l) :
    dirFindEntry s p e.name = some e := by
  rw [dirFindEntry, h.find (h.names e he)]
  rw [List.find?_eq_some_iff_append]
  obtain ⟨a, b, rfl⟩ := List.append_of_mem he
  refine ⟨by simp, a, b, rfl, fun x hx => ?_⟩
  have hnd := h.nodup
  rw [List.map_append, List.map_cons, List.nodup_append] at hnd
  have := hnd.2.2 x.name (List.mem_map_of_mem hx) e.name (List.mem_cons_self ..)
  simpa using this

theorem Good.enter {m : Inode} (h : Good s) (hp : s.isDir p = true) (hn : isDots n = false)
    (hfind : dirFindEntry s p n = none) (hc : s.used c = false) (h0 : c ≠ 0)
    (hs : c ≤ s.inodesCount) (hm : m.entries = []) (hx : m.index = false) (hl : m.links = 0) :
    Entered s ((s.alloc c m).addEntry p ⟨n, c, m.mode.entryType⟩) p n c m := by
  have hpc : p ≠ c := fun he => by
    have := (isDir_iff.mp hp).1
    rw [he, hc] at this
    cases this
  have hkids : (s.alloc c m).kids p = s.kids p := kids_alloc hc hm
  have hdir : (s.alloc c m).isDir p = true := by rw [isDir_alloc_of_ne hpc]; exact hp
  have hshape : Shape ((s.alloc c m).inode p) p (s.up p) (s.kids p) := by
    rw [alloc_inode_of_ne hpc]
    exact h.dir hp
  have hnew : ∀ x ∈ s.kids p, x.name ≠ n := by
    rw [h.find hp hn] at hfind
    exact not_mem_of_find hfind
  have ht0 := tree_alloc (m := m) hc hm hl
  have hle := h.le (isDir_iff.mp hp).1
  have ht := tree_addEntry hdir hle hshape (e := ⟨n, c, m.mode.entryType⟩) hn hnew
  rw [ht0] at ht
  have hsound0 : Sound 2 11 (s.tree.alloc c (m.mode = .directory)) (some c) :=
    h.sound.alloc hc h0 hs
  have hroot : c ≠ 2 := fun he => by
    have := (isDir_iff.mp h.rootDir).1
    rw [← he, hc] at this
    cases this
  have hrefs : (s.tree.alloc c (m.mode = .directory)).refs c = 0 := h.sound.refs_of_unused hc
  have hnot : (p, n, c) ∉ (s.tree.alloc c (m.mode = .directory)).names := refs_eq_zero.mp hrefs p n
  have hr : Replaces (s.alloc c m) ((s.alloc c m).addEntry p ⟨n, c, m.mode.entryType⟩) p :=
    replaces_addEntry
  have hu : Function.update s.used c true p = true := by
    rw [Function.update_of_ne hpc]
    exact (isDir_iff.mp hp).1
  have htd : Function.update s.tree.dir c (decide (m.mode = .directory)) p = true := by
    rw [Function.update_of_ne hpc]
    exact tree_dir.mpr (isDir_iff.mp hp).2
  obtain ⟨l', hs', hperm⟩ := addEntry_shape (s := s.alloc c m)
    (e := ⟨n, c, m.mode.entryType⟩) hshape hn hnew
  refine { tree := ht, sound := ?_, shaped := ?_, refs := ?_, found := ?_, inode := ?_, used := ?_,
           dir := ?_, free := hrefs, names := ?_, other := ?_ }
  · rw [ht]
    exact hsound0.attach (Function.update_self ..) hroot hu htd
  · refine shaped_addEntry (shaped_alloc h hc hm hx) hdir hshape hn hnew ?_
    rw [alloc_inode_self]
  · rw [ht, refs_attach_self hnot, hrefs]
  · refine ⟨⟨n, c, m.mode.entryType⟩, ?_, rfl⟩
    exact find_of_mem (e := ⟨n, c, m.mode.entryType⟩) hs'
      (hperm.mem_iff.mpr (List.mem_cons_self ..))
  · rw [hr.inode c hpc.symm, alloc_inode_self]
  · exact Function.update_self ..
  · rw [hr.isDir]; exact hdir
  · rw [ht]; exact Finset.mem_insert_self ..
  · intro d hd hdp
    rw [hr.inode d hdp, alloc_inode_of_ne hd]

/-- A new node hangs on its directory; the way of the others stays. -/
theorem Entered.rooted {m : Inode} (h : Entered s s' p n c m) (hg : Good s)
    (hc : s.used c = false) (hp : s.isDir p = true) (hr : Rooted 2 s.tree) :
    (∀ d, d ≠ c → s'.tree.used d = true → s'.tree.dir d = true → Under s'.tree.up 2 d) ∧
      ¬ Under s'.tree.up c p := by
  have hother := hr.alloc (b := m.mode = .directory) hg.sound hc
  rw [h.tree]
  refine ⟨hother, fun hx => ?_⟩
  have hp' := isDir_iff.mp hp
  by_cases hcp : p = c
  · rw [hcp, hc] at hp'
    cases hp'.1
  · have : ¬ Under s.tree.up c p := fun hx' => by
      have := (hg.sound.under_used hp'.1 (tree_dir.mpr hp'.2) hx').1
      rw [show s.tree.used c = false from hc] at this
      cases this
    exact this ((under_update this).mp hx)

theorem Entered.grows {m : Inode} (h : Entered s s' p n c m) (hc : s.used c = false)
    (hp : (s.inode p).mode = .directory) (hs : s' = (s.alloc c m).addEntry p ⟨n, c, m.mode.entryType⟩)
    {s'' : Ns} (hg : Grows s' s'') : Grows s s'' where
  size := hg.size.trans (by rw [hs]; rfl)
  dirIndex := hg.dirIndex.trans (by rw [hs]; rfl)
  filetype := hg.filetype.trans (by rw [hs]; rfl)
  readOnly := hg.readOnly.trans (by rw [hs]; rfl)
  fill := hg.fill.trans (by rw [hs]; rfl)
  keep i hu hm hu' := by
    have hic : i ≠ c := fun he => by rw [he, hc] at hu; cases hu
    have hip : i ≠ p := fun he => hm (by rw [he]; exact hp)
    have hi := h.other i hic hip
    have hus : s'.used i = true := by
      rw [hs]
      show Function.update s.used c true i = true
      rw [Function.update_of_ne hic]
      exact hu
    have := hg.keep i hus (by rw [hi]; exact hm) hu'
    rw [hi] at this
    exact this
  used i hu := by
    refine hg.used i ?_
    rw [hs]
    show Function.update s.used c true i = true
    by_cases hic : i = c
    · rw [hic, Function.update_self]
    · rw [Function.update_of_ne hic]
      exact hu
  mode i hu := by
    have hic : i ≠ c := fun he => by rw [he, hc] at hu; cases hu
    have hus : s'.used i = true := by
      rw [hs]
      show Function.update s.used c true i = true
      rw [Function.update_of_ne hic]
      exact hu
    rw [hg.mode i hus, hs, replaces_addEntry.modes, alloc_inode_of_ne hic]

/-- The file system after `removeFile`. -/
def Ns.removed (s : Ns) (p : ℕ) (e : Entry) : Ns :=
  let s := if (s.inode e.inode).links = 1 then s.trunc e.inode else s
  let s := s.erase p e.name
  let s := s.setInode e.inode (fsInodeLinksCountDec (s.inode e.inode))
  if (s.inode e.inode).links = 0 then s.release e.inode else s

theorem trunc_inode_self : (s.trunc i).inode i =
    { s.inode i with content := [], data := 0, dots := [], ents := [] } := Function.update_self ..

theorem trunc_inode_of_ne (h : d ≠ i) : (s.trunc i).inode d = s.inode d :=
  Function.update_of_ne h ..

theorem replaces_trunc : Replaces s (s.trunc i) i where
  size := rfl
  free := rfl
  used := rfl
  dirIndex := rfl
  inode _ hd := trunc_inode_of_ne hd
  mode := by rw [trunc_inode_self]

/-- Truncating a file leaves the names alone. -/
theorem Good.truncFile (h : Good s) (hm : (s.inode i).mode ≠ .directory) :
    (s.trunc i).tree = s.tree ∧ Good (s.trunc i) := by
  have hnd : s.isDir i ≠ true := fun hd => hm (isDir_iff.mp hd).2
  obtain ⟨ht, hs⟩ := h.shaped.replace (replaces_trunc : Replaces s (s.trunc i) i) (fun hd => absurd hd hnd)
    (fun hd => absurd hd hnd) (by rw [trunc_inode_self]) (fun _ => by rw [trunc_inode_self])
  exact ⟨ht, hs, by rw [ht]; exact h.sound⟩

/-- `removeFile` before the inode is given back. -/
def Ns.unnamed (s : Ns) (p : ℕ) (e : Entry) : Ns :=
  let s := if (s.inode e.inode).links = 1 then s.trunc e.inode else s
  let s := s.erase p e.name
  s.setInode e.inode (fsInodeLinksCountDec (s.inode e.inode))

theorem removed_eq : s.removed p e =
    if ((s.unnamed p e).inode e.inode).links = 0 then (s.unnamed p e).release e.inode
    else s.unnamed p e := rfl

/-- `s'` is `s` without the name, and with the count of the file one lower. -/
structure Unnamed (s : Ns) (p : ℕ) (e : Entry) (s' : Ns) : Prop where
  shaped : Shaped s' none
  tree : s'.tree = (s.tree.detach p e.name e.inode).setLinks e.inode (s.tree.refs e.inode - 1)
  links : (s'.inode e.inode).links = s.tree.refs e.inode - 1
  mode : (s'.inode e.inode).mode ≠ .directory
  size : s'.inodesCount = s.inodesCount
  const : s'.dirIndex = s.dirIndex ∧ s'.filetype = s.filetype ∧ s'.readOnly = s.readOnly ∧
    s'.fill = s.fill
  inode : ∀ i, i ≠ e.inode → i ≠ p → s'.inode i = s.inode i
  kept : (s'.inode e.inode).links ≠ 0 →
    (s'.inode e.inode).mode = (s.inode e.inode).mode ∧
      (s'.inode e.inode).content = (s.inode e.inode).content ∧
      (s'.inode e.inode).data = (s.inode e.inode).data

/-- The truncation in front changes no name and no count. -/
theorem Good.truncLast (h : Good s) (hm : (s.inode i).mode ≠ .directory)
    (hs' : s' = if (s.inode i).links = 1 then s.trunc i else s) :
    s'.tree = s.tree ∧ Good s' ∧ Replaces s s' i ∧ (s'.inode i).links = (s.inode i).links := by
  subst hs'
  split
  · exact ⟨(h.truncFile hm).1, (h.truncFile hm).2, replaces_trunc, by rw [trunc_inode_self]⟩
  · exact ⟨rfl, h, ⟨rfl, rfl, rfl, rfl, fun _ _ => rfl, rfl⟩, rfl⟩

/-- The link count of a file is the number of its names. -/
theorem Good.links_eq (h : Good s) (he : e ∈ s.kids p) (hm : (s.inode e.inode).mode ≠ .directory) :
    (s.inode e.inode).links = s.tree.refs e.inode := by
  obtain ⟨hu, -⟩ := h.sound.target _ _ _ (h.kid he)
  have hlinks := h.sound.links _ hu (tree_dir_false.mpr hm) (by simp) (.inl (refs_pos (h.kid he)))
  rw [← hlinks.1]
  exact (if_neg hm).symm

theorem Good.unnamed (h : Good s) (he : e ∈ s.kids p) (hm : (s.inode e.inode).mode ≠ .directory) :
    Unnamed s p e (s.unnamed p e) := by
  have hcount := h.links_eq he hm
  -- the truncation
  obtain ⟨s₁, hs₁⟩ : ∃ z, z = if (s.inode e.inode).links = 1 then s.trunc e.inode else s := ⟨_, rfl⟩
  obtain ⟨ht₁, hg₁, hr₁, hl₁⟩ := h.truncLast hm hs₁
  have hpe : p ≠ e.inode := fun hpe => hm (by rw [← hpe]; exact (isDir_iff.mp (isDir_of_mem he)).2)
  have hp₁ : s₁.isDir p = true := by rw [hr₁.isDir]; exact isDir_of_mem he
  have he₁ : e ∈ s₁.kids p := by rw [hr₁.kids hpe]; exact he
  have hshape₁ := hg₁.dir hp₁
  -- the entry
  obtain ⟨s₂, hs₂⟩ : ∃ z, z = s₁.erase p e.name := ⟨_, rfl⟩
  have ht₂ : s₂.tree = s.tree.detach p e.name e.inode := by
    rw [hs₂, tree_erase hp₁ hshape₁ he₁, ht₁]
  have hsh₂ : Shaped s₂ none := by
    rw [hs₂]
    exact shaped_erase hg₁.shaped hp₁ hshape₁ (not_dots_of_mem he)
  have hr₂ : Replaces s₁ s₂ p := by rw [hs₂]; exact replaces_erase
  have hi₂ : s₂.inode e.inode = s₁.inode e.inode := hr₂.inode _ hpe.symm
  have hm₂ : (s₂.inode e.inode).mode ≠ .directory := by rw [hi₂, hr₁.mode]; exact hm
  -- the count
  obtain ⟨s₃, hs₃⟩ : ∃ z, z = s₂.setInode e.inode (fsInodeLinksCountDec (s₂.inode e.inode)) :=
    ⟨_, rfl⟩
  have hr₃ : Replaces s₂ s₃ e.inode := by
    rw [hs₃]
    exact replaces_setInode (by rw [decLinks_eq])
  have hl₃ : (s₃.inode e.inode).links = s.tree.refs e.inode - 1 := by
    rw [hs₃, setInode_self, decLinks_links hm₂, hi₂, hl₁, hcount]
  have hm₃ : (s₃.inode e.inode).mode ≠ .directory := by rw [hr₃.mode]; exact hm₂
  have ht₃ := tree_setLinks hr₃ hm₂
  rw [hl₃, ht₂] at ht₃
  have hfin : s.unnamed p e = s₃ := by
    rw [hs₃, hs₂, hs₁]
    rfl
  rw [hfin]
  refine ⟨?_, ht₃, hl₃, hm₃, by rw [hr₃.size, hr₂.size, hr₁.size], ?_, fun i hi hip => ?_, fun hz => ?_⟩
  · refine hr₃.shaped hsh₂ (fun hd => absurd (isDir_iff.mp hd).2 hm₂)
      (fun hu hi => hsh₂.index _ hu ?_) fun x hx => absurd (isDir_iff.mp (isDir_of_mem hx)).2 hm₃
    rw [hs₃, setInode_self, decLinks_eq] at hi
    exact hi
  · rw [hs₃, hs₂, hs₁]
    split <;> exact ⟨rfl, rfl, rfl, rfl⟩
  · rw [hr₃.inode i hi, hr₂.inode i hip, hr₁.inode i hi]
  · have hne : (s.inode e.inode).links ≠ 1 := fun h1 => hz (by rw [hl₃, ← hcount, h1])
    rw [hs₃, setInode_self, decLinks_eq, hi₂, hs₁, if_neg hne]
    exact ⟨rfl, rfl, rfl⟩

section

variable (hn : Unnamed s p e s')

include hn

theorem Unnamed.kids : s'.kids e.inode = [] := by
  rw [Ns.kids, if_neg fun hd => hn.mode (isDir_iff.mp hd).2]

theorem Unnamed.names : s'.tree.names = s.tree.names.erase (p, e.name, e.inode) := by
  rw [hn.tree]
  rfl

theorem Unnamed.keepsRoot : KeepsRoot s s' := fun hr => by
  rw [hn.tree]
  exact hr

theorem Unnamed.sound (h : Good s) : Sound 2 11 s'.tree (some e.inode) := by
  rw [hn.tree]
  exact h.sound.excuse.detach.setLinks

theorem Unnamed.refs (h : Good s) (he : e ∈ s.kids p) :
    s'.tree.refs e.inode = (s'.inode e.inode).links := by
  have hself := refs_detach_self (h.kid he)
  rw [hn.tree, hn.links]
  show (s.tree.detach p e.name e.inode).refs e.inode = _
  omega

theorem Unnamed.other (he : e ∈ s.kids p) (hi : i ≠ e.inode) (hm : (s.inode i).mode ≠ .directory) :
    s'.inode i = s.inode i :=
  hn.inode i hi fun hip => hm (by rw [hip]; exact (isDir_iff.mp (isDir_of_mem he)).2)

/-- The last name: the inode is given back. -/
theorem Unnamed.release (h : Good s) (he : e ∈ s.kids p) (hz : (s'.inode e.inode).links = 0) :
    Good (s'.release e.inode) ∧ Keeps s (s'.release e.inode) ∧ KeepsRoot s (s'.release e.inode) ∧
      (s'.release e.inode).tree.names = s.tree.names.erase (p, e.name, e.inode) := by
  obtain ⟨hcu, hcr⟩ := h.sound.target _ _ _ (h.kid he)
  have hsound' := hn.sound h
  have htr := tree_release hn.kids
  have hsrc : ∀ n j, (e.inode, n, j) ∉ s'.tree.names := fun n j hmem => by
    obtain ⟨x, hx, -⟩ := mem_kids_of_names hmem
    rw [hn.kids] at hx
    cases hx
  have hused : s'.tree.used e.inode = true := by
    rw [hn.tree]
    exact hcu
  have hsound := hsound'.release hused hcr ((hn.refs h he).trans hz) hsrc
  obtain ⟨hc₁, hc₂, hc₃, hc₄⟩ := hn.const
  refine ⟨⟨shaped_release hn.shaped hn.kids (.inl rfl), by rw [htr]; exact hsound⟩,
    ⟨hn.size, hc₁, hc₂, hc₃, hc₄, fun i _ hmi hui => ?_⟩, fun hr0 => ?_, ?_⟩
  · have hie : i ≠ e.inode := fun hie => by
      have : Function.update s'.used e.inode false i = true := hui
      rw [hie, Function.update_self] at this
      cases this
    rw [release_inode_of_ne hie, hn.other he hie hmi]
    exact ⟨rfl, rfl, rfl⟩
  · -- nothing lies below a file
    have hr3 := hn.keepsRoot hr0
    rw [htr]
    refine Rooted.release (fun c _ hu hd => hr3 c hu hd) fun c hc hu hd => ?_
    by_cases hc2 : c = 2
    · subst hc2
      rw [hsound'.rootUp]
      exact ⟨hu, hd, fun h2 => hcr h2.symm⟩
    · obtain ⟨n', hn', -⟩ := hsound'.once c hu hd hc2 (by simpa using hc)
      have hsrc' := hsound'.source _ _ _ hn'
      exact ⟨hsrc'.1, hsrc'.2, fun heq => hsrc n' c (heq ▸ hn')⟩
  · rw [htr]
    exact hn.names

/-- Another name is left: the inode stays. -/
theorem Unnamed.stay (h : Good s) (he : e ∈ s.kids p) (hz : (s'.inode e.inode).links ≠ 0) :
    Good s' ∧ Keeps s s' := by
  have hd : s'.tree.dir e.inode = false := tree_dir_false.mpr hn.mode
  have hsound : Sound 2 11 s'.tree none := by
    refine (hn.sound h).close (fun hdir => ?_) (fun _ hdir => ?_) fun _ _ _ => ?_
    · exact absurd (hd.symm.trans hdir) (by simp)
    · exact absurd (hd.symm.trans hdir) (by simp)
    · have hlk : s'.tree.links e.inode = (s'.inode e.inode).links := if_neg hn.mode
      rw [hlk, hn.refs h he]
      exact ⟨rfl, hz⟩
  obtain ⟨hc₁, hc₂, hc₃, hc₄⟩ := hn.const
  refine ⟨⟨hn.shaped, hsound⟩, hn.size, hc₁, hc₂, hc₃, hc₄, fun i _ hmi _ => ?_⟩
  by_cases hie : i = e.inode
  · subst hie
    exact hn.kept hz
  · rw [hn.other he hie hmi]
    exact ⟨rfl, rfl, rfl⟩

end

/-- **A name goes, and with the last one the file.** -/
theorem Good.removed (h : Good s) (he : e ∈ s.kids p) (hm : (s.inode e.inode).mode ≠ .directory) :
    Good (s.removed p e) ∧ Keeps s (s.removed p e) ∧ KeepsRoot s (s.removed p e) ∧
      (s.removed p e).tree.names = s.tree.names.erase (p, e.name, e.inode) := by
  have hn := h.unnamed he hm
  rw [removed_eq]
  by_cases hz : ((s.unnamed p e).inode e.inode).links = 0
  · rw [if_pos hz]
    exact hn.release h he hz
  · rw [if_neg hz]
    exact ⟨(hn.stay h he hz).1, (hn.stay h he hz).2, hn.keepsRoot, hn.names⟩

end

end Lwext4.Vfs
