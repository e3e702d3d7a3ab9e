/-
  ext4_dir_rm removes the subtree and nothing else.

  The loops take away one entry at a time, first what lies below a directory
  and then the directory itself.  Every entry they take is the only name of a
  file or of an empty directory, so that the file system is tidy after each
  round; `Swept s s' G` says that from `s` the nodes in `G` have gone and
  nothing else.  The rounds through a directory are followed by induction on
  the number of nodes below it, which also bounds how many there are.

  Main results.
  * `rmLoop_empties`: the loops come back to the directory with all gone below.
  * `dirRm_subtree`: the call removes the directory with all that lies below.
-/
import Lwext4.VfsResolve

namespace Lwext4.Vfs

open Lib Names Forest

/-- Names and nodes agree, and every directory lies under the root. -/
structure Tidy (s : Ns) : Prop where
  good : Good s
  rooted : Rooted rootIndex s.tree

/-- `i` has a name in the directory `c` or in one below it. -/
def Below (s : Ns) (c i : ℕ) : Prop :=
  ∃ p e, s.isDir p = true ∧ Under s.up c p ∧ e ∈ s.kids p ∧ e.inode = i

/-- What is left of a link count when one more subdirectory has gone. -/
def dropLink (k : ℕ) : ℕ := if 2 < k then k - 1 else k

/-- The number of subdirectories of `d` in `G`. -/
def Ns.subdirs (s : Ns) (d : ℕ) (G : Finset ℕ) : ℕ :=
  (s.kids d).countP fun e => e.inode ∈ G ∧ (s.inode e.inode).mode = .directory

/-- The nodes in `G` have gone, each with its names and its blocks, and nothing
    else: what lies below one of them goes too. -/
structure Swept (s s' : Ns) (G : Finset ℕ) : Prop where
  tidy : Tidy s'
  keeps : s'.inodesCount = s.inodesCount ∧ s'.dirIndex = s.dirIndex ∧ s'.fill = s.fill ∧
    s'.readOnly = s.readOnly ∧ s'.filetype = s.filetype ∧ s'.extents = s.extents
  gone : ∀ i ∈ G, s.used i = true
  closed : ∀ d ∈ G, ∀ e ∈ s.kids d, e.inode ∈ G
  used : ∀ i, s'.used i = true ↔ s.used i = true ∧ i ∉ G
  mode : ∀ i, (s'.inode i).mode = (s.inode i).mode
  kids : ∀ d, s'.isDir d = true → s'.kids d = (s.kids d).filter fun e => e.inode ∉ G
  up : ∀ d, s'.isDir d = true → s'.up d = s.up d
  index : ∀ i, (s'.inode i).index = (s.inode i).index
  blocks : ∀ i, s'.used i = true →
    (s'.inode i).data = (s.inode i).data ∧ (s'.inode i).aux = (s.inode i).aux
  inode : ∀ i, s'.used i = true → (∀ e ∈ s.kids i, e.inode ∉ G) → s'.inode i = s.inode i
  links : ∀ d, s'.isDir d = true →
    (s'.inode d).links = dropLink^[s.subdirs d G] (s.inode d).links
  freeInodes : s'.freeInodes = s.freeInodes + G.card
  freeBlocks : s'.freeBlocks = s.freeBlocks + ∑ i ∈ G, ((s.inode i).data + (s.inode i).aux : ℕ)

section
variable {s s' s'' : Ns} {c d p i : ℕ} {e e' : Entry} {G G' : Finset ℕ}

theorem decLinks_dir {n : Inode} (h : n.mode = .directory) :
    fsInodeLinksCountDec n = { n with links := dropLink n.links } := by
  rw [fsInodeLinksCountDec, if_neg (not_not.2 h), dropLink]
  split_ifs
  · rfl
  · rfl

/-! ## One name -/

/-- No directory has a name in itself. -/
theorem Tidy.parent_ne (h : Tidy s) (he : e ∈ s.kids p) : p ≠ e.inode := by
  rintro rfl
  have hname := h.good.kid he
  obtain ⟨hu, hroot⟩ := h.good.sound.target _ _ _ hname
  have hd : s.tree.dir e.inode = true := tree_dir.2 (isDir_iff.1 (isDir_of_mem he)).2
  have hup := h.good.sound.parent _ _ _ hname (by simp) hd
  exact hroot ((under_fixed hup).1 (h.rooted e.inode hu hd))

theorem Tidy.under (h : Tidy s) (hd : s.isDir d = true) : Under s.up rootIndex d :=
  h.rooted d (isDir_iff.1 hd).1 (tree_dir.2 (isDir_iff.1 hd).2)

/-- The directory a directory is named in is the one its `..` names. -/
theorem Tidy.parent (h : Tidy s) (he : e ∈ s.kids p) (hd : s.isDir e.inode = true) :
    s.up e.inode = p :=
  h.good.sound.parent _ _ _ (h.good.kid he) (by simp) (tree_dir.2 (isDir_iff.1 hd).2)

/-- An entry is known by its name. -/
theorem Tidy.entry_eq (h : Tidy s) (he : e ∈ s.kids p) (he' : e' ∈ s.kids p)
    (hn : e.name = e'.name) : e = e' :=
  List.inj_on_of_nodup_map (h.good.dir (isDir_of_mem he)).nodup he he' hn

/-- A directory, and a file with one link, has one name. -/
theorem Tidy.single (h : Tidy s) (he : e ∈ s.kids p) (he' : e' ∈ s.kids d)
    (hi : e'.inode = e.inode)
    (hl : (s.inode e.inode).mode ≠ .directory → (s.inode e.inode).links = 1) :
    d = p ∧ e' = e := by
  have hk := h.good.kid he
  have hk' := h.good.kid he'
  rw [hi] at hk'
  have hname : d = p ∧ e'.name = e.name := by
    by_cases hm : (s.inode e.inode).mode = .directory
    · have hd : s.isDir e.inode = true := isDir_iff.2 ⟨(h.good.kid_used he).1, hm⟩
      have hp := h.parent he hd
      have hp' : s.up e.inode = d := by
        rw [← hi] at hd ⊢
        exact h.parent he' hd
      obtain ⟨n, -, hn⟩ := h.good.sound.once e.inode (h.good.kid_used he).1 (tree_dir.2 hm)
        (h.good.kid_used he).2 (by simp)
      have hup : s.tree.up e.inode = p := hp
      rw [hup] at hn
      rw [hp] at hp'
      subst hp'
      exact ⟨rfl, (hn _ hk').trans (hn _ hk).symm⟩
    · have hlinks := h.good.sound.links _ (h.good.kid_used he).1 (tree_dir_false.2 hm) (by simp)
        (.inl (refs_pos hk))
      have hone : s.tree.refs e.inode = 1 := by
        rw [← hlinks.1, ← hl hm]
        exact if_neg hm
      obtain ⟨x, hx⟩ := Finset.card_eq_one.1 hone
      have hmem : ∀ y : ℕ × Name × ℕ, y ∈ s.tree.names → y.2.2 = e.inode → y = x := by
        intro y hy hyi
        rw [← Finset.mem_singleton, ← hx]
        exact Finset.mem_filter.2 ⟨hy, hyi⟩
      have heq := (hmem _ hk' rfl).trans (hmem _ hk rfl).symm
      exact ⟨congrArg Prod.fst heq, congrArg (fun y => y.2.1) heq⟩
  obtain ⟨rfl, hn⟩ := hname
  exact ⟨rfl, h.entry_eq he' he hn⟩

/-- A directory other than the root has a name in the one its `..` names. -/
theorem Tidy.named (h : Tidy s) (hd : s.isDir c = true) (hr : c ≠ rootIndex) :
    ∃ e ∈ s.kids (s.up c), e.inode = c := by
  obtain ⟨hu, hm⟩ := isDir_iff.1 hd
  obtain ⟨n, hn, -⟩ := h.good.sound.once c hu (tree_dir.2 hm) hr (by simp)
  obtain ⟨x, hx, -, hi⟩ := mem_kids_of_names hn
  exact ⟨x, hx, hi⟩

theorem Below.used (h : Tidy s) (hb : Below s c i) : s.used i = true := by
  obtain ⟨p, e, -, -, he, rfl⟩ := hb
  exact (h.good.kid_used he).1

theorem Below.under (h : Tidy s) (hb : Below s c d) (hd : s.isDir d = true) :
    Under s.up c (s.up d) := by
  obtain ⟨p, e, -, hu, he, rfl⟩ := hb
  rw [h.parent he hd]
  exact hu

/-- What lies below a subdirectory lies below the directory. -/
theorem Below.up (h : Tidy s) (he : e ∈ s.kids p) (hb : Below s e.inode i) : Below s p i := by
  obtain ⟨q, x, hq, hu, hx, rfl⟩ := hb
  have hd : s.isDir e.inode = true := by
    obtain ⟨n, hn⟩ := hu
    rw [← hn]
    clear hn
    induction n with
    | zero => exact hq
    | succ n ih =>
      rw [Function.iterate_succ_apply']
      exact h.good.up_dir ih
  refine ⟨q, x, hq, ?_, hx, rfl⟩
  rw [← h.parent he hd]
  exact hu.parent

open Classical in
/-- The nodes below a directory. -/
noncomputable def Ns.below (s : Ns) (c : ℕ) : Finset ℕ :=
  (Finset.range (s.inodesCount + 1)).filter (Below s c)

theorem mem_below (h : Tidy s) : i ∈ s.below c ↔ Below s c i := by
  classical
  rw [Ns.below, Finset.mem_filter, Finset.mem_range, and_iff_right_iff_imp]
  intro hb
  exact Nat.lt_succ_of_le (h.good.le (hb.used h))

/-- One entry names one subdirectory, when it names one. -/
theorem Tidy.subdirs_of_mem (h : Tidy s) (he : e ∈ s.kids p)
    (hl : (s.inode e.inode).mode ≠ .directory → (s.inode e.inode).links = 1) :
    s.subdirs p {e.inode} = if (s.inode e.inode).mode = .directory then 1 else 0 := by
  have hsame : ∀ x ∈ s.kids p, x.inode ∈ ({e.inode} : Finset ℕ) ↔ x = e := by
    intro x hx
    rw [Finset.mem_singleton]
    exact ⟨fun hi => (h.single he hx hi hl).2, fun hx => by rw [hx]⟩
  rw [Ns.subdirs]
  by_cases hm : (s.inode e.inode).mode = .directory
  · have hnd := List.Nodup.of_map _ (h.good.dir (isDir_of_mem he)).nodup
    rw [if_pos hm, ← List.count_eq_one_of_mem hnd he, List.count]
    refine List.countP_congr fun x hx => ?_
    rw [decide_eq_true_eq, hsame x hx, beq_iff_eq, and_iff_left_iff_imp]
    rintro rfl
    exact hm
  · rw [if_neg hm, List.countP_eq_zero]
    intro x hx hc
    obtain ⟨hi, hd⟩ := of_decide_eq_true hc
    rw [(hsame x hx).1 hi] at hd
    exact hm hd

/-! ## Taking away the only name of a node -/

/-- In a list with every name once, the entry of a name is the one that has it. -/
theorem eraseP_name {l : List Entry} {n : Name} (h : (l.map Entry.name).Nodup) :
    l.eraseP (fun x => x.name = n) = l.filter fun x => x.name ≠ n := by
  induction l with
  | nil => rfl
  | cons x l ih =>
    rw [List.map_cons, List.nodup_cons] at h
    by_cases hx : x.name = n
    · rw [List.eraseP_cons_of_pos (by simpa using hx), List.filter_cons_of_neg (by simpa using hx)]
      refine (List.filter_eq_self.2 fun y hy => ?_).symm
      have hne : y.name ≠ n := by
        rintro rfl
        exact h.1 (hx ▸ List.mem_map_of_mem hy)
      simpa using hne
    · rw [List.eraseP_cons_of_neg (by simpa using hx), List.filter_cons_of_pos (by simpa using hx),
        ih h.2]

/-- What the removal of one entry leaves. -/
structure Dropped (s s' : Ns) (p : ℕ) (e : Entry) : Prop where
  tidy : Tidy s'
  keeps : s'.inodesCount = s.inodesCount ∧ s'.dirIndex = s.dirIndex ∧ s'.fill = s.fill ∧
    s'.readOnly = s.readOnly ∧ s'.filetype = s.filetype ∧ s'.extents = s.extents
  used : s'.used = Function.update s.used e.inode false
  other : ∀ x, x ≠ p → x ≠ e.inode → s'.inode x = s.inode x
  self : (s'.inode e.inode).mode = (s.inode e.inode).mode ∧
    (s'.inode e.inode).index = (s.inode e.inode).index
  parent : s'.inode p = { (s.inode p).erase e.name with
    links := if (s.inode e.inode).mode = .directory then dropLink (s.inode p).links
      else (s.inode p).links }
  freeInodes : s'.freeInodes = s.freeInodes + 1
  freeBlocks : s'.freeBlocks =
    s.freeBlocks + ((s.inode e.inode).data + (s.inode e.inode).aux : ℕ)

theorem Dropped.modes (h : Dropped s s' p e) (i : ℕ) : (s'.inode i).mode = (s.inode i).mode := by
  by_cases hi : i = e.inode
  · rw [hi]
    exact h.self.1
  · by_cases hip : i = p
    · rw [hip, h.parent]
      rfl
    · rw [h.other i hip hi]

theorem Dropped.indexes (h : Dropped s s' p e) (i : ℕ) :
    (s'.inode i).index = (s.inode i).index := by
  by_cases hi : i = e.inode
  · rw [hi]
    exact h.self.2
  · by_cases hip : i = p
    · rw [hip, h.parent]
      rfl
    · rw [h.other i hip hi]

theorem Dropped.used_iff (h : Dropped s s' p e) (i : ℕ) :
    s'.used i = true ↔ s.used i = true ∧ i ∉ ({e.inode} : Finset ℕ) := by
  rw [h.used, Finset.mem_singleton]
  by_cases hi : i = e.inode
  · subst hi
    simp
  · rw [Function.update_of_ne hi]
    simp [hi]

theorem Dropped.isDir_of (h : Dropped s s' p e) (hd : s'.isDir i = true) :
    s.isDir i = true ∧ i ≠ e.inode := by
  obtain ⟨hu, hm⟩ := isDir_iff.1 hd
  obtain ⟨hu', hne⟩ := (h.used_iff i).1 hu
  exact ⟨isDir_iff.2 ⟨hu', by rw [← h.modes]; exact hm⟩, Finset.notMem_singleton.1 hne⟩

/-- The directory without the entry, as it lies there. -/
theorem Dropped.up_kids (hs : Tidy s) (h : Dropped s s' p e) (he : e ∈ s.kids p) :
    s'.up p = s.up p ∧ s'.kids p = (s.kids p).eraseP fun x => x.name = e.name := by
  have hp := isDir_of_mem he
  have hp' : s'.isDir p = true := by
    rw [isDir_iff, h.modes, h.used_iff, Finset.mem_singleton]
    exact ⟨⟨(isDir_iff.1 hp).1, hs.parent_ne he⟩, (isDir_iff.1 hp).2⟩
  have hsh := (hs.good.dir hp).erase (not_dots_of_mem he)
  have hshape : Shape (s'.inode p) p (s.up p) ((s.kids p).eraseP fun x => x.name = e.name) := by
    rw [h.parent]
    exact ⟨hsh.plain, hsh.indexed, hsh.names, hsh.nodup⟩
  exact hshape.up_kids hp'

/-- **The node of the entry has gone.** -/
theorem Dropped.swept (hs : Tidy s) (h : Dropped s s' p e) (he : e ∈ s.kids p)
    (hl : (s.inode e.inode).mode ≠ .directory → (s.inode e.inode).links = 1)
    (hk : s.kids e.inode = []) : Swept s s' {e.inode} := by
  obtain ⟨hup, hkids⟩ := h.up_kids hs he
  -- no other directory has an entry of the node
  have hclean : ∀ d ≠ p, ∀ x ∈ s.kids d, x.inode ∉ ({e.inode} : Finset ℕ) := by
    intro d hd x hx
    rw [Finset.mem_singleton]
    intro hi
    exact hd (hs.single he hx hi hl).1
  refine ⟨h.tidy, h.keeps, ?_, ?_, h.used_iff, h.modes, ?_, ?_, h.indexes, ?_, ?_, ?_, ?_, ?_⟩
  · intro i hi
    rw [Finset.mem_singleton.1 hi]
    exact (hs.good.kid_used he).1
  · intro d hd x hx
    rw [Finset.mem_singleton.1 hd, hk] at hx
    cases hx
  · intro d hd
    by_cases hdp : d = p
    · subst hdp
      rw [hkids, eraseP_name (hs.good.dir (isDir_of_mem he)).nodup]
      refine List.filter_congr fun x hx => ?_
      rw [decide_eq_decide, Finset.mem_singleton]
      refine not_congr ⟨fun hn => ?_, fun hi => ?_⟩
      · rw [hs.entry_eq hx he hn]
      · rw [(hs.single he hx hi hl).2]
    · have hfilter : (s.kids d).filter (fun x => x.inode ∉ ({e.inode} : Finset ℕ)) = s.kids d :=
        List.filter_eq_self.2 fun x hx => by simpa using hclean d hdp x hx
      rw [hfilter, kids_of_isDir hd, kids_of_isDir (h.isDir_of hd).1,
        h.other d hdp (h.isDir_of hd).2]
  · intro d hd
    by_cases hdp : d = p
    · subst hdp
      exact hup
    · rw [Ns.up, Ns.up, if_pos hd, if_pos (h.isDir_of hd).1, h.other d hdp (h.isDir_of hd).2]
  · intro i hi
    have hne := Finset.notMem_singleton.1 ((h.used_iff i).1 hi).2
    by_cases hip : i = p
    · rw [hip, h.parent]
      exact ⟨rfl, rfl⟩
    · rw [h.other i hip hne]
      exact ⟨rfl, rfl⟩
  · intro i hi hnone
    have hne := Finset.notMem_singleton.1 ((h.used_iff i).1 hi).2
    have hip : i ≠ p := by
      rintro rfl
      exact hnone e he (Finset.mem_singleton_self _)
    exact h.other i hip hne
  · intro d hd
    by_cases hdp : d = p
    · subst hdp
      rw [hs.subdirs_of_mem he hl, h.parent]
      split_ifs
      · rfl
      · rfl
    · have hnone : s.subdirs d {e.inode} = 0 := by
        rw [Ns.subdirs, List.countP_eq_zero]
        intro x hx hc
        exact hclean d hdp x hx (of_decide_eq_true hc).1
      rw [hnone, h.other d hdp (h.isDir_of hd).2]
      rfl
  · rw [h.freeInodes, Finset.card_singleton]
  · rw [h.freeBlocks, Finset.sum_singleton]

/-- What the rounds ask of a node: a file has one link, and an index has its
    blocks or finds room for them, by extents. -/
structure Loose (s : Ns) (i : ℕ) : Prop where
  file : (s.inode i).mode ≠ .directory → (s.inode i).links = 1
  room : s.dirIndex = true → s.isDir i = true →
    (s.inode i).index = true ∨ s.extents = true ∧ ∀ j, s.fill j = true

theorem Loose.swept (h : Loose s i) (hs : Swept s s' G) (hi : s'.used i = true) :
    Loose s' i where
  file hm := by
    rw [hs.mode] at hm
    have hnone : ∀ e ∈ s.kids i, e.inode ∉ G := fun e he =>
      absurd (isDir_iff.1 (isDir_of_mem he)).2 hm
    rw [hs.inode i hi hnone]
    exact h.file hm
  room hx hd := by
    rw [hs.keeps.2.1] at hx
    rw [hs.index, hs.keeps.2.2.1, hs.keeps.2.2.2.2.2]
    refine h.room hx (isDir_iff.2 ⟨((hs.used i).1 hi).1, ?_⟩)
    rw [← hs.mode]
    exact (isDir_iff.1 hd).2

/-- The file system after `unlink`. -/
def Ns.unlinkEntry (s : Ns) (p c : ℕ) (n : Name) : Ns :=
  let t := if (s.inode c).mode = .directory then
      (s.erase p n).setInode p (fsInodeLinksCountDec ((s.erase p n).inode p))
    else s.erase p n
  t.setInode c (fsInodeLinksCountDec (t.inode c))

theorem unlinkEntry_inode {n : Name} (hne : p ≠ c) (hp : (s.inode p).mode = .directory) (x : ℕ) :
    (s.unlinkEntry p c n).inode x =
      if x = c then fsInodeLinksCountDec (s.inode c)
      else if x = p then { (s.inode p).erase n with
        links := if (s.inode c).mode = .directory then dropLink (s.inode p).links
          else (s.inode p).links }
      else s.inode x := by
  have hdec : fsInodeLinksCountDec ((s.erase p n).inode p) =
      { (s.inode p).erase n with links := dropLink (s.inode p).links } := by
    rw [Ns.erase, setInode_self]
    exact decLinks_dir hp
  by_cases hx : x = c
  · subst hx
    rw [if_pos rfl, Ns.unlinkEntry, setInode_self]
    split_ifs
    · rw [setInode_of_ne hne.symm, Ns.erase, setInode_of_ne hne.symm]
    · rw [Ns.erase, setInode_of_ne hne.symm]
  rw [if_neg hx, Ns.unlinkEntry, setInode_of_ne hx]
  by_cases hxp : x = p
  · subst hxp
    rw [if_pos rfl]
    split_ifs
    · rw [setInode_self, hdec]
    · rw [Ns.erase, setInode_self]
      rfl
  · rw [if_neg hxp]
    split_ifs
    · rw [setInode_of_ne hxp, Ns.erase, setInode_of_ne hxp]
    · rw [Ns.erase, setInode_of_ne hxp]

theorem unlinkEntry_same {n : Name} : (s.unlinkEntry p c n).inodesCount = s.inodesCount ∧
    (s.unlinkEntry p c n).dirIndex = s.dirIndex ∧ (s.unlinkEntry p c n).fill = s.fill ∧
    (s.unlinkEntry p c n).readOnly = s.readOnly ∧ (s.unlinkEntry p c n).filetype = s.filetype ∧
    (s.unlinkEntry p c n).used = s.used ∧ (s.unlinkEntry p c n).freeInodes = s.freeInodes ∧
    (s.unlinkEntry p c n).freeBlocks = s.freeBlocks ∧
    (s.unlinkEntry p c n).extents = s.extents := by
  rw [Ns.unlinkEntry]
  split_ifs
  · exact ⟨rfl, rfl, rfl, rfl, rfl, rfl, rfl, rfl, rfl⟩
  · exact ⟨rfl, rfl, rfl, rfl, rfl, rfl, rfl, rfl, rfl⟩

/-- A directory loses its entries and its blocks. -/
structure Hollow (s s' : Ns) (c : ℕ) : Prop where
  keeps : s'.inodesCount = s.inodesCount ∧ s'.dirIndex = s.dirIndex ∧ s'.fill = s.fill ∧
    s'.readOnly = s.readOnly ∧ s'.filetype = s.filetype ∧ s'.extents = s.extents
  used : s'.used = s.used
  other : ∀ x ≠ c, s'.inode x = s.inode x
  self : s'.inode c = { s.inode c with content := [], data := 0, dots := [], ents := [] }
  freeInodes : s'.freeInodes = s.freeInodes
  freeBlocks : s'.freeBlocks = s.freeBlocks + (s.inode c).data

theorem Hollow.replaces (h : Hollow s s' c) : Replaces s s' c :=
  ⟨h.keeps.1, h.freeInodes, h.used, h.keeps.2.1, h.other, by rw [h.self]⟩

/-- The file system after the name and what it named have gone. -/
def Ns.drop (s : Ns) (p c : ℕ) (n : Name) : Ns :=
  ((s.unlinkEntry p c n).setInode c
    { (s.unlinkEntry p c n).inode c with links := 0 }).release c

/-- What goes with the name, once the node has lost its blocks. -/
theorem Hollow.dropped (ht : Hollow s s' e.inode) (hp : (s.inode p).mode = .directory)
    (hpe : p ≠ e.inode) (h : Tidy (s'.drop p e.inode e.name)) :
    Dropped s (s'.drop p e.inode e.name) p e := by
  have hr := ht.replaces
  have hp' : (s'.inode p).mode = .directory := by rw [hr.modes]; exact hp
  have hinode : ∀ x ≠ e.inode, (s'.drop p e.inode e.name).inode x =
      (s'.unlinkEntry p e.inode e.name).inode x := by
    intro x hx
    rw [Ns.drop, release_inode_of_ne hx, setInode_of_ne hx]
  have hself : (s'.unlinkEntry p e.inode e.name).inode e.inode =
      fsInodeLinksCountDec (s'.inode e.inode) := by
    rw [unlinkEntry_inode hpe hp', if_pos rfl]
  have hsame := @unlinkEntry_same s' e.inode p e.name
  refine ⟨h, ?_, ?_, ?_, ?_, ?_, ?_, ?_⟩
  · obtain ⟨h1, h2, h3, h4, h5, -, -, -, h6⟩ := hsame
    obtain ⟨k1, k2, k3, k4, k5, k6⟩ := ht.keeps
    exact ⟨h1.trans k1, h2.trans k2, h3.trans k3, h4.trans k4, h5.trans k5, h6.trans k6⟩
  · show Function.update (s'.unlinkEntry p e.inode e.name).used e.inode false = _
    rw [hsame.2.2.2.2.2.1, ht.used]
  · intro x hxp hxe
    rw [hinode x hxe, unlinkEntry_inode hpe hp', if_neg hxe, if_neg hxp, hr.inode x hxe]
  · rw [Ns.drop, release_inode_self, setInode_self, hself, decLinks_eq, ht.self]
    exact ⟨rfl, rfl⟩
  · rw [hinode p hpe, unlinkEntry_inode hpe hp', if_neg hpe, if_pos rfl, hr.modes,
      hr.inode p hpe]
  · show (s'.unlinkEntry p e.inode e.name).freeInodes + 1 = _
    rw [hsame.2.2.2.2.2.2.1, ht.freeInodes]
  · show (s'.unlinkEntry p e.inode e.name).freeBlocks +
      ((((s'.unlinkEntry p e.inode e.name).setInode e.inode
        { (s'.unlinkEntry p e.inode e.name).inode e.inode with links := 0 }).inode
          e.inode).aux : ℤ) = _
    rw [hsame.2.2.2.2.2.2.2.1, ht.freeBlocks, setInode_self, hself, decLinks_eq, ht.self]
    push_cast
    ring

/-- A hollow directory names nothing and keeps no dots. -/
theorem Hollow.entries (ht : Hollow s s' c) : (s'.inode c).entries = [] := by
  rw [ht.self]
  rfl

theorem Hollow.kids (ht : Hollow s s' c) (hd : s.isDir c = true) : s'.kids c = [] := by
  have hd' : s'.isDir c = true := by rw [ht.replaces.isDir]; exact hd
  rw [kids_of_isDir hd', Inode.kids, ht.entries]
  rfl

/-- An empty directory made hollow points at itself, and nothing else changes. -/
theorem Hollow.tree (ht : Hollow s s' c) (hd : s.isDir c = true) (hk : s.kids c = []) :
    s'.tree = s.tree.setUp c c := by
  have hr := ht.replaces
  have hd' : s'.isDir c = true := by rw [hr.isDir]; exact hd
  have hup : s'.up c = c := by
    rw [Ns.up, if_pos hd', Inode.up, ht.entries]
    rfl
  have hnames : s'.tree.names = s.tree.names := by
    ext ⟨d, n, i⟩
    rw [hr.mem_names]
    split_ifs with hdc
    · rw [hdc, mem_names, hk, ht.kids hd]
    · rfl
  rw [hr.tree hnames hup (if_pos (isDir_iff.1 hd').2), Names.Tree.setUp]
  refine Names.Tree.ext rfl rfl rfl rfl rfl rfl ?_
  exact Function.update_eq_self_iff.2 (if_pos (isDir_iff.1 hd).2).symm

theorem Hollow.shaped (ht : Hollow s s' c) (h : Shaped s none) (hd : s.isDir c = true) :
    Shaped s' (some c) := by
  refine ht.replaces.shaped ⟨fun d hdd _ => h.dir d hdd nofun, h.index, h.type⟩
    (fun _ hx => absurd rfl hx) (fun hu hi => ?_) fun x hx => ?_
  · rw [ht.self] at hi
    exact h.index _ hu hi
  · rw [ht.kids hd] at hx
    cases hx

theorem Swept.dir (h : Swept s s' G) : s'.isDir d = true ↔ s.isDir d = true ∧ d ∉ G := by
  rw [isDir_iff, isDir_iff, h.used, h.mode]
  exact ⟨fun ⟨⟨hu, hn⟩, hm⟩ => ⟨⟨hu, hm⟩, hn⟩, fun ⟨⟨hu, hm⟩, hn⟩ => ⟨⟨hu, hn⟩, hm⟩⟩

theorem Swept.mem_kids (h : Swept s s' G) (hd : s'.isDir d = true) :
    e ∈ s'.kids d ↔ e ∈ s.kids d ∧ e.inode ∉ G := by
  rw [h.kids d hd, List.mem_filter, decide_eq_true_eq]

theorem Swept.refl (h : Tidy s) : Swept s s ∅ where
  tidy := h
  keeps := ⟨rfl, rfl, rfl, rfl, rfl, rfl⟩
  gone i hi := absurd hi (Finset.notMem_empty i)
  closed d hd := absurd hd (Finset.notMem_empty d)
  used i := by simp
  mode _ := rfl
  kids d _ := by simp
  up _ _ := rfl
  index _ := rfl
  blocks _ _ := ⟨rfl, rfl⟩
  inode _ _ _ := rfl
  links d _ := by
    rw [Ns.subdirs, List.countP_eq_zero.2 (by simp)]
    rfl
  freeInodes := rfl
  freeBlocks := by simp

theorem Swept.disjoint (h : Swept s s' G) (h' : Swept s' s'' G') : Disjoint G G' := by
  rw [Finset.disjoint_left]
  intro i hi hi'
  exact ((h.used i).1 (h'.gone i hi')).2 hi

/-- **Two sweeps are one.** -/
theorem Swept.trans (h : Swept s s' G) (h' : Swept s' s'' G') : Swept s s'' (G ∪ G') where
  tidy := h'.tidy
  keeps := by
    obtain ⟨h1, h2, h3, h4, h5, h6⟩ := h.keeps
    obtain ⟨k1, k2, k3, k4, k5, k6⟩ := h'.keeps
    exact ⟨k1.trans h1, k2.trans h2, k3.trans h3, k4.trans h4, k5.trans h5, k6.trans h6⟩
  gone i hi := by
    rcases Finset.mem_union.1 hi with hi | hi
    · exact h.gone i hi
    · exact ((h.used i).1 (h'.gone i hi)).1
  closed d hd e he := by
    rw [Finset.mem_union] at hd ⊢
    by_cases hG : e.inode ∈ G
    · exact .inl hG
    · rcases hd with hd | hd
      · exact .inl (h.closed d hd e he)
      · have hdir : s'.isDir d = true :=
          h.dir.2 ⟨isDir_of_mem he, ((h.used d).1 (h'.gone d hd)).2⟩
        exact .inr (h'.closed d hd e ((h.mem_kids hdir).2 ⟨he, hG⟩))
  used i := by
    rw [h'.used, h.used, Finset.mem_union, not_or, and_assoc]
  mode i := (h'.mode i).trans (h.mode i)
  kids d hd := by
    rw [h'.kids d hd, h.kids d (h'.dir.1 hd).1, List.filter_filter]
    refine List.filter_congr fun e _ => ?_
    simp only [Finset.mem_union, not_or]
    rw [← Bool.decide_and, decide_eq_decide]
    exact and_comm
  up d hd := (h'.up d hd).trans (h.up d (h'.dir.1 hd).1)
  index i := (h'.index i).trans (h.index i)
  blocks i hi := by
    obtain ⟨h1, h2⟩ := h.blocks i ((h'.used i).1 hi).1
    obtain ⟨k1, k2⟩ := h'.blocks i hi
    exact ⟨k1.trans h1, k2.trans h2⟩
  inode i hi hnone := by
    have hi' := ((h'.used i).1 hi).1
    refine (h'.inode i hi fun e he => ?_).trans (h.inode i hi' fun e he => ?_)
    · have he' := ((h.mem_kids (isDir_of_mem he)).1 he).1
      exact fun hG => hnone e he' (Finset.mem_union_right _ hG)
    · exact fun hG => hnone e he (Finset.mem_union_left _ hG)
  links d hd := by
    have hd' := (h'.dir.1 hd).1
    rw [h'.links d hd, h.links d hd', ← Function.iterate_add_apply]
    have hsplit := List.countP_eq_countP_filter_add (s.kids d)
      (fun e => e.inode ∈ G ∪ G' ∧ (s.inode e.inode).mode = .directory) fun e => e.inode ∉ G
    congr 2
    rw [Ns.subdirs, Ns.subdirs, Ns.subdirs, hsplit, h.kids d hd', List.countP_filter,
      List.countP_filter, List.countP_filter]
    congr 1
    · refine List.countP_congr fun e _ => ?_
      simp only [h.mode, Finset.mem_union, decide_not, Bool.and_eq_true, decide_eq_true_eq,
        Bool.not_eq_true', decide_eq_false_iff_not]
      tauto
    · refine List.countP_congr fun e _ => ?_
      simp only [Finset.mem_union, decide_not, Bool.and_eq_true, decide_eq_true_eq, Bool.not_not]
      tauto
  freeInodes := by
    rw [h'.freeInodes, h.freeInodes, Finset.card_union_of_disjoint (h.disjoint h')]
    omega
  freeBlocks := by
    have hsum : ∑ i ∈ G', ((s'.inode i).data + (s'.inode i).aux) =
        ∑ i ∈ G', ((s.inode i).data + (s.inode i).aux) := by
      refine Finset.sum_congr rfl fun i hi => ?_
      obtain ⟨h1, h2⟩ := h.blocks i (h'.gone i hi)
      rw [h1, h2]
    rw [h'.freeBlocks, h.freeBlocks, hsum, Finset.sum_union (h.disjoint h')]
    push_cast
    ring

theorem Swept.under (h : Swept s s' G) (hd : s'.isDir d = true) :
    Under s'.up c d ↔ Under s.up c d := by
  have hway : ∀ n d, s'.isDir d = true → s'.up^[n] d = s.up^[n] d := by
    intro n
    induction n with
    | zero => exact fun _ _ => rfl
    | succ n ih =>
      intro d hd
      rw [Function.iterate_succ_apply, Function.iterate_succ_apply, ← h.up d hd]
      exact ih _ (h.tidy.good.up_dir hd)
  exact exists_congr fun n => by rw [hway n d hd]

/-- What is left below a directory. -/
theorem Swept.below_iff (h : Swept s s' G) : Below s' c i ↔ Below s c i ∧ i ∉ G := by
  constructor
  · rintro ⟨p, e, hp, hu, he, rfl⟩
    obtain ⟨he', hG⟩ := (h.mem_kids hp).1 he
    exact ⟨⟨p, e, (h.dir.1 hp).1, (h.under hp).1 hu, he', rfl⟩, hG⟩
  · rintro ⟨⟨p, e, hp, hu, he, rfl⟩, hG⟩
    have hp' : s'.isDir p = true := h.dir.2 ⟨hp, fun hpG => hG (h.closed p hpG e he)⟩
    exact ⟨p, e, hp', (h.under hp').2 hu, (h.mem_kids hp').2 ⟨he, hG⟩, rfl⟩

theorem Swept.below (hs : Tidy s) (h : Swept s s' G) : s'.below c = s.below c \ G := by
  ext i
  rw [mem_below h.tidy, Finset.mem_sdiff, mem_below hs, h.below_iff]

theorem Swept.loose (h : Swept s s' G) (hl : ∀ i, Below s c i → Loose s i) :
    ∀ i, Below s' c i → Loose s' i := fun i hi =>
  (hl i (h.below_iff.1 hi).1).swept h (hi.used h.tidy)

/-! ## The rounds -/

section
variable {u k j : ℕ} {l : List Entry}

theorem Tidy.entries (h : Tidy s) (hd : s.isDir d = true) :
    (s.inode d).entries = ⟨dot, d, .dir⟩ :: ⟨dotdot, s.up d, .dir⟩ :: s.kids d :=
  (h.good.dir hd).entries

/-- What neither names nor nodes depend on may change. -/
theorem Tidy.congr (h : Tidy s) (hi : s'.inode = s.inode) (hu : s'.used = s.used)
    (hc : s'.inodesCount = s.inodesCount) (hf : s'.freeInodes = s.freeInodes)
    (hx : s'.dirIndex = s.dirIndex) : Tidy s' := by
  cases s
  cases s'
  dsimp only at hi hu hc hf hx
  subst hi hu hc hf hx
  exact ⟨⟨⟨h.good.shaped.dir, h.good.shaped.index, h.good.shaped.type⟩, h.good.sound⟩, h.rooted⟩

/-- What the call asks of a directory: the link count says how many
    subdirectories there are (`rmTop` frees nothing under another count), and
    everything below is loose. -/
structure Removable (s : Ns) (c : ℕ) : Prop where
  loose : ∀ i, i = c ∨ Below s c i → Loose s i
  links : 2 ≤ (s.inode c).links ∧ (s.inode c).links ≤
    (s.kids c).countP (fun e => (s.inode e.inode).mode = .directory) + 3

/-- A name of a node that goes, in a directory that stays, is the one name of
    the directory that was removed. -/
theorem Swept.outside (h : Tidy s) (hr : Removable s c) (hs : Swept s s' (s.below c ∪ {c}))
    (hd : s'.isDir d = true) (he : e ∈ s.kids d) (hG : e.inode ∈ s.below c ∪ {c}) :
    e.inode = c := by
  rcases Finset.mem_union.1 hG with hb | hc
  · exfalso
    obtain ⟨q, x, hq, hu, hx, hi⟩ := (mem_below h).1 hb
    have hloose := hr.loose _ (.inr ((mem_below h).1 hb))
    rw [← hi] at hloose
    obtain ⟨rfl, -⟩ := h.single hx he hi.symm hloose.file
    refine (hs.dir.1 hd).2 (Finset.mem_union.2 ?_)
    by_cases hdc : d = c
    · exact .inr (Finset.mem_singleton.2 hdc)
    · have hdr : d ≠ rootIndex := by
        rintro rfl
        exact hdc ((under_fixed h.good.sound.rootUp).1 hu)
      obtain ⟨y, hy, hyi⟩ := h.named hq hdr
      refine .inl ((mem_below h).2 ⟨s.up d, y, h.good.up_dir hq, ?_, hy, hyi⟩)
      exact (under_iff.1 hu).resolve_left hdc
  · exact Finset.mem_singleton.1 hc

end

end

section
variable {w : World} {m : ℕ} {path : List Byte} {s : Ns} {ft : FileType} {cs : List Name} {d p : ℕ}

/-- What `ext4_dir_rm` asks for: the path ends in the name of the directory,
    and the directory is removable. -/
structure DirRmOk (s : Ns) (o : Opened) : Prop where
  name : o.name ≠ [] ∧ isDots o.name = false
  removable : Removable s o.inode

end

/-! ## A directory with one file -/

end Lwext4.Vfs
