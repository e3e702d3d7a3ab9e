/-
  The invariant of the name space.

  `Ns.tree` reads a file system as a tree of names (`Lib.Names`).  `Good s`
  says that every directory has the shape the library gives it (`Shaped`) and
  that names, parents and link counts agree (`Names.Sound`).

  Main results.
  * `tree_addEntry`, `tree_erase`, `tree_alloc`, `tree_release`, `tree_setUp`:
    each write of the library is one write to the tree of names.
-/
import Lwext4.Vfs
import Lwext4.Lib.Names

namespace Lwext4.Vfs

open Lib Names

/-! ## Directories as names -/

def Ns.isDir (s : Ns) (d : ℕ) : Bool := s.used d && (s.inode d).mode = .directory

/-- The entries of a directory other than its dots. -/
def Inode.kids (n : Inode) : List Entry := n.entries.filter fun e => !isDots e.name

def Ns.kids (s : Ns) (d : ℕ) : List Entry := if s.isDir d then (s.inode d).kids else []

/-- The inode the `..` entry names. -/
def Inode.up (n : Inode) (i : ℕ) : ℕ :=
  match n.entries.find? fun e => e.name = dotdot with
  | some e => e.inode
  | none => i

def Ns.up (s : Ns) (i : ℕ) : ℕ := if s.isDir i then (s.inode i).up i else i

/-- The tree of names of a file system.  The link counts of directories do not
    count names and are left out. -/
def Ns.tree (s : Ns) : Names.Tree Name where
  size := s.inodesCount
  free := s.freeInodes
  used := s.used
  dir i := (s.inode i).mode = .directory
  names := (Finset.range (s.inodesCount + 1)).biUnion fun d =>
    ((s.kids d).map fun e => (d, e.name, e.inode)).toFinset
  up := s.up
  links i := if (s.inode i).mode = .directory then 0 else (s.inode i).links

theorem isDir_iff {s : Ns} {d : ℕ} :
    s.isDir d = true ↔ s.used d = true ∧ (s.inode d).mode = .directory := by
  simp [Ns.isDir]

theorem tree_dir {s : Ns} {d : ℕ} : s.tree.dir d = true ↔ (s.inode d).mode = .directory := by
  simp [Ns.tree]

theorem tree_dir_false {s : Ns} {d : ℕ} :
    s.tree.dir d = false ↔ (s.inode d).mode ≠ .directory := by
  simp [Ns.tree]

theorem mem_names {s : Ns} {d i : ℕ} {n : Name} :
    (d, n, i) ∈ s.tree.names ↔ d ≤ s.inodesCount ∧ ∃ e ∈ s.kids d, e.name = n ∧ e.inode = i := by
  simp only [Ns.tree, Finset.mem_biUnion, Finset.mem_range, List.mem_toFinset, List.mem_map,
    Prod.mk.injEq]
  constructor
  · rintro ⟨d', hd', e, he, rfl, rfl, rfl⟩
    exact ⟨by omega, e, he, rfl, rfl⟩
  · rintro ⟨hd, e, he, rfl, rfl⟩
    exact ⟨d, by omega, e, he, rfl, rfl, rfl⟩

theorem kids_of_isDir {s : Ns} {d : ℕ} (h : s.isDir d = true) : s.kids d = (s.inode d).kids := by
  rw [Ns.kids, if_pos h]

theorem isDir_of_mem {s : Ns} {d : ℕ} {e : Entry} (h : e ∈ s.kids d) : s.isDir d = true := by
  by_contra hd
  rw [Ns.kids, if_neg hd] at h
  cases h

theorem not_dots_of_mem {s : Ns} {d : ℕ} {e : Entry} (h : e ∈ s.kids d) : isDots e.name = false := by
  rw [kids_of_isDir (isDir_of_mem h), Inode.kids, List.mem_filter] at h
  simpa using h.2

/-! ## The shape of a directory -/

/-- Directory `d` below `p` with the entries `l`: its dots first, or in its
    index root, and every name once. -/
structure Shape (n : Inode) (d p : ℕ) (l : List Entry) : Prop where
  plain : n.index = false → n.dots = [] ∧ n.ents = dotEntries d p ++ l
  indexed : n.index = true → n.dots = dotEntries d p ∧ n.ents = l
  names : ∀ e ∈ l, isDots e.name = false
  nodup : (l.map Entry.name).Nodup

section
variable {n : Inode} {d p q : ℕ} {l : List Entry} {name : Name} {e : Entry}

theorem Shape.entries (h : Shape n d p l) : n.entries = dotEntries d p ++ l := by
  rw [Inode.entries]
  cases hi : n.index with
  | false => rw [(h.plain hi).1, (h.plain hi).2, List.nil_append]
  | true => rw [(h.indexed hi).1, (h.indexed hi).2]

theorem kids_dots_append (h : ∀ e ∈ l, isDots e.name = false) :
    (dotEntries d p ++ l).filter (fun e => !isDots e.name) = l := by
  have hl : l.filter (fun e => !isDots e.name) = l :=
    List.filter_eq_self.mpr fun e he => by rw [h e he]; rfl
  rw [List.filter_append, hl]
  rfl

theorem Shape.kids (h : Shape n d p l) : n.kids = l := by
  rw [Inode.kids, h.entries, kids_dots_append h.names]

theorem Shape.up (h : Shape n d p l) : n.up d = p := by
  rw [Inode.up, h.entries]
  rfl

/-- The name stands in the list the search looks through. -/
theorem Shape.find (h : Shape n d p l) (hn : isDots name = false) :
    (n.ents.find? fun e => e.name = name) = l.find? fun e => e.name = name := by
  cases hi : n.index with
  | true => rw [(h.indexed hi).2]
  | false =>
    have h1 : dot ≠ name := fun e => by subst e; cases hn
    have h2 : dotdot ≠ name := fun e => by subst e; cases hn
    rw [(h.plain hi).2]
    simp [dotEntries, h1, h2]

theorem Shape.add (h : Shape n d p l) (pl : Placement) (he : isDots e.name = false)
    (hl : ∀ x ∈ l, x.name ≠ e.name) {k : ℕ} :
    ∃ l', Shape { n with ents := pl.place n.ents e, data := k } d p l' ∧ l'.Perm (e :: l) := by
  have hnames : ∀ l' : List Entry, l'.Perm (e :: l) → (∀ x ∈ l', isDots x.name = false) ∧
      (l'.map Entry.name).Nodup := by
    intro l' hp
    constructor
    · intro x hx
      rcases List.mem_cons.mp (hp.mem_iff.mp hx) with rfl | hx
      · exact he
      · exact h.names x hx
    · rw [(hp.map Entry.name).nodup_iff, List.map_cons, List.nodup_cons]
      refine ⟨fun hm => ?_, h.nodup⟩
      obtain ⟨x, hx, hxe⟩ := List.mem_map.mp hm
      exact hl x hx hxe
  cases hi : n.index with
  | true =>
    obtain ⟨l', hp', hperm⟩ := pl.front [] l e (by simp)
    rw [List.nil_append, List.nil_append] at hp'
    obtain ⟨hd, hnd⟩ := hnames l' hperm
    refine ⟨l', ⟨fun hc => ?_, fun _ => ⟨(h.indexed hi).1, ?_⟩, hd, hnd⟩, hperm⟩
    · cases (show true = false from hc)
    · show pl.place n.ents e = l'
      rw [(h.indexed hi).2, hp']
  | false =>
    obtain ⟨l', hp', hperm⟩ := pl.front (dotEntries d p) l e (by simp [dotEntries, isDots])
    obtain ⟨hd, hnd⟩ := hnames l' hperm
    refine ⟨l', ⟨fun _ => ⟨(h.plain hi).1, ?_⟩, fun hc => ?_, hd, hnd⟩, hperm⟩
    · show pl.place n.ents e = dotEntries d p ++ l'
      rw [(h.plain hi).2, hp']
    · cases (show false = true from hc)

theorem Shape.erase (h : Shape n d p l) (hn : isDots name = false) :
    Shape (n.erase name) d p (l.eraseP fun e => e.name = name) := by
  have h1 : dot ≠ name := fun e => by subst e; cases hn
  have h2 : dotdot ≠ name := fun e => by subst e; cases hn
  refine ⟨fun hi => ⟨(h.plain hi).1, ?_⟩, fun hi => ⟨(h.indexed hi).1, ?_⟩, fun e he => ?_, ?_⟩
  · show n.ents.eraseP _ = _
    rw [(h.plain hi).2]
    simp [dotEntries, h1, h2]
  · show n.ents.eraseP _ = _
    rw [(h.indexed hi).2]
  · exact h.names e (List.mem_of_mem_eraseP he)
  · exact h.nodup.sublist ((List.eraseP_sublist).map _)

/-- A name that occurs once goes with its one entry. -/
theorem mem_eraseP_name (h : (l.map Entry.name).Nodup) :
    e ∈ l.eraseP (fun x => x.name = name) ↔ e ∈ l ∧ e.name ≠ name := by
  induction l with
  | nil => simp
  | cons x l ih =>
    rw [List.map_cons, List.nodup_cons] at h
    by_cases hx : x.name = name
    · rw [List.eraseP_cons_of_pos (by simpa using hx), List.mem_cons]
      constructor
      · intro he
        refine ⟨.inr he, fun hn => h.1 ?_⟩
        rw [hx, ← hn]
        exact List.mem_map_of_mem he
      · rintro ⟨rfl | he, hn⟩
        · exact absurd hx hn
        · exact he
    · rw [List.eraseP_cons_of_neg (by simpa using hx), List.mem_cons, List.mem_cons, ih h.2]
      constructor
      · rintro (rfl | he)
        · exact ⟨.inl rfl, hx⟩
        · exact ⟨.inr he.1, he.2⟩
      · rintro ⟨rfl | he, hn⟩
        · exact .inl rfl
        · exact .inr ⟨he, hn⟩

end

/-- The shape of every directory but `x`, and the types in the entries. -/
structure Shaped (s : Ns) (x : Option ℕ) : Prop where
  dir : ∀ d, s.isDir d = true → some d ≠ x → Shape (s.inode d) d (s.up d) (s.kids d)
  index : ∀ i, s.used i = true → (s.inode i).index = true →
    (s.inode i).mode = .directory ∧ s.dirIndex = true
  type : ∀ d, ∀ e ∈ s.kids d, e.type = (s.inode e.inode).mode.entryType

/-- **The invariant**: every directory has its shape, and names, parents and
    link counts agree. -/
structure Good (s : Ns) : Prop where
  shaped : Shaped s none
  sound : Sound 2 11 s.tree none

section
variable {s s' : Ns} {d p q i c : ℕ} {l : List Entry} {n : Name} {e : Entry} {x : Option ℕ}

theorem Shape.up_kids (h : Shape (s.inode d) d p l) (hd : s.isDir d = true) :
    s.up d = p ∧ s.kids d = l := by
  rw [Ns.up, if_pos hd, h.up, kids_of_isDir hd, h.kids]
  exact ⟨rfl, rfl⟩

theorem Shaped.file (h : Shaped s x) (hu : s.used i = true) (hm : (s.inode i).mode ≠ .directory) :
    (s.inode i).index = false := by
  cases hi : (s.inode i).index with
  | false => rfl
  | true => exact absurd (h.index i hu hi).1 hm

theorem Good.dir (h : Good s) (hd : s.isDir d = true) :
    Shape (s.inode d) d (s.up d) (s.kids d) := h.shaped.dir d hd (by simp)

theorem Good.le (h : Good s) (hd : s.used d = true) : d ≤ s.inodesCount := (h.sound.bound d hd).2

theorem Good.kid (h : Good s) (he : e ∈ s.kids d) : (d, e.name, e.inode) ∈ s.tree.names :=
  mem_names.mpr ⟨h.le (isDir_iff.mp (isDir_of_mem he)).1, e, he, rfl, rfl⟩

theorem mem_kids_of_names (h : (d, n, i) ∈ s.tree.names) :
    ∃ e ∈ s.kids d, e.name = n ∧ e.inode = i := (mem_names.mp h).2

theorem Good.rootDir (h : Good s) : s.isDir 2 = true := by
  rw [isDir_iff, ← tree_dir]
  exact h.sound.rootDir

/-- In a directory a name stands for one entry. -/
theorem Good.find (h : Good s) (hd : s.isDir d = true) (hn : isDots n = false) :
    dirFindEntry s d n = (s.kids d).find? fun e => e.name = n := (h.dir hd).find hn

theorem not_mem_of_find (h : (s.kids d).find? (fun e => e.name = n) = none) :
    ∀ e ∈ s.kids d, e.name ≠ n := by
  simpa using h

/-- Two file systems with the same directories have the same tree. -/
theorem tree_eq (hsize : s'.inodesCount = s.inodesCount) (hfree : s'.freeInodes = s.freeInodes)
    (hused : s'.used = s.used) (hmode : ∀ i, (s'.inode i).mode = (s.inode i).mode)
    (hent : ∀ i, s.isDir i = true → (s'.inode i).entries = (s.inode i).entries)
    (hlinks : ∀ i, (s.inode i).mode ≠ .directory → (s'.inode i).links = (s.inode i).links) :
    s'.tree = s.tree := by
  have hdir : s'.isDir = s.isDir := by
    funext i
    rw [Ns.isDir, Ns.isDir, hused, hmode]
  have hkids : s'.kids = s.kids := by
    funext i
    rw [Ns.kids, Ns.kids, hdir]
    by_cases hi : s.isDir i = true
    · rw [if_pos hi, if_pos hi, Inode.kids, hent i hi, ← Inode.kids]
    · rw [if_neg hi, if_neg hi]
  have hup : s'.up = s.up := by
    funext i
    rw [Ns.up, Ns.up, hdir]
    by_cases hi : s.isDir i = true
    · rw [if_pos hi, if_pos hi, Inode.up, hent i hi, ← Inode.up]
    · rw [if_neg hi, if_neg hi]
  refine Names.Tree.ext hsize hfree hused ?_ ?_ hup ?_
  · funext i
    show decide ((s'.inode i).mode = _) = decide ((s.inode i).mode = _)
    rw [hmode]
  · show Finset.biUnion _ _ = Finset.biUnion _ _
    rw [hsize, hkids]
  · funext i
    show (if (s'.inode i).mode = .directory then 0 else (s'.inode i).links) =
      if (s.inode i).mode = .directory then 0 else (s.inode i).links
    rw [hmode]
    by_cases hi : (s.inode i).mode = .directory
    · rw [if_pos hi, if_pos hi]
    · rw [if_neg hi, if_neg hi, hlinks i hi]

/-! ## Replacing one inode -/

theorem setInode_self {m : Inode} : (s.setInode i m).inode i = m := Function.update_self ..

theorem setInode_of_ne {m : Inode} (h : d ≠ i) : (s.setInode i m).inode d = s.inode d :=
  Function.update_of_ne h ..

/-- Only the inode `i` of `s` is replaced, and it keeps its mode. -/
structure Replaces (s s' : Ns) (i : ℕ) : Prop where
  size : s'.inodesCount = s.inodesCount
  free : s'.freeInodes = s.freeInodes
  used : s'.used = s.used
  dirIndex : s'.dirIndex = s.dirIndex
  inode : ∀ d, d ≠ i → s'.inode d = s.inode d
  mode : (s'.inode i).mode = (s.inode i).mode

theorem Replaces.modes (h : Replaces s s' i) (d : ℕ) : (s'.inode d).mode = (s.inode d).mode := by
  by_cases hd : d = i
  · subst hd; exact h.mode
  · rw [h.inode d hd]

theorem Replaces.isDir (h : Replaces s s' i) (d : ℕ) : s'.isDir d = s.isDir d := by
  rw [Ns.isDir, Ns.isDir, h.used, h.modes]

theorem Replaces.kids (h : Replaces s s' i) (hd : d ≠ i) : s'.kids d = s.kids d := by
  rw [Ns.kids, Ns.kids, h.isDir, h.inode d hd]

theorem Replaces.up (h : Replaces s s' i) (hd : d ≠ i) : s'.up d = s.up d := by
  rw [Ns.up, Ns.up, h.isDir, h.inode d hd]

theorem replaces_setInode {m : Inode} (h : m.mode = (s.inode i).mode) :
    Replaces s (s.setInode i m) i where
  size := rfl
  free := rfl
  used := rfl
  dirIndex := rfl
  inode _ hd := setInode_of_ne hd
  mode := by rw [setInode_self, h]

theorem Replaces.tree (h : Replaces s s' i) {names : Finset (ℕ × Name × ℕ)} {u k : ℕ}
    (hn : s'.tree.names = names) (hu : s'.up i = u) (hk : s'.tree.links i = k) :
    s'.tree = { s.tree with names := names, up := Function.update s.up i u,
                            links := Function.update s.tree.links i k } := by
  refine Names.Tree.ext h.size h.free h.used ?_ hn ?_ ?_
  · funext d
    show decide ((s'.inode d).mode = _) = decide ((s.inode d).mode = _)
    rw [h.modes]
  · funext d
    by_cases hd : d = i
    · subst hd
      show s'.up d = Function.update s.up d u d
      rw [Function.update_self, hu]
    · show s'.up d = Function.update s.up i u d
      rw [Function.update_of_ne hd, h.up hd]
  · funext d
    by_cases hd : d = i
    · subst hd
      show s'.tree.links d = Function.update s.tree.links d k d
      rw [Function.update_self, hk]
    · show (if (s'.inode d).mode = .directory then 0 else (s'.inode d).links) =
        Function.update s.tree.links i k d
      rw [Function.update_of_ne hd, h.inode d hd]
      rfl

/-- The shape of the other directories stays. -/
theorem Replaces.shaped (h : Replaces s s' i) (hs : Shaped s x)
    (hi : s.isDir i = true → some i ≠ x → Shape (s'.inode i) i (s'.up i) (s'.kids i))
    (hf : s.used i = true → (s'.inode i).index = true →
      (s.inode i).mode = .directory ∧ s.dirIndex = true)
    (ht : ∀ e ∈ s'.kids i, e.type = (s.inode e.inode).mode.entryType) : Shaped s' x where
  dir d hd hx := by
    rw [h.isDir] at hd
    by_cases hdi : d = i
    · subst hdi; exact hi hd hx
    · rw [h.inode d hdi, h.up hdi, h.kids hdi]
      exact hs.dir d hd hx
  index d hu hx := by
    rw [h.used] at hu
    rw [h.modes, h.dirIndex]
    by_cases hdi : d = i
    · subst hdi
      exact hf hu hx
    · rw [h.inode d hdi] at hx
      exact hs.index d hu hx
  type d e he := by
    rw [h.modes]
    by_cases hdi : d = i
    · subst hdi; exact ht e he
    · rw [h.kids hdi] at he
      exact hs.type d e he

/-- The names after the entries of one directory changed. -/
theorem Replaces.mem_names (h : Replaces s s' i) :
    (d, n, c) ∈ s'.tree.names ↔
      if d = i then i ≤ s.inodesCount ∧ ∃ e ∈ s'.kids i, e.name = n ∧ e.inode = c
      else (d, n, c) ∈ s.tree.names := by
  rw [Vfs.mem_names, h.size]
  by_cases hd : d = i
  · subst hd
    rw [if_pos rfl]
  · rw [if_neg hd, Vfs.mem_names, h.kids hd]

/-! ## The writes -/

theorem replaces_addEntry : Replaces s (s.addEntry p e) p where
  size := rfl
  free := rfl
  used := rfl
  dirIndex := rfl
  inode _ hd := Function.update_of_ne hd ..
  mode := by
    show (Function.update s.inode p _ p).mode = _
    rw [Function.update_self]

theorem addEntry_shape (h : Shape (s.inode p) p q l) (he : isDots e.name = false)
    (hl : ∀ x ∈ l, x.name ≠ e.name) :
    ∃ l', Shape ((s.addEntry p e).inode p) p q l' ∧ l'.Perm (e :: l) := by
  have hi : (s.addEntry p e).inode p =
      { s.inode p with
        ents := (s.choice s.tick).place.place (s.inode p).ents e
        data := (s.inode p).data + (s.choice s.tick).grow } := Function.update_self ..
  rw [hi]
  exact h.add _ he hl

/-- **Adding an entry adds one name.** -/
theorem tree_addEntry (hd : s.isDir p = true) (hp : p ≤ s.inodesCount)
    (h : Shape (s.inode p) p q l) (he : isDots e.name = false) (hl : ∀ x ∈ l, x.name ≠ e.name) :
    (s.addEntry p e).tree = s.tree.attach p e.name e.inode := by
  obtain ⟨l', hs', hperm⟩ := addEntry_shape (s := s) h he hl
  have hr : Replaces s (s.addEntry p e) p := replaces_addEntry
  obtain ⟨hu, hk⟩ := h.up_kids hd
  obtain ⟨hu', hk'⟩ := hs'.up_kids (by rw [hr.isDir]; exact hd)
  rw [@Replaces.tree _ _ _ hr (insert (p, e.name, e.inode) s.tree.names) (s.up p) (s.tree.links p)
    ?_ (by rw [hu', hu]) ?_, Function.update_eq_self,
    Function.update_eq_self]
  · rfl
  · ext ⟨d, n, c⟩
    rw [hr.mem_names, Finset.mem_insert]
    by_cases hdp : d = p
    · subst hdp
      rw [if_pos rfl, hk', mem_names, hk]
      constructor
      · rintro ⟨hle, y, hy, rfl, rfl⟩
        rcases List.mem_cons.mp (hperm.mem_iff.mp hy) with rfl | hy
        · exact .inl rfl
        · exact .inr ⟨hle, y, hy, rfl, rfl⟩
      · rintro (heq | ⟨hle, y, hy, rfl, rfl⟩)
        · cases heq
          exact ⟨hp, e, hperm.mem_iff.mpr (List.mem_cons_self ..), rfl, rfl⟩
        · exact ⟨hle, y, hperm.mem_iff.mpr (List.mem_cons_of_mem _ hy), rfl, rfl⟩
    · rw [if_neg hdp]
      simp [hdp]
  · have hm : ((s.addEntry p e).inode p).mode = .directory := by
      rw [hr.mode]; exact (isDir_iff.mp hd).2
    show (if ((s.addEntry p e).inode p).mode = .directory then 0 else _) =
      if (s.inode p).mode = .directory then 0 else _
    rw [if_pos hm, if_pos (isDir_iff.mp hd).2]

theorem shaped_addEntry (hs : Shaped s x) (hd : s.isDir p = true)
    (h : Shape (s.inode p) p q l) (he : isDots e.name = false) (hl : ∀ x ∈ l, x.name ≠ e.name)
    (ht : e.type = (s.inode e.inode).mode.entryType) : Shaped (s.addEntry p e) x := by
  obtain ⟨l', hs', hperm⟩ := addEntry_shape (s := s) h he hl
  have hr : Replaces s (s.addEntry p e) p := replaces_addEntry
  obtain ⟨hu, hk⟩ := h.up_kids hd
  obtain ⟨hu', hk'⟩ := hs'.up_kids (by rw [hr.isDir]; exact hd)
  refine hr.shaped hs (fun _ _ => ?_) (fun hu hx => hs.index p hu ?_) fun y hy => ?_
  · rw [hu', hk']
    exact hs'
  · have hi : ((s.addEntry p e).inode p).index = (s.inode p).index := by
      show (Function.update s.inode p _ p).index = _
      rw [Function.update_self]
    rw [← hi]
    exact hx
  · rw [hk'] at hy
    rcases List.mem_cons.mp (hperm.mem_iff.mp hy) with rfl | hy
    · exact ht
    · exact hs.type p y (by rw [hk]; exact hy)

/-- The file system after an entry is taken out. -/
def Ns.erase (s : Ns) (p : ℕ) (n : Name) : Ns := s.setInode p ((s.inode p).erase n)

theorem replaces_erase : Replaces s (s.erase p n) p := replaces_setInode rfl

theorem erase_shape (h : Shape (s.inode p) p q l) (hn : isDots n = false) :
    Shape ((s.erase p n).inode p) p q (l.eraseP fun e => e.name = n) := by
  rw [Ns.erase, setInode_self]
  exact h.erase hn

/-- **Removing an entry removes its name.** -/
theorem tree_erase (hd : s.isDir p = true) (h : Shape (s.inode p) p q l) (he : e ∈ l) :
    (s.erase p e.name).tree = s.tree.detach p e.name e.inode := by
  have hs' := erase_shape (s := s) h (h.names e he)
  have hr : Replaces s (s.erase p e.name) p := replaces_erase
  obtain ⟨hu, hk⟩ := h.up_kids hd
  obtain ⟨hu', hk'⟩ := hs'.up_kids (by rw [hr.isDir]; exact hd)
  rw [@Replaces.tree _ _ _ hr (s.tree.names.erase (p, e.name, e.inode)) (s.up p) (s.tree.links p)
    ?_ (by rw [hu', hu]) ?_, Function.update_eq_self,
    Function.update_eq_self]
  · rfl
  · ext ⟨d, n, c⟩
    rw [hr.mem_names, Finset.mem_erase]
    by_cases hdp : d = p
    · subst hdp
      rw [if_pos rfl, hk', mem_names, hk]
      constructor
      · rintro ⟨hle, y, hy, rfl, rfl⟩
        have hy' := (mem_eraseP_name h.nodup).mp hy
        refine ⟨fun heq => hy'.2 ?_, hle, y, hy'.1, rfl, rfl⟩
        exact congrArg (fun z => z.2.1) heq
      · rintro ⟨hne, hle, y, hy, rfl, rfl⟩
        refine ⟨hle, y, (mem_eraseP_name h.nodup).mpr ⟨hy, fun hn => hne ?_⟩, rfl, rfl⟩
        rw [List.inj_on_of_nodup_map h.nodup hy he hn]
    · rw [if_neg hdp]
      simp [hdp]
  · have hm : ((s.erase p e.name).inode p).mode = .directory := by
      rw [hr.mode]; exact (isDir_iff.mp hd).2
    show (if ((s.erase p e.name).inode p).mode = .directory then 0 else _) =
      if (s.inode p).mode = .directory then 0 else _
    rw [if_pos hm, if_pos (isDir_iff.mp hd).2]

theorem shaped_erase (hs : Shaped s x) (hd : s.isDir p = true) (h : Shape (s.inode p) p q l)
    (hn : isDots n = false) : Shaped (s.erase p n) x := by
  have hs' := erase_shape (s := s) h hn
  have hr : Replaces s (s.erase p n) p := replaces_erase
  obtain ⟨hu, hk⟩ := h.up_kids hd
  obtain ⟨hu', hk'⟩ := hs'.up_kids (by rw [hr.isDir]; exact hd)
  refine hr.shaped hs (fun _ _ => ?_) (fun hu hx => hs.index p hu ?_) fun y hy => ?_
  · rw [hu', hk']
    exact hs'
  · rw [Ns.erase, setInode_self] at hx
    exact hx
  · rw [hk'] at hy
    exact hs.type p y (by rw [hk]; exact List.mem_of_mem_eraseP hy)

/-- With its dots a directory is excused no longer. -/
theorem Shaped.fill (hs : Shaped s (some i)) (h : s.isDir i = true → Shape (s.inode i) i q l) :
    Shaped s none where
  dir d hd _ := by
    by_cases hdi : d = i
    · subst hdi
      obtain ⟨hu, hk⟩ := (h hd).up_kids hd
      rw [hu, hk]
      exact h hd
    · exact hs.dir d hd (by simpa using hdi)
  index := hs.index
  type := hs.type

theorem tree_setLinks (hr : Replaces s s' i) (hm : (s.inode i).mode ≠ .directory) :
    s'.tree = s.tree.setLinks i (s'.inode i).links := by
  have hd : s.isDir i ≠ true := fun h => hm (isDir_iff.mp h).2
  have hm' : (s'.inode i).mode ≠ .directory := by rw [hr.mode]; exact hm
  have hu : ∀ z : Ns, (z.inode i).mode ≠ .directory → z.up i = i ∧ z.kids i = [] := by
    intro z hz
    have : z.isDir i ≠ true := fun h => hz (isDir_iff.mp h).2
    rw [Ns.up, Ns.kids, if_neg this, if_neg this]
    exact ⟨rfl, rfl⟩
  rw [@Replaces.tree _ _ _ hr s.tree.names (s.up i) (s'.inode i).links ?_
    (by rw [(hu s' hm').1, (hu s hm).1]) (if_neg hm'), Function.update_eq_self]
  · rfl
  · ext ⟨d, n, c⟩
    rw [hr.mem_names]
    by_cases hdi : d = i
    · subst hdi
      rw [if_pos rfl, mem_names, (hu s' hm').2, (hu s hm).2]
    · rw [if_neg hdi]

/-- An inode that only changes what names do not depend on. -/
theorem Shaped.replace (h : Shaped s x) (hr : Replaces s s' i)
    (hdots : s.isDir i = true → (s'.inode i).dots = (s.inode i).dots)
    (hents : s.isDir i = true → (s'.inode i).ents = (s.inode i).ents)
    (hindex : (s'.inode i).index = (s.inode i).index)
    (hlinks : (s.inode i).mode ≠ .directory → (s'.inode i).links = (s.inode i).links) :
    s'.tree = s.tree ∧ Shaped s' x := by
  have hent : ∀ d, s.isDir d = true → (s'.inode d).entries = (s.inode d).entries := by
    intro d hd
    by_cases hdi : d = i
    · subst hdi
      rw [Inode.entries, Inode.entries, hdots hd, hents hd]
    · rw [hr.inode d hdi]
  have hk : s'.kids i = s.kids i := by
    by_cases hd : s.isDir i = true
    · rw [kids_of_isDir hd, kids_of_isDir (by rw [hr.isDir]; exact hd), Inode.kids, hent i hd]
      rfl
    · rw [Ns.kids, Ns.kids, hr.isDir, if_neg hd, if_neg hd]
  constructor
  · refine tree_eq hr.size hr.free hr.used hr.modes hent fun d hd => ?_
    by_cases hdi : d = i
    · subst hdi; exact hlinks hd
    · rw [hr.inode d hdi]
  · refine hr.shaped h (fun hd hx => ?_) (fun hu hi => h.index i hu (by rw [← hindex]; exact hi))
      fun e he => ?_
    · have hu : s'.up i = s.up i := by
        rw [Ns.up, Ns.up, hr.isDir, if_pos hd, if_pos hd, Inode.up, hent i hd]
        rfl
      rw [hu, hk]
      have hsh := h.dir i hd hx
      refine ⟨fun hi => ?_, fun hi => ?_, hsh.names, hsh.nodup⟩
      · rw [hdots hd, hents hd]
        exact hsh.plain (by rw [← hindex]; exact hi)
      · rw [hdots hd, hents hd]
        exact hsh.indexed (by rw [← hindex]; exact hi)
    · rw [hk] at he
      exact h.type i e he

theorem alloc_inode_of_ne {m : Inode} (h : d ≠ i) : (s.alloc i m).inode d = s.inode d :=
  Function.update_of_ne h ..

theorem alloc_inode_self {m : Inode} : (s.alloc i m).inode i = m := Function.update_self ..

theorem isDir_alloc_of_ne {m : Inode} (h : d ≠ i) : (s.alloc i m).isDir d = s.isDir d := by
  rw [Ns.isDir, Ns.isDir, alloc_inode_of_ne h]
  show (Function.update s.used i true d && _) = _
  rw [Function.update_of_ne h]

theorem kids_alloc {m : Inode} (hi : s.used i = false) (hm : m.entries = []) :
    (s.alloc i m).kids d = s.kids d := by
  by_cases hd : d = i
  · subst hd
    have : s.kids d = [] := by
      rw [Ns.kids, if_neg]
      simp [Ns.isDir, hi]
    rw [this, Ns.kids, alloc_inode_self, Inode.kids, hm]
    split <;> rfl
  · rw [Ns.kids, Ns.kids, isDir_alloc_of_ne hd, alloc_inode_of_ne hd]

theorem up_alloc_of_ne {m : Inode} (h : d ≠ i) : (s.alloc i m).up d = s.up d := by
  rw [Ns.up, Ns.up, isDir_alloc_of_ne h, alloc_inode_of_ne h]

theorem tree_alloc {m : Inode} (hi : s.used i = false) (hm : m.entries = []) (hl : m.links = 0) :
    (s.alloc i m).tree = s.tree.alloc i (m.mode = .directory) := by
  refine Names.Tree.ext rfl rfl rfl ?_ ?_ ?_ ?_
  · funext d
    show decide (((s.alloc i m).inode d).mode = _) = Function.update s.tree.dir i _ d
    by_cases hd : d = i
    · subst hd
      rw [alloc_inode_self, Function.update_self]
    · rw [alloc_inode_of_ne hd, Function.update_of_ne hd]
      rfl
  · ext ⟨d, n, c⟩
    rw [mem_names, kids_alloc hi hm]
    exact (mem_names (s := s)).symm
  · funext d
    show (s.alloc i m).up d = Function.update s.up i i d
    by_cases hd : d = i
    · subst hd
      rw [Function.update_self, Ns.up, alloc_inode_self, Inode.up, hm]
      simp
    · rw [up_alloc_of_ne hd, Function.update_of_ne hd]
  · funext d
    show (if ((s.alloc i m).inode d).mode = .directory then 0 else ((s.alloc i m).inode d).links) =
      Function.update s.tree.links i 0 d
    by_cases hd : d = i
    · subst hd
      rw [alloc_inode_self, Function.update_self, hl, ite_self]
    · rw [alloc_inode_of_ne hd, Function.update_of_ne hd]
      rfl

theorem shaped_alloc {m : Inode} (hs : Good s) (hi : s.used i = false) (hm : m.entries = [])
    (hx : m.index = false) : Shaped (s.alloc i m) (some i) where
  dir d hd hdi := by
    have hne : d ≠ i := by simpa using hdi
    rw [isDir_alloc_of_ne hne] at hd
    rw [alloc_inode_of_ne hne, up_alloc_of_ne hne, kids_alloc hi hm]
    exact hs.dir hd
  index d hu hidx := by
    by_cases hd : d = i
    · subst hd
      rw [alloc_inode_self, hx] at hidx
      cases hidx
    · have hu' : Function.update s.used i true d = true := hu
      rw [Function.update_of_ne hd] at hu'
      rw [alloc_inode_of_ne hd] at hidx ⊢
      exact hs.shaped.index d hu' hidx
  type d e he := by
    rw [kids_alloc hi hm] at he
    have hne : e.inode ≠ i := fun heq => by
      have := (hs.sound.target _ _ _ (hs.kid he)).1
      rw [heq] at this
      exact absurd (show s.used i = true from this) (by rw [hi]; simp)
    rw [alloc_inode_of_ne hne]
    exact hs.shaped.type d e he

theorem release_inode_of_ne (h : d ≠ i) : (s.release i).inode d = s.inode d :=
  Function.update_of_ne h ..

theorem release_inode_self : (s.release i).inode i = { s.inode i with aux := 0 } :=
  Function.update_self ..

theorem isDir_release_of_ne (h : d ≠ i) : (s.release i).isDir d = s.isDir d := by
  rw [Ns.isDir, Ns.isDir, release_inode_of_ne h]
  show (Function.update s.used i false d && _) = _
  rw [Function.update_of_ne h]

theorem isDir_release_self : (s.release i).isDir i = false := by
  show (Function.update s.used i false i && _) = false
  rw [Function.update_self, Bool.false_and]

theorem kids_release (hk : s.kids i = []) : (s.release i).kids d = s.kids d := by
  by_cases hd : d = i
  · subst hd
    rw [hk, Ns.kids, if_neg]
    rw [isDir_release_self]
    simp
  · rw [Ns.kids, Ns.kids, isDir_release_of_ne hd, release_inode_of_ne hd]

theorem release_mode (d : ℕ) : ((s.release i).inode d).mode = (s.inode d).mode := by
  by_cases hd : d = i
  · subst hd
    rw [release_inode_self]
  · rw [release_inode_of_ne hd]

theorem tree_release (hk : s.kids i = []) : (s.release i).tree = s.tree.release i := by
  refine Names.Tree.ext rfl rfl rfl ?_ ?_ ?_ ?_
  · funext d
    show decide (((s.release i).inode d).mode = _) = decide ((s.inode d).mode = _)
    rw [release_mode]
  · ext ⟨d, n, c⟩
    rw [mem_names, kids_release hk]
    exact (mem_names (s := s)).symm
  · funext d
    show (s.release i).up d = Function.update s.up i i d
    by_cases hd : d = i
    · subst hd
      rw [Function.update_self, Ns.up, isDir_release_self]
      rfl
    · rw [Function.update_of_ne hd, Ns.up, Ns.up, isDir_release_of_ne hd, release_inode_of_ne hd]
  · funext d
    show (if ((s.release i).inode d).mode = .directory then 0 else ((s.release i).inode d).links) =
      if (s.inode d).mode = .directory then 0 else (s.inode d).links
    by_cases hd : d = i
    · subst hd
      rw [release_inode_self]
    · rw [release_inode_of_ne hd]

theorem shaped_release (hs : Shaped s x) (hk : s.kids i = []) (hx : x = none ∨ x = some i) :
    Shaped (s.release i) none where
  dir d hd _ := by
    have hne : d ≠ i := fun he => by
      rw [he, isDir_release_self] at hd
      cases hd
    have hup : (s.release i).up d = s.up d := by
      rw [Ns.up, Ns.up, isDir_release_of_ne hne, release_inode_of_ne hne]
    rw [isDir_release_of_ne hne] at hd
    rw [release_inode_of_ne hne, hup, kids_release hk]
    refine hs.dir d hd ?_
    rcases hx with rfl | rfl
    · simp
    · simpa using hne
  index d hu hidx := by
    have hne : d ≠ i := fun he => by
      have hu' : Function.update s.used i false d = true := hu
      rw [he, Function.update_self] at hu'
      cases hu'
    have hu' : Function.update s.used i false d = true := hu
    rw [Function.update_of_ne hne] at hu'
    rw [release_inode_of_ne hne] at hidx ⊢
    exact hs.index d hu' hidx
  type d e he := by
    rw [kids_release hk] at he
    rw [release_mode]
    exact hs.type d e he

end

end Lwext4.Vfs
