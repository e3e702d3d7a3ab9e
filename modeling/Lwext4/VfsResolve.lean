/-
  Path resolution against removal and renaming.

  A path leads to an inode by its components, one after the other from the
  root.  The offset `ext4_generic_open2` hands back leads to the last name,
  and that name is an entry of the parent it hands back, unless the path ends
  in a slash: there the name is empty and no entry has it.  `ext4_dir_rm` goes
  on with the directory that ".." names, which is the parent unless the path
  ends in a dot name.
-/
import Lwext4.VfsDirRm

namespace Lwext4.Vfs

open Lib

/-- The components, looked up one after the other from directory `d`, lead to
    inode `i`. -/
inductive Leads (s : Ns) : ℕ → List Name → ℕ → Prop
  | here {d : ℕ} : Leads s d [] d
  | step {d i : ℕ} {n : Name} {cs : List Name} {e : Entry} : s.isDir d = true →
      dirFindEntry s d n = some e → Leads s e.inode cs i → Leads s d (n :: cs) i

/-- What a call that opened `path` may rely on. -/
structure Agrees (w : World) (path : List Byte) (m : ℕ) (ft : FileType) (r : OpenedAt) : Prop where
  /-- the inode is the one the components lead to -/
  reached : Leads (w.fs m) rootIndex ((w.comps m path).filter (· ≠ [])) r.inode
  /-- the name at the offset is an entry of the parent and refers to the inode -/
  named : ∃ e, dirFindEntry (w.fs m) r.parentInode (nameAt path r.nameOff) = some e ∧
    e.inode = r.inode
  /-- the callers read the same name -/
  reread : origName path r.nameOff = nameAt path r.nameOff ∧
    unlinkName path r.nameOff = nameAt path r.nameOff
  /-- `ext4_fremove` unlinks from the parent as it was -/
  removed : ((w.fs m).inode r.inode).mode ≠ .directory →
    dirFindEntry ((w.fs m).trunc r.inode) r.parentInode (nameAt path r.nameOff) =
      dirFindEntry (w.fs m) r.parentInode (nameAt path r.nameOff)
  /-- behind the new name `ext4_frename` still finds the old one -/
  renamed : ∀ newPath w', createHardlink newPath m r.inode true w = (.ok (), w') →
    ∃ e, dirFindEntry (w'.fs m) r.parentInode (nameAt path r.nameOff) = some e ∧
      (e.inode = r.inode ∨ r.inode = r.parentInode)
  /-- `ext4_dir_rm` comes to unlink the directory from the parent -/
  rmdir : ft = .dir → ∀ s p, RmReach (w.fs m) ⟨r.inode, r.parentInode, 1, 0⟩ s p →
    (p.depth = 0 ∨ p.depth = 1 ∧ 2 ≤ p.pos) →
    p.cur = r.inode ∧ p.up = r.parentInode ∧
      dirFindEntry s p.up (nameAt path r.nameOff) =
        dirFindEntry (w.fs m) r.parentInode (nameAt path r.nameOff)

/-- Whatever the path is opened as, what it resolves to agrees. -/
def PathAgrees (w : World) (path : List Byte) : Prop :=
  ∀ ft m r, genericOpen2At w path ft = .ok (m, r) → Agrees w path m ft r

/-- The components of a path that ends in a name, and in a dot name only where
    ".." of the directory it leads to names the directory it is looked up in. -/
structure PathOk (s : Ns) (cs : List Name) : Prop where
  named : ∀ dirs, cs = dirs ++ [[]] → (∀ n ∈ dirs, n.length < directoryFilenameLen) →
    ∀ d, Leads s rootIndex dirs d → s.isDir d = false
  upward : ∀ dirs n, cs = dirs ++ [n] → isDots n = true →
    (∀ n ∈ dirs, n.length < directoryFilenameLen) → ∀ p e, Leads s rootIndex dirs p →
    s.isDir p = true → dirFindEntry s p n = some e → s.up e.inode = p

/-! ## Looking up in a tree -/

section
variable {s : Ns} {d p q i : ℕ} {n : Name} {e : Entry} {ft : FileType} {cs dirs rest : List Name}
  {o : Opened}

theorem Shape.mem_ents {x : Inode} {l : List Entry} (h : Shape x d p l) (he : e ∈ x.ents) :
    e ∈ dotEntries d p ∨ e ∈ l := by
  have hm : e ∈ x.entries := List.mem_append_right _ he
  rw [h.entries, List.mem_append] at hm
  exact hm

/-- What a name stands for in a directory. -/
theorem DirTree.find (ht : DirTree s) (hd : s.isDir d = true) (hf : dirFindEntry s d n = some e) :
    e.name = n ∧ ((isDots n = true ∧ s.isDir e.inode = true ∧ e.type = .dir ∧
        (e.inode = d ∨ e.inode = s.up d)) ∨ (isDots n = false ∧ e ∈ s.kids d)) := by
  have hname : e.name = n := by simpa using List.find?_some hf
  refine ⟨hname, ?_⟩
  have hs := ht.shape d hd
  rcases hs.mem_ents (List.mem_of_find?_eq_some hf) with h | h
  · rw [dotEntries, List.mem_pair] at h
    rcases h with rfl | rfl
    · exact .inl ⟨by rw [← hname]; rfl, hd, rfl, .inl rfl⟩
    · exact .inl ⟨by rw [← hname]; rfl, ht.upDir d hd, rfl, .inr rfl⟩
  · exact .inr ⟨by rw [← hname]; exact hs.names e h, h⟩

theorem DirTree.ne_nil (ht : DirTree s) (hd : s.isDir d = true)
    (hf : dirFindEntry s d n = some e) : n ≠ [] := by
  rintro rfl
  obtain ⟨hname, ⟨hdots, -⟩ | ⟨-, he⟩⟩ := ht.find hd hf
  · exact nomatch hdots
  · exact ht.named d e he hname

theorem DirTree.mode (ht : DirTree s) (hd : s.isDir d = true)
    (hf : dirFindEntry s d n = some e) :
    s.used e.inode = true ∧ entryMode s e = (s.inode e.inode).mode := by
  obtain ⟨-, ⟨-, hdir, htype, -⟩ | ⟨-, he⟩⟩ := ht.find hd hf
  · rw [isDir_iff] at hdir
    refine ⟨hdir.1, ?_⟩
    rw [entryMode, htype, hdir.2]
    split_ifs <;> rfl
  · refine ⟨(ht.kid d e he).1, ?_⟩
    rw [entryMode, ht.type d e he, correspond_entryType]
    split_ifs <;> rfl

theorem DirTree.dir_of_mode (ht : DirTree s) (hd : s.isDir d = true)
    (hf : dirFindEntry s d n = some e) (hm : entryMode s e = .directory) :
    s.isDir e.inode = true := by
  obtain ⟨hu, hmode⟩ := ht.mode hd hf
  exact isDir_iff.2 ⟨hu, hmode ▸ hm⟩

theorem pathCheck_ne_zero (hne : n ≠ []) (hl : n.length < directoryFilenameLen) :
    pathCheck n ≠ 0 := by
  rw [pathCheck, if_pos hl]
  exact fun h => hne (List.length_eq_zero_iff.1 h)

theorem ne_nil_of_pathCheck (h : pathCheck n ≠ 0) : n ≠ [] := by
  rintro rfl
  exact h rfl

theorem Leads.snoc (h : Leads s d dirs p) (hp : s.isDir p = true)
    (hf : dirFindEntry s p n = some e) : Leads s d (dirs ++ [n]) e.inode := by
  induction h with
  | here => exact .step hp hf .here
  | step hd hf' _ ih => exact .step hd hf' (ih hp hf)

/-- The walk goes along the components that lead on. -/
theorem resolve_through (ht : DirTree s) (h : Leads s d dirs q) (hq : s.isDir q = true)
    (hl : ∀ n ∈ dirs, n.length < directoryFilenameLen) (hr : rest ≠ []) (hp : s.isDir p = true) :
    ∃ p', s.isDir p' = true ∧ resolve s ft (dirs ++ rest) d p = resolve s ft rest q p' := by
  induction h generalizing p with
  | here => exact ⟨p, hp, rfl⟩
  | @step d i n cs e hd hf hlead ih =>
    have hdir : s.isDir e.inode = true := by
      cases hlead with
      | here => exact hq
      | step he _ _ => exact he
    have hm : entryMode s e = .directory := (ht.mode hd hf).2.trans (isDir_iff.1 hdir).2
    obtain ⟨p', hp', hres⟩ := ih hq (fun n hn => hl n (List.mem_cons_of_mem _ hn)) hd
    refine ⟨p', hp', ?_⟩
    have hne : cs ++ rest ≠ [] := by simp [hr]
    rw [List.cons_append, resolve,
      if_neg (pathCheck_ne_zero (ht.ne_nil hd hf) (hl _ List.mem_cons_self)), hf]
    simp only [hm, ne_eq, not_true_eq_false, false_and, if_false, hne, and_false]
    exact hres

/-- How a resolved path ends: in an empty name behind a slash, or in an entry
    of the parent. -/
structure Ends (s : Ns) (ft : FileType) (d : ℕ) (cs : List Name) (o : Opened)
    (dirs : List Name) : Prop where
  dir : ft = .dir → s.isDir o.inode = true
  comps : cs = dirs ++ [o.name]
  short : ∀ n ∈ dirs, n ≠ [] ∧ n.length < directoryFilenameLen
  parent : s.isDir o.parent = true
  last : (o.name = [] ∧ Leads s d dirs o.inode ∧ s.isDir o.inode = true) ∨
    (pathCheck o.name ≠ 0 ∧ Leads s d dirs o.parent ∧
      ∃ e, dirFindEntry s o.parent o.name = some e ∧ e.inode = o.inode)

theorem resolve_ends (ht : DirTree s) (hd : s.isDir d = true) (hp : s.isDir p = true)
    (ho : resolve s ft cs d p = some o) : ∃ dirs, Ends s ft d cs o dirs := by
  induction cs generalizing d p with
  | nil => cases ho
  | cons n rest ih =>
    rw [resolve] at ho
    by_cases hn : pathCheck n = 0
    · rw [if_pos hn] at ho
      by_cases hgoal : (ft = .dir ∨ ft = .unknown) ∧ n = [] ∧ rest = []
      · rw [if_pos hgoal] at ho
        cases ho
        obtain ⟨-, rfl, rfl⟩ := hgoal
        exact ⟨[], fun _ => hd, rfl, fun _ hs => absurd hs (List.not_mem_nil), hp,
          .inl ⟨rfl, .here, hd⟩⟩
      · rw [if_neg hgoal] at ho
        cases ho
    rw [if_neg hn] at ho
    cases hf : dirFindEntry s d n with
    | none =>
      rw [hf] at ho
      cases ho
    | some e =>
      rw [hf] at ho
      dsimp only at ho
      by_cases h1 : entryMode s e ≠ .directory ∧ rest ≠ []
      · rw [if_pos h1] at ho
        cases ho
      rw [if_neg h1] at ho
      by_cases h2 : ft ≠ .unknown ∧ entryMode s e ≠ correspondInodeMode ft ∧ rest = []
      · rw [if_pos h2] at ho
        cases ho
      rw [if_neg h2] at ho
      by_cases h3 : rest = []
      · rw [if_pos h3] at ho
        cases ho
        rw [h3]
        refine ⟨[], fun hft => ?_, rfl, fun _ hs => absurd hs (List.not_mem_nil), hd,
          .inr ⟨hn, .here, e, hf, rfl⟩⟩
        subst hft
        refine ht.dir_of_mode hd hf ?_
        by_contra hx
        exact h2 ⟨(fun hs => by cases hs), hx, h3⟩
      · rw [if_neg h3] at ho
        have hm : entryMode s e = .directory := by
          by_contra hx
          exact h1 ⟨hx, h3⟩
        obtain ⟨dirs, hdir, hcs, hshort, hpar, hlast⟩ := ih (ht.dir_of_mode hd hf hm) hd ho
        refine ⟨n :: dirs, hdir, by rw [hcs, List.cons_append], ?_, hpar, ?_⟩
        · intro k hk
          rcases List.mem_cons.1 hk with rfl | hk
          · exact ⟨ne_nil_of_pathCheck hn, length_lt_of_pathCheck hn⟩
          · exact hshort k hk
        · rcases hlast with ⟨hnil, hlead, hdir⟩ | ⟨hpc, hlead, hent⟩
          · exact .inl ⟨hnil, .step hd hf hlead, hdir⟩
          · exact .inr ⟨hpc, .step hd hf hlead, hent⟩

theorem Ends.reached (h : Ends s ft d cs o dirs) : Leads s d (cs.filter (· ≠ [])) o.inode := by
  have hdirs : dirs.filter (· ≠ []) = dirs := by
    refine List.filter_eq_self.2 fun n hn => ?_
    simpa using (h.short n hn).1
  rw [h.comps, List.filter_append, hdirs]
  rcases h.last with ⟨hnil, hlead, -⟩ | ⟨hpc, hlead, e, hf, hi⟩
  · rw [hnil]
    simpa using hlead
  · have hne := ne_nil_of_pathCheck hpc
    rw [← hi]
    simpa [hne] using hlead.snoc h.parent hf

/-! ## The callers -/

theorem names_nodup (ht : DirTree s) (hd : s.isDir d = true) :
    ((s.inode d).ents.map Entry.name).Nodup := by
  have hs := ht.shape d hd
  cases hi : (s.inode d).index with
  | true =>
    rw [(hs.indexed hi).2]
    exact hs.nodup
  | false =>
    rw [(hs.plain hi).2, List.map_append, List.nodup_append]
    refine ⟨by simp [dotEntries, dot, dotdot], hs.nodup, fun a ha b hb hab => ?_⟩
    obtain ⟨e, he, rfl⟩ := List.mem_map.1 hb
    have hdots : isDots a = true := by
      rcases List.mem_pair.1 ha with rfl | rfl <;> rfl
    have := hs.names e he
    rw [← hab, hdots] at this
    cases this

/-- In a list of names that occur once, a name finds its entry. -/
theorem find_nodup {l : List Entry} (hnd : (l.map Entry.name).Nodup) (he : e ∈ l) :
    (l.find? fun x => x.name = e.name) = some e := by
  rw [List.find?_eq_some_iff_append]
  obtain ⟨a, b, rfl⟩ := List.append_of_mem he
  refine ⟨by simp, a, b, rfl, fun x hx => ?_⟩
  rw [List.map_append, List.map_cons, List.nodup_append] at hnd
  simpa using hnd.2.2 x.name (List.mem_map_of_mem hx) e.name List.mem_cons_self

/-- A new name does not hide an old one, wherever it is put. -/
theorem find_placed {l : List Entry} (pl : Placement) (hnd : (l.map Entry.name).Nodup) {x : Entry}
    (hx : (l.find? fun y => y.name = x.name) = none)
    (hf : (l.find? fun y => y.name = n) = some e) :
    ((pl.place l x).find? fun y => y.name = n) = some e := by
  obtain ⟨l', hl', hperm⟩ := pl.front [] l x nofun
  rw [List.nil_append, List.nil_append] at hl'
  have hname : e.name = n := by simpa using List.find?_some hf
  rw [hl', ← hname]
  refine find_nodup ?_ (hperm.mem_iff.2 (List.mem_cons_of_mem _ (List.mem_of_find?_eq_some hf)))
  rw [(hperm.map Entry.name).nodup_iff, List.map_cons, List.nodup_cons]
  refine ⟨fun hm => ?_, hnd⟩
  obtain ⟨y, hy, hyx⟩ := List.mem_map.1 hm
  simpa [hyx] using List.find?_eq_none.1 hx y hy

theorem incLinks_ents (b : Bool) (x : Inode) : (fsInodeLinksCountInc b x).ents = x.ents := by
  rw [fsInodeLinksCountInc]
  split_ifs <;> rfl

variable {w w' : World} {m k c : ℕ} {path : List Byte}

/-- The entry for a name after the parent of a directory was set. -/
theorem resetParent_find {s' : Ns} {u : Unit} (h : resetParent c q s = (.ok u, s')) (d : ℕ)
    (hf : dirFindEntry s d n = some e) :
    ∃ e', dirFindEntry s' d n = some e' ∧ (e'.inode = e.inode ∨ d = c) := by
  obtain ⟨s₁, s₂, hg, h⟩ := Prog.bind_inv h
  cases hg
  have hents : ∃ f : Entry → Entry, (∀ x, (f x).name = x.name) ∧
      (s'.inode c).ents = (s.inode c).ents.map f ∧ Around [c] s s' := by
    have hname : ∀ x, (reparent q x).name = x.name := by
      intro x
      rw [reparent]
      split_ifs <;> rfl
    by_cases hi : (s.inode c).index = false
    · rw [if_pos hi] at h
      by_cases hnone : (dirFindEntry s c dotdot).isNone = true
      · rw [if_pos hnone] at h
        cases h
      · rw [if_neg hnone] at h
        obtain ⟨h1, h2⟩ := modifyInode_inode h
        exact ⟨reparent q, hname, by rw [h1], h2⟩
    · rw [if_neg hi] at h
      obtain ⟨h1, h2⟩ := modifyInode_inode h
      exact ⟨id, fun _ => rfl, by rw [h1, List.map_id], h2⟩
  obtain ⟨f, hfn, hmap, hrest⟩ := hents
  by_cases hd : d = c
  · refine ⟨f e, ?_, .inr hd⟩
    rw [hd] at hf ⊢
    rw [dirFindEntry, hmap, List.find?_map]
    have hcomp : ((fun x : Entry => decide (x.name = n)) ∘ f) = fun x => decide (x.name = n) := by
      funext x
      simp [hfn]
    rw [hcomp]
    rw [dirFindEntry] at hf
    rw [hf]
    rfl
  · refine ⟨e, ?_, .inl rfl⟩
    rw [dirFindEntry, hrest d (by simpa using hd)]
    exact hf

/-- The names on mount point `m` after an entry was made on `k`. -/
theorem addEntry_find (ht : DirTree (w.fs m)) (hd : (w.fs m).isDir d = true)
    (hf : dirFindEntry (w.fs m) d n = some e) {x : Entry}
    (hx : dirFindEntry (w.fs k) q x.name = none) :
    dirFindEntry ((w.set k ((w.fs k).addEntry q x)).fs m) d n = some e := by
  by_cases hk : m = k
  · subst hk
    rw [World.set_fs]
    by_cases hq : d = q
    · subst hq
      have := find_placed ((w.fs m).choice (w.fs m).tick).place (names_nodup ht hd) hx hf
      simpa [dirFindEntry, Ns.addEntry] using this
    · rw [dirFindEntry, Ns.addEntry]
      simp only [Function.update_of_ne hq]
      exact hf
  · rw [World.set_fs_of_ne hk]
    exact hf

theorem incLinks_find {u : Unit} {b : Bool}
    (h : onFs k (modifyInode q (fsInodeLinksCountInc b)) w = (.ok u, w')) (m d : ℕ) (n : Name) :
    dirFindEntry (w'.fs m) d n = dirFindEntry (w.fs m) d n := by
  rw [onFs_run] at h
  cases h
  by_cases hk : m = k
  · subst hk
    rw [World.set_fs, dirFindEntry, dirFindEntry]
    by_cases hq : d = q
    · subst hq
      simp only [modifyInode, Prog.modify_run, setInode_self, incLinks_ents]
    · simp only [modifyInode, Prog.modify_run, setInode_of_ne hq]
  · rw [World.set_fs_of_ne hk]

theorem link_find (ht : DirTree (w.fs m)) (hd : (w.fs m).isDir d = true)
    (hf : dirFindEntry (w.fs m) d n = some e) {n' : Name}
    (hx : dirFindEntry (w.fs k) q n' = none) {u : Unit}
    (h : link k q m c n' path true w = (.ok u, w')) :
    ∃ e', dirFindEntry (w'.fs m) d n = some e' ∧ (e'.inode = e.inode ∨ d = c) := by
  rw [link] at h
  by_cases hlen : directoryFilenameLen < n'.length
  · rw [if_pos hlen] at h
    cases h
  rw [if_neg hlen] at h
  rw [Prog.bind_run, onFs_run, Prog.get_run, World.set_self] at h
  obtain ⟨u₁, w₂, hadd, h⟩ := Prog.bind_inv h
  rw [onFs_run, dirAddEntry, Prog.bind_run, Prog.get_run] at hadd
  dsimp only at hadd
  by_cases hroom : ((w.fs k).choice (w.fs k).tick).room = false
  · rw [if_pos hroom] at hadd
    cases hadd
  rw [if_neg hroom] at hadd
  have hw₂ : w₂ = w.set k ((w.fs k).addEntry q ⟨n', c, ((w.fs m).inode c).mode.entryType⟩) :=
    (congrArg Prod.snd hadd).symm
  have h₂ : dirFindEntry (w₂.fs m) d n = some e := by
    rw [hw₂]
    exact addEntry_find ht hd hf hx
  by_cases hm : ((w.fs m).inode c).mode = .directory
  · rw [if_pos hm, if_pos rfl] at h
    obtain ⟨u₃, w₃, hreset, h⟩ := Prog.bind_inv h
    rw [Prog.bind_run, onFs_run, Prog.get_run, World.set_self] at h
    rw [onFs_run] at hreset
    obtain ⟨hr1, hr2⟩ := Prod.mk.inj hreset
    have hreset' : resetParent c q (w₂.fs m) = (.ok u₃, w₃.fs m) :=
      Prod.ext hr1 (by rw [← hr2, World.set_fs])
    obtain ⟨e', hf', hi'⟩ := resetParent_find hreset' d h₂
    exact ⟨e', by rw [incLinks_find h]; exact hf', hi'⟩
  · rw [if_neg hm, if_pos rfl] at h
    cases h
    exact ⟨e, h₂, .inl rfl⟩

theorem linkTarget_none (h : linkTarget s cs d = some (q, n)) : dirFindEntry s q n = none := by
  induction cs generalizing d with
  | nil => cases h
  | cons k rest ih =>
    rw [linkTarget] at h
    by_cases hk : pathCheck k = 0
    · rw [if_pos hk] at h
      cases h
    rw [if_neg hk] at h
    cases hf : dirFindEntry s d k with
    | none =>
      rw [hf] at h
      dsimp only at h
      split_ifs at h
      cases h
      exact hf
    | some e =>
      rw [hf] at h
      dsimp only at h
      split_ifs at h
      exact ih h

/-- **Making the new name of a rename leaves the old one.** -/
theorem createHardlink_find (ht : DirTree (w.fs m)) (hd : (w.fs m).isDir d = true)
    (hf : dirFindEntry (w.fs m) d n = some e) {u : Unit}
    (h : createHardlink path m c true w = (.ok u, w')) :
    ∃ e', dirFindEntry (w'.fs m) d n = some e' ∧ (e'.inode = e.inode ∨ d = c) := by
  obtain ⟨k, w₁, hmp, hwalk⟩ := Prog.bind_inv h
  have hw₁ : w₁ = w := by
    obtain ⟨x, w₂, hg, hmp⟩ := Prog.bind_inv hmp
    cases hg
    cases hmount : getMount w.mounts path with
    | none =>
      rw [hmount] at hmp
      cases hmp
    | some k' =>
      rw [hmount] at hmp
      cases hmp
      rfl
  rw [hw₁, Prog.bind_run, Prog.get_run] at hwalk
  dsimp only at hwalk
  rcases @hardlinkWalk_run (w.fs k) rootIndex (w.comps k path) w k m c true rfl with
    ⟨q, n', htarget, hrun⟩ | ⟨-, e', hrun⟩
  · rw [hrun] at hwalk
    exact link_find ht hd hf (linkTarget_none htarget) hwalk
  · rw [hrun] at hwalk
    cases hwalk

/-- **What the loops of `ext4_dir_rm` remove, the name of the directory itself
    stays.** -/
theorem RmInv.find {s' : Ns} {pos : RmPos} (ht : DirTree s) (hp : s.isDir p = true)
    (hf : dirFindEntry s p n = some e) (hup : s.up e.inode = p)
    (h : RmInv s e.inode s' pos) : dirFindEntry s' p n = some e := by
  by_cases hunder : Forest.Under s.up e.inode p
  · obtain ⟨i, hi⟩ := hunder
    obtain ⟨hname, ⟨hdots, hdir, -, -⟩ | ⟨-, he⟩⟩ := ht.find hp hf
    · -- the directory is the root, found by a dot name of its own
      have hcyc : s.up^[i + 1] e.inode = e.inode := by
        rw [Function.iterate_succ_apply, hup, hi]
      have hroot := (ht.rooted _ hdir).cycle ht.rootUp hcyc
      have hpe : p = e.inode := by rw [← hup, hroot, ht.rootUp]
      have hs := ht.shape p hp
      have hidx : (s.inode p).index = false := by
        cases hi : (s.inode p).index with
        | false => rfl
        | true =>
          have hm := List.mem_of_find?_eq_some hf
          rw [(hs.indexed hi).2] at hm
          have := hs.names e hm
          rw [hname, hdots] at this
          cases this
      obtain ⟨hd', hi', l, -, hs'⟩ := h.full
      rw [← hpe] at hi' hs'
      have hfind : ∀ l : List Entry, (dotEntries p (s.up p) ++ l).find? (fun x => x.name = n) =
          (dotEntries p (s.up p)).find? fun x => x.name = n := by
        intro l
        rw [List.find?_append]
        have : isDots n = true := hdots
        rw [isDots_iff] at this
        rcases this with rfl | rfl <;> rfl
      rw [dirFindEntry, (hs.plain hidx).2, hfind] at hf
      rw [dirFindEntry, (hs'.plain (hi'.trans hidx)).2, hfind]
      exact hf
    · have hdir : s.isDir (s.up^[i] p) = true := by
        rw [hi]
        exact h.full.dir
      exact absurd hi.symm (ht.ne_above hp he hdir)
  · rw [dirFindEntry, h.part.outside p hp hunder]
    exact hf

/-- A resolved path with a name at its end agrees, and with ".." of the
    directory naming its parent `ext4_dir_rm` agrees too. -/
theorem Ends.agrees {r : OpenedAt} (ht : ∀ m, DirTree (w.fs m))
    (h : Ends (w.fs m) ft rootIndex (w.comps m path) o dirs)
    (hr : r = ⟨o.inode, o.parent, r.nameOff, o.imode⟩) (hn : NamedAt path r.nameOff o.name)
    (hlast : o.name ≠ [])
    (hup : ft = .dir → (w.fs m).up o.inode = o.parent) : Agrees w path m ft r := by
  obtain ⟨hnil, -⟩ | ⟨-, hlead, e, hf, hi⟩ := h.last
  · exact absurd hnil hlast
  have hinode : r.inode = o.inode := congrArg OpenedAt.inode hr
  have hparent : r.parentInode = o.parent := congrArg OpenedAt.parentInode hr
  refine ⟨?_, ⟨e, ?_, ?_⟩, ⟨?_, ?_⟩, fun hm => ?_, fun newPath w' hlink => ?_, fun hft s p hr hs => ?_⟩
  · rw [hinode]
    exact h.reached
  · rw [hparent, hn.at_off]
    exact hf
  · rw [hinode, hi]
  · rw [hn.orig, hn.at_off]
  · rw [hn.unlink, hn.at_off]
  · have hne : r.parentInode ≠ r.inode := by
      intro heq
      rw [← heq, hparent] at hm
      exact hm (isDir_iff.1 h.parent).2
    rw [dirFindEntry, dirFindEntry, trunc_inode_of_ne hne]
  · rw [hparent, hn.at_off]
    obtain ⟨e', hf', hi'⟩ := createHardlink_find (ht m) h.parent hf hlink
    refine ⟨e', hf', hi'.imp (fun h => ?_) fun h => ?_⟩
    · rw [h, hi, hinode]
    · exact h.symm
  · have hdir := h.dir hft
    have hinv : RmInv (w.fs m) e.inode s p := by
      rw [hinode, hparent, ← hi] at hr
      exact hr.inv (ht m) (by rw [hi]; exact hdir)
    obtain ⟨hcur, hpup⟩ := hinv.settled hs
    have hup' : (w.fs m).up e.inode = o.parent := by
      rw [hi]
      exact hup hft
    refine ⟨by rw [hcur, hi, hinode], by rw [hpup, hup', hparent], ?_⟩
    rw [hpup, hup', hparent, hn.at_off, hf]
    exact hinv.find (ht m) h.parent hf hup'

/-- A path that agrees ends in a name. -/
theorem PathAgrees.pathOk (ht : ∀ m, DirTree (w.fs m)) (h : PathAgrees w path) (m : ℕ)
    (hm : getMount w.mounts path = some m) : PathOk (w.fs m) (w.comps m path) := by
  constructor
  · intro dirs hcs hl d hlead
    by_contra hd
    rw [Bool.not_eq_false] at hd
    obtain ⟨p', hp', hres⟩ := @resolve_through (w.fs m) rootIndex rootIndex d .unknown dirs [[]]
      (ht m) hlead hd hl (List.cons_ne_nil _ _) (ht m).rootDir
    rw [← hcs, resolve, if_pos (show pathCheck [] = 0 from rfl), if_pos ⟨.inr rfl, rfl, rfl⟩] at hres
    rcases genericOpen2At_eq .unknown hm with ⟨o, off, hres', hat, hn⟩ | ⟨hnone, -⟩
    · obtain rfl := Option.some.inj (hres'.symm.trans hres)
      obtain ⟨e, hf, -⟩ := (h _ _ _ hat).named
      rw [hn.at_off] at hf
      exact (ht m).ne_nil hp' hf rfl
    · rw [hres] at hnone
      cases hnone
  · intro dirs n hcs hdots hl p e hlead hp hf
    obtain ⟨p', -, hres⟩ := @resolve_through (w.fs m) rootIndex rootIndex p .dir dirs [n]
      (ht m) hlead hp hl (List.cons_ne_nil _ _) (ht m).rootDir
    have hdir : (w.fs m).isDir e.inode = true := by
      obtain ⟨-, ⟨-, hd, -⟩ | ⟨hnd, -⟩⟩ := (ht m).find hp hf
      · exact hd
      · rw [hdots] at hnd
        cases hnd
    have hm' : entryMode (w.fs m) e = .directory :=
      ((ht m).mode hp hf).2.trans (isDir_iff.1 hdir).2
    have hpc : pathCheck n ≠ 0 := by
      rcases isDots_iff.1 hdots with rfl | rfl <;> decide
    rw [← hcs, resolve, if_neg hpc, hf] at hres
    simp only [hm', ne_eq, not_true_eq_false, false_and, if_false, if_true,
      correspondInodeMode, and_false] at hres
    rcases genericOpen2At_eq .dir hm with ⟨o, off, hres', hat, hn⟩ | ⟨hnone, -⟩
    · obtain rfl := Option.some.inj (hres'.symm.trans hres)
      exact ((h _ _ _ hat).rmdir rfl _ _ (rmReach_dots (ht m) _ hdir)
        (.inr ⟨rfl, le_rfl⟩)).2.1
    · rw [hres] at hnone
      cases hnone

/-- A path that ends in a name agrees. -/
theorem PathOk.pathAgrees (ht : ∀ m, DirTree (w.fs m))
    (h : ∀ m, getMount w.mounts path = some m → PathOk (w.fs m) (w.comps m path)) :
    PathAgrees w path := by
  intro ft m r hopen
  cases hm : getMount w.mounts path with
  | none =>
    rw [genericOpen2At, hm] at hopen
    cases hopen
  | some k =>
    rcases genericOpen2At_eq ft hm with ⟨o, off, hres, hat, hn⟩ | ⟨-, hat⟩
    · rw [hat] at hopen
      obtain ⟨rfl, rfl⟩ := Prod.mk.inj (Except.ok.inj hopen)
      obtain ⟨dirs, hends⟩ := resolve_ends (ht k) (ht k).rootDir (ht k).rootDir hres
      have hok := h k hm
      have hshort : ∀ n ∈ dirs, n.length < directoryFilenameLen :=
        fun n hn => (hends.short n hn).2
      have hlast : o.name ≠ [] := by
        intro hnil
        obtain ⟨-, hlead, hdir⟩ | ⟨hpc, -⟩ := hends.last
        · have := hok.named dirs (by rw [← hnil]; exact hends.comps) hshort _ hlead
          rw [hdir] at this
          cases this
        · exact ne_nil_of_pathCheck hpc hnil
      refine hends.agrees ht rfl hn hlast fun hft => ?_
      obtain ⟨hnil, -⟩ | ⟨-, hlead, e, hf, hi⟩ := hends.last
      · exact absurd hnil hlast
      rw [← hi]
      by_cases hdots : isDots o.name = true
      · exact hok.upward dirs o.name hends.comps hdots hshort _ _ hlead hends.parent hf
      · obtain ⟨-, ⟨hd, -⟩ | ⟨-, he⟩⟩ := (ht k).find hends.parent hf
        · exact absurd hd hdots
        · exact (ht k).parent _ e he (by rw [hi]; exact hends.dir hft)
    · rw [hat] at hopen
      cases hopen

/-- **A path resolves to the entry its removal and renaming take out exactly
    when it ends in a name**, and in a dot name only where ".." leads to the
    directory it is looked up in. -/
theorem pathAgrees_iff (ht : ∀ m, DirTree (w.fs m)) :
    PathAgrees w path ↔
      ∀ m, getMount w.mounts path = some m → PathOk (w.fs m) (w.comps m path) :=
  ⟨fun h m hm => h.pathOk ht m hm, PathOk.pathAgrees ht⟩

end

/-! ## One directory below the root -/

def emptyDir (i up : ℕ) (kids : List Entry) : Inode where
  mode := .directory
  links := 2
  index := false
  dots := []
  ents := dotEntries i up ++ kids
  content := []
  data := 1
  aux := 0

/-- The root with the directory "d" in inode `11`. -/
def oneDir : Ns where
  inode i := if i = 2 then emptyDir 2 2 [⟨[100], 11, .dir⟩]
    else if i = 11 then emptyDir 11 2 [] else newInode .regFile
  used i := i = 2 || i = 11
  inodesCount := 16
  freeInodes := 4
  freeBlocks := 100
  dirIndex := false
  filetype := true
  extents := true
  readOnly := false
  choice _ := ⟨0, false, 0, ⟨fun l e => l ++ [e], place_last⟩⟩
  tick := 0
  fill _ := false
  filled := 0

/-- It is mounted at "/". -/
def oneDirWorld : World := ⟨[[47]], fun _ => oneDir⟩

theorem oneDir_isDir {d : ℕ} : oneDir.isDir d = true ↔ d = 2 ∨ d = 11 := by
  rw [isDir_iff]
  constructor
  · rintro ⟨h, -⟩
    simpa [oneDir] using h
  · rintro (rfl | rfl) <;> exact ⟨rfl, rfl⟩

theorem oneDir_kids {d : ℕ} {e : Entry} (h : e ∈ oneDir.kids d) :
    d = 2 ∧ e = ⟨[100], 11, .dir⟩ := by
  rcases oneDir_isDir.1 (isDir_of_mem h) with rfl | rfl
  · exact ⟨rfl, List.mem_singleton.1 h⟩
  · cases h

theorem oneDir_tree : DirTree oneDir where
  rootDir := rfl
  rootUp := rfl
  shape := by
    intro d hd
    rcases oneDir_isDir.1 hd with rfl | rfl
    · exact ⟨fun _ => ⟨rfl, rfl⟩, nofun, by decide, by decide⟩
    · exact ⟨fun _ => ⟨rfl, rfl⟩, nofun, by decide, by decide⟩
  named := by
    intro d e he
    rw [(oneDir_kids he).2]
    exact List.cons_ne_nil _ _
  kid := by
    intro d e he
    rw [(oneDir_kids he).2]
    exact ⟨rfl, by decide⟩
  type := by
    intro d e he
    rw [(oneDir_kids he).2]
    rfl
  parent := by
    intro d e he _
    obtain ⟨rfl, rfl⟩ := oneDir_kids he
    rfl
  upDir := by
    intro d hd
    rcases oneDir_isDir.1 hd with rfl | rfl <;> rfl
  rooted := by
    intro d hd
    rcases oneDir_isDir.1 hd with rfl | rfl
    · exact ⟨0, rfl⟩
    · exact ⟨1, rfl⟩

/-- "/d" resolves to the entry "d" of the root. -/
theorem pathAgrees_d : PathAgrees oneDirWorld [47, 100] ∧
    resolve oneDir .dir (oneDirWorld.comps 0 [47, 100]) rootIndex rootIndex =
      some ⟨11, 2, [100], .directory⟩ := by
  refine ⟨(pathAgrees_iff fun _ => oneDir_tree).2 fun m hm => ?_, by rfl⟩
  obtain rfl : m = 0 := (Option.some.inj hm).symm
  have hcs : oneDirWorld.comps 0 [47, 100] = [[100]] := by rfl
  rw [hcs]
  constructor
  · intro dirs h
    have hlast : [100] = [] := by simpa using congrArg List.getLast? h
    exact nomatch hlast
  · intro dirs n h hdots
    have hlast : [100] = n := by simpa using congrArg List.getLast? h
    rw [← hlast] at hdots
    exact nomatch hdots

/-- "/d/" opens "d", but the name at the offset is empty. -/
theorem slash_disagrees : ∃ w path, (∀ m, DirTree (World.fs w m)) ∧ ¬ PathAgrees w path := by
  refine ⟨oneDirWorld, [47, 100, 47], fun _ => oneDir_tree, fun h => ?_⟩
  have hok := h.pathOk (fun _ => oneDir_tree) 0 rfl
  have hlead : Leads oneDir rootIndex [[100]] 11 := .step rfl rfl .here
  have := hok.named [[100]] rfl (by decide) 11 hlead
  cases this

end Lwext4.Vfs
