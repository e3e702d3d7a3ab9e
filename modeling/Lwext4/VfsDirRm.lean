/-
  The positions of ext4_dir_rm.

  The loops keep the directory being read, the directory above it as its ".."
  entry gave it, and the depth.  What they remove lies below the directory the
  path led to, so the chain of directories above the current one stays, and
  the one the last name is taken out of is the one ".." of that directory
  names.
-/
import Lwext4.VfsPath

namespace Lwext4.Vfs

open Lib

/-- A directory tree: dots first, names once and not empty, a directory below
    one directory only, and all of them below the root. -/
structure DirTree (s : Ns) : Prop where
  rootDir : s.isDir rootIndex = true
  rootUp : s.up rootIndex = rootIndex
  shape : ∀ d, s.isDir d = true → Shape (s.inode d) d (s.up d) (s.kids d)
  named : ∀ d, ∀ e ∈ s.kids d, e.name ≠ []
  kid : ∀ d, ∀ e ∈ s.kids d, s.used e.inode = true ∧ e.inode ≠ rootIndex
  type : ∀ d, ∀ e ∈ s.kids d, e.type = (s.inode e.inode).mode.entryType
  parent : ∀ d, ∀ e ∈ s.kids d, s.isDir e.inode = true → s.up e.inode = d
  upDir : ∀ d, s.isDir d = true → s.isDir (s.up d) = true
  rooted : ∀ d, s.isDir d = true → Forest.Under s.up rootIndex d

/-- A good file system whose names are not empty is one. -/
theorem Good.dirTree {s : Ns} (h : Good s) (hr : Names.Rooted rootIndex s.tree)
    (hn : ∀ d, ∀ e ∈ s.kids d, e.name ≠ []) : DirTree s where
  rootDir := h.rootDir
  rootUp := h.sound.rootUp
  shape d hd := h.dir hd
  named := hn
  kid d e he := h.kid_used he
  type := h.shaped.type
  parent d e he hd := h.sound.parent _ _ _ (h.kid he) (by simp) (tree_dir.2 (isDir_iff.1 hd).2)
  upDir d hd := h.up_dir hd
  rooted d hd := hr d (isDir_iff.1 hd).1 (tree_dir.2 (isDir_iff.1 hd).2)

/-- The positions the loops come to, one round after the other. -/
inductive RmReach (s₀ : Ns) (p₀ : RmPos) : Ns → RmPos → Prop
  | start : RmReach s₀ p₀ s₀ p₀
  | round {s s' : Ns} {p p' : RmPos} : RmReach s₀ p₀ s p → p.depth ≠ 0 →
      rmRound p s = (.ok p', s') → RmReach s₀ p₀ s' p'

/-! ## What one round changes -/

/-- Between the states only the inodes in `l` change. -/
def Around (l : List ℕ) (s s' : Ns) : Prop := ∀ x ∉ l, s'.inode x = s.inode x

section
variable {s s' : Ns} {d i : ℕ} {n : Name} {e : Entry} {u : Unit}

theorem modifyInode_inode {f : Inode → Inode} (h : modifyInode i f s = (.ok u, s')) :
    s'.inode i = f (s.inode i) ∧ Around [i] s s' := by
  cases h
  refine ⟨setInode_self, fun x hx => setInode_of_ne ?_⟩
  rintro rfl
  exact hx List.mem_cons_self

theorem dirDxInit_inode (h : dirDxInit d i s = (.ok u, s')) :
    (s'.inode d).mode = (s.inode d).mode ∧ Around [d] s s' := by
  obtain ⟨s₁, s₂, hg, h⟩ := Prog.bind_inv h
  cases hg
  obtain ⟨s₃, hsame, h⟩ : ∃ s₃ : Ns, s₃.inode = s.inode ∧
      (Prog.modify fun t => t.dxInit d i) s₃ = (.ok u, s') := by
    by_cases hidx : (s.inode d).index = true
    · rw [if_pos hidx] at h
      exact ⟨s, rfl, h⟩
    · rw [if_neg hidx] at h
      by_cases hdata : (s.inode d).data = 1 ∧ s.extents = false
      · rw [if_pos hdata] at h
        cases h
      · rw [if_neg hdata] at h
        obtain ⟨_, s₃, hfill, h⟩ := Prog.bind_inv h
        obtain ⟨_, _, hg, hfill⟩ := Prog.bind_inv hfill
        cases hg
        split_ifs at hfill with hroom
        · cases hfill
        · cases hfill
          exact ⟨{ s with filled := s.filled + 1 }, rfl, h⟩
  have hs' : s' = s₃.dxInit d i := (congrArg Prod.snd h).symm
  rw [hs']
  refine ⟨?_, fun x hx => ?_⟩
  · simp [Ns.dxInit, hsame]
  · have hne : x ≠ d := by
      rintro rfl
      exact hx List.mem_cons_self
    simp [Ns.dxInit, hsame, hne]

theorem truncInode_inode (h : truncInode i s = (.ok u, s')) :
    (s'.inode i).mode = (s.inode i).mode ∧ (s'.inode i).entries = [] ∧ Around [i] s s' := by
  cases h
  refine ⟨by simp [Ns.trunc], by simp [Ns.trunc, Inode.entries], fun x hx => ?_⟩
  have hne : x ≠ i := by
    rintro rfl
    exact hx List.mem_cons_self
  simp [Ns.trunc, hne]

theorem Around.trans {l : List ℕ} {s₁ : Ns} (h : Around l s s₁) (h' : Around l s₁ s') :
    Around l s s' := fun x hx => (h' x hx).trans (h x hx)

theorem Around.mono {l l' : List ℕ} (h : Around l s s') (hl : ∀ x ∈ l, x ∈ l') :
    Around l' s s' := fun x hx => h x fun hm => hx (hl x hm)

theorem truncDir_inode (h : truncDir i d s = (.ok u, s')) :
    (s'.inode d).mode = (s.inode d).mode ∧ (s'.inode d).entries = [] ∧ Around [d] s s' := by
  obtain ⟨s₁, s₂, hg, h⟩ := Prog.bind_inv h
  cases hg
  by_cases hm : (s.inode d).mode ≠ .directory
  · rw [if_pos hm] at h
    cases h
  · rw [if_neg hm] at h
    obtain ⟨s₃, hdx, h⟩ := Prog.when_inv h
    obtain ⟨h1, h2, h3⟩ := truncInode_inode h
    split_ifs at hdx with hidx
    · obtain ⟨h4, h5⟩ := dirDxInit_inode hdx
      exact ⟨h1.trans h4, h2, h5.trans h3⟩
    · cases hdx
      exact ⟨h1, h2, h3⟩

theorem decLinks_entries (x : Inode) : (fsInodeLinksCountDec x).mode = x.mode ∧
    (fsInodeLinksCountDec x).dots = x.dots ∧ (fsInodeLinksCountDec x).ents = x.ents ∧
    (fsInodeLinksCountDec x).index = x.index := by
  rw [fsInodeLinksCountDec]
  split_ifs <;> exact ⟨rfl, rfl, rfl, rfl⟩

/-- The directory has lost the one name, and may have another link count. -/
structure Lost (x y : Inode) (n : Name) : Prop where
  mode : y.mode = x.mode
  index : y.index = x.index
  dots : y.dots = x.dots
  ents : y.ents = x.ents.eraseP fun e => e.name = n

theorem unlink_inode (hne : i ≠ d) (h : unlink d i n s = (.ok u, s')) :
    Lost (s.inode d) (s'.inode d) n ∧ (s'.inode i).mode = (s.inode i).mode ∧
      (s'.inode i).entries = (s.inode i).entries ∧ Around [d, i] s s' := by
  obtain ⟨s₁, s₂, hg, h⟩ := Prog.bind_inv h
  cases hg
  by_cases hc : hasChildren s i = true
  · rw [if_pos hc] at h
    cases h
  rw [if_neg hc] at h
  obtain ⟨v, s₃, hrem, h⟩ := Prog.bind_inv h
  obtain ⟨s₄, s₅, hg, hrem⟩ := Prog.bind_inv hrem
  cases hg
  have hrem : modifyInode d (fun x => x.erase n) s = (.ok v, s₃) := by
    split_ifs at hrem with h1 h2
    · cases hrem
    · cases hrem
    · exact hrem
  obtain ⟨h1, h2⟩ := modifyInode_inode hrem
  obtain ⟨s₆, hdec, h⟩ := Prog.when_inv h
  have hd6 : Lost (s.inode d) (s₆.inode d) n ∧ Around [d] s₃ s₆ := by
    split_ifs at hdec with hm
    · obtain ⟨h3, h4⟩ := modifyInode_inode hdec
      obtain ⟨h5, h6, h7, h8⟩ := decLinks_entries (s₃.inode d)
      rw [← h3, h1] at h5 h6 h7 h8
      exact ⟨⟨h5, h8, h6, h7⟩, h4⟩
    · cases hdec
      rw [h1]
      exact ⟨⟨rfl, rfl, rfl, rfl⟩, fun x _ => rfl⟩
  obtain ⟨h9, h10⟩ := modifyInode_inode h
  have hi6 : s₆.inode i = s.inode i :=
    (hd6.2 i (by simpa using hne)).trans (h2 i (by simpa using hne))
  obtain ⟨h11, h12, h13, -⟩ := decLinks_entries (s₆.inode i)
  rw [← h9, hi6] at h11 h12 h13
  refine ⟨?_, h11, ?_, ?_⟩
  · rw [h10 d (by simpa using hne.symm)]
    exact hd6.1
  · rw [Inode.entries, h12, h13, Inode.entries]
  · exact ((h2.trans hd6.2).mono (by simp)).trans (h10.mono (by simp))

/-- **Removing an entry takes its name out of the directory, empties what it
    names and leaves every other inode alone.** -/
theorem rmEntry_inode (hne : e.inode ≠ d) (h : rmEntry d e s = (.ok u, s')) :
    Lost (s.inode d) (s'.inode d) e.name ∧ (s'.inode e.inode).mode = (s.inode e.inode).mode ∧
      (s'.inode e.inode).entries = [] ∧ Around [d, e.inode] s s' := by
  obtain ⟨s₁, s₂, hg, h⟩ := Prog.bind_inv h
  cases hg
  obtain ⟨s₃, h3, h⟩ : ∃ s₃, ((s₃.inode e.inode).mode = (s.inode e.inode).mode ∧
      (s₃.inode e.inode).entries = [] ∧ Around [e.inode] s s₃) ∧
      (do
        unlink d e.inode e.name
        modifyInode e.inode fun n => { n with links := 0 }
        fsFreeInode e.inode : NsM Unit) s₃ = (.ok u, s') := by
    dsimp only at h
    by_cases hm : (s.inode e.inode).mode ≠ .directory
    · rw [if_pos hm] at h
      obtain ⟨v, s₃, htr, h⟩ := Prog.bind_inv h
      exact ⟨s₃, truncInode_inode htr, h⟩
    · rw [if_neg hm] at h
      obtain ⟨v, s₃, htr, h⟩ := Prog.bind_inv h
      exact ⟨s₃, truncDir_inode htr, h⟩
  obtain ⟨v', s₄, hun, h⟩ := Prog.bind_inv h
  obtain ⟨hlost, hm4, he4, ha4⟩ := unlink_inode hne hun
  obtain ⟨v'', s₅, hmod, h⟩ := Prog.bind_inv h
  obtain ⟨h5, ha5⟩ := modifyInode_inode hmod
  have hs' : s' = s₅.release e.inode := by
    cases h
    rfl
  subst hs'
  have hd3 : s₃.inode d = s.inode d := h3.2.2 d (by simpa using hne.symm)
  have hd5 : s₅.inode d = s₄.inode d := ha5 d (by simpa using hne.symm)
  refine ⟨?_, ?_, ?_, ?_⟩
  · rw [release_inode_of_ne hne.symm, hd5]
    rw [hd3] at hlost
    exact hlost
  · rw [release_inode_self, h5]
    exact hm4.trans h3.1
  · rw [release_inode_self, h5]
    exact he4.trans h3.2.1
  · refine fun x hx => ?_
    have hxe : x ≠ e.inode := by
      rintro rfl
      exact hx (by simp)
    rw [release_inode_of_ne hxe, ha5 x (by simpa using hxe), ha4 x hx,
      h3.2.2 x (by simpa using hxe)]

end

/-! ## The rounds -/

/-- The directory `x` still has its dots, and of its names some. -/
structure Full (s₀ s : Ns) (x : ℕ) : Prop where
  dir : s₀.isDir x = true
  index : (s.inode x).index = (s₀.inode x).index
  shape : ∃ l, l ⊆ s₀.kids x ∧ Shape (s.inode x) x (s₀.up x) l

/-- What is left of the tree while the directory `top` is being removed. -/
structure Part (s₀ : Ns) (top : ℕ) (s : Ns) : Prop where
  mode : ∀ x, (s.inode x).mode = (s₀.inode x).mode
  dir : ∀ x, s₀.isDir x = true → (s.inode x).entries = [] ∨ Full s₀ s x
  outside : ∀ x, s₀.isDir x = true → ¬ Forest.Under s₀.up top x → s.inode x = s₀.inode x

/-- A position in a directory `depth - 1` steps below `top`. -/
structure Inside (s₀ : Ns) (top : ℕ) (s : Ns) (p : RmPos) (k : ℕ) : Prop where
  depth : p.depth = k + 1
  top : s₀.up^[k] p.cur = top
  full : ∀ i ≤ k, Full s₀ s (s₀.up^[i] p.cur)
  read : 2 ≤ p.pos → p.up = s₀.up p.cur

/-- The invariant of the rounds. -/
structure RmInv (s₀ : Ns) (top : ℕ) (s : Ns) (p : RmPos) : Prop where
  part : Part s₀ top s
  full : Full s₀ s top
  at_pos : (p.depth = 0 ∧ p.cur = top ∧ p.up = s₀.up top) ∨ ∃ k, Inside s₀ top s p k

theorem Shape.lost {x y : Inode} {d p : ℕ} {l : List Entry} {n : Name} (h : Shape x d p l)
    (hl : Lost x y n) (hn : isDots n = false) :
    Shape y d p (l.eraseP fun e => e.name = n) := by
  have he := h.erase hn
  refine ⟨fun hi => ?_, fun hi => ?_, he.names, he.nodup⟩
  · rw [hl.dots, hl.ents]
    exact he.plain (hl.index ▸ hi)
  · rw [hl.dots, hl.ents]
    exact he.indexed (hl.index ▸ hi)

section
variable {s₀ s s' : Ns} {top : ℕ} {p p' : RmPos} {k : ℕ} {e : Entry}

/-- What an entry names is not the directory it stands in nor one above it. -/
theorem DirTree.ne_above (ht : DirTree s₀) {d : ℕ} (hd : s₀.isDir d = true)
    (he : e ∈ s₀.kids d) {i : ℕ} (hi : s₀.isDir (s₀.up^[i] d) = true) : e.inode ≠ s₀.up^[i] d := by
  intro h
  have hdir : s₀.isDir e.inode = true := by rw [h]; exact hi
  have hcyc : s₀.up^[i + 1] d = d := by
    rw [Function.iterate_succ_apply', ← h]
    exact ht.parent d e he hdir
  have hroot := (ht.rooted d hd).cycle ht.rootUp hcyc
  rw [hroot, Function.iterate_fixed ht.rootUp] at h
  exact (ht.kid d e he).2 h

/-- The entries of a directory that is still full. -/
theorem Full.entries (h : Full s₀ s top) : ∃ l, l ⊆ s₀.kids top ∧
    Shape (s.inode top) top (s₀.up top) l ∧
    (s.inode top).entries = ⟨dot, top, .dir⟩ :: ⟨dotdot, s₀.up top, .dir⟩ :: l := by
  obtain ⟨-, -, l, hl, hs⟩ := h
  exact ⟨l, hl, hs, hs.entries⟩

theorem Inside.up (h : Inside s₀ top s p (k + 1)) (hpos : 2 ≤ p.pos) :
    Inside s₀ top s { cur := p.up, up := p.up, depth := k + 1, pos := 0 } k where
  depth := rfl
  top := by
    rw [h.read hpos, ← Function.iterate_succ_apply]
    exact h.top
  full := by
    intro i hi
    rw [h.read hpos, ← Function.iterate_succ_apply]
    exact h.full (i + 1) (Nat.succ_le_succ hi)
  read := fun hr => absurd hr (by simp)

theorem Inside.down (ht : DirTree s₀) (h : Inside s₀ top s p k) (he : e ∈ s₀.kids p.cur)
    (hf : Full s₀ s e.inode) :
    Inside s₀ top s { cur := e.inode, up := p.cur, depth := p.depth + 1, pos := 0 } (k + 1) := by
  have hup := ht.parent _ e he hf.dir
  refine ⟨by rw [h.depth], ?_, ?_, fun hr => absurd hr (by simp)⟩
  · rw [Function.iterate_succ_apply, hup]
    exact h.top
  · intro i hi
    cases i with
    | zero => exact hf
    | succ i =>
      rw [Function.iterate_succ_apply, hup]
      exact h.full i (Nat.le_of_succ_le_succ hi)

/-- **Removing an entry of the current directory keeps the invariant.** -/
theorem RmInv.rmEntry (ht : DirTree s₀) (hp : Part s₀ top s) (h : Inside s₀ top s p k)
    (he : e ∈ s₀.kids p.cur) (hn : isDots e.name = false) {u : Unit}
    (hrun : rmEntry p.cur e s = (.ok u, s')) :
    Part s₀ top s' ∧ Inside s₀ top s' p k := by
  have hcur : Full s₀ s p.cur := h.full 0 (Nat.zero_le k)
  have hne : ∀ i ≤ k, e.inode ≠ s₀.up^[i] p.cur := fun i hi =>
    ht.ne_above hcur.dir he (h.full i hi).dir
  have hne0 : e.inode ≠ p.cur := hne 0 (Nat.zero_le k)
  obtain ⟨hlost, hmode, hnil, hrest⟩ := rmEntry_inode hne0 hrun
  have hother : ∀ x, x ≠ p.cur → x ≠ e.inode → s'.inode x = s.inode x :=
    fun x h1 h2 => hrest x (by simp [h1, h2])
  have hfullcur : Full s₀ s' p.cur := by
    obtain ⟨hd, hi, l, hl, hs⟩ := hcur
    exact ⟨hd, hlost.index.trans hi, _, fun x hx => hl (List.mem_of_mem_eraseP hx),
      hs.lost hlost hn⟩
  have hunder : Forest.Under s₀.up top p.cur := ⟨k, h.top⟩
  refine ⟨⟨fun x => ?_, fun x hx => ?_, fun x hx hout => ?_⟩, h.depth, h.top, fun i hi => ?_,
    h.read⟩
  · by_cases h1 : x = p.cur
    · rw [h1, hlost.mode, hp.mode]
    · by_cases h2 : x = e.inode
      · rw [h2, hmode, hp.mode]
      · rw [hother x h1 h2, hp.mode]
  · by_cases h1 : x = p.cur
    · rw [h1]
      exact .inr hfullcur
    · by_cases h2 : x = e.inode
      · rw [h2]
        exact .inl hnil
      · rcases hp.dir x hx with hnil | ⟨hd, hi, hs⟩
        · exact .inl (by rw [hother x h1 h2]; exact hnil)
        · rw [← hother x h1 h2] at hi hs
          exact .inr ⟨hd, hi, hs⟩
  · have h1 : x ≠ p.cur := by
      rintro rfl
      exact hout hunder
    have h2 : x ≠ e.inode := by
      rintro rfl
      exact hout (.of_up (by rw [ht.parent _ e he hx]; exact hunder))
    rw [hother x h1 h2]
    exact hp.outside x hx hout
  · by_cases h1 : s₀.up^[i] p.cur = p.cur
    · rw [h1]
      exact hfullcur
    · obtain ⟨hd, hi', hs⟩ := h.full i hi
      rw [← hother _ h1 (hne i hi).symm] at hi' hs
      exact ⟨hd, hi', hs⟩

/-- **One round keeps the invariant.** -/
theorem RmInv.round (ht : DirTree s₀) (h : RmInv s₀ top s p) (hd : p.depth ≠ 0)
    (hrun : rmRound p s = (.ok p', s')) : RmInv s₀ top s' p' := by
  obtain ⟨hpart, htop, ⟨h0, -⟩ | ⟨k, hin⟩⟩ := h
  · exact absurd h0 hd
  obtain ⟨l, hl, hshape, hents⟩ := (hin.full 0 (Nat.zero_le k)).entries
  rw [Function.iterate_zero, id] at hl hshape hents
  obtain ⟨s₁, s₂, hg, hrun⟩ := Prog.bind_inv hrun
  cases hg
  rw [hents] at hrun
  rcases hpos : p.pos with - | - | n
  · -- the entry "."
    rw [hpos] at hrun
    cases hrun
    exact ⟨hpart, htop, .inr ⟨k, hin.depth, hin.top, hin.full, fun hr => absurd hr (by simp)⟩⟩
  · -- the entry ".."
    rw [hpos] at hrun
    cases hrun
    exact ⟨hpart, htop, .inr ⟨k, hin.depth, hin.top, hin.full, fun _ => rfl⟩⟩
  have hread : 2 ≤ p.pos := by omega
  rw [hpos, List.getElem?_cons_succ, List.getElem?_cons_succ] at hrun
  cases hget : l[n]? with
  | none =>
    rw [hget] at hrun
    cases k with
    | zero =>
      rw [hin.depth] at hrun
      cases hrun
      have hcur : p.cur = top := hin.top
      exact ⟨hpart, htop, .inl ⟨rfl, hcur, by rw [← hcur]; exact hin.read hread⟩⟩
    | succ k =>
      rw [hin.depth] at hrun
      cases hrun
      exact ⟨hpart, htop, .inr ⟨k, hin.up hread⟩⟩
  | some e =>
    have hmem := List.mem_of_getElem? hget
    have hkid := hl hmem
    have hdots := hshape.names e hmem
    have hname : e.name ≠ dotdot := by
      intro hx
      rw [hx] at hdots
      exact nomatch hdots
    rw [hget] at hrun
    simp only [if_neg hname, hdots, Bool.false_eq_true, if_false] at hrun
    by_cases hc : hasChildren s e.inode = true
    · rw [if_pos hc] at hrun
      cases hrun
      rw [hasChildren, Bool.and_eq_true, decide_eq_true_eq] at hc
      have hdir : s₀.isDir e.inode = true := by
        rw [isDir_iff, ← hpart.mode]
        exact ⟨(ht.kid _ e hkid).1, hc.1⟩
      have hfull : Full s₀ s e.inode := by
        rcases hpart.dir e.inode hdir with hnil | hfull
        · rw [hnil] at hc
          exact nomatch hc.2
        · exact hfull
      exact ⟨hpart, htop, .inr ⟨k + 1, hin.down ht hkid hfull⟩⟩
    · rw [if_neg hc] at hrun
      obtain ⟨u, s₃, hrm, hrun⟩ := Prog.bind_inv hrun
      cases hrun
      obtain ⟨hpart', hin'⟩ := RmInv.rmEntry ht hpart hin hkid hdots hrm
      have htop' : Full s₀ s' top := by
        have := hin'.full k le_rfl
        rwa [hin'.top] at this
      rw [← hpos]
      exact ⟨hpart', htop', .inr ⟨k, hin'⟩⟩

/-- The invariant holds at every position the loops come to. -/
theorem RmReach.inv (ht : DirTree s₀) {up : ℕ} (hd : s₀.isDir top = true)
    (h : RmReach s₀ { cur := top, up := up, depth := 1, pos := 0 } s p) : RmInv s₀ top s p := by
  induction h with
  | start =>
    have hfull : ∀ x, s₀.isDir x = true → Full s₀ s₀ x := fun x hx =>
      ⟨hx, rfl, _, List.Subset.refl _, ht.shape x hx⟩
    refine ⟨⟨fun _ => rfl, fun x hx => .inr (hfull x hx), fun _ _ _ => rfl⟩, hfull top hd,
      .inr ⟨0, rfl, rfl, fun i hi => ?_, fun hr => absurd hr (by simp)⟩⟩
    rw [Nat.le_zero.1 hi]
    exact hfull top hd
  | round _ hd' hrun ih => exact ih.round ht hd' hrun

/-- Behind the dots of the directory itself, and at the end, the loops hold the
    directory and the one its ".." names. -/
theorem RmInv.settled (h : RmInv s₀ top s p) (hp : p.depth = 0 ∨ p.depth = 1 ∧ 2 ≤ p.pos) :
    p.cur = top ∧ p.up = s₀.up top := by
  obtain ⟨-, -, ⟨-, h1, h2⟩ | ⟨k, hin⟩⟩ := h
  · exact ⟨h1, h2⟩
  · rcases hp with h0 | ⟨h1, hread⟩
    · rw [hin.depth] at h0
      exact absurd h0 (Nat.succ_ne_zero k)
    · obtain rfl : k = 0 := by
        have := hin.depth
        omega
      have hcur : p.cur = top := hin.top
      exact ⟨hcur, by rw [hin.read hread, hcur]⟩

/-- Two rounds read the dots. -/
theorem rmReach_dots (ht : DirTree s₀) (up : ℕ) (hd : s₀.isDir top = true) :
    RmReach s₀ { cur := top, up := up, depth := 1, pos := 0 } s₀
      { cur := top, up := s₀.up top, depth := 1, pos := 2 } := by
  have hents := (ht.shape top hd).entries
  have h0 : rmRound { cur := top, up := up, depth := 1, pos := 0 } s₀ =
      (.ok { cur := top, up := up, depth := 1, pos := 1 }, s₀) := by
    rw [rmRound, Prog.bind_ok (Prog.get_run s₀), hents]
    rfl
  have h1 : rmRound { cur := top, up := up, depth := 1, pos := 1 } s₀ =
      (.ok { cur := top, up := s₀.up top, depth := 1, pos := 2 }, s₀) := by
    rw [rmRound, Prog.bind_ok (Prog.get_run s₀), hents]
    rfl
  exact (RmReach.start.round Nat.one_ne_zero h0).round Nat.one_ne_zero h1

end

end Lwext4.Vfs
