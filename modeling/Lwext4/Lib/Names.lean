/-
  Names in a tree of directories: which directory names which node, the parent
  each directory keeps for itself, and the count each other node keeps of its
  names.

  A tree is `Ok` when names and nodes agree.  `Sound t (some x)` excuses the
  node `x`, so that an operation made of several writes is followed one write
  at a time: `alloc`, `attach`, `detach`, `setUp`, `setLinks` and `free` each
  keep `Sound`, and `Sound.close` ends the excuse.
-/
import Lwext4.Lib.Forest

namespace Lib.Names

open Forest

/-- Directories, names and nodes.  `names` holds `(d, n, i)` when directory
    `d` names `i` by `n`. -/
@[ext]
structure Tree (ν : Type) where
  size : ℕ
  free : ℕ
  used : ℕ → Bool
  dir : ℕ → Bool
  names : Finset (ℕ × ν × ℕ)
  up : ℕ → ℕ
  links : ℕ → ℕ

variable {ν : Type} {root first : ℕ}

namespace Tree

variable (t : Tree ν)

/-- The number of names of `i`. -/
def refs (i : ℕ) : ℕ := (t.names.filter fun x => x.2.2 = i).card

/-- The nodes from `1` to `size` that are not in use. -/
def unused : Finset ℕ := (Finset.Icc 1 t.size).filter fun i => t.used i = false

def attach [DecidableEq ν] (d : ℕ) (n : ν) (i : ℕ) : Tree ν := { t with names := insert (d, n, i) t.names }

def detach [DecidableEq ν] (d : ℕ) (n : ν) (i : ℕ) : Tree ν := { t with names := t.names.erase (d, n, i) }

def setUp (i d : ℕ) : Tree ν := { t with up := Function.update t.up i d }

def setLinks (i k : ℕ) : Tree ν := { t with links := Function.update t.links i k }

def alloc (i : ℕ) (isDir : Bool) : Tree ν :=
  { t with
    free := t.free - 1
    used := Function.update t.used i true
    dir := Function.update t.dir i isDir
    up := Function.update t.up i i
    links := Function.update t.links i 0 }

def release (i : ℕ) : Tree ν :=
  { t with
    free := t.free + 1
    used := Function.update t.used i false
    up := Function.update t.up i i }

end Tree

variable {t : Tree ν} {x : Option ℕ} {d i c : ℕ} {n : ν}

/-- Names and nodes agree, except perhaps on `x`.  `root` has no name, and the
    nodes below `first` may be in use without one. -/
structure Sound (root first : ℕ) (t : Tree ν) (x : Option ℕ) : Prop where
  rootDir : t.used root = true ∧ t.dir root = true
  rootUp : t.up root = root
  bound : ∀ i, t.used i = true → i ≠ 0 ∧ i ≤ t.size
  source : ∀ d n i, (d, n, i) ∈ t.names → t.used d = true ∧ t.dir d = true
  target : ∀ d n i, (d, n, i) ∈ t.names → t.used i = true ∧ i ≠ root
  parent : ∀ d n i, (d, n, i) ∈ t.names → some i ≠ x → t.dir i = true → t.up i = d
  once : ∀ c, t.used c = true → t.dir c = true → c ≠ root → some c ≠ x →
    ∃! n, (t.up c, n, c) ∈ t.names
  links : ∀ i, t.used i = true → t.dir i = false → some i ≠ x → t.refs i ≠ 0 ∨ first ≤ i →
    t.links i = t.refs i ∧ t.refs i ≠ 0
  free : t.free = t.unused.card

/-- Every directory in use lies under the root. -/
def Rooted (root : ℕ) (t : Tree ν) : Prop :=
  ∀ c, t.used c = true → t.dir c = true → Under t.up root c

/-! ## Counting names -/

theorem refs_eq_zero : t.refs i = 0 ↔ ∀ d n, (d, n, i) ∉ t.names := by
  rw [Tree.refs, Finset.card_eq_zero, Finset.filter_eq_empty_iff]
  constructor
  · intro h d n hm
    exact h hm rfl
  · rintro h ⟨d, n, j⟩ hm rfl
    exact h d n hm

theorem refs_pos (h : (d, n, i) ∈ t.names) : t.refs i ≠ 0 := by
  intro h0
  exact refs_eq_zero.mp h0 d n h

theorem refs_attach_self [DecidableEq ν] (h : (d, n, i) ∉ t.names) : (t.attach d n i).refs i =
    t.refs i + 1 := by
  unfold Tree.refs Tree.attach
  rw [Finset.filter_insert, if_pos rfl, Finset.card_insert_of_notMem]
  simp [h]

theorem refs_attach_of_ne [DecidableEq ν] (h : c ≠ i) : (t.attach d n i).refs c = t.refs c := by
  unfold Tree.refs Tree.attach
  rw [Finset.filter_insert, if_neg]
  exact fun e => h e.symm

theorem refs_detach_self [DecidableEq ν] (h : (d, n, i) ∈ t.names) : (t.detach d n i).refs i + 1 =
    t.refs i := by
  unfold Tree.refs Tree.detach
  rw [Finset.filter_erase, Finset.card_erase_add_one]
  simp [h]

theorem refs_detach_of_ne [DecidableEq ν] (h : c ≠ i) : (t.detach d n i).refs c = t.refs c := by
  unfold Tree.refs Tree.detach
  rw [Finset.filter_erase, Finset.erase_eq_of_notMem]
  simp only [Finset.mem_filter, not_and]
  exact fun _ e => h e.symm

/-! ## One write at a time -/

/-- Any node may be excused. -/
theorem Sound.excuse (h : Sound root first t none) : Sound root first t (some i) where
  rootDir := h.rootDir
  rootUp := h.rootUp
  bound := h.bound
  source := h.source
  target := h.target
  parent d n j hm _ hd := h.parent d n j hm (by simp) hd
  once c hu hd hr _ := h.once c hu hd hr (by simp)
  links j hu hd _ := h.links j hu hd (by simp)
  free := h.free

/-- The excuse ends when the node's own names are right. -/
theorem Sound.close (h : Sound root first t (some i))
    (hp : t.dir i = true → ∀ d n, (d, n, i) ∈ t.names → t.up i = d)
    (ho : t.used i = true → t.dir i = true → i ≠ root → ∃! n, (t.up i, n, i) ∈ t.names)
    (hl : t.used i = true → t.dir i = false → t.refs i ≠ 0 ∨ first ≤ i →
      t.links i = t.refs i ∧ t.refs i ≠ 0) :
    Sound root first t none where
  rootDir := h.rootDir
  rootUp := h.rootUp
  bound := h.bound
  source := h.source
  target := h.target
  parent d n j hm _ hd := by
    by_cases hj : j = i
    · subst hj; exact hp hd d n hm
    · exact h.parent d n j hm (by simpa using hj) hd
  once c hu hd hr _ := by
    by_cases hj : c = i
    · subst hj; exact ho hu hd hr
    · exact h.once c hu hd hr (by simpa using hj)
  links j hu hd _ hf := by
    by_cases hj : j = i
    · subst hj; exact hl hu hd hf
    · exact h.links j hu hd (by simpa using hj) hf
  free := h.free

theorem Sound.attach [DecidableEq ν] (h : Sound root first t (some i)) (hi : t.used i = true)
    (hr : i ≠ root) (hd : t.used d = true) (hd' : t.dir d = true) :
    Sound root first (t.attach d n i) (some i) where
  rootDir := h.rootDir
  rootUp := h.rootUp
  bound := h.bound
  source d' n' j hm := by
    rcases Finset.mem_insert.mp hm with he | hm
    · cases he; exact ⟨hd, hd'⟩
    · exact h.source d' n' j hm
  target d' n' j hm := by
    rcases Finset.mem_insert.mp hm with he | hm
    · cases he; exact ⟨hi, hr⟩
    · exact h.target d' n' j hm
  parent d' n' j hm hj hdj := by
    rcases Finset.mem_insert.mp hm with he | hm
    · cases he; exact absurd rfl hj
    · exact h.parent d' n' j hm hj hdj
  once c hu hdc hrc hc := by
    obtain ⟨m, hm, hmu⟩ := h.once c hu hdc hrc hc
    refine ⟨m, Finset.mem_insert_of_mem hm, fun m' hm' => ?_⟩
    rcases Finset.mem_insert.mp hm' with he | hm'
    · exact absurd (congrArg (fun x => some x.2.2) he) hc
    · exact hmu m' hm'
  links j hu hdj hj hf := by
    have hji : j ≠ i := fun e => hj (by rw [e])
    rw [refs_attach_of_ne hji] at hf ⊢
    exact h.links j hu hdj hj hf
  free := h.free

theorem Sound.detach [DecidableEq ν] (h : Sound root first t (some i)) :
    Sound root first (t.detach d n i) (some i) where
  rootDir := h.rootDir
  rootUp := h.rootUp
  bound := h.bound
  source d' n' j hm := h.source d' n' j (Finset.mem_of_mem_erase hm)
  target d' n' j hm := h.target d' n' j (Finset.mem_of_mem_erase hm)
  parent d' n' j hm := h.parent d' n' j (Finset.mem_of_mem_erase hm)
  once c hu hdc hrc hc := by
    obtain ⟨m, hm, hmu⟩ := h.once c hu hdc hrc hc
    refine ⟨m, Finset.mem_erase.mpr ⟨fun e => hc (congrArg (fun x => some x.2.2) e), hm⟩,
      fun m' hm' => hmu m' (Finset.mem_of_mem_erase hm')⟩
  links j hu hdj hj hf := by
    have hji : j ≠ i := fun e => hj (by rw [e])
    rw [refs_detach_of_ne hji] at hf ⊢
    exact h.links j hu hdj hj hf
  free := h.free

theorem Sound.setUp (h : Sound root first t (some i)) (hr : i ≠ root) :
    Sound root first (t.setUp i d) (some i) where
  rootDir := h.rootDir
  rootUp := by
    show Function.update t.up i d root = root
    rw [Function.update_of_ne (Ne.symm hr), h.rootUp]
  bound := h.bound
  source := h.source
  target := h.target
  parent d' n' j hm hj hdj := by
    show Function.update t.up i d j = d'
    rw [Function.update_of_ne (fun e => hj (by rw [e]))]
    exact h.parent d' n' j hm hj hdj
  once c hu hdc hrc hc := by
    show ∃! n, (Function.update t.up i d c, n, c) ∈ t.names
    rw [Function.update_of_ne (fun e => hc (by rw [e]))]
    exact h.once c hu hdc hrc hc
  links := h.links
  free := h.free

theorem Sound.setLinks {k : ℕ} (h : Sound root first t (some i)) :
    Sound root first (t.setLinks i k) (some i) where
  rootDir := h.rootDir
  rootUp := h.rootUp
  bound := h.bound
  source := h.source
  target := h.target
  parent := h.parent
  once := h.once
  links j hu hdj hj hf := by
    show Function.update t.links i k j = t.refs j ∧ t.refs j ≠ 0
    rw [Function.update_of_ne (fun e => hj (by rw [e]))]
    exact h.links j hu hdj hj hf
  free := h.free

/-- An unused node has no names. -/
theorem Sound.refs_of_unused (h : Sound root first t x) (hi : t.used i = false) : t.refs i = 0 := by
  refine refs_eq_zero.mpr fun d n hm => ?_
  have := (h.target d n i hm).1
  rw [hi] at this
  cases this

theorem unused_alloc {b : Bool} (hi : t.used i = false) (h0 : i ≠ 0) (hs : i ≤ t.size) :
    (t.alloc i b).unused.card + 1 = t.unused.card := by
  have he : (t.alloc i b).unused = t.unused.erase i := by
    ext j
    simp only [Tree.unused, Tree.alloc, Finset.mem_filter, Finset.mem_erase, Finset.mem_Icc,
      Function.update_apply]
    by_cases hj : j = i <;> simp [hj]
  rw [he, Finset.card_erase_add_one]
  simp only [Tree.unused, Finset.mem_filter, Finset.mem_Icc]
  exact ⟨⟨Nat.one_le_iff_ne_zero.mpr h0, hs⟩, hi⟩

theorem unused_release (hi : t.used i = true) (h0 : i ≠ 0) (hs : i ≤ t.size) :
    (t.release i).unused.card = t.unused.card + 1 := by
  have he : (t.release i).unused = insert i t.unused := by
    ext j
    simp only [Tree.unused, Tree.release, Finset.mem_filter, Finset.mem_insert, Finset.mem_Icc,
      Function.update_apply]
    by_cases hj : j = i
    · subst hj
      simp [Nat.one_le_iff_ne_zero, h0, hs]
    · simp [hj]
  rw [he, Finset.card_insert_of_notMem]
  simp [Tree.unused, hi]

theorem Sound.alloc {b : Bool} (h : Sound root first t none) (hi : t.used i = false)
    (h0 : i ≠ 0) (hs : i ≤ t.size) : Sound root first (t.alloc i b) (some i) := by
  have hr : root ≠ i := fun e => by
    have := h.rootDir.1
    rw [e, hi] at this
    cases this
  have hne : ∀ j, t.used j = true → j ≠ i := fun j hj e => by
    rw [e, hi] at hj
    cases hj
  refine { rootDir := ?_, rootUp := ?_, bound := ?_, source := ?_, target := ?_, parent := ?_,
           once := ?_, links := ?_, free := ?_ }
  · show Function.update t.used i true root = true ∧ Function.update t.dir i b root = true
    rw [Function.update_of_ne hr, Function.update_of_ne hr]
    exact h.rootDir
  · show Function.update t.up i i root = root
    rw [Function.update_of_ne hr, h.rootUp]
  · intro j hj
    by_cases e : j = i
    · subst e; exact ⟨h0, hs⟩
    · refine h.bound j ?_
      rwa [← Function.update_of_ne e true t.used]
  · intro d n j hm
    have hsrc := h.source d n j hm
    have e := hne d hsrc.1
    show Function.update t.used i true d = true ∧ Function.update t.dir i b d = true
    rw [Function.update_of_ne e, Function.update_of_ne e]
    exact hsrc
  · intro d n j hm
    have htgt := h.target d n j hm
    refine ⟨?_, htgt.2⟩
    show Function.update t.used i true j = true
    rw [Function.update_of_ne (hne j htgt.1)]
    exact htgt.1
  · intro d n j hm hj hdj
    have e : j ≠ i := fun e => hj (by rw [e])
    have hdj' : Function.update t.dir i b j = true := hdj
    rw [Function.update_of_ne e] at hdj'
    show Function.update t.up i i j = d
    rw [Function.update_of_ne e]
    exact h.parent d n j hm (by simp) hdj'
  · intro c hu hdc hrc hc
    have e : c ≠ i := fun e => hc (by rw [e])
    have hu' : Function.update t.used i true c = true := hu
    have hdc' : Function.update t.dir i b c = true := hdc
    rw [Function.update_of_ne e] at hu' hdc'
    show ∃! n, (Function.update t.up i i c, n, c) ∈ t.names
    rw [Function.update_of_ne e]
    exact h.once c hu' hdc' hrc (by simp)
  · intro j hu hdj hj hf
    have e : j ≠ i := fun e => hj (by rw [e])
    have hu' : Function.update t.used i true j = true := hu
    have hdj' : Function.update t.dir i b j = false := hdj
    rw [Function.update_of_ne e] at hu' hdj'
    show Function.update t.links i 0 j = t.refs j ∧ t.refs j ≠ 0
    rw [Function.update_of_ne e]
    exact h.links j hu' hdj' (by simp) hf
  · show t.free - 1 = (t.alloc i b).unused.card
    have := unused_alloc (b := b) hi h0 hs
    rw [h.free]
    omega

/-- A node without names that names nothing is released. -/
theorem Sound.release (h : Sound root first t (some i)) (hi : t.used i = true) (hr : i ≠ root)
    (hrefs : t.refs i = 0) (hsrc : ∀ n j, (i, n, j) ∉ t.names) :
    Sound root first (t.release i) none := by
  have hb := h.bound i hi
  have hused : ∀ j, (t.release i).used j = true → j ≠ i ∧ t.used j = true := by
    intro j hj
    have hj' : Function.update t.used i false j = true := hj
    by_cases e : j = i
    · subst e
      rw [Function.update_self] at hj'
      cases hj'
    · rw [Function.update_of_ne e] at hj'
      exact ⟨e, hj'⟩
  have hkeep : ∀ j, j ≠ i → (t.release i).used j = t.used j := fun j e =>
    Function.update_of_ne e _ _
  have hup : ∀ j, j ≠ i → (t.release i).up j = t.up j := fun j e => Function.update_of_ne e _ _
  refine { rootDir := ?_, rootUp := ?_, bound := fun j hj => h.bound j (hused j hj).2,
           source := ?_, target := ?_, parent := ?_, once := ?_, links := ?_, free := ?_ }
  · rw [hkeep root (Ne.symm hr)]
    exact h.rootDir
  · rw [hup root (Ne.symm hr), h.rootUp]
  · intro d n j hm
    have e : d ≠ i := fun e => hsrc n j (e ▸ hm)
    rw [hkeep d e]
    exact h.source d n j hm
  · intro d n j hm
    have e : j ≠ i := fun e => refs_eq_zero.mp hrefs d n (e ▸ hm)
    rw [hkeep j e]
    exact h.target d n j hm
  · intro d n j hm _ hdj
    have e : j ≠ i := fun e => refs_eq_zero.mp hrefs d n (e ▸ hm)
    rw [hup j e]
    exact h.parent d n j hm (by simpa using e) hdj
  · intro c hu hdc hrc _
    have hc := hused c hu
    rw [hup c hc.1]
    exact h.once c hc.2 hdc hrc (by simpa using hc.1)
  · intro j hu hdj _ hf
    have hj := hused j hu
    exact h.links j hj.2 hdj (by simpa using hj.1) hf
  · show t.free + 1 = (t.release i).unused.card
    rw [unused_release hi hb.1 hb.2, h.free]

/-! ## The way to the root -/

/-- What lies above a directory in use is a directory in use. -/
theorem Sound.up_used (h : Sound root first t none) (hu : t.used c = true) (hd : t.dir c = true) :
    t.used (t.up c) = true ∧ t.dir (t.up c) = true := by
  by_cases hc : c = root
  · subst hc; rw [h.rootUp]; exact h.rootDir
  · obtain ⟨n, hn, -⟩ := h.once c hu hd hc (by simp)
    exact h.source _ _ _ hn

theorem Sound.under_used (h : Sound root first t none) (hu : t.used c = true) (hd : t.dir c = true)
    (hx : Under t.up i c) : t.used i = true ∧ t.dir i = true := by
  obtain ⟨k, rfl⟩ := hx
  induction k with
  | zero => exact ⟨hu, hd⟩
  | succ k ih =>
    rw [Function.iterate_succ_apply']
    exact h.up_used ih.1 ih.2

/-- **A directory hung elsewhere stays in the tree, unless it is hung under
    itself.** -/
theorem Rooted.setUp (h : Rooted root t) (hu : t.used d = true) (hd : t.dir d = true)
    (hc : ¬ Under t.up i d) : Rooted root (t.setUp i d) := by
  intro c hcu hcd
  exact (h c hcu hcd).move (h d hu hd) hc

theorem Rooted.alloc {b : Bool} (hs : Sound root first t none) (h : Rooted root t)
    (hi : t.used i = false) : ∀ c, c ≠ i → (t.alloc i b).used c = true →
      (t.alloc i b).dir c = true → Under (t.alloc i b).up root c := by
  intro c hci hcu hcd
  have hcu' : Function.update t.used i true c = true := hcu
  have hcd' : Function.update t.dir i b c = true := hcd
  rw [Function.update_of_ne hci] at hcu' hcd'
  refine (under_update fun hx => ?_).mpr (h c hcu' hcd')
  rw [(hs.under_used hcu' hcd' hx).1] at hi
  cases hi

/-- **The other directories stay in the tree when one that is no parent
    goes.** -/
theorem Rooted.release
    (h : ∀ c, c ≠ i → t.used c = true → t.dir c = true → Under t.up root c)
    (hup : ∀ c, c ≠ i → t.used c = true → t.dir c = true →
      t.used (t.up c) = true ∧ t.dir (t.up c) = true ∧ t.up c ≠ i) :
    Rooted root (t.release i) := by
  have hway : ∀ k c, c ≠ i → t.used c = true → t.dir c = true → t.up^[k] c ≠ i := by
    intro k
    induction k with
    | zero => exact fun c hc _ _ => hc
    | succ k ih =>
      intro c hc hu hd
      obtain ⟨hu', hd', hc'⟩ := hup c hc hu hd
      rw [Function.iterate_succ_apply]
      exact ih _ hc' hu' hd'
  intro c hu hd
  have hu' : Function.update t.used i false c = true := hu
  have hci : c ≠ i := fun e => by
    rw [e, Function.update_self] at hu'
    cases hu'
  rw [Function.update_of_ne hci] at hu'
  exact (under_update fun ⟨k, hk⟩ => hway k c hci hu' hd hk).mpr (h c hci hu' hd)

end Lib.Names
