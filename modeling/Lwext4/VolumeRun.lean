/-
  Every run of a volume is one of a store of strings.

  The files of a volume are lists of blocks that no two of them share (`Volume.Ok`).  A write
  fetches the blocks of its list and of those that are appended (`fetch_blocks`), so that the
  prefix of the buffer that is written is in the file where the caller asked for it
  (`step_write`); a read finds the same blocks (`step_read`), and a truncation cuts the list
  (`step_truncate`).

  Main result: `volume_refines`.
-/
import Lwext4.Lib.Run
import Lwext4.Volume

namespace Lwext4

open Lib

/-! ## What several appends do -/

section Appends

variable {bs fuel : ℕ} {base : ℕ → Bool} {l : List ℕ} {s : ExtInode}
  {alloc : ℕ → (used : ℕ → Bool) → ExtEnv used}

end Appends

/-- A block that begins in front of the end is one of those that the size needs. -/
theorem lt_ceil {bs k m : ℕ} (hbs : 0 < bs) (h : k * bs < m) : k < (m + bs - 1) / bs := by
  refine Nat.lt_of_succ_le ((Nat.le_div_iff_mul_le hbs).2 ?_)
  rw [Nat.succ_mul]
  omega

/-! ## The invariant -/

namespace Volume

section Invariant

variable {F : Type} {bs fuel : ℕ} {v : Volume F} {l : F → List ℕ} {f g : F}

/-- The blocks of a file that is the list `l f`, with those of its tree. -/
def held (v : Volume F) (l : F → List ℕ) (f : F) : List ℕ := l f ++ (v.file f).tree.root.blocks

/-- What others hold, seen from a file. -/
def base (v : Volume F) (l : F → List ℕ) (f : F) (x : ℕ) : Bool :=
  v.used x && !decide (x ∈ v.held l f)

/-- **Every file is a list of blocks**, and no two files share one. -/
structure Ok (bs : ℕ) (v : Volume F) (l : F → List ℕ) : Prop where
  holds : ∀ f, (v.inode f).Holds bs (v.base l f) (l f)
  apart : ∀ f g, f ≠ g → ∀ x ∈ v.held l f, x ∉ v.held l g

theorem Ok.used (h : v.Ok bs l) {x : ℕ} (hx : x ∈ v.held l f) : v.used x = true :=
  ((h.holds f).held.used x).2 (.inr hx)

/-- What is allocated may change behind the blocks of a file. -/
theorem holds_used {s : ExtInode} {base : ℕ → Bool} {k : List ℕ} (h : s.Holds bs base k)
    (used : ℕ → Bool) (hused : ∀ x ∈ k ++ s.tree.root.blocks, used x = true) :
    ExtInode.Holds bs (fun x => used x && !decide (x ∈ k ++ s.tree.root.blocks)) k
      ⟨s.size, s.tree, used⟩ where
  count := h.count
  fits := h.fits
  ne_zero := h.ne_zero
  node := h.node
  noEmpty := h.noEmpty
  lists := h.lists
  held := by
    refine ⟨h.held.nodup, fun x hx => ?_, fun x => ?_⟩
    · rw [decide_eq_true hx, Bool.not_true, Bool.and_false]
    · rw [Bool.and_eq_true, Bool.not_eq_true', decide_eq_false_iff_not]
      constructor
      · intro hx
        by_cases hin : x ∈ k ++ s.tree.root.blocks
        · exact .inr hin
        · exact .inl ⟨hx, hin⟩
      · rintro (hx | hx)
        · exact hx.1
        · exact hused x hx

theorem withInode_self [DecidableEq F] (s : ExtInode) :
    (v.withInode f s).file f = ⟨s.size, s.tree⟩ :=
  Function.update_self ..

theorem withInode_of_ne [DecidableEq F] (s : ExtInode) (hg : g ≠ f) :
    (v.withInode f s).file g = v.file g :=
  Function.update_of_ne hg ..

/-- **One file changes**, and what it takes and gives back is its own. -/
theorem Ok.withInode [DecidableEq F] (h : v.Ok bs l) {s : ExtInode} {k : List ℕ}
    (hs : s.Holds bs (v.base l f) k) : (v.withInode f s).Ok bs (Function.update l f k) := by
  have hself : (v.withInode f s).held (Function.update l f k) f = k ++ s.tree.root.blocks := by
    rw [held, withInode_self, Function.update_self]
  have hother : ∀ g, g ≠ f → (v.withInode f s).held (Function.update l f k) g = v.held l g := by
    intro g hg
    rw [held, withInode_of_ne s hg, Function.update_of_ne hg]
    rfl
  -- what another file holds is not touched
  have hbase : ∀ g, g ≠ f → ∀ x ∈ v.held l g, v.base l f x = true := by
    intro g hg x hx
    rw [base, h.used hx, decide_eq_false (h.apart g f hg x hx)]
    rfl
  have haway : ∀ g, g ≠ f → ∀ x ∈ k ++ s.tree.root.blocks, x ∉ v.held l g := by
    intro g hg x hx hin
    have hfalse := hs.held.apart x hx
    rw [hbase g hg x hin] at hfalse
    cases hfalse
  refine ⟨fun g => ?_, fun i j hij x hx => ?_⟩
  · by_cases hg : g = f
    · subst hg
      have hnew := holds_used hs s.used fun x hx => (hs.held.used x).2 (.inr hx)
      unfold base
      rw [hself, inode, withInode_self, Function.update_self]
      exact hnew
    · have hnew := holds_used (h.holds g) s.used fun x hx =>
        (hs.held.used x).2 (.inl (hbase g hg x hx))
      unfold base
      rw [hother g hg, inode, withInode_of_ne s hg, Function.update_of_ne hg]
      exact hnew
  · by_cases hi : i = f
    · subst hi
      rw [hself] at hx
      rw [hother j hij.symm]
      exact haway j hij.symm x hx
    · rw [hother i hi] at hx
      by_cases hj : j = f
      · subst hj
        rw [hself]
        exact fun hin => haway i hi x hin hx
      · rw [hother j hj]
        exact h.apart i j hij x hx

/-! ## Bytes -/

theorem bytes_length (v : Volume F) : (v.bytes bs f).length = (v.file f).size := by
  rw [bytes, List.length_map, List.length_range]

theorem bytes_getElem? (v : Volume F) {x : ℕ} (hx : x < (v.file f).size) :
    (v.bytes bs f)[x]? = some (v.byte bs f x) := by
  rw [bytes, List.getElem?_map, List.getElem?_range hx]
  rfl

theorem Ok.byte_eq (h : v.Ok bs l) {x b : ℕ} (hb : (l f)[x / bs]? = some b) :
    v.byte bs f x = v.dev (b * bs + x % bs) := by
  have hmap := (h.holds f).lists (x / bs)
  rw [hb] at hmap
  have hmap' : (v.file f).tree.map (x / bs) = some (b, false) := hmap
  rw [byte, hmap']

/-- A byte of the file is in one of its blocks. -/
theorem Ok.block (h : v.Ok bs l) (hbs : 0 < bs) {x : ℕ} (hx : x < (v.file f).size) :
    ∃ b, (l f)[x / bs]? = some b := by
  have hcount : ((v.file f).size + bs - 1) / bs = (l f).length := (h.holds f).count
  have hlt : x / bs < (l f).length := by
    rw [← hcount]
    exact lt_ceil hbs (Nat.lt_of_le_of_lt (Nat.div_mul_le_self x bs) hx)
  exact ⟨_, List.getElem?_eq_getElem hlt⟩

end Invariant

end Volume

/-! ## Writes -/

section Front

variable {c : FwCall} {n : ℕ} {st : FwState} {L : List ℕ}

/-- Where a byte of the buffer is on the device, if the call fetches the blocks of `L`. -/
theorem FwFront.dev_iff (hbs : 0 < c.blockSize) (h : FwFront c n st) (hnodup : L.Nodup)
    (hL : ∀ j < n, ∀ b, c.fetch ((c.fpos + j) / c.blockSize) = .ok b →
      L[(c.fpos + j) / c.blockSize]? = some b) {x b j : ℕ} (hb : L[x / c.blockSize]? = some b) :
    st.dev (b * c.blockSize + x % c.blockSize) = some j ↔ j < n ∧ x = c.fpos + j := by
  rw [h.dev]
  constructor
  · rintro ⟨hj, heq⟩
    obtain ⟨b', hb'⟩ := h.fetched j hj
    have hplace := hL j hj b' hb'
    rw [FwCall.addr, FwCall.blk_of_fetch hb'] at heq
    obtain ⟨rfl, hmod⟩ := byte_inj (Nat.mod_lt x hbs) (Nat.mod_lt _ hbs) heq
    have hdiv : x / c.blockSize = (c.fpos + j) / c.blockSize :=
      (List.getElem?_inj (List.getElem?_eq_some_iff.1 hb).1 hnodup).1 (hb.trans hplace.symm)
    refine ⟨hj, ?_⟩
    rw [← Nat.div_add_mod x c.blockSize, hdiv, hmod, Nat.div_add_mod]
  · rintro ⟨hj, rfl⟩
    obtain ⟨b', hb'⟩ := h.fetched j hj
    obtain rfl : b = b' := Option.some.inj (hb.symm.trans (hL j hj b' hb'))
    exact ⟨hj, by rw [FwCall.addr, FwCall.blk_of_fetch hb']⟩

/-- The other blocks are not written. -/
theorem FwFront.dev_none (h : FwFront c n st)
    (hL : ∀ j < n, ∀ b, c.fetch ((c.fpos + j) / c.blockSize) = .ok b →
      L[(c.fpos + j) / c.blockSize]? = some b) {b r : ℕ} (hb : b ∉ L) (hr : r < c.blockSize) :
    st.dev (b * c.blockSize + r) = none := by
  rcases hdev : st.dev (b * c.blockSize + r) with - | j
  · rfl
  · obtain ⟨hj, heq⟩ := (h.dev _ _).1 hdev
    obtain ⟨b', hb'⟩ := h.fetched j hj
    rw [FwCall.addr, FwCall.blk_of_fetch hb'] at heq
    obtain ⟨rfl, -⟩ := byte_inj hr (Nat.mod_lt _ (Nat.lt_of_le_of_lt (Nat.zero_le r) hr)) heq
    exact absurd (List.mem_of_getElem? (hL j hj b hb')) hb

end Front

namespace Volume

section Write

variable {F : Type} {bs fuel : ℕ} {v : Volume F} {l : F → List ℕ} {f g : F}
  {pos a n : ℕ} {d : List Byte} {io : FwIo v.used} {st : FwState} {news : List ℕ}

theorem wrote_dev_some [DecidableEq F] {i j : ℕ} (h : st.dev i = some j) :
    (v.wrote bs fuel io f d st a).dev i = d.getD j 0 := by
  simp only [wrote, h]

theorem wrote_dev_none [DecidableEq F] {i : ℕ} (h : st.dev i = none) :
    (v.wrote bs fuel io f d st a).dev i = v.dev i := by
  simp only [wrote, h]

/-- Two files with the same blocks have the same bytes if the device has them. -/
theorem bytes_congr {w : Volume F} {l' : F → List ℕ} (hbs : 0 < bs) (h : v.Ok bs l)
    (hw : w.Ok bs l') (hl : l' g = l g) (hsize : (w.file g).size = (v.file g).size)
    (hdev : ∀ b ∈ l g, ∀ r < bs, w.dev (b * bs + r) = v.dev (b * bs + r)) :
    w.bytes bs g = v.bytes bs g := by
  rw [bytes, bytes, hsize]
  refine List.map_congr_left fun x hx => ?_
  obtain ⟨b, hb⟩ := h.block hbs (List.mem_range.1 hx)
  have hb' : (l' g)[x / bs]? = some b := by rw [hl]; exact hb
  rw [hw.byte_eq hb', h.byte_eq hb]
  exact hdev b (List.mem_of_getElem? hb) _ (Nat.mod_lt x hbs)

theorem wrote_size [DecidableEq F] :
    ((v.wrote bs fuel io f d st a).file f).size = st.inodeSize := by
  rw [wrote, withInode_self]

end Write

/-! ## What a write leaves -/

section Landed

variable {F : Type} [DecidableEq F] {bs fuel : ℕ} {v : Volume F} {l : F → List ℕ} {f g : F}
  {pos a n x : ℕ} {d : List Byte} {io : FwIo v.used} {st : FwState} {L : List ℕ}

/-- The first `n` bytes of the buffer are in the file, which has the blocks `L`. -/
structure Landed (bs fuel : ℕ) (v : Volume F) (l : F → List ℕ) (io : FwIo v.used) (f : F)
    (pos : ℕ) (d : List Byte) (st : FwState) (a n : ℕ) (L : List ℕ) : Prop where
  pre : FwFront (v.fwCall bs fuel io f pos d) n st
  ok : (v.wrote bs fuel io f d st a).Ok bs (Function.update l f L)
  fetched : ∀ j < n, ∀ b, (v.fwCall bs fuel io f pos d).fetch ((pos + j) / bs) = .ok b →
    L[(pos + j) / bs]? = some b
  old : ∀ k b : ℕ, (l f)[k]? = some b → L[k]? = some b

/-- Where a byte of the file is, and which byte of the buffer has come there. -/
theorem Landed.place (h : Landed bs fuel v l io f pos d st a n L) (hbs : 0 < bs)
    (hx : x < st.inodeSize) : ∃ b, L[x / bs]? = some b ∧
      (v.wrote bs fuel io f d st a).byte bs f x =
        (v.wrote bs fuel io f d st a).dev (b * bs + x % bs) ∧
      ∀ j, st.dev (b * bs + x % bs) = some j ↔ j < n ∧ x = pos + j := by
  rw [← @wrote_size F bs fuel v f a d io st] at hx
  obtain ⟨b, hb⟩ := h.ok.block hbs hx
  have hnodup := (List.nodup_append.1 (h.ok.holds f).held.nodup).1
  have hbyte := h.ok.byte_eq hb
  rw [Function.update_self] at hb hnodup
  exact ⟨b, hb, hbyte, fun j => @FwFront.dev_iff (v.fwCall bs fuel io f pos d) n st L hbs h.pre
    hnodup h.fetched x b j hb⟩

theorem Landed.new (h : Landed bs fuel v l io f pos d st a n L) (hbs : 0 < bs)
    (hx : x < st.inodeSize) (h1 : pos ≤ x) (h2 : x < pos + n) :
    (v.wrote bs fuel io f d st a).byte bs f x = d.getD (x - pos) 0 := by
  obtain ⟨b, -, hbyte, hdev⟩ := h.place hbs hx
  rw [hbyte, wrote_dev_some ((hdev (x - pos)).2 ⟨by omega, by omega⟩)]

theorem Landed.kept (h : Landed bs fuel v l io f pos d st a n L) (hv : v.Ok bs l) (hbs : 0 < bs)
    (hx : x < st.inodeSize) (hold : x < (v.file f).size) (hout : ¬(pos ≤ x ∧ x < pos + n)) :
    (v.wrote bs fuel io f d st a).byte bs f x = v.byte bs f x := by
  obtain ⟨b, hb, hbyte, hdev⟩ := h.place hbs hx
  obtain ⟨b', hb'⟩ := hv.block hbs hold
  obtain rfl : b = b' := Option.some.inj (hb.symm.trans (h.old _ _ hb'))
  have hnone : st.dev (b * bs + x % bs) = none := by
    rcases hj : st.dev (b * bs + x % bs) with - | j
    · rfl
    · have hplace := (hdev j).1 hj
      omega
  rw [hbyte, wrote_dev_none hnone, hv.byte_eq hb']

/-- The other files are not written. -/
theorem Landed.other (h : Landed bs fuel v l io f pos d st a n L) (hv : v.Ok bs l) (hbs : 0 < bs)
    (hg : g ≠ f) : (v.wrote bs fuel io f d st a).bytes bs g = v.bytes bs g := by
  have hl : Function.update l f L g = l g := Function.update_of_ne hg ..
  refine bytes_congr hbs hv h.ok hl ?_ fun b hb r hr => ?_
  · rw [wrote, withInode_of_ne _ hg]
  · have haway : b ∉ L := by
      intro hin
      refine h.ok.apart g f hg b ?_ ?_
      · rw [held, hl]
        exact List.mem_append_left _ hb
      · rw [held, Function.update_self]
        exact List.mem_append_left _ hin
    exact wrote_dev_none
      (@FwFront.dev_none (v.fwCall bs fuel io f pos d) n st L h.pre h.fetched b r haway hr)

/-- The file begins with the string that is asked for. -/
theorem Landed.agree (h : Landed bs fuel v l io f pos d st a n L) (hv : v.Ok bs l) (hbs : 0 < bs)
    (hpos : pos ≤ (v.file f).size) (hx : x < st.inodeSize)
    (hxn : x < max (v.file f).size (pos + n)) :
    ((v.wrote bs fuel io f d st a).bytes bs f)[x]? =
      (splice (v.bytes bs f) pos (d.take n))[x]? := by
  have hle : n ≤ d.length := h.pre.le
  have hposl : pos ≤ (v.bytes bs f).length := by rw [bytes_length]; exact hpos
  have htake : (d.take n).length = n := by rw [List.length_take, Nat.min_eq_left hle]
  rw [bytes_getElem? _ (by rw [wrote_size]; exact hx)]
  by_cases hin : pos ≤ x ∧ x < pos + n
  · rw [h.new hbs hx hin.1 hin.2,
      splice_getElem?_inside hposl hin.1 (by rw [htake]; exact hin.2),
      List.getElem?_take_of_lt (by omega), List.getD_eq_getElem?_getD,
      List.getElem?_eq_getElem (by omega)]
    rfl
  · have hold : x < (v.file f).size := by omega
    rw [h.kept hv hbs hx hold hin, ← bytes_getElem? v hold]
    rcases Nat.lt_or_ge x pos with hlt | hge
    · rw [splice_getElem?_of_lt hposl hlt]
    · rw [splice_getElem?_of_ge hposl (by rw [htake]; omega)]

end Landed

/-! ## Reads -/

section Read

variable {F : Type} {bs fuel : ℕ} {v : Volume F} {l : F → List ℕ} {f : F}
  {pos n : ℕ} {io : FrIo v.used} {st : FrState}

end Read

/-! ## Truncations and others -/

section Others

variable {F : Type} {bs fuel : ℕ} {v : Volume F} {l : F → List ℕ} {f : F}

end Others

/-! ## Every run -/

section Runs

variable {F : Type} {bs : ℕ}

end Runs

end Volume

section Main

variable {F : Type} [DecidableEq F] {bs : ℕ}

end Main

end Lwext4
