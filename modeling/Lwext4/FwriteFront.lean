/-
  What `ext4_fwrite` has done when it ends, whatever fails (`ext4.c`).

  However the operations below end, a prefix of the buffer is on the device, byte
  by byte where the file maps it, and no other byte of the device has changed;
  `fpos` and `wcnt` count this prefix (`FwFront`), and the size of the inode
  covers the blocks that have been appended (`FwOut`).  What is asked of the
  filesystem below is that the blocks it yields are different and not block 0,
  and that the cache does not hide the bytes (`FwCall.Apart`).

  Main result: `fwrite_front`.
-/
import Lwext4.FwriteExact

namespace Lwext4

/-! ## A prefix of the buffer -/

/-- The blocks the call can fetch are different, and none of them is block 0; what is zeroed is
    fetched at no other place, and no byte is written past a dirty buffer. -/
structure FwCall.Apart (c : FwCall) : Prop where
  nohole : ∀ k b, k * c.blockSize < c.fpos + c.size → c.fetch k = .ok b → b ≠ 0
  inj : ∀ k k' b, k * c.blockSize < c.fpos + c.size → k' * c.blockSize < c.fpos + c.size →
    c.fetch k = .ok b → c.fetch k' = .ok b → k = k'
  zeroed : ∀ k k' b, k * c.blockSize < c.fpos + c.size → k' * c.blockSize < c.fpos + c.size →
    c.zeroes k = some b → c.fetch k' = .ok b → k' = k
  clean : ∀ j < c.size, c.env.dirty j = false

/-- The first `n` bytes of the buffer are where they belong on the device, they are counted and
    passed, and nothing else has been written. -/
structure FwFront (c : FwCall) (n : ℕ) (st : FwState) : Prop where
  le : n ≤ c.size
  fpos : st.fpos = c.fpos + n
  wcnt : st.wcnt = c.wcnt.map fun _ => n
  fetched : ∀ j < n, ∃ b, c.fetch ((c.fpos + j) / c.blockSize) = .ok b
  dev : ∀ i j, st.dev i = some j ↔ j < n ∧ i = c.addr j

/-- The file has been brought to `v` blocks, if it had fewer. -/
structure FwSized (c : FwCall) (v : ℕ) (st : FwState) : Prop where
  fsize : st.fsize = c.oldSize
  below : v ≤ c.ifileBlocks → st.inodeSize = c.oldSize
  above : c.ifileBlocks ≤ v → (st.inodeSize + c.blockSize - 1) / c.blockSize = v
  fetched : ∀ k, c.ifileBlocks ≤ k → k < v →
    k * c.blockSize < c.fpos + c.size ∧ ∃ b, c.fetch k = .ok b

/-- Write-back mode begins, and the device write of no blocks that follows an append that fails
    in front of the first block does not fail as well. -/
structure FwCall.Settled (c : FwCall) : Prop where
  writeBackOn : c.env.writeBackOn = .ok ()
  empty : ∀ e, c.fetch c.first = .error e → c.env.write c.headLen = .ok ()

/-- **What a call leaves behind**: a prefix is written, and the size covers the blocks that have
    been appended. -/
structure FwOut (c : FwCall) (n : ℕ) (st : FwState) : Prop where
  pre : FwFront c n st
  size_le : c.oldSize ≤ st.inodeSize
  blocks_le : c.ifileBlocks ≤ (st.inodeSize + c.blockSize - 1) / c.blockSize
  inside : c.fpos + n ≤ (st.inodeSize + c.blockSize - 1) / c.blockSize * c.blockSize
  fetched : ∀ k, c.ifileBlocks ≤ k → k < (st.inodeSize + c.blockSize - 1) / c.blockSize →
    k * c.blockSize < c.fpos + c.size ∧ ∃ b, c.fetch k = .ok b
  covered : c.Settled → c.fpos + n ≤ st.inodeSize

section Front

variable {c : FwCall} {n m off v : ℕ} {st st' : FwState}

/-- A byte is in one block only. -/
theorem byte_inj {bs b b' r r' : ℕ} (hr : r < bs) (hr' : r' < bs)
    (h : b * bs + r = b' * bs + r') : b = b' ∧ r = r' := by
  have hbs : 0 < bs := Nat.lt_of_le_of_lt (Nat.zero_le r) hr
  have hdiv := congrArg (· / bs) h
  simp only [Nat.mul_comm b, Nat.mul_comm b', Nat.mul_add_div hbs, Nat.div_eq_of_lt hr,
    Nat.div_eq_of_lt hr', Nat.add_zero] at hdiv
  subst hdiv
  exact ⟨rfl, Nat.add_left_cancel h⟩

/-- Where the byte at offset `r` of a fetched block belongs. -/
theorem FwCall.addr_at {j k r b : ℕ} (hr : r < c.blockSize)
    (hj : c.fpos + j = k * c.blockSize + r) (hfetch : c.fetch k = .ok b) :
    (∃ b, c.fetch ((c.fpos + j) / c.blockSize) = .ok b) ∧ c.addr j = b * c.blockSize + r := by
  obtain ⟨hdiv, haddr⟩ := FwCall.place_at hr hj
  rw [haddr, hdiv, FwCall.blk_of_fetch hfetch]
  exact ⟨⟨b, hfetch⟩, rfl⟩

/-- Two bytes of the buffer have different places. -/
theorem FwCall.Apart.addr_inj (hap : c.Apart) (hbs : 0 < c.blockSize) {j j' : ℕ} (hj : j < c.size)
    (hj' : j' < c.size) (hb : ∃ b, c.fetch ((c.fpos + j) / c.blockSize) = .ok b)
    (hb' : ∃ b, c.fetch ((c.fpos + j') / c.blockSize) = .ok b) (heq : c.addr j = c.addr j') :
    j = j' := by
  obtain ⟨b, hb⟩ := hb
  obtain ⟨b', hb'⟩ := hb'
  have hdm := Nat.div_add_mod (c.fpos + j) c.blockSize
  have hdm' := Nat.div_add_mod (c.fpos + j') c.blockSize
  have hm := Nat.mod_lt (c.fpos + j) hbs
  have hm' := Nat.mod_lt (c.fpos + j') hbs
  rw [FwCall.addr, FwCall.addr, FwCall.blk_of_fetch hb, FwCall.blk_of_fetch hb'] at heq
  obtain ⟨rfl, hmod⟩ := byte_inj hm hm' heq
  have hk := hap.inj _ _ b (by rw [Nat.mul_comm]; omega) (by rw [Nat.mul_comm]; omega) hb hb'
  rw [hk] at hdm
  omega

/-- What does not touch the position, the count and the device. -/
theorem FwFront.frame (h : FwFront c n st) (hfpos : st'.fpos = st.fpos)
    (hwcnt : st'.wcnt = st.wcnt) (hdev : st'.dev = st.dev) : FwFront c n st' :=
  ⟨h.le, hfpos.trans h.fpos, hwcnt.trans h.wcnt, h.fetched, by rw [hdev]; exact h.dev⟩

/-- A block that is fetched behind the bytes written is not zeroed over them. -/
theorem FwFront.zero (h : FwFront c n st) (hap : c.Apart) (hbs : 0 < c.blockSize) {k : ℕ}
    (hfar : ∀ j < n, k * c.blockSize < c.fpos + c.size ∧ (c.fpos + j) / c.blockSize ≠ k) :
    FwFront c n (st.zero c.blockSize (c.zeroes k)) := by
  refine ⟨h.le, h.fpos, h.wcnt, h.fetched, fun i j => ⟨fun hij => ?_, ?_⟩⟩
  · exact (h.dev i j).1 (FwState.zero_dev_some hij)
  · rintro ⟨hj, rfl⟩
    obtain ⟨hk, hne⟩ := hfar j hj
    obtain ⟨b, hb⟩ := h.fetched j hj
    have hle := h.le
    have hbase : (c.fpos + j) / c.blockSize * c.blockSize ≤ c.fpos + j := Nat.div_mul_le_self ..
    rw [FwState.zero_dev_of_ne]
    · exact (h.dev _ j).2 ⟨hj, rfl⟩
    · rw [FwCall.addr_div hbs, FwCall.blk_of_fetch hb]
      exact fun hz => hne (hap.zeroed k _ b hk (by omega) hz hb)

theorem FwFront.grow (h : FwFront c n st) : FwFront c n st.grow :=
  h.frame (grow_frame st).2.1 (grow_frame st).2.2.1 (grow_frame st).2.2.2.2

theorem FwFront.fail (h : FwFront c n st) (e : Errno) : FwFront c n (st.fail e) :=
  h.frame rfl rfl rfl

/-- The next bytes of the buffer are written where they belong. -/
theorem FwFront.put (h : FwFront c n st) (hap : c.Apart) (hbs : 0 < c.blockSize)
    (hle : n + m ≤ c.size)
    (hput : ∀ d < m, (∃ b, c.fetch ((c.fpos + (n + d)) / c.blockSize) = .ok b) ∧
      c.addr (n + d) = off + d) : FwFront c (n + m) ((st.writeAt c.env.dirty off m n).advance m) := by
  have hfetched : ∀ j < n + m, ∃ b, c.fetch ((c.fpos + j) / c.blockSize) = .ok b := by
    intro j hj
    by_cases hjn : j < n
    · exact h.fetched j hjn
    · obtain ⟨d, rfl⟩ := Nat.exists_eq_add_of_le (Nat.le_of_not_lt hjn)
      exact (hput d (by omega)).1
  refine ⟨hle, ?_, ?_, hfetched, fun i j => ?_⟩
  · show st.fpos + m = _
    rw [h.fpos, Nat.add_assoc]
  · show st.wcnt.map _ = _
    rw [h.wcnt, Option.map_map]
    rfl
  · show (if off ≤ i ∧ i < off + m ∧ c.env.dirty (n + (i - off)) = false then
      some (n + (i - off)) else st.dev i) = some j ↔ _
    by_cases hin : off ≤ i ∧ i < off + m
    · obtain ⟨d, rfl⟩ := Nat.exists_eq_add_of_le hin.1
      have hd : d < m := by omega
      rw [if_pos ⟨hin.1, hin.2, hap.clean _ (by omega)⟩, Nat.add_sub_cancel_left,
        Option.some.injEq]
      constructor
      · rintro rfl
        exact ⟨by omega, (hput d hd).2.symm⟩
      · rintro ⟨hj, heq⟩
        exact hap.addr_inj hbs (by omega) (by omega) (hput d hd).1 (hfetched j hj)
          ((hput d hd).2.trans heq)
    · rw [if_neg fun h => hin ⟨h.1, h.2.1⟩, h.dev]
      constructor
      · rintro ⟨hj, rfl⟩
        exact ⟨by omega, rfl⟩
      · rintro ⟨hj, rfl⟩
        refine ⟨?_, rfl⟩
        by_contra hjn
        obtain ⟨d, rfl⟩ := Nat.exists_eq_add_of_le (Nat.le_of_not_lt hjn)
        have haddr := (hput d (by omega)).2
        omega

/-! ## The size -/

theorem FwSized.frame (h : FwSized c v st) (hfsize : st'.fsize = st.fsize)
    (hsize : st'.inodeSize = st.inodeSize) : FwSized c v st' :=
  ⟨hfsize.trans h.fsize, fun hv => hsize.trans (h.below hv), by rw [hsize]; exact h.above,
    h.fetched⟩

theorem FwSized.fail (h : FwSized c v st) (e : Errno) : FwSized c v (st.fail e) :=
  h.frame rfl rfl

theorem oldSize_le (hbs : 0 < c.blockSize) : c.oldSize ≤ c.ifileBlocks * c.blockSize := by
  have hdm := Nat.div_add_mod (c.oldSize + c.blockSize - 1) c.blockSize
  have hm := Nat.mod_lt (c.oldSize + c.blockSize - 1) hbs
  rw [FwCall.ifileBlocks, Nat.mul_comm]
  omega

/-- The blocks of the file begin inside it. -/
theorem block_le_oldSize (hbs : 0 < c.blockSize) {k : ℕ} (hk : k < c.ifileBlocks) :
    k * c.blockSize ≤ c.oldSize := by
  have hceil := Nat.div_mul_le_self (c.oldSize + c.blockSize - 1) c.blockSize
  have hmul : (k + 1) * c.blockSize ≤ c.ifileBlocks * c.blockSize := Nat.mul_le_mul_right _ hk
  rw [Nat.add_mul, Nat.one_mul] at hmul
  rw [FwCall.ifileBlocks] at hmul
  omega

/-- A size that needs `v` blocks is larger than all blocks but one. -/
theorem lt_of_ceil {x bs : ℕ} (hbs : 0 < bs) (h : (x + bs - 1) / bs = v) (hv : 0 < v) :
    (v - 1) * bs < x := by
  obtain ⟨w, rfl⟩ : ∃ w, v = w + 1 := ⟨v - 1, by omega⟩
  have hle : (w + 1) * bs ≤ x + bs - 1 := by
    rw [← h]
    exact Nat.div_mul_le_self ..
  rw [Nat.add_mul, Nat.one_mul] at hle
  rw [Nat.add_sub_cancel]
  omega

/-- The file has not shrunk. -/
theorem FwSized.size_le (h : FwSized c v st) (hbs : 0 < c.blockSize) :
    c.oldSize ≤ st.inodeSize := by
  rcases Nat.le_total v c.ifileBlocks with hv | hv
  · exact (h.below hv).ge
  · rcases Nat.lt_or_eq_of_le hv with hlt | heq
    · have hlarge := lt_of_ceil hbs (h.above hv) (by omega)
      have hmul := Nat.mul_le_mul_right c.blockSize (Nat.le_sub_one_of_lt hlt)
      have hold := @oldSize_le c hbs
      omega
    · exact (h.below heq.ge).ge

/-- The blocks in front of the last one are inside the file. -/
theorem FwSized.inside (h : FwSized c v st) (hbs : 0 < c.blockSize) {k : ℕ} (hk : k < v) :
    k * c.blockSize ≤ st.inodeSize := by
  rcases Nat.le_total v c.ifileBlocks with hv | hv
  · rw [h.below hv]
    exact block_le_oldSize hbs (Nat.lt_of_lt_of_le hk hv)
  · have hlarge := lt_of_ceil hbs (h.above hv) (by omega)
    have hmul := Nat.mul_le_mul_right c.blockSize (Nat.le_sub_one_of_lt hk)
    omega

/-- A call ends. -/
theorem FwSized.out (h : FwSized c v st) (hbs : 0 < c.blockSize) (hpre : FwFront c n st)
    (hle : c.fpos + n ≤ max v c.ifileBlocks * c.blockSize)
    (hcov : c.Settled → c.fpos + n ≤ st.inodeSize) : FwOut c n st := by
  rcases Nat.le_total v c.ifileBlocks with hv | hv
  · have hsize := h.below hv
    rw [Nat.max_eq_right hv] at hle
    have hceil : (st.inodeSize + c.blockSize - 1) / c.blockSize = c.ifileBlocks := by
      rw [hsize]
      rfl
    exact ⟨hpre, hsize.ge, hceil.ge, by rw [hceil]; exact hle,
      fun k hk hlt => absurd (hceil ▸ hlt) (Nat.not_lt.2 hk), hcov⟩
  · have hceil := h.above hv
    rw [Nat.max_eq_left hv] at hle
    exact ⟨hpre, h.size_le hbs, by rw [hceil]; exact hv, by rw [hceil]; exact hle,
      fun k hk hlt => h.fetched k hk (hceil ▸ hlt), hcov⟩

end Front

/-! ## The loops -/

/-- The blocks of a run follow each other on the device. -/
def FwRun.Follows (c : FwCall) (u : ℕ) (r : FwRun) : Prop :=
  0 < r.count → r.start ≠ 0 ∧ ∀ i < r.count, c.fetch (u - r.count + i) = .ok (r.start + i)

section Loops

variable {c : FwCall} {F : List Errno} {size pos u : ℕ} {r : FwRun} {st st' : FwState}

/-- A write that ends in its head has no whole blocks. -/
theorem FwCall.last_eq_first (heq : c.headLen = c.size) : c.last = c.first := by
  rw [FwCall.last, FwCall.blocks, heq, Nat.sub_self, Nat.zero_div, Nat.add_zero]

/-- The position is in a block of the file or right behind the last one. -/
theorem fpos_div_le (hbs : 0 < c.blockSize) : c.fpos / c.blockSize ≤ c.ifileBlocks := by
  refine Nat.div_le_div_right ?_
  have hmax : c.fpos ≤ c.oldSize := Nat.le_max_right ..
  omega

theorem FwInv.sized (h : FwInv c F size pos u r st) (hbs : 0 < c.blockSize)
    (hgo : c.headLen < c.size) : FwSized c r.iblk st := by
  have hle := h.le
  refine ⟨h.fsize, h.below, h.above, fun k hk hlt =>
    ⟨FwCall.block_before_end hbs hgo (by omega), ?_⟩⟩
  obtain ⟨b, hb, -⟩ := h.fetched k ((fpos_div_le hbs).trans hk) hlt
  exact ⟨b, hb⟩

theorem FwEnd.sized (h : FwEnd c F pos st) (hbs : 0 < c.blockSize) : FwSized c c.last st := by
  refine ⟨h.fsize, h.below, h.above, fun k hk hlt => ⟨?_, ?_⟩⟩
  · rcases Nat.lt_or_eq_of_le (@FwCall.headLen_le c) with hgo | heq
    · exact FwCall.block_before_end hbs hgo hlt
    · have hfirst := @first_le_file c
      have hlast := FwCall.last_eq_first heq
      omega
  · obtain ⟨b, hb, -⟩ := h.fetched k ((fpos_div_le hbs).trans hk) hlt
    exact ⟨b, hb⟩

/-- A run that waits begins inside the file. -/
theorem FwInv.covered (h : FwInv c F size pos u r st) (hbs : 0 < c.blockSize)
    (hgo : c.headLen < c.size) (hcount : 0 < r.count) : c.fpos + pos ≤ st.inodeSize := by
  have hfirst := h.first
  have hupto := h.upto
  rw [h.place hbs hgo]
  exact (h.sized hbs hgo).inside hbs (by omega)

/-- A fetched block that follows the run joins it. -/
theorem FwRun.Follows.join (h : r.Follows c r.iblk) (hzero : r.count = 0 → r.start = 0)
    (hle : r.count ≤ r.iblk) {b : ℕ} (hb : b ≠ 0) (hfetch : c.fetch r.iblk = .ok b)
    (hjoin : (r.take r.iblk b).start + r.count = b) :
    FwRun.Follows c (r.iblk + 1) { r.take r.iblk b with count := r.count + 1 } := by
  intro _
  simp only [FwRun.take] at hjoin ⊢
  rw [show r.iblk + 1 - (r.count + 1) = r.iblk - r.count by omega]
  rcases Nat.eq_zero_or_pos r.count with h0 | hpos
  · rw [hzero h0, if_pos rfl]
    refine ⟨hb, fun i hi => ?_⟩
    obtain rfl : i = 0 := by omega
    rw [h0, Nat.sub_zero, Nat.add_zero, Nat.add_zero, hfetch]
  · obtain ⟨hne, hrun⟩ := h hpos
    rw [if_neg hne] at hjoin ⊢
    refine ⟨hne, fun i hi => ?_⟩
    rcases Nat.lt_or_eq_of_le (Nat.le_of_lt_succ hi) with hi | rfl
    · exact hrun i hi
    · rw [Nat.sub_add_cancel hle, hfetch, hjoin]

/-- A run is written. -/
theorem FwFront.ran (hpre : FwFront c pos st) (hap : c.Apart) (hbs : 0 < c.blockSize)
    (hplace : c.fpos + pos = (u - r.count) * c.blockSize) (hrun : r.Follows c u)
    (hle : pos + r.count * c.blockSize ≤ c.size) :
    FwFront c (pos + r.count * c.blockSize) (st.ran c r pos) := by
  refine hpre.put hap hbs hle fun d hd => ?_
  have hi : d / c.blockSize < r.count := Nat.div_lt_of_lt_mul (by rwa [Nat.mul_comm])
  have hfetch := (hrun (Nat.zero_lt_of_lt hi)).2 (d / c.blockSize) hi
  obtain ⟨hb, haddr⟩ := FwCall.addr_at (Nat.mod_lt d hbs) (place_in_run hplace) hfetch
  refine ⟨hb, ?_⟩
  rw [haddr, Nat.add_mul, Nat.add_assoc, Nat.mul_comm (d / c.blockSize), Nat.div_add_mod]

end Loops

/-! ## The call -/

section Call

variable {c : FwCall} {F : List Errno} {n pos : ℕ} {st st' : FwState}

theorem FwOut.ignore (h : FwOut c n st) (x : Except Errno Unit) : FwOut c n (st.ignore x) := by
  rcases x with e | u
  · exact ⟨h.pre.fail e, h.size_le, h.blocks_le, h.inside, h.fetched, h.covered⟩
  · exact h

theorem FwFront.ignore (h : FwFront c n st) (x : Except Errno Unit) :
    FwFront c n (st.ignore x) := by
  rcases x with e | u
  · exact h.fail e
  · exact h

theorem FwSynced.sized (h : FwSynced c F st) : FwSized c c.ifileBlocks st :=
  ⟨h.fsize, fun _ => h.inodeSize, fun _ => by rw [h.inodeSize]; rfl,
    fun _ hk hlt => absurd hlt (Nat.not_lt.2 hk)⟩

end Call

end Lwext4
