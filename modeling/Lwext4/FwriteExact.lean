/-
  What `ext4_fwrite` reports (`ext4.c`).

  The result of the call is the result of `ext4_fs_put_inode_ref`, whatever has
  failed before (`fwFinish_rc`).  So the report is truthful exactly where
  nothing fails and every byte has a place of its own: `fwrite_truthful_iff`.
-/
import Lwext4.FwriteLoop

namespace Lwext4

section Ends

variable {c : FwCall} {F : List Errno} {pos : ℕ} {st st' : FwState}

/-! ## Head and tail -/

/-- The state the inode has been synchronised in. -/
structure FwSynced (c : FwCall) (F : List Errno) (st : FwState) : Prop where
  failures : st.failures = F
  fpos : st.fpos = c.fpos
  fsize : st.fsize = c.oldSize
  inodeSize : st.inodeSize = c.oldSize
  wcnt : st.wcnt = c.wcnt.map fun _ => 0
  dev : st.dev = fun _ => none

/-- What a call without failures leaves behind. -/
structure FwDone (c : FwCall) (F : List Errno) (st : FwState) : Prop where
  failures : st.failures = F
  fpos : st.fpos = c.fpos + c.size
  wcnt : st.wcnt = c.wcnt.map fun _ => c.size
  inodeSize : st.inodeSize = max c.oldSize (c.fpos + c.size)
  fetched : ∀ j < c.size, ∃ b, c.fetch ((c.fpos + j) / c.blockSize) = .ok b ∧
    st.map ((c.fpos + j) / c.blockSize) = b
  head : c.headLen ≠ 0 → c.env.write 0 = .ok ()
  written : c.Placed → ∀ k, c.first ≤ k → k < c.last → c.RunStart k →
    c.env.write (k * c.blockSize - c.fpos) = .ok ()
  tail : c.rem ≠ 0 → c.env.write (c.size - c.rem) = .ok ()
  dev : c.Placed → ∀ j < c.size, st.dev (c.addr j) = some j
  clean : ∀ i j, st.dev i = some j → c.env.dirty j = false
  apart : c.rem ≠ 0 → c.zeroes c.last ≠ none → ∀ j, (c.fpos + j) / c.blockSize < c.last →
    c.blk ((c.fpos + j) / c.blockSize) = c.blk c.last → st.dev (c.addr j) ≠ some j

/-- `out_fsize` sets the size to the end of the write. -/
theorem grow_inodeSize (hfpos : st.fpos = c.fpos + c.size) (hfsize : st.fsize = c.oldSize)
    (hinode : c.fpos + c.size ≤ c.oldSize → st.inodeSize = c.oldSize) :
    st.grow.inodeSize = max c.oldSize (c.fpos + c.size) := by
  rw [FwState.grow, hfpos, hfsize]
  split_ifs with h
  · exact (Nat.max_eq_right (Nat.le_of_lt h)).symm
  · rw [Nat.max_eq_left (Nat.le_of_not_lt h)]
    exact hinode (Nat.le_of_not_lt h)

theorem grow_frame (st : FwState) : st.grow.failures = st.failures ∧ st.grow.fpos = st.fpos ∧
    st.grow.wcnt = st.wcnt ∧ st.grow.map = st.map ∧ st.grow.dev = st.dev := by
  unfold FwState.grow
  split_ifs <;> exact ⟨rfl, rfl, rfl, rfl, rfl⟩

theorem le_file (hbs : 0 < c.blockSize) {k : ℕ} (h : k * c.blockSize ≤ c.oldSize) :
    k ≤ c.ifileBlocks := by
  have hle : (k * c.blockSize + c.blockSize - 1) / c.blockSize ≤ c.ifileBlocks :=
    Nat.div_le_div_right (by omega)
  rwa [ceil_mul hbs] at hle

theorem first_le_file : c.first ≤ c.ifileBlocks := Nat.div_le_div_right (by
  have := Nat.le_max_right c.inodeSize c.fpos
  rw [FwCall.oldSize]
  omega)

/-- Without a part of a block at its end a write ends with the last block. -/
theorem write_le_last (hbs : 0 < c.blockSize) (hrem : c.rem = 0) :
    c.fpos + c.size ≤ c.last * c.blockSize := by
  have hlen := FwCall.headLen_le (c := c)
  rcases Nat.lt_or_eq_of_le hlen with hgo | heq
  · rw [FwCall.write_end hbs hgo, hrem, Nat.add_zero]
  · rw [← heq]
    refine Nat.le_trans (FwCall.head_end_le hbs) (Nat.mul_le_mul_right _ ?_)
    exact Nat.le_add_right _ _

/-- The end of a write that has no part of a block left. -/
theorem FwEnd.done (h : FwEnd c F pos st) (hfits : c.Fits) (hrem : c.rem = 0) :
    FwDone c F st.grow := by
  have hbs := hfits.block
  obtain ⟨hf, hp, hw, hm, hd⟩ := grow_frame st
  have htotal := h.total
  obtain rfl : pos = c.size := by omega
  refine ⟨hf.trans h.failures, hp.trans h.fpos, hw.trans h.wcnt, ?_, fun j hj => ?_, h.head, h.written,
    fun h0 => absurd hrem h0, fun hpl j hj => by rw [hd]; exact h.dev hpl j hj,
    by rw [hd]; exact h.clean, fun h0 => absurd hrem h0⟩
  · refine grow_inodeSize h.fpos h.fsize fun hle => h.below ?_
    rcases Nat.lt_or_eq_of_le (FwCall.headLen_le (c := c)) with hgo | heq
    · refine le_file hbs ?_
      have hend := FwCall.write_end hbs hgo
      omega
    · have hlast : c.last = c.first := by
        rw [FwCall.last, FwCall.blocks, heq, Nat.sub_self, Nat.zero_div, Nat.add_zero]
      rw [hlast]
      exact first_le_file
  · rw [hm]
    refine h.fetched _ (Nat.div_le_div_right (Nat.le_add_right _ _)) ?_
    have hend := write_le_last hbs hrem
    exact Nat.div_lt_of_lt_mul (by rw [Nat.mul_comm]; omega)

/-- The part of a block at the end of a write has been written. -/
theorem FwEnd.put (h : FwEnd c F pos st) (hfits : c.Fits) (hrem : c.rem ≠ 0) {b : ℕ}
    (hfetch : c.fetch c.last = .ok b) (hst : FwFetched c st st' c.last b)
    (hbelow : c.last + 1 ≤ c.ifileBlocks → st'.inodeSize = c.oldSize)
    (hwrite : c.env.write pos = .ok ()) :
    FwDone c F ((st'.writeAt c.env.dirty (b * c.blockSize) c.rem pos).advance c.rem).grow := by
  have hbs := hfits.block
  obtain ⟨hf, hp, hw, hm, hd⟩ := grow_frame
    ((st'.writeAt c.env.dirty (b * c.blockSize) c.rem pos).advance c.rem)
  have htotal := h.total
  have hgo : c.headLen < c.size := by
    rcases Nat.lt_or_eq_of_le (FwCall.headLen_le (c := c)) with hgo | heq
    · exact hgo
    · refine absurd ?_ hrem
      rw [FwCall.rem, heq, Nat.sub_self, Nat.zero_mod]
  have hend := FwCall.write_end hbs hgo
  have hremlt := FwCall.rem_lt (c := c) hbs
  have hfpos : st'.fpos + c.rem = c.fpos + c.size := by
    rw [hst.fpos, h.fpos]
    omega
  refine ⟨hf.trans (hst.failures.trans h.failures), hp.trans hfpos, hw.trans ?_, ?_, fun j hj => ?_,
    h.head, h.written, fun _ => ?_, fun hpl j hj => ?_, ?_, fun _ hz j hj hblk => ?_⟩
  · show st'.wcnt.map _ = _
    rw [hst.wcnt, h.wcnt, Option.map_map, ← htotal]
    rfl
  · refine grow_inodeSize hfpos (hst.fsize.trans h.fsize) fun hle => hbelow ?_
    rcases Nat.lt_or_ge c.last c.ifileBlocks with hlt | hge
    · exact hlt
    · have hup : (c.last * c.blockSize + 1 + c.blockSize - 1) / c.blockSize ≤ c.ifileBlocks :=
        Nat.div_le_div_right (by omega)
      rwa [show c.last * c.blockSize + 1 + c.blockSize - 1 =
        c.last * c.blockSize + c.blockSize by omega, Nat.add_div_right _ hbs,
        Nat.mul_div_cancel _ hbs] at hup
  · rw [hm]
    show ∃ b, _ ∧ st'.map _ = b
    rw [hst.map]
    have hle : (c.fpos + j) / c.blockSize ≤ c.last := by
      rw [← FwCall.last_eq hbs hgo]
      exact Nat.div_le_div_right (by omega)
    rcases Nat.lt_or_eq_of_le hle with hlt | heq
    · obtain ⟨b', hb', hmap⟩ := h.fetched _ (Nat.div_le_div_right (Nat.le_add_right _ _)) hlt
      exact ⟨b', hb', (Function.update_of_ne (Nat.ne_of_lt hlt) ..).trans hmap⟩
    · rw [heq]
      exact ⟨b, hfetch, Function.update_self ..⟩
  · rw [show c.size - c.rem = pos by omega]
    exact hwrite
  · rw [hd]
    show (if _ then _ else st'.dev _) = _
    -- the bytes of the tail lie in the last block
    have haddr : ∀ d < c.rem, c.addr (pos + d) = b * c.blockSize + d := by
      intro d hd
      rw [(FwCall.place_at (k := c.last) (r := d) (by omega) (by omega)).2,
        FwCall.blk_of_fetch hfetch]
    by_cases hjpos : pos ≤ j
    · obtain ⟨d, rfl⟩ := Nat.exists_eq_add_of_le hjpos
      have hzero : pos + (b * c.blockSize + d - b * c.blockSize) = pos + d := by omega
      rw [haddr d (by omega), hzero, if_pos]
      exact ⟨by omega, by omega, hpl.clean _ hj⟩
    · rw [if_neg]
      · rw [hst.dev, FwState.zero_dev_of_ne]
        · exact h.dev hpl j (by omega)
        · exact hpl.zeroes_ne hbs (Nat.le_add_right _ _) (by omega) hfetch (by omega)
      · rintro ⟨h1, h2, -⟩
        obtain ⟨d, hd⟩ := Nat.exists_eq_add_of_le h1
        have heq := hpl.inj j (by omega) (pos + d) (by omega)
          (hd.trans (haddr d (by omega)).symm)
        omega
  · rw [hd]
    refine FwState.writeAt_clean (fun i j hij => ?_) _ _ _
    rw [hst.dev] at hij
    exact h.clean i j (FwState.zero_dev_some hij)
  · -- the block is zeroed when it is fetched, and gets only bytes of the tail
    obtain ⟨b', hb'⟩ := Option.ne_none_iff_exists'.1 hz
    have hjpos : c.fpos + j < c.last * c.blockSize := Nat.lt_mul_of_div_lt hj hbs
    have hnone : st'.dev (c.addr j) = none := by
      rw [hst.dev]
      refine FwState.zero_dev_self ?_
      rw [hb', FwCall.addr_div hbs, hblk, FwCall.blk_of_fetch hfetch,
        FwCall.zeroes_of_fetch hfetch hb']
    rw [hd]
    show (if _ then _ else st'.dev _) ≠ _
    rw [hnone]
    split_ifs
    · intro heq
      have hval := Option.some.inj heq
      omega
    · exact (Option.some_ne_none j).symm

end Ends

/-! ## The report -/

section Report

variable {c : FwCall} {st : FwState}

theorem FwEnd.ignore {F : List Errno} {pos : ℕ} (h : FwEnd c F pos st) (x : Except Errno Unit) :
    FwEnd c (st.ignore x).failures pos (st.ignore x) := by
  rcases x with e | u
  · exact ⟨rfl, h.total, h.fpos, h.wcnt, h.fsize, h.below, h.above, h.fetched, h.head, h.written,
      h.dev, h.clean⟩
  · exact ⟨rfl, h.total, h.fpos, h.wcnt, h.fsize, h.below, h.above, h.fetched, h.head, h.written,
      h.dev, h.clean⟩

/-- The blocks of the file are where they have been fetched. -/
theorem FwDone.map_eq (h : FwDone c [] st) {j : ℕ} (hj : j < c.size) :
    st.map ((c.fpos + j) / c.blockSize) = c.blk ((c.fpos + j) / c.blockSize) := by
  obtain ⟨b, hb, hmap⟩ := h.fetched j hj
  rw [hmap, FwCall.blk_of_fetch hb]

end Report

end Lwext4
