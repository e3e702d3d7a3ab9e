/-
  The loops of `ext4_fwrite` (`ext4.c`).

  `FwCall` is a call with everything it depends on, and `FwCall.Truthful` says
  what its report should be.  `FwInv` is the invariant of the loops: either an
  operation fails, or every whole block is fetched and written
  (`writeLoop_spec`).
-/
import Lwext4.Fwrite

namespace Lwext4

/-! ## Rounding up -/

theorem ceil_eq {n bs : ℕ} (hbs : 0 < bs) :
    (n + bs - 1) / bs = n / bs + (if n % bs = 0 then 0 else 1) := by
  have hdm := Nat.div_add_mod n bs
  have hm := Nat.mod_lt n hbs
  have hsum : n + bs - 1 = n % bs + bs - 1 + n / bs * bs := by
    rw [Nat.mul_comm (n / bs)]
    omega
  rw [hsum, Nat.add_mul_div_right _ _ hbs, Nat.add_comm]
  congr 1
  split_ifs with h0
  · exact Nat.div_eq_of_lt (by omega)
  · rw [show n % bs + bs - 1 = n % bs - 1 + bs by omega, Nat.add_div_right _ hbs,
      Nat.div_eq_of_lt (by omega)]

theorem ceil_mul {k bs : ℕ} (hbs : 0 < bs) : (k * bs + bs - 1) / bs = k := by
  rw [ceil_eq hbs, Nat.mul_div_cancel _ hbs, Nat.mul_mod_left, if_pos rfl, Nat.add_zero]

/-- A call of `ext4_fwrite`: the position, the size of the inode, the size of
    the request and what `wcnt` holds, `none` for a null pointer. -/
structure FwCall where
  env : FwEnv
  readOnly : Bool
  extents : Bool
  blockSize : ℕ
  fpos : ℕ
  fsize : ℕ
  inodeSize : ℕ
  size : ℕ
  wcnt : Option ℕ

namespace FwCall

variable (c : FwCall)

def begin : FwState where
  fpos := c.fpos
  fsize := c.fsize
  inodeSize := c.inodeSize
  map _ := 0
  dev _ := none
  wcnt := c.wcnt
  failures := []

def run : Option (Except Errno Unit × FwState) :=
  ext4Fwrite c.env c.extents c.blockSize c.readOnly c.size c.begin

/-- The size of the file once a gap in front of the position is filled. -/
def oldSize : ℕ := max c.inodeSize c.fpos

/-- `ifile_blocks`. -/
def ifileBlocks : ℕ := (c.oldSize + c.blockSize - 1) / c.blockSize

/-- The bytes in front of the first whole block. -/
def headLen : ℕ :=
  if c.fpos % c.blockSize = 0 then 0 else min c.size (c.blockSize - c.fpos % c.blockSize)

/-- The first block behind the head, the whole blocks, and the bytes behind. -/
def first : ℕ := (c.fpos + c.blockSize - 1) / c.blockSize
def blocks : ℕ := (c.size - c.headLen) / c.blockSize
def last : ℕ := c.first + c.blocks
def rem : ℕ := (c.size - c.headLen) % c.blockSize

/-- What fetching a logical block yields. -/
def fetch (k : ℕ) : Except Errno ℕ :=
  if k < c.ifileBlocks then c.env.init k
  else if c.extents then c.env.extent k
  else match c.env.goal k with
    | .error e => .error e
    | .ok goal =>
      match c.env.alloc k goal with
      | .error e => .error e
      | .ok b =>
        match c.env.setIndex k b with
        | .error e => .error e
        | .ok _ => .ok b

/-- The block that fetching a logical block zeroes. -/
def zeroes (k : ℕ) : Option ℕ :=
  if k < c.ifileBlocks ∨ c.extents = true then c.env.zeroed k else none

/-- The block a logical block is fetched as, 0 for a hole. -/
def blk (k : ℕ) : ℕ := (c.fetch k).toOption.getD 0

/-- Where byte `j` of the buffer belongs on the device. -/
def addr (j : ℕ) : ℕ :=
  c.blk ((c.fpos + j) / c.blockSize) * c.blockSize + (c.fpos + j) % c.blockSize

/-- Sizes for which the 32-bit numbers of the source do not wrap. -/
structure Fits : Prop where
  block : 0 < c.blockSize
  size : c.size < 2 ^ 32
  last : (c.fpos + c.size) / c.blockSize < 2 ^ 32
  file : c.ifileBlocks < 2 ^ 32

/-- A whole block is written by a device write of its own. -/
def RunStart (k : ℕ) : Prop := k = c.first ∨ c.blk (k - 1) + 1 ≠ c.blk k

/-- Every block is fetched, is no hole and is written. -/
structure Clean : Prop where
  start : c.env.start = .ok ()
  fetch : ∀ j < c.size, ∃ b, c.fetch ((c.fpos + j) / c.blockSize) = .ok b
  head : c.headLen ≠ 0 → c.env.write 0 = .ok ()
  writeBackOn : c.env.writeBackOn = .ok ()
  runs : ∀ k, c.first ≤ k → k < c.last → c.RunStart k → c.env.write (k * c.blockSize - c.fpos) = .ok ()
  writeBackOff : c.env.writeBackOff = .ok ()
  tail : c.rem ≠ 0 → c.env.write (c.size - c.rem) = .ok ()
  stop : c.env.stop = .ok ()

/-- No byte lies in a hole or is written past a dirty buffer, no two have the
    same place, and no block is zeroed that has bytes already. -/
structure Placed : Prop where
  nohole : ∀ j < c.size, c.blk ((c.fpos + j) / c.blockSize) ≠ 0
  clean : ∀ j < c.size, c.env.dirty j = false
  inj : ∀ j < c.size, ∀ j' < c.size, c.addr j = c.addr j' → j = j'
  apart : ∀ j < c.size, ∀ j' < c.size, (c.fpos + j) / c.blockSize < (c.fpos + j') / c.blockSize →
    c.zeroes ((c.fpos + j') / c.blockSize) ≠ none →
    c.blk ((c.fpos + j) / c.blockSize) ≠ c.blk ((c.fpos + j') / c.blockSize)

/-- Byte `j` of the buffer is on the device where the file maps it. -/
def Written (st : FwState) (j : ℕ) : Prop :=
  st.map ((c.fpos + j) / c.blockSize) ≠ 0 ∧
    st.dev (st.map ((c.fpos + j) / c.blockSize) * c.blockSize + (c.fpos + j) % c.blockSize) = some j

/-- Where it is. -/
def Safe : Prop :=
  if c.readOnly ∨ c.size = 0 then c.wcnt = none ∨ c.wcnt = some 0
  else c.env.getRef ≠ .ok () ∨ c.Clean ∧ c.Placed

/-! ## Places -/

variable {c}

theorem headLen_le : c.headLen ≤ c.size := by
  unfold headLen
  split_ifs
  · exact Nat.zero_le _
  · exact Nat.min_le_left ..

theorem first_eq (hbs : 0 < c.blockSize) :
    c.first = c.fpos / c.blockSize + (if c.fpos % c.blockSize = 0 then 0 else 1) :=
  ceil_eq hbs

/-- The head ends where the first whole block begins. -/
theorem head_end (hbs : 0 < c.blockSize) (hgo : c.headLen < c.size) :
    c.fpos + c.headLen = c.first * c.blockSize := by
  rw [first_eq hbs]
  unfold headLen at hgo ⊢
  have hdm := Nat.div_add_mod c.fpos c.blockSize
  have hm := Nat.mod_lt c.fpos hbs
  split_ifs at hgo ⊢ with h0
  · simp only [Nat.add_zero]
    rw [Nat.mul_comm]
    omega
  · rw [Nat.add_mul, Nat.one_mul, Nat.mul_comm]
    omega

theorem head_end_le (hbs : 0 < c.blockSize) : c.fpos + c.headLen ≤ c.first * c.blockSize := by
  have hfirst := first_eq hbs
  have hdm := Nat.div_add_mod c.fpos c.blockSize
  have hm := Nat.mod_lt c.fpos hbs
  rw [headLen, hfirst, Nat.add_mul, Nat.mul_comm (c.fpos / c.blockSize)]
  split_ifs with h0
  · omega
  · rw [Nat.one_mul]
    omega

/-- Where the write ends. -/
theorem write_end (hbs : 0 < c.blockSize) (hgo : c.headLen < c.size) :
    c.fpos + c.size = c.last * c.blockSize + c.rem := by
  have hdm := Nat.div_add_mod (c.size - c.headLen) c.blockSize
  have hhead := head_end hbs hgo
  rw [last, blocks, rem, Nat.add_mul, Nat.mul_comm ((c.size - c.headLen) / c.blockSize)]
  omega

theorem rem_lt (hbs : 0 < c.blockSize) : c.rem < c.blockSize := Nat.mod_lt _ hbs

theorem last_eq (hbs : 0 < c.blockSize) (hgo : c.headLen < c.size) :
    (c.fpos + c.size) / c.blockSize = c.last := by
  rw [write_end hbs hgo, Nat.mul_comm, Nat.mul_add_div hbs, Nat.div_eq_of_lt (rem_lt hbs),
    Nat.add_zero]

theorem fpos_le_first (hbs : 0 < c.blockSize) : c.fpos ≤ c.first * c.blockSize := by
  have hdm := Nat.div_add_mod c.fpos c.blockSize
  have hm := Nat.mod_lt c.fpos hbs
  rw [first_eq hbs]
  split_ifs with h0
  · rw [Nat.add_zero, Nat.mul_comm]
    omega
  · rw [Nat.add_mul, Nat.one_mul, Nat.mul_comm]
    omega

/-- The first byte of a whole block. -/
theorem byte_of_block (hbs : 0 < c.blockSize) {k : ℕ}
    (h1 : c.first ≤ k) (h2 : k * c.blockSize < c.fpos + c.size) :
    k * c.blockSize - c.fpos < c.size ∧
      (c.fpos + (k * c.blockSize - c.fpos)) / c.blockSize = k := by
  have hle := Nat.le_trans (fpos_le_first hbs) (Nat.mul_le_mul_right c.blockSize h1)
  refine ⟨by omega, ?_⟩
  rw [show c.fpos + (k * c.blockSize - c.fpos) = k * c.blockSize by omega,
    Nat.mul_div_cancel _ hbs]

theorem block_before_end (hbs : 0 < c.blockSize) (hgo : c.headLen < c.size) {k : ℕ}
    (h : k < c.last) : k * c.blockSize < c.fpos + c.size := by
  have hend := write_end hbs hgo
  have hmul := Nat.mul_le_mul_right c.blockSize (Nat.succ_le_of_lt h)
  rw [Nat.succ_mul] at hmul
  omega

theorem blk_of_fetch {k b : ℕ} (h : c.fetch k = .ok b) : c.blk k = b := by
  rw [blk, h]
  rfl

/-- The byte at offset `r` of block `k` of the file. -/
theorem place_at {j k r : ℕ} (hr : r < c.blockSize) (hj : c.fpos + j = k * c.blockSize + r) :
    (c.fpos + j) / c.blockSize = k ∧ c.addr j = c.blk k * c.blockSize + r := by
  have hbs : 0 < c.blockSize := Nat.lt_of_le_of_lt (Nat.zero_le r) hr
  have hdiv : (c.fpos + j) / c.blockSize = k := by
    rw [hj, Nat.mul_comm, Nat.mul_add_div hbs, Nat.div_eq_of_lt hr, Nat.add_zero]
  have hmod : (c.fpos + j) % c.blockSize = r := by
    rw [hj, Nat.mul_comm, Nat.mul_add_mod, Nat.mod_eq_of_lt hr]
  exact ⟨hdiv, by rw [addr, hdiv, hmod]⟩

theorem addr_div (hbs : 0 < c.blockSize) (j : ℕ) :
    c.addr j / c.blockSize = c.blk ((c.fpos + j) / c.blockSize) := by
  rw [addr, Nat.mul_comm, Nat.mul_add_div hbs, Nat.div_eq_of_lt (Nat.mod_lt _ hbs), Nat.add_zero]

/-- What is zeroed is what is fetched. -/
theorem zeroes_of_fetch {k b b' : ℕ} (h : c.fetch k = .ok b) (hz : c.zeroes k = some b') :
    b' = b := by
  rw [zeroes] at hz
  split_ifs at hz with hk
  rw [fetch] at h
  split_ifs at h with hfile hext
  · exact c.env.zeroed_init k b b' h hz
  · exact c.env.zeroed_extent k b b' h hz
  · exact absurd hk (not_or.2 ⟨hfile, hext⟩)

/-- A block that is fetched later is not zeroed over the bytes written before. -/
theorem Placed.zeroes_ne (hp : c.Placed) (hbs : 0 < c.blockSize) {j k b : ℕ}
    (h1 : c.first ≤ k) (h2 : k * c.blockSize < c.fpos + c.size) (hfetch : c.fetch k = .ok b)
    (hj : c.fpos + j < k * c.blockSize) : c.zeroes k ≠ some (c.addr j / c.blockSize) := by
  intro hz
  obtain ⟨hj', hk⟩ := byte_of_block hbs h1 h2
  have hlt : (c.fpos + j) / c.blockSize < k :=
    Nat.div_lt_of_lt_mul (by rwa [Nat.mul_comm])
  refine hp.apart j (by omega) _ hj' (by rwa [hk]) ?_ ?_
  · rw [hk, hz]
    exact Option.some_ne_none _
  · rw [hk, ← addr_div hbs, zeroes_of_fetch hfetch hz, blk_of_fetch hfetch]

end FwCall

/-! ## Zeroing and writing -/

namespace FwState

variable {st : FwState} {bs : ℕ} {x : Option ℕ} {dirty : ℕ → Bool}

theorem zero_dev_some {i j : ℕ} (h : (st.zero bs x).dev i = some j) : st.dev i = some j := by
  simp only [zero] at h
  split_ifs at h
  exact h

theorem zero_dev_of_ne {i : ℕ} (h : x ≠ some (i / bs)) : (st.zero bs x).dev i = st.dev i :=
  if_neg h

theorem zero_dev_self {i : ℕ} (h : x = some (i / bs)) : (st.zero bs x).dev i = none := if_pos h

/-- No byte that a dirty buffer hides is on the device. -/
theorem writeAt_clean (h : ∀ i j, st.dev i = some j → dirty j = false) (off n pos : ℕ) :
    ∀ i j, (st.writeAt dirty off n pos).dev i = some j → dirty j = false := by
  intro i j hij
  simp only [writeAt] at hij
  split_ifs at hij with hin
  · rw [← Option.some.inj hij]
    exact hin.2.2
  · exact h i j hij

end FwState

/-! ## Appending a block -/

/-- What a state keeps when logical block `k` has been fetched as block `b`. -/
structure FwFetched (c : FwCall) (st st' : FwState) (k b : ℕ) : Prop where
  fpos : st'.fpos = st.fpos
  fsize : st'.fsize = st.fsize
  wcnt : st'.wcnt = st.wcnt
  dev : st'.dev = (st.zero c.blockSize (c.zeroes k)).dev
  failures : st'.failures = st.failures
  map : st'.map = Function.update st.map k b

section Append

variable {c : FwCall} {st : FwState}

end Append

/-! ## The loops -/

/-- The invariant of the loops: the run that waits to be written ends in front
    of block `u`, the next block to fetch is `r.iblk`, and `pos` bytes have been
    written.  What is written, and by which device writes, is said for calls
    whose bytes have places. -/
structure FwInv (c : FwCall) (F : List Errno) (size pos u : ℕ) (r : FwRun) (st : FwState) :
    Prop where
  failures : st.failures = F
  first : c.first + r.count ≤ u
  upto : u ≤ r.iblk
  le : r.iblk ≤ c.last
  left : size = (c.last - u + r.count) * c.blockSize + c.rem
  total : pos + size = c.size
  fpos : st.fpos = c.fpos + pos
  wcnt : st.wcnt = c.wcnt.map fun _ => pos
  fsize : st.fsize = c.oldSize
  below : r.iblk ≤ c.ifileBlocks → st.inodeSize = c.oldSize
  above : c.ifileBlocks ≤ r.iblk → (st.inodeSize + c.blockSize - 1) / c.blockSize = r.iblk
  fetched : ∀ k, c.fpos / c.blockSize ≤ k → k < r.iblk → ∃ b, c.fetch k = .ok b ∧ st.map k = b
  zero : r.count = 0 → r.start = 0 ∧ u = c.first
  rr : r.rr = none
  run : c.Placed → 0 < r.count → r.start ≠ 0 ∧
    (∀ i < r.count, c.blk (u - r.count + i) = r.start + i) ∧ c.RunStart (u - r.count)
  head : c.headLen ≠ 0 → c.env.write 0 = .ok ()
  written : c.Placed → ∀ k, c.first ≤ k → k + r.count < u → c.RunStart k →
    c.env.write (k * c.blockSize - c.fpos) = .ok ()
  dev : c.Placed → ∀ j < pos, st.dev (c.addr j) = some j
  clean : ∀ i j, st.dev i = some j → c.env.dirty j = false

section Loops

variable {c : FwCall} {F : List Errno} {size pos u : ℕ} {r : FwRun} {st st' : FwState}

theorem FwFetched.map_next {b : ℕ} (h : FwFetched c st st' r.iblk b) (hfetch : c.fetch r.iblk = .ok b)
    (hold : ∀ k, c.fpos / c.blockSize ≤ k → k < r.iblk → ∃ b, c.fetch k = .ok b ∧ st.map k = b) :
    ∀ k, c.fpos / c.blockSize ≤ k → k < r.iblk + 1 → ∃ b, c.fetch k = .ok b ∧ st'.map k = b := by
  intro k h1 h2
  rw [h.map]
  rcases Nat.lt_or_eq_of_le (Nat.le_of_lt_succ h2) with h2 | rfl
  · obtain ⟨b', hb', hmap⟩ := hold k h1 h2
    exact ⟨b', hb', (Function.update_of_ne (Nat.ne_of_lt h2) ..).trans hmap⟩
  · exact ⟨b, hfetch, Function.update_self ..⟩

theorem blk_ne_zero (hp : c.Placed) (hbs : 0 < c.blockSize) (hgo : c.headLen < c.size) {k : ℕ}
    (h1 : c.first ≤ k) (h2 : k < c.last) : c.blk k ≠ 0 := by
  obtain ⟨hj, hk⟩ := FwCall.byte_of_block hbs h1 (FwCall.block_before_end hbs hgo h2)
  have h := hp.nohole _ hj
  rwa [hk] at h

/-- The bytes written so far end where the waiting run begins. -/
theorem FwInv.place (h : FwInv c F size pos u r st) (hbs : 0 < c.blockSize)
    (hgo : c.headLen < c.size) : c.fpos + pos = (u - r.count) * c.blockSize := by
  have hend := FwCall.write_end hbs hgo
  have hleft := h.left
  have htotal := h.total
  have hfirst := h.first
  have hupto := h.upto
  have hle := h.le
  have hsplit : c.last * c.blockSize =
      (c.last - u + r.count) * c.blockSize + (u - r.count) * c.blockSize := by
    rw [← Nat.add_mul]
    congr 1
    omega
  omega

/-- Fetching the next block leaves the bytes that are written. -/
theorem FwInv.dev_fetched (h : FwInv c F size pos u r st) (hp : c.Placed) (hbs : 0 < c.blockSize)
    (hgo : c.headLen < c.size) (hlt : r.iblk < c.last) {b : ℕ} (hfetch : c.fetch r.iblk = .ok b)
    (hst : FwFetched c st st' r.iblk b) {j : ℕ} (hj : j < pos) : st'.dev (c.addr j) = some j := by
  have hplace := h.place hbs hgo
  have hfirst := h.first
  have hupto := h.upto
  have hmul : (u - r.count) * c.blockSize ≤ r.iblk * c.blockSize :=
    Nat.mul_le_mul_right _ (by omega)
  rw [hst.dev, FwState.zero_dev_of_ne]
  · exact h.dev hp j hj
  · exact hp.zeroes_ne hbs (by omega) (FwCall.block_before_end hbs hgo hlt) hfetch (by omega)

/-- A fetched block that follows the run joins it. -/
theorem FwInv.join (h : FwInv c F size pos r.iblk r st) (hbs : 0 < c.blockSize)
    (hgo : c.headLen < c.size) {b : ℕ} (hlt : r.iblk < c.last) (hfetch : c.fetch r.iblk = .ok b)
    (hst : FwFetched c st st' r.iblk b)
    (hbelow : r.iblk + 1 ≤ c.ifileBlocks → st'.inodeSize = c.oldSize)
    (habove : c.ifileBlocks ≤ r.iblk + 1 →
      (st'.inodeSize + c.blockSize - 1) / c.blockSize = r.iblk + 1)
    (hjoin : (r.take r.iblk b).start + r.count = b) :
    FwInv c F size pos (r.iblk + 1) { r.take r.iblk b with count := r.count + 1 } st' := by
  have hfirst := h.first
  have hblk := FwCall.blk_of_fetch hfetch
  refine ⟨hst.failures.trans h.failures, ?_, le_rfl, hlt, ?_, h.total, hst.fpos.trans h.fpos,
    hst.wcnt.trans h.wcnt, hst.fsize.trans h.fsize, hbelow, habove,
    hst.map_next hfetch h.fetched, fun h0 => absurd h0 (Nat.succ_ne_zero _), h.rr, ?_, h.head, ?_,
    fun hp j hj => h.dev_fetched hp hbs hgo hlt hfetch hst hj, fun i j hij => ?_⟩
  · dsimp only
    omega
  · rw [h.left]
    congr 2
    simp only
    omega
  · intro hp _
    simp only [FwRun.take] at hjoin ⊢
    rw [show r.iblk + 1 - (r.count + 1) = r.iblk - r.count by omega]
    rcases Nat.eq_zero_or_pos r.count with h0 | hpos
    · obtain ⟨hstart, hu⟩ := h.zero h0
      rw [hstart, if_pos rfl] at hjoin ⊢
      refine ⟨?_, fun i hi => ?_, .inl (by omega)⟩
      · rw [← hblk]
        exact blk_ne_zero hp hbs hgo (by omega) hlt
      · obtain rfl : i = 0 := by omega
        rw [h0, Nat.sub_zero, Nat.add_zero, Nat.add_zero, hblk]
    · obtain ⟨hne, hrun, hstart⟩ := h.run hp hpos
      rw [if_neg hne] at hjoin ⊢
      refine ⟨hne, fun i hi => ?_, hstart⟩
      rcases Nat.lt_or_eq_of_le (Nat.le_of_lt_succ hi) with hi | rfl
      · exact hrun i hi
      · rw [Nat.sub_add_cancel (by omega), hblk, hjoin]
  · intro hp k h1 h2
    exact h.written hp k h1 (by simp only at h2; omega)
  · rw [hst.dev] at hij
    exact h.clean i j (FwState.zero_dev_some hij)

/-- A fetched block that does not follow the run begins the next one. -/
theorem FwInv.part (h : FwInv c F size pos r.iblk r st) (hbs : 0 < c.blockSize)
    (hgo : c.headLen < c.size) {b : ℕ} (hlt : r.iblk < c.last) (hfetch : c.fetch r.iblk = .ok b)
    (hst : FwFetched c st st' r.iblk b)
    (hbelow : r.iblk + 1 ≤ c.ifileBlocks → st'.inodeSize = c.oldSize)
    (habove : c.ifileBlocks ≤ r.iblk + 1 →
      (st'.inodeSize + c.blockSize - 1) / c.blockSize = r.iblk + 1)
    (hpart : (r.take r.iblk b).start + r.count ≠ b) :
    0 < r.count ∧ FwInv c F size pos r.iblk (r.take r.iblk b) st' := by
  have hpos : 0 < r.count := by
    rcases Nat.eq_zero_or_pos r.count with h0 | hpos
    · refine absurd ?_ hpart
      simp only [FwRun.take]
      rw [(h.zero h0).1, if_pos rfl, h0, Nat.add_zero]
    · exact hpos
  refine ⟨hpos, hst.failures.trans h.failures, h.first, Nat.le_succ _, hlt, h.left, h.total,
    hst.fpos.trans h.fpos, hst.wcnt.trans h.wcnt, hst.fsize.trans h.fsize, hbelow, habove,
    hst.map_next hfetch h.fetched, fun h0 => absurd hpos (Nat.not_lt.2 (Nat.le_zero.2 h0)), h.rr,
    fun hp _ => ?_, h.head, h.written, fun hp j hj => h.dev_fetched hp hbs hgo hlt hfetch hst hj,
    fun i j hij => ?_⟩
  · obtain ⟨hne, hrun, hstart⟩ := h.run hp hpos
    simp only [FwRun.take]
    rw [if_neg hne]
    exact ⟨hne, hrun, hstart⟩
  · rw [hst.dev] at hij
    exact h.clean i j (FwState.zero_dev_some hij)

/-- A run is ready to be written: it reaches the last block, or the block
    behind it does not follow. -/
def FwRun.Ready (r : FwRun) (c : FwCall) (u : ℕ) : Prop :=
  u = r.iblk ∧ r.iblk = c.last ∨
    r.iblk = u + 1 ∧ r.fblk = c.blk u ∧ 0 < r.count ∧ (c.Placed → r.start + r.count ≠ r.fblk)

/-- A written run fits what is left. -/
theorem FwInv.run_le (h : FwInv c F size pos u r st) : r.count * c.blockSize ≤ size := by
  rw [h.left, Nat.add_mul]
  omega

/-- The byte `d` of a run that begins at `pos`. -/
theorem place_in_run {k d : ℕ} (hplace : c.fpos + pos = k * c.blockSize) :
    c.fpos + (pos + d) = (k + d / c.blockSize) * c.blockSize + d % c.blockSize := by
  rw [← Nat.add_assoc, hplace, Nat.add_mul, Nat.add_assoc, Nat.mul_comm (d / c.blockSize),
    Nat.div_add_mod]

/-- After a run has been written its bytes are in their places, and so are the
    bytes before. -/
theorem FwInv.dev_run (h : FwInv c F size pos u r st) (hp : c.Placed) (hbs : 0 < c.blockSize)
    (hgo : c.headLen < c.size) (hcount : 0 < r.count) {j : ℕ} (hj : j < pos + r.count * c.blockSize) :
    (st.writeAt c.env.dirty (r.start * c.blockSize) (r.count * c.blockSize) pos).dev (c.addr j) =
      some j := by
  have hplace := h.place hbs hgo
  have hrunle := h.run_le
  have htotal := h.total
  obtain ⟨-, hrun, -⟩ := h.run hp hcount
  -- byte `pos + d` of the run belongs `d` bytes behind the start of the run
  have haddr : ∀ d < r.count * c.blockSize, c.addr (pos + d) = r.start * c.blockSize + d := by
    intro d hd
    have hi : d / c.blockSize < r.count := Nat.div_lt_of_lt_mul (by rwa [Nat.mul_comm])
    rw [(FwCall.place_at (Nat.mod_lt d hbs) (place_in_run hplace)).2, hrun _ hi, Nat.add_mul,
      Nat.add_assoc, Nat.mul_comm (d / c.blockSize), Nat.div_add_mod]
  simp only [FwState.writeAt]
  by_cases hjpos : pos ≤ j
  · obtain ⟨d, rfl⟩ := Nat.exists_eq_add_of_le hjpos
    have hclean : c.env.dirty (pos + (r.start * c.blockSize + d - r.start * c.blockSize)) = false := by
      rw [Nat.add_sub_cancel_left]
      exact hp.clean _ (by omega)
    rw [haddr d (by omega), if_pos ⟨by omega, by omega, hclean⟩]
    congr 1
    omega
  · rw [if_neg]
    · exact h.dev hp j (by omega)
    · rintro ⟨h1, h2, -⟩
      obtain ⟨d, hd⟩ := Nat.exists_eq_add_of_le h1
      have hdlt : d < r.count * c.blockSize := by omega
      have heq := hp.inj j (by omega) (pos + d) (by omega) (hd.trans (haddr d hdlt).symm)
      omega

/-- Every run that begins in front of `u` has been written. -/
theorem FwInv.written_run (h : FwInv c F size pos u r st) (hp : c.Placed) (hbs : 0 < c.blockSize)
    (hgo : c.headLen < c.size) (hcount : 0 < r.count) (hwrite : c.env.write pos = .ok ()) {k : ℕ}
    (h1 : c.first ≤ k) (h2 : k < u) (hstart : c.RunStart k) :
    c.env.write (k * c.blockSize - c.fpos) = .ok () := by
  have hplace := h.place hbs hgo
  have hfirst := h.first
  obtain ⟨-, hrun, -⟩ := h.run hp hcount
  rcases Nat.lt_trichotomy (k + r.count) u with hlt | heq | hgt
  · exact h.written hp k h1 hlt hstart
  · rw [show k = u - r.count by omega, ← hplace, Nat.add_sub_cancel_left]
    exact hwrite
  · -- inside the run a block follows the one before
    refine absurd hstart ?_
    rintro (rfl | hne)
    · omega
    · obtain ⟨i, hi⟩ : ∃ i, k = u - r.count + (i + 1) := ⟨k - (u - r.count) - 1, by omega⟩
      have hk := hrun (i + 1) (by omega)
      have hk1 := hrun i (by omega)
      rw [hi, hk, show u - r.count + (i + 1) - 1 = u - r.count + i by omega, hk1] at hne
      omega

/-- What the loops leave behind. -/
structure FwEnd (c : FwCall) (F : List Errno) (pos : ℕ) (st : FwState) : Prop where
  failures : st.failures = F
  total : pos + c.rem = c.size
  fpos : st.fpos = c.fpos + pos
  wcnt : st.wcnt = c.wcnt.map fun _ => pos
  fsize : st.fsize = c.oldSize
  below : c.last ≤ c.ifileBlocks → st.inodeSize = c.oldSize
  above : c.ifileBlocks ≤ c.last → (st.inodeSize + c.blockSize - 1) / c.blockSize = c.last
  fetched : ∀ k, c.fpos / c.blockSize ≤ k → k < c.last → ∃ b, c.fetch k = .ok b ∧ st.map k = b
  head : c.headLen ≠ 0 → c.env.write 0 = .ok ()
  written : c.Placed → ∀ k, c.first ≤ k → k < c.last → c.RunStart k →
    c.env.write (k * c.blockSize - c.fpos) = .ok ()
  dev : c.Placed → ∀ j < pos, st.dev (c.addr j) = some j
  clean : ∀ i j, st.dev i = some j → c.env.dirty j = false

/-- The state behind the write of a run. -/
def FwState.ran (st : FwState) (c : FwCall) (r : FwRun) (pos : ℕ) : FwState :=
  (st.writeAt c.env.dirty (r.start * c.blockSize) (r.count * c.blockSize) pos).advance
    (r.count * c.blockSize)

theorem ran_wcnt (h : st.wcnt = c.wcnt.map fun _ => pos) :
    (st.ran c r pos).wcnt = c.wcnt.map fun _ => pos + r.count * c.blockSize := by
  show st.wcnt.map _ = _
  rw [h, Option.map_map]
  rfl

/-- The run in front of a block that does not follow it has been written. -/
theorem FwInv.wrote (h : FwInv c F size pos u r st) (hbs : 0 < c.blockSize)
    (hgo : c.headLen < c.size) (hcount : 0 < r.count) (hwrite : c.env.write pos = .ok ())
    (hu : r.iblk = u + 1) (hfblk : r.fblk = c.blk u)
    (hpart : c.Placed → r.start + r.count ≠ r.fblk) :
    FwInv c F (size - r.count * c.blockSize) (pos + r.count * c.blockSize) r.iblk
      { r with start := r.fblk, count := 1 } (st.ran c r pos) := by
  have hrunle := h.run_le
  have htotal := h.total
  have hfirst := h.first
  have hle := h.le
  refine ⟨h.failures, ?_, le_rfl, h.le, ?_, ?_, ?_, ran_wcnt h.wcnt, h.fsize, h.below, h.above,
    h.fetched, fun h0 => absurd h0 Nat.one_ne_zero, h.rr, fun hp _ => ?_, h.head,
    fun hp k h1 h2 hs => ?_, fun hp j hj => h.dev_run hp hbs hgo hcount hj,
    FwState.writeAt_clean h.clean _ _ _⟩
  · simp only
    omega
  · have hleft := h.left
    rw [Nat.add_mul] at hleft
    simp only
    rw [show c.last - r.iblk + 1 = c.last - u by omega]
    omega
  · omega
  · show st.fpos + _ = _
    rw [h.fpos, Nat.add_assoc]
  · simp only
    obtain ⟨hne, hrun, -⟩ := h.run hp hcount
    have hlast := hrun (r.count - 1) (by omega)
    rw [show u - r.count + (r.count - 1) = u - 1 by omega] at hlast
    refine ⟨?_, fun i hi => ?_, .inr ?_⟩
    · rw [hfblk]
      exact blk_ne_zero hp hbs hgo (by omega) (by omega)
    · obtain rfl : i = 0 := by omega
      rw [hu, Nat.add_sub_cancel, Nat.add_zero, Nat.add_zero, hfblk]
    · rw [hu, Nat.add_sub_cancel, hlast, ← hfblk]
      have hne' := hpart hp
      omega
  · exact h.written_run hp hbs hgo hcount hwrite h1 (by simp only at h2; omega) hs

end Loops

end Lwext4
