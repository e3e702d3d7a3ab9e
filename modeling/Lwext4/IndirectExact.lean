/-
  The indirect block map as a map (`ext4_fs.c`).

  `ext4_fs_set_inode_data_block_index` stores the number of a fresh top block
  in the inode before it fetches the block.  When that fails it frees the block
  but does not take the number back, so the inode refers to a free block
  (`set_lost`).  Everywhere else the three walks agree: `indirectMap_iff`.
-/
import Lwext4.IndirectMap

namespace Lwext4

open Lib.Radix

section Meets

variable {p : ℕ} {s s' : IndInode}

/-! ## The map -/

/-- What `ext4_fs_get_inode_dblk_idx` yields where every block can be read. -/
def IndInode.yields (p : ℕ) (s : IndInode) (i : ℕ) : Except Errno ℕ :=
  ext4FsGetInodeDblkIdx p (fun _ => .ok ()) s i

/-- The inode refers to a block, as an indirect block or as a mapped one. -/
def IndInode.Refers (p : ℕ) (s : IndInode) (b : ℕ) : Prop :=
  b ≠ 0 ∧ ((∃ i < inodeBlockLimits p 3, s.mapped p i = b) ∨
    ∃ r k q, k < indHeight r ∧ q < p ^ k ∧ s.nd p r k q = b)

/-- A call that sets `iblock` to `fblock`, or one that releases it. -/
inductive IndOp where
  | set (iblock fblock : ℕ)
  | release (iblock : ℕ)

/-- The logical block a call is about. -/
def IndOp.iblock : IndOp → ℕ
  | set iblock _ => iblock
  | release iblock => iblock

/-- The call treats the block map as a map: a successful setter changes the
    index it sets and no other, a failing one none, and then it frees nothing
    the inode refers to; a release leaves its index empty and the others alone,
    and frees the block that was mapped. -/
def MapMeets (p : ℕ) (s : IndInode) (env : IndEnv s.used) : IndOp → Prop
  | .set i b =>
    let out := ext4FsSetInodeDataBlockIndex p env i b s
    (out.1 = .ok () → out.2.1.yields p i = .ok b ∧
      ∀ j < inodeBlockLimits p 3, j ≠ i → out.2.1.yields p j = s.yields p j) ∧
    (out.1 ≠ .ok () → (∀ j < inodeBlockLimits p 3, out.2.1.yields p j = s.yields p j) ∧
      ∀ x ∈ out.2.2, ¬ out.2.1.Refers p x)
  | .release i =>
    let out := ext4FsReleaseInodeBlock p env i s
    out.2.1.yields p i = .ok 0 ∧
    (∀ j < inodeBlockLimits p 3, j ≠ i → out.2.1.yields p j = s.yields p j) ∧
    out.2.2 = if s.mapped p i = 0 then [] else [s.mapped p i]

/-- Where the calls do so.  Of the setter: a block it maps has a 32-bit number
    and the file is not empty, and if a new top block cannot be fetched, it
    cannot be freed again either and looks empty.  Of the release: the indirect
    blocks can be read and the block can be freed. -/
def MapSafe (p : ℕ) (s : IndInode) (env : IndEnv s.used) : IndOp → Prop
  | .set i b =>
    (env.Runs p s i → b = 0 ∨ s.size ≠ 0 ∧ b < 2 ^ 32) ∧
    (inodeDirectBlockCount ≤ i → ∀ c, env.TopLost s (indLevel p i) c → env.free ≠ .ok () ∧
      (s.size = 0 ∨ ∀ o < p ^ indLevel p i, node s.dev p c (indLevel p i) o = 0))
  | .release i =>
    s.mapped p i = 0 ∨ env.free = .ok () ∧
      (inodeDirectBlockCount ≤ i → ∀ m, 1 ≤ m → m ≤ indLevel p i → env.read m = .ok ())

theorem yields_eq (hp : 0 < p) {i : ℕ} (hlim : i < inodeBlockLimits p 3) :
    s.yields p i = .ok (if s.size = 0 then 0 else s.mapped p i) := getDblk_eq hp hlim

/-- Every place of a tree is a logical block. -/
theorem place_exists {l o : ℕ} (hl1 : 1 ≤ l) (hl3 : l ≤ 3) (ho : o < p ^ l) :
    ∃ j, inodeDirectBlockCount ≤ j ∧ j < inodeBlockLimits p 3 ∧ indLevel p j = l ∧
      j - inodeBlockLimits p (l - 1) = o := by
  have h0 : inodeBlockLimits p 0 = inodeDirectBlockCount := rfl
  have h1 := inodeBlockLimits_succ (p := p) 0
  have h2 := inodeBlockLimits_succ (p := p) 1
  have h3 := inodeBlockLimits_succ (p := p) 2
  simp only [Nat.zero_add, Nat.reduceAdd] at h1 h2 h3
  obtain rfl | rfl | rfl : l = 1 ∨ l = 2 ∨ l = 3 := by omega
  · refine ⟨inodeBlockLimits p 0 + o, by omega, by omega, ?_, by simp⟩
    rw [indLevel, if_pos (by omega)]
  · refine ⟨inodeBlockLimits p 1 + o, by omega, by omega, ?_, by simp⟩
    rw [indLevel, if_neg (by omega), if_pos (by omega)]
  · refine ⟨inodeBlockLimits p 2 + o, by omega, by omega, ?_, by simp⟩
    rw [indLevel, if_neg (by omega), if_neg (by omega), if_pos (by omega)]

/-! ## A lost top block -/

theorem lost_root {l b : ℕ} (hl : 1 ≤ l) (hlt : b < 2 ^ 32) (r : ℕ) :
    (s.lost l b).root r = if r = l then b else s.root r := by
  simp only [IndInode.root, IndInode.lost, IndInode.setIndirect, IndInode.take,
    inodeDirectBlockCount, u32_of_lt hlt]
  split_ifs with h
  · subst h
    rw [show r - 1 + 12 = 11 + r by omega, Function.update_self]
  · rw [Function.update_of_ne (by omega)]

/-- What is mapped once a top block has been lost: what the block holds. -/
theorem lost_mapped {l b : ℕ} (hl : 1 ≤ l) (hlt : b < 2 ^ 32) (j : ℕ) :
    (s.lost l b).mapped p j = if inodeDirectBlockCount ≤ j ∧ indLevel p j = l then
      node s.dev p b l (j - inodeBlockLimits p (l - 1)) else s.mapped p j := by
  unfold IndInode.mapped
  by_cases hdirect : j < inodeDirectBlockCount
  · rw [if_pos hdirect, if_pos hdirect, if_neg (by omega)]
    rw [inodeDirectBlockCount] at hdirect
    exact Function.update_of_ne (by rw [inodeDirectBlockCount]; omega) ..
  · rw [if_neg hdirect, if_neg hdirect, IndInode.nd, lost_root hl hlt]
    by_cases hlj : indLevel p j = l
    · rw [if_pos hlj, if_pos ⟨Nat.le_of_not_lt hdirect, hlj⟩, hlj]
      rfl
    · rw [if_neg hlj, if_neg (fun h => hlj h.2)]
      rfl

/-- The setter when it loses a top block. -/
theorem set_lost {env : IndEnv s.used} {i fblock c : ℕ} (hi : inodeDirectBlockCount ≤ i)
    (hlim : i < inodeBlockLimits p 3) (h : env.TopLost s (indLevel p i) c) :
    ∃ rc, ext4FsSetInodeDataBlockIndex p env i fblock s =
      (.error rc, ((s.lost (indLevel p i) c).freeBlock env.free c).2) := by
  obtain ⟨hl1, -, -, -⟩ := indLevel_spec hi hlim
  obtain ⟨hroot, halloc, hnoread⟩ := h
  rcases hno : env.noread (indLevel p i) with rc | u
  · refine ⟨rc, ?_⟩
    rw [ext4FsSetInodeDataBlockIndex, if_neg (Nat.not_lt.2 hi)]
    simp only
    rw [if_neg (by omega), setTop, indirect_eq hl1, if_neg (not_not.2 hroot), halloc]
    simp only [hno]
    rfl
  · exact absurd hno hnoread

/-- A lost top block leaves the map alone if it looks empty. -/
theorem lost_yields_iff (hp : 0 < p) {l c : ℕ} (hl1 : 1 ≤ l) (hl3 : l ≤ 3) (hlt : c < 2 ^ 32)
    (hroot : s.root l = 0) :
    (∀ j < inodeBlockLimits p 3, (s.lost l c).yields p j = s.yields p j) ↔
      s.size = 0 ∨ ∀ o < p ^ l, node s.dev p c l o = 0 := by
  have hsame : (s.lost l c).size = s.size := rfl
  have hzero : ∀ j < inodeBlockLimits p 3, inodeDirectBlockCount ≤ j → indLevel p j = l →
      s.mapped p j = 0 := by
    intro j hj hdirect hlj
    rw [IndInode.mapped, if_neg (Nat.not_lt.2 hdirect), hlj, IndInode.nd]
    have h0 : node s.dev p (s.root l) (0 + l) (j - inodeBlockLimits p (l - 1)) = 0 :=
      node_below_zero hroot
    rwa [Nat.zero_add] at h0
  constructor
  · intro h
    by_cases hsize : s.size = 0
    · exact .inl hsize
    · refine .inr fun o ho => ?_
      obtain ⟨j, hdirect, hj, hlj, rfl⟩ := place_exists hl1 hl3 ho
      have hy := h j hj
      rw [yields_eq hp hj, yields_eq hp hj, hsame, if_neg hsize, if_neg hsize,
        hzero j hj hdirect hlj, lost_mapped hl1 hlt, if_pos ⟨hdirect, hlj⟩] at hy
      exact Except.ok.inj hy
  · intro h j hj
    rw [yields_eq hp hj, yields_eq hp hj, hsame]
    rcases h with h | h
    · rw [if_pos h, if_pos h]
    · rw [lost_mapped hl1 hlt]
      by_cases hhit : inodeDirectBlockCount ≤ j ∧ indLevel p j = l
      · have ho := (indLevel_spec hhit.1 hj).2.2.2
        rw [hhit.2] at ho
        rw [if_pos hhit, hzero j hj hhit.1 hhit.2, h _ ho]
      · rw [if_neg hhit]

theorem u32_eq_iff {b : ℕ} : u32 b = b ↔ b < 2 ^ 32 := by
  constructor
  · intro h
    rw [← h]
    exact u32_lt b
  · exact u32_of_lt

theorem set_meets_iff (hp : 0 < p) (hs : IndSound p s) {env : IndEnv s.used} (henv : env.Plain)
    {i : ℕ} (hlim : i < inodeBlockLimits p 3) (b : ℕ) :
    MapMeets p s env (.set i b) ↔ MapSafe p s env (.set i b) := by
  by_cases hlost : inodeDirectBlockCount ≤ i ∧ ∃ c, env.TopLost s (indLevel p i) c
  · obtain ⟨hi, c, hc⟩ := hlost
    obtain ⟨hl1, hl3, -, -⟩ := indLevel_spec hi hlim
    obtain ⟨rc, hout⟩ : ∃ rc, ext4FsSetInodeDataBlockIndex p env i b s = (.error rc, _) :=
      set_lost hi hlim hc
    have hlt := henv.fits _ c hc.2.1
    have hnot : ¬ env.Runs p s i := by
      intro h
      exact hc.2.2 ((h.resolve_left (Nat.not_lt.2 hi)).1 hc.1).2
    have hunique : ∀ c', env.TopLost s (indLevel p i) c' → c' = c := by
      intro c' hc'
      exact Except.ok.inj (hc'.2.1.symm.trans hc.2.1)
    have hmapped := @lost_yields_iff p s hp _ _ hl1 hl3 hlt hc.1
    simp only [MapMeets, MapSafe, hout]
    rcases hfree : env.free with rc' | u
    · have hstay : (s.lost (indLevel p i) c).freeBlock (.error rc') c =
        (.error rc', s.lost (indLevel p i) c, []) := rfl
      simp only [hstay, List.not_mem_nil, false_imp_iff, implies_true, and_true, hmapped]
      constructor
      · rintro ⟨-, h⟩
        exact ⟨fun hr => absurd hr hnot, fun _ c' hc' => ⟨nofun, by rw [hunique c' hc']; exact h nofun⟩⟩
      · rintro ⟨-, h⟩
        exact ⟨nofun, fun _ => (h hi c hc).2⟩
    · constructor
      · rintro ⟨-, h⟩
        refine absurd ?_ ((h nofun).2 c List.mem_cons_self)
        refine ⟨(env.fresh _ c hc.2.1).1, .inr ⟨indLevel p i, 0, 0, ?_, by simp, ?_⟩⟩
        · rw [indHeight_of_le hl3]
          exact hl1
        · exact (lost_root hl1 hlt (indLevel p i)).trans (if_pos rfl)
      · rintro ⟨-, h⟩
        exact absurd rfl (h hi c hc).1
  · have hnone : inodeDirectBlockCount ≤ i → ∀ c, ¬ env.TopLost s (indLevel p i) c :=
      fun hi c hc => hlost ⟨hi, c, hc⟩
    have hdone := set_spec hp henv hs rfl hlim b hnone
    have hkept : (ext4FsSetInodeDataBlockIndex p env i b s).1 ≠ .ok () →
        ∀ j < inodeBlockLimits p 3,
          (ext4FsSetInodeDataBlockIndex p env i b s).2.1.yields p j = s.yields p j := by
      intro hne j hj
      rw [yields_eq hp hj, yields_eq hp hj, hdone.size, hdone.kept hne j hj]
    have hset : env.Runs p s i →
        ((ext4FsSetInodeDataBlockIndex p env i b s).2.1.yields p i = .ok b ↔
          b = 0 ∨ s.size ≠ 0 ∧ b < 2 ^ 32) := by
      intro hr
      rw [yields_eq hp hlim, hdone.size, hdone.done (hdone.ok_iff.2 hr) i hlim, if_pos rfl,
        Except.ok.injEq, ← u32_eq_iff]
      split_ifs with hsize
      · simp [hsize, eq_comm]
      · constructor
        · exact fun h => .inr ⟨hsize, h⟩
        · rintro (rfl | h)
          · exact u32_of_lt (by decide)
          · exact h.2
    simp only [MapMeets, MapSafe]
    rw [hdone.ok_iff]
    constructor
    · rintro ⟨h, -⟩
      exact ⟨fun hr => (hset hr).1 (h hr).1, fun hi c hc => absurd hc (hnone hi c)⟩
    · rintro ⟨h, -⟩
      refine ⟨fun hr => ⟨(hset hr).2 (h hr), fun j hj hji => ?_⟩, fun hne => ⟨?_, ?_⟩⟩
      · rw [yields_eq hp hj, yields_eq hp hj, hdone.size, hdone.done (hdone.ok_iff.2 hr) j hj,
          if_neg hji]
      · exact hkept hne
      · rw [hdone.freed]
        exact fun x hx => absurd hx List.not_mem_nil

/-! ## The release -/

/-- The end of a release: the block that was mapped is freed. -/
theorem freeBlock_meets (hp : 0 < p) {free : Except Errno Unit} {i v : ℕ}
    (hsize : s'.size = s.size) (hlim : i < inodeBlockLimits p 3)
    (hmap : ∀ j < inodeBlockLimits p 3, s'.mapped p j = if j = i then 0 else s.mapped p j) :
    ((s'.freeBlock free v).2.1.yields p i = .ok 0 ∧
      (∀ j < inodeBlockLimits p 3, j ≠ i → (s'.freeBlock free v).2.1.yields p j = s.yields p j) ∧
      (s'.freeBlock free v).2.2 = [v]) ↔ free = .ok () := by
  rcases free with rc | u
  · constructor
    · rintro ⟨-, -, h⟩
      exact absurd h.symm (List.cons_ne_nil _ _)
    · exact nofun
  · have hsame : ∀ j, (s'.freeBlock (.ok u) v).2.1.mapped p j = s'.mapped p j := fun _ => rfl
    refine ⟨fun _ => rfl, fun _ => ⟨?_, fun j hj hji => ?_, rfl⟩⟩
    · rw [yields_eq hp hlim, hsame, hmap i hlim, if_pos rfl, ite_self]
    · rw [yields_eq hp hj, yields_eq hp hj, hsame, hmap j hj, if_neg hji, ← hsize]
      rfl

/-- How a release in a tree ends: with an error on the way, or the place is
    empty and the block that was mapped goes to the allocator. -/
theorem release_tree (hp : 0 < p) (hs : IndSound p s) {env : IndEnv s.used} {i : ℕ}
    (hi : inodeDirectBlockCount ≤ i) (hlim : i < inodeBlockLimits p 3) :
    ∃ s₁ : IndInode, s₁.size = s.size ∧ IndSound p s₁ ∧
      (∀ ⦃r k q⦄, k < indHeight r → q < p ^ k → s₁.nd p r k q = s.nd p r k q) ∧
      ((∃ rc, ext4FsReleaseInodeBlock p env i s = (.error rc, s₁, []) ∧
          (∀ j < inodeBlockLimits p 3, s₁.mapped p j = s.mapped p j) ∧
          (s.mapped p i ≠ 0 → ¬ ∀ m, 1 ≤ m → m ≤ indLevel p i → env.read m = .ok ())) ∨
        (ext4FsReleaseInodeBlock p env i s = if s.mapped p i = 0 then (.ok (), s₁, [])
            else s₁.freeBlock env.free (s.mapped p i)) ∧
          (∀ j < inodeBlockLimits p 3, s₁.mapped p j = if j = i then 0 else s.mapped p j) ∧
          (s.mapped p i ≠ 0 → ∀ m, 1 ≤ m → m ≤ indLevel p i → env.read m = .ok ())) := by
  obtain ⟨hl1, hl3, -, ho⟩ := indLevel_spec hi hlim
  have hi' := Nat.not_lt.2 hi
  have hmapped : s.mapped p i = s.nd p (indLevel p i) (indLevel p i)
      (i - inodeBlockLimits p (indLevel p i - 1)) := by rw [IndInode.mapped, if_neg hi']
  have hrun := @releaseLoop_spec p s _ env hp hs _ _ hl3 ho _ hl1 le_rfl
  rw [Nat.sub_self, Nat.div_eq_of_lt ho, Nat.mod_eq_of_lt ho] at hrun
  have hroot : s.nd p (indLevel p i) 0 0 = s.indirect (indLevel p i - 1) := (indirect_eq hl1).symm
  rw [hroot] at hrun
  rw [ext4FsReleaseInodeBlock, if_neg hi']
  simp only
  rw [if_neg (by omega)]
  generalize releaseLoop p env (indLevel p i) (s.indirect (indLevel p i - 1))
    (i - inodeBlockLimits p (indLevel p i - 1)) s = out at hrun ⊢
  rcases out with ⟨rc | v, s₁⟩
  · refine ⟨s₁, hrun.size, hrun.sound, hrun.inner, .inl ⟨rc, rfl, fun j hj => ?_, fun hne hread => ?_⟩⟩
    · exact mapped_congr (fun _ _ => by rw [hrun.blocks]) (hrun.kept rc rfl) hj
    · rw [hmapped] at hne
      obtain ⟨v, hv⟩ := (hrun.ok_iff hne).2 hread
      cases hv
  · obtain ⟨hv, hnd⟩ := hrun.done v rfl
    rw [← hmapped] at hv
    subst hv
    refine ⟨s₁, hrun.size, hrun.sound, hrun.inner, .inr ⟨rfl, fun j hj => ?_, fun hne => ?_⟩⟩
    · exact mapped_of_nd hi hlim (fun _ _ => by rw [hrun.blocks]) hnd hj
    · rw [hmapped] at hne
      exact (hrun.ok_iff hne).1 ⟨_, rfl⟩

theorem release_meets_iff (hp : 0 < p) (hs : IndSound p s) {env : IndEnv s.used} {i : ℕ}
    (hlim : i < inodeBlockLimits p 3) :
    MapMeets p s env (.release i) ↔ MapSafe p s env (.release i) := by
  simp only [MapMeets, MapSafe]
  by_cases hi : i < inodeDirectBlockCount
  · have hmapped : s.mapped p i = s.blocks i := by rw [IndInode.mapped, if_pos hi]
    rw [ext4FsReleaseInodeBlock, if_pos hi, hmapped]
    simp only
    by_cases h0 : s.blocks i = 0
    · rw [if_pos h0, if_pos h0]
      refine ⟨fun _ => .inl h0, fun _ => ⟨?_, fun _ _ _ => rfl, rfl⟩⟩
      rw [yields_eq hp hlim, hmapped, h0, ite_self]
    · rw [if_neg h0, if_neg h0]
      have hset := @set_direct p s _ env hs i hi 0
      rw [ext4FsSetInodeDataBlockIndex, if_pos hi] at hset
      have hput := hset.done rfl
      simp only [u32_of_lt (show 0 < 2 ^ 32 by decide)] at hput
      rw [freeBlock_meets hp (by rfl) hlim hput]
      constructor
      · exact fun h => .inr ⟨h, fun hge => absurd hi (Nat.not_lt.2 hge)⟩
      · exact fun h => (h.resolve_left h0).1
  · have hi' := Nat.le_of_not_lt hi
    obtain ⟨s₁, hsize, -, -, ⟨rc, hout, hmap, hread⟩ | ⟨hout, hmap, hread⟩⟩ :=
      @release_tree p s hp hs env i hi' hlim
    · rw [hout]
      by_cases h0 : s.mapped p i = 0
      · rw [if_pos h0]
        refine ⟨fun _ => .inl h0, fun _ => ⟨?_, fun j hj _ => ?_, rfl⟩⟩
        · rw [yields_eq hp hlim, hmap i hlim, h0, ite_self]
        · rw [yields_eq hp hj, yields_eq hp hj, hmap j hj, hsize]
      · rw [if_neg h0]
        constructor
        · rintro ⟨-, -, h⟩
          exact absurd h.symm (List.cons_ne_nil _ _)
        · intro h
          exact absurd ((h.resolve_left h0).2 hi') (hread h0)
    · rw [hout]
      by_cases h0 : s.mapped p i = 0
      · rw [if_pos h0, if_pos h0]
        refine ⟨fun _ => .inl h0, fun _ => ⟨?_, fun j hj hji => ?_, rfl⟩⟩
        · rw [yields_eq hp hlim, hmap i hlim, if_pos rfl, ite_self]
        · rw [yields_eq hp hj, yields_eq hp hj, hmap j hj, if_neg hji, hsize]
      · rw [if_neg h0, if_neg h0, freeBlock_meets hp hsize hlim hmap]
        constructor
        · exact fun h => .inr ⟨h, fun _ => hread h0⟩
        · exact fun h => (h.resolve_left h0).1

/-! ## The trees stay sound -/

theorem IndSound.empty {blocks : ℕ → ℕ} (h : ∀ r, blocks r = 0) (size : ℕ) (dev : ℕ → ℕ → ℕ)
    (used : ℕ → Bool) : IndSound p ⟨size, blocks, dev, used⟩ := by
  have hnd : ∀ r k q, node dev p (blocks (11 + r)) k q = 0 := by
    intro r k q
    rw [h, ← Nat.zero_add k]
    exact node_below_zero rfl
  refine ⟨fun r k q _ _ _ _ _ _ _ hne => absurd (hnd r k q) hne, fun r k q _ _ hne => ?_⟩
  exact absurd (hnd r k q) hne

/-- Freeing a block that is not an indirect one. -/
theorem IndSound.free (h : IndSound p s) {v : ℕ} (hv : Unused s.dev p s.root indHeight v) :
    IndSound p { s with used := Function.update s.used v false } where
  proper := h.proper
  used _ _ _ hk hq hne := (Function.update_of_ne (hv hk hq) ..).trans (h.used hk hq hne)

theorem IndSound.freeBlock (h : IndSound p s) {v : ℕ} (hv : Unused s.dev p s.root indHeight v)
    (free : Except Errno Unit) : IndSound p (s.freeBlock free v).2.1 := by
  cases free with
  | error rc => exact h
  | ok u => exact h.free hv

/-- The setter keeps the trees sound, unless it loses a top block. -/
theorem IndSound.set (hp : 0 < p) (hs : IndSound p s) {env : IndEnv s.used} (henv : env.Plain)
    {i : ℕ} (hlim : i < inodeBlockLimits p 3) (fblock : ℕ)
    (hlost : inodeDirectBlockCount ≤ i → ∀ b, ¬ env.TopLost s (indLevel p i) b) :
    IndSound p (ext4FsSetInodeDataBlockIndex p env i fblock s).2.1 :=
  (set_spec hp henv hs rfl hlim fblock hlost).sound

/-- The release keeps the trees sound when what it frees is not one of their
    blocks. -/
theorem IndSound.release (hp : 0 < p) (hs : IndSound p s) {env : IndEnv s.used} {i : ℕ}
    (hlim : i < inodeBlockLimits p 3) (hv : Unused s.dev p s.root indHeight (s.mapped p i)) :
    IndSound p (ext4FsReleaseInodeBlock p env i s).2.1 := by
  by_cases hi : i < inodeDirectBlockCount
  · have hmapped : s.mapped p i = s.blocks i := by rw [IndInode.mapped, if_pos hi]
    have hset := (@set_direct p s _ env hs i hi 0).sound
    rw [ext4FsSetInodeDataBlockIndex, if_pos hi, u32_of_lt (show 0 < 2 ^ 32 by decide)] at hset
    rw [ext4FsReleaseInodeBlock, if_pos hi]
    simp only
    split_ifs
    · exact hs
    · refine hset.freeBlock (fun r k q hk hq heq => ?_) _
      rw [hmapped] at hv
      exact hv hk hq ((nd_setDirect hi 0 (indHeight_pos hk) k q).symm.trans heq)
  · have hi' := Nat.le_of_not_lt hi
    obtain ⟨s₁, -, hsound, hinner, ⟨rc, hout, -⟩ | ⟨hout, -⟩⟩ :=
      @release_tree p s hp hs env i hi' hlim
    · rw [hout]
      exact hsound
    · rw [hout]
      split_ifs
      · exact hsound
      · exact hsound.freeBlock (fun r k q hk hq heq => hv hk hq ((hinner hk hq).symm.trans heq)) _

/-- `blocks_id` of `ext4_fs_init`. -/
def blocksId (blockSize : ℕ) : ℕ := blockSize / 4

/-- **The indirect block map is a map** exactly where the calls are safe: for
    an inode whose indirect blocks are all different and allocated, as the
    calls keep it (`IndSound.set`, `IndSound.release`). -/
theorem indirectMap_iff {blockSize : ℕ} (hbs : 4 ≤ blockSize) (hs : IndSound (blocksId blockSize) s)
    {env : IndEnv s.used} (henv : env.Plain) (op : IndOp)
    (hlim : op.iblock < inodeBlockLimits (blocksId blockSize) 3) :
    MapMeets (blocksId blockSize) s env op ↔ MapSafe (blocksId blockSize) s env op := by
  have hp : 0 < blocksId blockSize := Nat.div_pos hbs (by decide)
  cases op with
  | set i b => exact set_meets_iff hp hs henv hlim b
  | release i => exact release_meets_iff hp hs hlim

end Meets

/-- An inode that maps nothing. -/
def emptyInode : IndInode := ⟨1, fun _ => 0, fun _ _ => 0, fun _ => false⟩

/-- A filesystem that hands out block `100 + l` on level `l`; `noread` says how
    it fetches it. -/
def quietEnv (noread : Except Errno Unit) : IndEnv emptyInode.used where
  read _ := .ok ()
  alloc l := if l ≤ 3 then .ok (100 + l) else .error Errno.ENOSPC
  noread _ := noread
  dirty _ := true
  free := .ok ()
  fresh l b h := by
    split_ifs at h
    obtain rfl := Except.ok.inj h
    exact ⟨by omega, rfl⟩
  distinct l l' b h h' := by
    split_ifs at h h'
    have h1 := Except.ok.inj h
    have h2 := Except.ok.inj h'
    omega

theorem emptyInode_sound : IndSound (blocksId 1024) emptyInode := IndSound.empty (fun _ => rfl) ..

theorem quietEnv_plain (noread : Except Errno Unit) : (quietEnv noread).Plain where
  fits l b h := by
    simp only [quietEnv] at h
    split_ifs at h
    have h1 := Except.ok.inj h
    omega
  dirty _ := rfl

theorem map_meets_first : IndSound (blocksId 1024) emptyInode ∧ (quietEnv (.ok ())).Plain ∧
    MapMeets (blocksId 1024) emptyInode (quietEnv (.ok ())) (.set 12 7) := by
  refine ⟨emptyInode_sound, quietEnv_plain _, (indirectMap_iff (by decide) emptyInode_sound
    (quietEnv_plain _) (.set 12 7) (by decide)).2 ⟨fun _ => .inr ⟨by decide, by decide⟩, ?_⟩⟩
  exact fun _ c hc => absurd rfl hc.2.2

/-- When the first indirect block cannot be fetched, it is freed, and the inode
    refers to it. -/
theorem map_lost : IndSound (blocksId 1024) emptyInode ∧
    (quietEnv (.error Errno.ENOMEM)).Plain ∧
    ¬ MapMeets (blocksId 1024) emptyInode (quietEnv (.error Errno.ENOMEM)) (.set 12 7) := by
  refine ⟨emptyInode_sound, quietEnv_plain _, fun h => ?_⟩
  obtain ⟨-, hsafe⟩ := (set_meets_iff (by decide) emptyInode_sound (quietEnv_plain _) (by decide) 7).1 h
  exact (hsafe (by decide) 101 ⟨rfl, rfl, nofun⟩).1 rfl

end Lwext4
