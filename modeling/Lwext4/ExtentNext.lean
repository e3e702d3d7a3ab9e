/-
  `ext4_ext_next_allocated_block`: the mapped block after a hole.

  The search reads the entry after the one the path is at, in the leaf and then
  in the index nodes above it.  That is the next mapped block (`IsNextMapped`)
  unless the path is at an extent that is itself after the hole, or the key of
  an index entry lies below the first block mapped under it.

  Main result: `nextAllocatedBlock_iff`.
-/
import Lwext4.ExtentBlocks

namespace Lwext4

open Lib

/-- `EXT_MAX_BLOCKS`. -/
def extMaxBlocks : ℕ := 2 ^ 32 - 1

/-- The loop of `ext4_ext_next_allocated_block` over the index levels, from the
    bottom up. -/
def Ctx.nextIndex : {d D : ℕ} → Ctx d D → ℕ
  | _, _, nil => extMaxBlocks
  | _, _, cons l up =>
    match l.right with
    | ix :: _ => ix.firstBlock
    | [] => up.nextIndex

/-- `ext4_ext_next_allocated_block`. -/
def extNextAllocatedBlock {D : ℕ} (p : Path D) : ℕ :=
  match p.leaf with
  | .none => if D = 0 then extMaxBlocks else p.ctx.nextIndex
  | .at _ _ (e :: _) => e.firstBlock
  | .at _ _ [] => p.ctx.nextIndex

/-- What `ext4_new_meta_blocks` leaves in `*count`: it allocates one block. -/
def extNewMetaBlocksCount (_count : ℕ) : ℕ := 1

/-- The extent `ext4_extent_get_blocks` inserts for a hole at `iblock`, once
    block `newblock` is allocated for it. -/
def extHoleExtent {D : ℕ} (p : Path D) (iblock maxBlocks newblock : ℕ) : Extent :=
  let next := extNextAllocatedBlock p
  let allocated := sub32 next iblock
  let allocated := if maxBlocks < allocated then maxBlocks else allocated
  { firstBlock := iblock, blockCount := toLe16 (extNewMetaBlocksCount allocated),
    start := newblock }

/-- The extent inserted is the one `extGetHole` inserts. -/
theorem extGetHole_eq {D : ℕ} (p : Path D) (iblock maxBlocks fuel : ℕ) :
    extGetHole iblock maxBlocks true fuel D p = (do
      let newblock ← extNewMetaBlock
      onError (extInsertExtent (extHoleExtent p iblock maxBlocks newblock) false fuel D p)
        (extFreeBlocks newblock 1)
      pure (newblock, min 1 maxBlocks)) := rfl

/-- `n` is the least mapped block after `b`, `EXT_MAX_BLOCKS` if there is
    none. -/
def IsNextMapped (m : ℕ → Option (ℕ × Bool)) (b n : ℕ) : Prop :=
  IsLeast {x | b < x ∧ (m x).isSome} n ∨ (∀ x, b < x → m x = none) ∧ n = extMaxBlocks

theorem IsNextMapped.unique {m : ℕ → Option (ℕ × Bool)} {b n n' : ℕ} (h : IsNextMapped m b n)
    (h' : IsNextMapped m b n') : n = n' := by
  rcases h with h | ⟨hnone, rfl⟩ <;> rcases h' with h' | ⟨hnone', rfl⟩
  · exact h.unique h'
  · have := h.1.2
    rw [hnone' n h.1.1] at this
    cases this
  · have := h'.1.2
    rw [hnone n' h'.1.1] at this
    cases this
  · rfl

/-- When the search is exact: the leaf the walk ends at does not start after
    `b`, and when nothing in that leaf starts after `b`, the key of the entry
    after it is mapped.  `EXT_MAX_BLOCKS` is read for itself. -/
def NextExact (t : Tree) (b : ℕ) : Prop :=
  ∀ lf, t.root.leafAt b = some lf →
    (top Extent.firstBlock b lf.exts ≤ b ∨
      top Extent.firstBlock b lf.exts = extMaxBlocks) ∧
    ((∀ e ∈ lf.exts, e.firstBlock ≤ b) → t.root.ceilAt b (2 ^ 32) < extMaxBlocks →
      (t.map (t.root.ceilAt b (2 ^ 32))).isSome)

section Next

variable {cap D b : ℕ} {p : Path D}

/-- The key the loop over the index levels ends with. -/
theorem Ctx.Ok.nextIndex_eq : ∀ {d D : ℕ} {c : Ctx d D}, c.Ok cap →
    c.nextIndex = min c.ceil extMaxBlocks
  | _, _, nil, _ => rfl
  | _, _, cons l up, h => by
    obtain ⟨hup, -, -, -, -, -, -, hright⟩ := h
    unfold nextIndex ceil
    rcases hr : l.right with - | ⟨ix, right⟩
    · exact hup.nextIndex_eq
    · rw [hr] at hright
      have hkey := (hright.key_lt entry_lt ix (List.mem_cons_self ..)).2
      have hceil := hup.ceil_le
      have hmax : extMaxBlocks = 2 ^ 32 - 1 := rfl
      show ix.firstBlock = min ix.firstBlock extMaxBlocks
      omega

/-- With the extents at or before `b` in `as`, the next mapped block is the
    first one of `bs`. -/
theorem isNextMapped_append {as bs : List Extent}
    (has : ∀ x, b < x → mapOf as x = none)
    (hbs : Chain Extent.firstBlock Extent.Ok (2 ^ 32) bs)
    (hgt : b < top Extent.firstBlock (2 ^ 32) bs) :
    IsNextMapped (mapOf (as ++ bs)) b (top Extent.firstBlock extMaxBlocks bs) := by
  have hmap : ∀ x, b < x → mapOf (as ++ bs) x = mapOf bs x := by
    intro x hx
    rw [mapOf_append, has x hx, Option.none_or]
  rcases bs with - | ⟨e, es⟩
  · refine .inr ⟨fun x hx => ?_, rfl⟩
    rw [hmap x hx, mapOf_nil]
  · refine .inl ⟨⟨hgt, ?_⟩, fun x hx => ?_⟩
    · show (mapOf (as ++ e :: es) e.firstBlock).isSome = true
      rw [hmap e.firstBlock hgt, mapOf_cons, if_pos hbs.1.covers_first]
      rfl
    · by_contra hlt
      have hnone := mapOf_none_of_lt hbs (Nat.lt_of_not_le hlt)
      have := hx.2
      rw [hmap x hx.1, hnone] at this
      cases this

/-- What lies left of the path maps nothing after `b`. -/
theorem Path.Fits.before_none (hp : p.Fits cap b) : ∀ x, b ≤ x → mapOf p.ctx.before x = none :=
  fun _ hx => mapOf_none_of_chain (hp.floor_le.trans hx) hp.ctx.before_chain

/-- The key after the leaf is the next mapped block only if it is mapped. -/
theorem isNextMapped_ceil_iff {as : List Extent} (hp : p.Fits cap b)
    (has : ∀ x, b < x → mapOf as x = none) :
    IsNextMapped (mapOf (as ++ p.ctx.after)) b (min p.ctx.ceil extMaxBlocks) ↔
      (p.ctx.ceil < extMaxBlocks → (mapOf (as ++ p.ctx.after) p.ctx.ceil).isSome) := by
  obtain ⟨hafter, hle⟩ := hp.ctx.after_chain
  have hgt := hp.lt_ceil
  have hnext := isNextMapped_append has hafter (hgt.trans_le hle)
  constructor
  · intro h hceil
    rw [Nat.min_eq_left hceil.le] at h
    rcases h with h | ⟨-, h⟩
    · exact h.1.2
    · exact absurd h hceil.ne
  · intro h
    by_cases hceil : p.ctx.ceil < extMaxBlocks
    · -- nothing right of the path is mapped below the key
      rw [Nat.min_eq_left hceil.le]
      refine .inl ⟨⟨hgt, h hceil⟩, fun x hx => ?_⟩
      by_contra hlt
      have hnone := mapOf_none_of_lt hafter (Nat.lt_of_lt_of_le (Nat.lt_of_not_le hlt) hle)
      have := hx.2
      rw [mapOf_append, has x hx.1, hnone] at this
      cases this
    · rw [Nat.min_eq_right (Nat.le_of_not_lt hceil)]
      rcases ha : p.ctx.after with - | ⟨e, es⟩
      · rw [ha] at hnext
        exact hnext
      · have hkey := (hafter.key_lt extent_lt e (by rw [ha]; exact List.mem_cons_self ..)).2
        rw [ha, top_cons] at hnext hle
        have hmax : extMaxBlocks = 2 ^ 32 - 1 := rfl
        rwa [show e.firstBlock = extMaxBlocks by omega] at hnext

/-- The extents up to the cursor map nothing after a block that is unmapped. -/
theorem left_none (hp : p.Fits cap b) {left right : List Extent} {ex : Extent}
    (hl : p.leaf = .at left ex right) (hle : ex.firstBlock ≤ b) (hnot : ex.covers b = false) :
    ∀ x, b < x → mapOf (p.ctx.before ++ (left ++ [ex])) x = none := by
  intro x hx
  obtain ⟨-, -, hleft, -, -, -, -⟩ := hp.leaf_ok hl
  have hend : ¬(ex.firstBlock ≤ x ∧ x < ex.firstBlock + ex.getActualLen) := by
    rw [Bool.eq_false_iff, Ne, Extent.covers_iff] at hnot
    omega
  rw [← Extent.covers_iff] at hend
  rw [mapOf_append, hp.before_none x hx.le, Option.none_or, mapOf_append,
    mapOf_none_of_chain (hle.trans hx.le) hleft, Option.none_or, mapOf_cons, if_neg hend, mapOf_nil]

/-- **The next mapped block**, read off the path: the extent at the cursor when
    it starts after `b`, else what comes after the cursor. -/
theorem Path.Fits.isNext (hp : p.Fits cap b) {left right : List Extent} {ex : Extent}
    (hl : p.leaf = .at left ex right) (hnot : ex.covers b = false) :
    (b < ex.firstBlock → IsNextMapped p.plug.map b ex.firstBlock) ∧
    (ex.firstBlock ≤ b → ∀ e es, right = e :: es → IsNextMapped p.plug.map b e.firstBlock) := by
  obtain ⟨-, -, hleft, hex, hright, hcur, hgt⟩ := hp.leaf_ok hl
  obtain ⟨hafter, hle⟩ := hp.ctx.after_chain
  have hmap : p.plug.map = mapOf (p.ctx.before ++ (left ++ ex :: right) ++ p.ctx.after) := by
    funext x
    rw [plug_map, hl]
    rfl
  have hrest : Chain Extent.firstBlock Extent.Ok (2 ^ 32) (right ++ p.ctx.after) := by
    rw [chain_append]
    exact ⟨extents_mono hle hright, hafter⟩
  rw [hmap]
  constructor
  · intro hlt
    obtain rfl : left = [] := hcur.resolve_left (Nat.not_le_of_lt hlt)
    have hchain : Chain Extent.firstBlock Extent.Ok (2 ^ 32) (ex :: (right ++ p.ctx.after)) := by
      refine ⟨hex.mono ?_, hrest⟩
      rw [top_append]
      rcases right with - | ⟨e, es⟩
      · exact hle
      · exact le_rfl
    have := isNextMapped_append (fun x hx => hp.before_none x hx.le) hchain hlt
    rw [List.nil_append, List.append_assoc, List.cons_append]
    exact this
  · rintro hfirst e es rfl
    have := isNextMapped_append (left_none hp hl hfirst hnot) hrest (hgt e (List.mem_cons_self ..))
    rw [List.append_assoc, List.append_assoc, List.singleton_append, List.cons_append,
      ← List.cons_append, ← List.append_assoc] at this
    simpa using this

/-- The extent that is inserted covers the hole only. -/
theorem holeExtent_covers (p : Path D) {b maxBlocks newblock x : ℕ}
    (h : (extHoleExtent p b maxBlocks newblock).covers x = true) : x = b := by
  have hcov := Extent.covers_iff.1 h
  have hlen : (extHoleExtent p b maxBlocks newblock).getActualLen = 1 := rfl
  have hfirst : (extHoleExtent p b maxBlocks newblock).firstBlock = b := rfl
  omega

/-- **What is inserted overlaps no extent**, however many blocks are asked for
    and wherever the next one is. -/
theorem holeExtent_noOverlap {t : Tree} (p : Path D) (hun : t.map b = none)
    (maxBlocks newblock : ℕ) : NoOverlap t (extHoleExtent p b maxBlocks newblock) := by
  intro x hx
  rw [holeExtent_covers p hx]
  exact hun

/-- The search when the extent at the cursor starts after the hole. -/
theorem isNext_first_iff (hp : p.Fits cap b) {right : List Extent} {ex : Extent}
    (hl : p.leaf = .at [] ex right) (hlt : b < ex.firstBlock) :
    IsNextMapped p.plug.map b (extNextAllocatedBlock p) ↔ ex.firstBlock = extMaxBlocks := by
  obtain ⟨-, -, -, hex, hright, -, -⟩ := hp.leaf_ok hl
  have hnot : ex.covers b = false := by
    rw [Bool.eq_false_iff, Ne, Extent.covers_iff]
    omega
  have hnext := (hp.isNext hl hnot).1 hlt
  have hceil := hp.ctx.ceil_le
  have htop := hright.top_le extent_lt
  have hexlt := hex.lt
  have hmax : extMaxBlocks = 2 ^ 32 - 1 := rfl
  -- the search passes the extent by
  have hpast : extNextAllocatedBlock p =
      min (top Extent.firstBlock p.ctx.ceil right) extMaxBlocks := by
    unfold extNextAllocatedBlock
    rw [hl]
    rcases right with - | ⟨e, es⟩
    · exact hp.ctx.nextIndex_eq
    · have hkey := (hright.key_lt extent_lt e (List.mem_cons_self ..)).2
      show e.firstBlock = min e.firstBlock extMaxBlocks
      omega
  rw [hpast]
  constructor
  · intro h
    have := h.unique hnext
    omega
  · intro h
    rwa [Nat.min_eq_right (by omega), ← h]

/-- **When the search is exact**, on a path that fits the hole. -/
theorem Path.Fits.isNextMapped_iff (hp : p.Fits cap b) (hun : p.plug.map b = none) :
    IsNextMapped p.plug.map b (extNextAllocatedBlock p) ↔ NextExact p.plug b := by
  obtain ⟨-, -, -, -, hceil, lf, hleaf, -, -⟩ := hp.found
  have hwalk := (hp.ctx.walk hp.floor_le hp.lt_ceil hp.low hp.node).2.1
  have hexts : ∀ lf', p.plug.root.leafAt b = some lf' → lf'.exts = p.leaf.exts := by
    intro lf' h
    rw [Path.plug, hwalk] at h
    cases h
    rfl
  have hsome : p.plug.root.leafAt b = some p.node := hwalk
  -- the condition on the leaf at the end of the path
  have hcond : NextExact p.plug b ↔
      (top Extent.firstBlock b p.leaf.exts ≤ b ∨
        top Extent.firstBlock b p.leaf.exts = extMaxBlocks) ∧
      ((∀ e ∈ p.leaf.exts, e.firstBlock ≤ b) → p.ctx.ceil < extMaxBlocks →
        (p.plug.map p.ctx.ceil).isSome) := by
    unfold NextExact
    rw [hceil]
    constructor
    · intro h
      exact h _ hsome
    · intro h lf' hlf'
      rw [hexts lf' hlf']
      exact h
  rw [hcond]
  have hmap : p.plug.map = mapOf (p.ctx.before ++ p.leaf.exts ++ p.ctx.after) := by
    funext x
    exact plug_map p x
  rcases hl : p.leaf with - | ⟨left, ex, right⟩
  · -- an empty leaf
    have hnext : extNextAllocatedBlock p = min p.ctx.ceil extMaxBlocks := by
      rw [← hp.ctx.nextIndex_eq]
      unfold extNextAllocatedBlock
      rw [hl]
      obtain - | ⟨l, up⟩ := p.ctx
      · exact ite_self _
      · rw [if_neg (Nat.ne_of_gt (Nat.lt_of_lt_of_le Nat.one_pos up.depth_le))]
    rw [hl, LeafCursor.exts, List.append_nil] at hmap
    rw [hnext, hmap, isNextMapped_ceil_iff hp fun x hx => hp.before_none x hx.le]
    simp [LeafCursor.exts]
  · obtain ⟨-, -, hleft, hex, hright, hcur, hgt⟩ := hp.leaf_ok hl
    have hnot : ex.covers b = false := by
      have h := hp.map_eq
      rw [hun, hl] at h
      simpa using h.symm
    by_cases hlt : b < ex.firstBlock
    · obtain rfl : left = [] := hcur.resolve_left (Nat.not_le_of_lt hlt)
      rw [isNext_first_iff hp hl hlt]
      simp only [LeafCursor.exts, List.nil_append, top_cons, List.forall_mem_cons]
      omega
    · have hle := Nat.le_of_not_lt hlt
      have hfirst : top Extent.firstBlock b (left ++ ex :: right) ≤ b := by
        rw [top_append, top_cons]
        rcases left with - | ⟨e, es⟩
        · exact hle
        · exact (hleft.top_le extent_lt).trans hle
      rcases right with - | ⟨e, es⟩
      · -- the cursor is at the last extent of the leaf
        have hnext : extNextAllocatedBlock p = min p.ctx.ceil extMaxBlocks := by
          rw [← hp.ctx.nextIndex_eq]
          unfold extNextAllocatedBlock
          rw [hl]
        have hall : ∀ e ∈ left ++ [ex], e.firstBlock ≤ b := by
          intro e he
          rcases List.mem_append.1 he with he | he
          · exact ((hleft.key_lt extent_lt e he).2.le).trans hle
          · rw [List.mem_singleton.1 he]
            exact hle
        rw [hl] at hmap
        rw [hnext, hmap, LeafCursor.exts, isNextMapped_ceil_iff hp (left_none hp hl hle hnot)]
        exact ⟨fun h => ⟨.inl hfirst, fun _ => h⟩, fun h => h.2 hall⟩
      · have hnext := (hp.isNext hl hnot).2 hle e es rfl
        have hread : extNextAllocatedBlock p = e.firstBlock := by
          unfold extNextAllocatedBlock
          rw [hl]
        rw [hread]
        refine iff_of_true hnext ⟨.inl hfirst, fun h => ?_⟩
        have h1 := h e (by simp [LeafCursor.exts])
        have h2 := hgt e (List.mem_cons_self ..)
        omega

/-- **`ext4_ext_next_allocated_block`** for a hole, on the path
    `ext4_find_extent` builds for it: it is exact, and what is inserted overlaps
    nothing, if and only if the leaf found does not start after the hole and the
    key that is read is mapped. -/
theorem nextAllocatedBlock_iff {fs fs' : ExtFs} (hb : b < 2 ^ 32)
    (hok : fs.tree.root.Ok cap Tree.rootSpace (2 ^ 32)) (hun : fs.tree.map b = none)
    (hfind : findExtent b fs = (.ok ⟨D, p⟩, fs')) :
    (IsNextMapped fs.tree.map b (extNextAllocatedBlock p) ∧
      ∀ maxBlocks newblock, NoOverlap fs.tree (extHoleExtent p b maxBlocks newblock)) ↔
    NextExact fs.tree b := by
  have hsat := sat_findExtent fs hb hok fs rfl
  rw [hfind] at hsat
  obtain ⟨-, hfound⟩ := hsat
  have hfits := hfound.fits
  have hplug := hfound.plug
  rw [← hplug] at hun ⊢
  rw [hfits.isNextMapped_iff hun]
  exact and_iff_left (holeExtent_noOverlap p hun)

end Next

/-- Behind the last extent of the first leaf the key of the second leaf is found. -/
theorem nextAllocatedBlock_iff_between :
    (IsNextMapped leavesFs.tree.map 17
        (extNextAllocatedBlock (leavesPath (.at [⟨10, 2, 100⟩] ⟨14, 3, 140⟩ []))) ∧
      ∀ maxBlocks newblock, NoOverlap leavesFs.tree
        (extHoleExtent (leavesPath (.at [⟨10, 2, 100⟩] ⟨14, 3, 140⟩ [])) 17 maxBlocks newblock)) ↔
    NextExact leavesFs.tree 17 := by
  have hfind : findExtent 17 leavesFs =
      (.ok ⟨1, leavesPath (.at [⟨10, 2, 100⟩] ⟨14, 3, 140⟩ [])⟩, leavesFs) := rfl
  exact nextAllocatedBlock_iff (by decide) leavesFs_ok.node rfl hfind

/-- The path found for the blocks right of the extent. -/
def prependPath : Path 0 := ⟨4, .at [] ⟨10, 2, 100⟩ [], .nil⟩

/-- Before blocks 10 and 11 of the file nothing is found: the extent they are in
    is passed by. -/
theorem nextAllocatedBlock_wrong : prependFs.tree.Ok (extSpaceBlock prependFs.blockSize) ∧
    prependFs.tree.map 9 = none ∧
    findExtent 9 prependFs = (.ok ⟨0, prependPath⟩, prependFs) ∧
    extNextAllocatedBlock prependPath = extMaxBlocks ∧
    ¬IsNextMapped prependFs.tree.map 9 (extNextAllocatedBlock prependPath) := by
  have hread : extNextAllocatedBlock prependPath = extMaxBlocks := rfl
  have hmapped : prependFs.tree.map 10 = some (100, false) := rfl
  refine ⟨prependFs_ok, rfl, rfl, hread, ?_⟩
  rw [hread]
  rintro (h | ⟨h, -⟩)
  · have := h.2 (show 10 ∈ {x | 9 < x ∧ (prependFs.tree.map x).isSome} from ⟨by decide, rfl⟩)
    exact absurd this (by decide)
  · rw [h 10 (by decide)] at hmapped
    cases hmapped

end Lwext4
