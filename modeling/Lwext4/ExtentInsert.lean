/-
  Inserting an extent is exact, up to merging.

  `InsertOk` is the condition on the path under which
  `ext4_ext_insert_extent` adds exactly the blocks of the new extent: the
  extent stays below the next key, it is not prepended to the extent at the
  path, and it is appended only to an adjacent extent that is written or
  unwritten as it is itself.  Splitting nodes and growing the tree changes
  neither the map (`sat_splitUp`, `grown_ok`) nor that condition.
-/
import Lwext4.ExtentFind

namespace Lwext4

open Lib

/-! ## Maps of extent lists -/

theorem mapOf_ne_none {es : List Extent} {e : Extent} {b : ℕ} (he : e ∈ es)
    (hb : e.covers b = true) : mapOf es b ≠ none := by
  unfold mapOf
  rw [Ne, Option.map_eq_none_iff, List.find?_eq_none]
  exact fun h => h e he hb

/-- A new extent over unmapped blocks adds its own blocks. -/
theorem mapOf_insert (as bs : List Extent) (n : Extent) (b : ℕ)
    (hno : n.covers b = true → mapOf (as ++ bs) b = none) :
    mapOf (as ++ n :: bs) b = if n.covers b then some (n.value b) else mapOf (as ++ bs) b := by
  rw [mapOf_append, mapOf_cons]
  split_ifs with hb
  · have h := hno hb
    rw [mapOf_append, Option.or_eq_none_iff] at h
    rw [h.1]
    rfl
  · rw [mapOf_append]

/-- An extent that grows over unmapped blocks adds these. -/
theorem mapOf_extend {as bs : List Extent} {e e' n : Extent} {b : ℕ}
    (hcov : e'.covers b = (e.covers b || n.covers b))
    (hval : e.covers b = true → e'.value b = e.value b)
    (hnew : n.covers b = true → e'.value b = n.value b)
    (hno : n.covers b = true → mapOf (as ++ e :: bs) b = none) :
    mapOf (as ++ e' :: bs) b =
      if n.covers b then some (n.value b) else mapOf (as ++ e :: bs) b := by
  rw [mapOf_append, mapOf_cons, hcov]
  by_cases hb : n.covers b = true
  · have h := hno hb
    rw [mapOf_append, Option.or_eq_none_iff] at h
    rw [h.1, if_pos hb, hb, Bool.or_true, if_pos rfl, hnew hb]
    rfl
  · rw [if_neg hb, mapOf_append, mapOf_cons, Bool.eq_false_iff.2 hb, Bool.or_false]
    split_ifs with he
    · rw [hval he]
    · rfl

theorem Extent.covers_iff {e : Extent} {b : ℕ} :
    e.covers b = true ↔ e.firstBlock ≤ b ∧ b < e.firstBlock + e.getActualLen :=
  decide_eq_true_iff

theorem Extent.Ok.covers_first {e : Extent} {hi : ℕ} (h : e.Ok hi) :
    e.covers e.firstBlock = true := by
  have := h.1
  rw [Extent.covers_iff]
  omega

/-- Two extents that share no block lie one after the other. -/
theorem Extent.apart {e n : Extent} {hi hi' : ℕ} (he : e.Ok hi) (hn : n.Ok hi')
    (hdis : ∀ b, n.covers b = true → e.covers b = false) :
    e.firstBlock + e.getActualLen ≤ n.firstBlock ∨ n.firstBlock + n.getActualLen ≤ e.firstBlock := by
  by_contra hc
  have h1 := he.1
  have h2 := hn.1
  have h3 := hdis (max e.firstBlock n.firstBlock) (Extent.covers_iff.2 (by omega))
  rw [Bool.eq_false_iff, Ne, Extent.covers_iff] at h3
  omega

/-! ## Inserting into a leaf -/

section Leaf

variable {cap D : ℕ} {p : Path D} {newext : Extent}

theorem plug_map (p : Path D) (b : ℕ) :
    p.plug.map b = mapOf (p.ctx.before ++ p.leaf.exts ++ p.ctx.after) b := by
  rw [Tree.map, Path.plug, Ctx.plug_extents]
  rfl

/-- The new extent covers no mapped block. -/
def NoOverlap (t : Tree) (newext : Extent) : Prop :=
  ∀ b, newext.covers b = true → t.map b = none

theorem NoOverlap.apart {hi hi' : ℕ} {e : Extent} (hno : NoOverlap p.plug newext)
    (hn : newext.Ok hi) (hmem : e ∈ p.leaf.exts) (he : e.Ok hi') :
    e.firstBlock + e.getActualLen ≤ newext.firstBlock ∨
      newext.firstBlock + newext.getActualLen ≤ e.firstBlock := by
  refine Extent.apart he hn fun b hb => ?_
  by_contra hc
  have h := hno b hb
  rw [plug_map] at h
  exact mapOf_ne_none (List.mem_append.2 (.inl (List.mem_append.2 (.inr hmem))))
    (by simpa using hc) h

/-- The tree maps what `t` maps and the blocks of the new extent. -/
def AddsExtent (newext : Extent) (t t' : Tree) : Prop :=
  ∀ b, t'.map b = if newext.covers b then some (newext.value b) else t.map b

/-- The condition under which the insertion on path `p` is exact. -/
def InsertOk (p : Path D) (newext : Extent) (noCombine : Bool) : Prop :=
  newext.firstBlock + newext.getActualLen ≤ p.ctx.ceil ∧
    match p.leaf with
    | .none => True
    | .at _ ex _ => noCombine = true ∨
        if extCanAppend ex newext then ex.isUnwritten = newext.isUnwritten ∧
          ex.firstBlock + ex.getActualLen = newext.firstBlock
        else extCanPrepend ex newext = false

theorem withLeaf_leaf (leaf : LeafCursor) (first : Option ℕ) :
    (p.withLeaf leaf first).leaf = leaf := by
  cases first <;> rfl

theorem withLeaf_maxEntries (leaf : LeafCursor) (first : Option ℕ) :
    (p.withLeaf leaf first).maxEntries = p.maxEntries := by
  cases first <;> rfl

theorem withLeaf_ceil (leaf : LeafCursor) (first : Option ℕ) :
    (p.withLeaf leaf first).ctx.ceil = p.ctx.ceil := by
  cases first
  · rfl
  · exact Ctx.setBorder_ceil _

theorem withLeaf_map (leaf : LeafCursor) (first : Option ℕ) (b : ℕ) :
    (p.withLeaf leaf first).plug.map b = mapOf (p.ctx.before ++ leaf.exts ++ p.ctx.after) b := by
  rw [plug_map, withLeaf_leaf]
  cases first
  · rfl
  · rw [Path.withLeaf, Ctx.setBorder_before, Ctx.setBorder_after]

theorem withLeaf_blocks (leaf : LeafCursor) (first : Option ℕ) :
    (p.withLeaf leaf first).plug.root.blocks.Perm p.plug.root.blocks := by
  refine (Ctx.plug_blocks _ _).trans ((Ctx.plug_blocks _ _).trans ?_).symm
  cases first
  · exact List.Perm.refl _
  · rw [Path.withLeaf, Ctx.setBorder_blocks]
    exact List.Perm.refl _

/-- Changing the leaf keeps the tree well formed. -/
theorem withLeaf_ok {b : ℕ} (hp : p.Fits cap b) {leaf : LeafCursor} {first : Option ℕ}
    (hlen : leaf.exts.length ≤ p.maxEntries)
    (hchain : Chain Extent.firstBlock Extent.Ok p.ctx.ceil leaf.exts)
    (hfirst : match first with
      | some border => p.ctx.floor ≤ border ∧ border < p.ctx.ceil ∧
          border ≤ top Extent.firstBlock p.ctx.ceil leaf.exts
      | none => p.ctx.low ≤ top Extent.firstBlock p.ctx.ceil leaf.exts) :
    (p.withLeaf leaf first).plug.root.Ok cap Tree.rootSpace (2 ^ 32) := by
  obtain ⟨h2, hcap, -, -⟩ := Node.ok_leaf.1 hp.node
  refine Ctx.plug_ok ?_ ?_ ?_
  · cases first with
    | none => exact hp.ctx
    | some border => exact hp.ctx.setBorder hfirst.1 hfirst.2.1
  · show _ ≤ top Extent.firstBlock (p.withLeaf leaf first).ctx.ceil (p.withLeaf leaf first).leaf.exts
    rw [withLeaf_ceil, withLeaf_leaf]
    cases first with
    | none => exact hfirst
    | some border => exact (Ctx.setBorder_low_le p.ctx).trans hfirst.2.2
  · refine Node.ok_leaf.2 ?_
    show 2 ≤ (p.withLeaf leaf first).maxEntries ∧ (p.withLeaf leaf first).maxEntries ≤ _ ∧
      (p.withLeaf leaf first).leaf.exts.length ≤ (p.withLeaf leaf first).maxEntries ∧
      Chain _ _ (p.withLeaf leaf first).ctx.ceil (p.withLeaf leaf first).leaf.exts
    rw [withLeaf_ceil, withLeaf_leaf, withLeaf_maxEntries]
    refine ⟨h2, ?_, hlen, hchain⟩
    cases first with
    | none => exact hcap
    | some border => rw [Path.withLeaf, Ctx.setBorder_space]; exact hcap

/-- A tree with an extent that ends above the next key is not well formed. -/
theorem not_ok_of_cross {leaf : LeafCursor} {first : Option ℕ} {e : Extent}
    (hmem : e ∈ leaf.exts) (hcross : p.ctx.ceil < e.firstBlock + e.getActualLen) :
    ¬ (p.withLeaf leaf first).plug.root.Ok cap Tree.rootSpace (2 ^ 32) := by
  intro h
  obtain ⟨-, -, hn⟩ := Ctx.of_plug_ok h
  have hc := (Node.ok_leaf.1 hn).2.2.2
  change Chain _ _ (p.withLeaf leaf first).ctx.ceil (p.withLeaf leaf first).leaf.exts at hc
  rw [withLeaf_ceil, withLeaf_leaf] at hc
  obtain ⟨as, bs, hsplit⟩ := List.append_of_mem hmem
  rw [hsplit, chain_append, chain_cons] at hc
  have h1 := hc.2.1.2.1
  have h2 := hc.2.2.top_le extent_lt
  omega

/-- The leaf entries around the cursor. -/
theorem Path.Fits.leaf_ok {b : ℕ} (hp : p.Fits cap b) {left right : List Extent} {ex : Extent}
    (hl : p.leaf = .at left ex right) :
    left.length + 1 + right.length ≤ p.maxEntries ∧
      p.ctx.low ≤ top Extent.firstBlock ex.firstBlock left ∧
      Chain Extent.firstBlock Extent.Ok ex.firstBlock left ∧
      ex.Ok (top Extent.firstBlock p.ctx.ceil right) ∧
      Chain Extent.firstBlock Extent.Ok p.ctx.ceil right ∧
      (ex.firstBlock ≤ b ∨ left = []) ∧ ∀ e ∈ right, b < e.firstBlock := by
  obtain ⟨-, -, hlen, hchain⟩ := Node.ok_leaf.1 hp.node
  have hlow : p.ctx.low ≤ top Extent.firstBlock p.ctx.ceil p.leaf.exts := hp.low
  have hcur := hp.cursor
  change p.leaf.exts.length ≤ p.maxEntries at hlen
  change Chain Extent.firstBlock Extent.Ok p.ctx.ceil p.leaf.exts at hchain
  rw [hl] at hlen hchain hlow hcur
  simp only [LeafCursor.exts] at hlen hchain hlow
  rw [chain_append, top_cons, chain_cons] at hchain
  rw [top_append, top_cons] at hlow
  rw [List.length_append, List.length_cons] at hlen
  exact ⟨by omega, hlow, hchain.1, hchain.2.1, hchain.2.2, hcur⟩

/-- **A path that fits is the one found.** -/
theorem Path.Fits.found {cap D b : ℕ} {p : Path D} (hp : p.Fits cap b) : p.Found cap p.plug b := by
  obtain ⟨hdepth, hleaf, hceil, hroom⟩ := hp.ctx.walk hp.floor_le hp.lt_ceil hp.low hp.node
  refine ⟨hp, rfl, hdepth.symm, fun h => by simpa [Node.hasRoom] using hroom h, hceil.symm,
    ⟨p.maxEntries, p.leaf.exts⟩, hleaf, rfl, ?_⟩
  rcases hl : p.leaf with - | ⟨left, ex, right⟩
  · rfl
  · obtain ⟨-, -, hchain⟩ := (Node.ok_leaf.1 hp.node).2
    change Chain Extent.firstBlock Extent.Ok p.ctx.ceil p.leaf.exts at hchain
    obtain ⟨-, -, -, -, -, hcur, hgt⟩ := hp.leaf_ok hl
    rw [hl] at hchain
    have hidx := lastLe_eq (x := b) extent_lt hchain hcur hgt
    unfold extBinsearch
    simp only [LeafCursor.exts, hidx]
    simp

/-- The new extent ends before the extents right of the cursor. -/
theorem end_le_top (hp : p.Fits cap newext.firstBlock) (hno : NoOverlap p.plug newext)
    (hn : newext.Ok (2 ^ 32)) {left right : List Extent} {ex : Extent}
    (hl : p.leaf = .at left ex right)
    (hend : right = [] → newext.firstBlock + newext.getActualLen ≤ p.ctx.ceil) :
    newext.firstBlock + newext.getActualLen ≤ top Extent.firstBlock p.ctx.ceil right := by
  obtain ⟨-, -, -, -, hright, -, hgt⟩ := hp.leaf_ok hl
  rcases right with - | ⟨e, es⟩
  · exact hend rfl
  · have hmem : e ∈ p.leaf.exts := by
      rw [hl]
      exact List.mem_append.2 (.inr (.tail _ (List.mem_cons_self ..)))
    have hlt := hgt e (List.mem_cons_self ..)
    rcases hno.apart hn hmem hright.1 with h | h
    · omega
    · exact h

/-- Inserting a new entry is exact iff it stays below the next key. -/
theorem insert_exact_iff (hp : p.Fits cap newext.firstBlock) (hno : NoOverlap p.plug newext)
    (left right : List Extent) {first : Option ℕ}
    (hexts : p.leaf.exts = left ++ right) (hlen : p.leaf.exts.length < p.maxEntries)
    (hok : newext.firstBlock + newext.getActualLen ≤ p.ctx.ceil →
      Chain Extent.firstBlock Extent.Ok p.ctx.ceil (left ++ newext :: right) ∧
      match first with
      | some border => p.ctx.floor ≤ border ∧ border < p.ctx.ceil ∧
          border ≤ top Extent.firstBlock p.ctx.ceil (left ++ newext :: right)
      | none => p.ctx.low ≤ top Extent.firstBlock p.ctx.ceil (left ++ newext :: right))
    {leaf : LeafCursor} (hleaf : leaf.exts = left ++ newext :: right) :
    (p.withLeaf leaf first).plug.root.Ok cap Tree.rootSpace (2 ^ 32) ∧
      AddsExtent newext p.plug (p.withLeaf leaf first).plug ↔
    newext.firstBlock + newext.getActualLen ≤ p.ctx.ceil := by
  constructor
  · rintro ⟨hroot, -⟩
    by_contra hc
    have hmem : newext ∈ leaf.exts := by rw [hleaf]; simp
    exact not_ok_of_cross hmem (by omega) hroot
  · intro hend
    obtain ⟨hchain, hfirst⟩ := hok hend
    refine ⟨withLeaf_ok hp ?_ (by rw [hleaf]; exact hchain) (by rw [hleaf]; exact hfirst), ?_⟩
    · rw [hexts, List.length_append] at hlen
      rw [hleaf, List.length_append, List.length_cons]
      omega
    · intro b
      have h := mapOf_insert (p.ctx.before ++ left) (right ++ p.ctx.after) newext b
      rw [withLeaf_map, plug_map, hleaf, hexts]
      simp only [List.append_assoc, List.cons_append] at h ⊢
      refine h fun hb => ?_
      have hnone := hno b hb
      rw [plug_map, hexts] at hnone
      simpa only [List.append_assoc] using hnone

/-- Into an empty leaf. -/
theorem insert_none (hp : p.Fits cap newext.firstBlock) (hno : NoOverlap p.plug newext)
    (hn : newext.Ok (2 ^ 32)) (hl : p.leaf = .none) (hfull : p.full = false) :
    ((p.withLeaf (.at [] newext []) (some newext.firstBlock)).plug.root.Ok cap Tree.rootSpace
        (2 ^ 32) ∧
      AddsExtent newext p.plug (p.withLeaf (.at [] newext []) (some newext.firstBlock)).plug) ↔
    newext.firstBlock + newext.getActualLen ≤ p.ctx.ceil := by
  have hlen := (Node.ok_leaf.1 hp.node).2.2.1
  have hne : p.leaf.exts.length ≠ p.maxEntries := by simpa [Path.full] using hfull
  refine insert_exact_iff hp hno [] [] (by rw [hl]; rfl) (Nat.lt_of_le_of_ne hlen hne)
    (fun hend => ?_) rfl
  exact ⟨⟨⟨hn.1, hend, hn.2.2⟩, trivial⟩, hp.floor_le, hp.lt_ceil, le_rfl⟩

/-- After the extent at the cursor. -/
theorem insert_after (hp : p.Fits cap newext.firstBlock) (hno : NoOverlap p.plug newext)
    (hn : newext.Ok (2 ^ 32)) {left right : List Extent} {ex : Extent}
    (hl : p.leaf = .at left ex right) (hfull : p.full = false)
    (hlt : ex.firstBlock < newext.firstBlock) {first : Option ℕ}
    (hfirst : first = if left = [] then some ex.firstBlock else none) :
    ((p.withLeaf (.at (left ++ [ex]) newext right) first).plug.root.Ok cap Tree.rootSpace
        (2 ^ 32) ∧
      AddsExtent newext p.plug (p.withLeaf (.at (left ++ [ex]) newext right) first).plug) ↔
    newext.firstBlock + newext.getActualLen ≤ p.ctx.ceil := by
  have hlen := (Node.ok_leaf.1 hp.node).2.2.1
  have hne : p.leaf.exts.length ≠ p.maxEntries := by simpa [Path.full] using hfull
  obtain ⟨-, hlow, hleft, hex, hright, -, hgt⟩ := hp.leaf_ok hl
  refine insert_exact_iff hp hno (left ++ [ex]) right (by rw [hl]; simp [LeafCursor.exts])
    (Nat.lt_of_le_of_ne hlen hne) (fun hend => ?_) rfl
  have hend' := end_le_top hp hno hn hl fun _ => hend
  have hmem : ex ∈ p.leaf.exts := by rw [hl]; simp [LeafCursor.exts]
  have hexend : ex.firstBlock + ex.getActualLen ≤ newext.firstBlock := by
    have := hn.1
    rcases hno.apart hn hmem hex with h | h <;> omega
  have hceil : ex.firstBlock < p.ctx.ceil :=
    Nat.lt_of_lt_of_le hex.lt (hright.top_le extent_lt)
  refine ⟨?_, ?_⟩
  · rw [chain_append, chain_append, chain_cons]
    exact ⟨⟨hleft, ⟨hex.1, hexend, hex.2.2⟩, trivial⟩, ⟨hn.1, hend', hn.2.2⟩, hright⟩
  · rw [top_append, top_append]
    by_cases hnil : left = []
    · rw [if_pos hnil] at hfirst
      rw [hfirst, hnil]
      rw [hnil] at hlow
      exact ⟨hp.ctx.floor_le.trans hlow, hceil, le_rfl⟩
    · rw [if_neg hnil] at hfirst
      rw [hfirst]
      exact hlow

/-- Before the extent at the cursor, which is then the first of its leaf. -/
theorem insert_before (hp : p.Fits cap newext.firstBlock) (hno : NoOverlap p.plug newext)
    (hn : newext.Ok (2 ^ 32)) {left right : List Extent} {ex : Extent}
    (hl : p.leaf = .at left ex right) (hfull : p.full = false)
    (hlt : newext.firstBlock < ex.firstBlock) {first : Option ℕ}
    (hfirst : first = if left = [] then some newext.firstBlock else none) :
    ((p.withLeaf (.at left newext (ex :: right)) first).plug.root.Ok cap Tree.rootSpace
        (2 ^ 32) ∧
      AddsExtent newext p.plug (p.withLeaf (.at left newext (ex :: right)) first).plug) ↔
    newext.firstBlock + newext.getActualLen ≤ p.ctx.ceil := by
  have hlen := (Node.ok_leaf.1 hp.node).2.2.1
  have hne : p.leaf.exts.length ≠ p.maxEntries := by simpa [Path.full] using hfull
  obtain ⟨-, -, -, hex, hright, hcur, -⟩ := hp.leaf_ok hl
  obtain rfl : left = [] := hcur.resolve_left (by omega)
  refine insert_exact_iff hp hno [] (ex :: right) (by rw [hl]; rfl)
    (Nat.lt_of_le_of_ne hlen hne) (fun _ => ?_) rfl
  have hmem : ex ∈ p.leaf.exts := by rw [hl]; simp [LeafCursor.exts]
  have hend : newext.firstBlock + newext.getActualLen ≤ ex.firstBlock := by
    have := hex.1
    rcases hno.apart hn hmem hex with h | h <;> omega
  rw [hfirst, if_pos rfl]
  exact ⟨⟨⟨hn.1, hend, hn.2.2⟩, hex, hright⟩, hp.floor_le, hp.lt_ceil, le_rfl⟩

/-- The extent after a merge: the lengths are added. -/
theorem merged_spec {ex : Extent} {hi : ℕ} (hex : ex.Ok hi)
    (hfit : extLenFits ex newext = true) (e : Extent) :
    let e' := e.setLen (ex.getActualLen + newext.getActualLen) ex.isUnwritten
    e'.getActualLen = ex.getActualLen + newext.getActualLen ∧ e'.isUnwritten = ex.isUnwritten ∧
      e'.blockCount < 2 ^ 16 := by
  have h1 := hex.1
  refine Extent.setLen_spec _ _ _ (by omega) ?_
  unfold extLenFits at hfit
  cases hu : ex.isUnwritten
  · rw [hu] at hfit
    have : ex.getActualLen + newext.getActualLen ≤ 2 ^ 15 := by simpa using hfit
    rcases Nat.lt_or_eq_of_le this with h | h
    · exact .inl h
    · exact .inr ⟨h, rfl⟩
  · rw [hu] at hfit
    have : ex.getActualLen + newext.getActualLen ≤ 2 ^ 15 - 1 := by simpa using hfit
    exact .inl (by omega)

/-- Replacing the extent at the cursor. -/
theorem replaced_map {left right : List Extent} {e : Extent} (b : ℕ) :
    ({ p with leaf := .at left e right } : Path D).plug.map b =
      mapOf ((p.ctx.before ++ left) ++ e :: (right ++ p.ctx.after)) b := by
  rw [plug_map]
  simp [LeafCursor.exts]

/-- What the extents before the cursor map in the block of a new extent. -/
theorem none_before (hno : NoOverlap p.plug newext) {left right : List Extent} {ex : Extent}
    (hl : p.leaf = .at left ex right) {b : ℕ} (hb : newext.covers b = true) :
    mapOf (p.ctx.before ++ left) b = none := by
  have h := hno b hb
  rw [plug_map, hl] at h
  simp only [LeafCursor.exts, ← List.append_assoc] at h
  rw [mapOf_append, mapOf_append, Option.or_eq_none_iff, Option.or_eq_none_iff] at h
  exact h.1.1

/-- **Appending** is exact iff both extents are written or both unwritten, they
    are adjacent without wrapping, and the result stays below the next key. -/
theorem append_exact_iff (hp : p.Fits cap newext.firstBlock) (hno : NoOverlap p.plug newext)
    (hn : newext.Ok (2 ^ 32)) {left right : List Extent} {ex : Extent}
    (hl : p.leaf = .at left ex right) (happ : extCanAppend ex newext = true) :
    (({ p with leaf := .at left (extAppended ex newext) right } : Path D).plug.root.Ok cap
        Tree.rootSpace (2 ^ 32) ∧
      AddsExtent newext p.plug
        ({ p with leaf := .at left (extAppended ex newext) right } : Path D).plug) ↔
    newext.firstBlock + newext.getActualLen ≤ p.ctx.ceil ∧ ex.isUnwritten = newext.isUnwritten ∧
      ex.firstBlock + ex.getActualLen = newext.firstBlock := by
  obtain ⟨hlen, hlow, hleft, hex, hright, -, -⟩ := hp.leaf_ok hl
  simp only [extCanAppend, Bool.and_eq_true, decide_eq_true_eq] at happ
  obtain ⟨⟨hstart, hfit⟩, hfirst⟩ := happ
  obtain ⟨hlen', hunw, hcnt⟩ := merged_spec hex hfit ex
  have hfb : (extAppended ex newext).firstBlock = ex.firstBlock := Extent.setLen_firstBlock ..
  have hst : (extAppended ex newext).start = ex.start := Extent.setLen_start ..
  change (extAppended ex newext).getActualLen = _ at hlen'
  change (extAppended ex newext).isUnwritten = _ at hunw
  change (extAppended ex newext).blockCount < _ at hcnt
  constructor
  · rintro ⟨hroot, hmap⟩
    obtain ⟨-, -, hnode⟩ := Ctx.of_plug_ok hroot
    have hchain := (Node.ok_leaf.1 hnode).2.2.2
    change Chain _ _ p.ctx.ceil (left ++ extAppended ex newext :: right) at hchain
    rw [chain_append, chain_cons] at hchain
    have hend := hchain.2.1.2.1
    rw [hfb, hlen'] at hend
    have htop := hright.top_le extent_lt
    have hceil32 := hp.ctx.ceil_le
    have hadj : ex.firstBlock + ex.getActualLen = newext.firstBlock := by
      have := hn.1
      rwa [u32_of_lt (by omega)] at hfirst
    have hval := hmap newext.firstBlock
    rw [if_pos hn.covers_first, replaced_map, mapOf_append, none_before hno hl hn.covers_first,
      Option.none_or, mapOf_cons, if_pos] at hval
    · simp only [Extent.value, Option.some.injEq, Prod.mk.injEq, hunw] at hval
      exact ⟨by omega, hval.2, hadj⟩
    · have := hn.1
      rw [Extent.covers_iff, hfb, hlen']
      omega
  · rintro ⟨hend, hu, hadj⟩
    have hend' := end_le_top hp hno hn hl fun _ => hend
    refine ⟨?_, fun b => ?_⟩
    · refine @withLeaf_ok cap D p _ hp (.at left (extAppended ex newext) right) none ?_ ?_ ?_
      · simp only [LeafCursor.exts, List.length_append, List.length_cons]
        omega
      · simp only [LeafCursor.exts]
        rw [chain_append, chain_cons, top_cons, hfb]
        have hpos := hex.1
        exact ⟨hleft, ⟨by rw [hlen']; omega, by rw [hfb, hlen']; omega, hcnt⟩, hright⟩
      · simp only [LeafCursor.exts]
        rw [top_append, top_cons, hfb]
        exact hlow
    · have hold : p.plug.map b = mapOf ((p.ctx.before ++ left) ++ ex :: (right ++ p.ctx.after)) b := by
        rw [plug_map, hl]
        simp [LeafCursor.exts]
      rw [replaced_map, hold]
      refine mapOf_extend ?_ (fun hb => ?_) (fun hb => ?_) fun hb => by rw [← hold]; exact hno b hb
      · rw [Bool.eq_iff_iff, Bool.or_eq_true, Extent.covers_iff, Extent.covers_iff,
          Extent.covers_iff, hfb, hlen']
        omega
      · rw [Extent.value, Extent.value, hst, hfb, hunw]
      · rw [Extent.covers_iff] at hb
        rw [Extent.value, Extent.value, hst, hfb, hunw, hu]
        congr 1
        omega

/-- **Prepending** is never exact: the physical start is not moved. -/
theorem prepend_not_exact (hno : NoOverlap p.plug newext) (hn : newext.Ok (2 ^ 32))
    (hp : p.Fits cap newext.firstBlock) {left right : List Extent} {ex : Extent}
    (hl : p.leaf = .at left ex right) (hpre : extCanPrepend ex newext = true) :
    ¬ AddsExtent newext p.plug
      ({ p with leaf := .at left (extPrepended ex newext) right } : Path D).plug := by
  intro hmap
  obtain ⟨-, -, -, hex, -, -, -⟩ := hp.leaf_ok hl
  simp only [extCanPrepend, Bool.and_eq_true, decide_eq_true_eq] at hpre
  obtain ⟨⟨hstart, hfit⟩, -⟩ := hpre
  obtain ⟨hlen', -, -⟩ := merged_spec hex hfit { ex with firstBlock := newext.firstBlock }
  have hfb : (extPrepended ex newext).firstBlock = newext.firstBlock := Extent.setLen_firstBlock ..
  have hst : (extPrepended ex newext).start = ex.start := Extent.setLen_start ..
  change (extPrepended ex newext).getActualLen = _ at hlen'
  have hpos := hn.1
  have hval := hmap newext.firstBlock
  rw [if_pos hn.covers_first, replaced_map, mapOf_append, none_before hno hl hn.covers_first,
    Option.none_or, mapOf_cons, if_pos] at hval
  · simp only [Extent.value, Option.some.injEq, Prod.mk.injEq, hst, hfb] at hval
    omega
  · rw [Extent.covers_iff, hfb, hlen']
    omega

/-- How `ext4_ext_insert_leaf` ends at an extent of the leaf. -/
theorem extInsertLeaf_at {left right : List Extent} {ex : Extent} {noCombine : Bool}
    (hl : p.leaf = .at left ex right) {r : LeafInsert D}
    (h : extInsertLeaf p newext noCombine = r) :
    r = .err ∨
    noCombine = false ∧ extCanAppend ex newext = true ∧
      r = .done { p with leaf := .at left (extAppended ex newext) right } ∨
    noCombine = false ∧ extCanAppend ex newext = false ∧ extCanPrepend ex newext = true ∧
      r = .done { p with leaf := .at left (extPrepended ex newext) right } ∨
    (noCombine = true ∨ extCanAppend ex newext = false ∧ extCanPrepend ex newext = false) ∧
      (p.full = true ∧ r = .needSplit ∨
      p.full = false ∧ ex.firstBlock < newext.firstBlock ∧ r = .done (p.withLeaf
        (.at (left ++ [ex]) newext right) (if left = [] then some ex.firstBlock else none)) ∨
      p.full = false ∧ newext.firstBlock < ex.firstBlock ∧ r = .done (p.withLeaf
        (.at left newext (ex :: right)) (if left = [] then some newext.firstBlock else none))) := by
  subst h
  unfold extInsertLeaf
  simp only [hl]
  by_cases hsame : newext.firstBlock = ex.firstBlock
  · exact .inl (if_pos hsame)
  rw [if_neg hsame]
  cases noCombine <;> cases happ : extCanAppend ex newext <;>
    cases hpre : extCanPrepend ex newext <;> cases hfull : p.full <;>
    rcases Nat.lt_or_gt_of_ne hsame with hlt | hlt <;> simp [hlt, hlt.not_gt]

/-- **An insertion that ends in the leaf** is exact iff `InsertOk`. -/
theorem done_exact_iff (hp : p.Fits cap newext.firstBlock) (hno : NoOverlap p.plug newext)
    (hn : newext.Ok (2 ^ 32)) {noCombine : Bool} {p' : Path D}
    (hdone : extInsertLeaf p newext noCombine = .done p') :
    (p'.plug.root.Ok cap Tree.rootSpace (2 ^ 32) ∧ AddsExtent newext p.plug p'.plug ↔
      InsertOk p newext noCombine) ∧ p'.plug.root.blocks.Perm p.plug.root.blocks := by
  unfold InsertOk
  rcases hl : p.leaf with - | ⟨left, ex, right⟩
  · unfold extInsertLeaf at hdone
    simp only [hl] at hdone
    split_ifs at hdone with hfull
    obtain rfl := LeafInsert.done.inj hdone
    refine ⟨?_, withLeaf_blocks _ _⟩
    rw [insert_none hp hno hn hl (by simpa using hfull), and_true]
  · rcases extInsertLeaf_at hl hdone with h | ⟨hnc, happ, h⟩ | ⟨hnc, happ, hpre, h⟩ |
      ⟨hmerge, ⟨-, h⟩ | ⟨hfull, hlt, h⟩ | ⟨hfull, hlt, h⟩⟩
    · cases h
    · obtain rfl := LeafInsert.done.inj h
      refine ⟨?_, withLeaf_blocks (.at left (extAppended ex newext) right) none⟩
      rw [append_exact_iff hp hno hn hl happ]
      simp [hnc, happ]
    · obtain rfl := LeafInsert.done.inj h
      refine ⟨?_, withLeaf_blocks (.at left (extPrepended ex newext) right) none⟩
      refine ⟨fun h => absurd h.2 (prepend_not_exact hno hn hp hl hpre), fun h => ?_⟩
      simp [hnc, happ, hpre] at h
    · cases h
    · obtain rfl := LeafInsert.done.inj h
      refine ⟨?_, withLeaf_blocks _ _⟩
      rw [insert_after hp hno hn hl hfull hlt rfl, iff_self_and]
      intro _
      rcases hmerge with h | ⟨ha, hb⟩
      · exact .inl h
      · exact .inr (by simp [ha, hb])
    · obtain rfl := LeafInsert.done.inj h
      refine ⟨?_, withLeaf_blocks _ _⟩
      rw [insert_before hp hno hn hl hfull hlt rfl, iff_self_and]
      intro _
      rcases hmerge with h | ⟨ha, hb⟩
      · exact .inl h
      · exact .inr (by simp [ha, hb])

end Leaf

end Lwext4
