/-
  Splitting nodes and growing the tree.

  `ext4_ext_split_node` cuts the nodes of a path from the leaf up to the first
  one with room.  The two halves and the path that is kept are described by
  `sat_splitUp`; the extents, in order, stay as they are.
  `extInsertExtent_exact_iff` puts this together with the insertion into a
  leaf.
-/
import Lwext4.ExtentInsert

namespace Lwext4

open Lib

/-- New blocks have been taken; the tree is as it was. -/
structure ExtFs.Took (fs fs' : ExtFs) (news : List ℕ) : Prop where
  blockSize : fs'.blockSize = fs.blockSize
  freed : fs'.freed = fs.freed
  tree : fs'.tree = fs.tree
  fresh : fs.fresh = news ++ fs'.fresh

theorem ExtFs.Took.trans {fs fs' fs'' : ExtFs} {as bs : List ℕ} (h : fs.Took fs' as)
    (h' : fs'.Took fs'' bs) : fs.Took fs'' (as ++ bs) where
  blockSize := h'.blockSize.trans h.blockSize
  freed := h'.freed.trans h.freed
  tree := h'.tree.trans h.tree
  fresh := by rw [h.fresh, h'.fresh, List.append_assoc]

theorem ExtFs.Same.took {fs fs' : ExtFs} : fs.Same fs' → fs.Took fs' []
  | ⟨_, h⟩ => by subst h; exact ⟨rfl, rfl, rfl, rfl⟩

theorem sat_onError {α : Type} {P : ExtFs → Prop} {x : ExtM α} {cleanup : ExtM Unit}
    {Q : α → ExtFs → Prop} {E : Stop → ExtFs → Prop} {F : Stop → Prop} (h : Prog.Sat P x Q E)
    (hE : ∀ e fs, E e fs → F e) : Prog.Sat P (onError x cleanup) Q (fun e _ => F e) := by
  intro fs hfs
  have h := h fs hfs
  unfold onError
  rcases hx : x fs with ⟨e | a, fs'⟩ <;> rw [hx] at h
  · exact hE _ _ h
  · exact h

theorem sat_extNewMetaBlock (fs : ExtFs) :
    Prog.Sat (· = fs) extNewMetaBlock (fun nb fs' => fs.Took fs' [nb]) (fun e _ => e ≠ .assert) := by
  refine Prog.Sat.bind ((sat_access fs).conseq (fun _ => id) (fun _ _ => id) fun _ _ h => h.2)
    fun _ => Prog.Sat.get_bind ?_
  rintro _ ⟨l, rfl⟩
  rcases hf : fs.fresh with - | ⟨b, rest⟩
  · exact Prog.Sat.fail fun _ _ => by simp
  · refine Prog.Sat.modify_bind (M := fun fs' => fs.Took fs' [b]) (Prog.Sat.pure fun _ => id) ?_
    rintro _ rfl
    exact ⟨rfl, rfl, rfl, hf⟩

theorem sat_newNode (fs : ExtFs) (t : Tree) (allocated : List ℕ) :
    Prog.Sat (· = fs) (newNode t allocated) (fun nb fs' => fs.Took fs' [nb])
      (fun e _ => e ≠ .assert) := by
  refine Prog.Sat.bind (sat_onError (sat_extNewMetaBlock fs) fun _ _ => id) fun nb =>
    Prog.Sat.of_forall ?_
  intro s hs
  refine Prog.Sat.bind (sat_onError (sat_access s) fun _ _ h => h.2) fun _ => Prog.Sat.pure ?_
  intro s' hs'
  exact hs.trans hs'.took

/-! ## Splitting -/

section Split

variable {cap : ℕ}

theorem Ctx.space_le (hcap : Tree.rootSpace ≤ cap) {d D : ℕ} (c : Ctx d D) : c.space cap ≤ cap := by
  cases c with
  | nil => exact hcap
  | cons => exact le_rfl

/-- Where a path leads after a split at `key` into `left` and `right`, whose
    block `newblock` is: to the half chosen, with the other half beside it. -/
structure SplitTo (cap : ℕ) {d D : ℕ} (insRight : Bool) (key : ℕ) (left right : Node d)
    (ctx ctx' : Ctx d D) (news : List ℕ) : Prop where
  ok : ctx'.Ok cap
  space : ctx'.space cap = cap
  low : ctx'.low = if insRight then key else ctx.low
  ceil : ctx'.ceil = if insRight then ctx.ceil else key
  floor : ctx'.floor ≤ if insRight then key else ctx.floor
  before : ctx'.before = ctx.before ++ if insRight then left.extents else []
  after : ctx'.after = (if insRight then [] else right.extents) ++ ctx.after
  blocks : ctx'.blocks.Perm (news ++ ctx.blocks ++ if insRight then left.blocks else right.blocks)

/-- The halves of a node under path `ctx`, cut at `key`. -/
structure Halves (cap : ℕ) {d D : ℕ} (key : ℕ) (left right : Node d) (ctx : Ctx d D) : Prop where
  ctx_ok : ctx.Ok cap
  low_lt : ctx.low < key
  lt_ceil : key < ctx.ceil
  left_low : ctx.low ≤ left.low key
  left_ok : left.Ok cap cap key
  right_low : key ≤ right.low ctx.ceil
  right_ok : right.Ok cap cap ctx.ceil

theorem Halves.up {d D : ℕ} {key : ℕ} {left right : Node d} {l : Level (Node d)}
    {up : Ctx (d + 1) D} (hcap : Tree.rootSpace ≤ cap) (h : Halves cap key left right (.cons l up))
    (newblock : ℕ) :
    Halves cap key (d := d + 1)
      (IndexNode.mk l.maxEntries (l.left ++ [⟨l.firstBlock, l.leaf, left⟩]))
      (IndexNode.mk cap (⟨key, newblock, right⟩ :: l.right)) up := by
  obtain ⟨⟨hup, h2, hmax, hlen, hfirst, hleft, -, hright⟩, hlt, hceil, hll, hlo, hrl, hro⟩ := h
  have hspace := up.space_le hcap
  have hup_le := hright.top_le entry_lt
  have hlow : up.low < key := by
    have := hleft.top_le entry_lt
    exact Nat.lt_of_le_of_lt (hfirst.trans this) hlt
  refine ⟨hup, hlow, Nat.lt_of_lt_of_le hceil hup_le, ?_, ?_, le_rfl, ?_⟩
  · show up.low ≤ top Index.firstBlock key (l.left ++ [_])
    rw [top_append]
    exact hfirst
  · refine Node.ok_index.2 ⟨h2, hmax.trans hspace, ?_, by simp, ?_⟩
    · simp only [List.length_append, List.length_cons, List.length_nil]
      omega
    · rw [chain_append]
      exact ⟨hleft, ⟨hlt, hll, hlo⟩, trivial⟩
  · have hcap' := hmax.trans hspace
    refine Node.ok_index.2 ⟨h2.trans hcap', le_rfl, ?_, by simp, ⟨hceil, hrl, hro⟩, hright⟩
    simp only [List.length_cons]
    omega

/-- The level with room takes the new entry. -/
theorem splitTo_room {d D : ℕ} (insRight : Bool) {key : ℕ} (newblock : ℕ) {left right : Node d}
    {l : Level (Node d)} {up : Ctx (d + 1) D} (h : Halves cap key left right (.cons l up))
    (hroom : l.left.length + 1 + l.right.length < l.maxEntries) :
    SplitTo cap insRight key left right (.cons l up)
      (if insRight then
        .cons ⟨l.maxEntries, l.left ++ [⟨l.firstBlock, l.leaf, left⟩], key, newblock, l.right⟩ up
      else .cons { l with right := ⟨key, newblock, right⟩ :: l.right } up) [newblock] := by
  obtain ⟨⟨hup, h2, hmax, hlen, hfirst, hleft, -, hright⟩, hlt, hceil, hll, hlo, hrl, hro⟩ := h
  cases insRight
  · refine ⟨⟨hup, h2, hmax, ?_, hfirst, hleft, hlt, ⟨hceil, hrl, hro⟩, hright⟩, rfl, rfl, rfl,
      le_rfl, ?_, ?_, ?_⟩
    · simp only [List.length_cons]
      omega
    · simp [Ctx.before]
    · simp [Ctx.after]
    · refine List.perm_iff_count.2 fun b => ?_
      simp only [Ctx.blocks, Ctx.entryBlocks, List.flatMap_cons, List.count_append,
        List.count_cons, List.count_nil, Bool.false_eq_true, if_false]
      omega
  · refine ⟨⟨hup, h2, hmax, ?_, ?_, ?_, hceil, hright⟩, rfl, rfl, rfl, ?_, ?_, ?_, ?_⟩
    · simp only [List.length_append, List.length_cons, List.length_nil]
      omega
    · rw [top_append]
      exact hfirst
    · rw [chain_append]
      exact ⟨hleft, ⟨hlt, hll, hlo⟩, trivial⟩
    · simp [Ctx.floor]
    · simp [Ctx.before]
    · simp [Ctx.after]
    · refine List.perm_iff_count.2 fun b => ?_
      simp only [Ctx.blocks, Ctx.entryBlocks, List.flatMap_append, List.flatMap_cons,
        List.flatMap_nil, List.count_append, List.count_cons, List.count_nil, if_true]
      omega

/-- A full level is cut, the level above takes its right half. -/
theorem splitTo_full {d D : ℕ} {insRight : Bool} {key newblock : ℕ} {left right : Node d}
    {l : Level (Node d)} {up up' : Ctx (d + 1) D} {news : List ℕ} (hcap : Tree.rootSpace ≤ cap)
    (h : Halves cap key left right (.cons l up))
    (hs : SplitTo cap insRight key (d := d + 1)
      (IndexNode.mk l.maxEntries (l.left ++ [⟨l.firstBlock, l.leaf, left⟩]))
      (IndexNode.mk cap (⟨key, newblock, right⟩ :: l.right)) up up' news) :
    SplitTo cap insRight key left right (.cons l up)
      (if insRight then .cons ⟨cap, [], key, newblock, l.right⟩ up'
      else .cons { l with right := [] } up') (newblock :: news) := by
  have hhalves := h.up hcap newblock
  obtain ⟨⟨hup, h2, hmax, hlen, hfirst, hleft, -, hright⟩, hlt, hceil, hll, hlo, hrl, hro⟩ := h
  obtain ⟨hok, hspace, hlow, hceil', hfloor, hbefore, hafter, hblocks⟩ := hs
  have hmax' := (Node.ok_index.1 hhalves.left_ok).2.1
  cases insRight
  · simp only [Bool.false_eq_true, if_false] at *
    refine ⟨⟨hok, h2, by rw [hspace]; exact hmax', ?_, by rw [hlow]; exact hfirst, hleft, ?_,
      trivial⟩, rfl, rfl, hceil', ?_, ?_, ?_, ?_⟩
    · show l.left.length + 1 + 0 ≤ l.maxEntries
      omega
    · rw [top_nil, hceil']
      exact hlt
    · show (if l.left = [] then up'.floor else l.firstBlock) ≤
        if l.left = [] then up.floor else l.firstBlock
      split_ifs
      · exact hfloor
      · exact le_rfl
    · simp [Ctx.before, hbefore]
    · simp [Ctx.after, hafter, Node.extents]
    · refine List.perm_iff_count.2 fun b => ?_
      have hb := List.perm_iff_count.1 hblocks b
      simp only [Node.blocks, List.flatMap_cons, List.count_append, List.count_cons] at hb
      simp only [Ctx.blocks, List.flatMap_nil, List.count_append, List.count_cons,
        List.count_nil, Bool.false_eq_true, if_false]
      have hfm : List.flatMap (fun e : Index (Node d) => e.leaf :: e.node.blocks) l.right =
        List.flatMap Ctx.entryBlocks l.right := rfl
      rw [hfm] at hb
      omega
  · simp only [if_true] at *
    have h2' : 2 ≤ cap := h2.trans hmax'
    refine ⟨⟨hok, h2', by rw [hspace], ?_, by rw [hlow]; exact le_rfl, trivial, ?_, ?_⟩, rfl,
      rfl, ?_, ?_, ?_, ?_, ?_⟩
    · show 0 + 1 + l.right.length ≤ cap
      omega
    · rw [hceil']
      exact hceil
    · rw [hceil']
      exact hright
    · show top Index.firstBlock up'.ceil l.right = top Index.firstBlock up.ceil l.right
      rw [hceil']
    · exact hfloor
    · simp [Ctx.before, hbefore, Node.extents]
    · simp [Ctx.after, hafter]
    · refine List.perm_iff_count.2 fun b => ?_
      have hb := List.perm_iff_count.1 hblocks b
      simp only [Node.blocks, List.flatMap_append, List.flatMap_cons, List.flatMap_nil,
        List.count_append, List.count_cons, List.count_nil] at hb
      simp only [Ctx.blocks, List.flatMap_nil, List.count_append, List.count_cons,
        List.count_nil, if_true]
      have hfm : List.flatMap (fun e : Index (Node d) => e.leaf :: e.node.blocks) l.left =
        List.flatMap Ctx.entryBlocks l.left := rfl
      rw [hfm] at hb
      omega

/-- **`ext4_ext_split_node` above the leaf.**  It cannot run past the root if
    there is a level with room. -/
theorem sat_splitUp (hcap : Tree.rootSpace ≤ cap) (insRight : Bool) (key : ℕ) :
    ∀ {d D : ℕ} (left right : Node d) (newblock : ℕ) (allocated : List ℕ) (ctx : Ctx d D)
      (fs : ExtFs), Halves cap key left right ctx → cap = extSpaceBlockIdx fs.blockSize →
    Prog.Sat (· = fs) (splitUp insRight key left right newblock allocated ctx)
      (fun ctx' fs' => ∃ news, fs.Took fs' news ∧
        SplitTo cap insRight key left right ctx ctx' (newblock :: news))
      (fun e _ => ctx.hasRoom = true → e ≠ .assert)
  | _, _, _, _, _, _, .nil, _, _, _ => Prog.Sat.fail fun _ _ h => by cases h
  | d, D, left, right, newblock, allocated, .cons l up, fs, h, hfs => by
    unfold splitUp
    by_cases hroom : l.left.length + 1 + l.right.length < l.maxEntries
    · have hs := splitTo_room insRight newblock h hroom
      have hkey : key ≠ l.firstBlock := Nat.ne_of_gt h.low_lt
      rw [if_pos hroom, if_neg hkey]
      cases insRight
      · refine Prog.Sat.pure ?_
        rintro s rfl
        exact ⟨[], (ExtFs.Same.refl s).took, hs⟩
      · refine Prog.Sat.pure ?_
        rintro s rfl
        exact ⟨[], (ExtFs.Same.refl s).took, hs⟩
    · rw [if_neg hroom]
      refine Prog.Sat.get_bind ?_
      rintro s rfl
      rw [← hfs]
      refine Prog.Sat.bind ((sat_newNode s _ allocated).conseq (fun _ => id) (fun _ _ => id)
        fun e _ he _ => he) fun upblock => Prog.Sat.of_forall ?_
      intro s' hs'
      refine Prog.Sat.bind ((sat_splitUp hcap insRight key _ _ upblock (allocated ++ [upblock]) up
        s' (h.up hcap newblock) (by rw [hs'.blockSize]; exact hfs)).conseq (fun _ => id) (fun _ _ => id) ?_)
        fun up' => ?_
      · intro e _ he hr
        rw [Ctx.hasRoom, decide_eq_false hroom, Bool.false_or] at hr
        exact he hr
      · cases insRight
        all_goals
          refine Prog.Sat.pure ?_
          rintro s'' ⟨news, hs'', hsplit⟩
          exact ⟨upblock :: news, hs'.trans hs'', splitTo_full hcap h hsplit⟩

/-! ## The leaf -/

variable {D : ℕ} {p : Path D} {newext : Extent} {noCombine : Bool}

/-- A leaf is split when it is full and the new extent is not merged. -/
theorem needSplit_at (hp : p.Fits cap newext.firstBlock)
    (h : extInsertLeaf p newext noCombine = .needSplit) : ∃ left ex right,
      p.leaf = .at left ex right ∧ left.length + 1 + right.length = p.maxEntries ∧
      (noCombine = true ∨ extCanAppend ex newext = false ∧ extCanPrepend ex newext = false) := by
  have h2 := (Node.ok_leaf.1 hp.node).1
  change 2 ≤ p.maxEntries at h2
  rcases hl : p.leaf with - | ⟨left, ex, right⟩
  · unfold extInsertLeaf Path.full at h
    simp only [hl, LeafCursor.exts, List.length_nil] at h
    rw [if_neg (by simp; omega)] at h
    cases h
  · rcases extInsertLeaf_at hl h with h | ⟨-, -, h⟩ | ⟨-, -, -, h⟩ |
      ⟨hmerge, ⟨hfull, -⟩ | ⟨-, -, h⟩ | ⟨-, -, h⟩⟩
    iterate 3 cases h
    · refine ⟨left, ex, right, rfl, ?_, hmerge⟩
      simp only [Path.full, hl, LeafCursor.exts, List.length_append, List.length_cons,
        decide_eq_true_eq] at hfull
      omega
    · cases h
    · cases h

/-- The key of the right half. -/
def splitKey (newext : Extent) (right : List Extent) : ℕ :=
  match right with
  | next :: _ => next.firstBlock
  | [] => newext.firstBlock

/-- The halves of a full leaf. -/
theorem leaf_halves (hcap : Tree.rootSpace ≤ cap) (hp : p.Fits cap newext.firstBlock)
    (hno : NoOverlap p.plug newext) (hn : newext.Ok (2 ^ 32)) {left right : List Extent}
    {ex : Extent} (hl : p.leaf = .at left ex right)
    (hlen : left.length + 1 + right.length = p.maxEntries) :
    Halves cap (splitKey newext right) (Leaf.mk p.maxEntries (left ++ [ex]) : Node 0)
      (Leaf.mk cap right : Node 0) p.ctx := by
  obtain ⟨-, hlow, hleft, hex, hright, hcur, hgt⟩ := hp.leaf_ok hl
  obtain ⟨h2, hmax, -, -⟩ := Node.ok_leaf.1 hp.node
  change 2 ≤ p.maxEntries at h2
  have hmax : p.maxEntries ≤ cap := hmax.trans (p.ctx.space_le hcap)
  have hle := hleft.top_le extent_lt
  have hmem : ex ∈ p.leaf.exts := by rw [hl]; simp [LeafCursor.exts]
  -- the key bounds both halves: it is the next extent's, or the new one's,
  -- which then comes after an extent that is not the only one
  have hkey : ex.firstBlock + ex.getActualLen ≤ splitKey newext right ∧
      splitKey newext right < p.ctx.ceil ∧
      splitKey newext right ≤ top Extent.firstBlock p.ctx.ceil right := by
    rcases right with - | ⟨next, rest⟩
    · refine ⟨?_, hp.lt_ceil, hp.lt_ceil.le⟩
      have h1 := hn.1
      have hne : left ≠ [] := by
        rintro rfl
        simp only [List.length_nil] at hlen
        omega
      have hexle := hcur.resolve_right hne
      have hexlen := hex.1
      rcases hno.apart hn hmem hex with h | h
      · exact h
      · omega
    · exact ⟨hex.2.1, (hright.key_lt extent_lt next (List.mem_cons_self ..)).2, le_rfl⟩
  have hexlen := hex.1
  refine ⟨hp.ctx, by omega, hkey.2.1, ?_, ?_, hkey.2.2, ?_⟩
  · show p.ctx.low ≤ top Extent.firstBlock _ (left ++ [ex])
    rw [top_append]
    exact hlow
  · refine Node.ok_leaf.2 ⟨h2, hmax, ?_, ?_⟩
    · simp only [List.length_append, List.length_cons, List.length_nil]
      omega
    · rw [chain_append]
      exact ⟨hleft, ⟨hex.1, hkey.1, hex.2.2⟩, trivial⟩
  · refine Node.ok_leaf.2 ⟨h2.trans hmax, le_rfl, ?_, hright⟩
    show right.length ≤ cap
    omega

/-- Path `p'` serves the new extent as `p` does: nodes have been split or the
    tree has grown, which took the blocks `news`. -/
structure Path.Moved (cap : ℕ) (newext : Extent) (noCombine : Bool) {D D' : ℕ} (p : Path D)
    (p' : Path D') (news : List ℕ) : Prop where
  fits : p'.Fits cap newext.firstBlock
  extents : p'.plug.root.extents = p.plug.root.extents
  blocks : p'.plug.root.blocks.Perm (news ++ p.plug.root.blocks)
  insertOk : InsertOk p' newext noCombine ↔ InsertOk p newext noCombine

theorem moved_left {ctx : Ctx 0 D} {news : List ℕ} (hcap : Tree.rootSpace ≤ cap)
    (hp : p.Fits cap newext.firstBlock)
    (hno : NoOverlap p.plug newext) (hn : newext.Ok (2 ^ 32)) {left rest : List Extent}
    {ex next : Extent} (hl : p.leaf = .at left ex (next :: rest))
    (hlen : left.length + 1 + (next :: rest).length = p.maxEntries)
    (hs : SplitTo cap false next.firstBlock (Leaf.mk p.maxEntries (left ++ [ex]) : Node 0)
      (Leaf.mk cap (next :: rest) : Node 0) p.ctx ctx news) :
    p.Moved cap newext noCombine ⟨p.maxEntries, .at left ex [], ctx⟩ news ∧
      Path.full ⟨p.maxEntries, .at left ex [], ctx⟩ = false := by
  obtain ⟨-, hlow, hleft, hex, hright, hcur, hgt⟩ := hp.leaf_ok hl
  obtain ⟨-, -, -, hll, hlo, -, -⟩ := leaf_halves hcap hp hno hn hl hlen
  obtain ⟨hok, hspace, hlow', hceil, hfloor, hbefore, hafter, hblocks⟩ := hs
  simp only [Bool.false_eq_true, if_false] at hlow' hceil hfloor hbefore hafter hblocks
  have hend := end_le_top hp hno hn hl nofun
  refine ⟨⟨⟨hok, hfloor.trans hp.floor_le, ?_, ?_, ?_, hcur, nofun⟩, ?_, ?_, ?_⟩, ?_⟩
  · show newext.firstBlock < ctx.ceil
    rw [hceil]
    exact hgt next (List.mem_cons_self ..)
  · show ctx.low ≤ top Extent.firstBlock ctx.ceil (left ++ [ex])
    rw [hlow', hceil]
    exact hll
  · show Node.Ok cap (d := 0) (ctx.space cap) ctx.ceil (Leaf.mk p.maxEntries (left ++ [ex]))
    rw [hspace, hceil]
    exact hlo
  · rw [Path.plug, Path.plug, Ctx.plug_extents, Ctx.plug_extents, hbefore, hafter]
    simp [Path.node, hl, LeafCursor.exts, Node.extents]
  · refine List.perm_iff_count.2 fun b => ?_
    have h1 := List.perm_iff_count.1 (Ctx.plug_blocks ctx (Leaf.mk p.maxEntries (left ++ [ex]))) b
    have h2 := List.perm_iff_count.1 (Ctx.plug_blocks p.ctx p.node) b
    have h3 := List.perm_iff_count.1 hblocks b
    simp only [Node.blocks, List.append_nil, List.count_append] at h1 h2 h3
    rw [List.count_append]
    show List.count b (ctx.plug (Leaf.mk p.maxEntries (left ++ [ex]))).root.blocks =
      _ + List.count b (p.ctx.plug p.node).root.blocks
    omega
  · have hle := hright.top_le extent_lt
    simp only [top_cons] at hend hle
    simp only [InsertOk, hl, hceil]
    exact and_congr_left fun _ => ⟨fun h => by omega, fun _ => hend⟩
  · simp only [List.length_cons] at hlen
    simp only [Path.full, LeafCursor.exts, List.length_append, List.length_cons, List.length_nil,
      decide_eq_false_iff_not]
    omega

theorem moved_right {ctx : Ctx 0 D} {news : List ℕ} (hcap : Tree.rootSpace ≤ cap)
    (hp : p.Fits cap newext.firstBlock) (hno : NoOverlap p.plug newext) (hn : newext.Ok (2 ^ 32))
    {left : List Extent} {ex : Extent} (hl : p.leaf = .at left ex [])
    (hlen : left.length + 1 + 0 = p.maxEntries)
    (hmerge : noCombine = true ∨ extCanAppend ex newext = false ∧ extCanPrepend ex newext = false)
    (hs : SplitTo cap true newext.firstBlock (Leaf.mk p.maxEntries (left ++ [ex]) : Node 0)
      (Leaf.mk cap [] : Node 0) p.ctx ctx news) :
    p.Moved cap newext noCombine ⟨cap, .none, ctx⟩ news ∧
      Path.full ⟨cap, .none, ctx⟩ = false := by
  obtain ⟨-, -, -, -, -, hrl, hro⟩ := leaf_halves hcap hp hno hn hl hlen
  obtain ⟨hok, hspace, hlow', hceil, hfloor, hbefore, hafter, hblocks⟩ := hs
  simp only [if_true] at hlow' hceil hfloor hbefore hafter hblocks
  refine ⟨⟨⟨hok, hfloor, by rw [hceil]; exact hp.lt_ceil, ?_, ?_, trivial⟩, ?_, ?_, ?_⟩, ?_⟩
  · show ctx.low ≤ ctx.ceil
    rw [hlow', hceil]
    exact hp.lt_ceil.le
  · show Node.Ok cap (d := 0) (ctx.space cap) ctx.ceil (Leaf.mk cap [])
    rw [hspace, hceil]
    exact hro
  · rw [Path.plug, Path.plug, Ctx.plug_extents, Ctx.plug_extents, hbefore, hafter]
    simp [Path.node, hl, LeafCursor.exts, Node.extents]
  · refine List.perm_iff_count.2 fun b => ?_
    have h1 := List.perm_iff_count.1 (Ctx.plug_blocks ctx (Leaf.mk cap [])) b
    have h2 := List.perm_iff_count.1 (Ctx.plug_blocks p.ctx p.node) b
    have h3 := List.perm_iff_count.1 hblocks b
    simp only [Node.blocks, List.append_nil, List.count_append] at h1 h2 h3
    rw [List.count_append]
    show List.count b (ctx.plug (Leaf.mk cap [])).root.blocks =
      _ + List.count b (p.ctx.plug p.node).root.blocks
    omega
  · simp only [InsertOk, hl, hceil]
    refine and_congr_right fun _ => ⟨fun _ => ?_, fun _ => trivial⟩
    rcases hmerge with h | ⟨ha, hb⟩
    · exact .inl h
    · exact .inr (by simp [ha, hb])
  · have := (Node.ok_leaf.1 hro).1
    change 2 ≤ cap at this
    exact decide_eq_false (by show ¬ 0 = cap; omega)

/-- **`ext4_ext_split_node`** on a full leaf: the extents stay, and the path
    kept leads to a leaf with room. -/
theorem sat_extSplitNode (fs : ExtFs) (hcap : Tree.rootSpace ≤ cap)
    (hfs : cap = extSpaceBlock fs.blockSize) (hp : p.Fits cap newext.firstBlock)
    (hno : NoOverlap p.plug newext) (hn : newext.Ok (2 ^ 32))
    (hsplit : extInsertLeaf p newext noCombine = .needSplit) :
    Prog.Sat (· = fs) (extSplitNode p newext)
      (fun p' fs' => ∃ news, fs.Took fs' news ∧ p.Moved cap newext noCombine p' news ∧
        p'.full = false)
      (fun e _ => p.ctx.hasRoom = true → e ≠ .assert) := by
  obtain ⟨left, ex, right, hl, hlen, hmerge⟩ := needSplit_at hp hsplit
  have hhalves := leaf_halves hcap hp hno hn hl hlen
  unfold extSplitNode
  simp only [hl]
  refine Prog.Sat.get_bind ?_
  rintro s rfl
  refine Prog.Sat.bind ((sat_newNode s _ _).conseq (fun _ => id) (fun _ _ => id)
    fun e _ he _ => he) fun newblock => Prog.Sat.of_forall ?_
  intro s' hs'
  rw [← hfs]
  have hup (insRight : Bool) := sat_splitUp hcap insRight (splitKey newext right) _ _ newblock
    [newblock] p.ctx s' hhalves (by rw [hs'.blockSize]; exact hfs)
  rcases right with - | ⟨next, rest⟩
  · have hright : (!decide (newext.firstBlock < newext.firstBlock)) = true := by simp
    simp only [hright, if_true]
    refine Prog.Sat.bind (hup true) fun ctx => Prog.Sat.pure ?_
    rintro s'' ⟨news, hs'', hs⟩
    exact ⟨_, hs'.trans hs'', moved_right hcap hp hno hn hl hlen hmerge hs⟩
  · obtain ⟨-, -, -, -, -, -, hgt⟩ := hp.leaf_ok hl
    have hleft : (!decide (newext.firstBlock < next.firstBlock)) = false := by
      simpa using hgt next (List.mem_cons_self ..)
    simp only [hleft, Bool.false_eq_true, if_false]
    refine Prog.Sat.bind (hup false) fun ctx => Prog.Sat.pure ?_
    rintro s'' ⟨news, hs'', hs⟩
    exact ⟨_, hs'.trans hs'', moved_left hcap hp hno hn hl hlen hs⟩

end Split

end Lwext4
