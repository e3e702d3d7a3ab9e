/-
  The extent tree of `ext4_extent.c`: extents, nodes, and paths into a tree.

  A node is typed by its depth, so all leaves are at the same depth.  An index
  entry holds the number of the block the source reads the next node from
  together with that node; a tree is used only while its node blocks are
  distinct (`Tree.Ok`), so this loses nothing.

  A path is the node it ends at, with the levels above it from the bottom up
  (`Ctx`).  `Ctx.plug` puts a node back; `plug_ok` says when the result is well
  formed.
-/
import Lwext4.Basic
import Lwext4.Lib.Chain

namespace Lwext4

open Lib

/-- `struct ext4_extent` in host order; `start` joins `start_hi` and
    `start_lo`. -/
structure Extent where
  firstBlock : ℕ
  blockCount : ℕ
  start : ℕ
  deriving DecidableEq

namespace Extent
variable (e : Extent)

/-- `ext4_ext_get_actual_len`. -/
def getActualLen : ℕ := if e.blockCount ≤ 2 ^ 15 then e.blockCount else e.blockCount - 2 ^ 15

/-- `ext4_ext_is_unwritten`. -/
def isUnwritten : Bool := decide (2 ^ 15 < e.blockCount)

/-- `ext4_ext_mark_unwritten`. -/
def markUnwritten : Extent := { e with blockCount := e.blockCount ||| 2 ^ 15 }

/-- Store a length, keeping the extent written or unwritten as `unwritten`
    says. -/
def setLen (len : ℕ) (unwritten : Bool) : Extent :=
  let e := { e with blockCount := len }
  if unwritten then e.markUnwritten else e

/-- The blocks the extent maps. -/
def covers (b : ℕ) : Bool := decide (e.firstBlock ≤ b ∧ b < e.firstBlock + e.getActualLen)

/-- What block `b` of the extent is mapped to, and whether it is unwritten. -/
def value (b : ℕ) : ℕ × Bool := (e.start + (b - e.firstBlock), e.isUnwritten)

/-- A nonempty extent that ends at or before `hi`. -/
def Ok (hi : ℕ) : Prop :=
  0 < e.getActualLen ∧ e.firstBlock + e.getActualLen ≤ hi ∧ e.blockCount < 2 ^ 16

variable {e}

theorem Ok.lt {hi : ℕ} (h : e.Ok hi) : e.firstBlock < hi := by
  have h1 := h.1
  have h2 := h.2.1
  omega

theorem Ok.mono {hi hi' : ℕ} (h : e.Ok hi) (hle : hi ≤ hi') : e.Ok hi' :=
  ⟨h.1, h.2.1.trans hle, h.2.2⟩

theorem Ok.len_le {hi : ℕ} (h : e.Ok hi) : e.getActualLen ≤ 2 ^ 15 := by
  have h3 := h.2.2
  unfold getActualLen
  split_ifs <;> omega

theorem or_bit15 {n : ℕ} (h : n < 2 ^ 15) : n ||| 2 ^ 15 = n + 2 ^ 15 := by
  have := Nat.two_pow_add_eq_or_of_lt h 1
  rw [Nat.mul_one] at this
  rw [Nat.or_comm, ← this, Nat.add_comm]

/-- A stored length is read back, with the mark. -/
theorem setLen_spec (e : Extent) (len : ℕ) (u : Bool) (h0 : 0 < len)
    (h : len < 2 ^ 15 ∨ len = 2 ^ 15 ∧ u = false) :
    (e.setLen len u).getActualLen = len ∧ (e.setLen len u).isUnwritten = u ∧
      (e.setLen len u).blockCount < 2 ^ 16 := by
  unfold setLen markUnwritten getActualLen isUnwritten
  rcases h with h | ⟨rfl, rfl⟩
  · cases u
    · simp
      omega
    · simp only [if_true, or_bit15 h]
      simp
      omega
  · simp

@[simp] theorem setLen_firstBlock (len : ℕ) (u : Bool) :
    (e.setLen len u).firstBlock = e.firstBlock := by
  unfold setLen markUnwritten; split_ifs <;> rfl

@[simp] theorem setLen_start (len : ℕ) (u : Bool) : (e.setLen len u).start = e.start := by
  unfold setLen markUnwritten; split_ifs <;> rfl

end Extent

/-- The logical blocks mapped by a list of extents. -/
def mapOf (es : List Extent) (b : ℕ) : Option (ℕ × Bool) :=
  (es.find? (·.covers b)).map (·.value b)

theorem mapOf_append (as bs : List Extent) (b : ℕ) :
    mapOf (as ++ bs) b = (mapOf as b).or (mapOf bs b) := by
  rw [mapOf, List.find?_append, mapOf, mapOf]
  cases as.find? (·.covers b) <;> rfl

theorem mapOf_cons (e : Extent) (es : List Extent) (b : ℕ) :
    mapOf (e :: es) b = if e.covers b then some (e.value b) else mapOf es b := by
  rw [mapOf, List.find?_cons]
  cases h : e.covers b <;> simp [mapOf]

@[simp] theorem mapOf_nil (b : ℕ) : mapOf [] b = none := rfl

/-! ## Nodes -/

/-- A leaf: `max_entries_count` of its header and its extents. -/
structure Leaf where
  maxEntries : ℕ
  exts : List Extent

/-- `struct ext4_extent_index`, with the node found in block `leaf`. -/
structure Index (α : Type) where
  firstBlock : ℕ
  leaf : ℕ
  node : α

/-- An index node. -/
structure IndexNode (α : Type) where
  maxEntries : ℕ
  ents : List (Index α)

/-- A node whose header says depth `d`. -/
@[reducible] def Node : ℕ → Type
  | 0 => Leaf
  | d + 1 => IndexNode (Node d)

namespace Node

/-- The extents of a subtree from left to right. -/
def extents : {d : ℕ} → Node d → List Extent
  | 0, n => Leaf.exts n
  | _ + 1, n => (IndexNode.ents n).flatMap fun e => extents e.node

/-- The blocks of the nodes below a node. -/
def blocks : {d : ℕ} → Node d → List ℕ
  | 0, _ => []
  | _ + 1, n => (IndexNode.ents n).flatMap fun e => e.leaf :: blocks e.node

/-- The first key of a node, `hi` if it is empty. -/
def low (hi : ℕ) : {d : ℕ} → Node d → ℕ
  | 0, n => top Extent.firstBlock hi (Leaf.exts n)
  | _ + 1, n => top Index.firstBlock hi (IndexNode.ents n)

/-- A well-formed subtree below `hi`: entries sorted and disjoint, keys
    bounding the subtrees, counts within capacity.  The node itself has room
    for at most `c` entries, the nodes below it for `cap`; every node has room
    for two, as those of the inode (4) and of a block (84 and more) have. -/
def Ok (cap : ℕ) : {d : ℕ} → (c hi : ℕ) → Node d → Prop
  | 0, c, hi, n => 2 ≤ Leaf.maxEntries n ∧ Leaf.maxEntries n ≤ c ∧
      (Leaf.exts n).length ≤ Leaf.maxEntries n ∧
      Chain Extent.firstBlock Extent.Ok hi (Leaf.exts n)
  | _ + 1, c, hi, n => 2 ≤ IndexNode.maxEntries n ∧ IndexNode.maxEntries n ≤ c ∧
      (IndexNode.ents n).length ≤ IndexNode.maxEntries n ∧ IndexNode.ents n ≠ [] ∧
      Chain Index.firstBlock
        (fun e h => e.firstBlock < h ∧ e.firstBlock ≤ low h e.node ∧ Ok cap cap h e.node)
        hi (IndexNode.ents n)

end Node

/-- The entries of an index node: keys increase and bound the subtrees. -/
def EntryOk (cap : ℕ) {d : ℕ} (e : Index (Node d)) (h : ℕ) : Prop :=
  e.firstBlock < h ∧ e.firstBlock ≤ e.node.low h ∧ e.node.Ok cap cap h

theorem Node.ok_leaf {cap c hi : ℕ} {n : Leaf} : Node.Ok cap (d := 0) c hi n ↔
    2 ≤ n.maxEntries ∧ n.maxEntries ≤ c ∧ n.exts.length ≤ n.maxEntries ∧
      Chain Extent.firstBlock Extent.Ok hi n.exts := Iff.rfl

theorem Node.ok_index {cap c hi d : ℕ} {n : IndexNode (Node d)} :
    Node.Ok cap (d := d + 1) c hi n ↔ 2 ≤ n.maxEntries ∧ n.maxEntries ≤ c ∧
      n.ents.length ≤ n.maxEntries ∧ n.ents ≠ [] ∧
      Chain Index.firstBlock (EntryOk cap) hi n.ents := Iff.rfl

/-- In both kinds of chains a key is below the next one. -/
theorem extent_lt (e : Extent) (h : ℕ) (he : e.Ok h) : e.firstBlock < h := he.lt

theorem entry_lt {cap d : ℕ} (e : Index (Node d)) (h : ℕ) (he : EntryOk cap e h) :
    e.firstBlock < h := he.1

/-- A node stays well formed when its bound is raised. -/
theorem Node.Ok.mono {cap : ℕ} : ∀ {d c hi hi' : ℕ} {n : Node d}, n.Ok cap c hi → hi ≤ hi' →
    n.Ok cap c hi'
  | 0, _, _, _, _, h, hle => ⟨h.1, h.2.1, h.2.2.1,
      Chain.mono (fun e _ _ he hab => Extent.Ok.mono (e := e) he hab) hle h.2.2.2⟩
  | d + 1, c, hi, hi', n, h, hle => by
    rw [Node.ok_index] at h ⊢
    refine ⟨h.1, h.2.1, h.2.2.1, h.2.2.2.1, h.2.2.2.2.mono (fun e a b he hab => ?_) hle⟩
    refine ⟨Nat.lt_of_lt_of_le he.1 hab, ?_, he.2.2.mono hab⟩
    have hlow := he.2.1
    revert hlow
    rcases d with - | d
    · show e.firstBlock ≤ top _ a e.node.exts → e.firstBlock ≤ top _ b e.node.exts
      cases e.node.exts with
      | nil => exact fun h => h.trans hab
      | cons => exact id
    · show e.firstBlock ≤ top _ a e.node.ents → e.firstBlock ≤ top _ b e.node.ents
      cases e.node.ents with
      | nil => exact fun h => h.trans hab
      | cons => exact id

theorem EntryOk.mono {cap d h h' : ℕ} {e : Index (Node d)} (he : EntryOk cap e h) (hle : h ≤ h') :
    EntryOk cap e h' := by
  have hn : Node.Ok cap (d := d + 1) 2 h ⟨2, [e]⟩ :=
    ⟨le_rfl, le_rfl, by simp, by simp, he, trivial⟩
  exact (hn.mono hle).2.2.2.2.1

/-- An extent tree: the root lies in the inode. -/
structure Tree where
  depth : ℕ
  root : Node depth

namespace Tree

/-- The logical map of the tree. -/
def map (t : Tree) (b : ℕ) : Option (ℕ × Bool) := mapOf t.root.extents b

/-- The number of entries that fit the inode. -/
def rootSpace : ℕ := 4

/-- A well-formed tree whose nodes are in different blocks. -/
structure Ok (cap : ℕ) (t : Tree) : Prop where
  node : t.root.Ok cap rootSpace (2 ^ 32)
  nodup : t.root.blocks.Nodup

end Tree

/-! ## Paths -/

/-- An index node on a path: the entry taken, those before and those after. -/
structure Level (α : Type) where
  maxEntries : ℕ
  left : List (Index α)
  firstBlock : ℕ
  leaf : ℕ
  right : List (Index α)

/-- The levels above a node of depth `d` in a tree of depth `D`, from the
    bottom up. -/
inductive Ctx : ℕ → ℕ → Type
  | nil {d : ℕ} : Ctx d d
  | cons {d D : ℕ} (l : Level (Node d)) (up : Ctx (d + 1) D) : Ctx d D

/-- The level with node `n` under its current entry. -/
def Level.plug {d : ℕ} (l : Level (Node d)) (n : Node d) : IndexNode (Node d) :=
  ⟨l.maxEntries, l.left ++ ⟨l.firstBlock, l.leaf, n⟩ :: l.right⟩

namespace Ctx

/-- The tree with node `n` at the end of the path. -/
def plug : {d D : ℕ} → Ctx d D → Node d → Tree
  | _, _, nil, n => ⟨_, n⟩
  | _, _, cons l up, n => up.plug (l.plug n)

/-- The extents left of the path. -/
def before : {d D : ℕ} → Ctx d D → List Extent
  | _, _, nil => []
  | _, _, cons l up => up.before ++ l.left.flatMap fun e => e.node.extents

/-- The extents right of the path. -/
def after : {d D : ℕ} → Ctx d D → List Extent
  | _, _, nil => []
  | _, _, cons l up => (l.right.flatMap fun e => e.node.extents) ++ up.after

/-- The blocks of an index entry and of the nodes below it. -/
def entryBlocks {d : ℕ} (e : Index (Node d)) : List ℕ := e.leaf :: e.node.blocks

/-- The blocks of the nodes on and beside the path, that of the node itself
    included. -/
def blocks : {d D : ℕ} → Ctx d D → List ℕ
  | _, _, nil => []
  | _, _, cons l up => l.leaf :: l.left.flatMap entryBlocks ++ l.right.flatMap entryBlocks ++ up.blocks

/-- The key the path leads to the node by. -/
def low : {d D : ℕ} → Ctx d D → ℕ
  | _, _, nil => 0
  | _, _, cons l _ => l.firstBlock

/-- The key of the entry after the path. -/
def ceil : {d D : ℕ} → Ctx d D → ℕ
  | _, _, nil => 2 ^ 32
  | _, _, cons l up => top Index.firstBlock up.ceil l.right

/-- How far the key can be lowered: along the left edge of the tree. -/
def floor : {d D : ℕ} → Ctx d D → ℕ
  | _, _, nil => 0
  | _, _, cons l up => if l.left = [] then up.floor else l.firstBlock

/-- The room in the node under the path. -/
def space (cap : ℕ) : {d D : ℕ} → Ctx d D → ℕ
  | _, _, nil => Tree.rootSpace
  | _, _, cons _ _ => cap

/-- The levels of a path into a well-formed tree. -/
def Ok (cap : ℕ) : {d D : ℕ} → Ctx d D → Prop
  | _, _, nil => True
  | _, _, cons l up => up.Ok cap ∧ 2 ≤ l.maxEntries ∧ l.maxEntries ≤ up.space cap ∧
      l.left.length + 1 + l.right.length ≤ l.maxEntries ∧
      up.low ≤ top Index.firstBlock l.firstBlock l.left ∧
      Chain Index.firstBlock (EntryOk cap) l.firstBlock l.left ∧
      l.firstBlock < top Index.firstBlock up.ceil l.right ∧
      Chain Index.firstBlock (EntryOk cap) up.ceil l.right

/-- A node is no deeper than its tree. -/
theorem depth_le : ∀ {d D : ℕ}, Ctx d D → d ≤ D
  | _, _, nil => le_rfl
  | _, _, cons _ up => Nat.le_of_succ_le up.depth_le

variable {cap : ℕ}

/-- **A well-formed node under a well-formed path gives a well-formed tree.** -/
theorem plug_ok : ∀ {d D : ℕ} {c : Ctx d D} {n : Node d}, c.Ok cap → c.low ≤ n.low c.ceil →
    n.Ok cap (c.space cap) c.ceil → (c.plug n).root.Ok cap Tree.rootSpace (2 ^ 32)
  | _, _, nil, _, _, _, hn => hn
  | _, _, cons l up, n, hc, hlow, hn => by
    obtain ⟨hup, h2, hcap, hlen, hfirst, hleft, hkey, hright⟩ := hc
    refine plug_ok (c := up) (n := l.plug n) hup ?_ ?_
    · show up.low ≤ top Index.firstBlock up.ceil (l.left ++ _ :: l.right)
      rw [top_append, top_cons]
      exact hfirst
    · refine (Node.ok_index (n := l.plug n)).2 ⟨h2, hcap, ?_, by simp [Level.plug], ?_⟩
      · simp only [Level.plug, List.length_append, List.length_cons]
        omega
      · rw [Level.plug, chain_append, top_cons]
        exact ⟨hleft, ⟨hkey, hlow, hn⟩, hright⟩

theorem plug_extents : ∀ {d D : ℕ} (c : Ctx d D) (n : Node d),
    (c.plug n).root.extents = c.before ++ n.extents ++ c.after
  | _, _, nil, n => by simp [plug, before, after]
  | _, _, cons l up, n => by
    rw [plug, plug_extents up, before, after]
    show up.before ++ (l.left ++ _ :: l.right).flatMap _ ++ up.after = _
    simp only [List.flatMap_append, List.flatMap_cons, List.append_assoc]

theorem plug_blocks : ∀ {d D : ℕ} (c : Ctx d D) (n : Node d),
    (c.plug n).root.blocks.Perm (c.blocks ++ n.blocks)
  | _, _, nil, n => by simp [plug, blocks]
  | _, _, cons l up, n => by
    rw [plug, blocks]
    refine (plug_blocks up (l.plug n)).trans ?_
    show (up.blocks ++ (l.left ++ _ :: l.right).flatMap entryBlocks).Perm _
    refine List.perm_iff_count.2 fun b => ?_
    simp only [List.flatMap_append, List.flatMap_cons, entryBlocks, List.count_append,
      List.count_cons]
    omega

/-- **A tree is well formed only if the path and the node at its end are.** -/
theorem of_plug_ok : ∀ {d D : ℕ} {c : Ctx d D} {n : Node d},
    (c.plug n).root.Ok cap Tree.rootSpace (2 ^ 32) →
    c.Ok cap ∧ c.low ≤ n.low c.ceil ∧ n.Ok cap (c.space cap) c.ceil
  | _, _, nil, _, h => ⟨trivial, Nat.zero_le _, h⟩
  | _, _, cons l up, n, h => by
    obtain ⟨hup, hlow, hn⟩ := of_plug_ok (c := up) (n := l.plug n) h
    obtain ⟨h2, hcap, hlen, -, hchain⟩ := Node.ok_index.1 hn
    replace hlow : up.low ≤ top Index.firstBlock up.ceil
      (l.left ++ ⟨l.firstBlock, l.leaf, n⟩ :: l.right) := hlow
    rw [top_append, top_cons] at hlow
    rw [Level.plug, chain_append, top_cons] at hchain
    obtain ⟨hleft, ⟨hkey, hfirst, hnode⟩, hright⟩ := hchain
    simp only [Level.plug, List.length_append, List.length_cons] at hlen
    exact ⟨⟨hup, h2, hcap, by omega, hlow, hleft, hkey, hright⟩, hfirst, hnode⟩

theorem Ok.low_lt : ∀ {d D : ℕ} {c : Ctx d D}, c.Ok cap → c.low < c.ceil
  | _, _, nil, _ => Nat.two_pow_pos 32
  | _, _, cons _ _, h => h.2.2.2.2.2.2.1

theorem Ok.ceil_le : ∀ {d D : ℕ} {c : Ctx d D}, c.Ok cap → c.ceil ≤ 2 ^ 32
  | _, _, nil, _ => le_rfl
  | _, _, cons _ _, h => (h.2.2.2.2.2.2.2.top_le entry_lt).trans h.1.ceil_le

theorem Ok.floor_le : ∀ {d D : ℕ} {c : Ctx d D}, c.Ok cap → c.floor ≤ c.low
  | _, _, nil, _ => le_rfl
  | _, _, cons l up, h => by
    unfold floor low
    split_ifs with hl
    · have := h.2.2.2.2.1
      rw [hl] at this
      exact h.1.floor_le.trans this
    · exact le_rfl

/-- `ext4_ext_correct_indexes` and the end of `ext4_ext_remove_idx`: store
    `border` as the key of the path, and in the levels above as long as the
    entry below is the first of its node. -/
def setBorder (border : ℕ) : {d D : ℕ} → Ctx d D → Ctx d D
  | _, _, nil => nil
  | _, _, cons l up =>
    cons { l with firstBlock := border } (if l.left = [] then up.setBorder border else up)

theorem setBorder_cons {border d D : ℕ} (l : Level (Node d)) (up : Ctx (d + 1) D) :
    (cons l up).setBorder border = cons { l with firstBlock := border }
      (if l.left = [] then up.setBorder border else up) := rfl

section
variable {border : ℕ}

@[simp] theorem setBorder_ceil : ∀ {d D : ℕ} (c : Ctx d D), (c.setBorder border).ceil = c.ceil
  | _, _, nil => rfl
  | _, _, cons l up => by
    rw [setBorder_cons, ceil, ceil]
    split_ifs
    · rw [setBorder_ceil up]
    · rfl

@[simp] theorem setBorder_before : ∀ {d D : ℕ} (c : Ctx d D),
    (c.setBorder border).before = c.before
  | _, _, nil => rfl
  | _, _, cons l up => by
    rw [setBorder_cons, before, before]
    split_ifs
    · rw [setBorder_before up]
    · rfl

@[simp] theorem setBorder_after : ∀ {d D : ℕ} (c : Ctx d D),
    (c.setBorder border).after = c.after
  | _, _, nil => rfl
  | _, _, cons l up => by
    rw [setBorder_cons, after, after]
    split_ifs
    · rw [setBorder_after up]
    · rfl

@[simp] theorem setBorder_blocks : ∀ {d D : ℕ} (c : Ctx d D),
    (c.setBorder border).blocks = c.blocks
  | _, _, nil => rfl
  | _, _, cons l up => by
    rw [setBorder_cons, blocks, blocks]
    split_ifs
    · rw [setBorder_blocks up]
    · rfl

@[simp] theorem setBorder_space (cap : ℕ) : ∀ {d D : ℕ} (c : Ctx d D),
    (c.setBorder border).space cap = c.space cap
  | _, _, nil => rfl
  | _, _, cons _ _ => rfl

theorem setBorder_low_le {d D : ℕ} (c : Ctx d D) : (c.setBorder border).low ≤ border := by
  cases c with
  | nil => exact Nat.zero_le _
  | cons l up => exact le_rfl

/-- **Correcting the indexes** is sound for every border the path can be
    lowered or raised to. -/
theorem Ok.setBorder : ∀ {d D : ℕ} {c : Ctx d D}, c.Ok cap → c.floor ≤ border →
    border < c.ceil → (c.setBorder border).Ok cap
  | _, _, nil, _, _, _ => trivial
  | _, _, cons l up, hc, hfloor, hceil => by
    obtain ⟨hup, h2, hcap, hlen, hfirst, hleft, hkey, hright⟩ := hc
    unfold floor at hfloor
    rw [setBorder_cons]
    unfold Ok
    by_cases hl : l.left = []
    · rw [if_pos hl] at hfloor
      have hlt : border < up.ceil :=
        Nat.lt_of_lt_of_le hceil (hright.top_le entry_lt)
      simp only [if_pos hl, setBorder_ceil, setBorder_space]
      refine ⟨hup.setBorder hfloor hlt, h2, hcap, hlen, ?_, ?_, hceil, hright⟩
      · rw [hl]; exact setBorder_low_le up
      · rw [hl]; trivial
    · rw [if_neg hl] at hfloor
      simp only [if_neg hl]
      refine ⟨hup, h2, hcap, hlen, ?_, hleft.mono (fun e h h' he hle => he.mono hle) hfloor, hceil,
        hright⟩
      revert hfirst
      cases hcs : l.left with
      | nil => exact absurd hcs hl
      | cons e es => exact id

end

end Ctx

end Lwext4
