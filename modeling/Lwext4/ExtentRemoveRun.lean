/-
  The walk of `ext4_extent_remove_space`.

  `RmPos.Ok` is the invariant of the walk: the tree is well formed but for the
  index node the walk is at, which may have become empty.  Along the walk, the
  extents passed and what stays of those ahead are together what stays of the
  old ones, and the blocks freed are accounted for (`RmGoes`): one round of the
  loop keeps this (`sat_rmStep`), so the whole walk does (`sat_rmLoop`).
-/
import Lwext4.ExtentRemoveSpec
import Lwext4.ExtentSplit

namespace Lwext4

open Lib

/-! ## Positions -/

/-- A well-formed node that may be an index node without entries. -/
def Node.Weak (cap : ℕ) : {d : ℕ} → (c hi : ℕ) → Node d → Prop
  | 0, c, hi, n => Node.Ok cap (d := 0) c hi n
  | _ + 1, c, hi, n => 2 ≤ IndexNode.maxEntries n ∧ IndexNode.maxEntries n ≤ c ∧
      (IndexNode.ents n).length ≤ IndexNode.maxEntries n ∧
      Chain Index.firstBlock (EntryOk cap) hi (IndexNode.ents n)

/-- No leaf below the node is empty. -/
def Node.NoEmpty : {d : ℕ} → Node d → Prop
  | 0, n => Leaf.exts n ≠ []
  | _ + 1, n => ∀ e ∈ IndexNode.ents n, NoEmpty e.node

/-- No leaf beside the path is empty. -/
def Ctx.NoEmpty : {d D : ℕ} → Ctx d D → Prop
  | _, _, .nil => True
  | _, _, .cons l up => (∀ e ∈ l.left ++ l.right, e.node.NoEmpty) ∧ up.NoEmpty

/-- No leaf of the tree is empty; the root may be. -/
def Tree.NoEmpty (t : Tree) : Prop := t.depth = 0 ∨ t.root.NoEmpty

section Walk

variable {cap d D : ℕ}

theorem Node.Weak.ok {c hi : ℕ} : ∀ {d : ℕ} {n : Node d}, n.Weak cap c hi → n.isEmpty = false →
    n.Ok cap c hi
  | 0, _, h, _ => h
  | _ + 1, _, h, he => Node.ok_index.2 ⟨h.1, h.2.1, h.2.2.1, by simpa [Node.isEmpty] using he, h.2.2.2⟩

theorem Node.extents_of_isEmpty : ∀ {d : ℕ} {n : Node d}, n.isEmpty = true →
    n.extents = [] ∧ n.blocks = []
  | 0, _, h => ⟨List.isEmpty_iff.1 h, rfl⟩
  | _ + 1, n, h => by
    have h : IndexNode.ents n = [] := List.isEmpty_iff.1 h
    exact ⟨by rw [Node.extents, h]; rfl, by rw [Node.blocks, h]; rfl⟩

theorem Ctx.NoEmpty.setBorder {border : ℕ} : ∀ {d D : ℕ} {c : Ctx d D}, c.NoEmpty →
    (c.setBorder border).NoEmpty
  | _, _, .nil, _ => trivial
  | _, _, .cons l up, h => by
    rw [Ctx.setBorder_cons]
    refine ⟨h.1, ?_⟩
    split_ifs
    · exact h.2.setBorder
    · exact h.2

theorem Ctx.noEmpty_of_plug : ∀ {d D : ℕ} {c : Ctx d D} {n : Node d}, (c.plug n).root.NoEmpty →
    c.NoEmpty ∧ n.NoEmpty
  | _, _, .nil, _, h => ⟨trivial, h⟩
  | _, _, .cons l up, n, h => by
    obtain ⟨hup, hn⟩ := noEmpty_of_plug (c := up) (n := l.plug n) h
    replace hn : ∀ e ∈ l.left ++ ⟨l.firstBlock, l.leaf, n⟩ :: l.right, e.node.NoEmpty := hn
    refine ⟨⟨fun e he => hn e ?_, hup⟩, hn ⟨l.firstBlock, l.leaf, n⟩ (by simp)⟩
    rcases List.mem_append.1 he with he | he
    · exact List.mem_append.2 (.inl he)
    · exact List.mem_append.2 (.inr (.tail _ he))

/-- A node under a well-formed path. -/
structure NodeAt (cap : ℕ) {d D : ℕ} (c : Ctx d D) (n : Node d) : Prop where
  ctx : c.Ok cap
  low : c.low ≤ n.low c.ceil
  node : n.Weak cap (c.space cap) c.ceil

/-- The invariant of the walk. -/
def RmPos.Ok (cap : ℕ) : RmPos D → Prop
  | .leaf maxEntries left rest ctx =>
    NodeAt cap ctx (Leaf.mk maxEntries (left ++ rest) : Node 0) ∧ (rest = [] → left = [])
  | .index d maxEntries left rest ctx =>
    NodeAt cap ctx (IndexNode.mk maxEntries (left ++ rest) : Node (d + 1))

/-- No leaf but the one the walk is at is empty. -/
def RmPos.NoEmpty : RmPos D → Prop
  | .leaf _ _ _ ctx => ctx.NoEmpty
  | .index _ _ left rest ctx => (∀ e ∈ left ++ rest, e.node.NoEmpty) ∧ ctx.NoEmpty

/-- The extents the walk has passed, those ahead of it, and the blocks of the
    nodes of the tree. -/
structure RmAccount where
  passed : List Extent
  todo : List Extent
  blocks : List ℕ

def RmPos.account : RmPos D → RmAccount
  | .leaf maxEntries left rest ctx =>
    ⟨ctx.before ++ left, rest ++ ctx.after, (RmPos.leaf maxEntries left rest ctx).tree.root.blocks⟩
  | .index d maxEntries left rest ctx =>
    ⟨ctx.before ++ left.flatMap (·.node.extents), rest.flatMap (·.node.extents) ++ ctx.after,
      (RmPos.index d maxEntries left rest ctx).tree.root.blocks⟩

/-- A tree the walk is through with. -/
def Node.account {d : ℕ} (n : Node d) : RmAccount := ⟨n.extents, [], n.blocks⟩

/-- What is left of the extents stays the same along the walk, and the blocks
    freed are those removed and those of the nodes removed. -/
structure RmGoes (from' to' : ℕ) (a a' : RmAccount) (fs fs' : ExtFs) : Prop where
  cut : a.passed ++ a.todo.flatMap (Extent.cut from' to') =
    a'.passed ++ a'.todo.flatMap (Extent.cut from' to')
  todo : ∀ e ∈ a'.todo, e ∈ a.todo
  freed : ∃ ranges nodes, fs'.freed = fs.freed ++ ranges ∧ a.blocks.Perm (a'.blocks ++ nodes) ∧
    (ranges.flatMap blocksOf ++ a'.todo.flatMap (Extent.gone from' to')).Perm
      (a.todo.flatMap (Extent.gone from' to') ++ nodes)

theorem RmGoes.trans {from' to' : ℕ} {a b c : RmAccount} {fs fs' fs'' : ExtFs}
    (h : RmGoes from' to' a b fs fs') (h' : RmGoes from' to' b c fs' fs'') :
    RmGoes from' to' a c fs fs'' where
  cut := h.cut.trans h'.cut
  todo e he := h.todo e (h'.todo e he)
  freed := by
    obtain ⟨r, n, hr, hn, hf⟩ := h.freed
    obtain ⟨r', n', hr', hn', hf'⟩ := h'.freed
    refine ⟨r ++ r', n ++ n', by rw [hr', hr, List.append_assoc], ?_, ?_⟩
    · refine List.perm_iff_count.2 fun x => ?_
      have h1 := List.perm_iff_count.1 hn x
      have h2 := List.perm_iff_count.1 hn' x
      simp only [List.count_append] at h1 h2 ⊢
      omega
    · refine List.perm_iff_count.2 fun x => ?_
      have h1 := List.perm_iff_count.1 hf x
      have h2 := List.perm_iff_count.1 hf' x
      simp only [List.count_append, List.flatMap_append] at h1 h2 ⊢
      omega

/-- Nothing is freed and no node removed. -/
theorem RmGoes.of_eq {from' to' : ℕ} {a a' : RmAccount} {fs fs' : ExtFs}
    (hcut : a.passed ++ a.todo.flatMap (Extent.cut from' to') =
      a'.passed ++ a'.todo.flatMap (Extent.cut from' to'))
    (htodo : ∀ e ∈ a'.todo, e ∈ a.todo) (hfreed : fs'.freed = fs.freed)
    (hblocks : a.blocks.Perm a'.blocks)
    (hgone : a'.todo.flatMap (Extent.gone from' to') = a.todo.flatMap (Extent.gone from' to')) :
    RmGoes from' to' a a' fs fs' where
  cut := hcut
  todo := htodo
  freed := ⟨[], [], by rw [hfreed, List.append_nil], by rwa [List.append_nil], by
    rw [List.append_nil, ← hgone]
    exact List.Perm.refl _⟩

/-- What the walk does in one round from account `a`: it is at a new position,
    or through with the tree. -/
def RmNext (cap from' to' : ℕ) (D : ℕ) (a : RmAccount) (noEmpty : Prop) (fs : ExtFs) :
    Option (RmPos D) → ExtFs → Prop
  | some pos, fs' => pos.Ok cap ∧ RmGoes from' to' a pos.account fs fs' ∧ (noEmpty → pos.NoEmpty)
  | none, fs' => ∃ n : Node D, fs'.tree = ⟨D, n⟩ ∧ n.Weak cap Tree.rootSpace (2 ^ 32) ∧
      RmGoes from' to' a n.account fs fs' ∧ (noEmpty → n.isEmpty = false → n.NoEmpty)

theorem RmNext.of_goes {from' to' : ℕ} {a b : RmAccount} {P Q : Prop} {fs fs' fs'' : ExtFs}
    (h : RmGoes from' to' a b fs fs') (hpq : P → Q) : ∀ {r : Option (RmPos D)},
    RmNext cap from' to' D b Q fs' r fs'' → RmNext cap from' to' D a P fs r fs''
  | some _, h' => ⟨h'.1, h.trans h'.2.1, fun hp => h'.2.2 (hpq hp)⟩
  | none, ⟨n, h1, h2, h3, h4⟩ => ⟨n, h1, h2, h.trans h3, fun hp => h4 (hpq hp)⟩

/-! ## One round -/

variable {from' to' : ℕ}

/-- The account of a node under a path, when the walk leaves it. -/
def leaveAccount (n : Node d) (c : Ctx d D) : RmAccount :=
  ⟨c.before ++ n.extents, c.after, (c.plug n).root.blocks⟩

theorem rmLeave_cons (n : Node d) (empty : Bool) (l : Level (Node d)) (up : Ctx (d + 1) D) :
    rmLeave n empty (.cons l up) =
      if empty then do
        extFreeBlocks l.leaf 1
        pure (some (.removeIdx l up))
      else pure (some (.past l up n)) := rfl

/-- The entry of an empty node goes: its block is freed, and the key left in
    its place bounds what is right of it. -/
theorem removeIdx_ok {l : Level (Node d)} {up : Ctx (d + 1) D} (h : (Ctx.cons l up).Ok cap) :
    (RmPos.removeIdx l up).Ok cap := by
  obtain ⟨hup, h2, hmax, hlen, hfirst, hleft, hkey, hright⟩ := h
  have hlen' : (l.left ++ l.right).length ≤ l.maxEntries := by
    rw [List.length_append]
    omega
  have hmono := hleft.mono (fun e h h' he hle => he.mono hle) hkey.le
  have hchain : Chain Index.firstBlock (EntryOk cap) up.ceil (l.left ++ l.right) :=
    chain_append _ _ |>.2 ⟨hmono, hright⟩
  show NodeAt cap (if l.left = [] then _ else up) _
  by_cases hl : l.left = []
  · rw [if_pos hl]
    rw [hl] at hfirst
    have hceil := hright.top_le entry_lt
    have hborder : l.firstBlock ≤ top Index.firstBlock l.firstBlock l.right ∧
        top Index.firstBlock l.firstBlock l.right < up.ceil ∧
        top Index.firstBlock l.firstBlock l.right ≤ top Index.firstBlock up.ceil l.right := by
      rcases hr : l.right with - | ⟨e, es⟩
      · rw [hr] at hkey
        exact ⟨le_rfl, hkey, hkey.le⟩
      · rw [hr] at hkey hright
        exact ⟨hkey.le, (hright.key_lt entry_lt e (List.mem_cons_self ..)).2, le_rfl⟩
    have hfloor := (hup.floor_le.trans hfirst).trans hborder.1
    refine ⟨hup.setBorder hfloor hborder.2.1, ?_, h2, ?_, hlen', ?_⟩
    · rw [Ctx.setBorder_ceil, hl]
      exact (Ctx.setBorder_low_le up).trans hborder.2.2
    · rw [Ctx.setBorder_space]
      exact hmax
    · rw [Ctx.setBorder_ceil]
      exact hchain
  · rw [if_neg hl]
    refine ⟨hup, ?_, h2, hmax, hlen', hchain⟩
    show up.low ≤ top Index.firstBlock up.ceil (l.left ++ l.right)
    obtain ⟨e, es, hes⟩ := List.exists_cons_of_ne_nil hl
    rw [hes] at hfirst ⊢
    exact hfirst

/-- The extents and node blocks around an entry that goes. -/
theorem removeIdx_account (l : Level (Node d)) (up : Ctx (d + 1) D) :
    (RmPos.removeIdx l up).account.passed = (Ctx.cons l up).before ∧
    (RmPos.removeIdx l up).account.todo = (Ctx.cons l up).after ∧
    (Ctx.cons l up).blocks.Perm ((RmPos.removeIdx l up).account.blocks ++ [l.leaf]) := by
  have hborder (b : ℕ) : (if l.left = [] then up.setBorder b else up).before = up.before ∧
      (if l.left = [] then up.setBorder b else up).after = up.after ∧
      (if l.left = [] then up.setBorder b else up).blocks = up.blocks := by
    split_ifs
    · exact ⟨Ctx.setBorder_before up, Ctx.setBorder_after up, Ctx.setBorder_blocks up⟩
    · exact ⟨rfl, rfl, rfl⟩
  obtain ⟨h1, h2, h3⟩ := hborder (top Index.firstBlock l.firstBlock l.right)
  refine ⟨?_, ?_, ?_⟩
  · show Ctx.before (if l.left = [] then _ else up) ++ _ = _
    rw [h1]
    rfl
  · show _ ++ Ctx.after (if l.left = [] then _ else up) = _
    rw [h2]
    rfl
  · refine List.perm_iff_count.2 fun x => ?_
    have h := List.perm_iff_count.1 (Ctx.plug_blocks (if l.left = [] then
      up.setBorder (top Index.firstBlock l.firstBlock l.right) else up)
      (IndexNode.mk l.maxEntries (l.left ++ l.right) : Node (d + 1))) x
    rw [List.count_append, h3] at h
    show _ = List.count x ((Ctx.plug (if l.left = [] then _ else up) _).root.blocks ++ [l.leaf])
    rw [List.count_append, h]
    simp only [Ctx.blocks, Node.blocks, List.flatMap_append, List.count_append, List.count_cons,
      List.count_nil]
    have hfm : (fun e : Index (Node d) => e.leaf :: e.node.blocks) = Ctx.entryBlocks := rfl
    rw [hfm]
    omega

/-- Leaving a node. -/
theorem sat_rmLeave (from' to' : ℕ) {n : Node d} {c : Ctx d D} (fs : ExtFs) (h : NodeAt cap c n) :
    Prog.Sat (· = fs) (rmLeave n n.isEmpty c)
      (fun r fs' => RmNext cap from' to' D (leaveAccount n c)
        (c.NoEmpty ∧ (n.isEmpty = false → n.NoEmpty)) fs r fs')
      (fun _ _ => False) := by
  rcases c with - | ⟨l, up⟩
  · refine Prog.Sat.modify_bind (M := fun fs' => fs'.tree = ⟨_, n⟩ ∧ fs'.freed = fs.freed)
      (Prog.Sat.pure ?_) ?_
    · rintro fs' ⟨htree, hfreed⟩
      refine ⟨n, htree, h.node, .of_eq ?_ nofun hfreed (List.Perm.refl _) rfl, fun hp => hp.2⟩
      simp [leaveAccount, Node.account, Ctx.before, Ctx.after]
    · rintro _ rfl
      exact ⟨rfl, rfl⟩
  · obtain ⟨hc, hlow, hn⟩ := h
    rw [rmLeave_cons]
    cases he : n.isEmpty
    · rw [if_neg (by decide)]
      obtain ⟨hup, h2, hmax, hlen, hfirst, hleft, hkey, hright⟩ := hc
      refine Prog.Sat.pure ?_
      rintro s rfl
      have hassoc : (l.left ++ [⟨l.firstBlock, l.leaf, n⟩]) ++ l.right =
          l.left ++ ⟨l.firstBlock, l.leaf, n⟩ :: l.right := by simp
      refine ⟨⟨hup, ?_, h2, hmax, ?_, ?_⟩, .of_eq ?_ (fun _ => id) rfl ?_ rfl,
        fun hp => ⟨?_, hp.1.2⟩⟩
      · show up.low ≤ top Index.firstBlock up.ceil ((l.left ++ [_]) ++ l.right)
        rw [hassoc, top_append]
        exact hfirst
      · simp only [List.length_append, List.length_cons, List.length_nil]
        omega
      · show Chain _ _ _ ((l.left ++ [_]) ++ l.right)
        rw [hassoc, chain_append, chain_cons, top_cons]
        exact ⟨hleft, ⟨hkey, hlow, hn.ok he⟩, hright⟩
      · simp [leaveAccount, RmPos.past, RmPos.account, Ctx.before, Ctx.after]
      · show ((up.plug ⟨_, l.left ++ ⟨l.firstBlock, l.leaf, n⟩ :: l.right⟩).root.blocks).Perm
          (up.plug ⟨_, (l.left ++ [_]) ++ l.right⟩).root.blocks
        rw [hassoc]
      · intro e hmem
        rw [hassoc] at hmem
        rcases List.mem_append.1 hmem with hm | hm
        · exact hp.1.1 e (List.mem_append.2 (.inl hm))
        · rcases List.mem_cons.1 hm with rfl | hm
          · exact hp.2 rfl
          · exact hp.1.1 e (List.mem_append.2 (.inr hm))
    · rw [if_pos rfl]
      refine Prog.Sat.modify_bind (M := fun fs' => fs'.freed = fs.freed ++ [(l.leaf, 1)])
        (Prog.Sat.pure ?_) (by rintro _ rfl; rfl)
      intro fs' hfreed
      obtain ⟨hext, hblk⟩ := Node.extents_of_isEmpty he
      obtain ⟨hpassed, htodo, hblocks⟩ := removeIdx_account l up
      refine ⟨removeIdx_ok hc, ⟨?_, ?_, [(l.leaf, 1)], [l.leaf], hfreed, ?_, ?_⟩, fun hp => ⟨hp.1.1, ?_⟩⟩
      · rw [hpassed, htodo, leaveAccount, hext, List.append_nil]
      · rw [htodo]
        exact fun _ => id
      · refine (Ctx.plug_blocks _ n).trans ?_
        rw [hblk, List.append_nil]
        exact hblocks
      · rw [htodo]
        exact List.perm_append_comm
      · split_ifs
        · exact hp.1.2.setBorder
        · exact hp.1.2

theorem sat_extFreeRanges : ∀ (rs : List (ℕ × ℕ)) (fs : ExtFs),
    Prog.Sat (· = fs) (extFreeRanges rs) (fun _ fs' => fs' = { fs with freed := fs.freed ++ rs })
      (fun _ _ => False)
  | [], fs => Prog.Sat.pure (by rintro _ rfl; simp)
  | (block, count) :: rs, fs => by
    refine Prog.Sat.modify_bind (M := (· = { fs with freed := fs.freed ++ [(block, count)] })) ?_
      (by rintro _ rfl; rfl)
    refine (sat_extFreeRanges rs _).conseq (fun _ => id) ?_ fun _ _ => id
    rintro _ _ rfl
    simp

/-- What stays of an extent that is reached is at most one piece. -/
theorem cut_length_le {e : Extent} (h : e.Reached from' to') :
    (e.cut from' to').length ≤ 1 := by
  have h1 := h.1
  unfold Extent.cut
  simp only
  split_ifs with hdis hf ht ht
  · exact le_rfl
  · have := h.2 hf
    omega
  · exact le_rfl
  · exact le_rfl
  · exact Nat.zero_le _

theorem flatMap_cut_length_le : ∀ {es : List Extent}, (∀ e ∈ es, e.Reached from' to') →
    (es.flatMap (Extent.cut from' to')).length ≤ es.length
  | [], _ => le_rfl
  | e :: es, h => by
    have h1 := cut_length_le (h e (List.mem_cons_self ..))
    have h2 := flatMap_cut_length_le fun x hx => h x (.tail _ hx)
    rw [List.flatMap_cons, List.length_append, List.length_cons]
    omega

theorem borderAfter_eq (left exts : List Extent) (c : Ctx 0 D) :
    borderAfter left exts c = c ∨ ∃ b, borderAfter left exts c = c.setBorder b := by
  unfold borderAfter
  split
  · exact .inr ⟨_, rfl⟩
  · exact .inl rfl

/-- What is left of a leaf is well formed under the path. -/
theorem removeLeaf_nodeAt (hft : from' ≤ to') {maxEntries : ℕ} {left rest : List Extent}
    {c : Ctx 0 D} (h : NodeAt cap c (Leaf.mk maxEntries (left ++ rest) : Node 0))
    (hreach : ∀ e ∈ rest, e.Reached from' to') :
    NodeAt cap (borderAfter left (left ++ rest.flatMap (Extent.cut from' to')) c)
      (Leaf.mk maxEntries (left ++ rest.flatMap (Extent.cut from' to')) : Node 0) := by
  obtain ⟨hc, hlow, h2, hmax, hlen, hchain⟩ := h
  replace hlow : c.low ≤ top Extent.firstBlock c.ceil (left ++ rest) := hlow
  replace hlen : (left ++ rest).length ≤ maxEntries := hlen
  replace hchain : Chain Extent.firstBlock Extent.Ok c.ceil (left ++ rest) := hchain
  rw [chain_append] at hchain
  obtain ⟨hcut, htop⟩ := chain_flatMap_cut hft hchain.2
  have hcount := flatMap_cut_length_le hreach
  have hlen' : (left ++ rest.flatMap (Extent.cut from' to')).length ≤ maxEntries := by
    rw [List.length_append] at hlen ⊢
    omega
  have hchain' : Chain Extent.firstBlock Extent.Ok c.ceil
      (left ++ rest.flatMap (Extent.cut from' to')) :=
    (chain_append _ _).2 ⟨extents_mono htop hchain.1, hcut⟩
  rcases left with - | ⟨e, es⟩
  · rcases hexts : rest.flatMap (Extent.cut from' to') with - | ⟨ex, exs⟩
    · exact ⟨hc, hc.low_lt.le, h2, hmax, Nat.zero_le _, trivial⟩
    · rw [hexts] at hchain' htop hlen'
      have hceil := (hchain'.key_lt extent_lt ex (List.mem_cons_self ..)).2
      have hfloor : c.floor ≤ ex.firstBlock := (hc.floor_le.trans hlow).trans htop
      refine ⟨hc.setBorder hfloor hceil, ?_, h2, ?_, hlen', ?_⟩
      · exact Ctx.setBorder_low_le c
      · show maxEntries ≤ (c.setBorder _).space cap
        rw [Ctx.setBorder_space]
        exact hmax
      · show Chain _ _ (c.setBorder _).ceil _
        rw [Ctx.setBorder_ceil]
        exact hchain'
  · exact ⟨hc, hlow, h2, hmax, hlen', hchain'⟩

/-- One round at a leaf. -/
theorem sat_rmStep_leaf (hft : from' ≤ to') {maxEntries : ℕ} {left rest : List Extent}
    {c : Ctx 0 D} (fs : ExtFs) (h : (RmPos.leaf maxEntries left rest c).Ok cap)
    (hreach : ∀ e ∈ rest, e.Reached from' to') :
    Prog.Sat (· = fs) (rmStep from' to' (.leaf maxEntries left rest c))
      (fun r fs' => RmNext cap from' to' D (RmPos.leaf maxEntries left rest c).account
        (RmPos.leaf maxEntries left rest c).NoEmpty fs r fs')
      (fun e _ => e = .assert ∧ left ++ rest = []) := by
  obtain ⟨hat, hrest⟩ := h
  simp only [rmStep]
  by_cases hne : left ++ rest = []
  · rw [hne]
    exact Prog.Sat.fail fun _ _ => ⟨rfl, rfl⟩
  have hne' : rest ≠ [] := fun h0 => hne (by rw [h0, hrest h0]; rfl)
  have hchain : Chain Extent.firstBlock Extent.Ok c.ceil (left ++ rest) := hat.node.2.2.2
  obtain ⟨f, t, hrange, hall⟩ := leafRange_spec from' to' hchain hne
  have hall : ∀ e ∈ rest, e.cut f t = e.cut from' to' ∧ e.gone f t = e.gone from' to' ∧
      (e.Reached from' to' → e.Reached f t) := fun e he => hall e (List.mem_append.2 (.inr he))
  have hcut : rest.flatMap (Extent.cut f t) = rest.flatMap (Extent.cut from' to') :=
    List.flatMap_congr fun e he => (hall e he).1
  have hgone : rest.flatMap (Extent.gone f t) = rest.flatMap (Extent.gone from' to') :=
    List.flatMap_congr fun e he => (hall e he).2.1
  obtain ⟨hexts, hfreed⟩ := removeLeafExts_spec left hne' ((chain_append _ _).1 hchain).2
    fun e he => (hall e he).2.2 (hreach e he)
  rw [hcut] at hexts
  rw [hgone] at hfreed
  have hat' := removeLeaf_nodeAt hft hat hreach
  simp only [hrange, extRemoveLeaf, hexts]
  generalize hctx : borderAfter left (left ++ rest.flatMap (Extent.cut from' to')) c = c' at hat' ⊢
  have hc' : c'.before = c.before ∧ c'.after = c.after ∧ c'.blocks = c.blocks ∧
      (c.NoEmpty → c'.NoEmpty) := by
    rcases borderAfter_eq left (left ++ rest.flatMap (Extent.cut from' to')) c with h | ⟨b, h⟩ <;>
      rw [hctx] at h <;> subst h
    · exact ⟨rfl, rfl, rfl, id⟩
    · exact ⟨Ctx.setBorder_before c, Ctx.setBorder_after c, Ctx.setBorder_blocks c,
        Ctx.NoEmpty.setBorder⟩
  refine Prog.Sat.bind ((sat_extFreeRanges _ fs).conseq (fun _ => id) (fun _ _ => id)
    fun _ _ => False.elim) fun _ => Prog.Sat.of_forall ?_
  rintro _ rfl
  refine (sat_rmLeave from' to' _ hat').conseq (fun _ => id) ?_ fun _ _ => False.elim
  intro r fs' hnext
  refine RmNext.of_goes ⟨?_, ?_, _, [], rfl, ?_, ?_⟩ (fun hp => ⟨hc'.2.2.2 hp, ?_⟩) hnext
  · show (c.before ++ left) ++ (rest ++ c.after).flatMap _ =
      (c'.before ++ (left ++ rest.flatMap _)) ++ c'.after.flatMap _
    rw [hc'.1, hc'.2.1, List.flatMap_append]
    simp only [List.append_assoc]
  · show ∀ e ∈ c'.after, e ∈ rest ++ c.after
    rw [hc'.2.1]
    exact fun e he => List.mem_append.2 (.inr he)
  · rw [List.append_nil]
    refine (Ctx.plug_blocks c _).trans ((Ctx.plug_blocks c' _).trans ?_).symm
    rw [hc'.2.2.1]
    exact List.Perm.refl _
  · show (List.flatMap blocksOf _ ++ c'.after.flatMap _).Perm ((rest ++ c.after).flatMap _ ++ [])
    rw [hc'.2.1, hfreed, List.flatMap_append, List.append_nil]
  · exact fun h0 hnil => by
      rw [Node.isEmpty, List.isEmpty_eq_false_iff] at h0
      exact h0 hnil

/-- Going down into a node of the tree. -/
theorem enter_ok : ∀ {d : ℕ} {n : Node d} {c : Ctx d D}, c.Ok cap → c.low ≤ n.low c.ceil →
    n.Ok cap (c.space cap) c.ceil → (RmPos.enter n c).Ok cap ∧
    (RmPos.enter n c).account = ⟨c.before, n.extents ++ c.after, (c.plug n).root.blocks⟩ ∧
    (c.NoEmpty → n.NoEmpty → (RmPos.enter n c).NoEmpty)
  | 0, _, _, hc, hlow, hn => by
    refine ⟨⟨⟨hc, hlow, hn⟩, fun _ => rfl⟩, ?_, fun h _ => h⟩
    simp only [RmPos.enter, RmPos.account, List.append_nil]
    rfl
  | _ + 1, ⟨maxEntries, ents⟩, c, hc, hlow, hn => by
    obtain ⟨h2, hmax, hlen, -, hchain⟩ := Node.ok_index.1 hn
    refine ⟨⟨hc, hlow, h2, hmax, hlen, hchain⟩, ?_, fun h h' => ⟨h', h⟩⟩
    simp only [RmPos.enter, RmPos.account, List.flatMap_nil, List.append_nil]
    rfl

/-- One round at an index node. -/
theorem sat_rmStep_index {maxEntries : ℕ} {left rest : List (Index (Node d))} {c : Ctx (d + 1) D}
    (fs : ExtFs) (h : (RmPos.index d maxEntries left rest c).Ok cap) :
    Prog.Sat (· = fs) (rmStep from' to' (.index d maxEntries left rest c))
      (fun r fs' => RmNext cap from' to' D (RmPos.index d maxEntries left rest c).account
        (RmPos.index d maxEntries left rest c).NoEmpty fs r fs')
      (fun e _ => e ≠ .assert) := by
  simp only [rmStep]
  obtain ⟨hc, hlow, h2, hmax, hlen, hchain⟩ := h
  replace hchain : Chain Index.firstBlock (EntryOk cap) c.ceil (left ++ rest) := hchain
  rcases hmore : RmPos.moreToRm to' rest with - | ix
  · have hpast : ∀ e ∈ rest.flatMap fun e => e.node.extents, to' < e.firstBlock := by
      rcases rest with - | ⟨ix, rest⟩
      · simp
      · rw [chain_append] at hchain
        obtain ⟨hext, hle⟩ := entries_chain hchain.2
        have hix : to' < ix.firstBlock := by
          by_contra hc
          simp [RmPos.moreToRm, hc] at hmore
        exact fun e he => Nat.lt_of_lt_of_le (Nat.lt_of_lt_of_le hix hle)
          (hext.key_lt extent_lt e he).1
    refine (sat_rmLeave from' to' fs ⟨hc, hlow, h2, hmax, hlen, hchain⟩).conseq (fun _ => id) ?_
      fun _ _ => False.elim
    intro r fs' hnext
    refine RmNext.of_goes ?_ (fun hp => ⟨hp.2, fun _ => hp.1⟩) hnext
    refine .of_eq ?_ ?_ rfl (List.Perm.refl _) ?_
    · simp [RmPos.account, leaveAccount, Node.extents, flatMap_cut_of_lt hpast]
    · exact fun e he => List.mem_append.2 (.inr he)
    · simp [RmPos.account, leaveAccount, flatMap_gone_of_lt hpast]
  · obtain ⟨rest', rfl⟩ : ∃ rest', rest = ix :: rest' := by
      rcases rest with - | ⟨ix', rest'⟩
      · cases hmore
      · simp only [RmPos.moreToRm] at hmore
        split_ifs at hmore
        exact ⟨rest', by rw [Option.some.inj hmore]⟩
    refine Prog.Sat.bind ((sat_readExtentTreeBlock fs ix.node).conseq (fun _ => id)
      (fun _ _ => id) fun e _ he => he.2) fun _ => Prog.Sat.pure ?_
    rintro _ ⟨l, rfl⟩
    rw [chain_append, chain_cons, top_cons] at hchain
    obtain ⟨hleft, ⟨hkey, hfirst, hnode⟩, hright⟩ := hchain
    have hlow' : c.low ≤ top Index.firstBlock ix.firstBlock left := by
      have h : c.low ≤ top Index.firstBlock c.ceil (left ++ ix :: rest') := hlow
      rwa [top_append, top_cons] at h
    have hlen' : left.length + 1 + rest'.length ≤ maxEntries := by
      have h : (left ++ ix :: rest').length ≤ maxEntries := hlen
      rw [List.length_append, List.length_cons] at h
      omega
    have hctx : (Ctx.cons ⟨maxEntries, left, ix.firstBlock, ix.leaf, rest'⟩ c).Ok cap :=
      ⟨hc, h2, hmax, hlen', hlow', hleft, hkey, hright⟩
    obtain ⟨hok, hacc, hne⟩ := enter_ok hctx hfirst hnode
    refine ⟨hok, ?_, fun hp => hne ⟨fun e he => hp.1 e ?_, hp.2⟩ (hp.1 ix (by simp))⟩
    · rw [List.tail_cons, hacc]
      refine .of_eq ?_ ?_ rfl (List.Perm.refl _) ?_ <;>
        simp [RmPos.account, Ctx.before, Ctx.after]
    · rcases List.mem_append.1 he with he | he
      · exact List.mem_append.2 (.inl he)
      · exact List.mem_append.2 (.inr (.tail _ he))

/-- **One round of the walk.** -/
theorem sat_rmStep (hft : from' ≤ to') {pos : RmPos D} (fs : ExtFs) (h : pos.Ok cap)
    (hreach : ∀ e ∈ pos.account.todo, e.Reached from' to') :
    Prog.Sat (· = fs) (rmStep from' to' pos)
      (fun r fs' => RmNext cap from' to' D pos.account pos.NoEmpty fs r fs') (fun _ _ => True) := by
  rcases pos with ⟨maxEntries, left, rest, c⟩ | ⟨d, maxEntries, left, rest, c⟩
  · exact (sat_rmStep_leaf hft fs h fun e he => hreach e (List.mem_append.2 (.inl he))).conseq
      (fun _ => id) (fun _ _ => id) fun _ _ _ => trivial
  · exact (sat_rmStep_index fs h).conseq (fun _ => id) (fun _ _ => id) fun _ _ _ => trivial

/-- **The walk.** -/
theorem sat_rmLoop (hft : from' ≤ to') : ∀ (fuel : ℕ) {pos : RmPos D} (fs : ExtFs), pos.Ok cap →
    (∀ e ∈ pos.account.todo, e.Reached from' to') →
    Prog.Sat (· = fs) (rmLoop from' to' fuel pos)
      (fun _ fs' => RmNext cap from' to' D pos.account pos.NoEmpty fs none fs') (fun _ _ => True)
  | 0, _, _, _, _ => Prog.Sat.fail fun _ _ => trivial
  | fuel + 1, pos, fs, h, hreach => by
    unfold rmLoop
    refine Prog.Sat.bind (sat_rmStep hft fs h hreach) fun r => Prog.Sat.of_forall ?_
    intro s hs
    rcases r with - | pos'
    · refine Prog.Sat.pure ?_
      rintro _ rfl
      exact hs
    · obtain ⟨hok, hgoes, hne⟩ := hs
      refine Prog.Sat.modify_bind (M := (· = { s with tree := pos'.tree })) ?_ (by rintro _ rfl; rfl)
      refine (sat_rmLoop hft fuel { s with tree := pos'.tree } hok fun e he =>
        hreach e (hgoes.todo e he)).conseq (fun _ => id) ?_ fun _ _ _ => trivial
      intro _ fs' hnext
      have hgoes' : RmGoes from' to' pos.account pos'.account fs { s with tree := pos'.tree } :=
        ⟨hgoes.cut, hgoes.todo, hgoes.freed⟩
      exact RmNext.of_goes (r := none) hgoes' hne hnext

end Walk

end Lwext4
