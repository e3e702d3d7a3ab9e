/-
  Failed insertions of extents.

  `ext4_ext_split_node` moves entries to new nodes before it has all of them;
  when a later allocation fails the new nodes are freed with what has been
  moved.  `Tree.Clean` says that there is nothing to move below the topmost
  node that is cut; then, and only then, every failed insertion changes nothing
  (`extFindInsert_undone_iff`).
-/
import Lwext4.ExtentConvert

namespace Lwext4

open Lib

variable {newext : Extent} {noCombine : Bool} {cap : ℕ}

/-! ## What a failure leaves -/

/-- New blocks have been taken, and they and `allocated` are handed back. -/
def ExtFs.GaveBack (fs fs' : ExtFs) (allocated : List ℕ) : Prop :=
  ∃ news fr : List ℕ, fs.fresh = news ++ fs'.fresh ∧ fs'.freed = fs.freed ++ fr.map (·, 1) ∧
    fr.Perm (allocated ++ news)

theorem extFreeAll_run : ∀ (l : List ℕ) (fs : ExtFs),
    extFreeAll l fs = (.ok (), { fs with freed := fs.freed ++ l.map (·, 1) })
  | [], fs => by
    show (Except.ok (), fs) = _
    rw [List.map_nil, List.append_nil]
  | b :: l, fs => by
    show extFreeAll l { fs with freed := fs.freed ++ [(b, 1)] } = _
    rw [extFreeAll_run l, List.map_cons, List.append_assoc]
    rfl

theorem sat_newMeta_error (fs : ExtFs) :
    Prog.Sat (· = fs) extNewMetaBlock (fun nb fs' => fs.Took fs' [nb])
      (fun e fs' => fs.Same fs' ∧ e ≠ .assert) := by
  refine Prog.Sat.bind (sat_access fs) fun _ => Prog.Sat.get_bind ?_
  rintro _ ⟨l, rfl⟩
  rcases hf : fs.fresh with - | ⟨b, rest⟩
  · refine Prog.Sat.fail ?_
    rintro _ rfl
    exact ⟨⟨l, by rw [hf]⟩, by simp⟩
  · refine Prog.Sat.modify_bind (M := fun fs' => fs.Took fs' [b]) (Prog.Sat.pure fun _ => id) ?_
    rintro _ rfl
    exact ⟨rfl, rfl, rfl, hf⟩

theorem sat_onError_state {α : Type} {P : ExtFs → Prop} {x : ExtM α} {cleanup : ExtM Unit}
    {Q : α → ExtFs → Prop} {E F : Stop → ExtFs → Prop} (h : Prog.Sat P x Q E)
    (hE : ∀ e fs, E e fs → F e (cleanup fs).2) : Prog.Sat P (onError x cleanup) Q F := by
  intro fs hfs
  have h := h fs hfs
  unfold onError
  rcases hx : x fs with ⟨e | a, fs'⟩ <;> rw [hx] at h
  · exact hE _ _ h
  · exact h

/-- A node that is not to be had: the tree is `t`, all blocks are handed
    back. -/
theorem sat_newNode_error (fs : ExtFs) (t : Tree) (allocated : List ℕ) :
    Prog.Sat (· = fs) (newNode t allocated) (fun nb fs' => fs.Took fs' [nb])
      (fun e fs' => fs'.tree = t ∧ fs'.blockSize = fs.blockSize ∧ fs.GaveBack fs' allocated ∧
        e ≠ .assert) := by
  refine Prog.Sat.bind (sat_onError_state (sat_newMeta_error fs) ?_) fun nb => Prog.Sat.of_forall ?_
  · rintro e _ ⟨⟨l, rfl⟩, he⟩
    show (extFreeAll allocated { fs with faults := l, tree := t }).2.tree = t ∧
      (extFreeAll allocated { fs with faults := l, tree := t }).2.blockSize = _ ∧
      fs.GaveBack (extFreeAll allocated { fs with faults := l, tree := t }).2 _ ∧ _
    rw [extFreeAll_run]
    exact ⟨rfl, rfl, ⟨[], allocated, rfl, rfl, by rw [List.append_nil]⟩, he⟩
  · intro s hs
    refine Prog.Sat.bind (sat_onError_state (sat_access s) ?_) fun _ => Prog.Sat.pure ?_
    · rintro e _ ⟨⟨l, rfl⟩, he⟩
      show (extFreeAll allocated { s with
        faults := l, tree := t, freed := s.freed ++ [(nb, 1)] }).2.tree = t ∧
        (extFreeAll allocated { s with
          faults := l, tree := t, freed := s.freed ++ [(nb, 1)] }).2.blockSize = _ ∧
        fs.GaveBack (extFreeAll allocated { s with
          faults := l, tree := t, freed := s.freed ++ [(nb, 1)] }).2 _ ∧ _
      rw [extFreeAll_run]
      refine ⟨rfl, hs.blockSize, ⟨[nb], nb :: allocated, hs.fresh, ?_, ?_⟩, he⟩
      · simp [hs.freed]
      · exact (List.perm_append_singleton nb allocated).symm
    · intro s' hs'
      exact hs.trans hs'.took

/-! ## Splits that move nothing -/

/-- `moved` are the extents moved out of the node under the path.  Above it a
    node with room ends the split; a node that is cut too can fail to be, and
    then `moved` is lost. -/
def Ctx.Clean : {d D : ℕ} → Ctx d D → (moved : List Extent) → Prop
  | _, _, .nil, _ => True
  | _, _, .cons l up, moved => l.left.length + 1 + l.right.length < l.maxEntries ∨
      moved = [] ∧ up.Clean (l.right.flatMap fun e => e.node.extents)

/-- The blocks the path leads by. -/
def Ctx.spine : {d D : ℕ} → Ctx d D → List ℕ
  | _, _, .nil => []
  | _, _, .cons l up => l.leaf :: up.spine

theorem Ctx.spine_sub : ∀ {d D : ℕ} (ctx : Ctx d D), ∀ b ∈ ctx.spine, b ∈ ctx.blocks
  | _, _, .nil, _, h => h
  | _, _, .cons l up, b, h => by
    unfold Ctx.blocks
    rcases List.mem_cons.1 h with rfl | h
    · simp
    · simp [up.spine_sub b h]

/-- The tree after a failed split of the node under `ctx`, of which `left` is
    left. -/
structure Lost (cap : ℕ) {d D : ℕ} (ctx : Ctx d D) (left right : Node d) (t : Tree) : Prop where
  ok : t.root.Ok cap Tree.rootSpace (2 ^ 32)
  blocks : ∀ b, t.root.blocks.count b ≤ (ctx.blocks ++ left.blocks).count b
  kept : ∀ b ∈ ctx.spine ++ left.blocks, b ∈ t.root.blocks
  clean : ctx.Clean right.extents → right.extents = [] ∧
    t.root.extents = ctx.before ++ left.extents ++ ctx.after

/-- What the node above keeps when it is cut too. -/
theorem upLeft_ok {d D : ℕ} {left : Node d} {l : Level (Node d)} {up : Ctx (d + 1) D}
    (hctx : (Ctx.cons l up).Ok cap)
    (hlow : l.firstBlock ≤ left.low (Ctx.cons l up).ceil)
    (hleft : left.Ok cap cap (Ctx.cons l up).ceil)
    (hfull : ¬ l.left.length + 1 + l.right.length < l.maxEntries) :
    up.low ≤ Node.low up.ceil (d := d + 1)
      (IndexNode.mk l.maxEntries (l.left ++ [⟨l.firstBlock, l.leaf, left⟩])) ∧
    Node.Ok cap (d := d + 1) (up.space cap) up.ceil
      (IndexNode.mk l.maxEntries (l.left ++ [⟨l.firstBlock, l.leaf, left⟩])) := by
  obtain ⟨hup, h2, hmax, hlen, hfirst, hchain, hkey, hright⟩ := hctx
  refine ⟨?_, Node.ok_index.2 ⟨h2, hmax, ?_, by simp, ?_⟩⟩
  · show up.low ≤ top Index.firstBlock up.ceil (l.left ++ [_])
    rw [top_append]
    exact hfirst
  · simp only [List.length_append, List.length_cons, List.length_nil]
    omega
  · rw [chain_append]
    have hentry : EntryOk cap (⟨l.firstBlock, l.leaf, left⟩ : Index (Node d)) (Ctx.cons l up).ceil :=
      ⟨hkey, hlow, hleft⟩
    exact ⟨hchain, hentry.mono (hright.top_le entry_lt), trivial⟩

/-- **A failed split** loses what it has moved, and hands back its blocks. -/
theorem sat_splitUp_error (hcap : Tree.rootSpace ≤ cap) (insRight : Bool) (key : ℕ) :
    ∀ {d D : ℕ} (left right : Node d) (newblock : ℕ) (allocated : List ℕ) (ctx : Ctx d D)
      (fs : ExtFs), ctx.Ok cap → ctx.low < key → ctx.low ≤ left.low ctx.ceil →
      left.Ok cap (ctx.space cap) ctx.ceil →
    Prog.Sat (· = fs) (splitUp insRight key left right newblock allocated ctx)
      (fun _ _ => True)
      (fun e fs' => (ctx.hasRoom = true → e ≠ .assert) ∧ (e ≠ .assert →
        Lost cap ctx left right fs'.tree ∧ fs'.blockSize = fs.blockSize ∧
          fs.GaveBack fs' allocated))
  | _, _, _, _, _, _, .nil, _, _, _, _, _ => Prog.Sat.fail fun _ _ => ⟨nofun, fun h => absurd rfl h⟩
  | d, D, left, right, newblock, allocated, .cons l up, fs, hctx, hkey, hlow, hleft => by
    have hplug := Ctx.plug_ok hctx hlow hleft
    have hctx' := hctx
    obtain ⟨hup, h2, hmax, hlen, hfirst, hchain, hl, hright⟩ := hctx'
    unfold splitUp
    by_cases hroom : l.left.length + 1 + l.right.length < l.maxEntries
    · have hne : key ≠ l.firstBlock := Nat.ne_of_gt hkey
      rw [if_pos hroom, if_neg hne]
      cases insRight <;> exact Prog.Sat.pure fun _ _ => trivial
    · rw [if_neg hroom]
      refine Prog.Sat.get_bind ?_
      rintro s rfl
      refine Prog.Sat.bind ((sat_newNode_error s ((Ctx.cons l up).plug left) allocated).conseq
        (fun _ => id) (fun _ _ => id) ?_) fun upblock => Prog.Sat.of_forall ?_
      · rintro e fs' ⟨htree, hsize, hgave, hne⟩
        refine ⟨fun _ => hne, fun _ => ?_⟩
        rw [htree]
        refine ⟨⟨hplug, fun b => ?_, fun b hb => ?_, fun hclean => ?_⟩, hsize, hgave⟩
        · rw [(Ctx.plug_blocks (.cons l up) left).count_eq]
        · rw [(Ctx.plug_blocks (.cons l up) left).mem_iff]
          rcases List.mem_append.1 hb with hb | hb
          · exact List.mem_append.2 (.inl (Ctx.spine_sub _ b hb))
          · exact List.mem_append.2 (.inr hb)
        · exact ⟨(hclean.resolve_left hroom).1, Ctx.plug_extents _ _⟩
      · intro s' hs'
        obtain ⟨hlow', hok'⟩ := upLeft_ok hctx hlow hleft hroom
        have hle := hchain.top_le entry_lt
        refine Prog.Sat.bind ((sat_splitUp_error hcap insRight key _ _ upblock
          (allocated ++ [upblock]) up s' hup (Nat.lt_of_le_of_lt (hfirst.trans hle) hkey) hlow'
          hok').conseq (fun _ => id) (fun _ _ => id) ?_) fun up' => ?_
        · rintro e fs' ⟨hne, h⟩
          refine ⟨fun hr => hne ?_, fun he => ?_⟩
          · rwa [Ctx.hasRoom, decide_eq_false hroom, Bool.false_or] at hr
          obtain ⟨hlost, hsize, news, fr, hfresh, hfreed, hperm⟩ := h he
          refine ⟨⟨hlost.ok, fun b => ?_, fun b hb => ?_, fun hclean => ?_⟩,
            hsize.trans hs'.blockSize, upblock :: news, fr, ?_, ?_, ?_⟩
          · refine (hlost.blocks b).trans ?_
            have hfm : List.flatMap (fun e : Index (Node d) => e.leaf :: e.node.blocks) l.left =
              List.flatMap Ctx.entryBlocks l.left := rfl
            simp only [Node.blocks, Ctx.blocks, List.flatMap_append, List.flatMap_cons,
              List.flatMap_nil, List.count_append, List.count_cons, List.count_nil, hfm]
            omega
          · refine hlost.kept b ?_
            have hup : Node.blocks (d := d + 1)
                (IndexNode.mk l.maxEntries (l.left ++ [⟨l.firstBlock, l.leaf, left⟩])) =
                l.left.flatMap Ctx.entryBlocks ++ l.leaf :: left.blocks := by
              show (l.left ++ [_]).flatMap Ctx.entryBlocks = _
              rw [List.flatMap_append, List.flatMap_singleton]
              rfl
            rw [hup]
            rw [Ctx.spine, List.cons_append, List.mem_cons, List.mem_append] at hb
            simp only [List.mem_append, List.mem_cons]
            tauto
          · obtain ⟨hnil, hup'⟩ := hclean.resolve_left hroom
            have hright' : Node.extents (d := d + 1)
                (IndexNode.mk (extSpaceBlockIdx s.blockSize) (⟨key, newblock, right⟩ :: l.right)) =
                l.right.flatMap fun e => e.node.extents := by
              show (_ :: l.right).flatMap (fun e : Index (Node d) => e.node.extents) = _
              rw [List.flatMap_cons, hnil, List.nil_append]
            obtain ⟨hnil', hext⟩ := hlost.clean (by rw [hright']; exact hup')
            rw [hright'] at hnil'
            refine ⟨hnil, ?_⟩
            rw [hext]
            show up.before ++ (l.left ++ [_]).flatMap (fun e : Index (Node d) => e.node.extents) ++
              up.after = _
            rw [Ctx.before, Ctx.after, hnil', List.nil_append, List.flatMap_append,
              List.flatMap_singleton]
            simp only [List.append_assoc]
          · rw [hs'.fresh, hfresh]
            rfl
          · rw [hfreed, hs'.freed]
          · rw [List.append_assoc] at hperm
            exact hperm
        · cases insRight <;> exact Prog.Sat.pure fun _ _ => trivial

/-! ## The insertion -/

/-- The extents right of the cursor, which a split of the leaf moves. -/
def LeafCursor.moved : LeafCursor → List Extent
  | none => []
  | .at _ _ right => right

/-- `Ctx.Clean`, when a full root gets room because the tree grows. -/
def Ctx.CleanTop : {d D : ℕ} → Ctx d D → (moved : List Extent) → Prop
  | _, _, .nil, _ => True
  | _, _, .cons _ .nil, _ => True
  | _, _, .cons l (.cons l' up), moved => l.left.length + 1 + l.right.length < l.maxEntries ∨
      moved = [] ∧ (Ctx.cons l' up).CleanTop (l.right.flatMap fun e => e.node.extents)

theorem Ctx.cleanTop_cons {d D : ℕ} (l : Level (Node d)) (l' : Level (Node (d + 1)))
    (up : Ctx (d + 2) D) (moved : List Extent) :
    (Ctx.cons l (.cons l' up)).CleanTop moved ↔
      (l.left.length + 1 + l.right.length < l.maxEntries ∨
        moved = [] ∧ (Ctx.cons l' up).CleanTop (l.right.flatMap fun e => e.node.extents)) := by
  rw [Ctx.CleanTop]

theorem Ctx.clean_cons {d D : ℕ} (l : Level (Node d)) (up : Ctx (d + 1) D)
    (moved : List Extent) :
    (Ctx.cons l up).Clean moved ↔ (l.left.length + 1 + l.right.length < l.maxEntries ∨
      moved = [] ∧ up.Clean (l.right.flatMap fun e => e.node.extents)) :=
  Iff.rfl

theorem Ctx.cleanTop_iff : ∀ {d D : ℕ} (ctx : Ctx d D) (moved : List Extent), ctx.hasRoom = true →
    (ctx.CleanTop moved ↔ ctx.Clean moved)
  | _, _, .nil, _, _ => Iff.rfl
  | _, _, .cons l .nil, moved, h => by
    rw [Ctx.hasRoom, Ctx.hasRoom, Bool.or_false, decide_eq_true_eq] at h
    exact iff_of_true trivial (.inl h)
  | _, _, .cons l (.cons l' up), moved, h => by
    rw [Ctx.cleanTop_cons, Ctx.clean_cons]
    by_cases hroom : l.left.length + 1 + l.right.length < l.maxEntries
    · exact iff_of_true (.inl hroom) (.inl hroom)
    · rw [Ctx.hasRoom, decide_eq_false hroom, Bool.false_or] at h
      rw [Ctx.cleanTop_iff (.cons l' up) _ h]

/-- What `k` says of the extents a split of the leaf for block `b` moves, if
    every node below `n` that is cut moves none. -/
def Node.Clean (b : ℕ) : (k : List Extent → Prop) → {d : ℕ} → Node d → Prop
  | k, 0, n => k (extBinsearch (Leaf.exts n) b).moved
  | k, _ + 1, n =>
    let ents := IndexNode.ents n
    let i := lastLe Index.firstBlock ents b
    match ents[i]? with
    | none => True
    | some ix => ix.node.Clean b fun moved => ents.length < IndexNode.maxEntries n ∨
        moved = [] ∧ k ((ents.drop (i + 1)).flatMap fun e => e.node.extents)

/-- **A split for block `b` moves no extents** below the topmost node that is
    cut. -/
def Tree.Clean (b : ℕ) (t : Tree) : Prop :=
  match t with
  | ⟨0, _⟩ => True
  | ⟨_ + 1, n⟩ =>
    match (IndexNode.ents n)[lastLe Index.firstBlock (IndexNode.ents n) b]? with
    | none => True
    | some ix => ix.node.Clean b fun _ => True

/-- The split on the path found is clean iff it is by the walk. -/
theorem sat_find_clean (b : ℕ) : ∀ {d D : ℕ} (n : Node d) (l : Level (Node d)) (up : Ctx (d + 1) D),
    Prog.Sat (fun _ => True) (findExtentFrom b n (.cons l up))
      (fun p _ => (p.ctx.CleanTop p.leaf.moved ↔ n.Clean b (Ctx.cons l up).CleanTop) ∧
        ∀ b ∈ (Ctx.cons l up).spine, b ∈ p.ctx.spine)
      (fun _ _ => True)
  | 0, _, n, l, up => Prog.Sat.pure fun _ _ => ⟨Iff.rfl, fun _ => id⟩
  | d + 1, D, n, l, up => by
    unfold findExtentFrom Node.Clean
    simp only
    rcases hget : (IndexNode.ents n)[lastLe Index.firstBlock (IndexNode.ents n) b]? with - | ix
    · exact Prog.Sat.fail fun _ _ => trivial
    · simp only
      refine Prog.Sat.bind (Prog.Sat.true _ _) fun _ => ?_
      refine (sat_find_clean b ix.node ⟨IndexNode.maxEntries n,
        (IndexNode.ents n).take (lastLe Index.firstBlock (IndexNode.ents n) b), ix.firstBlock,
        ix.leaf, (IndexNode.ents n).drop (lastLe Index.firstBlock (IndexNode.ents n) b + 1)⟩
        (.cons l up)).conseq (fun _ h => h) ?_ fun _ _ h => h
      rintro p _ ⟨hclean, hspine⟩
      refine ⟨?_, fun b hb => hspine b (List.mem_cons_of_mem _ hb)⟩
      have hlt := (List.getElem?_eq_some_iff.1 hget).1
      rw [hclean]
      refine iff_of_eq (congrArg (fun k => Node.Clean b k ix.node) (funext fun moved => ?_))
      rw [Ctx.cleanTop_cons, List.length_take, List.length_drop, Nat.min_eq_left hlt.le]
      congr 2
      omega

/-- A grown tree has its new block on every path. -/
theorem sat_findAgain_clean (b : ℕ) (fs : ExtFs) :
    Prog.Sat (· = fs) (findExtentAgain b)
      (fun r _ => (r.2.ctx.CleanTop r.2.leaf.moved ↔ fs.tree.Clean b) ∧
        ∀ t blockSize nb, fs.tree = Tree.grown blockSize nb t → nb ∈ r.2.ctx.spine)
      (fun _ _ => True) := by
  refine Prog.Sat.get_bind ?_
  rintro s rfl
  obtain ⟨bs, ⟨d, n⟩, fresh, freed, faults⟩ := s
  rcases d with - | d
  · refine Prog.Sat.pure fun _ _ => ⟨Iff.rfl, fun t bs nb h => ?_⟩
    have := congrArg Tree.depth h
    cases this
  · unfold Tree.Clean
    refine Prog.Sat.bind (Q := fun p _ => (p.ctx.CleanTop p.leaf.moved ↔ _) ∧ _) ?_ fun p =>
      Prog.Sat.pure fun _ h => h
    unfold findExtentFrom
    simp only
    rcases hget : (IndexNode.ents n)[lastLe Index.firstBlock (IndexNode.ents n) b]? with - | ix
    · exact Prog.Sat.fail fun _ _ => trivial
    · refine Prog.Sat.bind (Prog.Sat.true _ _) fun _ => ?_
      refine (sat_find_clean b ix.node ⟨IndexNode.maxEntries n,
        (IndexNode.ents n).take (lastLe Index.firstBlock (IndexNode.ents n) b), ix.firstBlock,
        ix.leaf, (IndexNode.ents n).drop (lastLe Index.firstBlock (IndexNode.ents n) b + 1)⟩
        .nil).conseq (fun _ _ => trivial) ?_ fun _ _ h => h
      rintro p fs' ⟨hclean, hspine⟩
      refine ⟨hclean, fun t bs' nb h => hspine nb ?_⟩
      obtain ⟨dt, nt⟩ := t
      cases h
      obtain rfl := Option.some.inj hget
      exact List.mem_cons_self ..

section Fail

variable {D : ℕ} {p : Path D}

/-- What a full leaf keeps when it is cut. -/
theorem leaf_left (hp : p.Fits cap newext.firstBlock) {left right : List Extent} {ex : Extent}
    (hl : p.leaf = .at left ex right) (hlen : left.length + 1 + right.length = p.maxEntries) :
    p.ctx.low < splitKey newext right ∧
      p.ctx.low ≤ Node.low p.ctx.ceil (d := 0) (Leaf.mk p.maxEntries (left ++ [ex])) ∧
      Node.Ok cap (d := 0) (p.ctx.space cap) p.ctx.ceil (Leaf.mk p.maxEntries (left ++ [ex])) := by
  obtain ⟨-, hlow, hleft, hex, hright, hcur, -⟩ := hp.leaf_ok hl
  obtain ⟨h2, hmax, -, -⟩ := Node.ok_leaf.1 hp.node
  change 2 ≤ p.maxEntries at h2
  have hle := hleft.top_le extent_lt
  have hpos := hex.1
  have hend := hex.2.1
  have htop := hright.top_le extent_lt
  refine ⟨?_, ?_, Node.ok_leaf.2 ⟨h2, hmax, ?_, ?_⟩⟩
  · rcases right with - | ⟨next, rest⟩
    · rcases left with - | ⟨e, es⟩
      · simp only [List.length_nil] at hlen
        omega
      · have hexle := hcur.resolve_right (by simp)
        have := (hleft.key_lt extent_lt e (List.mem_cons_self ..)).2
        exact Nat.lt_of_le_of_lt hlow (this.trans_le hexle)
    · rw [top_cons] at hend
      show p.ctx.low < next.firstBlock
      omega
  · show p.ctx.low ≤ top Extent.firstBlock _ (left ++ [ex])
    rw [top_append]
    exact hlow
  · simp only [List.length_append, List.length_cons, List.length_nil]
    omega
  · rw [chain_append]
    exact ⟨hleft, ⟨hpos, hend.trans htop, hex.2.2⟩, trivial⟩

theorem needSplit_ne {left right : List Extent} {ex : Extent} (hl : p.leaf = .at left ex right)
    (hsplit : extInsertLeaf p newext noCombine = .needSplit) :
    newext.firstBlock ≠ ex.firstBlock := by
  intro h
  unfold extInsertLeaf at hsplit
  simp only [hl, h, if_true] at hsplit
  cases hsplit

theorem extInsertLeaf_room {left right : List Extent} {ex : Extent} (hl : p.leaf = .at left ex right)
    (hne : newext.firstBlock ≠ ex.firstBlock) (hfull : p.full = false) :
    ∃ p', extInsertLeaf p newext noCombine = .done p' := by
  unfold extInsertLeaf
  simp only [hl, hfull, if_neg hne, Bool.false_eq_true, if_false]
  split_ifs <;> exact ⟨_, rfl⟩

/-- What `ext4_ext_split_node` leaves when it fails on path `p`. -/
structure SplitFailed (cap : ℕ) (p : Path D) (fs fs' : ExtFs) : Prop where
  ok : fs'.tree.root.Ok cap Tree.rootSpace (2 ^ 32)
  blocks : ∀ b, fs'.tree.root.blocks.count b ≤ p.plug.root.blocks.count b
  kept : ∀ b ∈ p.ctx.spine, b ∈ fs'.tree.root.blocks
  clean : p.ctx.Clean p.leaf.moved → fs'.tree.root.extents = p.plug.root.extents
  blockSize : fs'.blockSize = fs.blockSize
  gave : fs.GaveBack fs' []

/-- **A failed `ext4_ext_split_node`** loses what it has moved, and hands back
    its blocks; a leaf that has been split takes the new extent. -/
theorem sat_extSplitNode_error (hcap : Tree.rootSpace ≤ cap) (fs : ExtFs)
    (hfs : cap = extSpaceBlock fs.blockSize) (hp : p.Fits cap newext.firstBlock)
    (hsplit : extInsertLeaf p newext noCombine = .needSplit) :
    Prog.Sat (· = fs) (extSplitNode p newext)
      (fun p' _ => ∃ p'', extInsertLeaf p' newext noCombine = .done p'')
      (fun e fs' => (p.ctx.hasRoom = true → e ≠ .assert) ∧
        (e ≠ .assert → SplitFailed cap p fs fs')) := by
  obtain ⟨left, ex, right, hl, hlen, hmerge⟩ := needSplit_at hp hsplit
  obtain ⟨hkey, hlow, hleft⟩ := leaf_left hp hl hlen
  have hblocks := Ctx.plug_blocks p.ctx p.node
  rw [show p.node.blocks = [] from rfl, List.append_nil] at hblocks
  change p.plug.root.blocks.Perm _ at hblocks
  unfold extSplitNode
  simp only [hl]
  refine Prog.Sat.get_bind ?_
  rintro s rfl
  refine Prog.Sat.bind ((sat_newNode_error s p.plug []).conseq (fun _ => id) (fun _ _ => id) ?_)
    fun nb => Prog.Sat.of_forall ?_
  · rintro e fs' ⟨htree, hsize, hgave, hne⟩
    refine ⟨fun _ => hne, fun _ => ?_⟩
    constructor
    · rw [htree]
      exact Ctx.plug_ok hp.ctx hp.low hp.node
    · exact fun b => by rw [htree]
    · intro b hb
      rw [htree, hblocks.mem_iff]
      exact p.ctx.spine_sub b hb
    · exact fun _ => by rw [htree]
    · exact hsize
    · exact hgave
  intro s' hs'
  rw [← hfs]
  have hup (insRight : Bool) : Prog.Sat (· = s')
      (splitUp insRight (splitKey newext right) (Leaf.mk p.maxEntries (left ++ [ex]) : Node 0)
        (Leaf.mk cap right : Node 0) nb [nb] p.ctx) (fun _ _ => True)
      (fun e fs' => (p.ctx.hasRoom = true → e ≠ .assert) ∧
        (e ≠ .assert → SplitFailed cap p s fs')) := by
    refine (sat_splitUp_error hcap insRight (splitKey newext right) _ _ nb [nb] p.ctx s' hp.ctx hkey
      hlow hleft).conseq (fun _ => id) (fun _ _ => id) ?_
    rintro e fs' ⟨hne, h⟩
    refine ⟨hne, fun he => ?_⟩
    obtain ⟨hlost, hsize, news, fr, hfresh, hfreed, hperm⟩ := h he
    constructor
    · exact hlost.ok
    · intro b
      rw [hblocks.count_eq]
      exact (hlost.blocks b).trans_eq (by rw [show Node.blocks (d := 0) _ = [] from rfl,
        List.append_nil])
    · exact fun b hb => hlost.kept b (List.mem_append_left _ hb)
    · intro hclean
      rw [hl] at hclean
      obtain ⟨hnil, hext⟩ := hlost.clean hclean
      obtain rfl : right = [] := hnil
      rw [hext, Path.plug, Ctx.plug_extents, Path.node, hl]
      rfl
    · exact hsize.trans hs'.blockSize
    · refine ⟨nb :: news, fr, ?_, ?_, hperm⟩
      · rw [hs'.fresh, hfresh]
        rfl
      · rw [hfreed, hs'.freed]
  rcases right with - | ⟨next, rest⟩
  · have hright : (!decide (newext.firstBlock < newext.firstBlock)) = true := by simp
    simp only [hright, if_true]
    refine Prog.Sat.bind (hup true) fun ctx => Prog.Sat.pure fun _ _ => ?_
    have hfull : Path.full ⟨cap, .none, ctx⟩ = false := by
      refine decide_eq_false fun h => ?_
      rw [show cap = 0 from h.symm] at hcap
      exact absurd hcap (by decide)
    unfold extInsertLeaf
    simp only [hfull]
    exact ⟨_, rfl⟩
  · obtain ⟨-, -, -, -, -, -, hgt⟩ := hp.leaf_ok hl
    have hleft : (!decide (newext.firstBlock < next.firstBlock)) = false := by
      simpa using hgt next (List.mem_cons_self ..)
    simp only [hleft, Bool.false_eq_true, if_false]
    refine Prog.Sat.bind (hup false) fun ctx => Prog.Sat.pure fun _ _ => ?_
    have hfull : Path.full ⟨p.maxEntries, .at left ex [], ctx⟩ = false := by
      refine decide_eq_false fun h => ?_
      simp only [LeafCursor.exts, List.length_append, List.length_cons, List.length_nil] at h hlen
      omega
    exact extInsertLeaf_room rfl (needSplit_ne hl hsplit) hfull

theorem SplitFailed.of_same {fs fs' : ExtFs} (hp : p.Fits cap newext.firstBlock)
    (htree : fs.tree = p.plug) : fs.Same fs' → SplitFailed cap p fs fs'
  | ⟨l, h⟩ => by
    subst h
    have hblocks := Ctx.plug_blocks p.ctx p.node
    constructor
    · rw [htree]
      exact Ctx.plug_ok hp.ctx hp.low hp.node
    · exact fun b => by rw [htree]
    · intro b hb
      rw [htree, Path.plug, hblocks.mem_iff]
      exact List.mem_append_left _ (p.ctx.spine_sub b hb)
    · exact fun _ => by rw [htree]
    · rfl
    · exact ⟨[], [], rfl, (List.append_nil _).symm, List.Perm.refl _⟩

/-- Splitting the nodes on the path, then the insertion. -/
theorem sat_split_insert_error (hcap : Tree.rootSpace ≤ cap) {fs : ExtFs}
    (hfs : cap = extSpaceBlock fs.blockSize) (hp : p.Fits cap newext.firstBlock)
    (htree : fs.tree = p.plug) (hroom : p.ctx.hasRoom = true)
    (hsplit : extInsertLeaf p newext noCombine = .needSplit) {fuel : ℕ} (hfuel : 1 ≤ fuel) :
    Prog.Sat (· = fs)
      (do
        access
        let p' ← extSplitNode p newext
        setTree p'.plug
        extInsertExtent newext noCombine fuel D p')
      (fun _ _ => True) (fun e fs' => e ≠ .assert ∧ SplitFailed cap p fs fs') := by
  refine Prog.Sat.bind ((sat_access fs).conseq (fun _ => id) (fun _ _ => id) ?_) fun _ =>
    Prog.Sat.of_forall ?_
  · rintro e fs' ⟨hsame, hne⟩
    exact ⟨hne, SplitFailed.of_same hp htree hsame⟩
  rintro _ ⟨l, rfl⟩
  refine Prog.Sat.bind ((sat_extSplitNode_error hcap { fs with faults := l } hfs hp
    hsplit).conseq (fun _ => id) (fun _ _ => id) ?_) fun p' => Prog.Sat.of_forall ?_
  · rintro e fs' ⟨hne, h⟩
    obtain ⟨hok, hblocks, hkept, hclean, hsize, hgave⟩ := h (hne hroom)
    exact ⟨hne hroom, hok, hblocks, hkept, hclean, hsize, hgave⟩
  · rintro s ⟨p'', hdone⟩
    obtain ⟨fuel, rfl⟩ : ∃ k, fuel = k + 1 := ⟨fuel - 1, by omega⟩
    refine Prog.Sat.modify_bind (M := fun _ => True) ?_ fun _ _ => trivial
    unfold extInsertExtent
    simp only [hdone]
    exact Prog.Sat.modify fun _ _ => trivial

/-- What a failed insertion of an extent at block `b` leaves; `grown` is the
    block of the old root, if the tree has grown. -/
structure InsertFailed (cap b : ℕ) (fs fs' : ExtFs) : Prop where
  blockSize : fs'.blockSize = fs.blockSize
  ok : fs'.tree.root.Ok cap Tree.rootSpace (2 ^ 32)
  gave : ∃ news fr grown : List ℕ, fs.fresh = news ++ fs'.fresh ∧
    fs'.freed = fs.freed ++ fr.map (·, 1) ∧ news.Perm (grown ++ fr) ∧
    (∀ b, fs'.tree.root.blocks.count b ≤ (grown ++ fs.tree.root.blocks).count b) ∧
    ∀ b ∈ grown, b ∈ fs'.tree.root.blocks
  clean : fs.tree.Clean b → fs'.tree.root.extents = fs.tree.root.extents

theorem InsertFailed.of_tree {b : ℕ} {fs fs' : ExtFs} (hok : fs.tree.root.Ok cap Tree.rootSpace (2 ^ 32))
    (htree : fs'.tree = fs.tree) (hsize : fs'.blockSize = fs.blockSize) (hgave : fs.GaveBack fs' []) :
    InsertFailed cap b fs fs' := by
  obtain ⟨news, fr, hfresh, hfreed, hperm⟩ := hgave
  refine ⟨hsize, by rw [htree]; exact hok, ⟨news, fr, [], hfresh, hfreed, hperm.symm, ?_, nofun⟩,
    fun _ => by rw [htree]⟩
  exact fun b => by rw [htree, List.nil_append]

theorem SplitFailed.insertFailed {fs fs' : ExtFs} (htree : fs.tree = p.plug)
    (hroom : p.ctx.hasRoom = true)
    (hiff : p.ctx.CleanTop p.leaf.moved ↔ fs.tree.Clean newext.firstBlock)
    (h : SplitFailed cap p fs fs') : InsertFailed cap newext.firstBlock fs fs' := by
  obtain ⟨hok, hblocks, -, hclean, hsize, news, fr, hfresh, hfreed, hperm⟩ := h
  refine ⟨hsize, hok, ⟨news, fr, [], hfresh, hfreed, hperm.symm, ?_, nofun⟩, fun hc => ?_⟩
  · exact fun b => by rw [htree, List.nil_append]; exact hblocks b
  · rw [htree]
    exact hclean ((p.ctx.cleanTop_iff _ hroom).1 (hiff.2 hc))

theorem sat_grow_error (fs : ExtFs) :
    Prog.Sat (· = fs) extGrowIndepth
      (fun _ fs' => ∃ newblock, fs'.tree = fs.tree.grown fs.blockSize newblock ∧
        fs'.blockSize = fs.blockSize ∧ fs'.freed = fs.freed ∧ fs.fresh = [newblock] ++ fs'.fresh)
      (fun e fs' => e ≠ .assert ∧ fs'.tree = fs.tree ∧ fs'.blockSize = fs.blockSize ∧
        fs.GaveBack fs' []) := by
  refine Prog.Sat.bind ((sat_newMeta_error fs).conseq (fun _ => id) (fun _ _ => id) ?_)
    fun nb => Prog.Sat.of_forall ?_
  · rintro e _ ⟨⟨l, rfl⟩, hne⟩
    exact ⟨hne, rfl, rfl, [], [], rfl, (List.append_nil _).symm, List.Perm.refl _⟩
  · intro s hs
    refine Prog.Sat.bind (sat_onError_state (sat_access s) ?_) fun _ => Prog.Sat.modify ?_
    · rintro e _ ⟨⟨l, rfl⟩, hne⟩
      exact ⟨hne, hs.tree, hs.blockSize, [nb], [nb], hs.fresh, by rw [← hs.freed]; rfl,
        List.Perm.refl _⟩
    · rintro _ ⟨l, rfl⟩
      exact ⟨nb, by rw [hs.tree, hs.blockSize], hs.blockSize, hs.freed, hs.fresh⟩

/-- Growing the tree changes nothing below the old root, which gets room. -/
theorem grown_clean {t : Tree} {blockSize nb b : ℕ} (hbs : 1024 ≤ blockSize)
    (hok : t.root.Ok cap Tree.rootSpace (2 ^ 32)) (hdepth : t.depth ≠ 0) :
    (t.grown blockSize nb).Clean b ↔ t.Clean b := by
  obtain ⟨d, n⟩ := t
  rcases d with - | d
  · exact absurd rfl hdepth
  obtain ⟨-, hmax, hlen, -⟩ := Node.ok_index.1 hok
  have hroom : (IndexNode.ents n).length < extSpaceBlockIdx blockSize := by
    have : (IndexNode.ents n).length ≤ Tree.rootSpace := hlen.trans hmax
    unfold Tree.rootSpace at this
    unfold extSpaceBlockIdx
    omega
  have hgrown : Tree.Clean b (Tree.grown blockSize nb ⟨d + 1, n⟩) = Node.Clean b (fun _ => True)
      (n.setMax (extSpaceBlockIdx blockSize)) := rfl
  rw [hgrown, Node.Clean, Tree.Clean]
  simp only [Node.setMax]
  rcases (IndexNode.ents n)[lastLe Index.firstBlock (IndexNode.ents n) b]? with - | ix
  · exact Iff.rfl
  · simp only [hroom, true_or]

/-- A failure after the tree has grown. -/
theorem InsertFailed.of_grown {b nb : ℕ} {fs s fs' : ExtFs}
    (htree : s.tree = fs.tree.grown fs.blockSize nb) (hsb : s.blockSize = fs.blockSize)
    (hfreed : s.freed = fs.freed) (hfresh : fs.fresh = [nb] ++ s.fresh)
    (hok : fs'.tree.root.Ok cap Tree.rootSpace (2 ^ 32)) (hsize : fs'.blockSize = s.blockSize)
    (hgave : s.GaveBack fs' [])
    (hblocks : ∀ b, fs'.tree.root.blocks.count b ≤ s.tree.root.blocks.count b)
    (hkept : nb ∈ fs'.tree.root.blocks)
    (hclean : fs.tree.Clean b → fs'.tree.root.extents = s.tree.root.extents) :
    InsertFailed cap b fs fs' := by
  obtain ⟨news, fr, hfresh', hfreed', hperm⟩ := hgave
  have hold : s.tree.root.blocks = [nb] ++ fs.tree.root.blocks := by
    rw [htree]
    show [_].flatMap (fun e : Index (Node fs.tree.depth) => e.leaf :: e.node.blocks) = _
    rw [List.flatMap_singleton, Node.setMax_blocks]
    rfl
  have hext : s.tree.root.extents = fs.tree.root.extents := by
    rw [htree]
    show [_].flatMap (fun e : Index (Node fs.tree.depth) => e.node.extents) = _
    rw [List.flatMap_singleton, Node.setMax_extents]
  refine ⟨hsize.trans hsb, hok, ⟨nb :: news, fr, [nb], ?_, ?_, hperm.symm.cons nb, ?_, ?_⟩,
    fun hc => (hclean hc).trans hext⟩
  · rw [hfresh, hfresh']
    rfl
  · rw [hfreed', hfreed]
  · exact fun b => hold ▸ hblocks b
  · exact fun b hb => List.mem_singleton.1 hb ▸ hkept

/-- **A failed `ext4_ext_insert_extent`** on the path found. -/
theorem sat_insertExtent_error (fs : ExtFs) (hbs : 1024 ≤ fs.blockSize)
    (hcap : cap = extSpaceBlock fs.blockSize) (hb : newext.firstBlock < 2 ^ 32)
    (hok : fs.tree.root.Ok cap Tree.rootSpace (2 ^ 32))
    (hp : p.Found cap fs.tree newext.firstBlock)
    (hiff : p.ctx.CleanTop p.leaf.moved ↔ fs.tree.Clean newext.firstBlock) {fuel : ℕ}
    (hfuel : 2 ≤ fuel) :
    Prog.Sat (· = fs) (extInsertExtent newext noCombine fuel D p) (fun _ _ => True)
      (fun e fs' => e ≠ .assert ∧ InsertFailed cap newext.firstBlock fs fs') := by
  have hspace : Tree.rootSpace < cap := by
    rw [hcap, extSpaceBlock, Tree.rootSpace]
    omega
  have hgave (fs' : ExtFs) : fs'.GaveBack fs' [] :=
    ⟨[], [], rfl, (List.append_nil _).symm, List.Perm.refl _⟩
  obtain ⟨fuel, rfl⟩ : ∃ k, fuel = k + 1 := ⟨fuel - 1, by omega⟩
  unfold extInsertExtent
  rcases hr : extInsertLeaf p newext noCombine with p' | - | -
  · exact Prog.Sat.modify fun _ _ => trivial
  · simp only
    by_cases hroom : p.ctx.hasRoom = true
    · rw [if_pos hroom]
      refine (sat_split_insert_error hspace.le hcap hp.fits hp.plug.symm hroom hr
        (by omega)).conseq (fun _ => id) (fun _ _ => id) ?_
      rintro e fs' ⟨hne, h⟩
      exact ⟨hne, h.insertFailed hp.plug.symm hroom hiff⟩
    · rw [if_neg hroom]
      refine Prog.Sat.bind ((sat_grow_error fs).conseq (fun _ => id) (fun _ _ => id) ?_)
        fun _ => Prog.Sat.of_forall ?_
      · rintro e fs' ⟨hne, htree, hsize, hg⟩
        exact ⟨hne, InsertFailed.of_tree hok htree hsize hg⟩
      rintro s ⟨nb, htree, hsb, hfreed, hfresh⟩
      have hgrown := grown_ok nb hspace.le hcap (Nat.two_pow_pos 32) hok
      rw [← htree] at hgrown
      have hnb : nb ∈ s.tree.root.blocks := by
        rw [htree]
        exact List.mem_cons_self ..
      refine Prog.Sat.bind (((sat_findExtentAgain s hb hgrown).and (sat_findAgain_clean _ s)).conseq
        (fun _ => id) (fun _ _ => id) ?_) fun x => Prog.Sat.of_forall ?_
      · rintro e _ ⟨⟨⟨l, rfl⟩, hne⟩, -⟩
        exact ⟨hne, InsertFailed.of_grown htree hsb hfreed hfresh hgrown rfl (hgave _)
          (fun _ => le_rfl) hnb fun _ => rfl⟩
      obtain ⟨D', p'⟩ := x
      rintro _ ⟨⟨⟨l, rfl⟩, hp'⟩, hiff', hspine⟩
      have hroom' := hp'.hasRoom (by rw [htree]; exact grown_hasRoom hok)
      have htree' := hp'.plug
      rw [htree] at hp'
      obtain ⟨hmoved, hleaf, hmax⟩ := moved_grown noCombine hp hp'
      simp only
      by_cases hD : D = 0
      · rw [if_pos hD]
        rw [if_pos hD, ← hcap] at hmax
        obtain ⟨left, ex, right, hl, hlen, -⟩ := needSplit_at hp.fits hr
        -- the leaf has moved from the inode to a block
        have hfull : p'.full = false := by
          have hroot : p.maxEntries ≤ Tree.rootSpace := by
            subst hD
            have hctx := hp.fits.node
            rcases hc : p.ctx with - | ⟨l, up⟩
            · rw [hc] at hctx
              exact (Node.ok_leaf.1 hctx).2.1
            · exact absurd up.depth_le (by omega)
          refine decide_eq_false ?_
          rw [hleaf, hmax, hl, LeafCursor.exts, List.length_append, List.length_cons]
          omega
        obtain ⟨p'', hdone⟩ := @extInsertLeaf_room _ noCombine _ _ _ _ _ (hleaf.trans hl)
          (needSplit_ne hl hr) hfull
        obtain ⟨fuel, rfl⟩ : ∃ k, fuel = k + 1 := ⟨fuel - 1, by omega⟩
        unfold extInsertExtent
        simp only [hdone]
        exact Prog.Sat.modify fun _ _ => trivial
      · rw [if_neg hD] at hmax ⊢
        have hr' := needSplit_congr hleaf hmax hr
        have hcap' : cap = extSpaceBlock s.blockSize := by rw [hsb, hcap]
        refine (@sat_split_insert_error _ _ _ _ _ hspace.le { s with faults := l } hcap' hp'.fits
          htree'.symm hroom' hr' _ (by omega)).conseq (fun _ => id) (fun _ _ => id) ?_
        rintro e fs' ⟨hne, hok', hblocks, hkept, hclean, hsize, hback⟩
        have hplug : p'.plug = s.tree := htree'
        refine ⟨hne, InsertFailed.of_grown htree hsb hfreed hfresh hok' hsize hback
          (fun b => hplug ▸ hblocks b) (hkept nb (hspine _ _ nb htree)) fun hc => ?_⟩
        rw [← hplug]
        refine hclean ((p'.ctx.cleanTop_iff _ hroom').1 (hiff'.2 ?_))
        rw [htree, grown_clean hbs hok (hp.depth ▸ hD)]
        exact hc
  · refine Prog.Sat.fail ?_
    rintro _ rfl
    exact ⟨by simp, InsertFailed.of_tree hok rfl rfl (hgave _)⟩

end Fail

/-! ## What is lost -/

theorem newNode_nospc {fs : ExtFs} (hf : fs.faults = []) (hfresh : fs.fresh = []) (t : Tree)
    (allocated : List ℕ) : ∃ fs', newNode t allocated fs = (.error (.rc .ENOSPC), fs') ∧
      fs'.tree = t := by
  have hnew : extNewMetaBlock fs = (.error (.rc .ENOSPC), fs) := by
    unfold extNewMetaBlock
    rw [Prog.bind_ok (access_run hf), Prog.bind_ok (Prog.get_run fs), hfresh]
    rfl
  refine ⟨_, Prog.bind_error (onError_error _ hnew), ?_⟩
  show (extFreeAll allocated { fs with tree := t }).2.tree = t
  rw [extFreeAll_run]

/-- A split that moves extents loses them when the node above is not to be
    had. -/
theorem splitUp_lost (insRight : Bool) (key : ℕ) : ∀ {d D : ℕ} (ctx : Ctx d D)
    (moved : List Extent), ¬ ctx.Clean moved → ∃ k, ∀ (left right : Node d) (newblock : ℕ)
      (allocated : List ℕ) (fs : ExtFs), right.extents = moved → fs.faults = [] →
      fs.fresh.length = k → ∃ fs' as bs cs,
        splitUp insRight key left right newblock allocated ctx fs = (.error (.rc .ENOSPC), fs') ∧
        ctx.before ++ left.extents ++ moved ++ ctx.after = as ++ bs ++ cs ∧ bs ≠ [] ∧
        fs'.tree.root.extents = as ++ cs
  | _, _, .nil, _, h => absurd trivial h
  | d, D, .cons l up, moved, h => by
    rw [Ctx.clean_cons, not_or, not_and_or] at h
    obtain ⟨hroom, h⟩ := h
    by_cases hm : moved = []
    · obtain ⟨k, hk⟩ := splitUp_lost insRight key up _ (h.resolve_left (not_not.2 hm))
      refine ⟨k + 1, fun left right newblock allocated fs hright hf hlen => ?_⟩
      rcases hfresh : fs.fresh with - | ⟨nb, rest⟩
      · rw [hfresh] at hlen
        cases hlen
      rw [hfresh, List.length_cons, Nat.add_right_cancel_iff] at hlen
      obtain ⟨fs', as, bs, cs, hrun, hsplit, hne, hext⟩ := hk
        (IndexNode.mk l.maxEntries (l.left ++ [⟨l.firstBlock, l.leaf, left⟩]) : Node (d + 1))
        (IndexNode.mk (extSpaceBlockIdx fs.blockSize) (⟨key, newblock, right⟩ :: l.right))
        nb (allocated ++ [nb]) { fs with fresh := rest } (by
          show (_ :: l.right).flatMap (fun e : Index (Node d) => e.node.extents) = _
          rw [List.flatMap_cons, hright, hm, List.nil_append]) hf hlen
      refine ⟨fs', as, bs, cs, ?_, ?_, hne, hext⟩
      · unfold splitUp
        rw [if_neg hroom, Prog.bind_ok (Prog.get_run fs),
          Prog.bind_ok (newNode_run hf _ allocated hfresh), Prog.bind_error hrun]
      · rw [← hsplit]
        show up.before ++ _ ++ left.extents ++ moved ++ (_ ++ up.after) =
          up.before ++ (l.left ++ [_]).flatMap (fun e : Index (Node d) => e.node.extents) ++ _ ++
            up.after
        rw [hm, List.flatMap_append, List.flatMap_singleton]
        simp only [List.append_assoc, List.nil_append]
    · refine ⟨0, fun left right newblock allocated fs _ hf hlen => ?_⟩
      obtain ⟨fs', hrun, htree⟩ := newNode_nospc hf (List.length_eq_zero_iff.1 hlen)
        ((Ctx.cons l up).plug left) allocated
      refine ⟨fs', (Ctx.cons l up).before ++ left.extents, moved, (Ctx.cons l up).after, ?_, rfl,
        hm, ?_⟩
      · unfold splitUp
        rw [if_neg hroom, Prog.bind_ok (Prog.get_run fs), Prog.bind_error hrun]
      · rw [htree, Ctx.plug_extents]

theorem map_ne_of_lost {hi : ℕ} {as bs cs : List Extent}
    (h : Chain Extent.firstBlock Extent.Ok hi (as ++ bs ++ cs)) (hne : bs ≠ []) :
    ∃ b, mapOf (as ++ cs) b ≠ mapOf (as ++ bs ++ cs) b := by
  rw [List.append_assoc, chain_append, chain_append] at h
  obtain ⟨has, hbs, hcs⟩ := h
  rcases bs with - | ⟨e, es⟩
  · exact absurd rfl hne
  rw [List.cons_append, top_cons] at has
  have hlt := (hbs.key_lt extent_lt e (List.mem_cons_self ..)).2
  refine ⟨e.firstBlock, ?_⟩
  rw [mapOf_append, mapOf_none_of_chain le_rfl has, mapOf_none_of_lt hcs hlt]
  exact (mapOf_ne_none (by simp) hbs.1.covers_first).symm

/-! ## Whole insertions -/

/-- The leaf the new extent belongs to is full, and the extent is not merged. -/
def Tree.NeedsSplit (t : Tree) (newext : Extent) (noCombine : Bool) : Prop :=
  ∃ lf left ex right, t.root.leafAt newext.firstBlock = some lf ∧
    extBinsearch lf.exts newext.firstBlock = .at left ex right ∧
    newext.firstBlock ≠ ex.firstBlock ∧
    (noCombine = true ∨ extCanAppend ex newext = false ∧ extCanPrepend ex newext = false) ∧
    lf.exts.length = lf.maxEntries

/-- The blocks to be handed out are not in use. -/
structure FreshFree (t : Tree) (fresh : List ℕ) : Prop where
  nodup : (fresh ++ t.root.blocks).Nodup
  unmapped : ∀ b ∈ fresh, ∀ l u, t.map l ≠ some (b, u)

/-- **A failed call has changed nothing**: the map is the same, the tree well
    formed; of the blocks taken each one is in the tree or has been handed
    back, and no block in use has. -/
structure Undone (fs fs' : ExtFs) : Prop where
  map : ∀ b, fs'.tree.map b = fs.tree.map b
  ok : fs'.tree.Ok (extSpaceBlock fs.blockSize)
  blocks : ∃ news freed : List ℕ, fs.fresh = news ++ fs'.fresh ∧
    fs'.freed = fs.freed ++ freed.map (·, 1) ∧
    (∀ b ∈ news, fs'.tree.root.blocks.count b + freed.count b = 1) ∧
    ∀ b ∈ freed, b ∈ news ∧ b ∉ fs'.tree.root.blocks ∧ ∀ l u, fs'.tree.map l ≠ some (b, u)

theorem InsertFailed.undone {b : ℕ} {fs fs' : ExtFs}
    (h : InsertFailed (extSpaceBlock fs.blockSize) b fs fs')
    (hfree : FreshFree fs.tree fs.fresh) (hclean : fs.tree.Clean b) : Undone fs fs' := by
  obtain ⟨-, hok, ⟨news, fr, grown, hfresh, hfreed, hperm, hblocks, hkept⟩, hext⟩ := h
  have hmap : ∀ b, fs'.tree.map b = fs.tree.map b := fun b => by
    rw [Tree.map, Tree.map, hext hclean]
  obtain ⟨hnodup, hunmapped⟩ := hfree
  rw [hfresh] at hnodup hunmapped
  have hcount := List.nodup_iff_count.1 hnodup
  simp only [List.count_append] at hcount
  have hperm' := List.perm_iff_count.1 hperm
  simp only [List.count_append] at hperm' hblocks
  refine ⟨hmap, ⟨hok, List.nodup_iff_count.2 fun b => ?_⟩, news, fr, hfresh, hfreed,
    fun b hb => ?_, fun b hb => ?_⟩
  · have := hcount b
    have := hperm' b
    exact (hblocks b).trans (by omega)
  · have h1 := hcount b
    have h2 := hperm' b
    have h3 := hblocks b
    have h4 := List.count_pos_iff.2 hb
    by_cases hg : b ∈ grown
    · have h5 := List.count_pos_iff.2 (hkept b hg)
      have h6 := List.count_pos_iff.2 hg
      omega
    · have := List.count_eq_zero.2 hg
      omega
  · have h1 := hcount b
    have h2 := hperm' b
    have h3 := hblocks b
    have h4 := List.count_pos_iff.2 hb
    have hmem : b ∈ news := hperm.mem_iff.2 (List.mem_append_right _ hb)
    refine ⟨hmem, List.count_eq_zero.1 (by omega), fun l u => ?_⟩
    rw [hmap]
    exact hunmapped b (List.mem_append_left _ hmem) l u

/-- A failure that leaves the tree alone. -/
theorem undone_of_same {fs fs' : ExtFs} (hok : fs.tree.Ok (extSpaceBlock fs.blockSize)) :
    fs.Same fs' → Undone fs fs'
  | ⟨l, h⟩ => by
    subst h
    exact ⟨fun _ => rfl, hok, [], [], rfl, (List.append_nil _).symm, nofun, nofun⟩

theorem sat_findExtent_clean (b : ℕ) (fs : ExtFs) :
    Prog.Sat (· = fs) (findExtent b)
      (fun r _ => r.2.ctx.CleanTop r.2.leaf.moved ↔ fs.tree.Clean b) (fun _ _ => True) := by
  refine Prog.Sat.bind ((sat_access fs).conseq (fun _ => id) (fun _ _ => id) fun _ _ _ => trivial)
    fun _ => Prog.Sat.of_forall ?_
  rintro _ ⟨l, rfl⟩
  exact (sat_findAgain_clean b { fs with faults := l }).conseq (fun _ => id) (fun _ _ h => h.1)
    fun _ _ h => h

section Whole

variable {D : ℕ} {p : Path D}

theorem needsSplit_iff {t : Tree} (hp : p.Found cap t newext.firstBlock) :
    t.NeedsSplit newext noCombine ↔ extInsertLeaf p newext noCombine = .needSplit := by
  obtain ⟨lf, hlf, hmax, hcur⟩ := hp.leaf
  constructor
  · rintro ⟨lf', left, ex, right, hlf', hat, hne, hmerge, hfull⟩
    rw [hlf] at hlf'
    obtain rfl := Option.some.inj hlf'
    have hexts : p.leaf.exts = lf.exts := by
      have h := hp.fits.leafAt
      rw [hp.plug, hlf] at h
      exact (congrArg Leaf.exts (Option.some.inj h)).symm
    have hl : p.leaf = .at left ex right := hcur.trans hat
    have hfull' : p.full = true := decide_eq_true (by rw [hexts, hmax]; exact hfull)
    unfold extInsertLeaf
    simp only [hl, if_neg hne, hfull', if_true]
    rcases hmerge with h | ⟨ha, hb⟩
    · simp [h]
    · simp [ha, hb]
  · intro h
    obtain ⟨left, ex, right, hl, hlen, hmerge⟩ := needSplit_at hp.fits h
    refine ⟨lf, left, ex, right, hlf, hcur ▸ hl, needSplit_ne hl h, hmerge, ?_⟩
    have hleaf := hp.fits.leafAt
    rw [hp.plug, hlf] at hleaf
    obtain rfl := Option.some.inj hleaf
    rw [hl]
    simp only [LeafCursor.exts, List.length_append, List.length_cons]
    omega

/-- Without a split an insertion fails before anything is changed. -/
theorem insertExtent_no_split {fs fs' : ExtFs} {e : Stop} {fuel : ℕ} (hfuel : 1 ≤ fuel)
    (h : extInsertLeaf p newext noCombine ≠ .needSplit)
    (hrun : extInsertExtent newext noCombine fuel D p fs = (.error e, fs')) :
    e ≠ .assert ∧ fs' = fs := by
  obtain ⟨fuel, rfl⟩ : ∃ k, fuel = k + 1 := ⟨fuel - 1, by omega⟩
  unfold extInsertExtent at hrun
  rcases hr : extInsertLeaf p newext noCombine with p' | - | - <;> simp only [hr] at hrun
  · cases hrun
  · exact absurd hr h
  · cases hrun
    exact ⟨by simp, rfl⟩

/-- All blocks from some on are not in use. -/
theorem exists_fresh {t : Tree} (hok : t.root.blocks.Nodup) :
    ∃ m, ∀ k, FreshFree t (List.range' m k) := by
  obtain ⟨m, hm⟩ := exists_above (t.root.blocks ++ t.root.extents.map fun e =>
    e.start + e.getActualLen)
  refine ⟨m, fun k => ⟨List.nodup_append.2 ⟨List.nodup_range', hok, ?_⟩, fun b hb l u hmap => ?_⟩⟩
  · rintro a ha b hb rfl
    have := hm a (List.mem_append_left _ hb)
    have := (List.mem_range'_1.1 ha).1
    omega
  · obtain ⟨e, hfind, hval⟩ := Option.map_eq_some_iff.1 hmap
    have hcov : e.covers l = true := List.find?_some (p := fun e => Extent.covers e l) hfind
    rw [Extent.covers_iff] at hcov
    have hlt := hm _ (List.mem_append_right _ (List.mem_map_of_mem (List.mem_of_find?_eq_some hfind)))
    have hge := (List.mem_range'_1.1 hb).1
    simp only [Extent.value, Prod.mk.injEq] at hval
    omega

/-- A split that is not clean can fail with extents lost. -/
theorem extSplitNode_lost (hp : p.Fits cap newext.firstBlock) (hclean : ¬ p.ctx.Clean p.leaf.moved)
    (hsplit : extInsertLeaf p newext noCombine = .needSplit) :
    ∃ k, ∀ fs : ExtFs, fs.faults = [] → fs.fresh.length = k → ∃ fs' b,
      extSplitNode p newext fs = (.error (.rc .ENOSPC), fs') ∧ fs'.tree.map b ≠ p.plug.map b := by
  obtain ⟨left, ex, right, hl, -, -⟩ := needSplit_at hp hsplit
  rw [hl] at hclean
  change ¬ p.ctx.Clean right at hclean
  obtain ⟨k, hk⟩ := splitUp_lost (!decide (newext.firstBlock < splitKey newext right))
    (splitKey newext right) p.ctx right hclean
  refine ⟨k + 1, fun fs hf hlen => ?_⟩
  rcases hfresh : fs.fresh with - | ⟨nb, rest⟩
  · rw [hfresh] at hlen
    cases hlen
  rw [hfresh, List.length_cons, Nat.add_right_cancel_iff] at hlen
  obtain ⟨fs', as, bs, cs, hrun, hsplit', hne, hext⟩ := hk
    (Leaf.mk p.maxEntries (left ++ [ex]) : Node 0)
    (Leaf.mk (extSpaceBlock fs.blockSize) right : Node 0) nb [nb] { fs with fresh := rest } rfl hf hlen
  have hold : p.plug.root.extents = as ++ bs ++ cs := by
    rw [← hsplit', plug_extents_at hl]
    show _ = p.ctx.before ++ (left ++ [ex]) ++ right ++ p.ctx.after
    simp
  have hok : p.plug.root.Ok cap Tree.rootSpace (2 ^ 32) := Ctx.plug_ok hp.ctx hp.low hp.node
  have hchain := hok.chain.1
  rw [hold] at hchain
  obtain ⟨b, hb⟩ := map_ne_of_lost hchain hne
  refine ⟨fs', b, ?_, by rw [Tree.map, Tree.map, hold, hext]; exact hb⟩
  unfold extSplitNode
  simp only [hl]
  rw [Prog.bind_ok (Prog.get_run fs), Prog.bind_ok (newNode_run hf _ [] hfresh)]
  exact Prog.bind_error hrun

section Lost

variable {t : Tree} {blockSize fuel : ℕ} {p : Path t.depth} (hok : t.Ok (extSpaceBlock blockSize))
  (hp : p.Found (extSpaceBlock blockSize) t newext.firstBlock)
  (hfind : ∀ fs : ExtFs, fs.tree = t → fs.faults = [] →
    findExtent newext.firstBlock fs = (.ok ⟨t.depth, p⟩, fs))
  (hneeds : extInsertLeaf p newext noCombine = .needSplit)

include hok hp hfind hneeds

/-- The split of a node above the leaf fails, and what has been moved is lost. -/
theorem insert_lost_room (hclean : ¬ t.Clean newext.firstBlock) (hroom : p.ctx.hasRoom = true) :
    ∃ fresh fs' b, FreshFree t fresh ∧ extFindInsert newext noCombine (fuel + 1)
        ⟨blockSize, t, fresh, [], []⟩ = (.error (.rc .ENOSPC), fs') ∧ fs'.tree.map b ≠ t.map b := by
  have hiff := (sat_findExtent_clean newext.firstBlock ⟨blockSize, t, [], [], []⟩).ok rfl
    (hfind _ rfl rfl)
  change p.ctx.CleanTop p.leaf.moved ↔ t.Clean newext.firstBlock at hiff
  rw [← hiff, p.ctx.cleanTop_iff _ hroom] at hclean
  obtain ⟨k, hk⟩ := extSplitNode_lost hp.fits hclean hneeds
  obtain ⟨m, hfree⟩ := exists_fresh hok.nodup
  obtain ⟨fs', b, hrun, hne⟩ := hk ⟨blockSize, t, List.range' m k, [], []⟩ rfl List.length_range'
  rw [hp.plug] at hne
  refine ⟨_, fs', b, hfree k, ?_, hne⟩
  unfold extFindInsert
  rw [Prog.bind_ok (hfind _ rfl rfl)]
  simp only
  unfold extInsertExtent
  simp only [hneeds, if_pos hroom]
  rw [Prog.bind_ok (access_run rfl)]
  exact Prog.bind_error hrun

/-- The tree grows first, and the split fails after that. -/
theorem insert_lost_grown (hbs : 1024 ≤ blockSize) (hb : newext.firstBlock < 2 ^ 32)
    (hclean : ¬ t.Clean newext.firstBlock) (hroom : ¬ p.ctx.hasRoom = true) :
    ∃ fresh fs' b, FreshFree t fresh ∧ extFindInsert newext noCombine (fuel + 1)
        ⟨blockSize, t, fresh, [], []⟩ = (.error (.rc .ENOSPC), fs') ∧ fs'.tree.map b ≠ t.map b := by
  have hdepth : t.depth ≠ 0 := by
    obtain ⟨d, n⟩ := t
    rintro rfl
    exact hclean trivial
  obtain ⟨m, hfree⟩ := exists_fresh hok.nodup
  have hspace : Tree.rootSpace < extSpaceBlock blockSize := by
    rw [extSpaceBlock, Tree.rootSpace]
    omega
  have hgrown := grown_ok m hspace.le rfl (Nat.two_pow_pos 32) hok.node
  obtain ⟨p', hp', hfind'⟩ := exists_found hb hgrown
  obtain ⟨hmoved, hleaf, hmax⟩ := moved_grown noCombine hp hp'
  rw [if_neg hdepth] at hmax
  have hroom' := hp'.hasRoom (grown_hasRoom hok.node)
  have hiff := (sat_findExtent_clean newext.firstBlock
    ⟨blockSize, t.grown blockSize m, [], [], []⟩).ok rfl (hfind' _ rfl rfl)
  change p'.ctx.CleanTop p'.leaf.moved ↔ (t.grown blockSize m).Clean _ at hiff
  rw [← grown_clean hbs hok.node hdepth, ← hiff, p'.ctx.cleanTop_iff _ hroom'] at hclean
  obtain ⟨k, hk⟩ := extSplitNode_lost hp'.fits hclean (needSplit_congr hleaf hmax hneeds)
  obtain ⟨fs', b, hrun, hne⟩ := hk ⟨blockSize, t.grown blockSize m, List.range' (m + 1) k, [], []⟩
    rfl List.length_range'
  refine ⟨m :: List.range' (m + 1) k, fs', b, hfree (k + 1), ?_, ?_⟩
  · have hagain : findExtentAgain newext.firstBlock
        ⟨blockSize, t.grown blockSize m, List.range' (m + 1) k, [], []⟩ =
        (.ok ⟨_, p'⟩, ⟨blockSize, t.grown blockSize m, List.range' (m + 1) k, [], []⟩) := by
      rw [← hfind' _ rfl rfl, findExtent, Prog.bind_ok (access_run rfl)]
    unfold extFindInsert
    rw [Prog.bind_ok (hfind _ rfl rfl)]
    simp only
    unfold extInsertExtent
    simp only [hneeds, if_neg hroom]
    rw [Prog.bind_ok (extGrowIndepth_run rfl rfl)]
    simp only
    rw [Prog.bind_ok hagain]
    simp only [if_neg hdepth]
    rw [Prog.bind_ok (access_run rfl)]
    exact Prog.bind_error hrun
  · have hmap : p'.plug.map b = t.map b := by
      rw [Tree.map, Tree.map, hmoved.extents, hp.plug]
    rwa [← hmap]

end Lost

/-- **A failed `ext4_ext_insert_extent` changes nothing**, whichever allocation
    or device access fails, iff the leaf is not split or the split moves no
    extents below the topmost node that is cut. -/
theorem extFindInsert_undone_iff {t : Tree} {blockSize fuel : ℕ} (hbs : 1024 ≤ blockSize)
    (hok : t.Ok (extSpaceBlock blockSize)) (hb : newext.firstBlock < 2 ^ 32) (hfuel : 2 ≤ fuel) :
    (∀ fresh freed faults, FreshFree t fresh → ∀ e fs',
      extFindInsert newext noCombine fuel ⟨blockSize, t, fresh, freed, faults⟩ = (.error e, fs') →
        e ≠ .assert ∧ Undone ⟨blockSize, t, fresh, freed, faults⟩ fs') ↔
    ¬ t.NeedsSplit newext noCombine ∨ t.Clean newext.firstBlock := by
  constructor
  · intro h
    by_contra hc
    rw [not_or, not_not] at hc
    obtain ⟨hneeds, hclean⟩ := hc
    obtain ⟨p, hp, hfind⟩ := @exists_found (extSpaceBlock blockSize) _ _ hb hok.node
    rw [needsSplit_iff hp] at hneeds
    obtain ⟨k, rfl⟩ : ∃ k, fuel = k + 1 := ⟨fuel - 1, by omega⟩
    obtain ⟨fresh, fs', b, hfree, hrun, hne⟩ : ∃ fresh fs' b, FreshFree t fresh ∧
        extFindInsert newext noCombine (k + 1) ⟨blockSize, t, fresh, [], []⟩ =
          (.error (.rc .ENOSPC), fs') ∧ fs'.tree.map b ≠ t.map b := by
      by_cases hroom : p.ctx.hasRoom = true
      · exact insert_lost_room hok hp hfind hneeds hclean hroom
      · exact insert_lost_grown hok hp hfind hneeds hbs hb hclean hroom
    exact hne ((h fresh [] [] hfree _ fs' hrun).2.map b)
  · intro h fresh freed faults hfree e fs' hrun
    unfold extFindInsert at hrun
    have hsat := (@sat_findExtent (extSpaceBlock blockSize) _
      (⟨blockSize, t, fresh, freed, faults⟩ : ExtFs) hb hok.node).and
      (sat_findExtent_clean newext.firstBlock ⟨blockSize, t, fresh, freed, faults⟩)
    have := hsat _ rfl
    rcases hfind : findExtent newext.firstBlock ⟨blockSize, t, fresh, freed, faults⟩ with
      ⟨e' | ⟨D, p⟩, fs₁⟩ <;> rw [hfind] at this
    · rw [Prog.bind_error hfind] at hrun
      cases hrun
      exact ⟨this.1.2, undone_of_same hok this.1.1⟩
    · rw [Prog.bind_ok hfind] at hrun
      obtain ⟨⟨⟨l, rfl⟩, hp⟩, hiff⟩ := this
      change p.Found _ t _ at hp
      change p.ctx.CleanTop p.leaf.moved ↔ t.Clean newext.firstBlock at hiff
      by_cases hneeds : t.NeedsSplit newext noCombine
      · have hclean := h.resolve_left (not_not.2 hneeds)
        obtain ⟨hne, hfailed⟩ := (sat_insertExtent_error ⟨blockSize, t, fresh, freed, l⟩ hbs rfl hb
          hok.node hp hiff hfuel).error rfl hrun
        obtain ⟨hmap, hok', hblocks⟩ := hfailed.undone hfree hclean
        exact ⟨hne, hmap, hok', hblocks⟩
      · rw [needsSplit_iff hp] at hneeds
        obtain ⟨hne, rfl⟩ := insertExtent_no_split (by omega) hneeds hrun
        exact ⟨hne, undone_of_same hok ⟨l, rfl⟩⟩

end Whole

theorem one_block_ok {b s h : ℕ} (hb : b + 1 ≤ h) : (⟨b, 1, s⟩ : Extent).Ok h :=
  ⟨Nat.one_pos, hb, (by decide : 1 < 2 ^ 16)⟩

/-- A file with four extents in the inode, and no free block. -/
def fourFs : ExtFs where
  blockSize := 1024
  tree := ⟨0, (Leaf.mk 4 [⟨0, 1, 100⟩, ⟨10, 1, 200⟩, ⟨20, 1, 300⟩, ⟨30, 1, 400⟩] : Node 0)⟩
  fresh := []
  freed := []
  faults := []

/-- The tree cannot grow for block 15. -/
theorem insert_full_undone :
    (extFindInsert ⟨15, 1, 500⟩ false 2 fourFs).1 = .error (.rc .ENOSPC) ∧
      Undone fourFs (extFindInsert ⟨15, 1, 500⟩ false 2 fourFs).2 := by
  have hrun : (extFindInsert ⟨15, 1, 500⟩ false 2 fourFs).1 = .error (.rc .ENOSPC) := by
    decide +kernel
  have hok : fourFs.tree.Ok (extSpaceBlock 1024) := by
    refine ⟨Node.ok_leaf.2 ⟨by decide, by decide, by decide, ?_⟩, List.nodup_nil⟩
    exact ⟨one_block_ok (by decide), one_block_ok (by decide), one_block_ok (by decide),
      one_block_ok (by decide), trivial⟩
  exact ⟨hrun, ((extFindInsert_undone_iff (by decide) hok (by decide) le_rfl).2 (.inr trivial)
    [] [] [] ⟨List.nodup_nil, nofun⟩ _ _ (Prod.ext hrun rfl)).2⟩

/-- The leaves of `lostFs`: the first one is full. -/
def lostLeaf (i : ℕ) : Leaf :=
  ⟨84, if i = 0 then (List.range' 0 84).map fun j => ⟨2 * j, 1, 5000 + 2 * j⟩
    else [⟨200 * i, 1, 6000 + i⟩]⟩

/-- A file with a full index node below its root, and one free block. -/
def lostFs : ExtFs where
  blockSize := 1024
  tree := ⟨2, (IndexNode.mk 4 [⟨0, 999, (IndexNode.mk 84 ((List.range' 0 84).map fun i =>
    ⟨200 * i, 1000 + i, lostLeaf i⟩) : Node 1)⟩] : Node 2)⟩
  fresh := [2000]
  freed := []
  faults := []

theorem lostLeaf_ok {i h : ℕ} (hi : 200 * i + 200 ≤ h) : Node.Ok 84 (d := 0) 84 h (lostLeaf i) := by
  unfold lostLeaf
  split_ifs with h0
  · exact Node.ok_leaf.2 ⟨by decide, le_rfl, by simp, chain_range' _ _
      (fun j _ _ => one_block_ok (Nat.le_add_right (2 * j + 1) 1)) fun j hj => one_block_ok (by omega)⟩
  · exact Node.ok_leaf.2 ⟨(by decide : 2 ≤ 84), le_rfl, (by decide : 1 ≤ 84),
      one_block_ok (by rw [top_nil]; omega), trivial⟩

theorem lostLeaf_low (i h : ℕ) : Node.low h (d := 0) (lostLeaf i) = 200 * i := by
  unfold lostLeaf
  split_ifs with h0
  · subst h0
    rfl
  · rfl

theorem lostFs_ok : lostFs.tree.Ok (extSpaceBlock lostFs.blockSize) := by
  have hentry {i h : ℕ} (hi : 200 * i + 200 ≤ h) :
      EntryOk 84 (⟨200 * i, 1000 + i, lostLeaf i⟩ : Index (Node 0)) h := by
    refine ⟨by show 200 * i < h; omega, ?_, lostLeaf_ok hi⟩
    rw [lostLeaf_low]
  refine ⟨Node.ok_index.2 ⟨by decide, by decide, by decide, by simp [lostFs], ?_, trivial⟩, ?_⟩
  · refine ⟨by decide, le_rfl, Node.ok_index.2 ⟨by decide, le_rfl, by simp, by simp,
      chain_range' _ _ (fun i _ _ => hentry ?_) fun i h => hentry ?_⟩⟩
    · show 200 * i + 200 ≤ 200 * (i + 1)
      omega
    · show 200 * i + 200 ≤ 2 ^ 32
      omega
  · decide +kernel

/-- **Block 2 is lost** when block 1 is inserted: it was moved to the one new
    leaf there was a block for. -/
theorem insert_lost : lostFs.tree.Ok (extSpaceBlock lostFs.blockSize) ∧
    (lostFs.fresh ++ lostFs.tree.root.blocks).Nodup ∧
    (extFindInsert ⟨1, 1, 9000⟩ false 2 lostFs).1 = .error (.rc .ENOSPC) ∧
    lostFs.tree.map 2 = some (5002, false) ∧
    (extFindInsert ⟨1, 1, 9000⟩ false 2 lostFs).2.tree.map 2 = none :=
  ⟨lostFs_ok, by decide +kernel, by decide +kernel, by decide +kernel, by decide +kernel⟩

end Lwext4
