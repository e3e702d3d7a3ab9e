/-
  What `ext4_find_extent` finds: a path that `Fits` the block looked for.

  The walk changes nothing but the pending faults.  The leaf it ends at depends
  on the entries of the nodes only (`Node.leafAt`).
-/
import Lwext4.ExtentOps

namespace Lwext4

open Lib

/-- Only device accesses have happened. -/
def ExtFs.Same (fs fs' : ExtFs) : Prop := ∃ l, fs' = { fs with faults := l }

theorem ExtFs.Same.refl (fs : ExtFs) : fs.Same fs := ⟨fs.faults, rfl⟩

theorem ExtFs.Same.trans {fs fs' fs'' : ExtFs} : fs.Same fs' → fs'.Same fs'' → fs.Same fs''
  | ⟨_, h⟩, ⟨l, h'⟩ => ⟨l, by rw [h', h]⟩

theorem sat_access (fs : ExtFs) :
    Prog.Sat (· = fs) access (fun _ => fs.Same) (fun e fs' => fs.Same fs' ∧ e ≠ .assert) := by
  rintro s rfl
  unfold access
  rcases hf : s.faults with - | ⟨- | e, rest⟩
  · exact .refl s
  · exact ⟨rest, rfl⟩
  · exact ⟨⟨rest, rfl⟩, by simp⟩

/-- The extent the cursor is at is the last one that starts at or before `b`,
    or the first of the leaf. -/
def LeafCursor.Fits (b : ℕ) : LeafCursor → Prop
  | none => True
  | .at left ex right => (ex.firstBlock ≤ b ∨ left = []) ∧ ∀ e ∈ right, b < e.firstBlock

/-- A path into a well-formed tree that ends where block `b` belongs. -/
structure Path.Fits (cap : ℕ) {D : ℕ} (p : Path D) (b : ℕ) : Prop where
  ctx : p.ctx.Ok cap
  floor_le : p.ctx.floor ≤ b
  lt_ceil : b < p.ctx.ceil
  low : p.ctx.low ≤ p.node.low p.ctx.ceil
  node : p.node.Ok cap (p.ctx.space cap) p.ctx.ceil
  cursor : p.leaf.Fits b

theorem extBinsearch_spec {hi : ℕ} {exts : List Extent}
    (h : Chain Extent.firstBlock Extent.Ok hi exts) (b : ℕ) :
    (extBinsearch exts b).exts = exts ∧ (extBinsearch exts b).Fits b := by
  by_cases hne : exts = []
  · subst hne
    exact ⟨rfl, trivial⟩
  · obtain ⟨ex, hget, hsplit, hle, hgt⟩ := lastLe_spec extent_lt h hne b
    simp only [extBinsearch, hget]
    exact ⟨hsplit.symm, hle, hgt⟩

/-- The leaf a walk for block `b` ends at. -/
def Node.leafAt (b : ℕ) : {d : ℕ} → Node d → Option Leaf
  | 0, n => some n
  | _ + 1, n =>
    match (IndexNode.ents n)[lastLe Index.firstBlock (IndexNode.ents n) b]? with
    | none => none
    | some ix => leafAt b ix.node

/-- The key after the leaf a walk for block `b` ends at, `hi` if there is
    none. -/
def Node.ceilAt (b : ℕ) : (hi : ℕ) → {d : ℕ} → Node d → ℕ
  | hi, 0, _ => hi
  | hi, _ + 1, n =>
    let i := lastLe Index.firstBlock (IndexNode.ents n) b
    match (IndexNode.ents n)[i]? with
    | none => hi
    | some ix => ceilAt b (top Index.firstBlock hi ((IndexNode.ents n).drop (i + 1))) ix.node

/-- Is this an index node with room for another entry? -/
def Node.hasRoom : {d : ℕ} → Node d → Bool
  | 0, _ => false
  | _ + 1, n => decide ((IndexNode.ents n).length < IndexNode.maxEntries n)

theorem sat_readExtentTreeBlock (fs : ExtFs) {d : ℕ} (n : Node d) :
    Prog.Sat (· = fs) (readExtentTreeBlock n) (fun _ => fs.Same)
      (fun e fs' => fs.Same fs' ∧ e ≠ .assert) := by
  refine Prog.Sat.bind (sat_access fs) fun _ => ?_
  split
  · exact Prog.Sat.pure fun _ h => h
  · exact Prog.Sat.fail fun _ h => ⟨h, by simp⟩

/-- **The walk ends where the block belongs.** -/
theorem sat_findExtentFrom {cap b : ℕ} : ∀ {d D : ℕ} (n : Node d) (ctx : Ctx d D) (fs : ExtFs),
    ctx.Ok cap → ctx.floor ≤ b → b < ctx.ceil → ctx.low ≤ n.low ctx.ceil →
    n.Ok cap (ctx.space cap) ctx.ceil →
    Prog.Sat (· = fs) (findExtentFrom b n ctx)
      (fun p fs' => fs.Same fs' ∧ p.Fits cap b ∧ p.plug = ctx.plug n ∧
        ((n.hasRoom || ctx.hasRoom) = true → p.ctx.hasRoom = true) ∧
        p.ctx.ceil = n.ceilAt b ctx.ceil ∧
        ∃ lf, n.leafAt b = some lf ∧ p.maxEntries = lf.maxEntries ∧
          p.leaf = extBinsearch lf.exts b)
      (fun e fs' => fs.Same fs' ∧ e ≠ .assert)
  | 0, D, n, ctx, fs, hctx, hfloor, hceil, hlow, hn => by
    refine Prog.Sat.pure ?_
    rintro s rfl
    obtain ⟨hexts, hfits⟩ := extBinsearch_spec (Node.ok_leaf.1 hn).2.2.2 b
    have hnode : (⟨Leaf.maxEntries n, extBinsearch (Leaf.exts n) b, ctx⟩ : Path D).node = n := by
      rw [Path.node, hexts]
    refine ⟨.refl s, ⟨hctx, hfloor, hceil, ?_, ?_, hfits⟩, ?_, id, rfl, n, rfl, rfl, rfl⟩
    · rw [hnode]; exact hlow
    · rw [hnode]; exact hn
    · rw [Path.plug, hnode]
  | d + 1, D, ⟨maxEntries, ents⟩, ctx, fs, hctx, hfloor, hceil, hlow, hn => by
    obtain ⟨h2, hcap, hlen, hne, hchain⟩ := Node.ok_index.1 hn
    simp only at h2 hcap hlen hne hchain
    obtain ⟨ix, hget, hsplit, hle, hgt⟩ := lastLe_spec entry_lt hchain hne b
    unfold findExtentFrom Node.leafAt Node.ceilAt Node.hasRoom
    simp only [hget]
    have hroom : (decide (ents.length < maxEntries) || ctx.hasRoom) = true →
        (Ctx.cons ⟨maxEntries, ents.take (lastLe Index.firstBlock ents b), ix.firstBlock, ix.leaf,
          ents.drop (lastLe Index.firstBlock ents b + 1)⟩ ctx).hasRoom = true := by
      have hl := congrArg List.length hsplit
      rw [List.length_append, List.length_cons] at hl
      rw [Ctx.hasRoom, hl, Nat.add_comm _ 1, ← Nat.add_assoc, Nat.add_right_comm]
      exact id
    generalize ents.take (lastLe Index.firstBlock ents b) = left at *
    generalize ents.drop (lastLe Index.firstBlock ents b + 1) = right at *
    replace hlow : ctx.low ≤ top Index.firstBlock ctx.ceil ents := hlow
    subst hsplit
    rw [top_append, top_cons] at hlow
    rw [chain_append, top_cons, chain_cons] at hchain
    obtain ⟨hcleft, hix, hcright⟩ := hchain
    have hlen' : left.length + 1 + right.length ≤ maxEntries := by
      rw [List.length_append, List.length_cons] at hlen
      omega
    refine Prog.Sat.bind (sat_readExtentTreeBlock fs ix.node) fun _ => Prog.Sat.of_forall ?_
    intro s hs
    refine (sat_findExtentFrom ix.node
      (.cons ⟨maxEntries, left, ix.firstBlock, ix.leaf, right⟩ ctx) s ?_ ?_ ?_ hix.2.1
      hix.2.2).conseq (fun _ => id) ?_ ?_
    · exact ⟨hctx, h2, hcap, hlen', hlow, hcleft, hix.1, hcright⟩
    · show (if left = [] then ctx.floor else ix.firstBlock) ≤ b
      split_ifs with hl
      · exact hfloor
      · exact hle.resolve_right hl
    · show b < top Index.firstBlock ctx.ceil right
      rcases hr : right with - | ⟨e, es⟩
      · exact hceil
      · exact hgt e (by rw [hr]; exact List.mem_cons_self ..)
    · rintro p fs' ⟨hs', hfits, hp, hroom', hleaf⟩
      refine ⟨hs.trans hs', hfits, ?_, fun h => hroom' ?_, hleaf⟩
      · rw [hp]; rfl
      · rw [hroom h, Bool.or_true]
    · rintro e fs' ⟨hs', he⟩
      exact ⟨hs.trans hs', he⟩

/-- The path a walk from the root for block `b` ends at. -/
structure Path.Found (cap : ℕ) {D : ℕ} (p : Path D) (t : Tree) (b : ℕ) : Prop where
  fits : p.Fits cap b
  plug : p.plug = t
  depth : D = t.depth
  hasRoom : t.root.hasRoom = true → p.ctx.hasRoom = true
  ceil : p.ctx.ceil = t.root.ceilAt b (2 ^ 32)
  leaf : ∃ lf, t.root.leafAt b = some lf ∧ p.maxEntries = lf.maxEntries ∧
    p.leaf = extBinsearch lf.exts b

/-- The walk for block `b` comes by the node at the end of a path that fits. -/
theorem Ctx.Ok.walk {cap b : ℕ} : ∀ {d D : ℕ} {ctx : Ctx d D} {n : Node d}, ctx.Ok cap →
    ctx.floor ≤ b → b < ctx.ceil → ctx.low ≤ n.low ctx.ceil → n.Ok cap (ctx.space cap) ctx.ceil →
    (ctx.plug n).depth = D ∧ (ctx.plug n).root.leafAt b = n.leafAt b ∧
      (ctx.plug n).root.ceilAt b (2 ^ 32) = n.ceilAt b ctx.ceil ∧
      ((ctx.plug n).root.hasRoom = true → (n.hasRoom || ctx.hasRoom) = true)
  | _, _, .nil, n, _, _, _, _, _ => ⟨rfl, rfl, rfl, fun h => by
      rw [show n.hasRoom = true from h]
      rfl⟩
  | d, D, .cons l up, n, hctx, hfloor, hceil, hlow, hn => by
    have hc := hctx
    obtain ⟨hup, h2, hcap, hlen, hfirst, hleft, hkey, hright⟩ := hctx
    have hchain : Chain Index.firstBlock (EntryOk cap) up.ceil
        (l.left ++ ⟨l.firstBlock, l.leaf, n⟩ :: l.right) := by
      rw [chain_append, top_cons]
      exact ⟨hleft, ⟨hkey, hlow, hn⟩, hright⟩
    have hcur : l.firstBlock ≤ b ∨ l.left = [] := by
      change (if l.left = [] then up.floor else l.firstBlock) ≤ b at hfloor
      by_cases hl : l.left = []
      · exact .inr hl
      · rw [if_neg hl] at hfloor
        exact .inl hfloor
    have hgt : ∀ e ∈ l.right, b < e.firstBlock := by
      intro e he
      have hlt : b < top Index.firstBlock up.ceil l.right := hceil
      obtain ⟨as, bs, hs⟩ := List.append_of_mem he
      have hr := hright
      rw [hs, chain_append, top_cons] at hr
      rw [hs, top_append, top_cons] at hlt
      exact Nat.lt_of_lt_of_le hlt (hr.1.top_le entry_lt)
    have hidx : lastLe Index.firstBlock (l.plug n).ents b = l.left.length :=
      lastLe_eq entry_lt hchain hcur hgt
    have hget : (l.plug n).ents[l.left.length]? = some ⟨l.firstBlock, l.leaf, n⟩ := by
      simp [Level.plug]
    have hfloor' : up.floor ≤ b := by
      change (if l.left = [] then up.floor else l.firstBlock) ≤ b at hfloor
      split_ifs at hfloor
      · exact hfloor
      · exact (hup.floor_le.trans (hfirst.trans (hleft.top_le entry_lt))).trans hfloor
    have hceil' : b < up.ceil := Nat.lt_of_lt_of_le hceil (hright.top_le entry_lt)
    have hlow' : up.low ≤ Node.low up.ceil (d := d + 1) (l.plug n) := by
      show up.low ≤ top Index.firstBlock up.ceil (l.left ++ _ :: l.right)
      rw [top_append, top_cons]
      exact hfirst
    have hnode : Node.Ok cap (d := d + 1) (up.space cap) up.ceil (l.plug n) := by
      refine Node.ok_index.2 ⟨h2, hcap, ?_, by simp [Level.plug], hchain⟩
      simp only [Level.plug, List.length_append, List.length_cons]
      omega
    obtain ⟨hdepth, hleaf, hceilAt, hroom⟩ := Ctx.Ok.walk (n := l.plug n) hup hfloor' hceil' hlow'
      hnode
    refine ⟨hdepth, ?_, ?_, fun h => ?_⟩
    · refine hleaf.trans ?_
      rw [Node.leafAt, hidx, hget]
    · refine hceilAt.trans ?_
      rw [Node.ceilAt, hidx, hget]
      simp [Level.plug, Ctx.ceil]
    · have := hroom h
      simp only [Node.hasRoom, Level.plug, List.length_append, List.length_cons] at this
      rw [Ctx.hasRoom, show l.left.length + 1 + l.right.length = l.left.length + (l.right.length + 1)
        by omega, this, Bool.or_true]

/-- **`ext4_find_extent`** on a well-formed tree. -/
theorem sat_findExtentAgain {cap b : ℕ} (fs : ExtFs) (hb : b < 2 ^ 32)
    (hok : fs.tree.root.Ok cap Tree.rootSpace (2 ^ 32)) :
    Prog.Sat (· = fs) (findExtentAgain b)
      (fun r fs' => fs.Same fs' ∧ r.2.Found cap fs.tree b)
      (fun e fs' => fs.Same fs' ∧ e ≠ .assert) := by
  refine Prog.Sat.get_bind ?_
  rintro s rfl
  refine Prog.Sat.bind (sat_findExtentFrom s.tree.root .nil s trivial (Nat.zero_le b) hb
    (Nat.zero_le _) hok) fun p => Prog.Sat.pure ?_
  rintro fs' ⟨hs, hfits, hp, hroom, hceil, hleaf⟩
  exact ⟨hs, hfits, hp, rfl, fun h => hroom (by rw [h]; rfl), hceil, hleaf⟩

theorem sat_findExtent {cap b : ℕ} (fs : ExtFs) (hb : b < 2 ^ 32)
    (hok : fs.tree.root.Ok cap Tree.rootSpace (2 ^ 32)) :
    Prog.Sat (· = fs) (findExtent b)
      (fun r fs' => fs.Same fs' ∧ r.2.Found cap fs.tree b)
      (fun e fs' => fs.Same fs' ∧ e ≠ .assert) := by
  refine Prog.Sat.bind (sat_access fs) fun _ => Prog.Sat.of_forall ?_
  rintro _ ⟨l, rfl⟩
  refine (sat_findExtentAgain { fs with faults := l } hb hok).conseq (fun _ => id) ?_ ?_
  · rintro r fs' ⟨hs, h⟩
    exact ⟨ExtFs.Same.trans ⟨l, rfl⟩ hs, h⟩
  · rintro e fs' ⟨hs, he⟩
    exact ⟨ExtFs.Same.trans ⟨l, rfl⟩ hs, he⟩

end Lwext4
