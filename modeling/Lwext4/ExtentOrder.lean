/-
  The extents of a well-formed tree are sorted.

  The extents of a well-formed node are a chain (`Node.Ok.chain`), so are those
  left and right of a path.  A path that fits a block therefore decides whether
  the block is mapped (`Path.Fits.map_eq`).  `physIn` lists the physical blocks
  mapped in a range of logical blocks; for a chain of extents it is what the
  single extents contribute (`physIn_eq`).
-/
import Lwext4.ExtentInsert

namespace Lwext4

open Lib

/-! ## Order -/

section Order

variable {cap : ℕ}

theorem extents_mono {hi hi' : ℕ} (hle : hi ≤ hi') {es : List Extent}
    (h : Chain Extent.firstBlock Extent.Ok hi es) : Chain Extent.firstBlock Extent.Ok hi' es :=
  Chain.mono (fun e _ _ he hab => Extent.Ok.mono (e := e) he hab) hle h

/-- Chains of extents, one after the other, are a chain. -/
theorem chain_entries {d hi : ℕ} : ∀ {ents : List (Index (Node d))},
    (∀ e ∈ ents, ∀ h, EntryOk cap e h → Chain Extent.firstBlock Extent.Ok h e.node.extents ∧
      e.firstBlock ≤ top Extent.firstBlock h e.node.extents) →
    Chain Index.firstBlock (EntryOk cap) hi ents →
    Chain Extent.firstBlock Extent.Ok hi (ents.flatMap fun e => e.node.extents) ∧
      top Index.firstBlock hi ents ≤
        top Extent.firstBlock hi (ents.flatMap fun e => e.node.extents)
  | [], _, _ => ⟨trivial, le_rfl⟩
  | e :: es, hnode, h => by
    obtain ⟨hes, hle⟩ := chain_entries (fun e' he' => hnode e' (.tail _ he')) h.2
    obtain ⟨he, hkey⟩ := hnode e (List.mem_cons_self ..) _ h.1
    have hmono := extents_mono hle he
    rw [List.flatMap_cons, chain_append, top_append]
    refine ⟨⟨hmono, hes⟩, ?_⟩
    show e.firstBlock ≤ _
    rcases hx : e.node.extents with - | ⟨x, xs⟩
    · rw [hx] at hkey
      exact hkey.trans hle
    · rw [hx] at hkey
      exact hkey

/-- **The extents of a well-formed node are a chain**, from its first key on. -/
theorem Node.Ok.chain : ∀ {d c hi : ℕ} {n : Node d}, n.Ok cap c hi →
    Chain Extent.firstBlock Extent.Ok hi n.extents ∧
      n.low hi ≤ top Extent.firstBlock hi n.extents
  | 0, _, _, _, h => ⟨h.2.2.2, le_rfl⟩
  | _ + 1, _, _, _, h =>
    chain_entries (fun _ _ _ he => ⟨(chain he.2.2).1, he.2.1.trans (chain he.2.2).2⟩)
      (Node.ok_index.1 h).2.2.2.2

/-- The extents under the entries of an index node. -/
theorem entries_chain {d hi : ℕ} {ents : List (Index (Node d))}
    (h : Chain Index.firstBlock (EntryOk cap) hi ents) :
    Chain Extent.firstBlock Extent.Ok hi (ents.flatMap fun e => e.node.extents) ∧
      top Index.firstBlock hi ents ≤
        top Extent.firstBlock hi (ents.flatMap fun e => e.node.extents) :=
  chain_entries (fun _ _ _ he => ⟨he.2.2.chain.1, he.2.1.trans he.2.2.chain.2⟩) h

namespace Ctx

/-- The extents left of a path end before the path can be lowered to. -/
theorem Ok.before_chain : ∀ {d D : ℕ} {c : Ctx d D}, c.Ok cap →
    Chain Extent.firstBlock Extent.Ok c.floor c.before
  | _, _, nil, _ => trivial
  | _, _, cons l up, h => by
    obtain ⟨hup, -, -, -, hfirst, hleft, -, -⟩ := h
    have hbefore := hup.before_chain
    unfold before floor
    split_ifs with hl
    · rw [hl, List.flatMap_nil, List.append_nil]
      exact hbefore
    · obtain ⟨hchain, hle⟩ := entries_chain hleft
      rw [chain_append]
      refine ⟨extents_mono ?_ hbefore, hchain⟩
      exact hup.floor_le.trans (hfirst.trans hle)

/-- The extents right of a path start at the next key or later. -/
theorem Ok.after_chain : ∀ {d D : ℕ} {c : Ctx d D}, c.Ok cap →
    Chain Extent.firstBlock Extent.Ok (2 ^ 32) c.after ∧
      c.ceil ≤ top Extent.firstBlock (2 ^ 32) c.after
  | _, _, nil, _ => ⟨trivial, by rw [ceil, after, top_nil]⟩
  | _, _, cons l up, h => by
    obtain ⟨hup, -, -, -, -, -, -, hright⟩ := h
    obtain ⟨hafter, hle⟩ := hup.after_chain
    obtain ⟨hchain, hfirst⟩ := entries_chain hright
    unfold after ceil
    rw [chain_append, top_append]
    refine ⟨⟨extents_mono hle hchain, hafter⟩,
      hfirst.trans ?_⟩
    cases l.right.flatMap fun e => e.node.extents with
    | nil => exact hle
    | cons => exact le_rfl

end Ctx

/-- Extents that end at or before `hi` do not map a block from `hi` on. -/
theorem mapOf_none_of_chain {hi b : ℕ} (hb : hi ≤ b) : ∀ {es : List Extent},
    Chain Extent.firstBlock Extent.Ok hi es → mapOf es b = none
  | [], _ => rfl
  | e :: es, h => by
    have hend := h.1.2.1
    have hle := h.2.top_le extent_lt
    rw [mapOf_cons, if_neg, mapOf_none_of_chain hb h.2]
    rw [Extent.covers_iff]
    omega

/-- Extents of a chain that starts after block `b` do not map it. -/
theorem mapOf_none_of_lt {hi b : ℕ} {es : List Extent}
    (h : Chain Extent.firstBlock Extent.Ok hi es) (hb : b < top Extent.firstBlock hi es) :
    mapOf es b = none := by
  unfold mapOf
  rw [Option.map_eq_none_iff, List.find?_eq_none]
  intro e he
  have := (h.key_lt extent_lt e he).1
  rw [Extent.covers_iff]
  omega

/-- **What a path says about the block it fits**: only the extent at the cursor
    can map it. -/
theorem Path.Fits.map_eq {D b : ℕ} {p : Path D} (hp : p.Fits cap b) : p.plug.map b =
    match p.leaf with
    | .none => none
    | .at _ ex _ => if ex.covers b then some (ex.value b) else none := by
  have hbefore := mapOf_none_of_chain hp.floor_le hp.ctx.before_chain
  obtain ⟨hafter, hle⟩ := hp.ctx.after_chain
  have hafter := mapOf_none_of_lt hafter (Nat.lt_of_lt_of_le hp.lt_ceil hle)
  rw [plug_map, mapOf_append, mapOf_append, hbefore, hafter, Option.none_or, Option.or_none]
  rcases hl : p.leaf with - | ⟨left, ex, right⟩
  · rfl
  · obtain ⟨-, -, hleft, hex, hright, hcur, hgt⟩ := hp.leaf_ok hl
    have hnone : mapOf left b = none := by
      rcases hcur with hcur | rfl
      · exact mapOf_none_of_chain hcur hleft
      · rfl
    have hnone' : mapOf right b = none := by
      unfold mapOf
      rw [Option.map_eq_none_iff, List.find?_eq_none]
      intro e he
      have := hgt e he
      rw [Extent.covers_iff]
      omega
    show mapOf (left ++ ex :: right) b = _
    rw [mapOf_append, mapOf_cons, hnone, hnone', Option.none_or]

end Order

/-! ## Physical blocks -/

/-- The physical blocks mapped in `[from, to']`, in logical order. -/
def physIn (es : List Extent) (from' to' : ℕ) : List ℕ :=
  (List.range' from' (to' + 1 - from')).filterMap fun b => (mapOf es b).map Prod.fst

/-- The physical blocks of one extent in `[from, to']`: where they start and how
    many they are. -/
def Extent.physRange (e : Extent) (from' to' : ℕ) : ℕ × ℕ :=
  (e.start + (max e.firstBlock from' - e.firstBlock),
    min (e.firstBlock + e.getActualLen) (to' + 1) - max e.firstBlock from')

/-- A range of blocks as a list. -/
def blocksOf (r : ℕ × ℕ) : List ℕ := List.range' r.1 r.2

theorem range'_split {a b c : ℕ} (h1 : a ≤ b) (h2 : b ≤ c) :
    List.range' a (c - a) = List.range' a (b - a) ++ List.range' b (c - b) := by
  have h := @List.range'_append_1 a (b - a) (c - b)
  rw [show a + (b - a) = b by omega, show b - a + (c - b) = c - a by omega] at h
  exact h.symm

/-- The blocks of an extent in a range it covers. -/
theorem filterMap_covers {e : Extent} {es : List Extent} {a b : ℕ} (ha : a < b → e.firstBlock ≤ a)
    (hb : a < b → b ≤ e.firstBlock + e.getActualLen) :
    (List.range' a (b - a)).filterMap (fun x => (mapOf (e :: es) x).map Prod.fst) =
      List.range' (e.start + (a - e.firstBlock)) (b - a) := by
  generalize hn : b - a = n
  induction n generalizing a with
  | zero => rfl
  | succ n ih =>
    have hcov : e.covers a = true := by
      rw [Extent.covers_iff]
      omega
    have hnext : e.start + (a + 1 - e.firstBlock) = e.start + (a - e.firstBlock) + 1 := by omega
    rw [List.range'_succ, List.filterMap_cons, mapOf_cons, if_pos hcov, ih (by omega) (by omega)
      (by omega), List.range'_succ, hnext]
    rfl

/-- In a chain of extents the blocks of the first one come first. -/
theorem physIn_eq {hi : ℕ} : ∀ {es : List Extent} (from' to' : ℕ),
    Chain Extent.firstBlock Extent.Ok hi es →
    physIn es from' to' = es.flatMap fun e => blocksOf (e.physRange from' to')
  | [], from', to', _ => by simp [physIn]
  | e :: es, from', to', h => by
    have hend := h.1.2.1
    rw [List.flatMap_cons, ← physIn_eq from' to' h.2, physIn, physIn]
    rcases Nat.lt_or_ge (to' + 1) from' with hlt | hle
    · have hcnt : min (e.firstBlock + e.getActualLen) (to' + 1) - max e.firstBlock from' = 0 := by
        omega
      rw [Nat.sub_eq_zero_of_le hlt.le, blocksOf, Extent.physRange, hcnt]
      rfl
    -- blocks before the extent, in it, and after it
    · have hp : from' ≤ min (to' + 1) (max from' e.firstBlock) := by omega
      have hpq : min (to' + 1) (max from' e.firstBlock) ≤
          min (to' + 1) (max from' (e.firstBlock + e.getActualLen)) := by omega
      have hq : min (to' + 1) (max from' (e.firstBlock + e.getActualLen)) ≤ to' + 1 := by omega
      generalize hpdef : min (to' + 1) (max from' e.firstBlock) = p at hp hpq
      generalize hqdef : min (to' + 1) (max from' (e.firstBlock + e.getActualLen)) = q at hpq hq
      have h1 : (List.range' from' (p - from')).filterMap
          (fun b => (mapOf (e :: es) b).map Prod.fst) = [] := by
        refine List.filterMap_eq_nil_iff.2 fun b hb => ?_
        have hb := List.mem_range'_1.1 hb
        rw [mapOf_none_of_lt h (by rw [top_cons]; omega)]
        rfl
      have h2 : (List.range' p (q - p)).filterMap (fun b => (mapOf (e :: es) b).map Prod.fst) =
          blocksOf (e.physRange from' to') := by
        rw [filterMap_covers (fun _ => by omega) (fun _ => by omega), blocksOf, Extent.physRange]
        rcases Nat.eq_zero_or_pos (q - p) with h0 | hpos
        · rw [h0, show min (e.firstBlock + e.getActualLen) (to' + 1) - max e.firstBlock from' = 0 by
            omega]
          rfl
        · congr 1 <;> omega
      have h3 : (List.range' q (to' + 1 - q)).filterMap
          (fun b => (mapOf (e :: es) b).map Prod.fst) =
          (List.range' q (to' + 1 - q)).filterMap fun b => (mapOf es b).map Prod.fst := by
        refine List.filterMap_congr fun b hb => ?_
        have hb := List.mem_range'_1.1 hb
        rw [mapOf_cons, if_neg]
        rw [Extent.covers_iff]
        omega
      have h4 : (List.range' from' (q - from')).filterMap
          (fun b => (mapOf es b).map Prod.fst) = [] := by
        refine List.filterMap_eq_nil_iff.2 fun b hb => ?_
        have hb := List.mem_range'_1.1 hb
        rw [mapOf_none_of_lt h.2 (by omega)]
        rfl
      rw [range'_split (hp.trans hpq) hq, List.filterMap_append, List.filterMap_append, h4,
        range'_split hp hpq, List.filterMap_append, h1, h2, h3]
      rfl

end Lwext4
