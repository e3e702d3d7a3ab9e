/-
  What removing a range of blocks leaves of the extents of a leaf.

  `Extent.cut` is what stays of one extent, and `mapOf_flatMap_cut` its map;
  `removeLeafExts_spec` says that `ext4_ext_remove_leaf` computes it and frees
  the blocks removed.
-/
import Lwext4.ExtentOrder
import Lwext4.ExtentRemove

namespace Lwext4

open Lib

/-! ## What stays of an extent -/

/-- The extents left of an extent when `[from, to]` is removed. -/
def Extent.cut (from' to' : ℕ) (e : Extent) : List Extent :=
  let last := e.firstBlock + e.getActualLen - 1
  if last < from' ∨ to' < e.firstBlock then [e]
  else
    (if e.firstBlock < from' then [e.headTo from'] else []) ++
      if to' < last then [e.tailFrom (to' + 1)] else []

section Cut

variable {from' to' hi : ℕ}

theorem cut_of_disjoint {e : Extent} (h : e.firstBlock + e.getActualLen ≤ from' ∨ to' < e.firstBlock)
    (hpos : 0 < e.getActualLen) : e.cut from' to' = [e] :=
  if_pos (by omega)

/-- Extents past the range stay. -/
theorem flatMap_cut_of_lt : ∀ {es : List Extent}, (∀ e ∈ es, to' < e.firstBlock) →
    es.flatMap (Extent.cut from' to') = es
  | [], _ => rfl
  | e :: es, h => by
    have he := h e (List.mem_cons_self ..)
    rw [List.flatMap_cons, flatMap_cut_of_lt fun x hx => h x (.tail _ hx), Extent.cut, if_pos (.inr he)]
    rfl

/-- Extents before the range stay. -/
theorem flatMap_cut_of_chain : ∀ {es : List Extent}, Chain Extent.firstBlock Extent.Ok hi es →
    hi ≤ from' → es.flatMap (Extent.cut from' to') = es
  | [], _, _ => rfl
  | e :: es, h, hle => by
    have hend := h.1.2.1
    have htop := h.2.top_le extent_lt
    rw [List.flatMap_cons, flatMap_cut_of_chain h.2 hle,
      cut_of_disjoint (.inl (by omega)) h.1.1]
    rfl

/-- `p` is the part of extent `e` in `[a, c)`. -/
structure Extent.Piece (e : Extent) (a c : ℕ) (p : Extent) : Prop where
  first : p.firstBlock = a
  len : p.getActualLen = c - a
  unwritten : p.isUnwritten = e.isUnwritten
  start : p.start = e.start + (a - e.firstBlock)
  count : p.blockCount < 2 ^ 16

theorem Extent.Piece.ok {e p : Extent} {a c lim : ℕ} (h : e.Piece a c p) (hac : a < c)
    (hc : c ≤ lim) : p.Ok lim := by
  refine ⟨?_, ?_, h.count⟩
  · rw [h.len]; omega
  · rw [h.len, h.first]; omega

theorem Extent.Piece.mapOf {e p : Extent} {a c : ℕ} (h : e.Piece a c p) (ha : e.firstBlock ≤ a)
    (b : ℕ) : mapOf [p] b = if a ≤ b ∧ b < c then some (e.value b) else none := by
  have hcov : p.covers b = true ↔ a ≤ b ∧ b < c := by
    rw [Extent.covers_iff, h.first, h.len]
    omega
  rw [mapOf_cons, mapOf_nil]
  by_cases hb : a ≤ b ∧ b < c
  · have hval : e.start + (a - e.firstBlock) + (b - a) = e.start + (b - e.firstBlock) := by omega
    rw [if_pos hb, if_pos (hcov.2 hb), Extent.value, Extent.value, h.start, h.first, h.unwritten,
      hval]
  · rw [if_neg hb, if_neg fun hc => hb (hcov.1 hc)]

theorem headTo_piece {e : Extent} {b : ℕ} (he : e.Ok hi) (h : e.firstBlock < b)
    (h' : b < e.firstBlock + e.getActualLen) : e.Piece e.firstBlock b (e.headTo b) := by
  have hle := he.len_le
  obtain ⟨hlen, hunw, hcnt⟩ := e.setLen_spec (b - e.firstBlock) e.isUnwritten (by omega)
    (.inl (by omega))
  exact ⟨Extent.setLen_firstBlock .., hlen, hunw, by simp [Extent.headTo], hcnt⟩

theorem tailFrom_piece {e : Extent} {b : ℕ} (he : e.Ok hi) (h : e.firstBlock < b)
    (h' : b < e.firstBlock + e.getActualLen) :
    e.Piece b (e.firstBlock + e.getActualLen) (e.tailFrom b) := by
  have hle := he.len_le
  obtain ⟨hlen, hunw, hcnt⟩ := Extent.setLen_spec
    { e with firstBlock := b, start := e.start + (b - e.firstBlock) }
    (e.firstBlock + e.getActualLen - b) e.isUnwritten (by omega) (.inl (by omega))
  exact ⟨Extent.setLen_firstBlock .., hlen, hunw, Extent.setLen_start .., hcnt⟩

/-- **The map of what stays** of an extent. -/
theorem mapOf_cut {e : Extent} (he : e.Ok hi) (hft : from' ≤ to') (b : ℕ) :
    mapOf (e.cut from' to') b = if from' ≤ b ∧ b ≤ to' then none else mapOf [e] b := by
  have hlen := he.1
  unfold Extent.cut
  simp only
  rw [mapOf_cons e [], mapOf_nil]
  by_cases hdis : e.firstBlock + e.getActualLen - 1 < from' ∨ to' < e.firstBlock
  · rw [if_pos hdis, mapOf_cons, mapOf_nil]
    have hno : from' ≤ b ∧ b ≤ to' → ¬ e.covers b = true := by
      rw [Extent.covers_iff]
      omega
    by_cases hb : from' ≤ b ∧ b ≤ to'
    · rw [if_pos hb, if_neg (hno hb)]
    · rw [if_neg hb]
  · have hhead : mapOf (if e.firstBlock < from' then
        [e.headTo from'] else []) b =
        if e.firstBlock ≤ b ∧ b < from' then some (e.value b) else none := by
      by_cases hf : e.firstBlock < from'
      · rw [if_pos hf, (headTo_piece he hf (by omega)).mapOf le_rfl]
      · rw [if_neg hf, if_neg (by omega), mapOf_nil]
    have htail : mapOf (if to' < e.firstBlock + e.getActualLen - 1 then
        [e.tailFrom (to' + 1)] else []) b =
        if to' + 1 ≤ b ∧ b < e.firstBlock + e.getActualLen then some (e.value b) else none := by
      by_cases ht : to' < e.firstBlock + e.getActualLen - 1
      · rw [if_pos ht, (tailFrom_piece he (by omega) (by omega)).mapOf (by omega)]
      · rw [if_neg ht, if_neg (by omega), mapOf_nil]
    rw [if_neg hdis, mapOf_append, hhead, htail]
    have hcov := Extent.covers_iff (e := e) (b := b)
    by_cases hin : e.covers b = true
    · have hb := hcov.1 hin
      rw [if_pos hin]
      by_cases h1 : b < from'
      · rw [if_pos ⟨hb.1, h1⟩, if_neg (by omega), if_neg (by omega)]
        rfl
      · by_cases h2 : b ≤ to'
        · rw [if_neg (by omega), if_neg (by omega), if_pos (by omega)]
          rfl
        · rw [if_neg (by omega), if_pos (by omega), if_neg (by omega)]
          rfl
    · have hb : ¬ (e.firstBlock ≤ b ∧ b < e.firstBlock + e.getActualLen) := fun h => hin (hcov.2 h)
      rw [if_neg hin, ite_self, if_neg (by omega), if_neg (by omega)]
      rfl

/-- **The map of what stays** of a chain of extents. -/
theorem mapOf_flatMap_cut (hft : from' ≤ to') (b : ℕ) : ∀ {es : List Extent},
    Chain Extent.firstBlock Extent.Ok hi es → mapOf (es.flatMap (Extent.cut from' to')) b =
      if from' ≤ b ∧ b ≤ to' then none else mapOf es b
  | [], _ => by simp
  | e :: es, h => by
    have hcons : mapOf (e :: es) b = (mapOf [e] b).or (mapOf es b) := mapOf_append [e] es b
    rw [List.flatMap_cons, mapOf_append, mapOf_cut h.1 hft, mapOf_flatMap_cut hft b h.2, hcons]
    split_ifs <;> rfl

/-- What stays of a chain of extents is one. -/
theorem chain_flatMap_cut (hft : from' ≤ to') : ∀ {es : List Extent},
    Chain Extent.firstBlock Extent.Ok hi es →
    Chain Extent.firstBlock Extent.Ok hi (es.flatMap (Extent.cut from' to')) ∧
      top Extent.firstBlock hi es ≤ top Extent.firstBlock hi (es.flatMap (Extent.cut from' to'))
  | [], _ => ⟨trivial, le_rfl⟩
  | e :: es, h => by
    obtain ⟨hrest, hle⟩ := chain_flatMap_cut hft h.2
    have he := h.1
    have hlen := he.1
    have hend := he.2.1.trans hle
    rw [List.flatMap_cons, chain_append, top_append, top_cons]
    generalize top Extent.firstBlock hi (es.flatMap (Extent.cut from' to')) = lim at *
    unfold Extent.cut
    simp only
    split_ifs with hdis hf ht ht
    · exact ⟨⟨⟨⟨he.1, hend, he.2.2⟩, trivial⟩, hrest⟩, le_rfl⟩
    · have hh := headTo_piece he hf (by omega)
      have ht' := @tailFrom_piece _ e (to' + 1) he (by omega) (by omega)
      rw [List.singleton_append, chain_cons, chain_cons, top_cons, top_cons, ht'.first, hh.first]
      exact ⟨⟨⟨hh.ok hf (by omega), ht'.ok (by omega) hend, trivial⟩, hrest⟩, le_rfl⟩
    · have hh := headTo_piece he hf (by omega)
      rw [List.append_nil, chain_cons, top_cons, hh.first]
      exact ⟨⟨⟨hh.ok hf (by rw [top_nil]; omega), trivial⟩, hrest⟩, le_rfl⟩
    · have ht' := @tailFrom_piece _ e (to' + 1) he (by omega) (by omega)
      rw [List.nil_append, chain_cons, top_cons, ht'.first]
      exact ⟨⟨⟨ht'.ok (by omega) hend, trivial⟩, hrest⟩, by omega⟩
    · exact ⟨⟨trivial, hrest⟩, by rw [List.nil_append, top_nil]; omega⟩

end Cut

/-! ## Leaves -/

/-- An extent the removal reaches: it ends in the range or after it, and the
    range is not inside it. -/
def Extent.Reached (from' to' : ℕ) (e : Extent) : Prop :=
  from' < e.firstBlock + e.getActualLen ∧
    (e.firstBlock < from' → e.firstBlock + e.getActualLen ≤ to' + 1)

/-- The blocks of an extent that are removed. -/
def Extent.gone (from' to' : ℕ) (e : Extent) : List ℕ := blocksOf (e.physRange from' to')

section Leaf

variable {from' to' hi : ℕ}

/-- What the loop of `ext4_ext_remove_leaf` leaves when no head stays. -/
structure LeafScan.Tail (from' to' : ℕ) (rest : List Extent) (i startEx newEntries : ℕ)
    (r : LeafScan) : Prop where
  startEx : r.startEx = startEx
  length : r.exts.length = rest.length
  ex2 : i ≤ r.ex2 ∧ r.ex2 ≤ i + rest.length
  newEntries : r.newEntries = newEntries - (r.ex2 - i)
  exts : r.exts.drop (r.ex2 - i) = rest.flatMap (Extent.cut from' to')
  freed : r.freed.flatMap blocksOf = rest.flatMap (Extent.gone from' to')

theorem gone_of_lt {e : Extent} (h : to' < e.firstBlock) : e.gone from' to' = [] := by
  have h0 : min (e.firstBlock + e.getActualLen) (to' + 1) - max e.firstBlock from' = 0 := by omega
  rw [Extent.gone, Extent.physRange, h0]
  rfl

theorem flatMap_gone_of_lt {es : List Extent} (h : ∀ e ∈ es, to' < e.firstBlock) :
    es.flatMap (Extent.gone from' to') = [] := by
  rw [List.flatMap_eq_nil_iff]
  exact fun e he => gone_of_lt (h e he)

/-- The loop ends at an extent past the range. -/
theorem removeLeafLoop_past {rest : List Extent} (h : ∀ e ∈ rest, to' < e.firstBlock)
    (i startEx : ℕ) (ex2 : Option ℕ) (newEntries : ℕ) :
    removeLeafLoop from' to' rest i startEx ex2 newEntries =
      ⟨rest, [], startEx, ex2.getD i, newEntries⟩ := by
  cases rest with
  | nil => rfl
  | cons e es => exact if_neg (Nat.not_le.2 (h e (List.mem_cons_self ..)))

theorem removeLeafLoop_tail : ∀ {rest : List Extent} (i startEx newEntries : ℕ),
    Chain Extent.firstBlock Extent.Ok hi rest → (∀ e ∈ rest, from' ≤ e.firstBlock) →
    (removeLeafLoop from' to' rest i startEx none newEntries).Tail from' to' rest i startEx
      newEntries
  | [], i, startEx, newEntries, _, _ => by
    refine ⟨rfl, rfl, ?_, ?_, ?_, ?_⟩ <;> simp [removeLeafLoop]
  | e :: es, i, startEx, newEntries, h, hfrom => by
    have hlen := h.1.1
    have hend := h.1.2.1
    have hfirst := hfrom e (List.mem_cons_self ..)
    have hfrom' : ∀ x ∈ es, from' ≤ x.firstBlock := fun x hx => hfrom x (.tail _ hx)
    have hkey : ∀ x ∈ es, e.firstBlock + e.getActualLen ≤ x.firstBlock := fun x hx =>
      hend.trans (h.2.key_lt extent_lt x hx).1
    by_cases hle : e.firstBlock ≤ to'
    · by_cases ht : to' < e.firstBlock + e.getActualLen - 1
      · have hpast : ∀ x ∈ es, to' < x.firstBlock := fun x hx => by
          have := hkey x hx
          omega
        have hcut : e.cut from' to' = [e.tailFrom (to' + 1)] := by
          unfold Extent.cut
          simp only
          rw [if_neg (by omega), if_neg (by omega), if_pos ht]
          rfl
        have hgone : blocksOf (e.start, e.getActualLen -
            (e.firstBlock + e.getActualLen - 1 - to')) = e.gone from' to' := by
          rw [Extent.gone, Extent.physRange]
          congr 2 <;> omega
        unfold removeLeafLoop
        simp only
        rw [if_pos hle, if_neg (by omega), if_pos ht, removeLeafLoop_past hpast]
        refine ⟨rfl, rfl, ⟨le_rfl, Nat.le_add_right ..⟩, ?_, ?_, ?_⟩
        · simp
        · rw [List.flatMap_cons, flatMap_cut_of_lt hpast, hcut]
          simp
        · show blocksOf _ ++ [] = List.flatMap _ (e :: es)
          rw [List.flatMap_cons, flatMap_gone_of_lt hpast, hgone]
      · have ih := removeLeafLoop_tail (i + 1) startEx (newEntries - 1) h.2 hfrom'
        have hcut : e.cut from' to' = [] := by
          unfold Extent.cut
          simp only
          rw [if_neg (by omega), if_neg (by omega), if_neg ht]
          rfl
        have hgone : blocksOf (e.start, e.getActualLen) = e.gone from' to' := by
          rw [Extent.gone, Extent.physRange]
          congr 2 <;> omega
        unfold removeLeafLoop
        simp only
        rw [if_pos hle, if_neg (by omega), if_neg ht]
        obtain ⟨h1, h2, ⟨h3, h3'⟩, h4, h5, h6⟩ := ih
        generalize removeLeafLoop from' to' es (i + 1) startEx none (newEntries - 1) = r at *
        refine ⟨h1, congrArg (· + 1) h2, ⟨show i ≤ r.ex2 by omega, ?_⟩, ?_, ?_, ?_⟩
        · show r.ex2 ≤ i + (es.length + 1)
          omega
        · show r.newEntries = newEntries - (r.ex2 - i)
          omega
        · have hdrop : r.ex2 - i = r.ex2 - (i + 1) + 1 := by omega
          show (e :: r.exts).drop (r.ex2 - i) = _
          rw [List.flatMap_cons, hcut, List.nil_append, ← h5, hdrop, List.drop_succ_cons]
        · rw [List.flatMap_cons, List.flatMap_cons, h6, hgone]
    · have hpast : ∀ x ∈ e :: es, to' < x.firstBlock := fun x hx => by
        rcases List.mem_cons.1 hx with rfl | hx
        · omega
        · have := hkey x hx
          omega
      rw [removeLeafLoop_past hpast]
      refine ⟨rfl, rfl, ⟨le_rfl, Nat.le_add_right ..⟩, by simp, ?_, ?_⟩
      · rw [flatMap_cut_of_lt hpast]
        simp
      · rw [flatMap_gone_of_lt hpast]
        rfl

/-- The `memmove` of `ext4_ext_remove_leaf`: the entries from `k` on move to the
    end of `left`. -/
theorem take_moved {left xs : List Extent} {m k n : ℕ} (hm : m = left.length) (hk : left.length ≤ k)
    (hn : n = left.length + (xs.length - (k - left.length))) :
    ((left ++ xs).take m ++ (left ++ xs).drop k).take n = left ++ xs.drop (k - left.length) := by
  rw [hm, List.take_left, List.drop_append, List.drop_of_length_le hk, List.nil_append]
  refine List.take_of_length_le ?_
  rw [List.length_append, List.length_drop, hn]

/-- **`ext4_ext_remove_leaf`** keeps what stays of the extents of the leaf. -/
theorem removeLeafExts_spec (left : List Extent) {rest : List Extent} (hrest : rest ≠ [])
    (h : Chain Extent.firstBlock Extent.Ok hi rest) (hreach : ∀ e ∈ rest, e.Reached from' to') :
    (removeLeafExts from' to' left rest).1 = left ++ rest.flatMap (Extent.cut from' to') ∧
    (removeLeafExts from' to' left rest).2.flatMap blocksOf =
      rest.flatMap (Extent.gone from' to') := by
  obtain ⟨e, es, rfl⟩ := List.exists_cons_of_ne_nil hrest
  have hlen := h.1.1
  have hend := h.1.2.1
  obtain ⟨hr, hr'⟩ := hreach e (List.mem_cons_self ..)
  have hfrom : ∀ x ∈ es, from' ≤ x.firstBlock := fun x hx => by
    have := (h.2.key_lt extent_lt x hx).1
    omega
  unfold removeLeafExts
  simp only
  by_cases hf : e.firstBlock < from'
  · have hle : e.firstBlock ≤ to' := by
      have := hr' hf
      omega
    have hcut : e.cut from' to' = [e.headTo from'] := by
      have := hr' hf
      unfold Extent.cut
      simp only
      rw [if_neg (by omega), if_pos hf, if_neg (by omega)]
      rfl
    have hgone : blocksOf (e.start + (from' - e.firstBlock),
        e.getActualLen - (from' - e.firstBlock)) = e.gone from' to' := by
      have := hr' hf
      rw [Extent.gone, Extent.physRange]
      congr 2 <;> omega
    have ht := @removeLeafLoop_tail from' to' hi es (left.length + 1) (left.length + 1)
      (left.length + (e :: es).length) h.2 hfrom
    unfold removeLeafLoop
    simp only
    rw [if_pos hle, if_pos hf]
    obtain ⟨h1, h2, ⟨h3, h3'⟩, h4, h5, h6⟩ := ht
    generalize removeLeafLoop from' to' es (left.length + 1) (left.length + 1) none
      (left.length + (e :: es).length) = r at *
    constructor
    · have hsplit : left ++ e.headTo from' :: r.exts = (left ++ [e.headTo from']) ++ r.exts := by
        simp
      have hleft : (left ++ [e.headTo from']).length = left.length + 1 := by simp
      have hmoved := @take_moved (left ++ [e.headTo from']) r.exts r.startEx r.ex2 r.newEntries
        (by rw [h1, hleft]) (by rw [hleft]; exact h3) (by
          rw [hleft, h4, h2, List.length_cons]
          omega)
      show ((left ++ e.headTo from' :: r.exts).take r.startEx ++
        (left ++ e.headTo from' :: r.exts).drop r.ex2).take r.newEntries = _
      rw [hsplit, hmoved, hleft, h5, List.flatMap_cons, hcut, List.append_assoc]
    · rw [List.flatMap_cons, List.flatMap_cons, h6, hgone]
  · have ht := @removeLeafLoop_tail from' to' hi (e :: es) left.length left.length
      (left.length + (e :: es).length) h fun x hx => by
        rcases List.mem_cons.1 hx with rfl | hx
        · omega
        · exact hfrom x hx
    obtain ⟨h1, h2, ⟨h3, h3'⟩, h4, h5, h6⟩ := ht
    generalize removeLeafLoop from' to' (e :: es) left.length left.length none
      (left.length + (e :: es).length) = r at *
    refine ⟨?_, h6⟩
    rw [take_moved h1 h3 (by rw [h4, h2]; omega), h5]

/-- The last extent of a leaf ends last. -/
theorem end_le_last : ∀ {es : List Extent}, Chain Extent.firstBlock Extent.Ok hi es →
    ∀ {last : Extent}, es.getLast? = some last → ∀ e ∈ es,
    e.firstBlock + e.getActualLen ≤ last.firstBlock + last.getActualLen
  | [a], _, last, hlast, e, he => by
    obtain rfl := Option.some.inj hlast
    obtain rfl := List.mem_singleton.1 he
    exact le_rfl
  | a :: b :: bs, h, last, hlast, e, he => by
    have hlast' : (b :: bs).getLast? = some last := by simpa using hlast
    have ih := end_le_last h.2 hlast'
    rcases List.mem_cons.1 he with rfl | he
    · have h1 := h.1.2.1
      have h2 := ih b (List.mem_cons_self ..)
      rw [top_cons] at h1
      omega
    · exact ih e he

/-- In a leaf `leaf_from` and `leaf_to` stand for the range itself. -/
theorem leafRange_spec (from' to' : ℕ) {es : List Extent} (h : Chain Extent.firstBlock Extent.Ok hi es)
    (hne : es ≠ []) : ∃ f t, leafRange from' to' es = some (f, t) ∧
      ∀ e ∈ es, e.cut f t = e.cut from' to' ∧ e.gone f t = e.gone from' to' ∧
        (e.Reached from' to' → e.Reached f t) := by
  obtain ⟨first, rest, rfl⟩ := List.exists_cons_of_ne_nil hne
  obtain ⟨last, hlast⟩ := Option.ne_none_iff_exists'.1 (mt List.getLast?_eq_none_iff.1 hne)
  refine ⟨_, _, by rw [leafRange, hlast]; rfl, fun e he => ?_⟩
  have hfirst := (h.key_lt extent_lt e he).1
  have hend := end_le_last h hlast e he
  rw [top_cons] at hfirst
  have hlen : 0 < e.getActualLen := by
    obtain ⟨as, bs, hsplit⟩ := List.append_of_mem he
    rw [hsplit, chain_append, chain_cons] at h
    exact h.2.1.1
  refine ⟨?_, ?_, fun hr => ⟨?_, fun hlt => ?_⟩⟩
  · have h1 : (e.firstBlock + e.getActualLen - 1 < max first.firstBlock from' ∨
        min (last.firstBlock + last.getActualLen - 1) to' < e.firstBlock) ↔
        (e.firstBlock + e.getActualLen - 1 < from' ∨ to' < e.firstBlock) := by omega
    unfold Extent.cut
    simp only
    by_cases hdis : e.firstBlock + e.getActualLen - 1 < from' ∨ to' < e.firstBlock
    · rw [if_pos hdis, if_pos (h1.2 hdis)]
    · rw [if_neg hdis, if_neg (mt h1.1 hdis)]
      congr 1
      · by_cases hf : e.firstBlock < from'
        · rw [if_pos hf, if_pos (by omega), Nat.max_eq_right (by omega)]
        · rw [if_neg hf, if_neg (by omega)]
      · by_cases ht : to' < e.firstBlock + e.getActualLen - 1
        · rw [if_pos ht, if_pos (by omega), Nat.min_eq_right (by omega)]
        · rw [if_neg ht, if_neg (by omega)]
  · have h1 : max e.firstBlock (max first.firstBlock from') = max e.firstBlock from' := by omega
    have h2 : min (e.firstBlock + e.getActualLen)
        (min (last.firstBlock + last.getActualLen - 1) to' + 1) =
        min (e.firstBlock + e.getActualLen) (to' + 1) := by omega
    rw [Extent.gone, Extent.gone, Extent.physRange, Extent.physRange, h1, h2]
  · have := hr.1
    omega
  · have := hr.2 (by omega)
    omega

end Leaf

end Lwext4
