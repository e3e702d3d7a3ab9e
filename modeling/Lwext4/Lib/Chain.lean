/-
  Chains: lists in which every element is bounded by the key of the next one.

  `Chain key ok hi as` says that each element `a` of `as` satisfies `ok a b`,
  where `b` is the key of its successor, or `hi` for the last element.  Sorted
  lists of disjoint intervals and the entries of a search tree node are chains.
  `bsearch` is the binary search for the last element whose key is not above a
  bound.
-/
import Mathlib

namespace Lib

variable {α : Type} {key : α → ℕ} {ok : α → ℕ → Prop} {hi : ℕ}

/-- The key of the first element, `hi` if there is none. -/
def top (key : α → ℕ) (hi : ℕ) : List α → ℕ
  | [] => hi
  | a :: _ => key a

/-- Every element is bounded by the key of its successor. -/
def Chain (key : α → ℕ) (ok : α → ℕ → Prop) (hi : ℕ) : List α → Prop
  | [] => True
  | a :: as => ok a (top key hi as) ∧ Chain key ok hi as

@[simp] theorem top_nil : top key hi [] = hi := rfl

@[simp] theorem top_cons (a : α) (as : List α) : top key hi (a :: as) = key a := rfl

theorem top_append (as bs : List α) : top key hi (as ++ bs) = top key (top key hi bs) as := by
  cases as <;> rfl

@[simp] theorem chain_nil : Chain key ok hi [] := trivial

@[simp] theorem chain_cons (a : α) (as : List α) :
    Chain key ok hi (a :: as) ↔ ok a (top key hi as) ∧ Chain key ok hi as := Iff.rfl

theorem chain_append : ∀ (as bs : List α),
    Chain key ok hi (as ++ bs) ↔ Chain key ok (top key hi bs) as ∧ Chain key ok hi bs
  | [], bs => by simp
  | a :: as, bs => by
    rw [List.cons_append, chain_cons, chain_cons, top_append, chain_append as bs, and_assoc]

theorem chain_range' {f : ℕ → α} : ∀ (n a : ℕ),
    (∀ i, a ≤ i → i + 1 < a + n → ok (f i) (key (f (i + 1)))) →
    (∀ i, i + 1 = a + n → ok (f i) hi) → Chain key ok hi ((List.range' a n).map f)
  | 0, _, _, _ => trivial
  | 1, a, _, hlast => ⟨hlast a rfl, trivial⟩
  | n + 2, a, hok, hlast => by
    refine ⟨hok a le_rfl (by omega), chain_range' (n + 1) (a + 1) (fun i hi h => ?_) fun i h => ?_⟩
    · exact hok i (by omega) (by omega)
    · exact hlast i (by omega)

/-- The bound of a chain may be raised. -/
theorem Chain.mono (hok : ∀ a h h', ok a h → h ≤ h' → ok a h') {hi' : ℕ} (hle : hi ≤ hi') :
    ∀ {as : List α}, Chain key ok hi as → Chain key ok hi' as
  | [], _ => trivial
  | [_], h => ⟨hok _ _ _ h.1 hle, trivial⟩
  | _ :: _ :: _, h => ⟨h.1, Chain.mono hok hle h.2⟩

theorem Chain.top_le (hlt : ∀ a h, ok a h → key a < h) : ∀ {as : List α},
    Chain key ok hi as → top key hi as ≤ hi
  | [], _ => le_rfl
  | a :: _, h => (hlt a _ h.1).le.trans (Chain.top_le hlt h.2)

/-- The keys of a chain lie below its bound and above that of its head. -/
theorem Chain.key_lt (hlt : ∀ a h, ok a h → key a < h) : ∀ {as : List α},
    Chain key ok hi as → ∀ a ∈ as, top key hi as ≤ key a ∧ key a < hi
  | b :: bs, h, a, hmem => by
    have hb := hlt b _ h.1
    rcases List.mem_cons.1 hmem with rfl | hmem
    · exact ⟨le_rfl, Nat.lt_of_lt_of_le hb (Chain.top_le hlt h.2)⟩
    · obtain ⟨h1, h2⟩ := Chain.key_lt hlt h.2 a hmem
      exact ⟨hb.le.trans h1, h2⟩

/-! ## Binary search -/

/-- `l` and `r` close in on the first index where `gt` holds; the index before
    it is returned. -/
def bsearch (gt : ℕ → Bool) : ℕ → ℕ → ℕ → ℕ
  | 0, l, _ => l - 1
  | fuel + 1, l, r =>
    if l ≤ r then
      let m := l + (r - l) / 2
      if gt m then bsearch gt fuel l (m - 1) else bsearch gt fuel (m + 1) r
    else l - 1

/-- **Binary search is exact** when `gt` never falls back between `l` and `r`. -/
theorem bsearch_spec {gt : ℕ → Bool} (hmono : ∀ m m', m ≤ m' → gt m = true → gt m' = true) :
    ∀ {fuel l r : ℕ}, r + 1 - l ≤ fuel → 1 ≤ l → l ≤ r + 1 →
      (∀ m, 1 ≤ m → m < l → gt m = false) → gt (r + 1) = true →
      bsearch gt fuel l r ≤ r ∧ (∀ m, 1 ≤ m → m ≤ bsearch gt fuel l r → gt m = false) ∧
        gt (bsearch gt fuel l r + 1) = true
  | 0, l, r, hf, h1, hle, hlo, hhi => by
    obtain rfl : l = r + 1 := by omega
    rw [bsearch, Nat.add_sub_cancel]
    exact ⟨le_rfl, fun m hm hmr => hlo m hm (by omega), hhi⟩
  | fuel + 1, l, r, hf, h1, hle, hlo, hhi => by
    rw [bsearch]
    split_ifs with hlr
    · simp only
      split_ifs with hgt
      · obtain ⟨m, hm⟩ : ∃ m, l + (r - l) / 2 = m + 1 := ⟨l + (r - l) / 2 - 1, by omega⟩
        rw [hm] at hgt ⊢
        rw [Nat.add_sub_cancel]
        obtain ⟨h2, h3⟩ := bsearch_spec hmono (show m + 1 - l ≤ fuel by omega) h1 (by omega) hlo hgt
        exact ⟨by omega, h3⟩
      · refine bsearch_spec hmono (by omega) (by omega) (by omega) (fun k hk hkm => ?_) hhi
        by_contra hc
        exact hgt (hmono k _ (by omega) (by simpa using hc))
    · obtain rfl : l = r + 1 := by omega
      rw [Nat.add_sub_cancel]
      exact ⟨le_rfl, fun m hm hmr => hlo m hm (by omega), hhi⟩

/-- Is the key at index `m` above `x`?  Past the end it is. -/
def keyGt (key : α → ℕ) (as : List α) (x m : ℕ) : Bool :=
  match as[m]? with
  | some a => decide (x < key a)
  | none => true

/-- The index the search tree code looks for: the last element whose key is not
    above `x`, or the first element. -/
def lastLe (key : α → ℕ) (as : List α) (x : ℕ) : ℕ :=
  bsearch (keyGt key as x) as.length 1 (as.length - 1)

theorem keyGt_mono (hlt : ∀ a h, ok a h → key a < h) (x : ℕ) : ∀ {as : List α},
    Chain key ok hi as → ∀ m m', m ≤ m' → keyGt key as x m = true → keyGt key as x m' = true
  | [], _, m, m', _, _ => by simp [keyGt]
  | a :: as, h, 0, 0, _, hgt => hgt
  | a :: as, h, 0, m' + 1, _, hgt => by
    simp only [keyGt, List.getElem?_cons_zero, List.getElem?_cons_succ, decide_eq_true_eq] at hgt ⊢
    rcases hm : as[m']? with - | b
    · rfl
    · have hb := (Chain.key_lt hlt h.2 b (List.mem_of_getElem? hm)).1
      have ha := hlt a _ h.1
      simp only [decide_eq_true_eq]
      omega
  | a :: as, h, m + 1, 0, hle, _ => by omega
  | a :: as, h, m + 1, m' + 1, hle, hgt => by
    have := keyGt_mono hlt x h.2 m m' (by omega)
    simp only [keyGt, List.getElem?_cons_succ] at this hgt ⊢
    exact this hgt

/-- **What the search finds** in a nonempty chain: an element `a` between `left`
    and `right`, whose key is at most `x` unless it is the first, and every
    later key is above `x`. -/
theorem lastLe_spec (hlt : ∀ a h, ok a h → key a < h) {as : List α} (hc : Chain key ok hi as)
    (hne : as ≠ []) (x : ℕ) : ∃ a, as[lastLe key as x]? = some a ∧
      as = as.take (lastLe key as x) ++ a :: as.drop (lastLe key as x + 1) ∧
      (key a ≤ x ∨ as.take (lastLe key as x) = []) ∧
      ∀ b ∈ as.drop (lastLe key as x + 1), x < key b := by
  have hlen : 0 < as.length := List.length_pos_of_ne_nil hne
  have hmono := keyGt_mono hlt x hc
  obtain ⟨hle, hlo, hgt⟩ := bsearch_spec hmono (show as.length - 1 + 1 - 1 ≤ as.length by omega)
    le_rfl (by omega) (fun m h1 h2 => by omega)
    (show keyGt key as x (as.length - 1 + 1) = true by
      rw [keyGt, Nat.sub_add_cancel hlen, List.getElem?_eq_none le_rfl])
  change lastLe key as x ≤ as.length - 1 at hle
  change ∀ m, 1 ≤ m → m ≤ lastLe key as x → keyGt key as x m = false at hlo
  change keyGt key as x (lastLe key as x + 1) = true at hgt
  generalize lastLe key as x = i at *
  have hi : i < as.length := by omega
  refine ⟨as[i], List.getElem?_eq_getElem hi, ?_, ?_, ?_⟩
  · rw [List.getElem_cons_drop, List.take_append_drop]
  · rcases Nat.eq_zero_or_pos i with rfl | hpos
    · exact .inr rfl
    · have h := hlo i hpos le_rfl
      rw [keyGt, List.getElem?_eq_getElem hi] at h
      simp only [decide_eq_false_iff_not, Nat.not_lt] at h
      exact .inl h
  · intro b hb
    obtain ⟨j, hj, hget⟩ := List.mem_iff_getElem.1 hb
    rw [List.getElem_drop] at hget
    have h := hmono (i + 1) (i + 1 + j) (by omega) hgt
    rw [List.length_drop] at hj
    rw [keyGt, List.getElem?_eq_getElem (by omega)] at h
    rw [← hget]
    simpa using h

/-- The search ends at the element that has these properties. -/
theorem lastLe_eq (hlt : ∀ a h, ok a h → key a < h) {left right : List α} {a : α} {x : ℕ}
    (hc : Chain key ok hi (left ++ a :: right)) (hle : key a ≤ x ∨ left = [])
    (hgt : ∀ b ∈ right, x < key b) : lastLe key (left ++ a :: right) x = left.length := by
  obtain ⟨a', hget, -, hle', hgt'⟩ := lastLe_spec hlt hc (by simp) x
  generalize lastLe key (left ++ a :: right) x = i at *
  rcases Nat.lt_trichotomy i left.length with hi | hi | hi
  · -- the element comes after the one found, so it is the first
    have hmem : a ∈ (left ++ a :: right).drop (i + 1) := by
      rw [List.drop_append_of_le_length hi]
      exact List.mem_append.2 (.inr (List.mem_cons_self ..))
    have := hgt' a hmem
    rcases hle with h | rfl
    · omega
    · exact absurd hi (Nat.not_lt_zero _)
  · exact hi
  · have hright : a' ∈ right := by
      rw [List.getElem?_append_right hi.le] at hget
      obtain ⟨k, hk⟩ : ∃ k, i - left.length = k + 1 := ⟨i - left.length - 1, by omega⟩
      rw [hk, List.getElem?_cons_succ] at hget
      exact List.mem_of_getElem? hget
    have := hgt a' hright
    rcases hle' with h | h
    · omega
    · rw [List.take_eq_nil_iff] at h
      rcases h with rfl | h
      · exact absurd hi (Nat.not_lt_zero _)
      · simp at h

end Lib
