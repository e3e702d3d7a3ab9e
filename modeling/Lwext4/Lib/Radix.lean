/-
  Radix trees in a store of blocks of numbers, with `0` for no block.

  `node dev p root k q` is the block `k` steps below `root` that has the digits
  of `q` in base `p` on its way.  In a forest whose inner blocks are all
  different (`Proper`), storing a number in one of them changes one node
  (`node_setEntry`), and the forest stays proper when that hangs an unused
  block (`Proper.attach`).
-/
import Mathlib

namespace Lib.Radix

variable {ι : Type} {dev dev' : ℕ → ℕ → ℕ} {p : ℕ} {root : ι → ℕ} {height : ι → ℕ}
variable {r r' : ι} {k k' q q' d v : ℕ}

/-- The block `k` steps below `root`, on the way with the digits of `q`. -/
def node (dev : ℕ → ℕ → ℕ) (p root : ℕ) : (k q : ℕ) → ℕ
  | 0, _ => root
  | k + 1, q =>
    let b := node dev p root k (q / p)
    if b = 0 then 0 else dev b (q % p)

/-- Store a number in a block. -/
def setEntry (dev : ℕ → ℕ → ℕ) (b d v : ℕ) : ℕ → ℕ → ℕ :=
  Function.update dev b (Function.update (dev b) d v)

theorem setEntry_self {b : ℕ} : setEntry dev b d v b d = v := by
  rw [setEntry, Function.update_self, Function.update_self]

theorem setEntry_of_ne {b b' d' : ℕ} (h : b' = b → d' ≠ d) :
    setEntry dev b d v b' d' = dev b' d' := by
  unfold setEntry
  by_cases hb : b' = b
  · subst hb
    rw [Function.update_self, Function.update_of_ne (h rfl)]
  · rw [Function.update_of_ne hb]

/-! ## Digits -/

theorem child_div (hd : d < p) : (q * p + d) / p = q := by
  rw [Nat.mul_comm, Nat.mul_add_div (Nat.lt_of_le_of_lt (Nat.zero_le d) hd), Nat.div_eq_of_lt hd,
    Nat.add_zero]

theorem child_mod (hd : d < p) : (q * p + d) % p = d := by
  rw [Nat.mul_comm, Nat.mul_add_mod, Nat.mod_eq_of_lt hd]

theorem child_lt (hd : d < p) (hq : q < p ^ k) : q * p + d < p ^ (k + 1) := by
  have h := Nat.mul_le_mul_right p (Nat.succ_le_of_lt hq)
  rw [Nat.pow_succ]
  rw [Nat.succ_mul] at h
  omega

theorem digit_lt {l o : ℕ} (h : o < p ^ (l + 1)) : o / p ^ l < p :=
  Nat.div_lt_of_lt_mul (by rwa [← Nat.pow_succ])

/-! ## Nodes -/

theorem node_succ (root k q : ℕ) : node dev p root (k + 1) q =
    if node dev p root k (q / p) = 0 then 0 else dev (node dev p root k (q / p)) (q % p) := rfl

theorem node_child {root : ℕ} (hd : d < p) (h : node dev p root k q ≠ 0) :
    node dev p root (k + 1) (q * p + d) = dev (node dev p root k q) d := by
  rw [node_succ, child_div hd, child_mod hd, if_neg h]

/-- Below no block there is none. -/
theorem node_below_zero {root : ℕ} : ∀ {j q : ℕ}, node dev p root k (q / p ^ j) = 0 →
    node dev p root (k + j) q = 0 := by
  intro j
  induction j with
  | zero => exact fun h => by simpa using h
  | succ j ih =>
    intro q h
    have hup : node dev p root (k + j) (q / p) = 0 := by
      refine ih ?_
      rwa [Nat.div_div_eq_div_mul, ← Nat.pow_succ']
    rw [← Nat.add_assoc, node_succ, if_pos hup]

/-- A node depends on the numbers on its way. -/
theorem node_congr {root : ℕ} : ∀ {k q : ℕ},
    (∀ i < k, node dev p root i (q / p ^ (k - i)) ≠ 0 →
      dev' (node dev p root i (q / p ^ (k - i))) (q / p ^ (k - i - 1) % p) =
        dev (node dev p root i (q / p ^ (k - i))) (q / p ^ (k - i - 1) % p)) →
    node dev' p root k q = node dev p root k q := by
  intro k
  induction k with
  | zero => exact fun _ => rfl
  | succ k ih =>
    intro q h
    have hup : node dev' p root k (q / p) = node dev p root k (q / p) := by
      refine ih fun i hi => ?_
      have hdiv (n : ℕ) : q / p / p ^ n = q / p ^ (n + 1) := by
        rw [Nat.div_div_eq_div_mul, ← Nat.pow_succ']
      have hi' := h i (Nat.lt_succ_of_lt hi)
      rwa [show k + 1 - i = k - i + 1 by omega, show k - i + 1 - 1 = k - i - 1 + 1 by omega,
        ← hdiv, ← hdiv] at hi'
    have hlast := h k (Nat.lt_succ_self k)
    simp only [Nat.add_sub_cancel_left, Nat.sub_self, Nat.pow_one, Nat.pow_zero, Nat.div_one]
      at hlast
    rw [node_succ, node_succ, hup]
    split_ifs with h0
    · rfl
    · exact hlast h0

/-! ## Forests -/

/-- The inner blocks of a forest, those less than `height r` steps below the
    root `r`, are all different. -/
def Proper (dev : ℕ → ℕ → ℕ) (p : ℕ) (root height : ι → ℕ) : Prop :=
  ∀ ⦃r k q r' k' q'⦄, k < height r → q < p ^ k → k' < height r' → q' < p ^ k' →
    node dev p (root r) k q ≠ 0 → node dev p (root r) k q = node dev p (root r') k' q' →
    r = r' ∧ k = k' ∧ q = q'

/-- `v` is not an inner block of the forest. -/
def Unused (dev : ℕ → ℕ → ℕ) (p : ℕ) (root height : ι → ℕ) (v : ℕ) : Prop :=
  ∀ ⦃r k q⦄, k < height r → q < p ^ k → node dev p (root r) k q ≠ v

/-- Contents of unused blocks do not matter. -/
theorem Unused.node_update (h : Unused dev p root height v) (f : ℕ → ℕ) (hk : k ≤ height r)
    (hq : q < p ^ k) : node (Function.update dev v f) p (root r) k q = node dev p (root r) k q := by
  refine node_congr fun i hi _ => ?_
  have hqi : q / p ^ (k - i) < p ^ i :=
    Nat.div_lt_of_lt_mul (by rwa [← Nat.pow_add, Nat.sub_add_cancel hi.le])
  rw [Function.update_of_ne (h (Nat.lt_of_lt_of_le hi hk) hqi)]

/-- **Storing a number changes one node**: the node is a leaf, or an empty
    block is hung where there was none. -/
theorem node_setEntry [DecidableEq ι] (h : Proper dev p root height) (hk : k < height r) (hq : q < p ^ k)
    (hd : d < p) (hb : node dev p (root r) k q ≠ 0)
    (hv : k + 1 = height r ∨ node dev p (root r) (k + 1) (q * p + d) = 0 ∧ (∀ x, dev v x = 0) ∧
      v ≠ node dev p (root r) k q)
    (hk' : k' ≤ height r') (hq' : q' < p ^ k') :
    node (setEntry dev (node dev p (root r) k q) d v) p (root r') k' q' =
      if r' = r ∧ k' = k + 1 ∧ q' = q * p + d then v else node dev p (root r') k' q' := by
  set b := node dev p (root r) k q with hbdef
  have hpos : 0 < p := Nat.lt_of_le_of_lt (Nat.zero_le d) hd
  -- on every way that does not pass the entry nothing changes
  have hother {r' : ι} {k' q' : ℕ} (hk' : k' ≤ height r') (hq' : q' < p ^ k')
      (hne : ¬ (r' = r ∧ k < k' ∧ q' / p ^ (k' - k - 1) = q * p + d)) :
      node (setEntry dev b d v) p (root r') k' q' = node dev p (root r') k' q' := by
    refine node_congr fun i hi hi0 => setEntry_of_ne fun heq hdig => hne ?_
    have hqi : q' / p ^ (k' - i) < p ^ i :=
      Nat.div_lt_of_lt_mul (by rwa [← Nat.pow_add, Nat.sub_add_cancel hi.le])
    obtain ⟨rfl, rfl, hpre⟩ := h (Nat.lt_of_lt_of_le hi hk') hqi hk hq hi0 heq
    refine ⟨rfl, hi, ?_⟩
    have hdm := Nat.div_add_mod (q' / p ^ (k' - i - 1)) p
    rw [hdig, Nat.div_div_eq_div_mul, ← Nat.pow_succ, show (k' - i - 1).succ = k' - i by omega,
      hpre, Nat.mul_comm] at hdm
    exact hdm.symm
  have hself : node (setEntry dev b d v) p (root r) k q = b :=
    hother hk.le hq (by omega)
  have hchild : node (setEntry dev b d v) p (root r) (k + 1) (q * p + d) = v := by
    rw [node_child hd (by rwa [hself]), hself, setEntry_self]
  by_cases hhit : r' = r ∧ k < k' ∧ q' / p ^ (k' - k - 1) = q * p + d
  · obtain ⟨rfl, hkk, hpre⟩ := hhit
    rcases Nat.eq_or_lt_of_le hkk with rfl | hkk
    · rw [show k.succ - k - 1 = 0 by omega, Nat.pow_zero, Nat.div_one] at hpre
      subst hpre
      rw [hchild, if_pos ⟨rfl, rfl, rfl⟩]
    · rw [if_neg (by omega)]
      obtain ⟨hzero, hempty, hvb⟩ := hv.resolve_left (by omega)
      obtain ⟨j, rfl⟩ : ∃ j, k' = k + 1 + 1 + j := ⟨k' - (k + 1 + 1), by omega⟩
      have hpre1 : q' / p ^ (1 + j) = q * p + d := by
        rwa [show k + 1 + 1 + j - k - 1 = 1 + j by omega] at hpre
      have hold : node dev p (root r') (k + 1 + 1 + j) q' = 0 := by
        rw [Nat.add_assoc]
        exact node_below_zero (by rwa [hpre1])
      have hnew : node (setEntry dev b d v) p (root r') (k + 1 + 1) (q' / p ^ j) = 0 := by
        have hup : q' / p ^ j / p = q * p + d := by
          rwa [Nat.div_div_eq_div_mul, ← Nat.pow_succ, Nat.succ_eq_one_add]
        rw [node_succ, hup, hchild]
        split_ifs
        · rfl
        · rw [setEntry_of_ne fun heq => absurd heq hvb, hempty]
      rw [hold, node_below_zero hnew]
  · rw [hother hk' hq' hhit, if_neg]
    rintro ⟨rfl, rfl, rfl⟩
    refine hhit ⟨rfl, Nat.lt_succ_self k, ?_⟩
    rw [Nat.add_sub_cancel_left, Nat.sub_self, Nat.pow_zero, Nat.div_one]

/-- A forest that gets one inner block it did not have stays proper. -/
theorem Proper.attach [DecidableEq ι] {root' : ι → ℕ} (h : Proper dev p root height)
    (hv : Unused dev p root height v)
    (hnode : ∀ ⦃r' k' q'⦄, k' < height r' → q' < p ^ k' → node dev' p (root' r') k' q' =
      if r' = r ∧ k' = k ∧ q' = q then v else node dev p (root r') k' q') :
    Proper dev' p root' height := by
  intro r₁ k₁ q₁ r₂ k₂ q₂ hk₁ hq₁ hk₂ hq₂ hne heq
  rw [hnode hk₁ hq₁] at hne heq
  rw [hnode hk₂ hq₂] at heq
  split_ifs at hne heq with h₁ h₂ h₂
  · obtain ⟨rfl, rfl, rfl⟩ := h₁
    obtain ⟨rfl, rfl, rfl⟩ := h₂
    exact ⟨rfl, rfl, rfl⟩
  · exact absurd heq.symm (hv hk₂ hq₂)
  · exact absurd heq (hv hk₁ hq₁)
  · exact h hk₁ hq₁ hk₂ hq₂ hne heq

/-- A forest with the same inner blocks. -/
theorem Proper.congr {root' : ι → ℕ} (h : Proper dev p root height)
    (hnode : ∀ ⦃r' k' q'⦄, k' < height r' → q' < p ^ k' →
      node dev' p (root' r') k' q' = node dev p (root r') k' q') :
    Proper dev' p root' height := by
  intro r₁ k₁ q₁ r₂ k₂ q₂ hk₁ hq₁ hk₂ hq₂ hne heq
  rw [hnode hk₁ hq₁] at hne heq
  rw [hnode hk₂ hq₂] at heq
  exact h hk₁ hq₁ hk₂ hq₂ hne heq

/-- An empty root block over no root. -/
theorem node_setRoot [DecidableEq ι] (hr : root r = 0) (hempty : ∀ x, dev v x = 0) :
    node dev p (Function.update root r v r') k q =
      if r' = r ∧ k = 0 then v else node dev p (root r') k q := by
  by_cases hrr : r' = r
  · subst hrr
    rw [Function.update_self]
    cases k with
    | zero => rw [if_pos ⟨rfl, rfl⟩, node]
    | succ k =>
      have hold : node dev p (root r') (k + 1) q = 0 := by
        rw [hr, Nat.add_comm]
        exact node_below_zero (k := 1) (by rw [node_succ, node, if_pos rfl])
      have hnew : node dev p v (k + 1) q = 0 := by
        rw [Nat.add_comm]
        refine node_below_zero (k := 1) ?_
        rw [node_succ, node]
        split_ifs
        · rfl
        · exact hempty _
      rw [hold, hnew, if_neg (by omega)]
  · rw [Function.update_of_ne hrr, if_neg (fun h => hrr h.1)]

/-! ## The blocks of a tree -/

/-- The block `b` and `k` levels of blocks below it, each after those below it. -/
def subtree (dev : ℕ → ℕ → ℕ) (p : ℕ) : (k b : ℕ) → List ℕ
  | 0, b => [b]
  | k + 1, b =>
    ((List.range p).flatMap fun d => if dev b d = 0 then [] else subtree dev p k (dev b d)) ++ [b]

theorem mem_subtree (hp : 0 < p) {root x : ℕ} : ∀ {k j q : ℕ}, node dev p root j q ≠ 0 →
    (x ∈ subtree dev p k (node dev p root j q) ↔
      x ≠ 0 ∧ ∃ i ≤ k, ∃ q', q' / p ^ i = q ∧ node dev p root (j + i) q' = x) := by
  intro k
  induction k with
  | zero =>
    intro j q h0
    rw [subtree, List.mem_singleton]
    constructor
    · rintro rfl
      exact ⟨h0, 0, le_rfl, q, by rw [Nat.pow_zero, Nat.div_one], rfl⟩
    · rintro ⟨-, i, hi, q', hq, rfl⟩
      obtain rfl := Nat.le_zero.1 hi
      rw [← hq, Nat.pow_zero, Nat.div_one]
      rfl
  | succ k ih =>
    intro j q h0
    rw [subtree, List.mem_append, List.mem_flatMap, List.mem_singleton]
    constructor
    · rintro (⟨d, hd, hx⟩ | rfl)
      · rw [List.mem_range] at hd
        split_ifs at hx with hchild
        · cases hx
        · rw [← node_child hd h0] at hx hchild
          obtain ⟨hx0, i, hi, q', hq, rfl⟩ := (ih hchild).1 hx
          refine ⟨hx0, i + 1, by omega, q', ?_, by rw [Nat.add_assoc, Nat.add_comm 1]⟩
          rw [Nat.pow_succ, ← Nat.div_div_eq_div_mul, hq, child_div hd]
      · exact ⟨h0, 0, Nat.zero_le _, q, by rw [Nat.pow_zero, Nat.div_one], rfl⟩
    · rintro ⟨hx0, i, hi, q', hq, rfl⟩
      cases i with
      | zero =>
        rw [Nat.pow_zero, Nat.div_one] at hq
        exact .inr (by rw [hq]; rfl)
      | succ i =>
        rw [Nat.pow_succ, ← Nat.div_div_eq_div_mul] at hq
        have hsplit : q' / p ^ i = q * p + q' / p ^ i % p := by
          rw [← hq, Nat.mul_comm, Nat.div_add_mod]
        have hd := Nat.mod_lt (q' / p ^ i) hp
        have hup : node dev p root (j + 1) (q * p + q' / p ^ i % p) ≠ 0 := by
          intro hzero
          refine hx0 ?_
          rw [← hsplit] at hzero
          rw [Nat.add_comm i 1, ← Nat.add_assoc]
          exact node_below_zero hzero
        refine .inl ⟨q' / p ^ i % p, List.mem_range.2 hd, ?_⟩
        rw [← node_child hd h0, if_neg hup]
        exact (ih hup).2 ⟨hx0, i, by omega, q', hsplit, by rw [Nat.add_assoc, Nat.add_comm 1]⟩

/-- In a proper forest the blocks of a tree are listed once. -/
theorem Proper.subtree_nodup (h : Proper dev p root height) : ∀ {k j q : ℕ}, j + k < height r →
    q < p ^ j → node dev p (root r) j q ≠ 0 →
      (subtree dev p k (node dev p (root r) j q)).Nodup := by
  intro k
  induction k with
  | zero => exact fun _ _ _ => List.nodup_singleton _
  | succ k ih =>
    intro j q hk hq h0
    have hlt : ∀ {i q' d : ℕ}, d < p → i ≤ k → q' / p ^ i = q * p + d → q' < p ^ (j + 1 + i) := by
      intro i q' d hd hi hdiv
      rw [Nat.pow_add, ← Nat.div_lt_iff_lt_mul (Nat.pow_pos (by omega)), hdiv]
      exact child_lt hd hq
    rw [subtree, List.nodup_append]
    refine ⟨List.nodup_flatMap.2 ⟨fun d hd => ?_, ?_⟩, List.nodup_singleton _, ?_⟩
    · rw [List.mem_range] at hd
      split_ifs with hchild
      · exact List.nodup_nil
      · rw [← node_child hd h0] at hchild ⊢
        exact ih (by omega) (child_lt hd hq) hchild
    · refine List.nodup_range.pairwise_of_forall_ne fun d hd d' hd' hne => ?_
      rw [List.mem_range] at hd hd'
      intro x hx hx'
      simp only at hx hx'
      by_cases hchild : dev (node dev p (root r) j q) d = 0
      · rw [if_pos hchild] at hx
        cases hx
      by_cases hchild' : dev (node dev p (root r) j q) d' = 0
      · rw [if_pos hchild'] at hx'
        cases hx'
      · rw [if_neg hchild] at hx
        rw [if_neg hchild'] at hx'
        rw [← node_child hd h0] at hx hchild
        rw [← node_child hd' h0] at hx' hchild'
        obtain ⟨hx0, i, hi, q₁, hq₁, rfl⟩ := (mem_subtree (by omega) hchild).1 hx
        obtain ⟨-, i', hi', q₂, hq₂, heq⟩ := (mem_subtree (by omega) hchild').1 hx'
        obtain ⟨-, hii, rfl⟩ := h (by omega) (hlt hd hi hq₁) (by omega) (hlt hd' hi' hq₂) hx0
          heq.symm
        obtain rfl : i = i' := by omega
        exact hne (Nat.add_left_cancel (hq₁.symm.trans hq₂))
    · intro x hx y hy
      rw [List.mem_singleton.1 hy]
      rintro rfl
      obtain ⟨d, hd, hx⟩ := List.mem_flatMap.1 hx
      rw [List.mem_range] at hd
      split_ifs at hx with hchild
      · cases hx
      · rw [← node_child hd h0] at hx hchild
        obtain ⟨hx0, i, hi, q₁, hq₁, heq⟩ := (mem_subtree (by omega) hchild).1 hx
        obtain ⟨-, hii, -⟩ := h (by omega) (hlt hd hi hq₁) (by omega) hq (by rwa [heq]) heq
        omega

end Lib.Radix
