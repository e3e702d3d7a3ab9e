/-
  A directory block as a map from names to inodes: looking a name up, removing
  one, and the three operations together.

  The search finds the first entry with the name (`findInBlock_spec`).  A
  removed entry is merged with its predecessor, whose record length is then the
  sum of both; in a block of 64 KiB without a tail the sum of the only two
  entries does not fit into 16 bits (`removeExact_iff`).  `dirOp_exact_iff`
  says of every operation when it behaves as on a map.
-/
import Lwext4.DirInsert

namespace Lwext4

open Lib

section

variable {sb : DirSb} {csum : Mem → ℕ} {b : Mem} {o o' : ℕ} {e : DirEnt} {name : List Byte}

/-! ## Search -/

/-- The entry is in use for the name. -/
def DirEnt.IsFor (name : List Byte) (e : DirEnt) : Prop := e.inode ≠ 0 ∧ e.name = name

theorem findLoop_hit (he : EntAt sb b o o' e) (ho : o' ≤ sb.blockSize) (hfor : e.IsFor name)
    (fuel : ℕ) : dirFindLoop sb b name (fuel + 1) o = some (.ok o) := by
  obtain ⟨hlive, rfl⟩ := hfor
  have hroom := he.room hlive
  have hstop := he.stop
  rw [dirFindLoop, if_neg (by omega), if_neg (by omega), he.inode, he.nameLen hlive, he.name hlive,
    if_pos ⟨hlive, rfl, rfl⟩]

/-- An entry that is not for the name is passed, or the search ends because no
    entry with so long a name can follow. -/
theorem findLoop_miss (he : EntAt sb b o o' e) (ho : o' ≤ sb.blockSize) (hfor : ¬ e.IsFor name)
    (fuel : ℕ) :
    dirFindLoop sb b name (fuel + 1) o = dirFindLoop sb b name fuel o' ∨
      (sb.blockSize < o + name.length ∧
        dirFindLoop sb b name (fuel + 1) o = some (.error (.rc Errno.ENOENT))) := by
  have hlt := he.lt
  have hmin := he.min
  rw [dirFindLoop, if_neg (by omega)]
  by_cases hlong : sb.blockSize < o + name.length
  · exact .inr ⟨hlong, if_pos hlong⟩
  · left
    have hnot : ¬ (dirEnGetInode b o ≠ 0 ∧ dirEnGetNameLen sb b o = name.length ∧
        dirEnName b o name.length = name) := by
      rintro ⟨h1, h2, h3⟩
      rw [he.inode] at h1
      rw [he.nameLen h1] at h2
      rw [← h2, he.name h1] at h3
      exact hfor ⟨h1, h3⟩
    rw [if_neg hlong, if_neg hnot, he.len, if_neg (by omega), he.stop]

theorem findLoop_spec {a c : ℕ} {es : List DirEnt} (hp : Packed (EntAt sb b) a c es)
    (hc : c ≤ sb.blockSize) : ∀ fuel, sb.blockSize - a < fuel →
    (∃ l₁ e l₂ o o', es = l₁ ++ e :: l₂ ∧ Packed (EntAt sb b) a o l₁ ∧ EntAt sb b o o' e ∧
      Packed (EntAt sb b) o' c l₂ ∧ e.IsFor name ∧ (∀ e ∈ l₁, ¬ e.IsFor name) ∧
      dirFindLoop sb b name fuel a = some (.ok o)) ∨
    ((∀ e ∈ es, ¬ e.IsFor name) ∧
      (dirFindLoop sb b name fuel a = some (.error (.rc Errno.ENOENT)) ∨
      ∃ fuel', sb.blockSize - c < fuel' ∧
        dirFindLoop sb b name fuel a = dirFindLoop sb b name fuel' c)) := by
  induction hp with
  | nil => exact fun fuel hfuel => .inr ⟨by simp, .inr ⟨fuel, hfuel, rfl⟩⟩
  | cons he hlt hp ih =>
    rename_i a m c e es
    intro fuel hfuel
    have hmc := hp.le
    obtain ⟨fuel, rfl⟩ : ∃ f, fuel = f + 1 := ⟨fuel - 1, by omega⟩
    by_cases hfor : e.IsFor name
    · exact .inl ⟨[], e, es, a, m, rfl, .nil, he, hp, hfor, by simp,
        findLoop_hit he (by omega) hfor fuel⟩
    · rcases findLoop_miss he (by omega) hfor fuel with hrun | ⟨hlong, hrun⟩
      · rw [hrun]
        rcases ih hc fuel (by omega) with
          ⟨l₁, e', l₂, o, o', rfl, h1, h2, h3, h4, h5, h6⟩ | ⟨hnone, hend⟩
        · refine .inl ⟨e :: l₁, e', l₂, o, o', rfl, .cons he hlt h1, h2, h3, h4, fun k hk => ?_, h6⟩
          rcases List.mem_cons.1 hk with rfl | hk
          · exact hfor
          · exact h5 k hk
        · refine .inr ⟨fun e' he' => ?_, hend⟩
          rcases List.mem_cons.1 he' with rfl | he'
          · exact hfor
          · exact hnone e' he'
      · refine .inr ⟨fun e' he' hfor' => ?_, .inl hrun⟩
        rcases List.mem_cons.1 he' with rfl | he'
        · exact hfor hfor'
        · obtain ⟨i, j, hij, h1, -, h3⟩ := hp.mem he'
          have hroom := hij.room hfor'.1
          have hstop := hij.stop
          rw [hfor'.2] at hroom
          omega

/-- **The search** returns the entry of the name, or says that there is none. -/
theorem findInBlock_spec {es : List DirEnt} (hbs : dirEntryTailSize ≤ sb.blockSize)
    (hb : DirBlock sb b es) :
    (∃ l₁ e l₂ o o', es = l₁ ++ e :: l₂ ∧ Packed (EntAt sb b) 0 o l₁ ∧ EntAt sb b o o' e ∧
      Packed (EntAt sb b) o' (dirArea sb b) l₂ ∧ e.IsFor name ∧ (∀ e ∈ l₁, ¬ e.IsFor name) ∧
      ext4DirFindInBlock sb b name = some (.ok o)) ∨
    ((∀ e ∈ es, ¬ e.IsFor name) ∧
      ext4DirFindInBlock sb b name = some (.error (.rc Errno.ENOENT))) := by
  have hstop : ∀ fuel, 0 < fuel →
      dirFindLoop sb b name fuel sb.blockSize = some (.error (.rc Errno.ENOENT)) := by
    intro fuel hfuel
    obtain ⟨fuel, rfl⟩ : ∃ f, fuel = f + 1 := ⟨fuel - 1, by omega⟩
    rw [dirFindLoop, if_pos le_rfl]
  rw [ext4DirFindInBlock]
  rcases @findLoop_spec _ _ name _ _ _ hb (area_le sb b) (sb.blockSize + 1) (by omega) with
    h | ⟨hnone, hrun | ⟨fuel, hfuel, hrun⟩⟩
  · exact .inl h
  · exact .inr ⟨hnone, hrun⟩
  · refine .inr ⟨hnone, ?_⟩
    rw [hrun]
    cases htail : hasTail sb b with
    | false =>
      have harea : dirArea sb b = sb.blockSize := by rw [dirArea, htail, if_neg Bool.false_ne_true]
      rw [harea]
      exact hstop fuel (by omega)
    | true =>
      have harea : dirArea sb b = sb.blockSize - dirEntryTailSize := by
        rw [dirArea, htail, if_pos rfl]
      have hent := tailEnt_at hbs (Bool.and_eq_true_iff.1 htail).2
      have hlt : sb.blockSize - dirEntryTailSize < sb.blockSize := hent.lt
      obtain ⟨fuel, rfl⟩ : ∃ f, fuel = f + 1 := ⟨fuel - 1, by omega⟩
      rw [harea] at hfuel ⊢
      rcases @findLoop_miss _ _ _ _ _ name hent le_rfl (fun h => absurd rfl h.1) fuel with
        hrun | ⟨-, hrun⟩
      · rw [hrun]
        exact hstop fuel (by omega)
      · exact hrun

/-- `ext4_dir_find_in_block` succeeds exactly on the names in use, with the
    entry that has the inode. -/
def FindExact (sb : DirSb) (b : Mem) (es : List DirEnt) (name : List Byte) : Prop :=
  match ext4DirFindInBlock sb b name with
  | some (.ok pos) => ∃ l ∈ links es, l.name = name ∧ dirEnGetInode b pos = l.inode
  | some (.error stop) => stop = .rc Errno.ENOENT ∧ ∀ l ∈ links es, l.name ≠ name
  | none => False

theorem mem_links {l : DirLink} {es : List DirEnt} :
    l ∈ links es ↔ ∃ e ∈ es, e.inode ≠ 0 ∧ l = ⟨e.name, e.inode, e.ftype⟩ := by
  rw [links, List.mem_map]
  refine exists_congr fun e => ?_
  rw [List.mem_filter, decide_eq_true_eq, and_assoc, eq_comm (a := l)]

theorem findExact {es : List DirEnt} (hbs : dirEntryTailSize ≤ sb.blockSize)
    (hb : DirBlock sb b es) : FindExact sb b es name := by
  rw [FindExact]
  rcases @findInBlock_spec _ _ name _ hbs hb with
    ⟨l₁, e, l₂, o, o', hes, -, he, -, hfor, -, hrun⟩ | ⟨hnone, hrun⟩
  · rw [hrun]
    refine ⟨⟨e.name, e.inode, e.ftype⟩, mem_links.2 ⟨e, ?_, hfor.1, rfl⟩, hfor.2, he.inode⟩
    exact hes ▸ List.mem_append_right _ List.mem_cons_self
  · rw [hrun]
    refine ⟨rfl, fun l hl hname => ?_⟩
    obtain ⟨e, he, hlive, rfl⟩ := mem_links.1 hl
    exact hnone e he ⟨hlive, hname⟩

/-! ## Removal -/

theorem predLoop_spec {a pos : ℕ} {l₀ : List DirEnt} {p : DirEnt}
    (hp : Packed (EntAt sb b) a pos (l₀ ++ [p])) : ∀ fuel, pos - a < fuel →
    ∃ o, dirPredLoop b pos fuel a = some o ∧ Packed (EntAt sb b) a o l₀ ∧ EntAt sb b o pos p := by
  induction l₀ generalizing a with
  | nil =>
    intro fuel hfuel
    obtain ⟨fuel, rfl⟩ : ∃ f, fuel = f + 1 := ⟨fuel - 1, by omega⟩
    cases hp with
    | cons he hlt hp =>
      cases hp
      refine ⟨a, ?_, .nil, he⟩
      have hstop := he.stop
      rw [dirPredLoop, he.len, if_neg (by omega)]
  | cons e l₀ ih =>
    intro fuel hfuel
    obtain ⟨fuel, rfl⟩ : ∃ f, fuel = f + 1 := ⟨fuel - 1, by omega⟩
    cases hp with
    | cons he hlt hp =>
      rename_i m
      obtain ⟨q, hq, hpq⟩ := packed_append.1 hp
      have hlt' : m < pos := by
        have := hq.le
        cases hpq with
        | cons _ hlt hpq =>
          have := hpq.le
          omega
      obtain ⟨o, hrun, h1, h2⟩ := ih hp fuel (by omega)
      have hstop := he.stop
      refine ⟨o, ?_, .cons he hlt h1, h2⟩
      rw [dirPredLoop, he.len, if_pos (by omega), ← he.stop, hrun]

/-- `ext4_dir_remove_entry` deletes exactly the given name. -/
def RemoveExact (sb : DirSb) (csum : Mem → ℕ) (b : Mem) (es : List DirEnt) (name : List Byte) :
    Prop :=
  match ext4DirRemoveEntry sb csum b name with
  | some (.ok b') => ∃ es' k₁ k₂ l, Rewritten sb csum b b' es' ∧ l.name = name ∧
      links es = k₁ ++ l :: k₂ ∧ links es' = k₁ ++ k₂
  | some (.error stop) => stop = .rc Errno.ENOENT ∧ ∀ l ∈ links es, l.name ≠ name
  | none => False

/-- Clearing an entry in use does not make a tail. -/
theorem clear_noTail {b₁ : Mem} (hbs : dirEntryTailSize ≤ sb.blockSize) (he : EntAt sb b o o' e)
    (hlive : e.inode ≠ 0) (ho : o' ≤ sb.blockSize) (hdvd : 4 ∣ sb.blockSize - o)
    (hframe : ∀ i, o + 4 ≤ i → b₁ i = b i) (hnone : hasTail sb b = false) :
    hasTail sb b₁ = false := by
  rw [hasTail] at hnone ⊢
  by_contra hcon
  rw [Bool.not_eq_false, Bool.and_eq_true] at hcon
  obtain ⟨hfeat, htail⟩ := hcon
  have hroom := he.room hlive
  have hstop := he.stop
  have hpos := List.length_pos_iff.2 (he.ne hlive)
  by_cases h12 : o + 12 = sb.blockSize
  · -- the entry lies where the tail would be, and a tail has no name
    obtain ⟨-, hzero, -, -⟩ := getTail_iff.1 htail
    have hlen := he.nameLen hlive
    rw [dirEntryTailSize, show sb.blockSize - 12 + 6 = o + 6 by omega,
      getLE_congr fun i h1 _ => hframe i (by omega)] at hzero
    rw [dirEnGetNameLen, hzero] at hlen
    split_ifs at hlen <;> omega
  · have hsame : ext4DirGetTail sb b₁ = ext4DirGetTail sb b :=
      getTail_congr hbs fun i hi _ => hframe i (by rw [dirEntryTailSize] at hi; omega)
    rw [hfeat, ← hsame, htail] at hnone
    exact absurd hnone (by decide)

theorem links_setLen (p : DirEnt) (len : ℕ) (l : List DirEnt) :
    links ({ p with recLen := len } :: l) = links (p :: l) := by
  by_cases hlive : p.inode = 0
  · rw [links_cons_unused l hlive]
    exact links_cons_unused l hlive
  · rw [links_cons_live l hlive]
    exact links_cons_live l hlive

/-- Removing the first entry of a block. -/
theorem removeFirst_updated {l₂ : List DirEnt} (hbs : dirEntryTailSize ≤ sb.blockSize)
    (hdvd : 4 ∣ sb.blockSize) (he : EntAt sb b 0 o' e) (hlive : e.inode ≠ 0)
    (h2 : Packed (EntAt sb b) o' (dirArea sb b) l₂) :
    Rewritten sb csum b (ext4DirSetCsum sb csum (dirEnSetInode b 0 0)) ({ e with inode := 0 } :: l₂) := by
  have hlt := he.lt
  have hmin := he.min
  have hstop := he.stop
  have hle := h2.le
  have harea := area_le sb b
  refine setCsum_spec hbs (.cons he.clear hlt (h2.mono fun i j e' hi _ he' =>
    he'.congr fun k hk _ => setInode_frame (.inr (by omega)))) (fun i hi => setInode_frame (by omega)) ?_
  exact clear_noTail hbs he hlive (by omega) (by omega) fun i hi => setInode_frame (.inr hi)

/-- What clearing the entry in `[o, o')` and lengthening its predecessor in
    `[p, o)` leaves. -/
theorem merge_packed {q len : ℕ} {p : DirEnt} {l₀ l₂ : List DirEnt} {c : ℕ}
    (h0 : Packed (EntAt sb b) 0 q l₀) (hp : EntAt sb b q o p) (he : EntAt sb b o o' e)
    (h2 : Packed (EntAt sb b) o' c l₂) (hlen : len = p.recLen + e.recLen) (hlt : len < 2 ^ 16) :
    Packed (EntAt sb (dirEnSetEntryLen (dirEnSetInode b o 0) q len)) 0 c
      (l₀ ++ { p with recLen := len } :: l₂) := by
  have hq := hp.stop
  have ho := he.stop
  have hpmin := hp.min
  have hframe : ∀ i, i < q ∨ o' ≤ i →
      dirEnSetEntryLen (dirEnSetInode b o 0) q len i = b i := by
    intro i hi
    have hemin := he.min
    rw [setEntryLen_frame (by omega), setInode_frame (by omega)]
  have hp' : EntAt sb (dirEnSetInode b o 0) q o p :=
    hp.congr fun i _ hi => setInode_frame (.inl hi)
  have hset := @EntAt.setLen _ _ _ _ _ hp' len (by omega) (hlen ▸ Nat.dvd_add hp.dvd he.dvd) hlt
    fun hl => (hp.room hl).trans (by omega)
  rw [show q + len = o' by omega] at hset
  refine (h0.mono fun i j e' _ hj he' => he'.congr fun k _ hk => hframe k (.inl (by omega))).append
    (.cons hset (by omega) (h2.mono fun i j e' hi _ he' => he'.congr fun k hk _ =>
      hframe k (.inr (by omega))))

/-- Removing a later entry lengthens the one before it. -/
theorem removeLater_updated {q : ℕ} {p : DirEnt} {l₀ l₂ : List DirEnt}
    (hbs : dirEntryTailSize ≤ sb.blockSize) (hdvd : 4 ∣ sb.blockSize)
    (h0 : Packed (EntAt sb b) 0 q l₀) (hp : EntAt sb b q o p) (he : EntAt sb b o o' e)
    (hlive : e.inode ≠ 0) (h2 : Packed (EntAt sb b) o' (dirArea sb b) l₂)
    (hlt : p.recLen + e.recLen < 2 ^ 16) :
    Rewritten sb csum b
      (ext4DirSetCsum sb csum (dirEnSetEntryLen (dirEnSetInode b o 0) q (p.recLen + e.recLen)))
      (l₀ ++ { p with recLen := p.recLen + e.recLen } :: l₂) := by
  have harea := area_le sb b
  have hle := h2.le
  have hpstop := hp.stop
  have hpmin := hp.min
  have hestop := he.stop
  have hemin := he.min
  refine setCsum_spec hbs (merge_packed h0 hp he h2 rfl hlt) (fun i hi => ?_) ?_
  · rw [setEntryLen_frame (.inr (by omega)), setInode_frame (.inr (by omega))]
  · have hstep : ∀ i j e', EntAt sb b i j e' → 4 ∣ j - i := fun i j e' he' => by
      rw [he'.stop, Nat.add_sub_cancel_left]
      exact he'.dvd
    have hdvd' : 4 ∣ o - 0 := (h0.append (.single hp (by omega))).dvd hstep
    refine clear_noTail hbs he hlive (by omega) (by omega) fun i hi => ?_
    rw [setEntryLen_frame (.inr (by omega)), setInode_frame (.inr hi)]

/-- Two entries that fill 64 KiB: the length of the merged one wraps to 0. -/
theorem removeWhole_broken {len : ℕ} {m : Mem} {es : List DirEnt} (hbs : dirEntryTailSize ≤ sb.blockSize)
    (hfull : dirArea sb b = 2 ^ 16) (hlen : len = 2 ^ 16) :
    ¬ Rewritten sb csum b (ext4DirSetCsum sb csum (dirEnSetEntryLen m 0 len)) es := by
  intro hupd
  have hblock := hupd.block
  rw [DirBlock, hupd.area, hfull] at hblock
  have harea := area_le sb b
  have hzero : dirEnGetEntryLen (ext4DirSetCsum sb csum (dirEnSetEntryLen m 0 len)) 0 = 0 := by
    rw [dirEnGetEntryLen, getLE_congr fun i _ hi => setCsum_frame (by omega),
      dirEnSetEntryLen, getLE_putLE, show len = 256 ^ 2 by omega, Nat.mod_self]
  cases hblock with
  | cons he' _ _ =>
    have hmin := he'.min
    rw [← he'.len, hzero] at hmin
    omega

/-- **Removal** is exact, unless the block has 64 KiB without a tail and
    consists of two entries of which the second is removed. -/
theorem removeExact_iff {es : List DirEnt} (hbs : dirEntryTailSize ≤ sb.blockSize)
    (hmax : sb.blockSize ≤ 2 ^ 16) (hdvd : 4 ∣ sb.blockSize) (hb : DirBlock sb b es) :
    RemoveExact sb csum b es name ↔
      ¬ (dirArea sb b = 2 ^ 16 ∧ ∃ p e, es = [p, e] ∧ ¬ p.IsFor name ∧ e.IsFor name) := by
  have harea := area_le sb b
  rw [RemoveExact, ext4DirRemoveEntry]
  rcases @findInBlock_spec _ _ name _ hbs hb with
    ⟨l₁, e, l₂, o, o', rfl, h1, he, h2, hfor, hfirst, hrun⟩ | ⟨hnone, hrun⟩
  · rw [hrun]
    simp only [dirRemoveAt]
    have hle := h2.le
    rcases List.eq_nil_or_concat l₁ with rfl | ⟨l₀, p, rfl⟩
    · cases h1
      rw [if_neg (not_not.2 rfl)]
      refine iff_of_true ⟨_, [], links l₂, ⟨e.name, e.inode, e.ftype⟩,
        removeFirst_updated hbs hdvd he hfor.1 h2, hfor.2, ?_, ?_⟩ ?_
      · rw [List.nil_append, links_cons_live _ hfor.1]
        rfl
      · rw [links_cons_unused _ rfl, List.nil_append]
      · rintro ⟨-, p, e', hes, hp, -⟩
        obtain ⟨rfl, -⟩ := List.cons.inj hes
        exact hp hfor
    · rw [List.concat_eq_append] at h1 hfirst ⊢
      have h1' : Packed (EntAt sb (dirEnSetInode b o 0)) 0 o (l₀ ++ [p]) :=
        h1.mono fun i j e' _ hj he' => he'.congr fun k _ hk => setInode_frame (.inl (by omega))
      obtain ⟨q, hpred, hq, hp⟩ := predLoop_spec h1' (o + 1) (by omega)
      have hpstop := hp.stop
      have hpmin := hp.min
      have hestop := he.stop
      have hemin := he.min
      rw [if_pos (by omega), hpred]
      simp only [hp.len, he.clear.len]
      rw [if_neg (by omega)]
      have hback : ∀ i < o, b i = dirEnSetInode b o 0 i := fun i hi =>
        (setInode_frame (.inl hi)).symm
      have h0 : Packed (EntAt sb b) 0 q l₀ :=
        hq.mono fun i j e' _ hj he' => he'.congr fun k _ hk => hback k (by omega)
      have hp₀ : EntAt sb b q o p := hp.congr fun k _ hk => hback k hk
      rcases Nat.lt_or_ge (p.recLen + e.recLen) (2 ^ 16) with hlt | hge
      · refine iff_of_true ⟨_, links (l₀ ++ [p]), links l₂, ⟨e.name, e.inode, e.ftype⟩,
          removeLater_updated hbs hdvd h0 hp₀ he hfor.1 h2 hlt, hfor.2, ?_, ?_⟩ ?_
        · rw [links_append, links_cons_live _ hfor.1]
        · rw [links_append, links_setLen, ← List.singleton_append, links_append, links_append,
            List.append_assoc]
        · rintro ⟨hfull, p', e', hes, -, -⟩
          have hlen := congrArg List.length hes
          simp only [List.length_append, List.length_cons, List.length_nil] at hlen
          obtain rfl : l₀ = [] := List.length_eq_zero_iff.1 (by omega)
          obtain rfl : l₂ = [] := List.length_eq_zero_iff.1 (by omega)
          cases h0
          generalize dirArea sb b = c at h2 hfull
          cases h2
          omega
      · -- both entries together are the whole block
        have hfull : dirArea sb b = 2 ^ 16 := by omega
        obtain rfl : q = 0 := by omega
        obtain rfl := h0.eq_nil
        rw [show o' = dirArea sb b by omega] at h2
        obtain rfl := h2.eq_nil
        refine iff_of_false ?_ (not_not.2 ⟨hfull, p, e, rfl, ?_, hfor⟩)
        · rintro ⟨es', k₁, k₂, l, hupd, -⟩
          exact removeWhole_broken hbs hfull (by omega) hupd
        · exact hfirst p (List.mem_append_right _ List.mem_cons_self)
  · rw [hrun]
    refine iff_of_true ⟨rfl, fun l hl hname => ?_⟩ ?_
    · obtain ⟨e, he, hlive, rfl⟩ := mem_links.1 hl
      exact hnone e he ⟨hlive, hname⟩
    · rintro ⟨-, p, e, rfl, -, hfor⟩
      exact hnone e (by simp) hfor

/-! ## All operations -/

/-- An operation on a directory block. -/
inductive DirOp where
  | insert (child : Child) (name : List Byte)
  | find (name : List Byte)
  | remove (name : List Byte)

/-- What the callers pass: a path component and an inode of the file system. -/
def DirOp.Ok : DirOp → Prop
  | insert child name => NameOk name ∧ child.index ≠ 0 ∧ child.index < 2 ^ 32
  | find _ | remove _ => True

/-- The operation behaves as on a map from names to inodes. -/
def DirOp.Exact (sb : DirSb) (csum : Mem → ℕ) (b : Mem) (es : List DirEnt) : DirOp → Prop
  | insert child name => InsertExact sb csum b es child name
  | find name => FindExact sb b es name
  | remove name => RemoveExact sb csum b es name

/-- The two ways in which a block can break: a short name takes the tail in a
    revision without entry types, and two entries of 64 KiB are merged. -/
def DirOp.Breaks (sb : DirSb) (b : Mem) (es : List DirEnt) : DirOp → Prop
  | insert _ name => sb.oldRev = true ∧ hasTail sb b = true ∧ name.length ≤ 4 ∧
      ∀ e ∈ es, ¬ CanHold (dirRequiredLen name.length) e
  | find _ => False
  | remove name => dirArea sb b = 2 ^ 16 ∧ ∃ p e, es = [p, e] ∧ ¬ p.IsFor name ∧ e.IsFor name

/-- **A directory block refines a map** under every operation that does not
    break it. -/
theorem dirOp_exact_iff {es : List DirEnt} {op : DirOp} (hmin : 1024 ≤ sb.blockSize)
    (hmax : sb.blockSize ≤ 2 ^ 16) (hdvd : 4 ∣ sb.blockSize) (hb : DirBlock sb b es)
    (hop : op.Ok) : op.Exact sb csum b es ↔ ¬ op.Breaks sb b es := by
  have hbs : dirEntryTailSize ≤ sb.blockSize := Nat.le_trans (by decide) hmin
  cases op with
  | insert child name => exact insertExact_iff hbs hdvd hb hop.1 hop.2.1 hop.2.2
  | find name => exact iff_of_true (findExact hbs hb) id
  | remove name => exact removeExact_iff hbs hmax hdvd hb

end

/-- Blocks of 1 KiB without checksums. -/
def dirSb1k : DirSb := ⟨1024, false, false⟩

/-- Blocks of 64 KiB without checksums. -/
def dirSb64k : DirSb := ⟨65536, false, false⟩

/-- Adding the name `b` to a block that holds the name `a`. -/
theorem insert_exact_1k :
    (DirOp.insert ⟨13, 0x8000⟩ [0x62]).Exact dirSb1k (fun _ => 0)
      (dirEnWrite dirSb1k (fun _ => 0) 0 1024 ⟨12, 0x4000⟩ [0x61])
      [newEnt dirSb1k 1024 ⟨12, 0x4000⟩ [0x61]] := by
  have hname (c : Byte) (hc : c ≠ 0) : NameOk [c] := ⟨by simp, by simp, by simpa using hc⟩
  have hent := @writeEntry_spec dirSb1k (fun _ => 0) 0 1024 ⟨12, 0x4000⟩ _ (hname 0x61 (by decide))
    (by decide) (by decide) (by decide) (by decide)
  exact (@dirOp_exact_iff _ _ _ _ (.insert ⟨13, 0x8000⟩ [0x62]) (by decide) (by decide) (by decide)
    (.single hent (by decide))
    ⟨hname 0x62 (by decide), by decide, by decide⟩).2 fun h => absurd h.1 (by decide)

/-- A block of 64 KiB with the names `a` and `b` of 32 KiB each. -/
def twoNames : Mem :=
  dirEnWrite dirSb64k (dirEnWrite dirSb64k (fun _ => 0) 0 32768 ⟨12, 0x8000⟩ [0x61])
    32768 32768 ⟨13, 0x8000⟩ [0x62]

/-- Removing `b` makes the record length of `a` 65536, which is stored as 0. -/
theorem remove_breaks_64k :
    ∃ es, DirBlock dirSb64k twoNames es ∧
      ¬ (DirOp.remove [0x62]).Exact dirSb64k (fun _ => 0) twoNames es := by
  have hname (c : Byte) (hc : c ≠ 0) : NameOk [c] := ⟨by simp, by simp, by simpa using hc⟩
  have ha := @writeEntry_spec dirSb64k (fun _ => 0) 0 32768 ⟨12, 0x8000⟩ _ (hname 0x61 (by decide))
    (by decide) (by decide) (by decide) (by decide)
  have hb := @writeEntry_spec dirSb64k (dirEnWrite dirSb64k (fun _ => 0) 0 32768 ⟨12, 0x8000⟩
    [0x61]) 32768 32768 ⟨13, 0x8000⟩ _ (hname 0x62 (by decide)) (by decide) (by decide)
    (by decide) (by decide)
  have ha' := @EntAt.congr _ _ twoNames _ _ _ ha fun i _ hi => writeEntry_frame (.inl hi)
  have hblock : DirBlock dirSb64k twoNames [_, _] := .cons ha' (by decide) (.single hb (by decide))
  refine ⟨_, hblock, fun h => (@removeExact_iff _ (fun _ => 0) _ ([0x62]) _ (by decide) (by decide)
    (by decide) hblock).1 h ?_⟩
  refine ⟨rfl, _, _, rfl, ?_, ?_⟩
  · rintro ⟨-, h⟩
    exact absurd h (by decide)
  · exact ⟨by decide, rfl⟩

end Lwext4
