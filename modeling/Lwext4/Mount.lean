/-
  The mount table of ext4.c.  ext4_mount and ext4_umount fill and clear its
  slots, and ext4_get_mount routes a path to one of them.  The API names mount
  points as "/", "/name/" and "/name"; a name with a slash at its end is
  compared with the path as a whole, so the boundary it looks for is the byte
  behind that slash.
-/
import Lwext4.Vfs

namespace Lwext4.Vfs

open Lib

/-- `CONFIG_EXT4_MAX_MP_NAME` -/
def maxMpName : ℕ := 32

/-- `CONFIG_EXT4_MOUNTPOINTS_COUNT` -/
def mountpointsCount : ℕ := 20

/-- A slot of `s_mp`.  Its name is a C string in an array of
    `CONFIG_EXT4_MAX_MP_NAME + 1` bytes. -/
structure MountSlot where
  mounted : Bool
  name : List Byte
  fits : name.length ≤ maxMpName
  deriving DecidableEq, Repr

abbrev MountTable := List MountSlot

/-- A slot as `memset` leaves it. -/
def MountSlot.clear : MountSlot := ⟨false, [], Nat.zero_le _⟩

/-- `s_mp` before the first mount. -/
def MountTable.init : MountTable := List.replicate mountpointsCount MountSlot.clear

/-! ## Mounting -/

/-- The table's part of `ext4_mount`; `init` is what setting up the block
    device, the file system and the cache returns.  When that fails the name
    stays in the slot. -/
def ext4Mount (tbl : MountTable) (mountPoint : List Byte) (init : Except Errno Unit) :
    Except Errno Unit × MountTable :=
  if h : maxMpName < mountPoint.length then
    (.error .EINVAL, tbl)
  else
    match tbl.findIdx? fun s => !s.mounted with
    | none => (.error .ENOMEM, tbl)
    | some i =>
      match init with
      | .error e => (.error e, tbl.set i ⟨false, mountPoint, Nat.not_lt.1 h⟩)
      | .ok _ => (.ok (), tbl.set i ⟨true, mountPoint, Nat.not_lt.1 h⟩)

/-- The table's part of `ext4_umount`: the slot is cleared whatever closing the
    file system returns. -/
def ext4Umount (tbl : MountTable) (mountPoint : List Byte) (fini : Except Errno Unit) :
    Except Errno Unit × MountTable :=
  match tbl.findIdx? fun s => s.name = mountPoint with
  | none => (.error .ENODEV, tbl)
  | some i =>
    if (tbl.getD i MountSlot.clear).mounted then (fini, tbl.set i MountSlot.clear)
    else (.error .ENODEV, tbl)

/-- A call that changes the table, with the result of the work behind it. -/
inductive MountOp where
  | mount (mountPoint : List Byte) (init : Except Errno Unit)
  | umount (mountPoint : List Byte) (fini : Except Errno Unit)

def MountTable.step (tbl : MountTable) : MountOp → MountTable
  | .mount name init => (ext4Mount tbl name init).2
  | .umount name fini => (ext4Umount tbl name fini).2

/-- A documented mount name begins with a slash. -/
def Documented (name : List Byte) : Prop := name.head? = some slash

/-- The mounted names are documented ones. -/
def MountTable.Ok (tbl : MountTable) : Prop := ∀ s ∈ tbl, s.mounted = true → Documented s.name

/-- The names a run mounts are documented ones. -/
def MountOp.Ok : MountOp → Prop
  | .mount name _ => Documented name
  | .umount _ _ => True

theorem MountTable.Ok.set {tbl : MountTable} (h : tbl.Ok) (i : ℕ) {s : MountSlot}
    (hs : s.mounted = true → Documented s.name) : MountTable.Ok (tbl.set i s) := by
  intro t ht hm
  rcases List.mem_or_eq_of_mem_set ht with ht | rfl
  · exact h t ht hm
  · exact hs hm

theorem MountTable.Ok.step {tbl : MountTable} (h : tbl.Ok) {op : MountOp} (hop : op.Ok) :
    (tbl.step op).Ok := by
  cases op with
  | mount name init =>
    simp only [MountTable.step, ext4Mount]
    split_ifs with hlen
    · exact h
    · cases tbl.findIdx? fun s => !s.mounted with
      | none => exact h
      | some i =>
        cases init with
        | error e => exact h.set i nofun
        | ok u => exact h.set i fun _ => hop
  | umount name fini =>
    simp only [MountTable.step, ext4Umount]
    cases tbl.findIdx? fun s => s.name = name with
    | none => exact h
    | some i =>
      simp only
      split_ifs
      · exact h.set i nofun
      · exact h

/-- Every table a run of mounts and unmounts reaches holds documented names. -/
theorem MountTable.Ok.run {tbl : MountTable} (h : tbl.Ok) {ops : List MountOp}
    (hops : ∀ op ∈ ops, op.Ok) : (ops.foldl MountTable.step tbl).Ok := by
  induction ops generalizing tbl with
  | nil => exact h
  | cons op ops ih =>
    exact ih (h.step (hops op List.mem_cons_self)) fun o ho => hops o (List.mem_cons_of_mem _ ho)

theorem MountTable.Ok.init : MountTable.init.Ok := by
  intro s hs hm
  rw [List.eq_of_mem_replicate hs] at hm
  exact absurd hm nofun

/-! ## ext4_get_mount -/

/-- `strncmp` finds no difference within the first `n` bytes. -/
def strncmpZero : ℕ → List Byte → List Byte → Bool
  | 0, _, _ => true
  | _ + 1, [], [] => true
  | n + 1, a :: as, b :: bs => a == b && strncmpZero n as bs
  | _ + 1, _, _ => false

/-- The loop of `ext4_get_mount` from slot `i` on, with the best slot so far
    and the length of its name. -/
def getMountLoop (path : List Byte) : MountTable → ℕ → Option ℕ → ℕ → Option ℕ
  | [], _, mp, _ => mp
  | s :: rest, i, mp, prefixlen =>
    if s.mounted = false then
      getMountLoop path rest (i + 1) mp prefixlen
    else if s.name.length < prefixlen ∨ strncmpZero s.name.length s.name path = false then
      getMountLoop path rest (i + 1) mp prefixlen
    else if 1 < s.name.length ∧ s.name.length < path.length ∧
        path[s.name.length]? ≠ some slash then
      getMountLoop path rest (i + 1) mp prefixlen
    else
      getMountLoop path rest (i + 1) (some i) s.name.length

def ext4GetMount (tbl : MountTable) (path : List Byte) : Option ℕ :=
  getMountLoop path tbl 0 none 0

theorem strncmpZero_iff {name path : List Byte} :
    strncmpZero name.length name path = true ↔ name <+: path := by
  induction name generalizing path with
  | nil => simp [strncmpZero]
  | cons a as ih =>
    cases path with
    | nil => simp [strncmpZero]
    | cons b bs => simp [strncmpZero, ih]

/-- The test of one slot against the path. -/
def Seen (name path : List Byte) : Prop :=
  name <+: path ∧ (1 < name.length → name.length < path.length → path[name.length]? = some slash)

/-- Slot `k` is mounted and its name, of length `len`, is seen. -/
def MountTable.Fits (tbl : MountTable) (path : List Byte) (k len : ℕ) : Prop :=
  ∃ s, tbl[k]? = some s ∧ s.mounted = true ∧ Seen s.name path ∧ s.name.length = len

/-- What the loop has settled about the first `n` slots: `mp` is one of those
    that fit and have the longest names. -/
structure Routed (tbl : MountTable) (path : List Byte) (n : ℕ) (mp : Option ℕ) (len : ℕ) :
    Prop where
  fits : ∀ k, mp = some k → tbl.Fits path k len
  longest : ∀ j < n, ∀ l, tbl.Fits path j l → mp.isSome = true ∧ l ≤ len
  start : mp = none → len = 0

theorem Routed.skip {tbl : MountTable} {path : List Byte} {n len : ℕ} {mp : Option ℕ}
    (h : Routed tbl path n mp len) (hn : ∀ l, tbl.Fits path n l → mp.isSome = true ∧ l ≤ len) :
    Routed tbl path (n + 1) mp len where
  fits := h.fits
  longest := by
    intro j hj l hl
    rcases Nat.lt_succ_iff_lt_or_eq.1 hj with hj | rfl
    · exact h.longest j hj l hl
    · exact hn l hl
  start := h.start

theorem Routed.take {tbl : MountTable} {path : List Byte} {n len : ℕ} {mp : Option ℕ}
    (h : Routed tbl path n mp len) {l : ℕ} (hl : tbl.Fits path n l) (hle : len ≤ l) :
    Routed tbl path (n + 1) (some n) l where
  fits := by
    rintro k ⟨⟩
    exact hl
  longest := by
    intro j hj l' hl'
    refine ⟨rfl, ?_⟩
    rcases Nat.lt_succ_iff_lt_or_eq.1 hj with hj | rfl
    · exact (h.longest j hj l' hl').2.trans hle
    · obtain ⟨s, hs, -, -, rfl⟩ := hl
      obtain ⟨s', hs', -, -, rfl⟩ := hl'
      rw [Option.some.inj (hs.symm.trans hs')]
  start := nofun

theorem getMountLoop_routed {path : List Byte} {tbl : MountTable} :
    ∀ {rest : MountTable} {i : ℕ} {mp : Option ℕ} {len : ℕ}, tbl.drop i = rest →
      Routed tbl path i mp len →
      ∃ len', Routed tbl path tbl.length (getMountLoop path rest i mp len) len' := by
  intro rest
  induction rest with
  | nil =>
    intro i mp len hdrop h
    refine ⟨len, h.fits, fun j hj => h.longest j (hj.trans_le ?_), h.start⟩
    exact List.drop_eq_nil_iff.1 hdrop
  | cons s rest ih =>
    intro i mp len hdrop h
    have hs : tbl[i]? = some s := by
      have := congrArg List.head? hdrop
      rwa [List.head?_drop] at this
    have hrest : tbl.drop (i + 1) = rest := by
      rw [← List.drop_drop, hdrop]
      rfl
    have hfit {l : ℕ} (hl : tbl.Fits path i l) :
        s.mounted = true ∧ Seen s.name path ∧ s.name.length = l := by
      obtain ⟨t, ht, hrest⟩ := hl
      rwa [Option.some.inj (hs.symm.trans ht)]
    rw [getMountLoop]
    split_ifs with hm hcmp hsep
    · refine ih hrest (h.skip fun l hl => ?_)
      rw [(hfit hl).1] at hm
      exact absurd hm nofun
    · refine ih hrest (h.skip fun l hl => ?_)
      obtain ⟨-, hseen, rfl⟩ := hfit hl
      rcases hcmp with hlt | hne
      · refine ⟨?_, hlt.le⟩
        cases mp with
        | none => exact absurd hlt (by rw [h.start rfl]; exact Nat.not_lt_zero _)
        | some k => rfl
      · rw [strncmpZero_iff.2 hseen.1] at hne
        exact absurd hne nofun
    · refine ih hrest (h.skip fun l hl => ?_)
      exact absurd ((hfit hl).2.1.2 hsep.1 hsep.2.1) hsep.2.2
    · have hpre : s.name <+: path := by
        rw [not_or, Bool.not_eq_false] at hcmp
        exact strncmpZero_iff.1 hcmp.2
      refine ih hrest (h.take ⟨s, hs, Bool.of_not_eq_false hm, ⟨hpre, fun h1 h2 => ?_⟩, rfl⟩ ?_)
      · by_contra hne
        exact hsep ⟨h1, h2, hne⟩
      · exact Nat.not_lt.1 fun hlt => hcmp (.inl hlt)

/-- What the routine returns, in the terms of its own test. -/
theorem ext4GetMount_routed (tbl : MountTable) (path : List Byte) :
    ∃ len, Routed tbl path tbl.length (ext4GetMount tbl path) len :=
  getMountLoop_routed List.drop_zero ⟨nofun, nofun, fun _ => rfl⟩

theorem seen_iff_mountFits {name path : List Byte} :
    Seen name path ↔ mountFits name path = true := by
  simp only [Seen, mountFits, Bool.and_eq_true, List.isPrefixOf_iff_prefix, Bool.not_eq_true',
    Bool.and_eq_false_iff, decide_eq_false_iff_not, bne_eq_false_iff_eq, and_congr_right_iff]
  intro _
  constructor
  · intro h
    by_cases h1 : 1 < name.length
    · by_cases h2 : name.length < path.length
      · exact .inr (h h1 h2)
      · exact .inl (.inr h2)
    · exact .inl (.inl h1)
  · rintro ((h | h) | h) h1 h2
    · exact absurd h1 h
    · exact absurd h2 h
    · exact h

/-- Over a table whose slots are all mounted this is the name space's
    `getMount` of their names. -/
theorem getMountLoop_foldl {path : List Byte} {rest : MountTable}
    (hm : ∀ s ∈ rest, s.mounted = true) (i : ℕ) (best : Option (Name × ℕ)) :
    getMountLoop path rest i (best.map Prod.snd) (best.elim 0 fun b => b.1.length) =
      (((rest.map MountSlot.name).zipIdx i).foldl (fun best m =>
        match best with
        | none => if mountFits m.1 path then some m else none
        | some b => if b.1.length ≤ m.1.length && mountFits m.1 path then some m else best)
        best).map Prod.snd := by
  induction rest generalizing i best with
  | nil => rfl
  | cons s rest ih =>
    have hms := hm s List.mem_cons_self
    have ih := ih (fun t ht => hm t (List.mem_cons_of_mem _ ht)) (i + 1)
    have hfits : mountFits s.name path = true ↔ strncmpZero s.name.length s.name path = true ∧
        ¬ (1 < s.name.length ∧ s.name.length < path.length ∧
          path[s.name.length]? ≠ some slash) := by
      rw [← seen_iff_mountFits, strncmpZero_iff, Seen]
      refine and_congr_right fun _ => ?_
      rw [not_and, not_and]
      exact forall_congr' fun _ => forall_congr' fun _ => not_not.symm
    rw [getMountLoop, if_neg (by rw [hms]; nofun), List.map_cons, List.zipIdx_cons, List.foldl_cons]
    by_cases hf : mountFits s.name path = true
    · obtain ⟨hcmp, hsep⟩ := hfits.1 hf
      cases best with
      | none =>
        rw [if_neg (by simp [hcmp]), if_neg hsep, if_pos hf]
        exact ih (some (s.name, i))
      | some b =>
        by_cases hlen : b.1.length ≤ s.name.length
        · have hpos : (b.1.length ≤ s.name.length && mountFits s.name path) = true := by
            simp [hlen, hf]
          simp only [hpos, if_true]
          rw [if_neg (by simp [hcmp, hlen]), if_neg hsep]
          exact ih (some (s.name, i))
        · have hneg : (b.1.length ≤ s.name.length && mountFits s.name path) = false := by
            simp [hlen]
          simp only [hneg, Bool.false_eq_true, if_false]
          rw [if_pos (.inl (Nat.not_le.1 hlen))]
          exact ih (some b)
    · have hskip : ∀ {α : Type} (a b : α), (if s.name.length < best.elim 0 (fun b => b.1.length) ∨
          strncmpZero s.name.length s.name path = false then a
          else if 1 < s.name.length ∧ s.name.length < path.length ∧
            path[s.name.length]? ≠ some slash then a else b) = a := by
        intro α a b
        split_ifs with h1 h2
        · rfl
        · rfl
        · rw [not_or, Bool.not_eq_false] at h1
          exact absurd (hfits.2 ⟨h1.2, h2⟩) hf
      rw [hskip, ih best]
      cases best with
      | none => rw [if_neg hf]
      | some b =>
        have hneg : (b.1.length ≤ s.name.length && mountFits s.name path) = false := by simp [hf]
        simp only [hneg, Bool.false_eq_true, if_false]

/-- `getMount` of the name space is the routing over its mounted names. -/
theorem ext4GetMount_eq_getMount {tbl : MountTable} {path : List Byte}
    (hm : ∀ s ∈ tbl, s.mounted = true) :
    ext4GetMount tbl path = getMount (tbl.map MountSlot.name) path :=
  getMountLoop_foldl hm 0 none

/-! ## The longest name that is a component prefix -/

/-- A mount name without the slash it may end with. -/
def baseName (name : List Byte) : List Byte :=
  if name.getLast? = some slash then name.dropLast else name

/-- The path is absolute and lies at or below the mount point. -/
def CompPrefix (name path : List Byte) : Prop :=
  path.head? = some slash ∧
    ∃ rest, path = baseName name ++ rest ∧ (rest = [] ∨ rest.head? = some slash)

/-- The path is routed to a mounted file system with the longest name that is a
    component prefix of it, and to none only when there is no such name. -/
def RoutesLongest (tbl : MountTable) (path : List Byte) : Prop :=
  match ext4GetMount tbl path with
  | none => ∀ t ∈ tbl, t.mounted = true → ¬ CompPrefix t.name path
  | some k => ∃ s, tbl[k]? = some s ∧ s.mounted = true ∧ CompPrefix s.name path ∧
      ∀ t ∈ tbl, t.mounted = true → CompPrefix t.name path → t.name.length ≤ s.name.length

/-- A name with a slash at its end is not seen from the mount point itself
    written without it, nor from anything in it. -/
def Blind (name path : List Byte) : Prop :=
  1 < name.length ∧ ∃ base, name = base ++ [slash] ∧
    (path = base ∨ ∃ c r, path = name ++ c :: r ∧ c ≠ slash)

theorem baseName_slash (base : List Byte) : baseName (base ++ [slash]) = base := by
  simp [baseName]

theorem baseName_of_ne {name : List Byte} (h : name.getLast? ≠ some slash) :
    baseName name = name := if_neg h

theorem getLast_slash {name : List Byte} (h : name.getLast? = some slash) :
    ∃ base, name = base ++ [slash] := List.getLast?_eq_some_iff.1 h

theorem head_append {a b : List Byte} {c : Byte} (h : a.head? = some c) :
    (a ++ b).head? = some c := by
  rw [List.head?_append, h]
  rfl

/-- The byte behind the name is where the path goes on. -/
theorem seen_append {name r : List Byte} :
    Seen name (name ++ r) ↔ (1 < name.length → r = [] ∨ r.head? = some slash) := by
  simp only [Seen, List.prefix_append, true_and, List.length_append,
    List.getElem?_append_right le_rfl, Nat.sub_self]
  cases r with
  | nil => simp
  | cons c r => simp

theorem not_seen_of_blind {name path : List Byte} (h : Blind name path) : ¬ Seen name path := by
  obtain ⟨hlen, base, rfl, rfl | ⟨c, r, rfl, hc⟩⟩ := h
  · intro hs
    have := hs.1.length_le
    rw [List.length_append, List.length_singleton] at this
    omega
  · intro hs
    rcases seen_append.1 hs hlen with h | h
    · exact nomatch h
    · exact hc (Option.some.inj h)

theorem CompPrefix.of_seen {name path : List Byte} (hd : Documented name) (h : Seen name path) :
    CompPrefix name path := by
  obtain ⟨r, rfl⟩ := h.1
  have hne : name ≠ [] := by
    rintro rfl
    exact nomatch hd
  refine ⟨head_append hd, ?_⟩
  by_cases hl : name.getLast? = some slash
  · obtain ⟨base, rfl⟩ := getLast_slash hl
    rw [baseName_slash]
    exact ⟨slash :: r, by simp, .inr rfl⟩
  · rw [baseName_of_ne hl]
    refine ⟨r, rfl, ?_⟩
    rcases Nat.lt_or_ge 1 name.length with h1 | h1
    · exact seen_append.1 h h1
    · obtain ⟨c, rfl⟩ : ∃ c, name = [c] := List.length_eq_one_iff.1
        (Nat.le_antisymm h1 (List.length_pos_iff.2 hne))
      exact absurd hd hl

/-- A component prefix is seen, or it is one of the blind names. -/
theorem CompPrefix.seen_or_blind {name path : List Byte} (hd : Documented name)
    (h : CompPrefix name path) : Seen name path ∨ Blind name path := by
  obtain ⟨hhead, rest, rfl, hrest⟩ := h
  by_cases hl : name.getLast? = some slash
  · obtain ⟨base, rfl⟩ := getLast_slash hl
    rw [baseName_slash] at hhead ⊢
    by_cases hlen : 1 < (base ++ [slash]).length
    · rcases hrest with rfl | hr
      · exact .inr ⟨hlen, base, rfl, .inl (List.append_nil _)⟩
      · obtain ⟨r, rfl⟩ : ∃ r, rest = slash :: r := by
          cases rest with
          | nil => exact nomatch hr
          | cons c r => exact ⟨r, by rw [Option.some.inj hr]⟩
        have happ : base ++ slash :: r = (base ++ [slash]) ++ r := by simp
        cases r with
        | nil => exact .inl ⟨List.prefix_rfl, fun _ h => absurd h (Nat.lt_irrefl _)⟩
        | cons c r =>
          by_cases hc : c = slash
          · exact .inl (by rw [happ, hc]; exact seen_append.2 fun _ => .inr rfl)
          · exact .inr ⟨hlen, base, rfl, .inr ⟨c, r, happ, hc⟩⟩
    · obtain rfl : base = [] := by
        rw [List.length_append, List.length_singleton] at hlen
        exact List.length_eq_zero_iff.1 (by omega)
      obtain ⟨r, rfl⟩ : ∃ r, rest = slash :: r := by
        cases rest with
        | nil => exact nomatch hhead
        | cons c r => exact ⟨r, by rw [Option.some.inj hhead]⟩
      exact .inl (seen_append.2 fun h1 => absurd h1 hlen)
  · rw [baseName_of_ne hl]
    exact .inl (seen_append.2 fun _ => hrest)

theorem CompPrefix.seen_iff {name path : List Byte} (hd : Documented name)
    (h : CompPrefix name path) : Seen name path ↔ ¬ Blind name path :=
  ⟨fun hs hb => not_seen_of_blind hb hs, fun hb => (h.seen_or_blind hd).resolve_right hb⟩

theorem Blind.compPrefix {name path : List Byte} (hd : Documented name) (h : Blind name path) :
    CompPrefix name path := by
  obtain ⟨hlen, base, rfl, hpath⟩ := h
  have hne : base ≠ [] := by
    rintro rfl
    exact absurd hlen (Nat.lt_irrefl 1)
  have hbase : base.head? = some slash := by
    cases base with
    | nil => exact absurd rfl hne
    | cons c base => exact hd
  rw [CompPrefix, baseName_slash]
  rcases hpath with rfl | ⟨c, r, rfl, -⟩
  · exact ⟨hbase, [], (List.append_nil _).symm, .inl rfl⟩
  · refine ⟨?_, slash :: c :: r, by simp, .inr rfl⟩
    rw [List.append_assoc]
    exact head_append hbase

variable {tbl : MountTable} {path : List Byte}

theorem mem_fits (hok : tbl.Ok) {t : MountSlot} (ht : t ∈ tbl) (hm : t.mounted = true)
    (hc : CompPrefix t.name path) (hb : ¬ Blind t.name path) :
    ∃ j < tbl.length, tbl.Fits path j t.name.length := by
  obtain ⟨j, hj, rfl⟩ := List.getElem_of_mem ht
  exact ⟨j, hj, _, List.getElem?_eq_getElem hj, hm, (hc.seen_iff (hok _ ht hm)).2 hb, rfl⟩

/-- The slot returned is always one the path lies at or below: "/name2/x" never
    goes to "/name". -/
theorem ext4GetMount_compPrefix (hok : tbl.Ok) {k : ℕ} (h : ext4GetMount tbl path = some k) :
    ∃ s, tbl[k]? = some s ∧ s.mounted = true ∧ CompPrefix s.name path ∧
      ¬ Blind s.name path := by
  obtain ⟨len, hr⟩ := ext4GetMount_routed tbl path
  obtain ⟨s, hs, hm, hseen, -⟩ := hr.fits k h
  exact ⟨s, hs, hm, .of_seen (hok s (List.mem_of_getElem? hs) hm) hseen,
    fun hb => not_seen_of_blind hb hseen⟩

/-- Routing finds the longest component prefix exactly when every blind name is
    outdone by one that is seen. -/
theorem routesLongest_iff (hok : tbl.Ok) :
    RoutesLongest tbl path ↔
      ∀ t ∈ tbl, t.mounted = true → Blind t.name path →
        ∃ u ∈ tbl, u.mounted = true ∧ CompPrefix u.name path ∧ ¬ Blind u.name path ∧
          t.name.length ≤ u.name.length := by
  obtain ⟨len, hr⟩ := ext4GetMount_routed tbl path
  rw [RoutesLongest]
  cases hget : ext4GetMount tbl path with
  | none =>
    rw [hget] at hr
    constructor
    · intro h t ht hm hb
      exact absurd (hb.compPrefix (hok t ht hm)) (h t ht hm)
    · intro h t ht hm hc
      have hblind : ∀ u ∈ tbl, u.mounted = true → CompPrefix u.name path → Blind u.name path := by
        intro u hu hmu hcu
        by_contra hb
        obtain ⟨j, hj, hfit⟩ := mem_fits hok hu hmu hcu hb
        exact nomatch (hr.longest j hj _ hfit).1
      obtain ⟨u, hu, hmu, hcu, hbu, -⟩ := h t ht hm (hblind t ht hm hc)
      exact hbu (hblind u hu hmu hcu)
  | some k =>
    obtain ⟨s, hs, hms, hcs, hbs⟩ := ext4GetMount_compPrefix hok hget
    have hmem := List.mem_of_getElem? hs
    constructor
    · rintro ⟨s', hs', -, -, hlong⟩ t ht hm hb
      rw [Option.some.inj (hs'.symm.trans hs)] at hlong
      exact ⟨s, hmem, hms, hcs, hbs, hlong t ht hm (hb.compPrefix (hok t ht hm))⟩
    · intro h
      refine ⟨s, hs, hms, hcs, fun t ht hm hc => ?_⟩
      rw [hget] at hr
      obtain ⟨s', hs', -, -, hlen⟩ := hr.fits k rfl
      rw [Option.some.inj (hs'.symm.trans hs)] at hlen
      have hle : ∀ u ∈ tbl, u.mounted = true → CompPrefix u.name path → ¬ Blind u.name path →
          u.name.length ≤ s.name.length := by
        intro u hu hmu hcu hbu
        obtain ⟨j, hj, hfit⟩ := mem_fits hok hu hmu hcu hbu
        exact (hr.longest j hj _ hfit).2.trans_eq hlen.symm
      by_cases hb : Blind t.name path
      · obtain ⟨u, hu, hmu, hcu, hbu, hlt⟩ := h t ht hm hb
        exact hlt.trans (hle u hu hmu hcu hbu)
      · exact hle t ht hm hc hb

/-- The names "/" and "/mnt" on the first two slots. -/
def rootAndMnt : MountTable :=
  [MountOp.mount [47] (.ok ()), .mount [47, 109, 110, 116] (.ok ())].foldl MountTable.step .init

theorem rootAndMnt_ok : rootAndMnt.Ok := by
  refine MountTable.Ok.init.run fun op hop => ?_
  rcases List.mem_cons.1 hop with rfl | hop
  · rfl
  · rw [List.mem_singleton.1 hop]
    rfl

/-- "/mnt/x" goes to the second slot. -/
theorem routesLongest_mnt :
    ext4GetMount rootAndMnt [47, 109, 110, 116, 47, 120] = some 1 ∧
      RoutesLongest rootAndMnt [47, 109, 110, 116, 47, 120] := by
  refine ⟨by decide, (routesLongest_iff rootAndMnt_ok).2 fun t ht hm hb => ?_⟩
  have hnames : ∀ s ∈ rootAndMnt, s.mounted = true → s.name.getLast? = some slash →
      s.name.length ≤ 1 := by decide
  obtain ⟨hlen, base, hname, -⟩ := hb
  exact absurd (hnames t ht hm (List.getLast?_eq_some_iff.2 ⟨base, hname⟩)) (Nat.not_le.2 hlen)

/-- Mounted as "/mnt/", a file system is not found from "/mnt/x". -/
theorem mnt_slash_unrouted : ∃ tbl path, MountTable.Ok tbl ∧ ¬ RoutesLongest tbl path := by
  refine ⟨MountTable.step .init (.mount [47, 109, 110, 116, 47] (.ok ())),
    [47, 109, 110, 116, 47, 120], MountTable.Ok.init.step rfl, fun h => ?_⟩
  have hnone : ext4GetMount (MountTable.step .init (.mount [47, 109, 110, 116, 47] (.ok ())))
      [47, 109, 110, 116, 47, 120] = none := by decide
  rw [RoutesLongest, hnone] at h
  exact h ⟨true, [47, 109, 110, 116, 47], by decide⟩ (by decide) rfl
    ⟨rfl, [47, 120], rfl, .inr rfl⟩

end Lwext4.Vfs
