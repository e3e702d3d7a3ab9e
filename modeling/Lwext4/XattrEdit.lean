/-
  Editing an area of attributes that its check accepts.

  `EditOk` is what `ext4_xattr_set_entry` promises of one area: the result is
  accepted again, the other values stay what they are, the entry has the value
  or is gone, and it is refused only where it does not fit.  Whether it keeps
  the promise for all bytes the values may have is a matter of the table alone
  (`EditExact`): a value that is dropped takes the values below it along, with
  the empty ones, which are at offset 0; and in the inode the check wants a word
  more than the entry needs.

  Main result: `setEntry_exact_iff`.
-/
import Lwext4.XattrMap

namespace Lwext4

open Lib

namespace Xattr

/-! ## The promise -/

/-- The entries but the one that has been found. -/
def others : Search → List Entry → List Entry
  | none, es => es
  | some (pre, _, post), _ => pre ++ post

/-- The entries `es` of one area are the entries `es'` of another one, with the
    same values. -/
def Kept (a a' : Area) (es es' : List Entry) : Prop :=
  List.Forall₂ (fun e e' => e'.key = e.key ∧
    a'.mem.read e'.valueOffs e'.valueSize = a.mem.read e.valueOffs e.valueSize) es es'

/-- Area `a'` is area `a` with the value for the key, or without the key. -/
def Edited (a a' : Area) (key : Key) : Option (List Byte) → Prop
  | none => findEntry key a'.entries = none ∧
      Kept a a' (others (findEntry key a.entries) a.entries) a'.entries
  | some value => ∃ pre here post, findEntry key a'.entries = some (pre, here, post) ∧
      a'.mem.read here.valueOffs here.valueSize = value ∧
      Kept a a' (others (findEntry key a.entries) a.entries) (pre ++ post)

/-- The value fits between the table and the lowest value: with its name, or
    with the room of the value it takes the place of. -/
def Fits (L : Layout) (es : List Entry) (key : Key) (value : List Byte) : Search → Prop
  | none => tableEnd L.first es + xattrLen key.name.length + 4 + xattrSize value.length ≤
      minOffs L.size es
  | some (_, here, _) => tableEnd L.first es + 4 + xattrSize value.length ≤
      minOffs L.size es + xattrSize here.valueSize

/-- One call of `ext4_xattr_set_entry` keeps its promise. -/
def EditOk (L : Layout) (a : Area) (key : Key) (value : Option (List Byte)) : Prop :=
  match setEntry L a key value (findEntry key a.entries) with
  | .ok a' => isValid L a' = true ∧ Edited a a' key value
  | .error e => e = .ENOSPC ∧
      ∀ v, value = some v → ¬Fits L a.entries key v (findEntry key a.entries)

/-! ## When it is kept -/

/-- A value that survives when that of `here` is dropped: it is not empty, and
    lies below it and can be moved, or lies behind it with its padding. -/
def Clear (L : Layout) (here e : Entry) : Prop :=
  e.valueSize ≠ 0 ∧
    (e.valueOffs < here.valueOffs → e.valueOffs + e.valueSize ≤ here.valueOffs ∧
      e.valueOffs + xattrSize here.valueSize + e.valueSize ≤ L.size + L.slack) ∧
    (here.valueOffs ≤ e.valueOffs → here.valueOffs + xattrSize here.valueSize ≤ e.valueOffs)

/-- Dropping the value of `here` spares the others. -/
def Drops (L : Layout) (here : Entry) (es : List Entry) : Prop :=
  here.valueSize ≠ 0 → ∀ e ∈ es, Clear L here e

/-- When an edit keeps its promise whatever the bytes of the values are. -/
def EditExact (L : Layout) (es : List Entry) (key : Key) : Option (List Byte) → Search → Prop
  | none, none => True
  | none, some (pre, here, post) => (∀ e ∈ post, e.key ≠ key) ∧ Drops L here (pre ++ post)
  | some value, none => Fits L es key value none → key.name.length < 256 ∧
      if value = [] then
        tableEnd L.first es + xattrLen key.name.length + 4 + L.slack ≤
          minOffs (L.size + L.slack) es
      else
        tableEnd L.first es + xattrLen key.name.length + 4 + L.slack + xattrSize value.length ≤
          minOffs L.size es
  | some value, some (pre, here, post) => Fits L es key value (some (pre, here, post)) →
      Drops L here (pre ++ post) ∧
      (value ≠ [] →
        tableEnd L.first es + 4 + L.slack + xattrSize value.length ≤
          minOffs L.size es + xattrSize here.valueSize ∧
        minOffs L.size es + xattrSize here.valueSize + value.length ≤
          L.size + L.slack + xattrSize value.length)

variable {L : Layout} {a a' : Area} {key : Key} {value : List Byte} {e here : Entry}
  {es pre post : List Entry} {mem : Mem} {m n offs : ℕ}

/-! ## The check -/

/-- What the check of an area says about an entry of a table that ends at
    `offs`. -/
structure InArea (L : Layout) (offs : ℕ) (e : Entry) : Prop where
  empty : e.valueSize = 0 → e.valueOffs = 0
  room : e.valueSize ≠ 0 → offs + 4 + L.slack ≤ e.valueOffs ∧
    e.valueOffs + e.valueSize ≤ L.size + L.slack

/-- What it says about the table. -/
structure Sound (L : Layout) (es : List Entry) : Prop where
  table : tableEnd L.first es + 4 ≤ L.size
  entries : ∀ e ∈ es, InArea L (tableEnd L.first es) e

theorem entriesValid_iff : entriesValid L offs es = true ↔
    ∀ as e bs, es = as ++ e :: bs → (e.valueSize = 0 → e.valueOffs = 0) ∧
      e.valueOffs + e.valueSize ≤ L.size + L.slack ∧ tableEnd offs (as ++ [e]) + 4 ≤ L.size := by
  induction es generalizing offs with
  | nil => simp [entriesValid]
  | cons f fs ih =>
    rw [entriesValid]
    split_ifs with h1 h2 h3
    · refine iff_of_false not_false fun h => ?_
      exact h1.2 ((h [] f fs rfl).1 h1.1)
    · refine iff_of_false not_false fun h => ?_
      exact absurd (h [] f fs rfl).2.1 (Nat.not_le.2 h2)
    · refine iff_of_false not_false fun h => ?_
      have := (h [] f fs rfl).2.2
      rw [List.nil_append, tableEnd_cons, tableEnd_nil] at this
      omega
    · rw [ih]
      constructor
      · intro h as e bs heq
        rcases as with - | ⟨g, as⟩
        · obtain ⟨rfl, rfl⟩ := List.cons.inj heq
          rw [List.nil_append, tableEnd_cons, tableEnd_nil]
          exact ⟨fun h0 => not_not.1 fun hne => h1 ⟨h0, hne⟩, Nat.le_of_not_lt h2,
            Nat.le_of_not_lt h3⟩
        · obtain ⟨rfl, hrest⟩ := List.cons.inj heq
          rw [List.cons_append, tableEnd_cons]
          exact h as e bs hrest
      · intro h as e bs heq
        have := h (f :: as) e bs (by rw [heq]; rfl)
        rwa [List.cons_append, tableEnd_cons] at this

theorem isValid_iff : isValid L a = true ↔ a.header = true ∧ Sound L a.entries := by
  rw [isValid, Bool.and_eq_true, Bool.and_eq_true, decide_eq_true_eq, entriesValid_iff, and_assoc]
  refine and_congr_right fun _ => ⟨?_, ?_⟩
  · rintro ⟨hes, hroom⟩
    have hstart : minOffs (L.size + L.slack) a.entries ≤ L.size + L.slack := minOffs_le_start
    refine ⟨by omega, fun e he => ?_⟩
    obtain ⟨as, bs, heq⟩ := List.append_of_mem he
    obtain ⟨hempty, hend, -⟩ := hes as e bs heq
    exact ⟨hempty, fun hne => ⟨hroom.trans (minOffs_le he hne), hend⟩⟩
  · intro h
    refine ⟨fun as e bs heq => ?_, ?_⟩
    · have he : e ∈ a.entries := by rw [heq]; simp
      have htable := h.table
      have hin := h.entries e he
      refine ⟨hin.empty, ?_, ?_⟩
      · by_cases h0 : e.valueSize = 0
        · rw [hin.empty h0, h0]
          omega
        · exact (hin.room h0).2
      · rw [heq, show as ++ e :: bs = as ++ [e] ++ bs by simp, tableEnd_append] at htable
        exact (Nat.add_le_add_right le_tableEnd 4).trans htable
    · exact le_minOffs (Nat.add_le_add_right h.table L.slack) fun e he hne =>
        ((h.entries e he).room hne).1

/-- The lowest value is above the table. -/
theorem Sound.table_le (h : Sound L es) : tableEnd L.first es + 4 ≤ minOffs L.size es :=
  le_minOffs h.table fun e he hne =>
    (Nat.le_add_right _ _).trans ((h.entries e he).room hne).1

/-- The entry found is one that can be dropped. -/
theorem Sound.dropped (h : Sound L es) (he : here ∈ es) : Dropped (minOffs L.size es) here where
  empty := (h.entries here he).empty
  pos := Nat.lt_of_lt_of_le (Nat.succ_pos _) h.table_le
  le := fun hne => minOffs_le he hne

/-- The entry is refused exactly if it does not fit. -/
theorem fits_iff (h : Sound L a.entries) : Fits L a.entries key value (findEntry key a.entries) ↔
    xattrSize value.length + xattrLen key.name.length ≤
      freeSpace L a (findEntry key a.entries) := by
  have htable := h.table_le
  rcases hf : findEntry key a.entries with - | ⟨pre, here, post⟩
  · unfold Fits freeSpace
    simp only
    omega
  · obtain ⟨-, rfl, -⟩ := findEntry_some hf
    unfold Fits freeSpace
    simp only
    omega

/-- The first entry with the key is found. -/
theorem findEntry_append (hpre : ∀ e ∈ pre, e.key ≠ key) (hkey : here.key = key) :
    findEntry key (pre ++ here :: post) = some (pre, here, post) := by
  induction pre with
  | nil => exact if_pos hkey
  | cons f fs ih =>
    rw [List.cons_append, findEntry, if_neg (hpre f List.mem_cons_self),
      ih fun e he => hpre e (List.mem_cons_of_mem _ he)]
    rfl

/-! ## A new entry -/

theorem Kept.refl (es : List Entry) : Kept a a es es :=
  List.forall₂_same.2 fun _ _ => ⟨rfl, rfl⟩

/-- Another value below the lowest one leaves the values alone. -/
theorem kept_putValue (hpad : xattrSize value.length ≤ m)
    (hle : ∀ e ∈ es, e.valueSize ≠ 0 → m ≤ e.valueOffs) {header : Bool}
    {entries entries' : List Entry} : Kept ⟨header, entries, mem⟩
      ⟨header, entries', putValue mem (newOffs m value.length) value⟩ es es :=
  List.forall₂_same.2 fun e he =>
    ⟨rfl, read_putValue_of_apart mem hpad fun _ hne => .inr (hle e he hne)⟩

/-- The name of an entry is whole if its length is stored. -/
theorem stored_eq_iff : key.stored = key ↔ key.name.length < 256 := by
  constructor
  · intro h
    have hlen := congrArg (fun k : Key => k.name.length) h
    have hmod := Nat.mod_lt key.name.length (show 0 < 2 ^ 8 by decide)
    simp only [Key.stored, List.length_take] at hlen
    omega
  · intro h
    rw [Key.stored, Nat.mod_eq_of_lt (show key.name.length < 2 ^ 8 from h), List.take_length]

/-- The table with the new entry. -/
theorem sound_insert_iff (h : Sound L es)
    (hfits : tableEnd L.first es + xattrLen key.name.length + 4 + xattrSize value.length ≤
      minOffs L.size es) :
    Sound L (es ++ [newEntry key (minOffs L.size es) value]) ↔
      if value = [] then
        tableEnd L.first es + xattrLen key.name.length + 4 + L.slack ≤
          minOffs (L.size + L.slack) es
      else
        tableEnd L.first es + xattrLen key.name.length + 4 + L.slack + xattrSize value.length ≤
          minOffs L.size es := by
  have hsize : minOffs L.size es ≤ L.size := minOffs_le_start
  have hpad := le_xattrSize value.length
  have htable : tableEnd L.first (es ++ [newEntry key (minOffs L.size es) value]) =
      tableEnd L.first es + xattrLen key.name.length := by
    rw [tableEnd_append, tableEnd_cons, tableEnd_nil]
    rfl
  have hlow : ∀ e ∈ es, e.valueSize ≠ 0 → minOffs L.size es ≤ e.valueOffs :=
    fun e he hne => minOffs_le he hne
  constructor
  · intro hs
    have hroom := hs.entries
    rw [htable] at hroom
    split_ifs with h0
    · refine le_minOffs ?_ fun e he hne => ((hroom e (List.mem_append_left _ he)).room hne).1
      have := hs.table
      rw [htable] at this
      omega
    · have hne : value.length ≠ 0 := mt List.length_eq_zero_iff.1 h0
      have hnew := ((hroom (newEntry key (minOffs L.size es) value) (by simp)).room hne).1
      rw [newEntry, newOffs, if_pos hne] at hnew
      simp only at hnew
      omega
  · intro hroom
    refine ⟨by omega, fun e he => ?_⟩
    rw [htable]
    rcases List.mem_append.1 he with he | he
    · refine ⟨(h.entries e he).empty, fun hne => ⟨?_, ((h.entries e he).room hne).2⟩⟩
      split_ifs at hroom with h0
      · exact hroom.trans (minOffs_le he hne)
      · have := hlow e he hne
        omega
    · obtain rfl := List.mem_singleton.1 he
      refine ⟨fun h0 => if_neg (not_not.2 h0), fun hne => ?_⟩
      have hne : value.length ≠ 0 := hne
      rw [if_neg (mt List.length_eq_zero_iff.2 hne)] at hroom
      rw [newEntry, newOffs, if_pos hne]
      simp only
      omega

/-- **A new entry**: what its insertion promises. -/
theorem insert_ok_iff (hv : isValid L a = true) (hf : findEntry key a.entries = none) :
    EditOk L a key (some value) ↔ EditExact L a.entries key (some value) none := by
  obtain ⟨hheader, hs⟩ := isValid_iff.1 hv
  have hfits := @fits_iff L a key value hs
  rw [hf] at hfits
  unfold EditOk EditExact
  rw [hf]
  by_cases hfit : Fits L a.entries key value none
  · have hle : xattrSize value.length ≤ minOffs L.size a.entries := by
      unfold Fits at hfit
      omega
    have hset : setEntry L a key (some value) none = .ok ⟨a.header,
        a.entries ++ [newEntry key.stored (minOffs L.size a.entries) value],
        putValue a.mem (newOffs (minOffs L.size a.entries) value.length) value⟩ :=
      if_neg (Nat.not_lt.2 (hfits.1 hfit))
    rw [hset]
    simp only
    rw [imp_iff_right hfit, isValid_iff]
    simp only
    have hnone := findEntry_none.1 hf
    constructor
    · rintro ⟨⟨-, hsound⟩, pre, here, post, hfound, -, -⟩
      -- the entry is found again under the name that is stored
      obtain ⟨heq, hkey, -⟩ := findEntry_some hfound
      replace heq : a.entries ++ [newEntry key.stored (minOffs L.size a.entries) value] =
        pre ++ here :: post := heq
      have hmem : here ∈ a.entries ++ [newEntry key.stored (minOffs L.size a.entries) value] := by
        rw [heq]
        simp
      have hstored : key.stored = key := by
        rcases List.mem_append.1 hmem with hmem | hmem
        · exact absurd hkey (hnone here hmem)
        · obtain rfl := List.mem_singleton.1 hmem
          exact hkey
      rw [hstored] at hsound
      exact ⟨stored_eq_iff.1 hstored, (sound_insert_iff hs hfit).1 hsound⟩
    · rintro ⟨hlen, hroom⟩
      rw [stored_eq_iff.2 hlen]
      refine ⟨⟨hheader, (sound_insert_iff hs hfit).2 hroom⟩, a.entries,
        newEntry key (minOffs L.size a.entries) value, [], ?_, ?_, ?_⟩
      · exact findEntry_append hnone rfl
      · exact read_putValue a.mem _ fun _ => by
          unfold Fits at hfit
          omega
      · rw [List.append_nil, hf]
        exact kept_putValue hle fun e he hne => minOffs_le he hne
  · have hset : setEntry L a key (some value) none = .error .ENOSPC :=
      setEntry_error (Nat.lt_of_not_le (mt hfits.2 hfit))
    rw [hset]
    refine iff_of_true ⟨rfl, ?_⟩ fun h => absurd h hfit
    rintro v hv'
    rw [Option.some_inj.1 hv'.symm]
    exact hfit

/-! ## Dropping a value -/

/-- A value that is clear stays what it is. -/
theorem Dropped.kept (hd : Dropped m here) (hle : e.valueSize ≠ 0 → m ≤ e.valueOffs)
    (hc : here.valueSize ≠ 0 → Clear L here e) (mem : Mem) :
    (dropValue mem m here).read (e.shift here.valueOffs (xattrSize here.valueSize)).valueOffs
      e.valueSize = mem.read e.valueOffs e.valueSize := by
  by_cases h0 : here.valueSize = 0
  · rw [dropValue, if_neg (not_not.2 (hd.empty h0)), shift_valueOffs, hd.empty h0,
      if_neg (Nat.not_lt_zero _)]
  · obtain ⟨hne, hbelow, hbehind⟩ := hc h0
    have hm := hd.le h0
    have hlow := hle hne
    have hpos := hd.pos
    rw [dropValue, if_pos (by omega), shift_valueOffs]
    split_ifs with hlt
    · have hend := (hbelow hlt).1
      obtain ⟨c, hc⟩ := Nat.exists_eq_add_of_le hlow
      rw [Mem.read_fill_of_disjoint (by omega), hc, show m + c + xattrSize here.valueSize =
        m + xattrSize here.valueSize + c by omega, Mem.read_move (by omega)]
    · have hfar := hbehind (Nat.le_of_not_lt hlt)
      rw [Mem.read_fill_of_disjoint (by omega), Mem.read_move_of_disjoint (by omega)]

/-- What only `i` of the old bytes decides: storing a value above the dropped
    one. -/
structure Local (m : ℕ) (G : Mem → Mem) : Prop where
  congr : ∀ q q' i, q i = q' i → G q i = G q' i
  above : ∀ q i, m ≤ i → G q i = q i

theorem local_id (m : ℕ) : Local m id := ⟨fun _ _ _ h => h, fun _ _ _ => rfl⟩

theorem local_putValue (hpad : xattrSize value.length ≤ m) :
    Local m fun q => putValue q (newOffs m value.length) value where
  congr q q' i h := by
    unfold putValue
    split_ifs
    · unfold Mem.fill Mem.write
      rw [h]
    · exact h
  above q i hi := by
    have hread := read_putValue_of_apart (n := 1) q hpad fun _ _ => .inr hi
    exact (List.cons.inj hread).1

/-- **A value that stays what it is, whatever the bytes, is clear** of the value
    that is dropped. -/
theorem Dropped.clear {G : Mem → Mem} (hG : Local (m + xattrSize here.valueSize) G)
    (hd : Dropped m here) (hh : here.valueSize ≠ 0) (hne : e.valueSize ≠ 0)
    (hlow : m ≤ e.valueOffs)
    (hread : ∀ mem, (G (dropValue mem m here)).read
      (e.shift here.valueOffs (xattrSize here.valueSize)).valueOffs e.valueSize =
        mem.read e.valueOffs e.valueSize) :
    (e.valueOffs < here.valueOffs → e.valueOffs + e.valueSize ≤ here.valueOffs) ∧
      (here.valueOffs ≤ e.valueOffs → here.valueOffs + xattrSize here.valueSize ≤ e.valueOffs) := by
  have hm := hd.le hh
  have hpos := hd.pos
  have hS := xattrSize_pos hh
  have hbyte : ∀ mem i, i < e.valueSize → G (dropValue mem m here)
      ((e.shift here.valueOffs (xattrSize here.valueSize)).valueOffs + i) =
        mem (e.valueOffs + i) := by
    intro mem i hi
    have h := congrArg (fun bs => bs[i]?) (hread mem)
    simp only [Mem.getElem?_read, if_pos hi] at h
    exact Option.some_inj.1 h
  have hdrop : ∀ mem : Mem, dropValue mem m here =
      (mem.move (m + xattrSize here.valueSize) m (here.valueOffs - m)).fill m
        (xattrSize here.valueSize) 0 := fun mem => if_pos (by omega)
  constructor
  · -- the byte at the offset that is dropped would have to follow
    intro hlt
    by_contra hlong
    have h := hbyte (fun i => if i = here.valueOffs then 1 else 0) (here.valueOffs - e.valueOffs)
      (by omega)
    rw [shift_valueOffs, if_pos hlt, hG.above _ _ (by omega), hdrop, Mem.fill, if_neg (by omega),
      Mem.move, if_neg (by omega), if_neg (by omega), if_pos (by omega)] at h
    exact absurd h (by decide)
  · -- the byte is overwritten with one that does not depend on it
    intro hge
    by_contra hnear
    obtain ⟨f, hf⟩ : ∃ f, f = G (dropValue (fun _ => 0) m here) e.valueOffs := ⟨_, rfl⟩
    have h := hbyte (fun i => if i = e.valueOffs then f + 1 else 0) 0 (Nat.pos_of_ne_zero hne)
    rw [shift_valueOffs, if_neg (by omega), Nat.add_zero, if_pos rfl,
      hG.congr _ (dropValue (fun _ => 0) m here), ← hf] at h
    · have hone : f ≠ f + 1 := by
        intro hf
        have := congrArg BitVec.toNat hf
        rw [BitVec.toNat_add] at this
        have hlt := f.isLt
        have h1 : (1 : Byte).toNat = 1 := rfl
        omega
      exact hone h
    · rw [hdrop, hdrop, Mem.fill, Mem.fill]
      split_ifs with hin
      · rfl
      · rw [Mem.move, Mem.move, if_pos (by omega), if_neg (by omega)]
        exact (ite_self _).symm

/-- The entry after the value of `here` has been dropped. -/
theorem shift_inArea_iff (h : Sound L es) (he : e ∈ es) (hh : here ∈ es)
    (hoffs : offs ≤ tableEnd L.first es) :
    InArea L offs (e.shift here.valueOffs (xattrSize here.valueSize)) ↔
      (here.valueSize ≠ 0 → e.valueSize ≠ 0 ∧ (e.valueOffs < here.valueOffs →
        e.valueOffs + xattrSize here.valueSize + e.valueSize ≤ L.size + L.slack)) := by
  have hin := h.entries e he
  have hd := h.dropped hh
  have hpos := hd.pos
  constructor
  · intro hs hne
    have hm := hd.le hne
    have hS := xattrSize_pos hne
    have hempty := hs.empty
    have hroom := hs.room
    rw [shift_valueSize, shift_valueOffs] at hempty hroom
    by_cases h0 : e.valueSize = 0
    · have hoffs0 := hin.empty h0
      have := hempty h0
      rw [if_pos (by omega)] at this
      omega
    · refine ⟨h0, fun hlt => ?_⟩
      have := (hroom h0).2
      rwa [if_pos hlt] at this
  · intro hs
    refine ⟨fun h0 => ?_, fun h0 => ?_⟩
    · rw [shift_valueSize] at h0
      have hoffs0 := hin.empty h0
      have hzero : here.valueSize = 0 := by
        by_contra hne
        exact (hs hne).1 h0
      rw [shift_valueOffs, hd.empty hzero, if_neg (Nat.not_lt_zero _), hoffs0]
    · rw [shift_valueSize] at h0 ⊢
      have hroom := hin.room h0
      rw [shift_valueOffs]
      split_ifs with hlt
      · have hne : here.valueSize ≠ 0 := by
          intro hzero
          rw [hd.empty hzero] at hlt
          exact Nat.not_lt_zero _ hlt
        have := (hs hne).2 hlt
        omega
      · omega

/-- **What dropping a value promises**: the other entries are accepted where
    they are moved to, and keep their values whatever the bytes. -/
theorem drops_iff {G : Mem → Mem} (h : Sound L es) (hh : here ∈ es)
    (hG : Local (minOffs L.size es + xattrSize here.valueSize) G) {rest : List Entry}
    (hrest : ∀ e ∈ rest, e ∈ es) (hoffs : offs ≤ tableEnd L.first es) :
    (∀ e ∈ rest, InArea L offs (e.shift here.valueOffs (xattrSize here.valueSize)) ∧
      ∀ mem, (G (dropValue mem (minOffs L.size es) here)).read
        (e.shift here.valueOffs (xattrSize here.valueSize)).valueOffs e.valueSize =
          mem.read e.valueOffs e.valueSize) ↔ Drops L here rest := by
  have hd := h.dropped hh
  constructor
  · intro hall hne e he
    obtain ⟨hin, hread⟩ := hall e he
    obtain ⟨h0, hmoved⟩ := (shift_inArea_iff h (hrest e he) hh hoffs).1 hin hne
    obtain ⟨hbelow, hbehind⟩ := hd.clear hG hne h0 (minOffs_le (hrest e he) h0) hread
    exact ⟨h0, fun hlt => ⟨hbelow hlt, hmoved hlt⟩, hbehind⟩
  · intro hdrops e he
    refine ⟨(shift_inArea_iff h (hrest e he) hh hoffs).2 fun hne => ?_, fun mem => ?_⟩
    · obtain ⟨h0, hbelow, -⟩ := hdrops hne e he
      exact ⟨h0, fun hlt => (hbelow hlt).2⟩
    · by_cases h0 : e.valueSize = 0
      · rw [h0]
        rfl
      · have hlow := @minOffs_le e es L.size (hrest e he) h0
        rw [← hd.kept (fun _ => hlow) (fun hne => hdrops hne e he) mem]
        -- the values are above what else is stored
        refine Mem.read_congr fun i hi _ => hG.above _ i (le_trans ?_ hi)
        rw [shift_valueOffs]
        by_cases hne : here.valueSize = 0
        · rw [hne, xattrSize_zero]
          split_ifs <;> omega
        · obtain ⟨-, -, hbehind⟩ := hdrops hne e he
          have hm := hd.le hne
          split_ifs with hlt
          · omega
          · exact (Nat.add_le_add_right hm _).trans (hbehind (Nat.le_of_not_lt hlt))

/-- What the check says about a new value that ends at `m`. -/
theorem newEntry_inArea_iff : InArea L offs (newEntry key m value) ↔
    (value ≠ [] → offs + 4 + L.slack + xattrSize value.length ≤ m ∧
      m + value.length ≤ L.size + L.slack + xattrSize value.length) := by
  have hlen : value ≠ [] ↔ value.length ≠ 0 := not_congr List.length_eq_zero_iff.symm
  rw [hlen]
  constructor
  · intro h hne
    have hroom := h.room hne
    rw [newEntry, newOffs, if_pos hne] at hroom
    simp only at hroom
    omega
  · intro h
    refine ⟨fun h0 => if_neg (not_not.2 h0), fun hne => ?_⟩
    have hne : value.length ≠ 0 := hne
    have := h hne
    rw [newEntry, newOffs, if_pos hne]
    simp only
    omega

/-! ## An entry that is there -/

theorem kept_map_iff {header : Bool} {entries entries' : List Entry} {mem' : Mem} :
    Kept ⟨header, entries, mem⟩ ⟨header, entries', mem'⟩ es (es.map (Entry.shift m n)) ↔
      ∀ e ∈ es, mem'.read (e.shift m n).valueOffs e.valueSize =
        mem.read e.valueOffs e.valueSize := by
  unfold Kept
  rw [List.forall₂_map_right_iff, List.forall₂_same]
  refine forall₂_congr fun e _ => ?_
  rw [shift_key, shift_valueSize, and_iff_right rfl]

/-- What `ext4_xattr_set_entry` makes of an area when it replaces a value that fits. -/
theorem setEntry_replaced (hs : Sound L a.entries) (hhere : here ∈ a.entries) {mem : Mem}
    (hroom : xattrSize value.length + xattrLen here.key.name.length ≤
      freeSpace L { a with mem := mem } (some (pre, here, post))) {g : Entry → Entry}
    (hg : g = Entry.shift here.valueOffs (xattrSize here.valueSize))
    (hm : m = minOffs L.size a.entries + xattrSize here.valueSize) :
    setEntry L { a with mem := mem } here.key (some value) (some (pre, here, post)) =
      .ok ⟨a.header, pre.map g ++ newEntry here.key m value :: post.map g,
        putValue (dropValue mem (minOffs L.size a.entries) here) (newOffs m value.length) value⟩ := by
  rw [hg, hm, ← (hs.dropped hhere).offsAfter_eq]
  exact if_neg (Nat.not_lt.2 hroom)

/-- The entries of that area. -/
theorem forall_mem_replaced {g : Entry → Entry} {P : Entry → Prop} {new : Entry} :
    (∀ e ∈ pre.map g ++ new :: post.map g, P e) ↔ (∀ e ∈ pre ++ post, P (g e)) ∧ P new := by
  simp only [List.forall_mem_append, List.forall_mem_cons, List.forall_mem_map]
  tauto

/-- **An entry is removed**. -/
theorem remove_ok_iff (hv : isValid L a = true)
    (hf : findEntry key a.entries = some (pre, here, post)) :
    (∀ mem, EditOk L { a with mem := mem } key none) ↔
      EditExact L a.entries key none (some (pre, here, post)) := by
  obtain ⟨hheader, hs⟩ := isValid_iff.1 hv
  obtain ⟨hes, hkey, hpre⟩ := findEntry_some hf
  obtain ⟨sh, hsh⟩ : ∃ sh, sh = Entry.shift here.valueOffs (xattrSize here.valueSize) := ⟨_, rfl⟩
  have hshkey : ∀ e, (sh e).key = e.key := fun e => by rw [hsh, shift_key]
  have hhere : here ∈ a.entries := by rw [hes]; simp
  have hrest : ∀ e ∈ pre ++ post, e ∈ a.entries := mem_of_split hes
  have htable : tableEnd L.first (pre ++ post) ≤ tableEnd L.first a.entries :=
    tableEnd_split_le hes
  have hdrops := drops_iff hs hhere (local_id _) hrest htable
  rw [← hsh] at hdrops
  -- what one call promises
  have hcall : ∀ mem, EditOk L { a with mem := mem } key none ↔
      Sound L ((pre ++ post).map sh) ∧ findEntry key ((pre ++ post).map sh) = none ∧
        ∀ e ∈ pre ++ post, (dropValue mem (minOffs L.size a.entries) here).read (sh e).valueOffs
          e.valueSize = mem.read e.valueOffs e.valueSize := by
    intro mem
    have hset : setEntry L { a with mem := mem } key none (some (pre, here, post)) = .ok ⟨a.header,
        (pre ++ post).map sh, dropValue mem (minOffs L.size a.entries) here⟩ := by
      rw [List.map_append, hsh]
      rfl
    unfold EditOk Edited
    simp only [hf, hset, isValid_iff, others]
    rw [and_iff_right hheader, hsh, kept_map_iff]
  have habsent : findEntry key ((pre ++ post).map sh) = none ↔ ∀ e ∈ post, e.key ≠ key := by
    rw [findEntry_none, List.forall_mem_map]
    simp only [hshkey, List.forall_mem_append]
    exact and_iff_right hpre
  have htable' : tableEnd L.first ((pre ++ post).map sh) = tableEnd L.first (pre ++ post) :=
    tableEnd_map hshkey
  constructor
  · intro hall
    have hone := (hcall a.mem).1 (hall a.mem)
    refine ⟨habsent.1 hone.2.1, hdrops.1 fun e he => ⟨?_, fun mem => ?_⟩⟩
    · rw [← htable']
      exact hone.1.entries _ (List.mem_map_of_mem he)
    · exact ((hcall mem).1 (hall mem)).2.2 e he
  · rintro ⟨hpost, hd⟩ mem
    have hall := hdrops.2 hd
    refine (hcall mem).2 ⟨⟨?_, ?_⟩, habsent.2 hpost, fun e he => (hall e he).2 mem⟩
    · have := hs.table
      omega
    · rw [htable', List.forall_mem_map]
      exact fun e he => (hall e he).1

/-- **The value of an entry is replaced**. -/
theorem replace_ok_iff (hv : isValid L a = true)
    (hf : findEntry key a.entries = some (pre, here, post)) :
    (∀ mem, EditOk L { a with mem := mem } key (some value)) ↔
      EditExact L a.entries key (some value) (some (pre, here, post)) := by
  obtain ⟨hheader, hs⟩ := isValid_iff.1 hv
  have hfits : ∀ mem : Mem, Fits L a.entries key value (some (pre, here, post)) ↔
      xattrSize value.length + xattrLen key.name.length ≤
        freeSpace L { a with mem := mem } (some (pre, here, post)) := by
    intro mem
    have h := @fits_iff L { a with mem := mem } key value hs
    rwa [hf] at h
  obtain ⟨hes, rfl, hpre⟩ := findEntry_some hf
  obtain ⟨sh, hsh⟩ : ∃ sh, sh = Entry.shift here.valueOffs (xattrSize here.valueSize) := ⟨_, rfl⟩
  obtain ⟨m, hm⟩ : ∃ m, m = minOffs L.size a.entries + xattrSize here.valueSize := ⟨_, rfl⟩
  have hshkey : ∀ e, (sh e).key = e.key := fun e => by rw [hsh, shift_key]
  have hhere : here ∈ a.entries := by rw [hes]; simp
  have hrest : ∀ e ∈ pre ++ post, e ∈ a.entries := mem_of_split hes
  by_cases hfit : Fits L a.entries here.key value (some (pre, here, post))
  · have hpad : xattrSize value.length < m := by
      unfold Fits at hfit
      omega
    have hG := local_putValue hpad.le
    rw [hm] at hG
    have hdrops := drops_iff hs hhere hG hrest le_rfl
    rw [← hsh, ← hm] at hdrops
    have htable : tableEnd L.first (pre.map sh ++ newEntry here.key m value :: post.map sh) =
        tableEnd L.first a.entries := tableEnd_replaced hes hshkey
    have hfound : findEntry here.key (pre.map sh ++ newEntry here.key m value :: post.map sh) =
        some (pre.map sh, newEntry here.key m value, post.map sh) := by
      refine findEntry_append (List.forall_mem_map.2 fun e he => ?_) rfl
      rw [hshkey]
      exact hpre e he
    -- what one call promises
    have hcall : ∀ mem, EditOk L { a with mem := mem } here.key (some value) ↔
        Sound L (pre.map sh ++ newEntry here.key m value :: post.map sh) ∧
          ∀ e ∈ pre ++ post, (putValue (dropValue mem (minOffs L.size a.entries) here)
            (newOffs m value.length) value).read (sh e).valueOffs e.valueSize =
              mem.read e.valueOffs e.valueSize := by
      intro mem
      have hset := setEntry_replaced hs hhere ((hfits mem).1 hfit) hsh hm
      unfold EditOk Edited
      simp only [hf, hset, isValid_iff, others]
      rw [and_iff_right hheader]
      refine and_congr_right fun _ => ?_
      rw [hfound]
      constructor
      · rintro ⟨pre', here', post', heq, -, hkept⟩
        obtain ⟨rfl, rfl, rfl⟩ : pre.map sh = pre' ∧ newEntry here.key m value = here' ∧
          post.map sh = post' := by simpa using heq
        rw [← List.map_append, hsh, kept_map_iff] at hkept
        rwa [hsh]
      · intro hkept
        refine ⟨_, _, _, rfl, read_putValue _ m fun _ => hpad, ?_⟩
        rw [← List.map_append, hsh, kept_map_iff, ← hsh]
        exact hkept
    have hnew := @newEntry_inArea_iff L here.key value m (tableEnd L.first a.entries)
    unfold EditExact
    simp only
    rw [imp_iff_right hfit, ← hm, ← hnew]
    constructor
    · intro hall
      have hone := ((hcall a.mem).1 (hall a.mem)).1.entries
      rw [htable, forall_mem_replaced] at hone
      exact ⟨hdrops.1 fun e he => ⟨hone.1 e he, fun mem => ((hcall mem).1 (hall mem)).2 e he⟩,
        hone.2⟩
    · rintro ⟨hd, hin⟩ mem
      have hall := hdrops.2 hd
      refine (hcall mem).2 ⟨⟨by rw [htable]; exact hs.table, ?_⟩, fun e he => (hall e he).2 mem⟩
      rw [htable, forall_mem_replaced]
      exact ⟨fun e he => (hall e he).1, hin⟩
  · refine iff_of_true (fun mem => ?_) fun h => absurd h hfit
    have hset : setEntry L { a with mem := mem } here.key (some value) (some (pre, here, post)) =
        .error .ENOSPC := setEntry_error (Nat.lt_of_not_le (mt (hfits mem).2 hfit))
    unfold EditOk
    simp only [hf, hset]
    refine ⟨trivial, ?_⟩
    rintro v hv'
    rw [Option.some_inj.1 hv'.symm]
    exact hfit

/-- **`ext4_xattr_set_entry` on an area that its check accepts**: it keeps its
    promise, whatever the bytes of the values are, exactly if the table allows
    it. -/
theorem setEntry_exact_iff (hv : isValid L a = true) (key : Key) (value : Option (List Byte)) :
    (∀ mem, EditOk L { a with mem := mem } key value) ↔
      EditExact L a.entries key value (findEntry key a.entries) := by
  rcases hf : findEntry key a.entries with - | ⟨pre, here, post⟩
  · cases value with
    | none =>
      refine iff_of_true (fun mem => ?_) trivial
      unfold EditOk Edited
      simp only [hf]
      refine ⟨hv, hf, ?_⟩
      exact Kept.refl _
    | some value =>
      rw [← insert_ok_iff hv hf]
      refine ⟨fun h => h a.mem, fun h mem => ?_⟩
      exact (insert_ok_iff (a := { a with mem := mem }) hv hf).2 ((insert_ok_iff hv hf).1 h)
  · cases value with
    | none => exact remove_ok_iff hv hf
    | some value => exact replace_ok_iff hv hf

/-! ## What the check makes of an edit -/

/-- An area whose values do not overlap is accepted again after an edit: no
    empty value is moved, and the word that the check wants stays free. -/
def Accepted (L : Layout) (es : List Entry) (key : Key) : Option (List Byte) → Search → Prop
  | none, none => True
  | none, some (pre, here, post) => here.valueSize ≠ 0 → ∀ e ∈ pre ++ post, e.valueSize ≠ 0
  | some value, none =>
    if value = [] then
      tableEnd L.first es + xattrLen key.stored.name.length + 4 + L.slack ≤
        minOffs (L.size + L.slack) es
    else
      tableEnd L.first es + xattrLen key.stored.name.length + 4 + L.slack +
        xattrSize value.length ≤ minOffs L.size es
  | some value, some (pre, here, post) =>
    (here.valueSize ≠ 0 → ∀ e ∈ pre ++ post, e.valueSize ≠ 0) ∧
      (value ≠ [] → tableEnd L.first es + 4 + L.slack + xattrSize value.length ≤
        minOffs L.size es + xattrSize here.valueSize)

/-- Values that do not overlap can be moved, if none of them is empty. -/
theorem Wf.shift_inArea_iff (h : Wf L a) (hs : Sound L a.entries)
    (hes : a.entries = pre ++ here :: post) (hoffs : offs ≤ tableEnd L.first a.entries) :
    (∀ e ∈ pre ++ post, InArea L offs (e.shift here.valueOffs (xattrSize here.valueSize))) ↔
      (here.valueSize ≠ 0 → ∀ e ∈ pre ++ post, e.valueSize ≠ 0) := by
  obtain ⟨hothers, hhere⟩ := h.split hes
  constructor
  · intro hall hne e he
    exact ((Xattr.shift_inArea_iff hs (hothers e he).1 hhere hoffs).1 (hall e he) hne).1
  · intro hall e he
    obtain ⟨hmem, hap, -⟩ := hothers e he
    refine (Xattr.shift_inArea_iff hs hmem hhere hoffs).2 fun hne => ⟨hall hne e he, fun hlt => ?_⟩
    have hroom := (h.room here hhere hne).2
    have hcase := hap (hall hne e he) hne
    have hpos := xattrSize_pos hne
    have hpad := le_xattrSize e.valueSize
    omega

/-- **The check accepts what `ext4_xattr_set_entry` has made** of an area. -/
theorem setEntry_accepted_iff (h : Wf L a) (hv : isValid L a = true) {value : Option (List Byte)}
    (hs : setEntry L a key value (findEntry key a.entries) = .ok a') :
    isValid L a' = true ↔ Accepted L a.entries key value (findEntry key a.entries) := by
  obtain ⟨hheader, hsound⟩ := isValid_iff.1 hv
  rcases hf : findEntry key a.entries with - | ⟨pre, here, post⟩
  · rw [hf] at hs
    cases value with
    | none =>
      obtain rfl := Except.ok.inj hs
      exact iff_of_true hv trivial
    | some value =>
      have hroom := setEntry_isOk.1 ⟨a', hs⟩
      rw [setEntry, if_neg (Nat.not_lt.2 hroom)] at hs
      obtain rfl := Except.ok.inj hs
      rw [isValid_iff, and_iff_right hheader]
      refine sound_insert_iff hsound ?_
      have htable := hsound.table_le
      have hcut : xattrLen key.stored.name.length ≤ xattrLen key.name.length := by
        have hle : key.stored.name.length ≤ key.name.length := by
          rw [Key.stored, List.length_take]
          omega
        unfold xattrLen
        omega
      unfold freeSpace at hroom
      simp only at hroom
      omega
  · rw [hf] at hs
    obtain ⟨hes, rfl, -⟩ := findEntry_some hf
    obtain ⟨sh, hsh⟩ : ∃ sh, sh = Entry.shift here.valueOffs (xattrSize here.valueSize) := ⟨_, rfl⟩
    have hkey : ∀ e, (sh e).key = e.key := fun e => by rw [hsh, shift_key]
    have hhere : here ∈ a.entries := (h.split hes).2
    cases value with
    | none =>
      have hle := @tableEnd_split_le here a.entries pre post L.first hes
      have hshift := h.shift_inArea_iff hsound hes hle
      rw [setEntry, ← List.map_append, ← hsh] at hs
      obtain rfl := Except.ok.inj hs
      rw [← hsh] at hshift
      rw [isValid_iff, and_iff_right hheader]
      unfold Accepted
      simp only
      rw [← hshift]
      constructor
      · intro hmap e he
        have := hmap.entries (sh e) (List.mem_map_of_mem he)
        rwa [tableEnd_map hkey] at this
      · intro hall
        refine ⟨?_, List.forall_mem_map.2 fun e he => ?_⟩
        · rw [tableEnd_map hkey]
          exact (Nat.add_le_add_right hle 4).trans h.table
        · rw [tableEnd_map hkey]
          exact hall e he
    | some value =>
      have hshift := h.shift_inArea_iff hsound hes le_rfl
      have hroom := setEntry_isOk.1 ⟨a', hs⟩
      obtain ⟨m, hm⟩ : ∃ m, m = minOffs L.size a.entries + xattrSize here.valueSize := ⟨_, rfl⟩
      have hnew := @newEntry_inArea_iff L here.key value m (tableEnd L.first a.entries)
      have htable : tableEnd L.first (pre.map sh ++ newEntry here.key m value :: post.map sh) =
          tableEnd L.first a.entries := tableEnd_replaced hes hkey
      rw [setEntry_replaced hsound hhere hroom hsh hm] at hs
      obtain rfl := Except.ok.inj hs
      have hend : m ≤ L.size := by
        rw [hm]
        by_cases h0 : here.valueSize = 0
        · rw [h0, xattrSize_zero]
          exact minOffs_le_start
        · exact (Nat.add_le_add_right (minOffs_le hhere h0) _).trans (h.room here hhere h0).2
      have hpad := le_xattrSize value.length
      rw [isValid_iff, and_iff_right hheader]
      unfold Accepted
      simp only
      rw [← hshift, ← hsh, ← hm]
      constructor
      · intro hmap
        have hall := hmap.entries
        rw [htable, forall_mem_replaced] at hall
        exact ⟨hall.1, fun hne => (hnew.1 hall.2 hne).1⟩
      · rintro ⟨hall, hvalue⟩
        refine ⟨by rw [htable]; exact h.table, ?_⟩
        rw [htable, forall_mem_replaced]
        exact ⟨hall, hnew.2 fun hne => ⟨hvalue hne, by omega⟩⟩

/-- The area of an inode of 256 bytes, behind 32 extra bytes, with an empty
    value and one of four bytes. -/
def emptyAndFour : Area where
  header := true
  entries := [⟨⟨1, [0x61], Nat.one_pos⟩, 0, 0⟩, ⟨⟨1, [0x62], Nat.one_pos⟩, 88, 4⟩]
  mem := fun _ => 0

/-- Removing the empty value keeps the other one. -/
theorem setEntry_exact_empty : EditOk ⟨0, 92, 4⟩ emptyAndFour ⟨1, [0x61], Nat.one_pos⟩ none :=
  (@setEntry_exact_iff ⟨0, 92, 4⟩ emptyAndFour (by decide) ⟨1, [0x61], Nat.one_pos⟩ none).2
    ⟨by decide, fun h => absurd rfl h⟩ emptyAndFour.mem

/-- Removing the other one moves the empty value to offset 4, where no empty
    value may be; and an attribute whose value fills the inode exactly is set,
    but not accepted. -/
theorem setEntry_wrong : isValid ⟨0, 92, 4⟩ emptyAndFour = true ∧
    ¬EditOk ⟨0, 92, 4⟩ emptyAndFour ⟨1, [0x62], Nat.one_pos⟩ none ∧
    Fits ⟨0, 92, 4⟩ [] ⟨1, [0x61], Nat.one_pos⟩ (List.replicate 68 1) none ∧
    ¬EditOk ⟨0, 92, 4⟩ ⟨true, [], fun _ => 0⟩ ⟨1, [0x61], Nat.one_pos⟩
      (some (List.replicate 68 1)) := by
  refine ⟨by decide, fun h => ?_, by unfold Fits; decide, fun h => ?_⟩
  · have hvalid : isValid ⟨0, 92, 4⟩ _ = true := h.1
    exact absurd hvalid (by decide)
  · have hvalid : isValid ⟨0, 92, 4⟩ _ = true := h.1
    exact absurd hvalid (by decide)

end Xattr

end Lwext4
