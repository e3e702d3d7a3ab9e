/-
  An area of attributes as a map from keys to values.

  `Wf` says that the table and the values of an area do not overlap, and
  `Holds a k v` that the area has the value `v` for the key `k`.

  Main results.
  * `setEntry_insert`, `setEntry_replace`, `setEntry_remove`: each way through
    `ext4_xattr_set_entry` changes the map at the key only.
-/
import Lwext4.Xattr

namespace Lwext4

open Lib

namespace Xattr

variable {L : Layout} {a a' : Area} {k key : Key} {v w value : List Byte} {e f here : Entry}
  {es pre post : List Entry} {mem : Mem} {m n offs start : ℕ}

/-! ## Sizes and tables -/

theorem le_xattrSize (n : ℕ) : n ≤ xattrSize n := by
  unfold xattrSize
  omega

theorem xattrSize_pos (h : n ≠ 0) : 0 < xattrSize n := by
  unfold xattrSize
  omega

@[simp] theorem xattrSize_zero : xattrSize 0 = 0 := rfl

@[simp] theorem tableEnd_nil : tableEnd offs [] = offs := rfl

theorem tableEnd_cons : tableEnd offs (e :: es) = tableEnd (offs + xattrLen e.key.name.length) es := by
  simp [tableEnd, Nat.add_assoc]

theorem tableEnd_append : tableEnd offs (pre ++ post) = tableEnd (tableEnd offs pre) post := by
  simp [tableEnd, Nat.add_assoc]

theorem le_tableEnd : offs ≤ tableEnd offs es := Nat.le_add_right ..

theorem tableEnd_eq_add (offs : ℕ) (es : List Entry) : tableEnd offs es = offs + tableEnd 0 es := by
  simp [tableEnd]

/-- Only the keys matter for the length of the table. -/
theorem tableEnd_map {g : Entry → Entry} (hg : ∀ e, (g e).key = e.key) :
    tableEnd offs (es.map g) = tableEnd offs es := by
  simp [tableEnd, List.map_map, Function.comp_def, hg]

theorem minOffs_cons : minOffs start (e :: es) =
    minOffs (if e.valueSize ≠ 0 ∧ e.valueOffs < start then e.valueOffs else start) es := rfl

theorem minOffs_le_start : minOffs start es ≤ start := by
  induction es generalizing start with
  | nil => exact le_rfl
  | cons e es ih =>
    rw [minOffs_cons]
    refine ih.trans ?_
    split_ifs with h
    · exact h.2.le
    · exact le_rfl

theorem minOffs_le (he : e ∈ es) (hne : e.valueSize ≠ 0) : minOffs start es ≤ e.valueOffs := by
  induction es generalizing start with
  | nil => exact absurd he (by simp)
  | cons f es ih =>
    rw [minOffs_cons]
    rcases List.mem_cons.1 he with rfl | he
    · refine minOffs_le_start.trans ?_
      split_ifs with h
      · exact le_rfl
      · exact Nat.le_of_not_lt fun hlt => h ⟨hne, hlt⟩
    · exact ih he

/-- A bound of the start and of every value is a bound of the lowest offset. -/
theorem le_minOffs (hs : m ≤ start) (h : ∀ e ∈ es, e.valueSize ≠ 0 → m ≤ e.valueOffs) :
    m ≤ minOffs start es := by
  induction es generalizing start with
  | nil => exact hs
  | cons e es ih =>
    rw [minOffs_cons]
    refine ih ?_ fun f hf => h f (List.mem_cons_of_mem _ hf)
    split_ifs with hlt
    · exact h e List.mem_cons_self hlt.1
    · exact hs

/-! ## Finding an entry -/

theorem findEntry_some (h : findEntry key es = some (pre, here, post)) :
    es = pre ++ here :: post ∧ here.key = key ∧ ∀ e ∈ pre, e.key ≠ key := by
  induction es generalizing pre with
  | nil => exact absurd h (by simp [findEntry])
  | cons e es ih =>
    rw [findEntry] at h
    split_ifs at h with hk
    · obtain ⟨rfl, rfl, rfl⟩ : [] = pre ∧ e = here ∧ es = post := by simpa using h
      exact ⟨rfl, hk, fun e he => absurd he (by simp)⟩
    · obtain ⟨⟨pre', here', post'⟩, hf, hr⟩ := Option.map_eq_some_iff.1 h
      obtain ⟨rfl, rfl, rfl⟩ : e :: pre' = pre ∧ here' = here ∧ post' = post := by simpa using hr
      obtain ⟨rfl, hkey, hpre⟩ := ih hf
      refine ⟨rfl, hkey, fun f hf => ?_⟩
      rcases List.mem_cons.1 hf with rfl | hf
      · exact hk
      · exact hpre f hf

/-- The entries around one of a table. -/
theorem mem_of_split (hes : es = pre ++ here :: post) : ∀ e ∈ pre ++ post, e ∈ es := by
  intro e he
  rw [hes]
  rcases List.mem_append.1 he with he | he
  · exact List.mem_append_left _ he
  · exact List.mem_append_right _ (List.mem_cons_of_mem _ he)

theorem mem_split (hes : es = pre ++ here :: post) (he : e ∈ es) : e = here ∨ e ∈ pre ++ post := by
  rw [hes] at he
  rcases List.mem_append.1 he with he | he
  · exact .inr (List.mem_append_left _ he)
  · exact (List.mem_cons.1 he).imp_right (List.mem_append_right _)

/-- Without one of its entries a table is shorter. -/
theorem tableEnd_split_le (hes : es = pre ++ here :: post) :
    tableEnd offs (pre ++ post) ≤ tableEnd offs es := by
  rw [hes, tableEnd_append, tableEnd_append, tableEnd_cons, tableEnd_eq_add _ post,
    tableEnd_eq_add (_ + _) post]
  omega

theorem findEntry_none : findEntry key es = none ↔ ∀ e ∈ es, e.key ≠ key := by
  induction es with
  | nil => simp [findEntry]
  | cons e es ih =>
    rw [findEntry, List.forall_mem_cons]
    split_ifs with hk
    · simp [hk]
    · rw [Option.map_eq_none_iff, ih]
      exact ⟨fun h => ⟨hk, h⟩, fun h => h.2⟩

/-! ## The map of an area -/

/-- The area has the value for the key. -/
def Holds (a : Area) (k : Key) (v : List Byte) : Prop :=
  ∃ e ∈ a.entries, e.key = k ∧ a.mem.read e.valueOffs e.valueSize = v

/-- The values do not overlap, unless one is empty. -/
def Apart (e f : Entry) : Prop := e.valueSize ≠ 0 → f.valueSize ≠ 0 →
  e.valueOffs + xattrSize e.valueSize ≤ f.valueOffs ∨ f.valueOffs + xattrSize f.valueSize ≤ e.valueOffs

/-- The table and the values of an area do not overlap, and the keys are
    different. -/
structure Wf (L : Layout) (a : Area) : Prop where
  header : a.header = true
  names : ∀ e ∈ a.entries, e.key.name.length < 256
  nodup : (a.entries.map Entry.key).Nodup
  table : tableEnd L.first a.entries + 4 ≤ L.size
  room : ∀ e ∈ a.entries, e.valueSize ≠ 0 →
    tableEnd L.first a.entries + 4 ≤ e.valueOffs ∧ e.valueOffs + xattrSize e.valueSize ≤ L.size
  apart : a.entries.Pairwise Apart

theorem Apart.symm (h : Apart e f) : Apart f e := fun hf he => (h he hf).symm

theorem Wf.key_eq (h : Wf L a) (he : e ∈ a.entries) (hf : f ∈ a.entries) (hk : e.key = f.key) : e = f :=
  List.inj_on_of_nodup_map h.nodup he hf hk

/-- A key has one value. -/
theorem Wf.holds_unique (h : Wf L a) (hv : Holds a k v) (hw : Holds a k w) : v = w := by
  obtain ⟨e, he, rfl, rfl⟩ := hv
  obtain ⟨f, hf, hk, rfl⟩ := hw
  rw [h.key_eq he hf hk.symm]

theorem Wf.tableEnd_le_minOffs (h : Wf L a) : tableEnd L.first a.entries + 4 ≤ minOffs L.size a.entries :=
  le_minOffs h.table fun e he hne => (h.room e he hne).1

/-- A new area holds nothing. -/
theorem wf_nil (hsize : L.first + 4 ≤ L.size) (mem : Mem) : Wf L ⟨true, [], mem⟩ where
  header := rfl
  names := fun e he => absurd he (by simp)
  nodup := List.nodup_nil
  table := hsize
  room := fun e he => absurd he (by simp)
  apart := .nil

theorem entriesValid_empty (h : entriesValid L offs es = true) (he : e ∈ es) (h0 : e.valueSize = 0) :
    e.valueOffs = 0 := by
  induction es generalizing offs with
  | nil => exact absurd he (by simp)
  | cons f es ih =>
    rw [entriesValid] at h
    split_ifs at h with h1 h2 h3
    rcases List.mem_cons.1 he with rfl | he
    · exact not_not.1 fun hne => h1 ⟨h0, hne⟩
    · exact ih h he

/-- In a valid area an empty value has the offset 0. -/
theorem isValid_empty (h : isValid L a = true) (he : e ∈ a.entries) (h0 : e.valueSize = 0) :
    e.valueOffs = 0 := by
  rw [isValid, Bool.and_eq_true, Bool.and_eq_true] at h
  exact entriesValid_empty h.1.2 he h0

/-! ## Storing a value -/

theorem read_putValue (mem : Mem) (m : ℕ) (hpos : value ≠ [] → xattrSize value.length < m) :
    (putValue mem (newOffs m value.length) value).read (newOffs m value.length) value.length = value := by
  cases hv : value with
  | nil => rfl
  | cons b bs =>
    have hne : value ≠ [] := by rw [hv]; exact List.cons_ne_nil b bs
    have hlen : value.length ≠ 0 := fun h => hne (List.length_eq_zero_iff.1 h)
    rw [← hv, newOffs, if_pos hlen, putValue, if_pos (Nat.sub_ne_zero_of_lt (hpos hne)),
      Mem.read_fill_of_disjoint (.inl le_rfl), Mem.read_write]

/-- Outside the room of the new value nothing changes. -/
theorem read_putValue_of_apart (mem : Mem) (hsize : xattrSize value.length ≤ m)
    (h : value ≠ [] → n ≠ 0 → offs + n ≤ m - xattrSize value.length ∨ m ≤ offs) :
    (putValue mem (newOffs m value.length) value).read offs n = mem.read offs n := by
  cases hv : value with
  | nil => rfl
  | cons b bs =>
    have hne : value ≠ [] := by rw [hv]; exact List.cons_ne_nil b bs
    have hlen : value.length ≠ 0 := fun h => hne (List.length_eq_zero_iff.1 h)
    have hle := le_xattrSize value.length
    rw [← hv, newOffs, if_pos hlen, putValue]
    split_ifs
    · cases n with
      | zero => rfl
      | succ n =>
        have hcase := h hne (Nat.succ_ne_zero n)
        rw [Mem.read_fill_of_disjoint (by omega), Mem.read_write_of_disjoint (by omega)]
    · rfl

/-! ## Dropping a value -/

@[simp] theorem shift_key (e : Entry) : (e.shift m n).key = e.key := by
  unfold Entry.shift
  split_ifs <;> rfl

@[simp] theorem shift_valueSize (e : Entry) : (e.shift m n).valueSize = e.valueSize := by
  unfold Entry.shift
  split_ifs <;> rfl

theorem shift_valueOffs (e : Entry) :
    (e.shift m n).valueOffs = if e.valueOffs < m then e.valueOffs + n else e.valueOffs := by
  unfold Entry.shift
  split_ifs <;> rfl

/-- The entry whose value is dropped: an empty value is at offset 0, another
    one above the lowest offset. -/
structure Dropped (m : ℕ) (here : Entry) : Prop where
  empty : here.valueSize = 0 → here.valueOffs = 0
  pos : 0 < m
  le : here.valueSize ≠ 0 → m ≤ here.valueOffs

/-- The lowest offset once the value is dropped. -/
def offsAfter (m : ℕ) (here : Entry) : ℕ :=
  if here.valueOffs ≠ 0 then m + xattrSize here.valueSize else m

theorem Dropped.offsAfter_eq (hd : Dropped m here) : offsAfter m here = m + xattrSize here.valueSize := by
  unfold offsAfter
  split_ifs with h
  · rfl
  · have h0 : here.valueSize = 0 := by
      by_contra hne
      have hle := hd.le hne
      have hpos := hd.pos
      omega
    rw [h0, xattrSize_zero, Nat.add_zero]

/-- The other values stay what they are, and leave room below. -/
theorem Dropped.read (hd : Dropped m here) (mem : Mem) (he : e.valueSize ≠ 0 → m ≤ e.valueOffs)
    (hap : Apart e here) :
    (dropValue mem m here).read (e.shift here.valueOffs (xattrSize here.valueSize)).valueOffs e.valueSize =
      mem.read e.valueOffs e.valueSize := by
  by_cases h0 : e.valueSize = 0
  · rw [h0]
    rfl
  have hle := he h0
  have hpad := le_xattrSize e.valueSize
  rw [shift_valueOffs]
  by_cases hh : here.valueSize = 0
  · rw [dropValue, if_neg (not_not.2 (hd.empty hh)), hd.empty hh, if_neg (Nat.not_lt_zero _)]
  · have hmle := hd.le hh
    have hpos := hd.pos
    have hcase := hap h0 hh
    rw [dropValue, if_pos (by omega)]
    split_ifs with hlt
    · obtain ⟨c, hc⟩ := Nat.exists_eq_add_of_le hle
      rw [Mem.read_fill_of_disjoint (by omega), hc, show m + c + xattrSize here.valueSize =
        m + xattrSize here.valueSize + c by omega, Mem.read_move (by omega)]
    · rw [Mem.read_fill_of_disjoint (by omega), Mem.read_move_of_disjoint (by omega)]

theorem Dropped.room (hd : Dropped m here) (he : e.valueSize ≠ 0 → m ≤ e.valueOffs) (hap : Apart e here)
    (hend : e.valueSize ≠ 0 → e.valueOffs + xattrSize e.valueSize ≤ n)
    (hhere : here.valueSize ≠ 0 → here.valueOffs + xattrSize here.valueSize ≤ n) (hne : e.valueSize ≠ 0) :
    offsAfter m here ≤ (e.shift here.valueOffs (xattrSize here.valueSize)).valueOffs ∧
      (e.shift here.valueOffs (xattrSize here.valueSize)).valueOffs + xattrSize e.valueSize ≤ n := by
  have hle := he hne
  have hend := hend hne
  rw [hd.offsAfter_eq, shift_valueOffs]
  by_cases hh : here.valueSize = 0
  · rw [hh, xattrSize_zero, hd.empty hh]
    split_ifs
    · omega
    · omega
  · have hcase := hap hne hh
    have hmle := hd.le hh
    have hhere := hhere hh
    have hpos := xattrSize_pos hh
    have hpos' := xattrSize_pos hne
    split_ifs with hlt
    · omega
    · omega

theorem Dropped.apart (hd : Dropped m here) (he : Apart e here) (hf : Apart f here) (hef : Apart e f) :
    Apart (e.shift here.valueOffs (xattrSize here.valueSize))
      (f.shift here.valueOffs (xattrSize here.valueSize)) := by
  intro h1 h2
  rw [shift_valueSize] at h1 h2
  rw [shift_valueSize, shift_valueSize, shift_valueOffs, shift_valueOffs]
  have hcase := hef h1 h2
  by_cases hh : here.valueSize = 0
  · rw [hh, xattrSize_zero, hd.empty hh]
    split_ifs <;> omega
  · have he := he h1 hh
    have hf := hf h2 hh
    have hpos := xattrSize_pos hh
    have hpos1 := xattrSize_pos h1
    have hpos2 := xattrSize_pos h2
    split_ifs <;> omega

/-! ## Placing a value -/

/-- The entry of a value that is stored below the offset `m`. -/
def newEntry (key : Key) (m : ℕ) (value : List Byte) : Entry := ⟨key, newOffs m value.length, value.length⟩

/-- The table does not change its length when the value of an entry does. -/
theorem tableEnd_replaced (hes : es = pre ++ here :: post) {g : Entry → Entry}
    (hg : ∀ e, (g e).key = e.key) : tableEnd offs (pre.map g ++ newEntry here.key m value ::
      post.map g) = tableEnd offs es := by
  rw [hes, tableEnd_append, tableEnd_append, tableEnd_cons, tableEnd_cons, tableEnd_map hg,
    tableEnd_map hg]
  rfl

theorem newEntry_room (hroom : offs + 4 + xattrSize value.length ≤ m) (hm : m ≤ n)
    (hne : (newEntry key m value).valueSize ≠ 0) : offs + 4 ≤ (newEntry key m value).valueOffs ∧
      (newEntry key m value).valueOffs + xattrSize (newEntry key m value).valueSize ≤ n := by
  have hlen : value.length ≠ 0 := hne
  have hoffs : (newEntry key m value).valueOffs = m - xattrSize value.length := if_pos hlen
  have hsize : (newEntry key m value).valueSize = value.length := rfl
  rw [hoffs, hsize]
  omega

theorem newEntry_apart (hroom : xattrSize value.length ≤ m) (he : e.valueSize ≠ 0 → m ≤ e.valueOffs) :
    Apart (newEntry key m value) e := by
  intro h1 h2
  have hlen : value.length ≠ 0 := h1
  have hle := he h2
  have hoffs : (newEntry key m value).valueOffs = m - xattrSize value.length := if_pos hlen
  have hsize : (newEntry key m value).valueSize = value.length := rfl
  rw [hoffs, hsize]
  omega

theorem newEntry_read (mem : Mem) (hroom : xattrSize value.length ≤ m)
    (he : e.valueSize ≠ 0 → m ≤ e.valueOffs) :
    (putValue mem (newOffs m value.length) value).read e.valueOffs e.valueSize =
      mem.read e.valueOffs e.valueSize :=
  read_putValue_of_apart mem hroom fun _ hne => .inr (he hne)

/-! ## `ext4_xattr_set_entry` -/

/-- What the other entries have to do with the one that is found. -/
theorem Wf.split (h : Wf L a) (hes : a.entries = pre ++ here :: post) :
    (∀ e ∈ pre ++ post, e ∈ a.entries ∧ Apart e here ∧ e.key ≠ here.key) ∧ here ∈ a.entries := by
  have hap := h.apart
  have hnd := h.nodup
  rw [hes, List.pairwise_append, List.pairwise_cons] at hap
  rw [hes, List.map_append, List.map_cons, List.nodup_append', List.nodup_cons] at hnd
  obtain ⟨-, ⟨hpost, -⟩, hcross⟩ := hap
  obtain ⟨-, ⟨hnot, -⟩, hdisj⟩ := hnd
  refine ⟨fun e he => ?_, by rw [hes]; simp⟩
  rcases List.mem_append.1 he with he | he
  · refine ⟨by rw [hes]; simp [he], hcross e he here List.mem_cons_self, fun hk => ?_⟩
    exact hdisj (List.mem_map_of_mem he) (by rw [hk]; exact List.mem_cons_self)
  · refine ⟨by rw [hes]; simp [he], (hpost e he).symm, fun hk => hnot ?_⟩
    rw [← hk]
    exact List.mem_map_of_mem he

theorem Wf.dropped (h : Wf L a) (hv : isValid L a = true) (hh : here ∈ a.entries) :
    Dropped (minOffs L.size a.entries) here where
  empty := isValid_empty hv hh
  pos := (Nat.succ_pos _).trans_le ((Nat.le_add_left 4 _).trans h.tableEnd_le_minOffs)
  le := minOffs_le hh

/-- The area without the entry `here`: the others, whose values have been moved. -/
def Area.without (a : Area) (L : Layout) (pre : List Entry) (here : Entry) (post : List Entry) :
    Area where
  header := a.header
  entries := (pre ++ post).map (Entry.shift here.valueOffs (xattrSize here.valueSize))
  mem := dropValue a.mem (minOffs L.size a.entries) here

/-- **An entry is taken out**: the others keep their values, and leave room below. -/
theorem Wf.without (h : Wf L a) (hv : isValid L a = true) (hes : a.entries = pre ++ here :: post) :
    Wf L (a.without L pre here post) ∧
      (∀ e ∈ (a.without L pre here post).entries, e.valueSize ≠ 0 →
        offsAfter (minOffs L.size a.entries) here ≤ e.valueOffs) ∧
      ∀ k w, Holds (a.without L pre here post) k w ↔ k ≠ here.key ∧ Holds a k w := by
  obtain ⟨hothers, hhere⟩ := h.split hes
  have hd := h.dropped hv hhere
  have hmt := h.tableEnd_le_minOffs
  have hmle : ∀ e ∈ pre ++ post, e.valueSize ≠ 0 → minOffs L.size a.entries ≤ e.valueOffs :=
    fun e he hne => minOffs_le (hothers e he).1 hne
  unfold Area.without
  generalize hm : minOffs L.size a.entries = m at *
  obtain ⟨sh, hsh⟩ : ∃ sh, sh = Entry.shift here.valueOffs (xattrSize here.valueSize) := ⟨_, rfl⟩
  have hkey : ∀ e, (sh e).key = e.key := fun e => by rw [hsh, shift_key]
  have htable : tableEnd L.first ((pre ++ post).map sh) ≤ tableEnd L.first a.entries := by
    rw [tableEnd_map hkey]
    exact tableEnd_split_le hes
  have hfloor : ∀ f ∈ pre ++ post, f.valueSize ≠ 0 → offsAfter m here ≤ (sh f).valueOffs ∧
      (sh f).valueOffs + xattrSize f.valueSize ≤ L.size := by
    intro f hf hne
    obtain ⟨hfa, hap, -⟩ := hothers f hf
    rw [hsh]
    exact hd.room (hmle f hf) hap (fun h0 => (h.room f hfa h0).2)
      (fun h0 => (h.room here hhere h0).2) hne
  have hsize : ∀ e, (sh e).valueSize = e.valueSize := fun e => by rw [hsh, shift_valueSize]
  have hread : ∀ e ∈ pre ++ post, (dropValue a.mem m here).read (sh e).valueOffs (sh e).valueSize =
      a.mem.read e.valueOffs e.valueSize := by
    intro e he
    rw [hsize, hsh]
    exact hd.read a.mem (hmle e he) (hothers e he).2.1
  rw [← hsh]
  refine ⟨⟨h.header, ?_, ?_, ?_, ?_, ?_⟩, ?_, fun k w => ?_⟩
  · intro e he
    obtain ⟨f, hf, rfl⟩ := List.mem_map.1 he
    rw [hkey]
    exact h.names f (hothers f hf).1
  · have hnd := h.nodup
    rw [List.map_map, show Entry.key ∘ sh = Entry.key from funext hkey]
    refine hnd.sublist ?_
    rw [hes]
    exact ((List.sublist_cons_self here post).append_left pre).map Entry.key
  · exact (Nat.add_le_add_right htable 4).trans h.table
  · intro e he hne
    obtain ⟨f, hf, rfl⟩ := List.mem_map.1 he
    rw [hsize] at hne
    obtain ⟨hlow, hend⟩ := hfloor f hf hne
    rw [hd.offsAfter_eq] at hlow
    rw [hsize]
    show tableEnd L.first ((pre ++ post).map sh) + 4 ≤ _ ∧ _
    omega
  · rw [List.pairwise_map]
    have hap := h.apart
    rw [hes] at hap
    refine (hap.sublist ((List.sublist_cons_self here post).append_left pre)).imp_of_mem ?_
    intro e f he hf hef
    rw [hsh]
    exact hd.apart (hothers e he).2.1 (hothers f hf).2.1 hef
  · intro e he hne
    obtain ⟨f, hf, rfl⟩ := List.mem_map.1 he
    rw [hsize] at hne
    exact (hfloor f hf hne).1
  · constructor
    · rintro ⟨e, he, rfl, rfl⟩
      obtain ⟨f, hf, rfl⟩ := List.mem_map.1 he
      rw [hkey]
      exact ⟨(hothers f hf).2.2, f, (hothers f hf).1, rfl, (hread f hf).symm⟩
    · rintro ⟨hne, e, he, rfl, rfl⟩
      have hmem : e ∈ pre ++ post :=
        (mem_split hes he).resolve_left fun heq => hne (congrArg Entry.key heq)
      exact ⟨sh e, List.mem_map_of_mem hmem, hkey e, hread e hmem⟩

/-- **An entry is put in**, with its value right below all others. -/
theorem Wf.put (h : Wf L a) (hes : a.entries = pre ++ post) (hm : m ≤ L.size)
    (hfloor : ∀ e ∈ a.entries, e.valueSize ≠ 0 → m ≤ e.valueOffs)
    (hlen : key.name.length < 256) (hnone : ∀ e ∈ a.entries, e.key ≠ key)
    (hroom : tableEnd L.first (pre ++ newEntry key m value :: post) + 4 + xattrSize value.length ≤ m)
    {b : Area} (hb : b = ⟨a.header, pre ++ newEntry key m value :: post,
      putValue a.mem (newOffs m value.length) value⟩) :
    Wf L b ∧ ∀ k w, Holds b k w ↔ if k = key then w = value else Holds a k w := by
  subst hb
  have hmem : ∀ {e}, e ∈ pre ++ newEntry key m value :: post ↔
      e ∈ a.entries ∨ e = newEntry key m value := by
    intro e
    rw [hes]
    simp only [List.mem_append, List.mem_cons]
    tauto
  have htable : tableEnd L.first a.entries ≤
      tableEnd L.first (pre ++ newEntry key m value :: post) := by
    rw [hes]
    exact tableEnd_split_le rfl
  have hpad : xattrSize value.length ≤ m := by omega
  have hread : ∀ e ∈ a.entries,
      (putValue a.mem (newOffs m value.length) value).read e.valueOffs e.valueSize =
        a.mem.read e.valueOffs e.valueSize := fun e he => newEntry_read a.mem hpad (hfloor e he)
  have hnew : (putValue a.mem (newOffs m value.length) value).read (newOffs m value.length)
      value.length = value := read_putValue a.mem m fun _ => by omega
  refine ⟨⟨h.header, ?_, ?_, ?_, ?_, ?_⟩, fun k w => ?_⟩
  · intro e he
    rcases hmem.1 he with he | rfl
    · exact h.names e he
    · exact hlen
  · have hnd := h.nodup
    have hnot : key ∉ a.entries.map Entry.key := fun hk => by
      obtain ⟨e, he, hek⟩ := List.mem_map.1 hk
      exact hnone e he hek
    rw [hes, List.map_append] at hnd hnot
    rw [List.map_append, List.map_cons]
    exact List.nodup_middle.2 (List.nodup_cons.2 ⟨hnot, hnd⟩)
  · show tableEnd L.first (pre ++ newEntry key m value :: post) + 4 ≤ L.size
    omega
  · intro e he hne
    rcases hmem.1 he with he | rfl
    · have hend := (h.room e he hne).2
      have hle := hfloor e he hne
      show tableEnd L.first (pre ++ newEntry key m value :: post) + 4 ≤ _ ∧ _
      omega
    · exact newEntry_room hroom hm hne
  · have hap := h.apart
    rw [hes] at hap
    refine List.pairwise_middle (fun h => h.symm) |>.2 (List.pairwise_cons.2 ⟨fun e he => ?_, hap⟩)
    exact newEntry_apart hpad (hfloor e (by rwa [hes]))
  · split_ifs with hk
    · subst hk
      constructor
      · rintro ⟨e, he, hek, rfl⟩
        rcases hmem.1 he with he | rfl
        · exact absurd hek (hnone e he)
        · exact hnew
      · rintro rfl
        exact ⟨newEntry k m w, hmem.2 (.inr rfl), rfl, hnew⟩
    · constructor
      · rintro ⟨e, he, hek, rfl⟩
        rcases hmem.1 he with he | rfl
        · exact ⟨e, he, hek, (hread e he).symm⟩
        · exact absurd hek.symm hk
      · rintro ⟨e, he, hek, rfl⟩
        exact ⟨e, hmem.2 (.inl he), hek, hread e he⟩

/-- **The entry is removed**. -/
theorem setEntry_remove (h : Wf L a) (hv : isValid L a = true)
    (hf : findEntry key a.entries = some (pre, here, post))
    (hs : setEntry L a key none (some (pre, here, post)) = .ok a') :
    Wf L a' ∧ ∀ k w, Holds a' k w ↔ k ≠ key ∧ Holds a k w := by
  obtain ⟨hes, rfl, -⟩ := findEntry_some hf
  obtain ⟨hwf, -, hholds⟩ := h.without hv hes
  obtain rfl : a.without L pre here post = a' := by
    rw [setEntry, ← List.map_append] at hs
    exact Except.ok.inj hs
  exact ⟨hwf, hholds⟩

/-- **A new entry is inserted**. -/
theorem setEntry_insert (h : Wf L a) (hf : findEntry key a.entries = none) (hlen : key.name.length < 256)
    (hs : setEntry L a key (some value) none = .ok a') :
    Wf L a' ∧ ∀ k w, Holds a' k w ↔ if k = key then w = value else Holds a k w := by
  have hstored : key.stored = key := by
    rw [Key.stored, Nat.mod_eq_of_lt (show key.name.length < 2 ^ 8 from hlen), List.take_length]
  have hmt := h.tableEnd_le_minOffs
  rw [setEntry, freeSpace, hstored] at hs
  simp only at hs
  split_ifs at hs with hfull
  refine h.put (List.append_nil _).symm minOffs_le_start (fun e he hne => minOffs_le he hne) hlen
    (findEntry_none.1 hf) ?_ (Except.ok.inj hs).symm
  rw [tableEnd_append, tableEnd_cons, tableEnd_nil]
  show tableEnd L.first a.entries + xattrLen key.name.length + 4 + _ ≤ _
  omega

/-- **The value of an entry is replaced**. -/
theorem setEntry_replace (h : Wf L a) (hv : isValid L a = true)
    (hf : findEntry key a.entries = some (pre, here, post))
    (hs : setEntry L a key (some value) (some (pre, here, post)) = .ok a') :
    Wf L a' ∧ ∀ k w, Holds a' k w ↔ if k = key then w = value else Holds a k w := by
  obtain ⟨hes, rfl, -⟩ := findEntry_some hf
  obtain ⟨hothers, hhere⟩ := h.split hes
  have hd := h.dropped hv hhere
  have hmt := h.tableEnd_le_minOffs
  obtain ⟨hwf, hfloor, hholds⟩ := h.without hv hes
  have hentries : (a.without L pre here post).entries =
      pre.map (Entry.shift here.valueOffs (xattrSize here.valueSize)) ++
        post.map (Entry.shift here.valueOffs (xattrSize here.valueSize)) := List.map_append
  rw [setEntry] at hs
  by_cases hfull : freeSpace L a (some (pre, here, post)) <
      xattrSize value.length + xattrLen here.key.name.length
  · rw [if_pos hfull] at hs
    cases hs
  rw [if_neg hfull] at hs
  rw [freeSpace] at hfull
  have hsize : offsAfter (minOffs L.size a.entries) here ≤ L.size := by
    rw [hd.offsAfter_eq]
    by_cases h0 : here.valueSize = 0
    · rw [h0, xattrSize_zero, Nat.add_zero]
      exact minOffs_le_start
    · have hle := hd.le h0
      have hend := (h.room here hhere h0).2
      omega
  have hnone : ∀ e ∈ (a.without L pre here post).entries, e.key ≠ here.key := by
    intro e he
    obtain ⟨f, hf, rfl⟩ := List.mem_map.1 he
    rw [shift_key]
    exact (hothers f hf).2.2
  have hroom : tableEnd L.first
      (pre.map (Entry.shift here.valueOffs (xattrSize here.valueSize)) ++
        newEntry here.key (offsAfter (minOffs L.size a.entries) here) value ::
          post.map (Entry.shift here.valueOffs (xattrSize here.valueSize))) + 4 +
        xattrSize value.length ≤ offsAfter (minOffs L.size a.entries) here := by
    rw [tableEnd_replaced hes shift_key, hd.offsAfter_eq]
    omega
  obtain ⟨hwf', hput⟩ := hwf.put hentries hsize hfloor (h.names here hhere) hnone hroom
    (Except.ok.inj hs).symm
  refine ⟨hwf', fun k w => (hput k w).trans ?_⟩
  split_ifs with hk
  · exact Iff.rfl
  · rw [hholds]
    exact and_iff_right hk

/-! ## The map as a function -/

/-- The value of a key. -/
def Area.lookup (a : Area) (k : Key) : Option (List Byte) :=
  (findEntry k a.entries).map fun found => a.mem.read found.2.1.valueOffs found.2.1.valueSize

theorem Wf.lookup_eq_some (h : Wf L a) : a.lookup k = some v ↔ Holds a k v := by
  rw [Area.lookup]
  cases hf : findEntry k a.entries with
  | none =>
    have hnone := findEntry_none.1 hf
    exact ⟨fun h => absurd h (by simp), fun ⟨e, he, hk, _⟩ => absurd hk (hnone e he)⟩
  | some found =>
    obtain ⟨pre, here, post⟩ := found
    obtain ⟨hes, hk, -⟩ := findEntry_some hf
    have hholds : Holds a k (a.mem.read here.valueOffs here.valueSize) :=
      ⟨here, by rw [hes]; simp, hk, rfl⟩
    constructor
    · intro hv
      obtain rfl := Option.some_inj.1 hv
      exact hholds
    · intro hv
      rw [h.holds_unique hv hholds]
      rfl

theorem lookup_eq_none : a.lookup k = none ↔ findEntry k a.entries = none := Option.map_eq_none_iff

theorem lookup_ne_none : a.lookup k ≠ none ↔ k ∈ a.entries.map Entry.key := by
  rw [Ne, lookup_eq_none, findEntry_none]
  simp

/-- Two areas are the same map if they hold the same. -/
theorem Wf.lookup_update (h : Wf L a) (h' : Wf L a') {new : Option (List Byte)}
    (hh : ∀ k w, Holds a' k w ↔ if k = key then new = some w else Holds a k w) :
    a'.lookup = Function.update a.lookup key new := by
  funext k
  refine Option.ext fun w => ?_
  rw [h'.lookup_eq_some, hh]
  by_cases hk : k = key
  · rw [if_pos hk, hk, Function.update_self]
  · rw [if_neg hk, Function.update_of_ne hk, h.lookup_eq_some]

/-- **Setting a value** changes the map at its key. -/
theorem setEntry_set (h : Wf L a) (hv : isValid L a = true) (hlen : key.name.length < 256)
    (hs : setEntry L a key (some value) (findEntry key a.entries) = .ok a') :
    Wf L a' ∧ a'.lookup = Function.update a.lookup key (some value) := by
  cases hf : findEntry key a.entries with
  | none =>
    rw [hf] at hs
    obtain ⟨h', hh⟩ := setEntry_insert h hf hlen hs
    exact ⟨h', h.lookup_update h' fun k w => by simp only [hh, Option.some_inj, eq_comm]⟩
  | some found =>
    obtain ⟨pre, here, post⟩ := found
    rw [hf] at hs
    obtain ⟨h', hh⟩ := setEntry_replace h hv hf hs
    exact ⟨h', h.lookup_update h' fun k w => by simp only [hh, Option.some_inj, eq_comm]⟩

/-- **Removing an entry** changes the map at its key. -/
theorem setEntry_erase (h : Wf L a) (hv : isValid L a = true) :
    ∃ a', setEntry L a key none (findEntry key a.entries) = .ok a' ∧ Wf L a' ∧
      a'.lookup = Function.update a.lookup key none := by
  cases hf : findEntry key a.entries with
  | none =>
    refine ⟨a, rfl, h, ?_⟩
    rw [← lookup_eq_none.2 hf, Function.update_eq_self]
  | some found =>
    obtain ⟨pre, here, post⟩ := found
    obtain ⟨a', ha'⟩ : ∃ a', setEntry L a key none (some (pre, here, post)) = .ok a' := ⟨_, rfl⟩
    obtain ⟨h', hh⟩ := setEntry_remove h hv hf ha'
    refine ⟨a', ha', h', h.lookup_update h' fun k w => ?_⟩
    rw [hh]
    split_ifs with hk
    · simp [hk]
    · simp [hk]

/-- The entry fits in exactly if there is room. -/
theorem setEntry_isOk {found : Search} : (∃ a', setEntry L a key (some value) found = .ok a') ↔
    xattrSize value.length + xattrLen key.name.length ≤ freeSpace L a found := by
  cases found with
  | none =>
    rw [setEntry]
    split_ifs with hfull
    · exact ⟨fun ⟨_, h⟩ => absurd h (by simp), fun h => absurd h (Nat.not_le.2 hfull)⟩
    · exact ⟨fun _ => Nat.le_of_not_lt hfull, fun _ => ⟨_, rfl⟩⟩
  | some found =>
    obtain ⟨pre, here, post⟩ := found
    by_cases hfull : freeSpace L a (some (pre, here, post)) < xattrSize value.length + xattrLen key.name.length
    · refine ⟨fun ⟨_, h⟩ => ?_, fun h => absurd h (Nat.not_le.2 hfull)⟩
      exact absurd ((if_pos hfull).symm.trans h) (by simp)
    · exact ⟨fun _ => Nat.le_of_not_lt hfull, fun _ => ⟨_, if_neg hfull⟩⟩

theorem setEntry_error {found : Search}
    (h : freeSpace L a found < xattrSize value.length + xattrLen key.name.length) :
    setEntry L a key (some value) found = .error .ENOSPC := by
  cases found with
  | none => exact if_pos h
  | some found => exact if_pos h

theorem isValid_nil (hsize : L.first + 4 ≤ L.size) (mem : Mem) : isValid L ⟨true, [], mem⟩ = true := by
  rw [isValid, Bool.and_eq_true, Bool.and_eq_true]
  exact ⟨⟨rfl, rfl⟩, decide_eq_true (Nat.add_le_add_right hsize _)⟩

@[simp] theorem lookup_nil {b : Bool} (mem : Mem) : (⟨b, [], mem⟩ : Area).lookup k = none := rfl

end Xattr

end Lwext4
