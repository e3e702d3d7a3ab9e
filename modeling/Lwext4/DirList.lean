/-
  What reading a directory returns.

  The entries of a directory are packed from its beginning to its size, none
  of them across the end of a block (`DirFile.Lists`).  The length field of an
  entry has 16 bits, so that the one entry that fills a block of 64 KiB is
  stored with length 0, and the iterator takes it for an error.

  Main results.
  * `DirFile.entryNext_at`: a call from an entry returns it and moves the
    handle to the next entry in use, if no 64 KiB entry comes before it.
  * `DirFile.listing_iff`: reading lists the entries in use exactly when the
    first entry of the directory is one and no entry in use lies in or behind
    a 64 KiB record.
-/
import Lwext4.DirBlock
import Lwext4.DirIter

namespace Lwext4

open Lib

/-- The entry fills a block of 64 KiB. -/
def DirEnt.Wide (e : DirEnt) : Prop := e.recLen = 2 ^ 16

instance (e : DirEnt) : Decidable e.Wide := inferInstanceAs (Decidable (_ = _))

/-- What a caller is told of the entry. -/
def DirEnt.direntry (e : DirEnt) : Direntry :=
  { inode := e.inode, entryLength := e.recLen, nameLength := e.name.length, inodeType := e.ftype,
    name := e.name }

/-- The name with its inode and type. -/
def Direntry.link (de : Direntry) : DirLink := ⟨de.name, de.inode, de.inodeType⟩

namespace DirFile

variable (d : DirFile)

/-- The block that holds position `p` of the directory. -/
def block (p : ℕ) : Mem := d.disk (d.fblock (p / d.sb.blockSize))

/-- The entry in `[p, p')` of the directory; in use or not, it has room for
    the name it gives. -/
structure EntPos (p p' : ℕ) (e : DirEnt) : Prop where
  stop : p' = p + e.recLen
  inBlock : p % d.sb.blockSize + e.recLen ≤ d.sb.blockSize
  dvd : 4 ∣ e.recLen
  inode : dirEnGetInode (d.block p) (p % d.sb.blockSize) = e.inode
  len : dirEnGetEntryLen (d.block p) (p % d.sb.blockSize) = u16 e.recLen
  ftype : dirEnGetInodeType d.sb (d.block p) (p % d.sb.blockSize) = e.ftype
  nameLen : dirEnGetNameLen d.sb (d.block p) (p % d.sb.blockSize) = e.name.length
  name : dirEnName (d.block p) (p % d.sb.blockSize) e.name.length = e.name
  room : 8 + e.name.length ≤ e.recLen
  short : e.name.length ≤ direntryNameSize

/-- The entries of the directory, in use or not. -/
structure Lists (es : List DirEnt) : Prop where
  dvd : 4 ∣ d.sb.blockSize
  blockSize : d.sb.blockSize ≤ 2 ^ 16
  pos : 0 < d.size
  size : d.size < 2 ^ 32
  mapped : ∀ k, k * d.sb.blockSize < d.size → d.fblock k ≠ 0
  packed : Packed d.EntPos 0 d.size es

/-- The entries returned by calls from the handle on, up to the `NULL` that
    all further calls return. -/
inductive Listing : ExtDir → List Direntry → Prop
  | done {dir} : d.entryNext dir = some (.ok (none, dir)) → Listing dir []
  | more {dir dir' de l} : d.entryNext dir = some (.ok (some de, dir')) → Listing dir' l →
      Listing dir (de :: l)

/-- The iterator stands at position `p`. -/
def iterAt (p : ℕ) (curr : Option ℕ) : DirIter :=
  { curr := curr, currOff := p, lbId := d.fblock (p / d.sb.blockSize) }

/-- The block the iterator holds is that of its position. -/
def Holds (it : DirIter) : Prop :=
  it.lbId = 0 ∨ it.currOff < d.size ∧ it.lbId = d.fblock (it.currOff / d.sb.blockSize)

variable {d} {p p' : ℕ} {e : DirEnt} {es : List DirEnt} {it : DirIter}

theorem Listing.unique {dir : ExtDir} {l l' : List Direntry} (h : d.Listing dir l)
    (h' : d.Listing dir l') : l = l' := by
  induction h generalizing l' with
  | done h =>
    cases h' with
    | done _ => rfl
    | more h' _ =>
      rw [h] at h'
      cases h'
  | more h _ ih =>
    cases h' with
    | done h' =>
      rw [h] at h'
      cases h'
    | more h' hl' =>
      rw [h] at h'
      cases h'
      rw [ih hl']

/-! ## Seeking -/

theorem EntPos.wide_or_lt (h : d.EntPos p p' e) (hbs : d.sb.blockSize ≤ 2 ^ 16) :
    e.Wide ∨ e.recLen < 2 ^ 16 := by
  have := h.inBlock
  rw [DirEnt.Wide]
  omega

theorem Lists.aligned (h : d.Lists es) {l : List DirEnt} (hp : Packed d.EntPos p d.size l)
    (hle : p ≤ d.size) (hsize : 4 ∣ d.size) : 4 ∣ p % d.sb.blockSize := by
  have hdvd : 4 ∣ d.size - p := hp.dvd fun i j e he => by
    rw [he.stop, Nat.add_sub_cancel_left]
    exact he.dvd
  have hp4 : 4 ∣ p := by omega
  exact (Nat.dvd_mod_iff h.dvd).2 hp4

theorem Lists.size_dvd (h : d.Lists es) : 4 ∣ d.size := by
  have hdvd := h.packed.dvd fun i j e he => by
    rw [he.stop, Nat.add_sub_cancel_left]
    exact he.dvd
  rwa [Nat.sub_zero] at hdvd

/-- **Seeking an entry** finds it, unless it fills a block of 64 KiB. -/
theorem iteratorSeek_entry (h : d.Lists es) {l : List DirEnt}
    (hp : Packed d.EntPos p d.size (e :: l)) (hit : d.Holds it) :
    d.iteratorSeek it p =
      if e.Wide then (.error (.rc Errno.EIO), d.iterAt p none)
      else (.ok (), d.iterAt p (some (p % d.sb.blockSize))) := by
  have hle := hp.le
  have hal := h.aligned hp hle h.size_dvd
  cases hp with
  | cons he hlt hp =>
    have hle' := hp.le
    have hlt' : p < d.size := by omega
    have hsize := h.size
    have hidx : u32 (p / d.sb.blockSize) = p / d.sb.blockSize :=
      u32_of_lt (Nat.lt_of_le_of_lt (Nat.div_le_self _ _) (by omega))
    have hblk : (if it.lbId = 0 ∨ it.currOff / d.sb.blockSize ≠ p / d.sb.blockSize then
        d.fblock (p / d.sb.blockSize) else it.lbId) = d.fblock (p / d.sb.blockSize) := by
      by_cases hc : it.lbId = 0 ∨ it.currOff / d.sb.blockSize ≠ p / d.sb.blockSize
      · rw [if_pos hc]
      · rw [if_neg hc]
        obtain ⟨h0, hcur⟩ := not_or.1 hc
        obtain h0' | ⟨-, hlb⟩ := hit
        · exact absurd h0' h0
        · rw [hlb, not_not.1 hcur]
    have hin := he.inBlock
    have hroom := he.room
    have hmod : p % d.sb.blockSize % 4 = 0 := Nat.mod_eq_zero_of_dvd hal
    have hlen := he.len
    have hname := he.nameLen
    rw [block] at hlen hname
    simp only [iteratorSeek, if_neg (Nat.not_le.2 hlt'), hidx, hblk, iteratorSet, hmod, ne_eq,
      not_true_eq_false, if_false, if_neg (show ¬ d.sb.blockSize - 8 < p % d.sb.blockSize by omega),
      hlen, hname, iterAt]
    obtain hw | hn := he.wide_or_lt h.blockSize
    · have hu : u16 e.recLen = 0 := by rw [hw, u16, Nat.mod_self]
      rw [if_pos hw, hu, if_neg (by omega), if_pos (by omega)]
    · have hu : u16 e.recLen = e.recLen := Nat.mod_eq_of_lt hn
      rw [if_neg (show ¬ e.Wide from hn.ne), hu, if_neg (by omega), if_neg (by omega)]

theorem iteratorSeek_end (it : DirIter) :
    d.iteratorSeek it d.size = (.ok (), { curr := none, currOff := d.size, lbId := 0 }) := by
  rw [iteratorSeek, if_pos le_rfl]

/-! ## The next entry in use -/

/-- The entries in use that calls get to from behind an entry. -/
def seen (es : List DirEnt) : List DirEnt :=
  (es.takeWhile fun e => ¬ e.Wide).filter fun e => e.inode ≠ 0

theorem seen_wide (h : e.Wide) (es : List DirEnt) : seen (e :: es) = [] := by
  simp [seen, h]

theorem seen_unused (h : ¬ e.Wide) (h0 : e.inode = 0) (es : List DirEnt) :
    seen (e :: es) = seen es := by
  simp [seen, h, h0]

theorem seen_used (h : ¬ e.Wide) (h0 : e.inode ≠ 0) (es : List DirEnt) :
    seen (e :: es) = e :: seen es := by
  simp [seen, h, h0]

theorem packed_head {l : List DirEnt} (hp : Packed d.EntPos p d.size (e :: l)) :
    d.EntPos p (p + e.recLen) e := by
  cases hp with
  | cons he _ _ =>
    obtain rfl := he.stop
    exact he

theorem holds_iterAt {curr : Option ℕ} (hp : p < d.size) : d.Holds (d.iterAt p curr) :=
  .inr ⟨hp, rfl⟩

/-- One round of the loop seeks the position behind the entry. -/
theorem iteratorNext_step (h : d.Lists es) (he : d.EntPos p p' e) (hp : p' ≤ d.size) (hw : ¬ e.Wide)
    (fuel : ℕ) :
    d.iteratorNext (fuel + 1) (d.iterAt p (some (p % d.sb.blockSize))) =
      match d.iteratorSeek (d.iterAt p (some (p % d.sb.blockSize))) p' with
      | (r, it) =>
        match it.curr with
        | none => some (r, it)
        | some en =>
          if dirEnGetInode (d.disk it.lbId) en ≠ 0 then some (r, it)
          else
            match r with
            | .error e => some (.error e, it)
            | .ok () => d.iteratorNext fuel it := by
  have hlt := (he.wide_or_lt h.blockSize).resolve_left hw
  have hskip : dirEnGetEntryLen (d.disk (d.fblock (p / d.sb.blockSize))) (p % d.sb.blockSize) =
      e.recLen := he.len.trans (Nat.mod_eq_of_lt hlt)
  have hpos : u64 (p + e.recLen) = p' := by
    rw [← he.stop]
    have := h.size
    exact u64_of_lt (by omega)
  rw [iteratorNext]
  simp only [iterAt, hskip, hpos]
  rfl

/-- Where the iterator stands behind an entry that `es` follow: at the first
    entry in use that it gets to. -/
inductive Reached (d : DirFile) (es : List DirEnt) (it : DirIter) : Prop
  | last : it.curr = none → seen es = [] → Reached d es it
  | found {e l} : it.curr.isSome = true → Packed d.EntPos it.currOff d.size (e :: l) → ¬ e.Wide →
      seen es = e :: seen l → l.length < es.length → Reached d es it

/-- **The next entry in use**, by induction on the entries that follow. -/
theorem iteratorNext_spec (h : d.Lists es) {l : List DirEnt}
    (hp : Packed d.EntPos p d.size (e :: l)) (hw : ¬ e.Wide) {fuel : ℕ} (hfuel : l.length < fuel) :
    ∃ r it', d.iteratorNext fuel (d.iterAt p (some (p % d.sb.blockSize))) = some (r, it') ∧
      Reached d l it' := by
  induction l generalizing p e fuel with
  | nil =>
    obtain _ | fuel := fuel
    · exact absurd hfuel (Nat.not_lt_zero _)
    cases hp with
    | cons he hlt hp =>
      cases hp with
      | nil =>
        refine ⟨.ok (), { curr := none, currOff := d.size, lbId := 0 }, ?_, .last rfl rfl⟩
        rw [iteratorNext_step h he le_rfl hw, iteratorSeek_end]
  | cons e' l ih =>
    obtain _ | fuel := fuel
    · exact absurd hfuel (Nat.not_lt_zero _)
    cases hp with
    | cons he hlt hp =>
      have hle := hp.le
      rw [iteratorNext_step h he hle hw, iteratorSeek_entry h hp (holds_iterAt (by omega))]
      by_cases hw' : e'.Wide
      · rw [if_pos hw']
        exact ⟨_, _, rfl, .last rfl (seen_wide hw' l)⟩
      · rw [if_neg hw']
        have hino : dirEnGetInode (d.disk (d.fblock (_ / d.sb.blockSize))) (_ % d.sb.blockSize) =
            e'.inode := (packed_head hp).inode
        simp only [iterAt, hino]
        by_cases h0 : e'.inode = 0
        · obtain ⟨r, it', hrun, hr⟩ := ih hp hw' (Nat.lt_of_succ_lt_succ hfuel)
          refine ⟨r, it', ?_, ?_⟩
          · rw [if_neg (not_not.2 h0)]
            exact hrun
          · cases hr with
            | last hc hs => exact .last hc ((seen_unused hw' h0 l).trans hs)
            | found hc hq hn hs hlen =>
              exact .found hc hq hn ((seen_unused hw' h0 l).trans hs) (Nat.lt_succ_of_lt hlen)
        · rw [if_pos h0]
          exact ⟨_, _, rfl, .found rfl hp hw' (seen_used hw' h0 l) (Nat.lt_succ_self _)⟩


/-! ## One call after the other -/

/-- **One call** from an entry returns it and leaves the handle at the next
    entry in use. -/
theorem entryNext_at (h : d.Lists es) {l : List DirEnt} (hp : Packed d.EntPos p d.size (e :: l))
    (hw : ¬ e.Wide) : ∃ it : DirIter, Reached d l it ∧
      d.entryNext ⟨p⟩ = some (.ok (some e.direntry,
        ⟨if it.curr.isSome then it.currOff else dirEntryOffsetTerm⟩)) := by
  have he := packed_head hp
  have hle := hp.le
  have hfuel : l.length < d.size + 1 := by
    have := hp.length_le
    rw [List.length_cons] at this
    omega
  obtain ⟨r, it', hrun, hr⟩ := iteratorNext_spec h hp hw hfuel
  refine ⟨it', hr, ?_⟩
  have hterm : p ≠ dirEntryOffsetTerm := by
    have := h.size
    rw [dirEntryOffsetTerm]
    omega
  have hlt := (he.wide_or_lt h.blockSize).resolve_left hw
  have hlen := he.len.trans (Nat.mod_eq_of_lt hlt)
  have hino := he.inode
  have hty := he.ftype
  have hnl := he.nameLen
  have hname := he.name
  rw [block] at hlen hino hty hnl hname
  rw [entryNext, if_neg hterm, iteratorInit, iteratorSeek_entry h hp (.inl rfl), if_neg hw]
  simp only [iterAt] at hrun ⊢
  simp only [hlen, hino, hty, hnl, hname, hrun, if_neg (Nat.not_lt.2 he.short), DirEnt.direntry]

/-- **Reading on** from an entry returns it and the entries in use behind it,
    up to the first that fills a block of 64 KiB. -/
theorem listing_at (h : d.Lists es) {l : List DirEnt} (hp : Packed d.EntPos p d.size (e :: l))
    (hw : ¬ e.Wide) : d.Listing ⟨p⟩ ((e :: seen l).map DirEnt.direntry) := by
  induction hn : l.length using Nat.strong_induction_on generalizing p e l with
  | _ n ih =>
    obtain ⟨it, hr, hcall⟩ := entryNext_at h hp hw
    refine .more hcall ?_
    cases hr with
    | last hc hs =>
      rw [hc, hs]
      exact .done (by rw [entryNext]; rfl)
    | found hc hq hn' hs hlen =>
      rw [if_pos hc, hs]
      exact ih _ (hn ▸ hlen) hq hn' rfl

/-- What a new or rewound handle lists. -/
def shown : List DirEnt → List DirEnt
  | [] => []
  | e :: es => if e.Wide then [] else e :: seen es

theorem listing_start (h : d.Lists es) : d.Listing ⟨0⟩ ((shown es).map DirEnt.direntry) := by
  obtain _ | ⟨e, l⟩ := es
  · exact absurd rfl (h.packed.ne_nil h.pos)
  · rw [shown]
    by_cases hw : e.Wide
    · rw [if_pos hw]
      refine .done ?_
      rw [entryNext, if_neg (by decide), iteratorInit, iteratorSeek_entry h h.packed (.inl rfl),
        if_pos hw]
    · rw [if_neg hw]
      exact listing_at h h.packed hw

/-! ## When every entry in use is listed -/

/-- The entry at the beginning is in use, or fills a block of 64 KiB. -/
def FirstUsed (es : List DirEnt) : Prop := ∀ e ∈ es.head?, e.inode ≠ 0 ∨ e.Wide

/-- From the first entry on that fills a block of 64 KiB nothing is in use. -/
def NoneBehindWide (es : List DirEnt) : Prop :=
  ∀ e ∈ es.dropWhile fun e => ¬ e.Wide, e.inode = 0

/-- The handle has returned nothing since it was opened or rewound. -/
def AtStart (dir : ExtDir) : Prop := dir = ExtDir.opened ∨ ∃ used : ExtDir, dir = used.rewind

theorem AtStart.eq {dir : ExtDir} (h : AtStart dir) : dir = ⟨0⟩ := by
  obtain rfl | ⟨used, rfl⟩ := h
  · rfl
  · rfl

/-- Reading the directory returns every entry in use once with its name, inode
    and type, nothing else, and then `NULL`. -/
def ListsUsed (d : DirFile) (es : List DirEnt) (dir : ExtDir) : Prop :=
  ∃ l : List Direntry, d.Listing dir l ∧ (l.map Direntry.link).Perm (links es)

theorem links_seen (es : List DirEnt) : (seen es).map (Direntry.link ∘ DirEnt.direntry) =
    links (es.takeWhile fun e => ¬ e.Wide) := rfl

theorem links_eq_nil {es : List DirEnt} : links es = [] ↔ ∀ e ∈ es, e.inode = 0 := by
  simp [links]

theorem links_split (es : List DirEnt) : links es =
    links (es.takeWhile fun e => ¬ e.Wide) ++ links (es.dropWhile fun e => ¬ e.Wide) := by
  rw [← links_append, List.takeWhile_append_dropWhile]

/-- **Reading a directory** returns every entry in use exactly once, and
    nothing else, if and only if its first entry is in use and there is none in
    use in or behind a record of 64 KiB. -/
theorem listing_iff (h : d.Lists es) {dir : ExtDir} (hdir : AtStart dir) :
    ListsUsed d es dir ↔ FirstUsed es ∧ NoneBehindWide es := by
  obtain rfl := hdir.eq
  have hstart := listing_start h
  have hiff : ListsUsed d es ⟨0⟩ ↔
      ((shown es).map (Direntry.link ∘ DirEnt.direntry)).Perm (links es) := by
    constructor
    · rintro ⟨l, hl, hperm⟩
      rwa [hl.unique hstart, List.map_map] at hperm
    · intro hperm
      exact ⟨_, hstart, by rwa [List.map_map]⟩
  rw [hiff]
  obtain _ | ⟨e, l⟩ := es
  · exact absurd rfl (h.packed.ne_nil h.pos)
  rw [shown]
  by_cases hw : e.Wide
  · -- nothing is listed
    rw [if_pos hw, List.map_nil, List.nil_perm, links_eq_nil]
    constructor
    · intro h0
      exact ⟨fun e' he' => .inr (Option.some.inj he' ▸ hw), fun x hx =>
        h0 x ((List.dropWhile_sublist _).subset hx)⟩
    · rintro ⟨-, hnone⟩ x hx
      refine hnone x ?_
      rwa [List.dropWhile_cons_of_neg (by simp [hw])]
  · rw [if_neg hw, List.map_cons, links_seen]
    have hdrop : (e :: l).dropWhile (fun e => ¬ e.Wide) = l.dropWhile fun e => ¬ e.Wide :=
      List.dropWhile_cons_of_pos (by simp [hw])
    by_cases h0 : e.inode = 0
    · -- the unused entry at the beginning is listed
      constructor
      · intro hperm
        have hmem : Direntry.link e.direntry ∈ links (e :: l) := hperm.subset (.head _)
        rw [links_cons_unused l h0] at hmem
        obtain ⟨x, hx, heq⟩ := List.mem_map.1 hmem
        have hx0 : x.inode ≠ 0 := by simpa using (List.mem_filter.1 hx).2
        exact absurd ((congrArg DirLink.inode heq).trans h0) hx0
      · rintro ⟨hfirst, -⟩
        exact absurd h0 ((hfirst e rfl).resolve_right hw)
    · rw [links_cons_live l h0, links_split l]
      have hfirst : FirstUsed (e :: l) := fun e' he' => .inl (Option.some.inj he' ▸ h0)
      have hcons : ((Direntry.link ∘ DirEnt.direntry) e) = ⟨e.name, e.inode, e.ftype⟩ := rfl
      rw [hcons, List.perm_cons, NoneBehindWide, hdrop, ← links_eq_nil]
      constructor
      · intro hperm
        have hlen := hperm.length_eq
        rw [List.length_append] at hlen
        exact ⟨hfirst, List.length_eq_zero_iff.1 (by omega)⟩
      · rintro ⟨-, hnil⟩
        rw [hnil, List.append_nil]

/-! ## A directory with a block of 64 KiB -/

/-- A superblock with blocks of 64 KiB. -/
def wideSb : DirSb := { blockSize := 2 ^ 16, oldRev := false, metadataCsum := false }

/-- The directory `2` with a file in a second block, as the code writes it. -/
def wideDir : DirFile where
  sb := wideSb
  size := 2 ^ 17
  fblock k := k + 1
  disk lba :=
    if lba = 1 then
      dirEnWrite wideSb (dirEnWrite wideSb (fun _ => 0) 0 12 ⟨2, 0x4000⟩ [46]) 12 65524
        ⟨2, 0x4000⟩ [46, 46]
    else dirEnWrite wideSb (fun _ => 0) 0 (2 ^ 16) ⟨12, 0x8000⟩ [97]

def wideEntries : List DirEnt :=
  [⟨2, 12, 2, [46]⟩, ⟨2, 65524, 2, [46, 46]⟩, ⟨12, 2 ^ 16, 1, [97]⟩]

theorem wideDir_lists : wideDir.Lists wideEntries where
  dvd := by decide
  blockSize := le_rfl
  pos := by decide
  size := by decide
  mapped k _ := Nat.succ_ne_zero k
  packed := by
    refine .cons (b := 12) ⟨rfl, ?_, ?_, ?_, ?_, ?_, ?_, ?_, ?_, ?_⟩ (by decide)
      (.cons (b := 2 ^ 16) ⟨rfl, ?_, ?_, ?_, ?_, ?_, ?_, ?_, ?_, ?_⟩ (by decide)
        (.cons (b := 2 ^ 17) ⟨rfl, ?_, ?_, ?_, ?_, ?_, ?_, ?_, ?_, ?_⟩ (by decide) .nil))
    all_goals decide +kernel

/-- The file in the second block is not listed. -/
theorem listing_iff_wideDir : ¬ ListsUsed wideDir wideEntries ExtDir.opened :=
  mt (listing_iff wideDir_lists (.inl rfl)).1 fun h =>
    absurd (h.2 ⟨12, 2 ^ 16, 1, [97]⟩ (by simp [wideEntries, DirEnt.Wide])) (by decide)

/-- **An entry in use can be missed** by reading its directory. -/
theorem listing_misses : ¬ ∀ (d : DirFile) (es : List DirEnt) (dir : ExtDir), d.Lists es →
    AtStart dir → ListsUsed d es dir := by
  intro h
  obtain ⟨l, hl, hperm⟩ := h wideDir wideEntries ExtDir.opened wideDir_lists (.inl rfl)
  rw [hl.unique (listing_start wideDir_lists), List.map_map] at hperm
  have hlen := hperm.length_eq
  exact absurd hlen (by decide +kernel)

end DirFile

end Lwext4
