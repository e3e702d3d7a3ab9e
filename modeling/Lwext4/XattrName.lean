/-
  Names of extended attributes: the table of prefixes in `ext4_xattr.c`, both
  directions through it, and the listing of `ext4_listxattr`.

  The prefixes of the access control lists take no suffix, but
  `ext4_extract_xattr_name` does not ask for the end of the string behind them:
  it then returns no name and the length of one.  A listed attribute is printed
  with the prefix of its index, whatever the name behind it makes of the whole.

  Main result: `names_roundTrip_iff`.
-/
import Lwext4.Xattr

namespace Lwext4

open Lib

namespace Xattr

/-- The bytes of a string. -/
def chars (s : String) : List Byte := s.toList.map fun c => BitVec.ofNat 8 c.toNat

/-- `struct xattr_prefix`. -/
structure XattrPrefix where
  text : List Byte
  nameIndex : ℕ
  deriving DecidableEq

/-- `prefix_tbl`. -/
def prefixTbl : List XattrPrefix :=
  [⟨chars "user.", 1⟩,
   ⟨chars "system.posix_acl_access", 2⟩,
   ⟨chars "system.posix_acl_default", 3⟩,
   ⟨chars "trusted.", 4⟩,
   ⟨chars "security.", 6⟩,
   ⟨chars "system.", 7⟩,
   ⟨chars "system.richacl", 8⟩]

/-- What `ext4_extract_xattr_name` returns: the pointer to the rest of the name,
    where it is not `NULL`, and `name_index`, where it is written. -/
structure Extracted where
  found : Bool
  nameIndex : Option ℕ
  name : Option (List Byte)
  nameLen : ℕ
  deriving DecidableEq

/-- `require_name`: the prefix ends in a dot. -/
def XattrPrefix.requireName (p : XattrPrefix) : Bool := p.text.getLast? = some 0x2E#8

/-- The body of the loop in `ext4_extract_xattr_name`, once the prefix matches. -/
def extractAt (fullName : List Byte) (p : XattrPrefix) : Extracted :=
  let nameLen := fullName.length - p.text.length
  if nameLen = 0 ∧ p.requireName then ⟨false, some p.nameIndex, none, nameLen⟩
  else if p.requireName then ⟨true, some p.nameIndex, some (fullName.drop p.text.length), nameLen⟩
  else ⟨true, some p.nameIndex, none, nameLen⟩

/-- The loop of `ext4_extract_xattr_name`. -/
def extractLoop (fullName : List Byte) : List XattrPrefix → Extracted
  | [] => ⟨false, none, none, 0⟩
  | p :: tbl =>
    if p.text.length ≤ fullName.length ∧ p.text = fullName.take p.text.length then
      extractAt fullName p
    else extractLoop fullName tbl

/-- `ext4_extract_xattr_name`. -/
def extractXattrName (fullName : List Byte) : Extracted :=
  if fullName.length = 0 then ⟨false, none, none, 0⟩ else extractLoop fullName prefixTbl

/-- The loop of `ext4_get_xattr_name_prefix`: the prefix, or `NULL`, and its length. -/
def namePrefixLoop (nameIndex : ℕ) : List XattrPrefix → Option (List Byte) × ℕ
  | [] => (none, 0)
  | p :: tbl =>
    if p.nameIndex = nameIndex then (some p.text, p.text.length) else namePrefixLoop nameIndex tbl

/-- `ext4_get_xattr_name_prefix`. -/
def getXattrNamePrefix (nameIndex : ℕ) : Option (List Byte) × ℕ :=
  namePrefixLoop nameIndex prefixTbl

/-- `struct ext4_xattr_list_entry`, an attribute as `ext4_xattr_list` gives it. -/
structure ListEntry where
  nameIndex : ℕ
  name : List Byte
  deriving DecidableEq

/-- The bytes that are copied for one entry: prefix, name and a final zero. -/
def printEntry (entry : ListEntry) : List Byte :=
  let (pfx, prefixLen) := getXattrNamePrefix entry.nameIndex
  (pfx.getD []).take prefixLen ++ entry.name ++ [0]

/-- The loop of `ext4_listxattr`: what is copied, and `list_size`.  `list` says
    that there is a buffer. -/
def listxattrLoop (list : Bool) : (size : ℕ) → List ListEntry → Except Errno (List Byte × ℕ)
  | _, [] => .ok ([], 0)
  | size, entry :: entries =>
    let len := (getXattrNamePrefix entry.nameIndex).2 + entry.name.length + 1
    if size ≠ 0 ∧ size < len then .error .ERANGE
    else if list ∧ size ≠ 0 then
      (listxattrLoop list (size - len) entries).map fun (out, n) =>
        (printEntry entry ++ out, len + n)
    else (listxattrLoop list size entries).map fun (out, n) => (out, len + n)

/-- `ext4_listxattr` where `ext4_xattr_list` gives `entries`: what is copied,
    and `ret_size`, where it is written.  `memory` says that there is memory for
    the entries. -/
def listxattr (entries : List ListEntry) (memory list : Bool) (size : ℕ) :
    Except Errno (List Byte × Option ℕ) :=
  if entries = [] then .ok ([], none)
  else if !memory then .error .ENOMEM
  else (listxattrLoop list size entries).map fun (out, n) => (out, some n)

/-- The strings in a buffer, each with its final zero. -/
def strings : List Byte → List (List Byte)
  | [] => []
  | b :: bs =>
    if b = 0 then [] :: strings bs
    else match strings bs with
      | [] => []
      | s :: ss => (b :: s) :: ss

/-! ## What is promised -/

/-- The name behind the prefix.  There is none at `NULL`, unless it is empty. -/
def Extracted.rest (e : Extracted) : Option (List Byte) :=
  match e.name with
  | some name => some (name.take e.nameLen)
  | none => if e.nameLen = 0 then some [] else none

/-- What is found in the string are a prefix and a name that make it up. -/
def RoundTrips (fullName : List Byte) : Prop :=
  (extractXattrName fullName).found = true →
    ∃ index pfx rest, (extractXattrName fullName).nameIndex = some index ∧
      (getXattrNamePrefix index).1 = some pfx ∧ (extractXattrName fullName).rest = some rest ∧
        pfx ++ rest = fullName

/-- Two different strings, if both are accepted, are different attributes. -/
def Distinguishes (s t : List Byte) : Prop :=
  s ≠ t → (extractXattrName s).found = true → (extractXattrName t).found = true →
    extractXattrName s ≠ extractXattrName t

/-- The string is accepted, as the name of the attribute. -/
def Denotes (fullName : List Byte) (entry : ListEntry) : Prop :=
  (extractXattrName fullName).found = true ∧
    (extractXattrName fullName).nameIndex = some entry.nameIndex ∧
      (extractXattrName fullName).rest = some entry.name

/-- Each name that is printed denotes the attribute listed in its place. -/
def ListsBack (entries : List ListEntry) : Prop :=
  ∀ memory list size out n, listxattr entries memory list size = .ok (out, n) →
    ∃ es, es <+: entries ∧ List.Forall₂ Denotes (strings out) es

/-! ## When it is kept -/

/-- The prefixes that take no suffix and are reached. -/
def aclPrefixes : List (List Byte) :=
  [chars "system.posix_acl_access", chars "system.posix_acl_default"]

/-- The attribute has a name that is read back as it was printed. -/
def ListEntry.Listable (entry : ListEntry) : Prop :=
  0 ∉ entry.name ∧
    (entry.nameIndex ∈ [1, 4, 6] ∧ entry.name ≠ [] ∨
      entry.nameIndex ∈ [2, 3] ∧ entry.name = [] ∨
      entry.nameIndex = 7 ∧ entry.name ≠ [] ∧ ¬chars "posix_acl_access" <+: entry.name ∧
        ¬chars "posix_acl_default" <+: entry.name)

/-! ## The prefix that is found -/

variable {s t out : List Byte} {p q : XattrPrefix} {entry : ListEntry} {entries : List ListEntry}

/-- The first prefix in the table that the string begins with. -/
def firstPrefix (fullName : List Byte) : Option XattrPrefix :=
  prefixTbl.find? fun p => decide (p.text <+: fullName)

theorem memcmp_iff : p.text.length ≤ s.length ∧ p.text = s.take p.text.length ↔ p.text <+: s := by
  rw [List.prefix_iff_eq_take, and_iff_right_iff_imp]
  intro h
  rw [h, List.length_take]
  exact Nat.min_le_right _ _

theorem extractLoop_eq (s : List Byte) : ∀ tbl : List XattrPrefix,
    extractLoop s tbl = ((tbl.find? fun p => decide (p.text <+: s)).map (extractAt s)).getD
      ⟨false, none, none, 0⟩
  | [] => rfl
  | p :: tbl => by
    rw [extractLoop, List.find?_cons]
    by_cases h : p.text <+: s
    · rw [if_pos (memcmp_iff.mpr h), decide_eq_true h]
      rfl
    · rw [if_neg (mt memcmp_iff.mp h), decide_eq_false h]
      exact extractLoop_eq s tbl

theorem firstPrefix_some (h : firstPrefix s = some p) : p ∈ prefixTbl ∧ p.text <+: s :=
  ⟨List.mem_of_find?_eq_some h, by simpa using List.find?_some h⟩

/-- No prefix is empty. -/
theorem text_ne_nil : ∀ p ∈ prefixTbl, p.text ≠ [] := by decide

theorem extract_some (h : firstPrefix s = some p) : extractXattrName s = extractAt s p := by
  have hs : s ≠ [] := by
    rintro rfl
    obtain ⟨hmem, hp⟩ := firstPrefix_some h
    exact text_ne_nil p hmem (List.prefix_nil.mp hp)
  have hfind : (prefixTbl.find? fun p => decide (p.text <+: s)) = some p := h
  rw [extractXattrName, if_neg (mt List.eq_nil_of_length_eq_zero hs), extractLoop_eq, hfind]
  rfl

/-- What is found has a prefix in the table. -/
theorem found_prefix (h : (extractXattrName s).found = true) : ∃ p, firstPrefix s = some p := by
  rw [extractXattrName] at h
  split at h
  · cases h
  · rw [extractLoop_eq] at h
    cases hp : firstPrefix s with
    | some p => exact ⟨p, rfl⟩
    | none =>
      have hfind : (prefixTbl.find? fun p => decide (p.text <+: s)) = none := hp
      rw [hfind] at h
      cases h

/-- Where the prefixes before `p` do not go together with it, it is the first. -/
theorem firstPrefix_eq (hp : p.text <+: s)
    (h : (prefixTbl.find? fun q => decide (q.text <+: p.text ∨ p.text <+: q.text)) = some p) :
    firstPrefix s = some p := by
  obtain ⟨-, pre, post, htbl, hpre⟩ := List.find?_eq_some_iff_append.mp h
  refine List.find?_eq_some_iff_append.mpr ⟨decide_eq_true hp, pre, post, htbl, fun q hq => ?_⟩
  have hnot := hpre q hq
  simp only [Bool.not_eq_true', decide_eq_false_iff_not] at hnot ⊢
  exact fun hqs => hnot (List.prefix_or_prefix_of_prefix hqs hp)

/-- The prefix `system.` hides the one behind it. -/
theorem firstPrefix_index (h : firstPrefix s = some p) : p.nameIndex ≠ 8 := by
  obtain ⟨hp, i, hi, rfl, hpre⟩ := List.find?_eq_some_iff_getElem.mp h
  intro h8
  have hlast : ∀ i : Fin 7, (prefixTbl.get i).nameIndex = 8 → i = 6 := by decide
  have hi6 : i = 6 := congrArg Fin.val (hlast ⟨i, hi⟩ h8)
  subst hi6
  have hsystem : chars "system." <+: s := by
    have hrich : chars "system." <+: chars "system.richacl" := by decide
    exact hrich.trans (of_decide_eq_true hp)
  have hnot := hpre 5 (by decide)
  have htext : prefixTbl[5].text = chars "system." := rfl
  rw [htext, decide_eq_true hsystem] at hnot
  cases hnot

/-- An index has one prefix. -/
theorem getXattrNamePrefix_eq : ∀ p ∈ prefixTbl,
    getXattrNamePrefix p.nameIndex = (some p.text, p.text.length) := by decide

theorem text_of_index (hp : p ∈ prefixTbl) (hq : q ∈ prefixTbl) (h : p.nameIndex = q.nameIndex) :
    p.text = q.text := by
  have hpq := (getXattrNamePrefix_eq p hp).symm.trans (h ▸ getXattrNamePrefix_eq q hq)
  simpa using congrArg Prod.fst hpq

theorem prefixTbl_inj (hp : p ∈ prefixTbl) (hq : q ∈ prefixTbl) (h : p.nameIndex = q.nameIndex) :
    p = q := by
  obtain ⟨pt, pi⟩ := p
  obtain ⟨qt, qi⟩ := q
  obtain rfl : pt = qt := text_of_index hp hq h
  obtain rfl : pi = qi := h
  rfl

/-- The prefixes without a suffix are those of the access control lists. -/
theorem acl_of_not_requireName (h : firstPrefix s = some p) (hreq : p.requireName = false) :
    p.text ∈ aclPrefixes := by
  have hall : ∀ p ∈ prefixTbl, p.requireName = false → p.text ∈ aclPrefixes ∨ p.nameIndex = 8 := by
    decide
  exact (hall p (firstPrefix_some h).1 hreq).resolve_right (firstPrefix_index h)

/-- They are found wherever they stand. -/
theorem firstPrefix_acl {a : List Byte} (ha : a ∈ aclPrefixes) :
    ∃ p, p.text = a ∧ p.requireName = false ∧ ∀ s, a <+: s → firstPrefix s = some p := by
  rw [aclPrefixes, List.mem_cons, List.mem_singleton] at ha
  obtain rfl | rfl := ha
  · exact ⟨⟨chars "system.posix_acl_access", 2⟩, rfl, by decide,
      fun s h => firstPrefix_eq h (by decide)⟩
  · exact ⟨⟨chars "system.posix_acl_default", 3⟩, rfl, by decide,
      fun s h => firstPrefix_eq h (by decide)⟩

/-! ## What is extracted at a prefix -/

theorem extractAt_nameIndex (s : List Byte) (p : XattrPrefix) :
    (extractAt s p).nameIndex = some p.nameIndex := by
  simp only [extractAt]
  split_ifs <;> rfl

theorem extractAt_nameLen (s : List Byte) (p : XattrPrefix) :
    (extractAt s p).nameLen = s.length - p.text.length := by
  simp only [extractAt]
  split_ifs <;> rfl

theorem extractAt_found (s : List Byte) (p : XattrPrefix) :
    (extractAt s p).found = true ↔ p.requireName = false ∨ s.length - p.text.length ≠ 0 := by
  unfold extractAt
  cases hreq : p.requireName <;> by_cases hlen : s.length - p.text.length = 0 <;> simp [hlen]

theorem extractAt_name (hreq : p.requireName = true) (h : (extractAt s p).found = true) :
    (extractAt s p).name = some (s.drop p.text.length) := by
  have hlen := ((extractAt_found s p).mp h).resolve_left (by simp [hreq])
  rw [extractAt]
  simp only [hreq, hlen, false_and, if_false, if_true]

theorem extractAt_acl (hreq : p.requireName = false) : (extractAt s p).name = none := by
  rw [extractAt]
  simp only [hreq, Bool.false_eq_true, and_false, if_false]

/-- The rest of the name at a prefix that wants one. -/
theorem rest_requireName (hreq : p.requireName = true)
    (h : (extractAt s p).found = true) : (extractAt s p).rest = some (s.drop p.text.length) := by
  have hle : (s.drop p.text.length).length ≤ s.length - p.text.length := by rw [List.length_drop]
  rw [Extracted.rest, extractAt_name hreq h, extractAt_nameLen]
  simp only [List.take_of_length_le hle]

/-- At a prefix without one, the string has to end. -/
theorem rest_acl (hp : p.text <+: s) (hreq : p.requireName = false) :
    (extractAt s p).rest = if s = p.text then some [] else none := by
  have hlen : s.length - p.text.length = 0 ↔ s = p.text := by
    constructor
    · intro h
      exact (hp.eq_of_length_le (by omega)).symm
    · rintro rfl
      exact Nat.sub_self _
  rw [Extracted.rest, extractAt_acl hreq, extractAt_nameLen]
  simp only [hlen]

/-! ## Strings -/

/-- The string goes on behind a prefix that takes no suffix. -/
def ExtendsAcl (s : List Byte) : Prop := ∃ a ∈ aclPrefixes, a <+: s ∧ s ≠ a

/-- **When a string is made up by what is found in it.** -/
theorem roundTrips_iff (s : List Byte) : RoundTrips s ↔ ¬ExtendsAcl s := by
  constructor
  · rintro h ⟨a, ha, has, hne⟩
    obtain ⟨p, rfl, hreq, hp⟩ := firstPrefix_acl ha
    rw [RoundTrips, extract_some (hp s has)] at h
    obtain ⟨index, pfx, rest, -, -, hrest, -⟩ := h ((extractAt_found s p).mpr (.inl hreq))
    rw [rest_acl has hreq, if_neg hne] at hrest
    cases hrest
  · intro h hfound
    obtain ⟨p, hp⟩ := found_prefix hfound
    obtain ⟨hmem, hpre⟩ := firstPrefix_some hp
    rw [extract_some hp] at hfound ⊢
    refine ⟨p.nameIndex, p.text, s.drop p.text.length, extractAt_nameIndex s p,
      by rw [getXattrNamePrefix_eq p hmem], ?_, (List.prefix_append_drop hpre).symm⟩
    cases hreq : p.requireName with
    | true => exact rest_requireName hreq hfound
    | false =>
      have hend : s = p.text := by
        by_contra hne
        exact h ⟨p.text, acl_of_not_requireName hp hreq, hpre, hne⟩
      rw [rest_acl hpre hreq, if_pos hend, hend, List.drop_length]

/-- Two strings of one length go on behind the same prefix that takes no suffix. -/
def SameAcl (s t : List Byte) : Prop :=
  s ≠ t ∧ s.length = t.length ∧ ∃ a ∈ aclPrefixes, a <+: s ∧ a <+: t

/-- **When two strings are told apart.** -/
theorem distinguishes_iff (s t : List Byte) : Distinguishes s t ↔ ¬SameAcl s t := by
  constructor
  · rintro h ⟨hne, hlen, a, ha, has, hat⟩
    obtain ⟨p, rfl, hreq, hp⟩ := firstPrefix_acl ha
    rw [Distinguishes, extract_some (hp s has), extract_some (hp t hat)] at h
    refine h hne ((extractAt_found s p).mpr (.inl hreq)) ((extractAt_found t p).mpr (.inl hreq)) ?_
    rw [extractAt, extractAt, hlen]
    simp only [hreq, Bool.false_eq_true, and_false, if_false]
  · intro h hne hs ht heq
    obtain ⟨p, hp⟩ := found_prefix hs
    obtain ⟨q, hq⟩ := found_prefix ht
    obtain ⟨hpm, hps⟩ := firstPrefix_some hp
    obtain ⟨hqm, hqt⟩ := firstPrefix_some hq
    rw [extract_some hp] at hs heq
    rw [extract_some hq] at ht heq
    have hindex : p.nameIndex = q.nameIndex := by
      have := congrArg Extracted.nameIndex heq
      rw [extractAt_nameIndex, extractAt_nameIndex] at this
      exact Option.some.inj this
    obtain rfl := prefixTbl_inj hpm hqm hindex
    have hlen := congrArg Extracted.nameLen heq
    rw [extractAt_nameLen, extractAt_nameLen] at hlen
    cases hreq : p.requireName with
    | true =>
      have hname := congrArg Extracted.name heq
      rw [extractAt_name hreq hs, extractAt_name hreq ht] at hname
      refine hne ?_
      rw [List.prefix_append_drop hps, List.prefix_append_drop hqt, Option.some.inj hname]
    | false =>
      have hsl := hps.length_le
      have htl := hqt.length_le
      exact h ⟨hne, by omega, p.text, acl_of_not_requireName hp hreq, hps, hqt⟩

/-! ## Printed names -/

theorem strings_append {bs : List Byte} (h : 0 ∉ s) : strings (s ++ 0 :: bs) = s :: strings bs := by
  induction s with
  | nil => rfl
  | cons b s ih =>
    rw [List.mem_cons, not_or] at h
    rw [List.cons_append, strings, if_neg (Ne.symm h.1), ih h.2]

theorem length_strings (bs : List Byte) : (strings bs).length = bs.count 0 := by
  induction bs with
  | nil => rfl
  | cons b bs ih =>
    rw [strings, List.count_cons, ← ih]
    by_cases hb : b = 0
    · rw [if_pos hb, hb]
      rfl
    · rw [if_neg hb, if_neg (by simpa using hb)]
      cases strings bs <;> rfl

/-- What is printed of an entry, without the final zero. -/
def ListEntry.fullName (entry : ListEntry) : List Byte :=
  ((getXattrNamePrefix entry.nameIndex).1).getD [] ++ entry.name

theorem getXattrNamePrefix_cases (index : ℕ) :
    (∃ p ∈ prefixTbl, p.nameIndex = index ∧
      getXattrNamePrefix index = (some p.text, p.text.length)) ∨
      (∀ p ∈ prefixTbl, p.nameIndex ≠ index) ∧ getXattrNamePrefix index = (none, 0) := by
  by_cases h : ∃ p ∈ prefixTbl, p.nameIndex = index
  · obtain ⟨p, hp, rfl⟩ := h
    exact .inl ⟨p, hp, rfl, getXattrNamePrefix_eq p hp⟩
  · have hnone : ∀ p ∈ prefixTbl, p.nameIndex ≠ index := fun p hp he => h ⟨p, hp, he⟩
    refine .inr ⟨hnone, ?_⟩
    have hloop : ∀ tbl : List XattrPrefix, (∀ p ∈ tbl, p.nameIndex ≠ index) →
        namePrefixLoop index tbl = (none, 0) := by
      intro tbl
      induction tbl with
      | nil => exact fun _ => rfl
      | cons p tbl ih =>
        intro htbl
        rw [namePrefixLoop, if_neg (htbl p List.mem_cons_self)]
        exact ih fun q hq => htbl q (List.mem_cons_of_mem _ hq)
    exact hloop prefixTbl hnone

theorem printEntry_eq (entry : ListEntry) : printEntry entry = entry.fullName ++ [0] := by
  rw [printEntry, ListEntry.fullName]
  obtain ⟨p, -, -, h⟩ | ⟨-, h⟩ := getXattrNamePrefix_cases entry.nameIndex
  · simp only [h, Option.getD_some, List.take_length]
  · simp only [h, Option.getD_none, List.take_nil]

/-- Without a buffer nothing is copied. -/
theorem listxattrLoop_silent {list : Bool} {size : ℕ} (h : ¬(list = true ∧ size ≠ 0)) :
    ∀ {entries out n}, listxattrLoop list size entries = .ok (out, n) → out = []
  | [], out, n, hloop => by
    cases hloop
    rfl
  | entry :: entries, out, n, hloop => by
    simp only [listxattrLoop] at hloop
    split at hloop
    · cases hloop
    · cases hrest : listxattrLoop list size entries with
      | error e =>
        rw [hrest] at hloop
        cases hloop
      | ok r =>
        rw [hrest] at hloop
        cases hloop
        exact listxattrLoop_silent h hrest

/-- What the loop copies are the first entries. -/
theorem listxattrLoop_prefix {list : Bool} : ∀ {entries size out n},
    listxattrLoop list size entries = .ok (out, n) →
      ∃ es, es <+: entries ∧ out = (es.map printEntry).flatten
  | [], size, out, n, hloop => by
    cases hloop
    exact ⟨[], List.nil_prefix, rfl⟩
  | entry :: entries, size, out, n, hloop => by
    by_cases h : list = true ∧ size ≠ 0
    · simp only [listxattrLoop] at hloop
      split at hloop
      · cases hloop
      · cases hrest : listxattrLoop list
            (size - ((getXattrNamePrefix entry.nameIndex).2 + entry.name.length + 1)) entries with
        | error e =>
          rw [hrest] at hloop
          cases hloop
        | ok r =>
          rw [hrest] at hloop
          cases hloop
          obtain ⟨es, hes, hout⟩ := listxattrLoop_prefix hrest
          refine ⟨entry :: es, List.prefix_cons_inj entry |>.mpr hes, ?_⟩
          rw [List.map_cons, List.flatten_cons, ← hout]
    · exact ⟨[], List.nil_prefix, listxattrLoop_silent h hloop⟩

/-- A buffer that is large enough takes them all. -/
theorem listxattrLoop_all : ∀ (entries : List ListEntry) (size : ℕ),
    (entries.map fun e => (getXattrNamePrefix e.nameIndex).2 + e.name.length + 1).sum < size →
      ∃ n, listxattrLoop true size entries = .ok ((entries.map printEntry).flatten, n)
  | [], _, _ => ⟨0, rfl⟩
  | entry :: entries, size, h => by
    rw [List.map_cons, List.sum_cons] at h
    obtain ⟨n, hn⟩ := listxattrLoop_all entries
      (size - ((getXattrNamePrefix entry.nameIndex).2 + entry.name.length + 1)) (by omega)
    refine ⟨(getXattrNamePrefix entry.nameIndex).2 + entry.name.length + 1 + n, ?_⟩
    simp only [listxattrLoop]
    rw [if_neg (by omega), if_pos ⟨trivial, by omega⟩, hn]
    rfl

/-- Names without a zero are read back one by one. -/
theorem strings_printEntry : ∀ es : List ListEntry, (∀ e ∈ es, 0 ∉ e.fullName) →
    strings (es.map printEntry).flatten = es.map ListEntry.fullName
  | [], _ => rfl
  | e :: es, h => by
    rw [List.map_cons, List.flatten_cons, printEntry_eq, List.append_assoc, List.singleton_append,
      strings_append (h e List.mem_cons_self), List.map_cons,
      strings_printEntry es fun e' he' => h e' (List.mem_cons_of_mem _ he')]

/-- There are at least as many strings as entries, and more if a name has a zero. -/
theorem length_strings_printEntry (es : List ListEntry) :
    (strings (es.map printEntry).flatten).length =
      es.length + (es.map fun e => e.fullName.count 0).sum := by
  rw [length_strings]
  induction es with
  | nil => rfl
  | cons e es ih =>
    rw [List.map_cons, List.flatten_cons, List.count_append, ih, printEntry_eq, List.count_append,
      List.map_cons, List.sum_cons, List.length_cons]
    have hone : List.count (0 : Byte) [0] = 1 := rfl
    omega

/-- The prefixes have no zero. -/
theorem zero_mem_fullName (entry : ListEntry) : 0 ∈ entry.fullName ↔ 0 ∈ entry.name := by
  have hall : ∀ p ∈ prefixTbl, 0 ∉ p.text := by decide
  rw [ListEntry.fullName, List.mem_append]
  obtain ⟨p, hp, -, h⟩ | ⟨-, h⟩ := getXattrNamePrefix_cases entry.nameIndex
  · rw [h]
    exact or_iff_right (hall p hp)
  · rw [h]
    exact or_iff_right List.not_mem_nil

/-! ## Listings -/

/-- Behind `system.` the two lists are hidden. -/
theorem firstPrefix_system (h : chars "system." <+: s) (hacl : ∀ a ∈ aclPrefixes, ¬a <+: s) :
    firstPrefix s = some ⟨chars "system.", 7⟩ := by
  cases hp : firstPrefix s with
  | none =>
    have hnone := List.find?_eq_none.mp hp ⟨chars "system.", 7⟩ (by decide)
    simp only [h, decide_true, not_true] at hnone
  | some p =>
    obtain ⟨hmem, hps⟩ := firstPrefix_some hp
    have hall : ∀ p ∈ prefixTbl, p.text <+: chars "system." ∨ chars "system." <+: p.text →
        p.text ∈ aclPrefixes ∨ p = ⟨chars "system.", 7⟩ ∨ p.nameIndex = 8 := by decide
    obtain ha | rfl | h8 := hall p hmem (List.prefix_or_prefix_of_prefix hps h)
    · exact absurd hps (hacl _ ha)
    · rfl
    · exact absurd h8 (firstPrefix_index hp)

/-- What makes a full name denote the entry, in terms of the prefix found. -/
theorem denotes_iff (entry : ListEntry) : Denotes entry.fullName entry ↔
    ∃ p, firstPrefix entry.fullName = some p ∧ p.nameIndex = entry.nameIndex ∧
      (p.requireName = true ↔ entry.name ≠ []) := by
  constructor
  · rintro ⟨hfound, hindex, hrest⟩
    obtain ⟨p, hp⟩ := found_prefix hfound
    obtain ⟨hmem, hps⟩ := firstPrefix_some hp
    rw [extract_some hp] at hfound hindex hrest
    rw [extractAt_nameIndex, Option.some.injEq] at hindex
    have hfull : entry.fullName = p.text ++ entry.name := by
      rw [ListEntry.fullName, ← hindex, getXattrNamePrefix_eq p hmem]
      rfl
    refine ⟨p, hp, hindex, ?_⟩
    cases hreq : p.requireName with
    | true =>
      have hlen := ((extractAt_found _ p).mp hfound).resolve_left (by simp [hreq])
      rw [hfull, List.length_append, Nat.add_sub_cancel_left] at hlen
      exact iff_of_true rfl fun h0 => hlen (by rw [h0]; rfl)
    | false =>
      refine iff_of_false Bool.false_ne_true (not_not_intro ?_)
      rw [rest_acl hps hreq] at hrest
      split at hrest
      · exact (Option.some.inj hrest).symm
      · cases hrest
  · rintro ⟨p, hp, hindex, hreq⟩
    obtain ⟨hmem, hps⟩ := firstPrefix_some hp
    have hfull : entry.fullName = p.text ++ entry.name := by
      rw [ListEntry.fullName, ← hindex, getXattrNamePrefix_eq p hmem]
      rfl
    rw [Denotes, extract_some hp]
    have hfound : (extractAt entry.fullName p).found = true := by
      rw [extractAt_found, hfull, List.length_append, Nat.add_sub_cancel_left]
      cases hr : p.requireName with
      | true => exact .inr (mt List.eq_nil_of_length_eq_zero (hreq.mp hr))
      | false => exact .inl rfl
    refine ⟨hfound, by rw [extractAt_nameIndex, hindex], ?_⟩
    cases hr : p.requireName with
    | true => rw [rest_requireName hr hfound, hfull, List.drop_left]
    | false =>
      have hnil : entry.name = [] := by
        by_contra hne
        rw [hreq.mpr hne] at hr
        cases hr
      rw [rest_acl hps hr, hfull, hnil, List.append_nil, if_pos rfl]

theorem fullName_eq (hp : p ∈ prefixTbl) (h : p.nameIndex = entry.nameIndex) :
    entry.fullName = p.text ++ entry.name := by
  rw [ListEntry.fullName, ← h, getXattrNamePrefix_eq p hp]
  rfl

/-- All but the last two prefixes are the first to match. -/
theorem firstPrefix_fullName (hp : p ∈ prefixTbl) (h : p.nameIndex = entry.nameIndex)
    (h7 : p.nameIndex < 7) : firstPrefix entry.fullName = some p := by
  have hall : ∀ p ∈ prefixTbl, p.nameIndex < 7 →
      (prefixTbl.find? fun q => decide (q.text <+: p.text ∨ p.text <+: q.text)) = some p := by
    decide
  rw [fullName_eq hp h]
  exact firstPrefix_eq (List.prefix_append _ _) (hall p hp h7)

/-- The prefixes of the lists, behind `system.`. -/
theorem acl_system {name : List Byte} : (∀ a ∈ aclPrefixes, ¬a <+: chars "system." ++ name) ↔
    ¬chars "posix_acl_access" <+: name ∧ ¬chars "posix_acl_default" <+: name := by
  have haccess :
      chars "system.posix_acl_access" = chars "system." ++ chars "posix_acl_access" := rfl
  have hdefault :
      chars "system.posix_acl_default" = chars "system." ++ chars "posix_acl_default" := rfl
  rw [aclPrefixes, haccess, hdefault]
  simp only [List.mem_cons, List.not_mem_nil, or_false, forall_eq_or_imp, forall_eq,
    List.prefix_append_right_inj]

/-- **When a printed name denotes its attribute.** -/
theorem denotes_iff_listable (h0 : 0 ∉ entry.name) :
    Denotes entry.fullName entry ↔ entry.Listable := by
  rw [denotes_iff, ListEntry.Listable, and_iff_right h0]
  constructor
  · rintro ⟨p, hp, hindex, hreq⟩
    obtain ⟨hmem, -⟩ := firstPrefix_some hp
    have hall : ∀ p ∈ prefixTbl, p.nameIndex ∈ [1, 4, 6] ∧ p.requireName = true ∨
        p.nameIndex ∈ [2, 3] ∧ p.requireName = false ∨ p = ⟨chars "system.", 7⟩ ∨
          p.nameIndex = 8 := by
      decide
    obtain ⟨hi, hr⟩ | ⟨hi, hr⟩ | rfl | h8 := hall p hmem
    · exact .inl ⟨hindex ▸ hi, hreq.mp hr⟩
    · refine .inr (.inl ⟨hindex ▸ hi, ?_⟩)
      by_contra hne
      rw [hreq.mpr hne] at hr
      cases hr
    · refine .inr (.inr ⟨hindex.symm, hreq.mp (by decide), acl_system.mp fun a ha hpre => ?_⟩)
      rw [← fullName_eq hmem hindex] at hpre
      obtain ⟨q, rfl, hq, hfirst⟩ := firstPrefix_acl ha
      obtain rfl := Option.some.inj ((hfirst _ hpre).symm.trans hp)
      cases hq
    · exact absurd h8 (firstPrefix_index hp)
  · have hname : ∀ i ∈ [1, 4, 6], ∃ p ∈ prefixTbl,
        p.nameIndex = i ∧ i < 7 ∧ p.requireName = true := by decide
    have hend : ∀ i ∈ [2, 3], ∃ p ∈ prefixTbl,
        p.nameIndex = i ∧ i < 7 ∧ p.requireName = false := by decide
    rintro (⟨hi, hne⟩ | ⟨hi, hnil⟩ | ⟨hi, hne, hacl⟩)
    · obtain ⟨p, hp, hindex, h7, hreq⟩ := hname _ hi
      exact ⟨p, firstPrefix_fullName hp hindex (hindex ▸ h7), hindex, iff_of_true hreq hne⟩
    · obtain ⟨p, hp, hindex, h7, hreq⟩ := hend _ hi
      exact ⟨p, firstPrefix_fullName hp hindex (hindex ▸ h7), hindex,
        iff_of_false (by rw [hreq]; decide) (not_not_intro hnil)⟩
    · have hfull : entry.fullName = chars "system." ++ entry.name :=
        @fullName_eq ⟨chars "system.", 7⟩ entry (by decide) hi.symm
      refine ⟨⟨chars "system.", 7⟩, ?_, hi.symm, iff_of_true (by decide) hne⟩
      rw [hfull]
      exact firstPrefix_system (List.prefix_append _ _) (acl_system.mpr hacl)

/-- **When the listing is read back.** -/
theorem listsBack_iff (entries : List ListEntry) :
    ListsBack entries ↔ ∀ e ∈ entries, e.Listable := by
  constructor
  · intro h
    obtain rfl | hne := eq_or_ne entries []
    · exact fun e he => absurd he List.not_mem_nil
    obtain ⟨n, hn⟩ := listxattrLoop_all entries _ (Nat.lt_succ_self _)
    obtain ⟨es, hes, hall⟩ := h true true _ _ _ (by
      rw [listxattr, if_neg hne, hn]
      rfl)
    have hlen := hall.length_eq
    rw [length_strings_printEntry] at hlen
    -- there are no more strings than entries: no name has a zero, and all are printed
    have heq : es = entries := hes.eq_of_length_le (by omega)
    subst heq
    have hzero : ∀ e ∈ es, 0 ∉ e.fullName := by
      have hsum : (es.map fun e => e.fullName.count 0).sum = 0 := by omega
      intro e he
      have hcount := (List.sum_eq_zero_iff_forall_eq_nat.mp hsum) _ (List.mem_map_of_mem he)
      exact List.count_eq_zero.mp hcount
    rw [strings_printEntry es hzero, List.forall₂_map_left_iff, List.forall₂_same] at hall
    intro e he
    have h0 : 0 ∉ e.name := mt (zero_mem_fullName e).mpr (hzero e he)
    exact (denotes_iff_listable h0).mp (hall e he)
  · intro h memory list size out n hlist
    have hloop : ∃ es, es <+: entries ∧ out = (es.map printEntry).flatten := by
      rw [listxattr] at hlist
      split at hlist
      · cases hlist
        exact ⟨[], List.nil_prefix, rfl⟩
      · split at hlist
        · cases hlist
        · cases hl : listxattrLoop list size entries with
          | error e =>
            rw [hl] at hlist
            cases hlist
          | ok r =>
            rw [hl] at hlist
            cases hlist
            exact listxattrLoop_prefix hl
    obtain ⟨es, hes, rfl⟩ := hloop
    have hmem : ∀ e ∈ es, e.Listable := fun e he => h e (hes.subset he)
    refine ⟨es, hes, ?_⟩
    rw [strings_printEntry es fun e he => mt (zero_mem_fullName e).mp (hmem e he).1,
      List.forall₂_map_left_iff, List.forall₂_same]
    exact fun e he => (denotes_iff_listable (hmem e he).1).mpr (hmem e he)

/-! ## The promise as a whole -/

/-- **When names make the round trip**: every string unless it goes on behind
    the prefix of an access control list, two strings unless they do so with
    equal lengths, a listing if every attribute in it has a name that is read
    back. -/
theorem names_roundTrip_iff (s t : List Byte) (entries : List ListEntry) :
    (RoundTrips s ↔ ¬ExtendsAcl s) ∧ (Distinguishes s t ↔ ¬SameAcl s t) ∧
      (ListsBack entries ↔ ∀ e ∈ entries, e.Listable) :=
  ⟨roundTrips_iff s, distinguishes_iff s t, listsBack_iff entries⟩

/-- A list with a suffix is accepted, without the suffix; two of them are one
    attribute; an attribute of index 8 is listed under a name of index 7. -/
theorem names_wrong :
    extractXattrName (chars "system.posix_acl_accessx") = ⟨true, some 2, none, 1⟩ ∧
    ¬RoundTrips (chars "system.posix_acl_accessx") ∧
    ¬Distinguishes (chars "system.posix_acl_accessx") (chars "system.posix_acl_accessy") ∧
    ¬ListsBack [⟨8, []⟩] := by
  have hx : extractXattrName (chars "system.posix_acl_accessx") = ⟨true, some 2, none, 1⟩ := by
    decide
  have hy : extractXattrName (chars "system.posix_acl_accessy") = ⟨true, some 2, none, 1⟩ := by
    decide
  refine ⟨hx, fun h => ?_, fun h => ?_, fun h => ?_⟩
  · obtain ⟨index, pfx, rest, -, -, hrest, -⟩ := h (by rw [hx])
    rw [hx] at hrest
    cases hrest
  · exact h (by decide) (by rw [hx]) (by rw [hy]) (by rw [hx, hy])
  · obtain ⟨es, hes, hall⟩ := h true true 15 (chars "system.richacl" ++ [0]) (some 15) (by decide)
    have hstr : strings (chars "system.richacl" ++ [0]) = [chars "system.richacl"] := by decide
    rw [hstr] at hall
    have hlen : 1 = es.length := hall.length_eq
    obtain rfl : es = [⟨8, []⟩] := hes.eq_of_length_le (by rw [← hlen]; rfl)
    rw [List.forall₂_cons] at hall
    have hindex := hall.1.2.1
    have h7 : (extractXattrName (chars "system.richacl")).nameIndex = some 7 := by decide
    rw [h7] at hindex
    cases hindex

end Xattr

end Lwext4
