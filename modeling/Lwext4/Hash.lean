/-
  The hash functions of the directory index (`ext4_hash.c`).
-/
import Lwext4.Basic
import Lwext4.Lib.Bytes

namespace Lwext4

open Lib

/-- A `uint32_t`. -/
abbrev Word32 := BitVec 32

/-- `uint32_t hash[4]`. -/
structure HashState where
  h0 : Word32
  h1 : Word32
  h2 : Word32
  h3 : Word32

/-! ## Half MD4 -/

/-- `F`. -/
def md4F (x y z : Word32) : Word32 := (x &&& y) ||| (~~~x &&& z)

/-- `G`. -/
def md4G (x y z : Word32) : Word32 := (x &&& y) ||| (x &&& z) ||| (y &&& z)

/-- `H`. -/
def md4H (x y z : Word32) : Word32 := x ^^^ y ^^^ z

/-- `ROTATE_LEFT`. -/
def rotateLeft (x : Word32) (n : ℕ) : Word32 := (x <<< n) ||| (x >>> (32 - n))

/-- `FF`, `GG` and `HH`: the new `a`. -/
def md4Round (f : Word32 → Word32 → Word32 → Word32) (k a b c d x : Word32) (s : ℕ) : Word32 :=
  rotateLeft (a + f b c d + x + k) s

/-- A round: for each word and shift the next of `a`, `d`, `c`, `b`. -/
def md4Rounds (f : Word32 → Word32 → Word32 → Word32) (k : Word32) (data : List Word32) :
    List (ℕ × ℕ) → HashState → HashState
  | [], s => s
  | (i, n) :: steps, ⟨a, b, c, d⟩ =>
    -- the word changed comes to the second place, as the arguments rotate
    md4Rounds f k data steps ⟨d, md4Round f k a b c d (data.getD i 0) n, b, c⟩

/-- `ext2_half_md4`. -/
def ext2HalfMd4 (hash : HashState) (data : List Word32) : HashState :=
  let s := md4Rounds md4F 0 data
    [(0, 3), (1, 7), (2, 11), (3, 19), (4, 3), (5, 7), (6, 11), (7, 19)] hash
  let s := md4Rounds md4G 0x5A827999 data
    [(1, 3), (3, 5), (5, 9), (7, 13), (0, 3), (2, 5), (4, 9), (6, 13)] s
  let s := md4Rounds md4H 0x6ED9EBA1 data
    [(3, 3), (7, 9), (2, 11), (6, 15), (1, 3), (5, 9), (0, 11), (4, 15)] s
  ⟨hash.h0 + s.h0, hash.h1 + s.h1, hash.h2 + s.h2, hash.h3 + s.h3⟩

/-! ## TEA -/

/-- The rounds of `ext2_tea` from the `i`-th on. -/
def teaRounds (data : List Word32) : (n i : ℕ) → Word32 × Word32 → Word32 × Word32
  | 0, _, xy => xy
  | n + 1, i, (x, y) =>
    let sum := BitVec.ofNat 32 i * 0x9E3779B9
    let x := x + (((y <<< 4) + data.getD 0 0) ^^^ (y + sum) ^^^ ((y >>> 5) + data.getD 1 0))
    let y := y + (((x <<< 4) + data.getD 2 0) ^^^ (x + sum) ^^^ ((x >>> 5) + data.getD 3 0))
    teaRounds data n (i + 1) (x, y)

/-- `ext2_tea`. -/
def ext2Tea (hash : HashState) (data : List Word32) : HashState :=
  let xy := teaRounds data 16 1 (hash.h0, hash.h1)
  ⟨hash.h0 + xy.1, hash.h1 + xy.2, hash.h2, hash.h3⟩

/-! ## The legacy hash -/

/-- A character, as an unsigned or a signed one. -/
def charVal (unsignedChar : Bool) (c : Byte) : Word32 :=
  if unsignedChar then c.setWidth 32 else c.signExtend 32

/-- The loop of `ext2_legacy_hash`. -/
def legacyLoop (unsignedChar : Bool) : List Byte → (h1 h2 : Word32) → Word32
  | [], h1, _ => h1
  | c :: cs, h1, h2 =>
    let h0 := h2 + (h1 ^^^ (charVal unsignedChar c * 0x6D22F5))
    let h0 := if h0 &&& 0x80000000 ≠ 0 then h0 - 0x7FFFFFFF else h0
    legacyLoop unsignedChar cs h0 h1

/-- `ext2_legacy_hash`. -/
def ext2LegacyHash (name : List Byte) (unsignedChar : Bool) : Word32 :=
  legacyLoop unsignedChar name 0x12A3FE2D 0x37ABE8F9 <<< 1

/-! ## The hash of a name -/

/-- The loop of `ext2_prep_hashbuf` from the `i`-th character on: the words
    stored, and `buf_val`. -/
def prepLoop (unsignedChar : Bool) (padding : Word32) :
    List Byte → (i : ℕ) → (bufVal : Word32) → List Word32 × Word32
  | [], _, bufVal => ([], bufVal)
  | c :: cs, i, bufVal =>
    let bufVal := (if i % 4 = 0 then padding else bufVal) <<< 8 + charVal unsignedChar c
    if i % 4 = 3 then
      let r := prepLoop unsignedChar padding cs (i + 1) padding
      (bufVal :: r.1, r.2)
    else prepLoop unsignedChar padding cs (i + 1) bufVal

/-- `ext2_prep_hashbuf`: `n` words of the rest of a name, filled up with the
    length. -/
def ext2PrepHashbuf (src : List Byte) (n : ℕ) (unsignedChar : Bool) : List Word32 :=
  let slen := BitVec.ofNat 32 src.length
  let padding := slen ||| (slen <<< 8) ||| (slen <<< 16) ||| (slen <<< 24)
  let r := prepLoop unsignedChar padding (src.take (4 * n)) 0 padding
  (r.1 ++ r.2 :: List.replicate n padding).take n

/-- The words of a name, `n` at a time. -/
def hashLoop (f : HashState → List Word32 → HashState) (n : ℕ) (unsignedChar : Bool) :
    (fuel : ℕ) → List Byte → HashState → HashState
  | 0, _, hash => hash
  | fuel + 1, name, hash =>
    if name = [] then hash
    else
      hashLoop f n unsignedChar fuel (name.drop (4 * n))
        (f hash (ext2PrepHashbuf name n unsignedChar))

/-- The major hash before the last steps of `ext2_htree_hash`. -/
def htreeMajor (seed : HashState) (version : ℕ) (name : List Byte) : Option Word32 :=
  match version with
  | 0 => some (ext2LegacyHash name false)
  | 1 => some (hashLoop ext2HalfMd4 8 false name.length name seed).h1
  | 2 => some (hashLoop ext2Tea 4 false name.length name seed).h0
  | 3 => some (ext2LegacyHash name true)
  | 4 => some (hashLoop ext2HalfMd4 8 true name.length name seed).h1
  | 5 => some (hashLoop ext2Tea 4 true name.length name seed).h0
  | _ => none

/-- `EXT2_HTREE_EOF`. -/
def ext2HtreeEof : Word32 := 0x7FFFFFFF

/-- `ext2_htree_hash`: the major hash. -/
def ext2HtreeHash (seed : HashState) (version : ℕ) (name : List Byte) : Except Errno ℕ :=
  if name.length < 1 ∨ 255 < name.length then .error Errno.ENOTSUP
  else
    match htreeMajor seed version name with
    | none => .error Errno.ENOTSUP
    | some major =>
      let major := major &&& ~~~1
      let major := if major = ext2HtreeEof <<< 1 then (ext2HtreeEof - 1) <<< 1 else major
      .ok major.toNat

theorem and_not_one_toNat (w : Word32) : (w &&& ~~~1).toNat % 2 = 0 := by
  have h : (w &&& ~~~1).toNat.testBit 0 = false := by
    rw [BitVec.testBit_toNat, BitVec.getLsbD_and]
    exact Bool.and_false _
  rw [Nat.testBit_zero, decide_eq_false_iff_not] at h
  omega

/-- The hash of a name leaves the lowest bit free. -/
theorem htreeHash_even {seed : HashState} {version h : ℕ} {name : List Byte}
    (hh : ext2HtreeHash seed version name = .ok h) : h % 2 = 0 ∧ h < 2 ^ 32 := by
  unfold ext2HtreeHash at hh
  split_ifs at hh with hlen
  cases hm : htreeMajor seed version name with
  | none =>
    rw [hm] at hh
    cases hh
  | some major =>
    rw [hm] at hh
    dsimp only at hh
    cases hh
    refine ⟨?_, BitVec.isLt _⟩
    split_ifs
    · decide
    · exact and_not_one_toNat major

end Lwext4
