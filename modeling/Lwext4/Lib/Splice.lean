/-
  Overwriting a part of a list, which may grow it.
-/
import Mathlib

namespace Lib

variable {α : Type*}

/-- The list with `d` from place `pos` on. -/
def splice (s : List α) (pos : ℕ) (d : List α) : List α :=
  s.take pos ++ d ++ s.drop (pos + d.length)

section Splice

variable {s d : List α} {pos x : ℕ}

theorem splice_getElem?_of_lt (h : pos ≤ s.length) (hx : x < pos) :
    (splice s pos d)[x]? = s[x]? := by
  rw [splice, List.append_assoc, List.getElem?_append_left (by rw [List.length_take]; omega),
    List.getElem?_take_of_lt hx]

theorem splice_getElem?_inside (h : pos ≤ s.length) (h1 : pos ≤ x) (h2 : x < pos + d.length) :
    (splice s pos d)[x]? = d[x - pos]? := by
  have hlen : (s.take pos).length = pos := by rw [List.length_take, Nat.min_eq_left h]
  rw [splice, List.append_assoc, List.getElem?_append_right (by omega), hlen,
    List.getElem?_append_left (by omega)]

theorem splice_getElem?_of_ge (h : pos ≤ s.length) (hx : pos + d.length ≤ x) :
    (splice s pos d)[x]? = s[x]? := by
  have hlen : (s.take pos ++ d).length = pos + d.length := by
    rw [List.length_append, List.length_take, Nat.min_eq_left h]
  rw [splice, List.getElem?_append_right (by omega), hlen, List.getElem?_drop]
  congr 1
  omega

end Splice

end Lib
