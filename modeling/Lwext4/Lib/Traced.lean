/-
  Computations that keep a log of the memory they access.

  Memory is made of objects; an access touches some bytes of one of them.  What
  is read is whatever is there, also behind the end of an object: the log tells
  whether that happened.
-/
import Lwext4.Lib.Bytes

namespace Lib

/-- The access to `len` bytes of an object from offset `off` on. -/
structure Access (ι : Type) where
  obj : ι
  off : ℕ
  len : ℕ
deriving DecidableEq

/-- The bytes accessed lie between the offsets `lo` and `hi`. -/
def Access.In {ι : Type} (lo hi : ℕ) (a : Access ι) : Prop := lo ≤ a.off ∧ a.off + a.len ≤ hi

instance {ι : Type} (lo hi : ℕ) (a : Access ι) : Decidable (a.In lo hi) :=
  inferInstanceAs (Decidable (_ ∧ _))

/-- The bytes accessed lie inside the object. -/
def Access.Inside {ι : Type} (size : ι → ℕ) (a : Access ι) : Prop := a.off + a.len ≤ size a.obj

instance {ι : Type} (size : ι → ℕ) (a : Access ι) : Decidable (a.Inside size) :=
  inferInstanceAs (Decidable (_ ≤ _))

/-- A value with the accesses made to compute it. -/
structure Traced (ι α : Type) where
  val : α
  log : List (Access ι)

namespace Traced

variable {ι α β : Type}

instance : Monad (Traced ι) where
  pure a := ⟨a, []⟩
  bind x f := ⟨(f x.val).val, x.log ++ (f x.val).log⟩

/-- Access bytes without using them. -/
def touch (o : ι) (off len : ℕ) : Traced ι Unit := ⟨(), [⟨o, off, len⟩]⟩

/-- Read bytes. -/
def read (o : ι) (m : Mem) (off len : ℕ) : Traced ι (List Byte) := ⟨m.read off len, [⟨o, off, len⟩]⟩

/-- Read a big-endian number. -/
def getBE (o : ι) (m : Mem) (off w : ℕ) : Traced ι ℕ := ⟨Lib.getBE m off w, [⟨o, off, w⟩]⟩

/-- Read a little-endian number. -/
def getLE (o : ι) (m : Mem) (off w : ℕ) : Traced ι ℕ := ⟨Lib.getLE m off w, [⟨o, off, w⟩]⟩

/-- `P` holds of all accesses. -/
def All (P : Access ι → Prop) (x : Traced ι α) : Prop := ∀ a ∈ x.log, P a

instance (P : Access ι → Prop) [DecidablePred P] (x : Traced ι α) : Decidable (x.All P) :=
  inferInstanceAs (Decidable (∀ a ∈ x.log, P a))

@[simp] theorem pure_val (a : α) : (pure a : Traced ι α).val = a := rfl

@[simp] theorem bind_val (x : Traced ι α) (f : α → Traced ι β) :
    (x >>= f).val = (f x.val).val := rfl

@[simp] theorem touch_val (o : ι) (off len : ℕ) : (touch o off len).val = () := rfl

@[simp] theorem read_val (o : ι) (m : Mem) (off len : ℕ) :
    (read o m off len).val = m.read off len := rfl

@[simp] theorem getBE_val (o : ι) (m : Mem) (off w : ℕ) :
    (getBE o m off w).val = Lib.getBE m off w := rfl

@[simp] theorem getLE_val (o : ι) (m : Mem) (off w : ℕ) :
    (getLE o m off w).val = Lib.getLE m off w := rfl

variable {P : Access ι → Prop}

@[simp] theorem all_pure (a : α) : (pure a : Traced ι α).All P ↔ True :=
  ⟨fun _ => trivial, fun _ _ h => absurd h List.not_mem_nil⟩

@[simp] theorem all_bind (x : Traced ι α) (f : α → Traced ι β) :
    (x >>= f).All P ↔ x.All P ∧ (f x.val).All P :=
  List.forall_mem_append

@[simp] theorem all_touch (o : ι) (off len : ℕ) : (touch o off len).All P ↔ P ⟨o, off, len⟩ :=
  List.forall_mem_singleton

@[simp] theorem all_read (o : ι) (m : Mem) (off len : ℕ) :
    (read o m off len).All P ↔ P ⟨o, off, len⟩ :=
  List.forall_mem_singleton

@[simp] theorem all_getBE (o : ι) (m : Mem) (off w : ℕ) :
    (getBE o m off w).All P ↔ P ⟨o, off, w⟩ :=
  List.forall_mem_singleton

@[simp] theorem all_getLE (o : ι) (m : Mem) (off w : ℕ) :
    (getLE o m off w).All P ↔ P ⟨o, off, w⟩ :=
  List.forall_mem_singleton

end Traced

end Lib
