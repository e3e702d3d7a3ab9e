/-
  Loops that walk along offsets.

  A step looks at the offset it has come to, with a log of its accesses, and
  ends the walk or names the next offset.  The loop runs on fuel; `Visits` says
  where it comes to without speaking of fuel, `Ends` that some fuel suffices.

  * `walk_all`: what holds of all accesses of all runs holds of the steps at the
    offsets visited, and the other way round;
  * `ends_iff`: a walk that does not go back and stays below a bound ends unless
    it comes to an offset where it stays.
-/
import Lwext4.Lib.Traced

namespace Lib

/-- What a step of a walk says. -/
inductive Next (α : Type) where
  | stop (a : α)
  | go (p : ℕ)

variable {ι α : Type}

/-- The walk from `p` on; `none` says that it is still going. -/
def walk (body : ℕ → Traced ι (Next α)) : (fuel p : ℕ) → Traced ι (Option α)
  | 0, _ => pure none
  | fuel + 1, p => do
    match ← body p with
    | .stop a => pure (some a)
    | .go q => walk body fuel q

/-- The walk from `p` comes to an offset. -/
inductive Visits (body : ℕ → Traced ι (Next α)) (p : ℕ) : ℕ → Prop
  | start : Visits body p p
  | next {q r : ℕ} (hq : Visits body p q) (hstep : (body q).val = .go r) : Visits body p r

/-- The walk from `p` ends. -/
def Ends (body : ℕ → Traced ι (Next α)) (p : ℕ) : Prop := ∃ fuel, (walk body fuel p).val ≠ none

variable {body : ℕ → Traced ι (Next α)} {p q r bound fuel : ℕ} {a : α} {P : Access ι → Prop}

theorem Visits.head (hstep : (body p).val = .go q) (h : Visits body q r) : Visits body p r := by
  induction h with
  | start => exact .next .start hstep
  | next _ hs ih => exact .next ih hs

theorem Visits.uncons (h : Visits body p r) :
    r = p ∨ ∃ q, (body p).val = .go q ∧ Visits body q r := by
  induction h with
  | start => exact .inl rfl
  | next _ hs ih =>
    rcases ih with rfl | ⟨q, hq, hv⟩
    · exact .inr ⟨_, hs, .start⟩
    · exact .inr ⟨q, hq, .next hv hs⟩

theorem walk_stop (h : (body p).val = .stop a) : (walk body (fuel + 1) p).val = some a := by
  simp only [walk, Traced.bind_val, h]
  rfl

theorem walk_go (h : (body p).val = .go q) :
    (walk body (fuel + 1) p).val = (walk body fuel q).val := by
  simp only [walk, Traced.bind_val, h]

theorem walk_all_stop (h : (body p).val = .stop a) :
    (walk body (fuel + 1) p).All P ↔ (body p).All P := by
  simp only [walk, Traced.all_bind, h]
  exact and_iff_left ((Traced.all_pure _).2 trivial)

theorem walk_all_go (h : (body p).val = .go q) :
    (walk body (fuel + 1) p).All P ↔ (body p).All P ∧ (walk body fuel q).All P := by
  simp only [walk, Traced.all_bind, h]

/-- **The accesses of a walk** are those of its steps. -/
theorem walk_all : (∀ fuel, (walk body fuel p).All P) ↔ ∀ q, Visits body p q → (body q).All P := by
  constructor
  · intro h q hq
    have hall : ∀ fuel, (walk body fuel q).All P := by
      induction hq with
      | start => exact h
      | next _ hs ih => exact fun fuel => ((walk_all_go hs).1 (ih (fuel + 1))).2
    have h1 := hall 1
    cases hs : (body q).val with
    | stop a => exact (walk_all_stop hs).1 h1
    | go r => exact ((walk_all_go hs).1 h1).1
  · intro h fuel
    induction fuel generalizing p with
    | zero => exact (Traced.all_pure _).2 trivial
    | succ fuel ih =>
      have hp := h p .start
      cases hs : (body p).val with
      | stop a => exact (walk_all_stop hs).2 hp
      | go q => exact (walk_all_go hs).2 ⟨hp, ih fun r hr => h r (hr.head hs)⟩

/-- The accesses of a walk that has ended. -/
theorem walk_all_of_ends (h : (walk body fuel p).val ≠ none) :
    (walk body fuel p).All P ↔ ∀ q, Visits body p q → (body q).All P := by
  constructor
  · intro hall
    induction fuel generalizing p with
    | zero => exact absurd rfl h
    | succ fuel ih =>
      intro r hr
      cases hs : (body p).val with
      | stop a =>
        rcases hr.uncons with rfl | ⟨q, hq, -⟩
        · exact (walk_all_stop hs).1 hall
        · rw [hs] at hq
          cases hq
      | go q =>
        rw [walk_go hs] at h
        obtain ⟨hp, hrest⟩ := (walk_all_go hs).1 hall
        rcases hr.uncons with rfl | ⟨q', hq', hv⟩
        · exact hp
        · rw [hs] at hq'
          cases hq'
          exact ih h hrest r hv
  · intro hall
    exact walk_all.2 hall fuel

theorem Ends.of_stop (h : (body p).val = .stop a) : Ends body p := by
  refine ⟨1, ?_⟩
  rw [walk_stop h]
  exact Option.some_ne_none a

theorem ends_go (h : (body p).val = .go q) : Ends body p ↔ Ends body q := by
  constructor
  · rintro ⟨fuel, hf⟩
    cases fuel with
    | zero => exact absurd rfl hf
    | succ fuel => exact ⟨fuel, by rwa [walk_go h] at hf⟩
  · rintro ⟨fuel, hf⟩
    exact ⟨fuel + 1, by rwa [walk_go h]⟩

theorem Visits.ends (h : Visits body p q) : Ends body p ↔ Ends body q := by
  induction h with
  | start => exact Iff.rfl
  | next _ hs ih => exact ih.trans (ends_go hs)

/-- The offsets visited form one path. -/
theorem Visits.total (h : Visits body p q) (h' : Visits body p r) :
    Visits body q r ∨ Visits body r q := by
  induction h with
  | start => exact .inl h'
  | @next q q' hq hs ih =>
    rcases ih with h | h
    · rcases h.uncons with rfl | ⟨q₁, hq₁, hv⟩
      · exact .inr (.next .start hs)
      · rw [hs] at hq₁
        cases hq₁
        exact .inl hv
    · exact .inr (h.next hs)

/-- A walk comes to one step that ends it. -/
theorem Visits.stop_unique {a' : α} (hq : Visits body p q) (hr : Visits body p r)
    (ha : (body q).val = .stop a) (ha' : (body r).val = .stop a') : q = r := by
  rcases hq.total hr with h | h
  · rcases h.uncons with rfl | ⟨q', hq', -⟩
    · rfl
    · rw [ha] at hq'
      cases hq'
  · rcases h.uncons with rfl | ⟨r', hr', -⟩
    · rfl
    · rw [ha'] at hr'
      cases hr'

/-- A walk that does not go back comes to no smaller offset. -/
theorem Visits.le (hle : ∀ q r, (body q).val = .go r → q ≤ r) (h : Visits body p q) : p ≤ q := by
  induction h with
  | start => exact le_rfl
  | next _ hs ih => exact ih.trans (hle _ _ hs)

/-- What a walk ends with is said by a step it comes to. -/
theorem walk_some (h : (walk body fuel p).val = some a) :
    ∃ q, Visits body p q ∧ (body q).val = .stop a := by
  induction fuel generalizing p with
  | zero => cases h
  | succ fuel ih =>
    cases hs : (body p).val with
    | stop a' =>
      rw [walk_stop hs] at h
      rw [Option.some.inj h] at hs
      exact ⟨p, .start, hs⟩
    | go q =>
      rw [walk_go hs] at h
      obtain ⟨r, hr, ha⟩ := ih h
      exact ⟨r, hr.head hs, ha⟩

/-- A walk that stays where it is does not end. -/
theorem not_ends_of_stay (h : (body p).val = .go p) : ¬ Ends body p := by
  rintro ⟨fuel, hf⟩
  refine hf ?_
  clear hf
  induction fuel with
  | zero => rfl
  | succ fuel ih => rw [walk_go h, ih]

/-- **A walk** that does not go back, and goes on below the bound only, **ends
    exactly** if it stays nowhere. -/
theorem ends_iff (hle : ∀ q r, (body q).val = .go r → q ≤ r)
    (hbound : ∀ q r, (body q).val = .go r → q < bound) :
    Ends body p ↔ ∀ q, Visits body p q → (body q).val ≠ .go q := by
  constructor
  · intro h q hq hstay
    exact not_ends_of_stay hstay (hq.ends.1 h)
  · intro h
    induction hk : bound - p using Nat.strong_induction_on generalizing p with
    | _ k ih =>
    cases hs : (body p).val with
    | stop a => exact .of_stop hs
    | go q =>
      have hlt : p < q := by
        refine lt_of_le_of_ne (hle p q hs) ?_
        rintro rfl
        exact h p .start hs
      have := hbound p q hs
      exact (ends_go hs).2 (ih (bound - q) (by omega) (fun r hr => h r (hr.head hs)) rfl)

/-- A walk that always goes forward, and below the bound only, ends. -/
theorem walk_ends_of_lt (hlt : ∀ q r, (body q).val = .go r → q < r)
    (hbound : ∀ q r, (body q).val = .go r → q < bound) (hfuel : bound - p < fuel) :
    (walk body fuel p).val ≠ none := by
  induction fuel generalizing p with
  | zero => omega
  | succ fuel ih =>
    cases hs : (body p).val with
    | stop a =>
      rw [walk_stop hs]
      exact Option.some_ne_none a
    | go q =>
      rw [walk_go hs]
      have := hlt p q hs
      have := hbound p q hs
      exact ih (by omega)

end Lib
