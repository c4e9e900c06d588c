import Mathlib.Logic.Relation
import Mathlib.Algebra.GroupWithZero.Nat

/-- A transition system: where it may start and what one step may do. -/
structure Machine (σ : Type*) where
  init : σ → Prop
  step : σ → σ → Prop

namespace Machine
variable {σ τ : Type*}

/-- The states of all finite runs. -/
inductive Reach (m : Machine σ) : σ → Prop
  | start {s : σ} (first : m.init s) : Reach m s
  | next {s t : σ} (reach : Reach m s) (taken : m.step s t) : Reach m t

variable {m : Machine σ} {s t : σ}

/-- What holds at the start and is kept by every step holds in every run. -/
theorem Reach.invariant {P : σ → Prop} (reach : m.Reach s) (first : ∀ s, m.init s → P s)
    (kept : ∀ s t, P s → m.step s t → P t) : P s := by
  induction reach with
  | start init => exact first _ init
  | next _ taken ih => exact kept _ _ ih taken

/-- A run of the lower machine is matched, step by step, by a run of the upper. -/
theorem Reach.simulate {low : Machine σ} {high : Machine τ} {R : σ → τ → Prop} {s : σ} (reach : low.Reach s)
    (first : ∀ s, low.init s → ∃ t, high.init t ∧ R s t)
    (kept : ∀ s s' t, R s t → low.step s s' → ∃ t', high.step t t' ∧ R s' t') : ∃ t, high.Reach t ∧ R s t := by
  induction reach with
  | start init =>
    obtain ⟨t, begins, related⟩ := first _ init
    exact ⟨t, .start begins, related⟩
  | next _ taken ih =>
    obtain ⟨t, reached, related⟩ := ih
    obtain ⟨t', matched, related'⟩ := kept _ _ _ related taken
    exact ⟨t', .next reached matched, related'⟩

section Guided
variable {ε : Type*} {init : σ → Prop} {Ok : σ → ε → Prop} {act : σ → ε → σ}

/-- The machine driven by events, each of which may happen where `Ok` says so. -/
def guided (init : σ → Prop) (Ok : σ → ε → Prop) (act : σ → ε → σ) : Machine σ where
  init := init
  step s t := ∃ e, Ok s e ∧ t = act s e

/-- Every event of the list may happen when its turn comes. -/
def Admits (Ok : σ → ε → Prop) (act : σ → ε → σ) (s : σ) : List ε → Prop
  | [] => True
  | e :: es => Ok s e ∧ Admits Ok act (act s e) es

instance decidableAdmits [∀ s e, Decidable (Ok s e)] : ∀ s es, Decidable (Admits Ok act s es)
  | _, [] => inferInstanceAs (Decidable True)
  | s, e :: es => @instDecidableAnd _ _ _ (decidableAdmits (act s e) es)

theorem Reach.run {s : σ} {es : List ε} (reach : (guided init Ok act).Reach s) (admits : Admits Ok act s es) :
    (guided init Ok act).Reach (es.foldl act s) := by
  induction es generalizing s with
  | nil => exact reach
  | cons e es ih => exact ih (.next reach ⟨e, admits.1, rfl⟩) admits.2

/-- Every state of a run satisfies what the start satisfies and each event keeps. -/
theorem Reach.kept {P : σ → Prop} {s : σ} (reach : (guided init Ok act).Reach s) (first : ∀ s, init s → P s)
    (kept : ∀ s e, P s → Ok s e → P (act s e)) : P s := by
  refine reach.invariant first ?_
  rintro s _ held ⟨e, ok, rfl⟩
  exact kept s e held ok

end Guided

end Machine

/-! The proofs that numerals of small types need. -/

instance neZeroTwo : NeZero 2 := ⟨nofun⟩
instance neZeroThree : NeZero 3 := ⟨nofun⟩
