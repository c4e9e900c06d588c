import Mathlib.Init

/-! Functions that are given fuel for their loops and have no result when it is used up: more fuel does not change a
result. -/

namespace Ecos

/-- A result of the first is the result of the second. -/
def Below {α : Type*} (a b : Option α) : Prop := ∀ x, a = some x → b = some x

namespace Below
variable {α β : Type*} {a b c d : Option α} {p : Prop} [Decidable p]

theorem refl : Below a a := fun _ same => same

theorem bind {f g : α → Option β} (first : Below a b) (rest : ∀ x, a = some x → Below (f x) (g x)) :
    Below (a.bind f) (b.bind g) := by
  intro y ends
  obtain ⟨x, here, goesOn⟩ := Option.bind_eq_some_iff.mp ends
  exact Option.bind_eq_some_iff.mpr ⟨x, first x here, rest x here y goesOn⟩

theorem ite (yes : p → Below a b) (no : ¬ p → Below c d) : Below (if p then a else c) (if p then b else d) := by
  split
  · next holds => exact yes holds
  · next fails => exact no fails

end Below

/-- It is enough that more fuel below the first turn does not change its result. -/
theorem fuel_mono {α β : Type*} {F : Nat → α → Option β} (zero : ∀ x, F 0 x = none)
    (turn : ∀ n m, n ≤ m → (∀ x, Below (F n x) (F m x)) → ∀ x, Below (F (n + 1) x) (F (m + 1) x)) {n m : Nat} (le : n ≤ m)
    (x : α) : Below (F n x) (F m x) := by
  induction n generalizing m x with
  | zero =>
    intro y ends
    rw [zero] at ends
    cases ends
  | succ n ih =>
    obtain ⟨m, rfl⟩ := Nat.exists_eq_add_of_lt le
    exact turn n _ (Nat.le_add_right n m) (ih (Nat.le_add_right n m)) x

end Ecos
