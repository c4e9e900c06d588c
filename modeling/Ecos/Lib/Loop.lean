import Mathlib.Data.List.Basic
import Mathlib.Data.Nat.Log

namespace Ecos
open List Nat

/-- What one turn of a loop comes to: another turn, or the end of the loop. -/
inductive Turn (σ ρ : Type*)
  | again (s : σ)
  | leave (r : ρ)

variable {σ ρ α : Type*}

/-- The loop that takes such turns, at most `fuel` of them; `none` if it goes on beyond that. -/
def spin (turn : σ → Option (Turn σ ρ)) : (fuel : ℕ) → σ → Option ρ
  | 0, _ => none
  | fuel + 1, s => (turn s).bind fun
    | .again s => spin turn fuel s
    | .leave r => some r

/-- A loop ends, with what every last turn ensures, if every other turn keeps the invariant
and brings the variant down. -/
theorem spin_spec {f : σ → Option (Turn σ ρ)} {I : σ → Prop} {Q : ρ → Prop} (variant : σ → ℕ)
    (step : ∀ s, I s → (∃ s', f s = some (.again s') ∧ I s' ∧ variant s' < variant s) ∨
      ∃ r, f s = some (.leave r) ∧ Q r)
    {k : ℕ} {s : σ} (start : I s) (enough : variant s < k) : ∃ r, spin f k s = some r ∧ Q r := by
  induction k generalizing s with
  | zero => exact absurd enough (not_lt_zero _)
  | succ k ih =>
    rcases step s start with ⟨s', taken, kept, less⟩ | ⟨r, taken, ends⟩
    · obtain ⟨r, rest, ends⟩ := ih kept (by omega)
      exact ⟨r, by rw [spin, taken]; exact rest, ends⟩
    · exact ⟨r, by rw [spin, taken]; rfl, ends⟩

/-- So does a loop over a list whose body always ends and keeps the invariant. -/
theorem foldlM_spec {f : σ → α → Option σ} {I : σ → Prop} {l : List α}
    (step : ∀ s x, x ∈ l → I s → ∃ s', f s x = some s' ∧ I s') {s : σ} (start : I s) :
    ∃ s', l.foldlM f s = some s' ∧ I s' := by
  induction l generalizing s with
  | nil => exact ⟨s, rfl, start⟩
  | cons x l ih =>
    obtain ⟨s', taken, kept⟩ := step s x mem_cons_self start
    obtain ⟨r, rest, ends⟩ := ih (fun s x mem => step s x (mem_cons_of_mem _ mem)) kept
    exact ⟨r, by rw [foldlM_cons, taken]; exact rest, ends⟩

/-- A loop that divides its number by 2 or more each time has few turns. -/
theorem log_lt_of_mul_eq {n k p : ℕ} (two : 2 ≤ p) (pos : 0 < n) (product : k * p = n) :
    Nat.log 2 k < Nat.log 2 n := by
  have kPos : k ≠ 0 := fun zero => by
    rw [zero, Nat.zero_mul] at product
    omega
  have double : k * 2 ≤ n := product ▸ Nat.mul_le_mul_left k two
  have grown := log_mono_right (b := 2) double
  rw [log_mul_base (by omega) kPos] at grown
  omega

end Ecos
