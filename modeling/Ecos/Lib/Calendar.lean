import Mathlib

/-! A line of days cut into pieces, such as months or years, which are numbered by the integers. -/

namespace Ecos.Calendar
open Finset
variable {len : Int → Int}

/-- The days before piece `n`, counted from piece `0`. -/
noncomputable def start (len : Int → Int) (n : Int) : Int := ∑ k ∈ Finset.Ico 0 n, len k - ∑ k ∈ Finset.Ico n 0, len k

theorem start_zero : start len 0 = 0 := by simp [start]

theorem start_succ (len : Int → Int) (n : Int) : start len (n + 1) = start len n + len n := by
  rcases lt_or_ge n 0 with neg | pos
  · have left : Ico n 0 = insert n (Ico (n + 1) 0) := by
      ext k
      simp only [mem_Ico, mem_insert]
      omega
    rw [start, start, left, sum_insert (by simp), Ico_eq_empty (by omega : ¬ (0 : Int) < n + 1),
      Ico_eq_empty (by omega : ¬ 0 < n)]
    simp
  · have right : Ico 0 (n + 1) = insert n (Ico 0 n) := by
      ext k
      simp only [mem_Ico, mem_insert]
      omega
    rw [start, start, right, sum_insert (by simp), Ico_eq_empty (by omega : ¬ n + 1 < 0),
      Ico_eq_empty (by omega : ¬ n < 0)]
    simp [add_comm]

/-- A function that grows by the lengths is the start of the pieces, up to where it begins. -/
theorem eq_start (f len : Int → Int) (grows : ∀ n, f (n + 1) = f n + len n) (n : Int) : f n = f 0 + start len n := by
  induction n using Int.induction_on with
  | zero => rw [start_zero, add_zero]
  | succ k ih =>
    rw [grows, ih, start_succ, add_assoc]
  | pred k ih =>
    have last := grows (-(k : Int) - 1)
    have first := start_succ len (-(k : Int) - 1)
    rw [sub_add_cancel] at last first
    linarith

theorem start_le (positive : ∀ n, 0 < len n) {m n : Int} (le : m ≤ n) : start len m ≤ start len n := by
  induction n, le using Int.leInduction with
  | base => exact le_refl _
  | succ k _ ih =>
    have more := positive k
    rw [start_succ]
    linarith

/-- A day lies in one piece only. -/
theorem unique (positive : ∀ n, 0 < len n) {m n d e : Int} (same : start len m + d = start len n + e)
    (first : 1 ≤ d ∧ d ≤ len m) (second : 1 ≤ e ∧ e ≤ len n) : m = n ∧ d = e := by
  have order : ∀ {m n d e : Int}, start len m + d = start len n + e → d ≤ len m → 1 ≤ e → ¬ m < n := by
    intro m n d e same within some less
    have before := start_le positive (Int.add_one_le_iff.mpr less)
    rw [start_succ] at before
    linarith
  have eq : m = n := le_antisymm (not_lt.mp (order same.symm second.2 first.1)) (not_lt.mp (order same first.2 second.1))
  subst eq
  exact ⟨rfl, by linarith⟩

end Ecos.Calendar
