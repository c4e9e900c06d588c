import Mathlib.Algebra.GroupWithZero.Nat
import Mathlib.Data.List.Range
import Mathlib.Data.List.GetD

/-! Contents as functions of a position: reading a window, writing over one. -/

namespace Ecos
open List Nat
variable {α : Type*} {f g : Nat → α} {l r : List α} {a : α} {p m n i : Nat}

/-- The values at the `n` positions from `p` on. -/
def window (f : Nat → α) (p n : Nat) : List α := (List.range' p n).map f

/-- The values of `l` written from `p` on. -/
def overwrite (f : Nat → α) (p : Nat) (l : List α) (i : Nat) : α := if i < p then f i else l.getD (i - p) (f i)

@[simp] theorem window_length : (window f p n).length = n := by simp [window]

@[simp] theorem window_zero : window f p 0 = [] := rfl

theorem window_append : window f p (m + n) = window f p m ++ window f (p + m) n := by
  have split : range' p m ++ range' (p + m) n = range' p (m + n) := by
    have joined := @range'_append p m n 1
    rwa [Nat.one_mul] at joined
  rw [window, ← split, map_append]
  rfl

theorem window_take : (window f p m).take n = window f p (min m n) := by
  rcases le_total m n with le | le
  · rw [min_eq_left le, take_of_length_le (by simpa using le)]
  · obtain ⟨k, rfl⟩ := Nat.exists_eq_add_of_le le
    rw [min_eq_right le, window_append, take_left' (by simp)]

theorem window_congr (same : ∀ i, p ≤ i → i < p + n → f i = g i) : window f p n = window g p n := by
  refine map_congr_left fun i mem => ?_
  obtain ⟨low, high⟩ := mem_range'_1.mp mem
  exact same i low high

theorem window_const (same : ∀ i, p ≤ i → i < p + n → f i = a) : window f p n = List.replicate n a := by
  rw [window_congr (g := fun _ => a) same, window, map_const', length_range']

theorem window_shift : window (fun i => f (m + i)) p n = window f (m + p) n := by
  rw [window, window, ← map_add_range', map_map]
  rfl

theorem overwrite_of_lt (before : i < p) : overwrite f p l i = f i := if_pos before

theorem overwrite_of_ge (after : p + l.length ≤ i) : overwrite f p l i = f i := by
  rw [overwrite, if_neg (by omega), getD_eq_default _ _ (by omega)]

theorem overwrite_inside (low : p ≤ i) (high : i < p + l.length) : overwrite f p l i = l.getD (i - p) (g i) := by
  rw [overwrite, if_neg (by omega)]
  simp only [getD_eq_getElem?_getD]
  rw [getElem?_eq_getElem (by omega)]
  rfl

@[simp] theorem overwrite_nil : overwrite f p [] = f := by
  funext i
  simp [overwrite]

/-- Two pieces written one after the other. -/
theorem overwrite_append : overwrite (overwrite f p l) (p + l.length) r = overwrite f p (l ++ r) := by
  funext i
  by_cases early : i < p + l.length
  · rw [overwrite_of_lt early]
    by_cases before : i < p
    · rw [overwrite_of_lt before, overwrite_of_lt before]
    · rw [overwrite_inside (g := f) (by omega) early, overwrite_inside (g := f) (by omega) (by rw [length_append]; omega)]
      rw [getD_append _ _ _ _ (by omega)]
  · by_cases late : p + l.length + r.length ≤ i
    · rw [overwrite_of_ge late, overwrite_of_ge (by omega), overwrite_of_ge (by rw [length_append]; omega)]
    · rw [overwrite_inside (g := f) (by omega) (by omega),
        overwrite_inside (g := f) (by omega) (by rw [length_append]; omega),
        getD_append_right _ _ _ _ (by omega), Nat.sub_sub]

theorem overwrite_congr (same : f i = g i) : overwrite f p l i = overwrite g p l i := by
  unfold overwrite
  rw [same]

/-- What was written is read back. -/
theorem window_overwrite : window (overwrite f p l) p l.length = l := by
  refine ext_getElem (by simp) fun i inside inside' => ?_
  have value : overwrite f p l (p + i) = l.getD i (f (p + i)) := by
    rw [overwrite_inside (g := f) (by omega) (by omega), Nat.add_sub_cancel_left]
  rw [getD_eq_getElem _ _ inside'] at value
  simpa [window] using value

/-- Contents shifted to another origin. -/
theorem overwrite_shift : overwrite (fun i => f (m + i)) p l i = overwrite f (m + p) l (m + i) := by
  unfold overwrite
  by_cases before : i < p
  · rw [if_pos before, if_pos (by omega)]
  · rw [if_neg before, if_neg (by omega), Nat.add_sub_add_left]

end Ecos
