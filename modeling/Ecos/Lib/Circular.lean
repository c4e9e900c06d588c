import Mathlib.Data.List.Range

/-! Circular buffers: `count` items from `base` on in an array of `size` slots. -/

namespace Circular
open List Function Nat
variable {α : Type*} {size base count : Nat} {items : Nat → α}

/-- The slot `offset` places behind `base`, with at most one wraparound. -/
def slot (size base offset : Nat) : Nat := if size ≤ base + offset then base + offset - size else base + offset

def contents (size : Nat) (items : Nat → α) (base count : Nat) : List α :=
  (List.range count).map fun i => items (slot size base i)

@[simp] theorem contents_zero : contents size items base 0 = [] := rfl

theorem slot_injective {i j : Nat} (iLt : i < size) (jLt : j < size)
    (same : slot size base i = slot size base j) : i = j := by
  unfold slot at same
  split at same <;> split at same <;> omega

/-- The first item, and the rest from the next slot on. -/
theorem contents_pop (baseLt : base < size) (some : 0 < count) (fits : count ≤ size) :
    contents size items base count =
      items base :: contents size items (if size ≤ base + 1 then 0 else base + 1) (count - 1) := by
  obtain ⟨n, rfl⟩ := exists_eq_succ_of_ne_zero some.ne'
  have first : slot size base 0 = base := if_neg (by omega)
  simp only [contents, range_succ_eq_map, map_cons, map_map, first, succ_eq_add_one,
    Nat.add_sub_cancel]
  congr 1
  refine map_congr_left fun i mem => ?_
  have iLt := mem_range.mp mem
  have shifted : slot size base (i + 1) = slot size (if size ≤ base + 1 then 0 else base + 1) i := by
    unfold slot
    split <;> split <;> split <;> omega
  simp only [comp_apply, shifted]

/-- An item in the first free slot comes last. -/
theorem contents_push (room : count < size) (x : α) :
    contents size (Function.update items (slot size base count) x) base (count + 1) =
      contents size items base count ++ [x] := by
  simp only [contents, range_succ, map_append, map_singleton, update_self]
  congr 1
  refine map_congr_left fun i mem => ?_
  have iLt := mem_range.mp mem
  refine update_of_ne (fun same => ?_) _ _
  have eq := slot_injective (by omega) room same
  omega

/-- The items in two parts, the second by its own slots. -/
theorem contents_add (size : Nat) (items : Nat → α) (base m n : Nat) : contents size items base (m + n) =
    contents size items base m ++ (List.range n).map fun i => items (slot size base (m + i)) := by
  rw [contents, range_add, map_append, map_map]
  rfl

end Circular
