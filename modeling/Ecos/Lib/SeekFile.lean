import Ecos.Lib.Window

/-! A file that is read and written at offsets. -/

namespace Ecos
open List

/-- The contents up to the size, and zeros behind. -/
@[ext]
structure SeekFile (α : Type*) [Zero α] where
  data : Nat → α
  size : Nat
  beyond : ∀ i, size ≤ i → data i = 0

namespace SeekFile
variable {α : Type*} [Zero α] (f : SeekFile α) {l r : List α} {p m n : Nat}

/-- What follows an offset. -/
def rest (p : Nat) : List α := window f.data p (f.size - p)

def readAt (p n : Nat) : List α := (f.rest p).take n

/-- Nothing is written without bytes; a gap behind the end is filled with zeros. -/
def writeAt (p : Nat) (l : List α) : SeekFile α where
  data := overwrite f.data p l
  size := if l = [] then f.size else max f.size (p + l.length)
  beyond i outside := by
    split_ifs at outside with none
    · rw [none, overwrite_nil]
      exact f.beyond i outside
    · rw [overwrite_of_ge (by omega)]
      exact f.beyond i (by omega)

variable {f}

@[simp] theorem rest_length : (f.rest p).length = f.size - p := window_length

theorem rest_drop : (f.rest p).drop n = f.rest (p + n) := by
  by_cases inside : n ≤ f.size - p
  · have split : f.size - p = n + (f.size - (p + n)) := by omega
    rw [rest, split, window_append, drop_left' (by simp)]
    rfl
  · rw [drop_eq_nil_of_le (by simp; omega)]
    have none : f.size - (p + n) = 0 := by omega
    rw [rest, none, window_zero]

theorem readAt_prefix : f.readAt p n <+: f.rest p := take_prefix _ _

theorem readAt_length : (f.readAt p n).length = min n (f.size - p) := by simp [readAt]

@[simp] theorem readAt_zero : f.readAt p 0 = [] := take_zero

@[simp] theorem writeAt_nil : f.writeAt p [] = f := by
  ext
  · simp [writeAt]
  · simp [writeAt]

/-- Two pieces written one after the other. -/
theorem writeAt_append : (f.writeAt p l).writeAt (p + l.length) r = f.writeAt p (l ++ r) := by
  ext i
  · simp [writeAt, overwrite_append]
  · simp only [writeAt, append_eq_nil_iff, length_append]
    by_cases left : l = []
    · subst left
      simp
    · by_cases right : r = []
      · subst right
        simp [left]
      · rw [if_neg right, if_neg left, if_neg (fun both => left both.1)]
        omega

end SeekFile

end Ecos
