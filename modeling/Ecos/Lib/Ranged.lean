import Mathlib.Data.Int.Bitwise
import Mathlib.Data.Int.ModEq

/-! Machine arithmetic on integers: a value, and whether every result on the way to it was in the range of its type. -/

/-- A computed value with a record of its range checks. -/
structure Ranged (α : Type*) where
  value : α
  inRange : Bool
  deriving DecidableEq

namespace Ranged
variable {α β : Type*} {x lo hi : Int}

instance : Monad Ranged where
  pure a := ⟨a, true⟩
  bind r f := ⟨(f r.value).value, r.inRange && (f r.value).inRange⟩

/-- The result of an operation that has `2 ^ bits` values from `lo` on, which wraps around. -/
def wrap (lo : Int) (bits : Nat) (x : Int) : Ranged Int :=
  ⟨(x - lo) % 2 ^ bits + lo, lo ≤ x ∧ x < lo + 2 ^ bits⟩

/-- An operation on 16 bits without a sign. -/
def u16 (x : Int) : Ranged Int := wrap 0 16 x

/-- An operation on 32 bits without a sign. -/
def u32 (x : Int) : Ranged Int := wrap 0 32 x

/-- An operation on 32 bits with a sign. -/
def i32 (x : Int) : Ranged Int := wrap (-2 ^ 31) 32 x

instance : LawfulMonad Ranged :=
  .mk' _ (fun _ => by simp [Functor.map]) (fun _ _ => rfl) fun _ _ _ => by simp [bind, Bool.and_assoc]

theorem wrap_of_mem {bits : Nat} (low : lo ≤ x) (high : x < lo + 2 ^ bits) : wrap lo bits x = pure x := by
  have value : (x - lo) % 2 ^ bits + lo = x := by
    rw [Int.emod_eq_of_lt (by omega) (by omega), Int.sub_add_cancel]
  simp only [wrap, value, low, high, and_self, decide_true]
  rfl

theorem u16_of_mem (low : 0 ≤ x) (high : x < 2 ^ 16) : u16 x = pure x := wrap_of_mem low (by omega)

theorem u32_of_mem (low : 0 ≤ x) (high : x < 2 ^ 32) : u32 x = pure x := wrap_of_mem low (by omega)

theorem i32_of_mem (low : -2 ^ 31 ≤ x) (high : x < 2 ^ 31) : i32 x = pure x := wrap_of_mem low (by omega)

end Ranged
