import Mathlib.Data.List.Basic
import Mathlib.Algebra.GroupWithZero.Nat

/-! Bytes that are written to a memory one after the other. -/

namespace Ecos
open List Function

section Store
variable {α β : Type*} [DecidableEq α] {m : α → β} {l : List (α × β)} {a : α} {b : β}

/-- A memory after a sequence of writes. -/
def store (m : α → β) : List (α × β) → α → β
  | [] => m
  | (a, b) :: l => store (Function.update m a b) l

theorem store_of_notMem (absent : ∀ x ∈ l, x.1 ≠ a) : store m l a = m a := by
  induction l generalizing m with
  | nil => rfl
  | cons x l ih =>
    rw [store, ih fun y mem => absent y (mem_cons_of_mem _ mem)]
    exact update_of_ne (absent x (mem_cons_self ..)).symm ..

/-- All writes to a place are of one value. -/
theorem store_of_agree (found : ∃ x ∈ l, x.1 = a) (agree : ∀ x ∈ l, x.1 = a → x.2 = b) : store m l a = b := by
  induction l generalizing m with
  | nil =>
    obtain ⟨_, mem, _⟩ := found
    cases mem
  | cons x l ih =>
    rw [store]
    have later := fun y mem => agree y (mem_cons_of_mem _ mem)
    by_cases again : ∃ y ∈ l, y.1 = a
    · exact ih again later
    · obtain ⟨y, mem, at'⟩ := found
      rcases mem_cons.mp mem with rfl | mem
      · rw [store_of_notMem fun z mem' equal => again ⟨z, mem', equal⟩, ← at', update_self]
        exact agree y (mem_cons_self ..) at'
      · exact absurd ⟨y, mem, at'⟩ again

/-- A place that has a value whatever was there before has been written. -/
theorem exists_of_store [Nontrivial β] (stored : ∀ m, store m l a = b) : ∃ x ∈ l, x.1 = a := by
  by_contra absent
  obtain ⟨c, other⟩ := exists_ne b
  have kept := stored fun _ => c
  rw [store_of_notMem fun x mem equal => absent ⟨x, mem, equal⟩] at kept
  exact other kept

/-- Values that are written from an address on, behind the last of which the first one follows. -/
def piece (size : Nat) : Nat → List β → List (Nat × β)
  | _, [] => []
  | addr, b :: l => (addr, b) :: piece size ((addr + 1) % size) l

theorem mem_piece {size addr : Nat} {l : List β} {x : Nat × β} (inside : addr < size) :
    x ∈ piece size addr l ↔ ∃ i, l[i]? = some x.2 ∧ x.1 = (addr + i) % size := by
  induction l generalizing addr with
  | nil => simp [piece]
  | cons b l ih =>
    have next : ∀ i, ((addr + 1) % size + i) % size = (addr + (i + 1)) % size := fun i => by
      rw [Nat.mod_add_mod, Nat.add_right_comm, Nat.add_assoc]
    rw [piece, mem_cons, ih (Nat.mod_lt _ (by omega))]
    simp only [next]
    constructor
    · rintro (rfl | ⟨i, get, at'⟩)
      · exact ⟨0, rfl, (Nat.mod_eq_of_lt inside).symm⟩
      · exact ⟨i + 1, get, at'⟩
    · rintro ⟨i, get, at'⟩
      cases i with
      | zero =>
        rw [Nat.add_zero, Nat.mod_eq_of_lt inside] at at'
        exact .inl (Prod.ext at' (Option.some.inj get).symm)
      | succ i => exact .inr ⟨i, get, at'⟩

end Store

section Pieces
variable {ι : Type*} {start size shift length : ι → Nat}

/-- Pieces apart from each other, each moved up or shortened, still reach all their first places only if none was
moved or emptied: nothing from below comes to the first place of a piece that was. -/
theorem unmoved (apart : ∀ i j, i ≠ j → 0 < size i → 0 < size j → start i + size i ≤ start j ∨
    start j + size j ≤ start i)
    (short : ∀ i, length i ≤ size i)
    (covers : ∀ i, 0 < size i → ∃ j, start j + shift j ≤ start i ∧ start i < start j + shift j + length j) (i : ι)
    (some' : 0 < size i) : shift i = 0 ∧ 0 < length i := by
  induction at' : start i using Nat.strongRecOn generalizing i with
  | ind p ih =>
    obtain ⟨j, low, high⟩ := covers i some'
    have small := short j
    by_cases same : j = i
    · subst same
      omega
    have disjoint := apart j i same (by omega) some'
    have kept := ih (start j) (by omega) j (by omega) rfl
    omega

end Pieces

end Ecos
