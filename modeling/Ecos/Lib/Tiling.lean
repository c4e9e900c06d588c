import Mathlib.Data.List.Basic

/-! Pieces of a range of addresses that follow each other without gap or overlap. -/

section Tiling
variable {β : Type*} {start size start' size' : β → Nat} {a b p : Nat} {x y : β} {l r : List β}

/-- The pieces cover the range from `a` to `b` one after the other, and none is empty. -/
def Tiles (start size : β → Nat) : Nat → List β → Nat → Prop
  | a, [], b => a = b
  | a, x :: l, b => start x = a ∧ 0 < size x ∧ Tiles start size (a + size x) l b

attribute [local simp] Tiles in
theorem tiles_append : Tiles start size a (l ++ x :: r) b ↔
    Tiles start size a l (start x) ∧ 0 < size x ∧ Tiles start size (start x + size x) r b := by
  induction l generalizing a with
  | nil =>
    constructor
    · rintro ⟨rfl, rest⟩
      exact ⟨rfl, rest⟩
    · rintro ⟨rfl, rest⟩
      exact ⟨rfl, rest⟩
  | cons y l ih => simp only [List.cons_append, Tiles, ih, and_assoc]

theorem Tiles.congr (tiles : Tiles start size a l b) (starts : ∀ x ∈ l, start' x = start x)
    (sizes : ∀ x ∈ l, size' x = size x) : Tiles start' size' a l b := by
  induction l generalizing a with
  | nil => exact tiles
  | cons x l ih =>
    obtain ⟨here, positive, rest⟩ := tiles
    have sameStart := starts x (List.mem_cons_self ..)
    have sameSize := sizes x (List.mem_cons_self ..)
    refine ⟨sameStart.trans here, sameSize ▸ positive, ?_⟩
    rw [sameSize]
    exact ih rest (fun y mem => starts y (List.mem_cons_of_mem x mem))
      fun y mem => sizes y (List.mem_cons_of_mem x mem)

theorem tiles_map {γ : Type*} {f : γ → β} {l : List γ} :
    Tiles start size a (l.map f) b ↔ Tiles (start ∘ f) (size ∘ f) a l b := by
  induction l generalizing a with
  | nil => rfl
  | cons x l ih => simp only [List.map_cons, Tiles, Function.comp_apply, ih]

section
variable (tiles : Tiles start size a l b)
include tiles

theorem Tiles.le : a ≤ b := by
  induction l generalizing a with
  | nil => exact Nat.le_of_eq tiles
  | cons x l ih =>
    have later := ih tiles.2.2
    omega

theorem Tiles.within (mem : x ∈ l) : a ≤ start x ∧ 0 < size x ∧ start x + size x ≤ b := by
  obtain ⟨before, after, rfl⟩ := List.append_of_mem mem
  obtain ⟨left, positive, right⟩ := tiles_append.mp tiles
  exact ⟨left.le, positive, right.le⟩

/-- Each piece ends before every later one begins. -/
theorem Tiles.pairwise : l.Pairwise (fun x y => start x + size x ≤ start y) := by
  induction l generalizing a with
  | nil => exact List.Pairwise.nil
  | cons x l ih =>
    obtain ⟨here, positive, rest⟩ := tiles
    refine List.Pairwise.cons ?_ (ih rest)
    intro y mem
    have later := (rest.within mem).1
    omega

/-- Two pieces of a tiling are the same piece or lie apart. -/
theorem Tiles.apart (left : x ∈ l) (right : y ∈ l) :
    x = y ∨ start x + size x ≤ start y ∨ start y + size y ≤ start x := by
  obtain ⟨before, after, rfl⟩ := List.append_of_mem left
  have ordered := tiles.pairwise
  simp only [List.pairwise_append, List.pairwise_cons, List.mem_cons] at ordered
  simp only [List.mem_append, List.mem_cons] at right
  rcases right with earlier | same | later
  · exact .inr (.inr (ordered.2.2 y earlier x (.inl rfl)))
  · exact .inl same.symm
  · exact .inr (.inl (ordered.2.1.1 y later))

/-- So many pieces of at least the size `c` fit. -/
theorem Tiles.length_le {c : Nat} (sizes : ∀ x ∈ l, c ≤ size x) : a + c * l.length ≤ b := by
  induction l generalizing a with
  | nil => exact Nat.le_of_eq tiles
  | cons x l ih =>
    have here := sizes x (List.mem_cons_self ..)
    have later := ih tiles.2.2 fun y mem => sizes y (List.mem_cons_of_mem x mem)
    simp only [List.length_cons, Nat.mul_add, Nat.mul_one]
    omega

/-- Pieces of sizes that `d` divides keep the position of the first one relative to the grid of `d`. -/
theorem Tiles.dvd {d c : Nat} (base : d ∣ a + c)
    (sizes : ∀ x ∈ l, d ∣ size x) : (∀ x ∈ l, d ∣ start x + c) ∧ d ∣ b + c := by
  induction l generalizing a with
  | nil =>
    obtain rfl : a = b := tiles
    exact ⟨by simp, base⟩
  | cons x l ih =>
    obtain ⟨here, _, rest⟩ := tiles
    have next : d ∣ a + size x + c := by
      rw [Nat.add_right_comm]
      exact Nat.dvd_add base (sizes x (List.mem_cons_self ..))
    obtain ⟨starts, ends⟩ := ih rest next fun y mem => sizes y (List.mem_cons_of_mem x mem)
    refine ⟨?_, ends⟩
    intro y mem
    rcases List.mem_cons.mp mem with same | later
    · rw [same, here]
      exact base
    · exact starts y later

/-- Every address of the range is in a piece. -/
theorem Tiles.covers (low : a ≤ p) (high : p < b) : ∃ x ∈ l, start x ≤ p ∧ p < start x + size x := by
  induction l generalizing a with
  | nil =>
    obtain rfl : a = b := tiles
    omega
  | cons x l ih =>
    obtain ⟨here, positive, rest⟩ := tiles
    by_cases inside : p < a + size x
    · exact ⟨x, List.mem_cons_self .., by omega, by omega⟩
    · obtain ⟨y, mem, within⟩ := ih rest (by omega)
      exact ⟨y, List.mem_cons_of_mem _ mem, within⟩

end

theorem Tiles.append {c : Nat} {r : List β} (left : Tiles start size a l b) (right : Tiles start size b r c) :
    Tiles start size a (l ++ r) c := by
  induction l generalizing a with
  | nil =>
    obtain rfl : a = b := left
    exact right
  | cons x l ih => exact ⟨left.1, left.2.1, ih left.2.2⟩

end Tiling
