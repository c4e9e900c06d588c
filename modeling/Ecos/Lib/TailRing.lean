import Mathlib.Data.List.Chain

/-! Circular singly linked lists, known by a pointer to their last element. -/

section TailRing
variable {α : Type*} {next next' : α → Option α} {tail : Option α} {x y z : α} {l : List α}

/-- From the last element, which is `tail`, the links lead through `l` in order. -/
def TailRing (next : α → Option α) (tail : Option α) (l : List α) : Prop :=
  l.getLast? = tail ∧ ∀ y, tail = some y → List.IsChain (fun a b => next a = some b) (y :: l)

@[simp] theorem tailRing_none : TailRing next none l ↔ l = [] := by simp [TailRing]

theorem TailRing.nil : TailRing next none [] := by simp

/-- The links of all elements but the last decide whether a list is linked. -/
theorem isChain_next_congr (chain : l.IsChain fun a b => next a = some b) (same : ∀ a ∈ l.dropLast, next' a = next a) :
    l.IsChain fun a b => next' a = some b := by
  induction chain with
  | nil => exact .nil
  | singleton a => exact .singleton a
  | cons_cons link _ ih =>
    refine .cons_cons ?_ (ih fun b mem => same b ?_)
    · rw [same _ (by simp)]
      exact link
    · simp only [List.dropLast_cons_cons, List.mem_cons]
      exact .inr mem

theorem TailRing.congr (ring : TailRing next tail l) (same : ∀ a ∈ l, next' a = next a) : TailRing next' tail l := by
  refine ⟨ring.1, fun y isTail => isChain_next_congr (ring.2 y isTail) fun a mem => same a ?_⟩
  have inside : y ∈ l := List.mem_of_getLast? (ring.1.trans isTail)
  rcases List.mem_cons.mp (List.dropLast_subset _ mem) with rfl | mem
  · exact inside
  · exact mem

theorem TailRing.mem (ring : TailRing next (some y) l) : y ∈ l := List.mem_of_getLast? ring.1

/-- The link of the last element leads to the first. -/
theorem TailRing.first (ring : TailRing next (some y) l) : ∃ x rest, l = x :: rest ∧ next y = some x := by
  cases l with
  | nil => exact absurd ring.1 (by simp)
  | cons x rest => exact ⟨x, rest, rfl, ((List.isChain_cons_cons.mp (ring.2 y rfl)).1)⟩

/-- The last element of a list without repetitions is no source of its links. -/
theorem ne_last_of_mem_dropLast (nodup : l.Nodup) (last : l.getLast? = some y) {a : α} (mem : a ∈ l.dropLast) :
    a ≠ y := by
  have split : l = l.dropLast ++ [y] := (List.dropLast_append_getLast? y last).symm
  rintro rfl
  rw [split] at nodup
  exact (List.nodup_append.mp nodup).2.2 a mem a (by simp) rfl

/-- A ring whose last element is its first has no other. -/
theorem TailRing.last_eq_first (ring : TailRing next (some x) (x :: l)) (nodup : (x :: l).Nodup) : l = [] := by
  cases l with
  | nil => rfl
  | cons z rest =>
    have last : (z :: rest).getLast? = some x := by simpa using ring.1
    exact absurd (List.mem_of_getLast? last) (List.nodup_cons.mp nodup).1

variable [DecidableEq α]

/-- A new element, linked to itself, is a ring. -/
theorem TailRing.single (x : α) : TailRing (Function.update next x (some x)) (some x) [x] := by
  refine ⟨rfl, fun y same => ?_⟩
  obtain rfl := Option.some.inj same
  simp

/-- A new element is linked in behind the last one. -/
theorem TailRing.enqueue (ring : TailRing next (some y) l) (nodup : l.Nodup) (fresh : x ∉ l) :
    TailRing (Function.update (Function.update next x (next y)) y (some x)) (some x) (l ++ [x]) := by
  obtain ⟨z, rest, rfl, first⟩ := ring.first
  have apart : x ≠ y := fun same => fresh (same ▸ ring.mem)
  have inner := (List.isChain_cons_cons.mp (ring.2 y rfl)).2
  refine ⟨List.getLast?_concat .., fun y' same => ?_⟩
  obtain rfl := Option.some.inj same
  refine .cons_cons ?_ ?_
  · rw [Function.update_of_ne apart, Function.update_self, first]
  · have linked : List.IsChain (fun a b => Function.update (Function.update next x (next y)) y (some x) a = some b)
        (z :: rest) := by
      refine isChain_next_congr inner fun a mem => ?_
      have inside := List.dropLast_subset _ mem
      rw [Function.update_of_ne (ne_last_of_mem_dropLast nodup ring.1 mem),
        Function.update_of_ne (ne_of_mem_of_not_mem inside fresh)]
    refine List.IsChain.append linked (.singleton x) fun a last b first' => ?_
    obtain rfl : y = a := Option.some.inj (ring.1.symm.trans last)
    obtain rfl : x = b := by simpa using first'
    exact Function.update_self ..

/-- The first element is taken out, by moving the link of the last past it. -/
theorem TailRing.dequeue (ring : TailRing next (some y) (x :: l)) (nodup : (x :: l).Nodup) (others : x ≠ y) :
    TailRing (Function.update next y (next x)) (some y) l := by
  have inner := (List.isChain_cons_cons.mp (ring.2 y rfl)).2
  cases l with
  | nil => exact absurd (by simpa using ring.1) others
  | cons z rest =>
    have last : (z :: rest).getLast? = some y := by simpa using ring.1
    refine ⟨last, fun y' same => ?_⟩
    obtain rfl := Option.some.inj same
    obtain ⟨second, inner⟩ := List.isChain_cons_cons.mp inner
    refine .cons_cons (by rw [Function.update_self, second]) (isChain_next_congr inner fun a mem => ?_)
    exact Function.update_of_ne (ne_last_of_mem_dropLast (List.nodup_cons.mp nodup).2 last mem) _ _

end TailRing
