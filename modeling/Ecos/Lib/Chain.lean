import Mathlib.Data.List.Basic

/-! Singly linked lists: a pointer and the elements it leads to. -/

section Chain
variable {α : Type*} {next next' : α → Option α} {p : Option α} {x y : α} {l : List α}

/-- From `p` the links lead through `l` and then end. -/
def Chain (next : α → Option α) : Option α → List α → Prop
  | p, [] => p = none
  | p, x :: l => p = some x ∧ Chain next (next x) l

theorem Chain.congr (chain : Chain next p l) (same : ∀ x ∈ l, next' x = next x) : Chain next' p l := by
  induction l generalizing p with
  | nil => exact chain
  | cons x l ih =>
    refine ⟨chain.1, ?_⟩
    rw [same x (List.mem_cons_self ..)]
    exact ih chain.2 fun y mem => same y (List.mem_cons_of_mem x mem)

theorem Chain.nil_of_none (chain : Chain next none l) : l = [] := by
  cases l with
  | nil => rfl
  | cons x l => exact absurd chain.1 (by simp)

theorem Chain.cons_of_some (chain : Chain next (some x) l) : ∃ rest, l = x :: rest ∧ Chain next (next x) rest := by
  cases l with
  | nil => exact absurd chain (by simp [Chain])
  | cons y rest =>
    obtain rfl := Option.some.inj chain.1
    exact ⟨rest, rfl, chain.2⟩

theorem Chain.unique {l' : List α} (chain : Chain next p l) (chain' : Chain next p l') : l = l' := by
  induction l generalizing p l' with
  | nil =>
    obtain rfl : p = none := chain
    exact chain'.nil_of_none.symm
  | cons x l ih =>
    obtain ⟨rfl, rest⟩ := chain
    obtain ⟨rest', rfl, later⟩ := chain'.cons_of_some
    rw [ih rest later]

/-- The last element is linked to a new one, which ends the list. -/
theorem Chain.append (chain : Chain next p l) (last : l.getLast? = some y) (nodup : l.Nodup)
    (linked : next' y = some x) (ends : next' x = none) (others : ∀ z ∈ l, z ≠ y → next' z = next z) :
    Chain next' p (l ++ [x]) := by
  induction l generalizing p with
  | nil => simp at last
  | cons z l ih =>
    refine ⟨chain.1, ?_⟩
    cases l with
    | nil =>
      obtain rfl : z = y := by simpa using last
      exact ⟨linked, ends⟩
    | cons w rest =>
      have later : (w :: rest).getLast? = some y := by simpa using last
      have apart : z ≠ y := fun same =>
        (List.nodup_cons.mp nodup).1 (same ▸ List.mem_of_getLast? later)
      rw [others z (List.mem_cons_self ..) apart]
      exact ih chain.2 later (List.nodup_cons.mp nodup).2 fun u mem => others u (List.mem_cons_of_mem z mem)

theorem Chain.behind {front : List α} (chain : Chain next p (front ++ x :: l)) : Chain next (next x) l := by
  induction front generalizing p with
  | nil => exact chain.2
  | cons z front ih => exact ih chain.2

/-- Two neighbours change places. -/
theorem Chain.exchange {front : List α} {q : Option α} (chain : Chain next p (front ++ x :: y :: l))
    (nodup : (front ++ x :: y :: l).Nodup) (first : q = if front = [] then some y else p) (left : next' x = next y)
    (right : next' y = some x) (linked : ∀ z, front.getLast? = some z → next' z = some y)
    (others : ∀ z ∈ front, front.getLast? ≠ some z → next' z = next z) (rest : ∀ z ∈ l, next' z = next z) :
    Chain next' q (front ++ y :: x :: l) := by
  induction front generalizing p q with
  | nil =>
    subst first
    refine ⟨rfl, right, ?_⟩
    rw [left]
    exact chain.2.2.congr rest
  | cons z front ih =>
    have same : q = some z := first.trans (by simpa using chain.1)
    refine ⟨same, ih chain.2 (List.nodup_cons.mp nodup).2 ?_ ?_ ?_⟩
    · by_cases last : front = []
      · subst last
        rw [if_pos rfl]
        exact linked z rfl
      · rw [if_neg last]
        refine others z (List.mem_cons_self ..) fun ends => ?_
        rw [List.getLast?_cons_of_ne_nil last] at ends
        exact (List.nodup_cons.mp nodup).1 (List.mem_append_left _ (List.mem_of_getLast? ends))
    · intro w ends
      refine linked w ?_
      rw [List.getLast?_cons, ends]
      rfl
    · intro w mem notLast
      refine others w (List.mem_cons_of_mem z mem) fun ends => notLast ?_
      by_cases last : front = []
      · simp [last] at mem
      · rwa [List.getLast?_cons_of_ne_nil last] at ends

end Chain
