import Ecos.Lib.Window

/-! Pieces that lie at a place of the contents. -/

namespace Ecos
open List
variable {α : Type*} {f g : Nat → α} {l r : List α} {a : α} {p q i : Nat}

/-- The values of `l` lie from `p` on. -/
def Lies (f : Nat → α) (p : Nat) (l : List α) : Prop := window f p l.length = l

@[simp] theorem lies_nil : Lies f p [] := rfl

theorem lies_append : Lies f p (l ++ r) ↔ Lies f p l ∧ Lies f (p + l.length) r := by
  unfold Lies
  rw [length_append, window_append]
  constructor
  · intro same
    exact append_inj same window_length
  · rintro ⟨left, right⟩
    rw [left, right]

theorem lies_cons : Lies f p (a :: l) ↔ f p = a ∧ Lies f (p + 1) l := by
  unfold Lies
  rw [length_cons, Nat.add_comm, window_append]
  constructor
  · intro same
    exact ⟨(cons.inj same).1, (cons.inj same).2⟩
  · rintro ⟨head, tail⟩
    rw [tail, ← head]
    rfl

theorem Lies.congr (lies : Lies f p l) (same : ∀ i, p ≤ i → i < p + l.length → g i = f i) : Lies g p l :=
  (window_congr same).trans lies

theorem lies_overwrite : Lies (overwrite f p l) p l := window_overwrite

/-- A piece stays where something else is written. -/
theorem Lies.overwrite (lies : Lies f p l) (apart : p + l.length ≤ q ∨ q + r.length ≤ p) :
    Lies (overwrite f q r) p l := by
  refine lies.congr fun i low high => ?_
  rcases apart with before | after
  · exact overwrite_of_lt (by omega)
  · exact overwrite_of_ge (by omega)

theorem lies_replicate {n : Nat} (same : ∀ i, p ≤ i → i < p + n → f i = a) : Lies f p (List.replicate n a) := by
  unfold Lies
  rw [length_replicate]
  exact window_const same

/-- A piece written over the middle of one that lies there. -/
theorem Lies.inside {m : List α} (lies : Lies f p (l ++ m)) (apart : q = p + l.length) (fits : r.length ≤ m.length) :
    Lies (Ecos.overwrite f q r) p (l ++ (r ++ m.drop r.length)) := by
  obtain ⟨left, right⟩ := lies_append.mp lies
  rw [← take_append_drop r.length m] at right
  have rest := (lies_append.mp right).2
  rw [length_take, min_eq_left fits] at rest
  refine lies_append.mpr ⟨left.overwrite (.inl (by omega)), lies_append.mpr ⟨?_, ?_⟩⟩
  · rw [apart]
    exact lies_overwrite
  · exact rest.overwrite (.inr (by omega))

end Ecos
