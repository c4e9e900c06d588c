import Mathlib.Data.Fintype.Card
import Mathlib.Algebra.Group.Nat.Defs

/-! How many parties are in a given phase. -/

section Tally
variable {T α : Type*} [Fintype T] [DecidableEq T]

def tally (p : α → Bool) (f : T → α) : Nat := (Finset.univ.filter fun t => p (f t) = true).card

variable {p : α → Bool} {f : T → α} {t : T} {x : α}

/-- One party moves on. -/
theorem tally_update (p : α → Bool) (f : T → α) (t : T) (x : α) :
    tally p (Function.update f t x) + (p (f t)).toNat = tally p f + (p x).toNat := by
  have split : ∀ g : T → α, tally p g = (Finset.univ.filter fun u => u ≠ t ∧ p (g u) = true).card + (p (g t)).toNat := by
    intro g
    have rest : (Finset.univ.filter fun u => p (g u) = true).erase t = Finset.univ.filter fun u => u ≠ t ∧ p (g u) = true := by
      ext u
      simp
    cases here : p (g t) with
    | false =>
      have absent : t ∉ Finset.univ.filter fun u => p (g u) = true := by simp [here]
      rw [tally, ← rest, Finset.erase_eq_of_notMem absent]
      rfl
    | true =>
      have mem : t ∈ Finset.univ.filter fun u => p (g u) = true := by simp [here]
      rw [tally, ← rest, ← Finset.card_erase_add_one mem]
      rfl
  have others : (Finset.univ.filter fun u => u ≠ t ∧ p (Function.update f t x u) = true) =
      Finset.univ.filter fun u => u ≠ t ∧ p (f u) = true := by
    refine Finset.filter_congr fun u _ => ?_
    refine and_congr_right fun ne => ?_
    rw [Function.update_of_ne ne]
  rw [split f, split (Function.update f t x), others, Function.update_self]
  omega

theorem tally_pos (here : p (f t) = true) : 0 < tally p f :=
  Finset.card_pos.mpr ⟨t, by simp [here]⟩

theorem tally_eq_zero (none : ∀ t, p (f t) = false) : tally p f = 0 := by
  simp [tally, none]

end Tally
