import Mathlib.Data.List.Pairwise
import Mathlib.Data.List.Perm.Basic

/-! Sorting by exchanging, again and again, the first two neighbours that are in the wrong order. -/

section Ripple
variable {α : Type*} {key : α → Nat} {l l' : List α} {a b : α}

/-- The first two neighbours in the wrong order are exchanged; `none` if there are none. -/
def ripple (key : α → Nat) : List α → Option (List α)
  | a :: b :: l => if key b < key a then some (b :: a :: l) else (ripple key (b :: l)).map (a :: ·)
  | _ => none

/-- The number of pairs in the wrong order. -/
def inversions (key : α → Nat) : List α → Nat
  | [] => 0
  | a :: l => l.countP (fun b => key b < key a) + inversions key l

theorem ripple_perm (exchanged : ripple key l = some l') : l'.Perm l := by
  induction l generalizing l' with
  | nil => simp [ripple] at exchanged
  | cons a l ih =>
    cases l with
    | nil => simp [ripple] at exchanged
    | cons b l =>
      rw [ripple] at exchanged
      split at exchanged
      · obtain rfl := Option.some.inj exchanged
        exact .swap ..
      · obtain ⟨rest, later, rfl⟩ := Option.map_eq_some_iff.mp exchanged
        exact (ih later).cons a

theorem ripple_less (exchanged : ripple key l = some l') : inversions key l' < inversions key l := by
  induction l generalizing l' with
  | nil => simp [ripple] at exchanged
  | cons a l ih =>
    cases l with
    | nil => simp [ripple] at exchanged
    | cons b l =>
      rw [ripple] at exchanged
      split at exchanged
      · next wrong =>
        obtain rfl := Option.some.inj exchanged
        have right : ¬key a < key b := by omega
        simp only [inversions, List.countP_cons, wrong, right, decide_true, decide_false, if_true,
          Bool.false_eq_true, if_false]
        omega
      · obtain ⟨rest, later, rfl⟩ := Option.map_eq_some_iff.mp exchanged
        have less := ih later
        have same := (ripple_perm later).countP_eq fun c => decide (key c < key a)
        rw [inversions, inversions, same]
        omega

/-- With nothing left to exchange, the list is sorted. -/
theorem ripple_sorted (done : ripple key l = none) : l.Pairwise fun a b => key a ≤ key b := by
  induction l with
  | nil => exact .nil
  | cons a l ih =>
    cases l with
    | nil => exact List.pairwise_singleton ..
    | cons b l =>
      rw [ripple] at done
      split at done
      · simp at done
      · next right =>
        have later := ih (Option.map_eq_none_iff.mp done)
        refine List.pairwise_cons.mpr ⟨fun c mem => ?_, later⟩
        rcases List.mem_cons.mp mem with rfl | further
        · omega
        · have := (List.pairwise_cons.mp later).1 c further
          omega

end Ripple
