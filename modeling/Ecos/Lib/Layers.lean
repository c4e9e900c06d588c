import Mathlib.Data.Set.Lattice

/-! Layers of pending changes over a base: what is seen through them, and that merging two neighbouring layers, or the
lowest one into the base, does not change it. -/

namespace Layers
open List
variable {α β : Type*}

/-- The uppermost layer that knows `a` says what it is worth. -/
def lookup (base : α → β) (layers : List (α → Option β)) (a : α) : β :=
  (layers.findSome? fun layer => layer a).getD (base a)

variable {base : α → β} {upper lower : α → Option β} {layers : List (α → Option β)} {a : α}

theorem lookup_cons_some {b : β} (known : upper a = some b) : lookup base (upper :: layers) a = b := by
  rw [lookup, findSome?_cons, known]
  rfl

theorem lookup_cons_none (unknown : upper a = none) : lookup base (upper :: layers) a = lookup base layers a := by
  rw [lookup, findSome?_cons, unknown]
  rfl

/-- The upper of two layers goes first. -/
def merge (upper lower : α → Option β) (a : α) : Option β := (upper a).or (lower a)

theorem merge_some {b : β} (known : upper a = some b) : merge upper lower a = some b := by
  rw [merge, known]
  rfl

theorem merge_none (unknown : upper a = none) : merge upper lower a = lower a := by
  rw [merge, unknown]
  rfl

/-- The two uppermost layers may be merged. -/
theorem lookup_merge : lookup base (merge upper lower :: layers) = lookup base (upper :: lower :: layers) := by
  funext a
  cases known : upper a with
  | some b => rw [lookup_cons_some known, lookup_cons_some (merge_some known)]
  | none =>
    rw [lookup_cons_none known]
    cases below : lower a with
    | some b => rw [lookup_cons_some below, lookup_cons_some ((merge_none known).trans below)]
    | none => rw [lookup_cons_none below, lookup_cons_none ((merge_none known).trans below)]

/-- A single layer may be written into the base. -/
theorem lookup_install : lookup (fun a => (lower a).getD (base a)) [] = lookup base [lower] := by
  funext a
  cases known : lower a with
  | some b =>
    rw [lookup_cons_some known, lookup, findSome?_nil]
    simp [known]
  | none =>
    rw [lookup_cons_none known, lookup, lookup, findSome?_nil]
    simp [known]

/-- What a layer adds to a set and what it takes out of it. -/
structure Change (α : Type*) where
  added : Set α
  removed : Set α

/-- The members that no layer has taken out. -/
def visible (base : Set α) (layers : List (Change α)) : Set α :=
  {a | (a ∈ base ∨ ∃ layer ∈ layers, a ∈ layer.added) ∧ ∀ layer ∈ layers, a ∉ layer.removed}

/-- A removal meets the addition that the lower layer has made, and both are forgotten. -/
def Change.merge (upper lower : Change α) : Change α where
  added := lower.added \ upper.removed ∪ upper.added
  removed := lower.removed ∪ upper.removed \ lower.added

/-- Merging the two uppermost layers of a set that is kept once: what the upper one takes out of the lower one is
nowhere else. -/
theorem visible_merge {set : Set α} {upper lower : Change α} {layers : List (Change α)}
    (own : ∀ a ∈ upper.added, a ∉ upper.removed)
    (once : ∀ a ∈ upper.removed, a ∈ lower.added → a ∉ set ∧ ∀ layer ∈ layers, a ∉ layer.added) :
    visible set (upper.merge lower :: layers) = visible set (upper :: lower :: layers) := by
  ext a
  simp only [visible, Change.merge, Set.mem_ofPred_eq, mem_cons, exists_eq_or_imp, forall_eq_or_imp, Set.mem_union,
    Set.mem_sdiff, not_or, not_and, not_not]
  constructor
  · rintro ⟨present, ⟨kept, met⟩, above⟩
    have notUpper : a ∉ upper.removed := by
      intro taken
      have added := met taken
      rcases present with base | (⟨-, stays⟩ | new) | below
      · exact (once a taken added).1 base
      · exact stays taken
      · exact own a new taken
      · obtain ⟨layer, mem, holds⟩ := below
        exact (once a taken added).2 layer mem holds
    refine ⟨?_, notUpper, kept, above⟩
    rcases present with base | (⟨added, -⟩ | new) | below
    · exact .inl base
    · exact .inr (.inr (.inl added))
    · exact .inr (.inl new)
    · exact .inr (.inr (.inr below))
  · rintro ⟨present, notUpper, kept, above⟩
    refine ⟨?_, ⟨kept, fun taken => absurd taken notUpper⟩, above⟩
    rcases present with base | new | added | below
    · exact .inl base
    · exact .inr (.inl (.inr new))
    · exact .inr (.inl (.inl ⟨added, notUpper⟩))
    · exact .inr (.inr below)

/-- Writing the lowest layer into the set. -/
theorem visible_install {set : Set α} {lower : Change α} :
    visible ((set ∪ lower.added) \ lower.removed) [] = visible set [lower] := by
  ext a
  simp [visible]

end Layers
