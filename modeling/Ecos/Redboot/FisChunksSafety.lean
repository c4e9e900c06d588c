import Ecos.Redboot.FisChunksSteps

namespace Ecos.Redboot.FisChunks
open List Option Nat Layout
variable {l : Layout} {img : Image} {images before after : List Image} {chunks : List Span} {c : Span} {s s' :
  State} {a : Nat}

/-- Nothing of an image is in a set. -/
def Image.Clear (i : Image) (F : Nat → Prop) : Prop := ∀ a, i.Has a → ¬F a

/-- A state of the second loop with the table as it should be. -/
structure Holds (l : Layout) (before : List Image) (s : State) : Prop where
  spans : Spans (l.Free before) s.chunks
  room : s.chunks.length ≤ l.maxChunks
  full : s.full → s.chunks.length = l.maxChunks

/-- What makes the step for an image right. -/
structure Step (l : Layout) (before : List Image) (img : Image) (s : State) : Prop where
  full : s.full → img.Clear (l.Free before)
  reach : l.Free before img.base ∨ img.Clear (l.Free before)
  top : l.Free before img.base → ¬Inner (l.Free before) img.base → img.base + img.size ≠ 2 ^ 32
  rest : l.Free before img.base → ¬Inner (l.Free before) img.base → l.Free before (img.base + img.size) →
    l.Free before (img.base + img.size + 1)
  split : l.Free before img.base → Inner (l.Free before) img.base → l.Free before (img.base + img.size) →
    pieces (l.Free before) + 1 ≤ l.maxChunks

/-- An image that splits a gap, into the last place of the table. -/
def Fills (l : Layout) (before : List Image) (img : Image) : Prop :=
  l.Free before img.base ∧ Inner (l.Free before) img.base ∧ l.Free before (img.base + img.size) ∧
    pieces (l.Free before) + 1 = l.maxChunks

theorem Image.Clear.base (clear : img.Clear (l.Free before)) (some' : 0 < img.size) : ¬l.Free before img.base :=
  clear img.base ⟨le_rfl, by omega⟩

section Next
variable (holds : Holds l before s) (proper : Proper l images) (isHere : images = before ++ img :: after)
  (first : ∀ x ∈ (l.devs.zipIdx.filter fun x => !l.reserved x.1.start).head?, l.IsBase x)
include holds proper isHere first

theorem Holds.next (stepped : l.step s img = some s') (spans : Spans (l.Free (before ++ [img])) s'.chunks) :
    Holds l (before ++ [img]) s' ∧ (s'.full ↔ s.full ∨ Fills l before img) := by
  have some' := proper.some' img (by simp [isHere])
  rw [step] at stepped
  by_cases full : s.full
  · rw [if_pos full] at stepped
    obtain rfl := some.inj stepped
    exact ⟨⟨spans, holds.room, holds.full⟩, by simp [full]⟩
  · rw [if_neg full] at stepped
    by_cases free : l.Free before img.base
    · have all : ∀ i < img.size, l.Free before (img.base + i) := fun i less =>
        proper.free isHere first free ⟨by omega, by omega⟩
      have bound : ∀ a, l.Free before a → a < 2 ^ 32 := fun a free => l.flash_lt free.1
      obtain ⟨_, longer, one⟩ := process_spec holds.spans some' bound free all fun a => free_append
      have count := holds.spans.pieces
      by_cases splits : s.chunks.length < (process img s.chunks).length
      · rw [if_pos splits] at stepped
        by_cases room : s.chunks.length < l.maxChunks
        · rw [if_pos room] at stepped
          obtain rfl := some.inj stepped
          refine ⟨⟨spans, by dsimp only; omega, by simp⟩, ?_⟩
          simp only [decide_eq_true_eq, full, Bool.false_eq_true, false_or, Fills, free, longer.mp splits, true_and,
            count]
          omega
        · rw [if_neg room] at stepped
          cases stepped
      · rw [if_neg splits] at stepped
        obtain rfl := some.inj stepped
        have notFills : ¬Fills l before img := fun fills => splits (longer.mpr ⟨fills.2.1, fills.2.2.1⟩)
        exact ⟨⟨spans, by dsimp only; have := holds.room; omega, by simp⟩, by simp [full, notFills]⟩
    · have outside : ∀ c ∈ s.chunks, ¬c.Has img.base := fun c mem has =>
        free ((holds.spans.holds _).mpr ⟨c, mem, has⟩)
      rw [process_none outside] at stepped
      rw [if_neg (lt_irrefl _)] at stepped
      obtain rfl := some.inj stepped
      exact ⟨⟨spans, holds.room, by simp⟩, by simp [full, Fills, free]⟩

end Next

theorem isFree_spec {addr length : Nat} (free : isFree chunks addr length) (positive : 0 < length)
    (fits : addr + length ≤ 2 ^ 32) :
    ∃ c ∈ chunks, c.start ≤ addr ∧ addr + length ≤ c.last + 1 := by
  obtain ⟨c, mem, inside⟩ := any_eq_true.mp free
  obtain ⟨low, high⟩ := of_decide_eq_true inside
  rw [show addr + length + 2 ^ 32 - 1 = addr + length - 1 + 2 ^ 32 by omega, add_mod_right,
    mod_eq_of_lt (by omega)] at high
  exact ⟨c, mem, low, by omega⟩

theorem fisFindFree_spec {addr length : Nat} (proper : ∀ c ∈ chunks, c.start ≤ c.last ∧ c.last < 2 ^ 32)
    (found : fisFindFree chunks length = some addr) (positive : 0 < length) :
    ∃ c ∈ chunks, c.start ≤ addr ∧ addr + length ≤ c.last + 1 := by
  obtain ⟨c, isFirst, rfl⟩ := map_eq_some_iff.mp found
  have mem := mem_of_find?_eq_some isFirst
  have large : (c.last + 2 ^ 32 - c.start + 1) % 2 ^ 32 ≥ length := by simpa using find?_some isFirst
  have := proper c mem
  rw [show c.last + 2 ^ 32 - c.start + 1 = c.last - c.start + 1 + 2 ^ 32 by omega, add_mod_right] at large
  rw [mod_eq_of_lt (by omega)] at large
  exact ⟨c, mem, le_rfl, by omega⟩

theorem place_spec {d : Driver} {flashStart length imgSize addr size : Nat} {noCopy : Bool} {flashAddr : Option Nat}
    (placed : place d flashStart chunks noCopy flashAddr length imgSize = some (addr, size)) :
    flashAddr.or (fisFindFree chunks length) = some addr ∧ (noCopy || isFree chunks addr size) = true := by
  simp only [place, bind, bind_eq_some_iff, guard_eq_some', some.injEq, Prod.mk.injEq] at placed
  obtain ⟨_, _, _, found, _, _, _, _, _, _, _, free, rfl, rfl⟩ := placed
  exact ⟨found, free⟩

theorem meets (proper : Proper l images) (spans : Spans (l.Free images) chunks) : Meets l images chunks := by
  have free : ∀ {c a}, c ∈ chunks → c.Has a → l.Free images a := fun mem has => (spans.holds _).mpr ⟨_, mem, has⟩
  refine ⟨spans.proper, ?_, fun c mem a has => (free mem has).2, fun _ a => ?_, ?_⟩
  · exact spans.apart.imp fun less a has has' => by
      have := has.2
      have := has'.1
      omega
  · constructor
    · intro flash
      by_cases area : l.BaseArea a
      · exact .inr (.inr area)
      · by_cases taken : ∃ i ∈ images, i.Has a
        · exact .inr (.inl taken)
        · exact .inl ((spans.holds a).mp ⟨flash, area, fun i mem has => taken ⟨i, mem, has⟩⟩)
    · rintro (⟨c, mem, has⟩ | ⟨i, mem, has⟩ | area)
      · exact (free mem has).1
      · exact proper.inside i mem a has
      · exact l.baseArea_flash area
  · intro d flashStart noCopy flashAddr length imgSize addr size placed fits option a inside
    obtain ⟨low, high⟩ := inside
    dsimp only at low high
    obtain ⟨found, test⟩ := place_spec placed
    obtain ⟨c, mem, start, last⟩ : ∃ c ∈ chunks, c.start ≤ addr ∧ addr + size ≤ c.last + 1 := by
      rcases option with rfl | ⟨rfl, rounded⟩
      · exact isFree_spec test (by omega) fits
      · have proper' : ∀ c ∈ chunks, c.start ≤ c.last ∧ c.last < 2 ^ 32 := fun c mem =>
          ⟨spans.proper c mem, l.flash_lt (free mem ⟨spans.proper c mem, le_rfl⟩).1⟩
        obtain ⟨c, mem, start, last⟩ := fisFindFree_spec proper' found (by omega)
        exact ⟨c, mem, start, by omega⟩
    exact (free mem ⟨by omega, by omega⟩).2.2

/-- One device, with an area of a page for systems before RedBoot. -/
def Info.layout (x : Info) (within : x.start + 0x1000 ≤ x.last) : Layout where
  devs := [x]
  reserved _ := false
  flashBase := none
  reservedBase := 0x1000
  maxChunks := 20
  ascending := List.pairwise_singleton ..
  within := fun y member _ => by
    simp only [List.zipIdx_cons, List.zipIdx_nil, List.mem_singleton] at member
    rw [member]
    exact within

section
variable {x : Info} {within : x.start + 0x1000 ≤ x.last}

end

def rom : Info := ⟨0x10000, 0x1FFFF, by decide, by decide⟩

end Ecos.Redboot.FisChunks
