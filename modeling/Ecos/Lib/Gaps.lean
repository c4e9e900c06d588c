import Mathlib.Data.Set.Card

/-! Sets of numbers as lists of their gapless pieces. -/

namespace Ecos
open List

/-- The numbers from one to another. -/
@[ext] structure Span where
  start : Nat
  last : Nat
  deriving DecidableEq

def Span.Has (c : Span) (a : Nat) : Prop := c.start ≤ a ∧ a ≤ c.last

instance (c : Span) (a : Nat) : Decidable (c.Has a) := inferInstanceAs (Decidable (_ ∧ _))

/-- A list holds the maximal gapless pieces of a set, in their order. -/
structure Spans (s : Nat → Prop) (l : List Span) : Prop where
  proper : ∀ c ∈ l, c.start ≤ c.last
  apart : l.Pairwise fun c d => c.last + 1 < d.start
  holds : ∀ a, s a ↔ ∃ c ∈ l, c.Has a

/-- The place before is in the set too. -/
def Inner (s : Nat → Prop) (a : Nat) : Prop := a ≠ 0 ∧ s (a - 1)

/-- The number of pieces of a set. -/
noncomputable def pieces (s : Nat → Prop) : Nat := Set.ncard { a | s a ∧ ¬Inner s a }

variable {s s' : Nat → Prop} {l pre post cs : List Span} {c d : Span} {a : Nat}

section
variable (spans : Spans s l)
include spans

theorem Spans.ends (left : c ∈ l) (right : d ∈ l) : c = d ∨ c.last + 1 < d.start ∨ d.last + 1 < c.start := by
  by_cases same : c = d
  · exact .inl same
  · have : Std.Symm fun c d : Span => c.last + 1 < d.start ∨ d.last + 1 < c.start := ⟨fun _ _ => Or.symm⟩
    have either : l.Pairwise fun c d => c.last + 1 < d.start ∨ d.last + 1 < c.start := spans.apart.imp .inl
    exact .inr (either.forall left right same)

theorem Spans.same (left : c ∈ l) (right : d ∈ l) (inLeft : c.Has a) (inRight : d.Has a) : c = d := by
  obtain ⟨low, high⟩ := inLeft
  obtain ⟨low', high'⟩ := inRight
  rcases spans.ends left right with same | before | behind
  · exact same
  · omega
  · omega

/-- A piece starts where the set has nothing before. -/
theorem Spans.inner_iff (mem : c ∈ l) (has : c.Has a) : Inner s a ↔ a ≠ c.start := by
  obtain ⟨low, high⟩ := has
  constructor
  · rintro ⟨positive, before⟩ rfl
    obtain ⟨d, mem', low', high'⟩ := (spans.holds _).mp before
    have := spans.proper c mem
    rcases spans.ends mem mem' with rfl | less | less <;> omega
  · intro other
    exact ⟨by omega, (spans.holds _).mpr ⟨c, mem, by omega, by omega⟩⟩

theorem Spans.next_iff (mem : c ∈ l) (has : c.Has a) : s (a + 1) ↔ a ≠ c.last := by
  obtain ⟨low, high⟩ := has
  constructor
  · rintro next rfl
    obtain ⟨d, mem', low', high'⟩ := (spans.holds _).mp next
    rcases spans.ends mem mem' with rfl | less | less <;> omega
  · intro other
    exact (spans.holds _).mpr ⟨c, mem, by omega, by omega⟩

theorem Spans.pieces : pieces s = l.length := by
  have starts : { a | s a ∧ ¬Inner s a } = ((l.map Span.start).toFinset : Set Nat) := by
    ext a
    simp only [Set.mem_ofPred_eq, coe_toFinset, mem_map]
    constructor
    · rintro ⟨isIn, first⟩
      obtain ⟨c, mem, has⟩ := (spans.holds a).mp isIn
      rw [spans.inner_iff mem has, not_not] at first
      exact ⟨c, mem, first.symm⟩
    · rintro ⟨c, mem, rfl⟩
      have has : c.Has c.start := ⟨le_rfl, spans.proper c mem⟩
      rw [spans.inner_iff mem has, not_not]
      exact ⟨(spans.holds _).mpr ⟨c, mem, has⟩, rfl⟩
  have nodup : (l.map Span.start).Nodup := by
    refine pairwise_map.mpr ((pairwise_iff_forall_sublist.mpr fun {c d} two => ?_))
    have less := pairwise_iff_forall_sublist.mp spans.apart two
    have := spans.proper c (two.subset (mem_cons_self ..))
    omega
  rw [Ecos.pieces, starts, Set.ncard_coe_finset, toFinset_card_of_nodup nodup, length_map]

/-- A set that stays between two places without leaving out any lies in one piece. -/
theorem Spans.within (mem : c ∈ l) (has : c.Has a) {n : Nat} (all : ∀ i < n, s (a + i)) : ∀ i < n, c.Has (a + i) := by
  intro i less
  induction i with
  | zero => exact has
  | succ i ih =>
    have before := ih (by omega)
    have next := (spans.next_iff mem before).mp (all (i + 1) less)
    exact ⟨by have := before.1; omega, by have := before.2; omega⟩

end

/-- A piece is replaced by pieces of it. -/
theorem Spans.replace (spans : Spans s (pre ++ c :: post))
    (inside : ∀ d ∈ cs, c.start ≤ d.start ∧ d.start ≤ d.last ∧ d.last ≤ c.last)
    (apart : cs.Pairwise fun c d => c.last + 1 < d.start)
    (holds : ∀ a, s' a ↔ (∃ d ∈ cs, d.Has a) ∨ s a ∧ ¬c.Has a) : Spans s' (pre ++ cs ++ post) := by
  have split := spans.apart
  rw [pairwise_append, pairwise_cons] at split
  obtain ⟨first, ⟨behind, rest⟩, between⟩ := split
  refine ⟨fun d mem => ?_, ?_, fun a => ?_⟩
  · rw [append_assoc, mem_append, mem_append] at mem
    rcases mem with before | here | after
    · exact spans.proper d (mem_append_left _ before)
    · exact (inside d here).2.1
    · exact spans.proper d (mem_append_right _ (mem_cons_of_mem _ after))
  · rw [append_assoc, pairwise_append, pairwise_append]
    refine ⟨first, ⟨apart, rest, fun d here e after => ?_⟩, fun d before e mem => ?_⟩
    · have := inside d here
      have := behind e after
      omega
    · rcases mem_append.mp mem with here | after
      · have := inside e here
        have := between d before c (mem_cons_self ..)
        omega
      · exact between d before e (mem_cons_of_mem _ after)
  · rw [holds]
    constructor
    · rintro (⟨d, here, has⟩ | ⟨isIn, outside⟩)
      · exact ⟨d, mem_append_left _ (mem_append_right _ here), has⟩
      · obtain ⟨d, mem, has⟩ := (spans.holds a).mp isIn
        rcases mem_append.mp mem with before | mem
        · exact ⟨d, mem_append_left _ (mem_append_left _ before), has⟩
        · rcases mem_cons.mp mem with rfl | after
          · exact absurd has outside
          · exact ⟨d, mem_append_right _ after, has⟩
    · rintro ⟨d, mem, has⟩
      rw [append_assoc, mem_append, mem_append] at mem
      have isC : c ∈ pre ++ c :: post := mem_append_right _ (mem_cons_self ..)
      have other : ∀ {d}, d ∈ pre ++ c :: post → d.Has a → d ≠ c → s a ∧ ¬c.Has a := fun mem has ne =>
        ⟨(spans.holds a).mpr ⟨_, mem, has⟩, fun hasToo => ne (spans.same mem isC has hasToo)⟩
      rcases mem with before | here | after
      · refine .inr (other (mem_append_left _ before) has ?_)
        rintro rfl
        have := between d before d (mem_cons_self ..)
        have := spans.proper d isC
        omega
      · exact .inl ⟨d, here, has⟩
      · refine .inr (other (mem_append_right _ (mem_cons_of_mem _ after)) has ?_)
        rintro rfl
        have := behind d after
        have := spans.proper d isC
        omega

/-- A list that holds two sets holds one. -/
theorem Spans.congr (spans : Spans s l) (spans' : Spans s' l) (a : Nat) : s a ↔ s' a :=
  (spans.holds a).trans (spans'.holds a).symm

/-- A piece that begins where the last one ends makes it longer. -/
theorem Spans.extend (spans : Spans s (l ++ [c])) (next : c.last + 1 = d.start) (proper : d.start ≤ d.last) :
    Spans (fun a => s a ∨ d.Has a) (l ++ [⟨c.start, d.last⟩]) := by
  have last := spans.proper c (by simp)
  have apart := pairwise_append.mp spans.apart
  refine ⟨fun e mem => ?_, pairwise_append.mpr ⟨apart.1, pairwise_singleton .., fun e mem f isF =>
    ?_⟩, fun a => ?_⟩
  · rcases mem_append.mp mem with before | isE
    · exact spans.proper e (mem_append_left _ before)
    · obtain rfl := mem_singleton.mp isE
      dsimp only
      omega
  · obtain rfl := mem_singleton.mp isF
    exact apart.2.2 e mem c (mem_singleton_self _)
  · have holds := spans.holds a
    simp only [mem_append, mem_singleton, or_and_right, exists_or, exists_eq_left, Span.Has] at holds ⊢
    rw [holds, or_assoc]
    have joined : (c.start ≤ a ∧ a ≤ c.last ∨ d.start ≤ a ∧ a ≤ d.last) ↔ c.start ≤ a ∧ a ≤ d.last := by omega
    rw [joined]

theorem Spans.push (spans : Spans s l) (behind : ∀ c ∈ l, c.last + 1 < d.start) (proper : d.start ≤ d.last) :
    Spans (fun a => s a ∨ d.Has a) (l ++ [d]) := by
  refine ⟨fun e mem => ?_, pairwise_append.mpr ⟨spans.apart, pairwise_singleton ..,
    fun e mem f isF => ?_⟩, fun a => ?_⟩
  · rcases mem_append.mp mem with before | isE
    · exact spans.proper e before
    · obtain rfl := mem_singleton.mp isE
      exact proper
  · obtain rfl := mem_singleton.mp isF
    exact behind e mem
  · simp only [spans.holds a, mem_append, mem_singleton, or_and_right, exists_or, exists_eq_left]

end Ecos
