import Ecos.Ramfs.BlocksLayout

namespace Ecos.Ramfs.BlocksData
open Option Nat
variable {B : Type} [DecidableEq B] {cfg : BlocksConfig} {s s' : BlocksData B} {p q : Place} {b c : B} {t : Table B}
  {f : Nat → UInt8} {pos i o : Nat} {alloc : Bool} {free : List B}

/-- The byte at an offset of the block at a place; a hole is zero. -/
def byteAt (s : BlocksData B) (p : Place) (o : Nat) : UInt8 :=
  match s.get p with
  | none => 0
  | some b => ((s.blocks b).data.getD fun _ => 0) o

/-- The blocks hold the contents. -/
structure Holds (cfg : BlocksConfig) (s : BlocksData B) (f : Nat → UInt8) : Prop where
  tree : s.Tree cfg
  bytes : ∀ pos p, cfg.place pos = some p → s.byteAt p (pos % cfg.blockSize) = f pos

theorem Hung.tree (hung : s.Hung s' p b free) (tree : s.Tree cfg) (legal : p.Legal cfg) (some' : s.free = b :: free) :
    s'.Tree cfg := by
  have once : b ∉ free ∧ free.Nodup := List.nodup_cons.mp (some' ▸ tree.nodup)
  have fresh : ∀ {q c}, s.get q = some c → c ≠ b := by
    rintro q c here rfl
    exact tree.used here (by simp [some'])
  have cases : ∀ {q c}, s'.get q = some c → (q = p ∧ c = b) ∨ (q ≠ p ∧ s.get q = some c) := by
    intro q c here
    rw [hung.get] at here
    by_cases same : q = p
    · rw [if_pos same] at here
      exact .inl ⟨same, (some.inj here).symm⟩
    · rw [if_neg same] at here
      exact .inr ⟨same, here⟩
  refine ⟨fun here => ?_, fun here here' => ?_, fun here => ?_, hung.free ▸ once.2, fun here deep => ?_, fun here flat => ?_⟩
  · rcases cases here with ⟨rfl, _⟩ | ⟨_, old⟩
    · exact legal
    · exact tree.legal old
  · rcases cases here with ⟨rfl, rfl⟩ | ⟨_, old⟩
    · rcases cases here' with ⟨rfl, _⟩ | ⟨_, old'⟩
      · rfl
      · exact absurd rfl (fresh old')
    · rcases cases here' with ⟨_, rfl⟩ | ⟨_, old'⟩
      · exact absurd rfl (fresh old)
      · exact tree.distinct old old'
  · rw [hung.free]
    rcases cases here with ⟨_, rfl⟩ | ⟨_, old⟩
    · exact once.1
    · exact fun mem => tree.used old (by simp [some', mem])
  · rcases cases here with ⟨_, rfl⟩ | ⟨_, old⟩
    · simp [hung.new]
    · exact hung.tables old (tree.tables old deep)
  · rcases cases here with ⟨_, rfl⟩ | ⟨_, old⟩
    · simp [hung.new]
    · rcases hung.data old with same | deep
      · rw [same]
        exact tree.leaves old flat
      · omega

theorem Hung.holds (hung : s.Hung s' p b free) (holds : s.Holds cfg f) (legal : p.Legal cfg) (none : s.get p = none)
    (some' : s.free = b :: free) : s'.Holds cfg f where
  tree := hung.tree holds.tree legal some'
  bytes pos q here := by
    rw [← holds.bytes pos q here]
    unfold byteAt
    rw [hung.get]
    by_cases same : q = p
    · subst same
      simp [none, hung.new]
    · rw [if_neg same]
      cases at' : s.get q with
      | none => rfl
      | some c =>
        rcases hung.data at' with equal | deep
        · simp only [equal]
        · have flat := (BlocksConfig.place_legal here).2
          omega

/-- Every block is still where it was. -/
def Extends (s s' : BlocksData B) : Prop := ∀ q b, s.get q = some b → s'.get q = some b

theorem Hung.extends (hung : s.Hung s' p b free) (none : s.get p = none) : s.Extends s' := by
  intro q c here
  rw [hung.get, if_neg, here]
  rintro rfl
  rw [none] at here
  simp at here

theorem Extends.parent (extends' : s.Extends s') (above : s.parent p = some t) : s'.parent p = some t := by
  cases p with
  | root r i => exact above
  | entry p i =>
    obtain ⟨b, here, rfl⟩ := map_eq_some_iff.mp above
    simp [BlocksData.parent, extends' p b here]

/-- How a search with `alloc` ends: with the block at a place, or without a free block. -/
def Reached (cfg : BlocksConfig) (s : BlocksData B) (f : Nat → UInt8) (p : Place) (o : Nat)
    (result : Option (BlocksData B × Found (B × Nat))) : Prop :=
  ∃ s', s'.Holds cfg f ∧ s.Extends s' ∧ (s.free = [] → s' = s) ∧ ((result = some (s', .noSpace) ∧ s'.free = [] ∧ s'.get p = none) ∨
    ∃ b, result = some (s', .buffer (some (b, o)) (cfg.blockSize - o)) ∧ s'.get p = some b)

theorem Holds.direct (holds : s.Holds cfg f) (pos : Nat) (legal : p.Legal cfg) (parent : s.parent p = some t)
    (here : pos / cfg.blockSize = p.index) :
    Reached cfg s f p (pos % cfg.blockSize) (s.findbufferDirect cfg pos (some t) (tableLength cfg t) true) := by
  cases at' : s.get p with
  | some b => exact ⟨s, holds, fun _ _ same => same, fun _ => rfl, .inr ⟨b, holds.tree.direct_found pos true legal parent here at', at'⟩⟩
  | none =>
    cases free : s.free with
    | nil =>
      exact ⟨s, holds, fun _ _ same => same, fun _ => rfl, .inl ⟨holds.tree.direct_full legal parent here at' free, free, at'⟩⟩
    | cons b rest =>
      obtain ⟨s', hangs, hung⟩ := holds.tree.hang legal parent at' free
      refine ⟨s', hung.holds holds legal at' free, hung.extends at', by simp [free], .inr ⟨b, ?_, by simp [hung.get]⟩⟩
      rw [holds.tree.direct_alloc legal parent here at' free, hangs, map_some]

theorem mul_block (cfg : BlocksConfig) (n : Nat) : n * cfg.blockSize / cfg.blockSize = n ∧ n * cfg.blockSize % cfg.blockSize = 0 ∧
    cfg.blockSize - 0 ≠ 0 := by
  obtain ⟨small, _⟩ := cfg.legal
  exact ⟨Nat.mul_div_cancel n (by omega), Nat.mul_mod_left .., by omega⟩

theorem Holds.indirect1 (holds : s.Holds cfg f) (pos : Nat) (legal : p.Legal cfg) (deep : 0 < p.depth) (parent : s.parent p = some t)
    (here : pos / cfg.indirect1BlockExtent = p.index) :
    Reached cfg s f (.entry p (pos % cfg.indirect1BlockExtent / cfg.blockSize))
      (pos % cfg.indirect1BlockExtent % cfg.blockSize)
      (s.findbufferIndirect1 cfg pos (some t) (tableLength cfg t) true) := by
  obtain ⟨back, start, room⟩ := mul_block cfg (pos / cfg.indirect1BlockExtent)
  obtain ⟨s₁, holds₁, extends₁, same₁, ⟨result, empty, none⟩ | ⟨d, result, at'⟩⟩ :=
    holds.direct (pos / cfg.indirect1BlockExtent * cfg.blockSize) legal parent (back.trans here)
  · refine ⟨s₁, holds₁, extends₁, same₁, .inl ⟨?_, empty, by simp [get, none]⟩⟩
    simp only [findbufferIndirect1, result]
  · rw [start] at result
    have entry := holds₁.tree.entry_eq legal (extends₁.parent parent)
    rw [← here, at'] at entry
    have inner := holds₁.direct (p := .entry p (pos % cfg.indirect1BlockExtent / cfg.blockSize)) (t := .block d)
      (pos % cfg.indirect1BlockExtent) ⟨legal, deep, cfg.legal_inner pos⟩ (by simp [BlocksData.parent, at']) rfl
    have unroll : s.findbufferIndirect1 cfg pos (some t) (tableLength cfg t) true =
        s₁.findbufferDirect cfg (pos % cfg.indirect1BlockExtent) (some (.block d)) cfg.indirectPerBlock true := by
      simp only [findbufferIndirect1, result, if_neg room, bind_some, entry, map_some]
    rw [unroll]
    obtain ⟨s₂, holds₂, extends₂, same₂, ends⟩ := inner
    refine ⟨s₂, holds₂, fun q b at' => extends₂ q b (extends₁ q b at'), fun empty => ?_, ends⟩
    have same := same₁ empty
    subst same
    exact same₂ empty

theorem Holds.indirect2 (holds : s.Holds cfg f) (legal : p.Legal cfg) (deep : 1 < p.depth) (parent : s.parent p = some t)
    (here : pos / cfg.indirect2BlockExtent = p.index)
    (inside : pos % cfg.indirect2BlockExtent / cfg.indirect1BlockExtent < cfg.indirectPerBlock) :
    Reached cfg s f
      (.entry (.entry p (pos % cfg.indirect2BlockExtent / cfg.indirect1BlockExtent))
        (pos % cfg.indirect2BlockExtent % cfg.indirect1BlockExtent / cfg.blockSize))
      (pos % cfg.indirect2BlockExtent % cfg.indirect1BlockExtent % cfg.blockSize)
      (s.findbufferIndirect2 cfg pos (some t) (tableLength cfg t) true) := by
  obtain ⟨back, start, room⟩ := mul_block cfg (pos / cfg.indirect2BlockExtent)
  obtain ⟨s₁, holds₁, extends₁, same₁, ⟨result, empty, none⟩ | ⟨d, result, at'⟩⟩ :=
    holds.direct (pos / cfg.indirect2BlockExtent * cfg.blockSize) legal parent (back.trans here)
  · refine ⟨s₁, holds₁, extends₁, same₁, .inl ⟨?_, empty, by simp [get, none]⟩⟩
    simp only [findbufferIndirect2, result]
  · rw [start] at result
    have entry := holds₁.tree.entry_eq legal (extends₁.parent parent)
    rw [← here, at'] at entry
    have inner := holds₁.indirect1 (p := .entry p (pos % cfg.indirect2BlockExtent / cfg.indirect1BlockExtent))
      (t := .block d) (pos % cfg.indirect2BlockExtent) ⟨legal, by omega, inside⟩
      (show 0 < p.depth - 1 by omega) (by simp [BlocksData.parent, at']) rfl
    have unroll : s.findbufferIndirect2 cfg pos (some t) (tableLength cfg t) true =
        s₁.findbufferIndirect1 cfg (pos % cfg.indirect2BlockExtent) (some (.block d)) cfg.indirectPerBlock true := by
      simp only [findbufferIndirect2, result, if_neg room, bind_some, entry, map_some]
    rw [unroll]
    obtain ⟨s₂, holds₂, extends₂, same₂, ends⟩ := inner
    refine ⟨s₂, holds₂, fun q b at' => extends₂ q b (extends₁ q b at'), fun empty => ?_, ends⟩
    have same := same₁ empty
    subst same
    exact same₂ empty

theorem Tree.direct_look (tree : s.Tree cfg) (pos : Nat) (legal : p.Legal cfg) (parent : s.parent p = some t)
    (here : pos / cfg.blockSize = p.index) :
    s.findbufferDirect cfg pos (some t) (tableLength cfg t) false =
      some (s, .buffer ((s.get p).map fun b => (b, pos % cfg.blockSize)) (cfg.blockSize - pos % cfg.blockSize)) := by
  cases at' : s.get p with
  | some b => exact tree.direct_found pos false legal parent here at'
  | none => exact tree.direct_hole legal parent here at'

theorem Tree.indirect1_look (tree : s.Tree cfg) (pos : Nat) (legal : p.Legal cfg) (deep : 0 < p.depth) (parent : s.parent p = some t)
    (here : pos / cfg.indirect1BlockExtent = p.index) (table : s.get p = some b) :
    s.findbufferIndirect1 cfg pos (some t) (tableLength cfg t) false =
      some (s, .buffer ((s.get (.entry p (pos % cfg.indirect1BlockExtent / cfg.blockSize))).map
        fun b => (b, pos % cfg.indirect1BlockExtent % cfg.blockSize))
        (cfg.blockSize - pos % cfg.indirect1BlockExtent % cfg.blockSize)) := by
  obtain ⟨back, start, room⟩ := mul_block cfg (pos / cfg.indirect1BlockExtent)
  have first := tree.direct_found (pos / cfg.indirect1BlockExtent * cfg.blockSize) false legal parent (back.trans here) table
  have entry := tree.entry_eq legal parent
  have inner := tree.direct_look (p := .entry p (pos % cfg.indirect1BlockExtent / cfg.blockSize)) (t := .block b)
    (pos % cfg.indirect1BlockExtent) ⟨legal, deep, cfg.legal_inner pos⟩ (by simp [BlocksData.parent, table]) rfl
  rw [start] at first
  rw [← here, table] at entry
  simp only [findbufferIndirect1, first, if_neg room, bind_some, entry, map_some]
  exact inner

theorem Tree.indirect2_look (tree : s.Tree cfg) (legal : p.Legal cfg) (deep : 1 < p.depth) (parent : s.parent p = some t)
    (here : pos / cfg.indirect2BlockExtent = p.index)
    (inside : pos % cfg.indirect2BlockExtent / cfg.indirect1BlockExtent < cfg.indirectPerBlock)
    (table : s.get p = some b)
    (table' : s.get (.entry p (pos % cfg.indirect2BlockExtent / cfg.indirect1BlockExtent)) = some c) :
    s.findbufferIndirect2 cfg pos (some t) (tableLength cfg t) false =
      some (s, .buffer ((s.get (.entry (.entry p (pos % cfg.indirect2BlockExtent / cfg.indirect1BlockExtent))
          (pos % cfg.indirect2BlockExtent % cfg.indirect1BlockExtent / cfg.blockSize))).map
        fun b => (b, pos % cfg.indirect2BlockExtent % cfg.indirect1BlockExtent % cfg.blockSize))
        (cfg.blockSize - pos % cfg.indirect2BlockExtent % cfg.indirect1BlockExtent % cfg.blockSize)) := by
  obtain ⟨back, start, room⟩ := mul_block cfg (pos / cfg.indirect2BlockExtent)
  have first := tree.direct_found (pos / cfg.indirect2BlockExtent * cfg.blockSize) false legal parent (back.trans here) table
  have entry := tree.entry_eq legal parent
  have inner := tree.indirect1_look (p := .entry p (pos % cfg.indirect2BlockExtent / cfg.indirect1BlockExtent))
    (t := .block b) (pos % cfg.indirect2BlockExtent) ⟨legal, by omega, inside⟩
    (show 0 < p.depth - 1 by omega) (by simp [BlocksData.parent, table]) rfl table'
  rw [start] at first
  rw [← here, table] at entry
  simp only [findbufferIndirect2, first, if_neg room, bind_some, entry, map_some]
  exact inner

/-- The table above a place is there. -/
def Tabled (s : BlocksData B) : Place → Prop
  | .root _ _ => True
  | .entry q _ => s.get q ≠ none

theorem offset_direct (le : cfg.directMax ≤ pos) :
    (pos - cfg.directMax) % cfg.indirect1BlockExtent % cfg.blockSize = pos % cfg.blockSize := by
  obtain ⟨small, _⟩ := cfg.legal
  rw [mod_mod_of_dvd _ BlocksConfig.dvd_extent]
  exact (BlocksConfig.sub_div_block (by omega) BlocksConfig.dvd_directMax le).2

section Node
variable (aligned : cfg.Aligned)
include aligned

theorem offset_indirect (le : cfg.indirect1Max ≤ pos) :
    (pos - cfg.indirect1Max) % cfg.indirect2BlockExtent % cfg.indirect1BlockExtent % cfg.blockSize =
      pos % cfg.blockSize := by
  obtain ⟨small, _⟩ := cfg.legal
  rw [mod_mod_of_dvd _ BlocksConfig.dvd_extent, mod_mod_of_dvd _ aligned.extent]
  exact (BlocksConfig.sub_div_block (by omega) aligned.first le).2

theorem Holds.node (holds : s.Holds cfg f) (here : cfg.place pos = some p) :
    Reached cfg s f p (pos % cfg.blockSize) (s.findbufferNode cfg pos true) := by
  have legal := (BlocksConfig.place_legal here).1
  unfold BlocksConfig.place at here
  unfold findbufferNode
  split at here
  · next direct =>
    obtain rfl := some.inj here
    rw [if_pos direct]
    exact holds.direct (t := .node .direct) pos legal rfl rfl
  · next above =>
    rw [if_neg above]
    split at here
    · next below =>
      obtain rfl := some.inj here
      rw [if_pos below, ← offset_direct (Nat.le_of_not_lt above)]
      exact holds.indirect1 (p := .root .indirect1 _) (t := .node .indirect1) _ legal.1 Nat.one_pos rfl rfl
    · next above' =>
      rw [if_neg above']
      split at here
      · next below =>
        obtain rfl := some.inj here
        rw [if_pos below, ← offset_indirect aligned (Nat.le_of_not_lt above')]
        exact holds.indirect2 (p := .root .indirect2 _) (t := .node .indirect2) legal.1.1 Nat.one_lt_two rfl rfl legal.1.2.2
      · simp at here

theorem Tree.node_look (tree : s.Tree cfg) (here : cfg.place pos = some p) (tabled : s.Tabled p) :
    s.findbufferNode cfg pos false =
      some (s, .buffer ((s.get p).map fun b => (b, pos % cfg.blockSize)) (cfg.blockSize - pos % cfg.blockSize)) := by
  have legal := (BlocksConfig.place_legal here).1
  unfold BlocksConfig.place at here
  unfold findbufferNode
  split at here
  · next direct =>
    obtain rfl := some.inj here
    rw [if_pos direct]
    exact tree.direct_look (t := .node .direct) pos legal rfl rfl
  · next above =>
    rw [if_neg above]
    split at here
    · next below =>
      obtain rfl := some.inj here
      obtain ⟨b, table⟩ := ne_none_iff_exists'.mp tabled
      rw [if_pos below, ← offset_direct (Nat.le_of_not_lt above)]
      exact tree.indirect1_look (p := .root .indirect1 _) (t := .node .indirect1) _ legal.1 Nat.one_pos rfl rfl table
    · next above' =>
      rw [if_neg above']
      split at here
      · next below =>
        obtain rfl := some.inj here
        obtain ⟨c, table'⟩ := ne_none_iff_exists'.mp tabled
        obtain ⟨b, table, _⟩ := bind_eq_some_iff.mp table'
        rw [if_pos below, ← offset_indirect aligned (Nat.le_of_not_lt above')]
        exact tree.indirect2_look (p := .root .indirect2 _) (t := .node .indirect2) legal.1.1 Nat.one_lt_two rfl rfl
          legal.1.2.2 table table'
      · simp at here

end Node

theorem node_beyond (none : cfg.place pos = none) : s.findbufferNode cfg pos alloc = some (s, .noSpace) := by
  have past : ¬ pos < cfg.limit := by
    intro below
    have placed := BlocksConfig.place_isSome.mpr below
    simp [none] at placed
  unfold BlocksConfig.limit at past
  unfold findbufferNode
  rw [if_neg (by omega), if_neg (by omega), if_neg (by omega)]

end Ecos.Ramfs.BlocksData
