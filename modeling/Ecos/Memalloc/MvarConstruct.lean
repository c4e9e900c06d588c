import Ecos.Memalloc.MvarResize

namespace Ecos
open MempoolVariable (roundup enlarge addr2memdq arenaTop)
open List Nat Memory
variable {g : Geometry} {m m' : Memory} {l r pieces : List Piece} {x y z : Piece} {a w n k s : Nat}

/-- An arena that the constructor takes: a power of two as the alignment, room
for a header, memory of its own, and the order of the ends that it asserts. -/
structure Accepts (head base size align : Nat) : Prop where
  power : ∃ k ≤ 30, align = 2 ^ k
  large : sizeofMemdq ≤ size
  small : size < 2 ^ 31
  arena : base + size ≤ 2 ^ 32
  apart : head + sizeofMemdq ≤ base ∨ base + size ≤ head
  ordered : MempoolVariable.addr2memdq (MempoolVariable.enlarge sizeofMemdq align) base <
    MempoolVariable.arenaTop (MempoolVariable.enlarge sizeofMemdq align) base size
  inside : MempoolVariable.arenaTop (MempoolVariable.enlarge sizeofMemdq align) base size ≤ base + size

theorem enlarge_pow (small : k ≤ 30) : ∃ j ≤ 30, 4 ≤ j ∧ k ≤ j ∧ enlarge sizeofMemdq (2 ^ k) = 2 ^ j := by
  by_cases large : 4 ≤ k
  · have big : 2 ^ 4 ≤ 2 ^ k := Nat.pow_le_pow_right (by decide) large
    refine ⟨k, small, large, le_rfl, ?_⟩
    have enough : ¬ 2 ^ k < sizeofMemdq := by
      simp only [sizeofMemdq]
      omega
    exact if_neg enough
  · refine ⟨4, by decide, le_rfl, by omega, ?_⟩
    obtain rfl | rfl | rfl | rfl : k = 0 ∨ k = 1 ∨ k = 2 ∨ k = 3 := by omega
    all_goals rfl

theorem dvd_below (large : 4 ≤ k) (small : k ≤ 30) (below : n < 2 ^ 32) :
    2 ^ k ∣ word (n / 2 ^ k * 2 ^ k + 2 ^ 32 - sizeofMemdq) + sizeofMemdq ∧
      word (n / 2 ^ k * 2 ^ k + 2 ^ 32 - sizeofMemdq) < 2 ^ 32 ∧
      (2 ^ k ≤ n → word (n / 2 ^ k * 2 ^ k + 2 ^ 32 - sizeofMemdq) + sizeofMemdq = n / 2 ^ k * 2 ^ k) := by
  have big : 2 ^ 4 ≤ 2 ^ k := Nat.pow_le_pow_right (by decide) large
  have whole : 2 ^ k ∣ 2 ^ 32 := Nat.pow_dvd_pow 2 (by omega)
  have part : 2 ^ k ∣ n / 2 ^ k * 2 ^ k := Nat.dvd_mul_left _ _
  have less : n / 2 ^ k * 2 ^ k ≤ n := div_mul_le_self _ _
  refine ⟨?_, mod_lt _ (by decide), ?_⟩
  · by_cases zero : n / 2 ^ k * 2 ^ k = 0
    · rw [zero]
      exact whole
    · have atLeast : 2 ^ k ≤ n / 2 ^ k * 2 ^ k := le_of_dvd (by omega) part
      have value : word (n / 2 ^ k * 2 ^ k + 2 ^ 32 - sizeofMemdq) + sizeofMemdq = n / 2 ^ k * 2 ^ k := by
        simp only [word, sizeofMemdq]
        omega
      rw [value]
      exact part
  · intro reached
    have once : 1 ≤ n / 2 ^ k := (one_le_div_iff (by omega)).mpr reached
    have atLeast : 2 ^ k ≤ n / 2 ^ k * 2 ^ k := Nat.le_mul_of_pos_left _ once
    simp only [word, sizeofMemdq]
    omega

theorem bottom_spec {base : Nat} (large : 4 ≤ k) (small : k ≤ 30) (room : base + sizeofMemdq ≤ 2 ^ 32) :
    2 ^ k ∣ addr2memdq (2 ^ k) base + sizeofMemdq ∧
      base ≤ addr2memdq (2 ^ k) base ∧ addr2memdq (2 ^ k) base < base + 2 ^ k := by
  have bounded : 2 ^ k ≤ 2 ^ 30 := Nat.pow_le_pow_right (by decide) small
  have value : addr2memdq (2 ^ k) base =
      word (word (base + sizeofMemdq + 2 ^ k - 1) / 2 ^ k * 2 ^ k + 2 ^ 32 - sizeofMemdq) := by
    unfold addr2memdq roundup
    rw [and_negative (by omega)]
  obtain ⟨divides, _, exact⟩ := dvd_below large small (mod_lt (base + sizeofMemdq + 2 ^ k - 1) (by decide))
  rw [value]
  refine ⟨divides, ?_⟩
  by_cases inside : base + sizeofMemdq + 2 ^ k - 1 < 2 ^ 32
  · have same : word (base + sizeofMemdq + 2 ^ k - 1) = base + sizeofMemdq + 2 ^ k - 1 := mod_eq_of_lt inside
    have sum := exact (by rw [mod_eq_of_lt inside]; simp only [sizeofMemdq]; omega)
    have division := div_add_mod' (base + sizeofMemdq + 2 ^ k - 1) (2 ^ k)
    rw [mod_eq_of_lt inside] at sum
    rw [same]
    omega
  · have wrapped : word (base + sizeofMemdq + 2 ^ k - 1) = base + sizeofMemdq + 2 ^ k - 1 - 2 ^ 32 := by
      unfold word
      rw [mod_eq_sub_mod (by omega)]
      exact mod_eq_of_lt (by omega)
    have zero : word (base + sizeofMemdq + 2 ^ k - 1) / 2 ^ k = 0 := by
      rw [wrapped]
      exact div_eq_of_lt (by omega)
    rw [zero]
    simp only [word, sizeofMemdq] at *
    omega

theorem top_spec {base size : Nat} (large : 4 ≤ k) (small : k ≤ 30) :
    2 ^ k ∣ arenaTop (2 ^ k) base size + sizeofMemdq ∧
      arenaTop (2 ^ k) base size < 2 ^ 32 := by
  have value : arenaTop (2 ^ k) base size =
      word (word (base + size + sizeofMemdq) / 2 ^ k * 2 ^ k + 2 ^ 32 - sizeofMemdq) := by
    unfold arenaTop
    rw [and_negative (by omega)]
  obtain ⟨divides, below, _⟩ := dvd_below large small (mod_lt (base + size + sizeofMemdq) (by decide))
  rw [value]
  exact ⟨divides, below⟩

namespace Accepts
variable {head base size align : Nat}

theorem alignment_spec (accepts : Accepts head base size align) :
    ∃ j ≤ 30, 4 ≤ j ∧ align ∣ 2 ^ j ∧ enlarge sizeofMemdq align = 2 ^ j := by
  obtain ⟨k, small, rfl⟩ := accepts.power
  obtain ⟨j, bound, large, more, value⟩ := enlarge_pow small
  exact ⟨j, bound, large, Nat.pow_dvd_pow 2 more, value⟩

theorem alignment_pow (accepts : Accepts head base size align) : ∃ k ≤ 30, enlarge sizeofMemdq align = 2 ^ k := by
  obtain ⟨j, small, _, _, value⟩ := accepts.alignment_spec
  exact ⟨j, small, value⟩

theorem bottom_spec (accepts : Accepts head base size align) {alignment : Nat}
    (value : alignment = enlarge sizeofMemdq align) :
    alignment ∣ addr2memdq alignment base + sizeofMemdq ∧
      base ≤ addr2memdq alignment base ∧
      addr2memdq alignment base < base + alignment := by
  obtain ⟨j, small, large, _, power⟩ := accepts.alignment_spec
  have room := accepts.arena
  have header := accepts.large
  rw [value, power]
  exact Ecos.bottom_spec large small (by omega)

/-- Where the constructor puts the pool. -/
def geometry (accepts : Accepts head base size align) : Geometry where
  head := head
  base := base
  bottom := MempoolVariable.addr2memdq (MempoolVariable.enlarge sizeofMemdq align) base
  top := MempoolVariable.arenaTop (MempoolVariable.enlarge sizeofMemdq align) base size
  alignment := MempoolVariable.enlarge sizeofMemdq align
  power := accepts.alignment_pow
  header := by
    obtain ⟨j, _, large, _, value⟩ := accepts.alignment_spec
    have big : 2 ^ 4 ≤ 2 ^ j := Nat.pow_le_pow_right (by decide) large
    rw [value]
    exact le_trans (by decide) big
  anchored := (accepts.bottom_spec rfl).1
  low := (accepts.bottom_spec rfl).2.1
  near := (accepts.bottom_spec rfl).2.2
  apart := by
    have low := (accepts.bottom_spec rfl).2.1
    exact accepts.apart.imp (le_trans · low) (le_trans accepts.inside)
  positive := by
    obtain ⟨j, _, large, _, value⟩ := accepts.alignment_spec
    have big : 2 ^ 4 ≤ 2 ^ j := Nat.pow_le_pow_right (by decide) large
    have multiple := Nat.le_of_dvd (by simp [sizeofMemdq]) (accepts.bottom_spec rfl).1
    rw [value] at multiple ⊢
    exact Nat.pos_of_lt_add_left (lt_of_lt_of_le (by decide) (big.trans multiple))
  small := by
    have low := (accepts.bottom_spec rfl).2.1
    exact accepts.inside.trans_lt (Nat.add_lt_add_of_le_of_lt low accepts.small)
  bounded := by
    obtain ⟨j, small, large, _, value⟩ := accepts.alignment_spec
    rw [value]
    exact (top_spec large small).2

end Accepts

theorem Geometry.firstBlock (ordered : g.bottom < g.top) (divides : g.alignment ∣ g.top - g.bottom) :
    Holds g (MempoolVariable.firstBlock m g.head g.bottom (g.top - g.bottom))
      [⟨g.bottom, g.top - g.bottom, .free⟩] := by
  have header := g.header
  have outside := g.apart
  have room : g.alignment ≤ g.top - g.bottom := le_of_dvd (by omega) divides
  have away : g.head + sizeofMemdq ≤ g.bottom ∨ g.bottom + sizeofMemdq ≤ g.head := by omega
  have clear' : Clear g.bottom g.head := .inr away.symm
  have apart : g.head ≠ g.bottom := by
    simp only [sizeofMemdq] at away
    omega
  have self : ∀ a, Clear a a := fun a => .inl rfl
  simp only [MempoolVariable.firstBlock]
  refine ⟨⟨rfl, ?_, ?_⟩, by simpa using divides, ?_, by simp, ?_, ?_⟩
  · show 0 < g.top - g.bottom
    omega
  · show g.bottom + (g.top - g.bottom) = g.top
    omega
  · simp [size_setSize]
  · simp only [circuit, freeAddrs, decide_true, filter_cons_of_pos, filter_nil, map_cons, map_nil,
      singleton_append, Ring.Nodes.Linked, nodes, and_true]
    refine ⟨⟨?_, ?_⟩, ?_, ?_⟩
    · rw [next_setSize clear', next_setPrev clear', next_setNext, if_neg apart,
        next_setSize (self _), next_setPrev (self _), next_setNext, if_pos rfl]
    · rw [prev_setSize (self _), prev_setPrev, if_pos rfl]
    · rw [next_setSize (self _), next_setPrev (self _), next_setNext, if_pos rfl]
    · rw [prev_setSize clear', prev_setPrev, if_neg apart, prev_setNext clear',
        prev_setSize (self _), prev_setPrev, if_pos rfl]
  · rw [size_setSize, if_neg apart, size_setPrev clear', size_setNext clear', size_setSize, if_pos rfl]

namespace Accepts
variable {head base size align : Nat}

section
variable (accepts : Accepts head base size align)
include accepts

theorem divides : accepts.geometry.alignment ∣ accepts.geometry.top - accepts.geometry.bottom := by
  obtain ⟨j, small, four, _, value⟩ := accepts.alignment_spec
  have ends : accepts.geometry.alignment ∣ accepts.geometry.top + sizeofMemdq := by
    show enlarge sizeofMemdq align ∣
      arenaTop (enlarge sizeofMemdq align) base size + sizeofMemdq
    rw [value]
    exact (top_spec four small).1
  have difference := dvd_sub ends accepts.geometry.anchored
  rwa [Nat.add_sub_add_right] at difference

theorem construct_eq : MempoolVariable.construct m head base size align =
      { mem := MempoolVariable.firstBlock m head accepts.geometry.bottom
          (accepts.geometry.top - accepts.geometry.bottom)
        head, obase := base, osize := size
        bottom := accepts.geometry.bottom, top := accepts.geometry.top
        alignment := accepts.geometry.alignment
        freemem := accepts.geometry.top - accepts.geometry.bottom } :=
  if_neg (not_lt.mpr accepts.large)

theorem construct_at : (MempoolVariable.construct m head base size align).At accepts.geometry := by
  have low : base ≤ accepts.geometry.bottom := (accepts.bottom_spec rfl).2.1
  have high : accepts.geometry.top ≤ base + size := accepts.inside
  have large := accepts.large
  simp only [sizeofMemdq] at large
  rw [accepts.construct_eq]
  exact ⟨rfl, rfl, rfl, rfl, rfl, by simp only; omega, by simp only; omega⟩

theorem construct_holds : Holds accepts.geometry (MempoolVariable.construct m head base size align).mem
      [⟨accepts.geometry.bottom, accepts.geometry.top - accepts.geometry.bottom, .free⟩] := by
  have ordered : accepts.geometry.bottom < accepts.geometry.top := accepts.ordered
  rw [accepts.construct_eq]
  exact accepts.geometry.firstBlock ordered accepts.divides

theorem construct_freemem : (MempoolVariable.construct m head base size align).freemem =
      (accepts.geometry.top - accepts.geometry.bottom : Nat) := by
  have ordered : accepts.geometry.bottom < accepts.geometry.top := accepts.ordered
  rw [accepts.construct_eq]
  exact (Int.ofNat_sub ordered.le).symm

end

end Accepts

end Ecos
