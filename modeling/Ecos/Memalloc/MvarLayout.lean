import Ecos.Lib.Tiling
import Ecos.Memalloc.Mvar

namespace Ecos
open Function List

namespace Memory
variable {m : Memory} {a b v : Nat}

/-- Two headers are the same one or do not overlap. -/
def Clear (a b : Nat) : Prop := a = b ∨ a + sizeofMemdq ≤ b ∨ b + sizeofMemdq ≤ a

theorem next_setNext : (m.setNext a v).next b = if b = a then v else m.next b := by
  simp [next, setNext, update_apply]

theorem prev_setPrev : (m.setPrev a v).prev b = if b = a then v else m.prev b := by
  simp [prev, setPrev, update_apply]

theorem size_setSize : (m.setSize a v).size b = if b = a then v else m.size b := by
  simp [size, setSize, update_apply]

section Clear
variable (clear : Clear a b)
include clear

theorem next_setPrev : (m.setPrev a v).next b = m.next b := by
  simp only [Clear, sizeofMemdq] at clear
  exact update_of_ne (by omega) _ _

theorem next_setSize : (m.setSize a v).next b = m.next b := by
  simp only [Clear, sizeofMemdq] at clear
  exact update_of_ne (by omega) _ _

theorem prev_setNext : (m.setNext a v).prev b = m.prev b := by
  simp only [Clear, sizeofMemdq] at clear
  exact update_of_ne (by omega) _ _

theorem prev_setSize : (m.setSize a v).prev b = m.prev b := by
  simp only [Clear, sizeofMemdq] at clear
  exact update_of_ne (by omega) _ _

theorem size_setNext : (m.setNext a v).size b = m.size b := by
  simp only [Clear, sizeofMemdq] at clear
  exact update_of_ne (by omega) _ _

theorem size_setPrev : (m.setPrev a v).size b = m.size b := by
  simp only [Clear, sizeofMemdq] at clear
  exact update_of_ne (by omega) _ _

end Clear

/-- Nothing outside the given headers has changed. -/
def Frame (headers : List Nat) (m m' : Memory) : Prop :=
  ∀ a, (∀ h ∈ headers, a < h ∨ h + sizeofMemdq ≤ a) → m' a = m a

variable {headers more : List Nat} {m' m'' : Memory}

theorem Frame.refl : Frame headers m m := fun _ _ => rfl

theorem Frame.trans (first : Frame headers m m') (second : Frame headers m' m'') : Frame headers m m'' :=
  fun a outside => (second a outside).trans (first a outside)

theorem Frame.mono (frame : Frame headers m m') (subset : headers ⊆ more) : Frame more m m' :=
  fun a outside => frame a fun h mem => outside h (subset mem)

theorem frame_setNext (mem : a ∈ headers) : Frame headers m (m.setNext a v) := by
  intro b outside
  have apart := outside a mem
  simp only [sizeofMemdq] at apart
  exact update_of_ne (by omega) _ _

theorem frame_setPrev (mem : a ∈ headers) : Frame headers m (m.setPrev a v) := by
  intro b outside
  have apart := outside a mem
  simp only [sizeofMemdq] at apart
  exact update_of_ne (by omega) _ _

theorem frame_setSize (mem : a ∈ headers) : Frame headers m (m.setSize a v) := by
  intro b outside
  have apart := outside a mem
  simp only [sizeofMemdq] at apart
  exact update_of_ne (by omega) _ _

end Memory

/-- What a block is used for. A loose block is on its way from one use to the other. -/
inductive Use
  | free
  | live
  | loose
  deriving DecidableEq

/-- A block of the arena, header included. -/
structure Piece where
  addr : Nat
  size : Nat
  use : Use
  deriving DecidableEq

/-- Where a pool lies: the constructor fixes it and no operation changes it. -/
structure Geometry where
  head : Nat
  base : Nat
  bottom : Nat
  top : Nat
  alignment : Nat
  power : ∃ k ≤ 30, alignment = 2 ^ k
  header : sizeofMemdq ≤ alignment
  anchored : alignment ∣ bottom + sizeofMemdq
  low : base ≤ bottom
  near : bottom < base + alignment
  apart : head + sizeofMemdq ≤ bottom ∨ top ≤ head
  positive : 0 < bottom
  small : top < bottom + 2 ^ 31
  bounded : top < 2 ^ 32

/-- The addresses of the free blocks, in the order of the blocks. -/
def freeAddrs (pieces : List Piece) : List Nat := (pieces.filter (·.use = .free)).map Piece.addr

/-- The bytes in free blocks. -/
def freeBytes (pieces : List Piece) : Nat := ((pieces.filter (·.use = .free)).map Piece.size).sum

section Pieces
variable {x : Piece} {l r pieces : List Piece}

theorem freeAddrs_append : freeAddrs (l ++ r) = freeAddrs l ++ freeAddrs r := by
  simp [freeAddrs]

theorem freeAddrs_cons : freeAddrs (x :: l) = if x.use = .free then x.addr :: freeAddrs l else freeAddrs l := by
  by_cases free : x.use = .free <;> simp [freeAddrs, free]

theorem mem_freeAddrs {a : Nat} : a ∈ freeAddrs pieces ↔ ∃ x ∈ pieces, x.use = .free ∧ x.addr = a := by
  simp [freeAddrs, and_assoc]

theorem freeBytes_append : freeBytes (l ++ r) = freeBytes l + freeBytes r := by
  simp [freeBytes]

theorem freeBytes_cons : freeBytes (x :: l) = (if x.use = .free then x.size else 0) + freeBytes l := by
  by_cases free : x.use = .free <;> simp [freeBytes, free]

end Pieces

/-- The free list as a closed path from the head to the head. -/
def circuit (g : Geometry) (pieces : List Piece) : List Nat := g.head :: (freeAddrs pieces ++ [g.head])

/-- Memory holds the blocks: they tile the arena in multiples of the alignment,
every header has its size, the allocated ones the magic number, and the free
ones are on the list in the order of their addresses. -/
structure Holds (g : Geometry) (m : Memory) (pieces : List Piece) : Prop where
  tiles : Tiles Piece.addr Piece.size g.bottom pieces g.top
  grid : ∀ x ∈ pieces, g.alignment ∣ x.size
  sizes : ∀ x ∈ pieces, m.size x.addr = x.size
  magic : ∀ x ∈ pieces, x.use = .live → m.prev x.addr = allocMagic ∧ m.next x.addr = allocMagic
  ring : m.nodes.Linked (circuit g pieces)
  headSize : m.size g.head = 0

/-- The headers a pool reads and writes. -/
def headers (g : Geometry) (pieces : List Piece) : List Nat := g.head :: pieces.map Piece.addr

section Facts
variable {g : Geometry} {m : Memory} {pieces l r : List Piece} {x y : Piece} {a b : Nat}

theorem mem_headers : a ∈ headers g pieces ↔ a = g.head ∨ ∃ x ∈ pieces, x.addr = a := by
  simp [headers]

theorem mem_circuit : a ∈ circuit g pieces ↔ a = g.head ∨ a ∈ freeAddrs pieces := by
  simp only [circuit, mem_cons, mem_append, not_mem_nil, or_false]
  tauto

theorem circuit_subset (mem : a ∈ circuit g pieces) : a ∈ headers g pieces := by
  rcases mem_circuit.mp mem with same | free
  · exact mem_headers.mpr (.inl same)
  · obtain ⟨x, inside, _, here⟩ := mem_freeAddrs.mp free
    exact mem_headers.mpr (.inr ⟨x, inside, here⟩)

section Tiled
variable (tiles : Tiles Piece.addr Piece.size g.bottom pieces g.top) (grid : ∀ x ∈ pieces, g.alignment ∣ x.size)
include tiles grid

theorem alignment_le (mem : x ∈ pieces) : g.alignment ≤ x.size :=
  Nat.le_of_dvd (tiles.within mem).2.1 (grid x mem)

theorem header_le (mem : x ∈ pieces) : sizeofMemdq ≤ x.size :=
  g.header.trans (alignment_le tiles grid mem)

theorem eq_of_addr (left : x ∈ pieces) (right : y ∈ pieces) (same : x.addr = y.addr) : x = y := by
  have first := (tiles.within left).2.1
  have second := (tiles.within right).2.1
  rcases tiles.apart left right with eq | before | after
  · exact eq
  · omega
  · omega

theorem headers_clear (left : a ∈ headers g pieces) (right : b ∈ headers g pieces) : Memory.Clear a b := by
  have apart := g.apart
  rcases mem_headers.mp left with rfl | ⟨x, inX, rfl⟩ <;> rcases mem_headers.mp right with rfl | ⟨y, inY, rfl⟩
  · exact .inl rfl
  · have within := tiles.within inY
    have room := header_le tiles grid inY
    exact .inr (by omega)
  · have within := tiles.within inX
    have room := header_le tiles grid inX
    exact .inr (by omega)
  · have roomX := header_le tiles grid inX
    have roomY := header_le tiles grid inY
    rcases tiles.apart inX inY with same | before | after
    · exact .inl (congrArg Piece.addr same)
    · exact .inr (.inl (by omega))
    · exact .inr (.inr (by omega))

theorem head_ne_addr (mem : x ∈ pieces) : g.head ≠ x.addr := by
  have apart := g.apart
  have within := tiles.within mem
  have room := header_le tiles grid mem
  simp only [sizeofMemdq] at apart room
  omega

theorem freeAddrs_sorted : (freeAddrs pieces).Pairwise (· < ·) := by
  unfold freeAddrs
  rw [pairwise_map]
  refine (tiles.pairwise.filter _).imp_of_mem ?_
  intro x y inX _ before
  have positive := (tiles.within (mem_of_mem_filter inX)).2.1
  omega

theorem circuit_nodup : (circuit g pieces).dropLast.Nodup ∧ (circuit g pieces).tail.Nodup := by
  have unique : (freeAddrs pieces).Nodup := (freeAddrs_sorted tiles grid).imp (fun before => ne_of_lt before)
  have outside : g.head ∉ freeAddrs pieces := by
    intro mem
    obtain ⟨x, inside, _, here⟩ := mem_freeAddrs.mp mem
    exact head_ne_addr tiles grid inside here.symm
  constructor
  · have shape : (circuit g pieces).dropLast = g.head :: freeAddrs pieces := by
      unfold circuit
      rw [← cons_append, dropLast_concat]
    rw [shape]
    exact nodup_cons.mpr ⟨outside, unique⟩
  · show (freeAddrs pieces ++ [g.head]).Nodup
    rw [← concat_eq_append]
    exact unique.concat outside

end Tiled

end Facts

end Ecos
