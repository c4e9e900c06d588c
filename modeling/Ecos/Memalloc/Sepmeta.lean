import Ecos.Lib.Chain
import Ecos.Memalloc.MvarFree

/-! The memory pool of `sepmetaimpl.inl`, which keeps its descriptors apart from the memory it hands out. -/

namespace Ecos

/-- The addresses of a `struct memdq`: the four in the pool object and those of the metadata area. -/
inductive Memdq
  | null
  | allocedhead
  | freehead
  | memhead
  | memend
  | metadata (i : Nat)
  deriving DecidableEq

/-- The size of a `struct memdq` here: four pointers and an address. -/
def sizeofSepmetaMemdq : Nat := 20

/-- `Cyg_Mempool_Sepmeta_Implementation`. A descriptor is on one list through
`next` and `prev` and on the list of all blocks through `memnext` and `memprev`. -/
structure MempoolSepmeta where
  links : Ring.Nodes Memdq
  memlinks : Ring.Nodes Memdq
  mem : Memdq → Nat
  freemetahead : Memdq
  metabase : Nat
  metasize : Nat
  bottom : Nat
  top : Nat
  alignment : Nat
  freemem : Int

namespace MempoolSepmeta

def next (p : MempoolSepmeta) (dq : Memdq) : Memdq := p.links.next dq

def prev (p : MempoolSepmeta) (dq : Memdq) : Memdq := p.links.prev dq

def memnext (p : MempoolSepmeta) (dq : Memdq) : Memdq := p.memlinks.next dq

def memprev (p : MempoolSepmeta) (dq : Memdq) : Memdq := p.memlinks.prev dq

def setNext (p : MempoolSepmeta) (dq v : Memdq) : MempoolSepmeta :=
  { p with links := { p.links with next := Function.update p.links.next dq v } }

def setPrev (p : MempoolSepmeta) (dq v : Memdq) : MempoolSepmeta :=
  { p with links := { p.links with prev := Function.update p.links.prev dq v } }

def setMemnext (p : MempoolSepmeta) (dq v : Memdq) : MempoolSepmeta :=
  { p with memlinks := { p.memlinks with next := Function.update p.memlinks.next dq v } }

def setMemprev (p : MempoolSepmeta) (dq v : Memdq) : MempoolSepmeta :=
  { p with memlinks := { p.memlinks with prev := Function.update p.memlinks.prev dq v } }

def setMem (p : MempoolSepmeta) (dq : Memdq) (v : Nat) : MempoolSepmeta :=
  { p with mem := Function.update p.mem dq v }

def alignup (alignment addr : Nat) : Nat := word (addr + alignment - 1) &&& (2 ^ 32 - alignment)

def aligndown (alignment addr : Nat) : Nat := word addr &&& (2 ^ 32 - alignment)

/-- `(size + alignment - 1) & -alignment`. -/
def roundsize (p : MempoolSepmeta) (size : Nat) : Nat := alignup p.alignment size

/-- `dq->memnext->mem - dq->mem`. -/
def extent (p : MempoolSepmeta) (dq : Memdq) : Nat := word (p.mem (p.memnext dq) + 2 ^ 32 - p.mem dq)

/-- The signed comparison of a size that is not negative with the size of a block. -/
def fits (p : MempoolSepmeta) (size : Nat) (dq : Memdq) : Bool := decide (size ≤ p.extent dq ∧ p.extent dq < 2 ^ 31)

/-- How many descriptors the metadata area has room for. -/
def descriptors (p : MempoolSepmeta) : Nat := p.metasize / sizeofSepmetaMemdq

/-- No list is longer than this, with the descriptors in the pool object. -/
def longest (p : MempoolSepmeta) : Nat := p.descriptors + 4

/-- The constructor. The unused descriptors form a list through `next`. -/
def construct (base size alignment metabase metasize : Nat) : MempoolSepmeta :=
  let bottom := alignup alignment base
  let top := aligndown alignment (base + size)
  { links :=
      { next := fun
          | .metadata i => if i + 1 < metasize / sizeofSepmetaMemdq then .metadata (i + 1) else .null
          | .memhead => .freehead
          | .memend => .allocedhead
          | .allocedhead => .memend
          | .freehead => .memhead
          | .null => .null
        prev := fun
          | .memhead => .freehead
          | .memend => .allocedhead
          | .allocedhead => .memend
          | .freehead => .memhead
          | _ => .null }
    memlinks :=
      { next := fun
          | .memhead => .memend
          | .memend => .memhead
          | _ => .null
        prev := fun
          | .memhead => .memend
          | .memend => .memhead
          | _ => .null }
    mem := fun
      | .memhead => bottom
      | .memend => top
      | _ => 0
    freemetahead := .metadata 0
    metabase, metasize, bottom, top, alignment
    freemem := top - bottom }

/-- Down the list of allocated blocks to the one at `mem`. Without fuel the search has not ended. -/
def findAllocedDq (p : MempoolSepmeta) (mem : Nat) : Nat → Memdq → Option Memdq
  | 0, _ => none
  | fuel + 1, dq =>
    if p.mem dq = mem then some dq
    else if p.next dq = .memend then some .null
    else p.findAllocedDq mem fuel (p.next dq)

def findFreeDq (p : MempoolSepmeta) (size : Nat) : Nat → Memdq → Option Memdq
  | 0, _ => none
  | fuel + 1, dq =>
    if p.fits size dq then some dq
    else if p.next dq = .freehead then some .null
    else p.findFreeDq size fuel (p.next dq)

def findFreeDqSlot (p : MempoolSepmeta) (mem : Nat) : Nat → Memdq → Option Memdq
  | 0, _ => none
  | fuel + 1, dq =>
    if ¬ p.mem dq < mem then some dq
    else if dq = .freehead then some dq
    else p.findFreeDqSlot mem fuel (p.next dq)

/-- `insert_free_block` up to the backward coalescing, with the descriptor that stands for the block then. -/
def joinNext (p : MempoolSepmeta) (dq fdq : Memdq) : MempoolSepmeta × Memdq :=
  if p.memnext dq = fdq then
    let p := p.setMem fdq (p.mem dq)
    let p := p.setMemprev fdq (p.memprev dq)
    let p := p.setMemnext (p.memprev fdq) fdq
    let p := p.setNext dq p.freemetahead
    ({ p with freemetahead := dq }, fdq)
  else
    let p := p.setNext dq fdq
    let p := p.setPrev dq (p.prev fdq)
    let p := p.setPrev fdq dq
    (p.setNext (p.prev dq) dq, dq)

/-- The backward coalescing of `insert_free_block`. -/
def joinPrev (p : MempoolSepmeta) (dq : Memdq) : MempoolSepmeta :=
  if p.memprev dq = p.prev dq then
    let p := p.setMem dq (p.mem (p.prev dq))
    let p := p.setNext (p.prev dq) p.freemetahead
    let p := { p with freemetahead := p.prev dq }
    let p := p.setMemprev dq (p.memprev (p.prev dq))
    let p := p.setMemnext (p.memprev dq) dq
    let p := p.setPrev dq (p.prev (p.prev dq))
    p.setNext (p.prev dq) dq
  else p

def insertFreeBlock (p : MempoolSepmeta) (dq : Memdq) : Option MempoolSepmeta :=
  (p.findFreeDqSlot (p.mem dq) p.longest (p.next .freehead)).map fun fdq =>
    let (p, dq) := p.joinNext dq fdq
    p.joinPrev dq

/-- Takes `dq` off the list that it is on. -/
def unlink (p : MempoolSepmeta) (dq : Memdq) : MempoolSepmeta :=
  let p := p.setNext (p.prev dq) (p.next dq)
  p.setPrev (p.next dq) (p.prev dq)

/-- `alloced->next->prev = alloced->prev->next = alloced`. -/
def linkAlloced (p : MempoolSepmeta) (alloced : Memdq) : MempoolSepmeta :=
  let p := p.setNext (p.prev alloced) alloced
  p.setPrev (p.next alloced) alloced

/-- The exact fit: the descriptor changes lists. The block behind a free one is allocated. -/
def takeWhole (p : MempoolSepmeta) (dq : Memdq) : MempoolSepmeta :=
  let p := p.unlink dq
  let p := p.setNext dq (p.memnext dq)
  p.setPrev dq (p.prev (p.next dq))

/-- The end of the block becomes one of its own, with the descriptor `alloced`. -/
def takeEnd (p : MempoolSepmeta) (size : Nat) (dq alloced : Memdq) : MempoolSepmeta :=
  let p := { p with freemetahead := p.next alloced }
  let p := p.setMemnext alloced (p.memnext dq)
  let p := p.setNext alloced (p.memnext dq)
  let p := p.setMemprev alloced dq
  let p := p.setPrev alloced (p.prev (p.next alloced))
  let p := p.setMem alloced (p.mem (p.next alloced) - size)
  let p := p.setMemnext dq alloced
  let p := p.setMemprev (p.memnext alloced) alloced
  p.linkAlloced alloced

/-- The last part of `try_alloc`, once a block is found. -/
def takeFrom (p : MempoolSepmeta) (size : Nat) (dq : Memdq) : MempoolSepmeta × Nat :=
  if size = p.extent dq then
    let p := (p.takeWhole dq).linkAlloced dq
    ({ p with freemem := p.freemem - size }, p.mem dq)
  else if p.freemetahead = .null then (p, Ecos.null)
  else
    let alloced := p.freemetahead
    let p := (p.takeEnd size dq alloced).linkAlloced alloced
    ({ p with freemem := p.freemem - size }, p.mem alloced)

def tryAlloc (p : MempoolSepmeta) (size : Nat) : Option (MempoolSepmeta × Nat) :=
  if p.bottom = Ecos.null ∨ p.metabase = Ecos.null then some (p, Ecos.null)
  else
    let size := p.roundsize size
    match p.findFreeDq size p.longest (p.next .freehead) with
    | none => none
    | some dq => if dq = .null then some (p, Ecos.null) else some (p.takeFrom size dq)

/-- A size of zero stands for the size of the block. -/
def free (p : MempoolSepmeta) (ptr size : Nat) : Option (MempoolSepmeta × Bool) :=
  if ¬ (p.bottom ≤ ptr ∧ ptr ≤ p.top) then some (p, false)
  else
    match p.findAllocedDq ptr p.longest (p.next .allocedhead) with
    | none => none
    | some dq =>
      if dq = .null then some (p, false)
      else
        let size := if size = 0 then p.extent dq else p.roundsize size
        if p.extent dq ≠ size then some (p, false)
        else ((p.unlink dq).insertFreeBlock dq).map fun p => ({ p with freemem := p.freemem + size }, true)

end MempoolSepmeta

open Ring.Nodes (before after before_mem after_mem)
open List

/-- A pointer as what it leads to. -/
def Memdq.ref : Memdq → Option Memdq
  | .null => none
  | dq => some dq

/-- A block of the arena with its descriptor. -/
structure Block extends Piece where
  dq : Memdq

/-- The descriptors of the blocks of one use, in the order of the blocks. -/
def dqs (use : Use) (blocks : List Block) : List Memdq := (blocks.filter (·.use = use)).map Block.dq

/-- The free list, from its head on. -/
def freeRing (blocks : List Block) : List Memdq := .freehead :: dqs .free blocks

/-- The list of allocated blocks, which ends with `memend`. -/
def allocedRing (blocks : List Block) : List Memdq := .allocedhead :: (dqs .live blocks ++ [.memend])

/-- All descriptors there are. -/
def everyMemdq (n : Nat) : List Memdq := .memhead :: (List.range n).map Memdq.metadata

variable {n n' : Ring.Nodes Memdq} {mem : Memdq → Nat} {bottom top count : Nat} {head d : Memdq} {use : Use}
  {l r blocks : List Block} {x y : Block} {unused : List Memdq} {k : Nat}

section Dqs

@[simp] theorem dqs_nil : dqs use [] = [] := rfl

theorem dqs_append : dqs use (l ++ r) = dqs use l ++ dqs use r := by
  simp [dqs]

theorem dqs_cons : dqs use (x :: l) = if x.use = use then x.dq :: dqs use l else dqs use l := by
  by_cases same : x.use = use <;> simp [dqs, same]

theorem mem_dqs : d ∈ dqs use blocks ↔ ∃ x ∈ blocks, x.use = use ∧ x.dq = d := by
  simp [dqs, and_assoc]

theorem dqs_perm (blocks : List Block) :
    (blocks.map Block.dq).Perm (dqs .free blocks ++ dqs .live blocks ++ dqs .loose blocks) := by
  induction blocks with
  | nil => exact Perm.refl _
  | cons x blocks ih =>
    simp only [map_cons, dqs_cons]
    cases x.use with
    | free => simpa using ih
    | live =>
      simp only [reduceCtorEq, if_false, if_true, append_assoc]
      simp only [append_assoc] at ih
      exact (ih.cons x.dq).trans perm_middle.symm
    | loose =>
      exact (ih.cons x.dq).trans perm_middle.symm

theorem everyMemdq_nodup (count : Nat) : (everyMemdq count).Nodup := by
  refine nodup_cons.mpr ⟨by simp, nodup_range.map ?_⟩
  intro i j same
  exact Memdq.metadata.inj same

end Dqs

/-- Every descriptor is that of a block or unused, and of one block only. -/
def Complete (count : Nat) (blocks : List Block) (unused : List Memdq) : Prop :=
  (blocks.map Block.dq ++ unused).Perm (everyMemdq count)

section
variable (complete : Complete count blocks unused)
include complete

theorem Complete.proper (member : d ∈ blocks.map Block.dq ++ unused) :
    d ≠ .null ∧ d ≠ .allocedhead ∧ d ≠ .freehead ∧ d ≠ .memend := by
  have listed := complete.mem_iff.mp member
  simp only [everyMemdq, mem_cons, mem_map, mem_range] at listed
  rcases listed with rfl | ⟨i, _, rfl⟩ <;> simp

theorem Complete.dq_proper (member : x ∈ blocks) :
    x.dq ≠ .null ∧ x.dq ≠ .allocedhead ∧ x.dq ≠ .freehead ∧ x.dq ≠ .memend :=
  complete.proper (mem_append_left _ (mem_map_of_mem member))

theorem Complete.apart : ((freeRing blocks ++ allocedRing blocks) ++ (unused ++ dqs .loose blocks)).Nodup := by
  have heads : (Memdq.freehead :: .allocedhead :: .memend :: (blocks.map Block.dq ++ unused)).Nodup := by
    have once := complete.nodup_iff.mpr (everyMemdq_nodup count)
    have outside : ∀ d ∈ blocks.map Block.dq ++ unused, d ≠ .allocedhead ∧ d ≠ .freehead ∧ d ≠ .memend :=
      fun d member => (complete.proper member).2
    refine nodup_cons.mpr ⟨?_, nodup_cons.mpr ⟨?_, nodup_cons.mpr ⟨?_, once⟩⟩⟩
    · simp only [mem_cons, reduceCtorEq, false_or]
      exact fun member => (outside _ member).2.1 rfl
    · simp only [mem_cons, reduceCtorEq, false_or]
      exact fun member => (outside _ member).1 rfl
    · exact fun member => (outside _ member).2.2 rfl
  refine (Perm.nodup_iff ?_).mpr heads
  have parts := dqs_perm blocks
  refine perm_iff_count.mpr fun d => ?_
  have counted := perm_iff_count.mp parts d
  simp only [freeRing, allocedRing, count_append, count_cons, count_nil] at counted ⊢
  omega

end

section Apart
variable (complete : Complete count blocks unused)
include complete

theorem Complete.free_alloced {e : Memdq} (left : d ∈ freeRing blocks) (right : e ∈ allocedRing blocks) : d ≠ e :=
  (nodup_append.mp (nodup_append.mp complete.apart).1).2.2 d left e right

theorem Complete.free_unused {e : Memdq} (left : d ∈ freeRing blocks) (right : e ∈ unused) : d ≠ e :=
  (nodup_append.mp complete.apart).2.2 d (mem_append_left _ left) e (mem_append_left _ right)

theorem Complete.alloced_unused {e : Memdq} (left : d ∈ allocedRing blocks) (right : e ∈ unused) : d ≠ e :=
  (nodup_append.mp complete.apart).2.2 d (mem_append_right _ left) e (mem_append_left _ right)

theorem Complete.freeRing_nodup : (freeRing blocks).Nodup :=
  (nodup_append.mp (nodup_append.mp complete.apart).1).1

theorem Complete.allocedRing_nodup : (allocedRing blocks).Nodup :=
  (nodup_append.mp (nodup_append.mp complete.apart).1).2.1

theorem Complete.memring_nodup : (Memdq.memend :: blocks.map Block.dq).Nodup := by
  have once := complete.nodup_iff.mpr (everyMemdq_nodup count)
  refine nodup_cons.mpr ⟨fun member => ?_, (nodup_append.mp once).1⟩
  exact (complete.proper (mem_append_left _ member)).2.2.2 rfl

theorem Complete.loose_apart (member : x ∈ blocks) (loose : x.use = .loose) :
    x.dq ∉ freeRing blocks ∧ x.dq ∉ allocedRing blocks ∧ x.dq ∉ unused := by
  have listed : x.dq ∈ dqs .loose blocks := mem_dqs.mpr ⟨x, member, loose, rfl⟩
  obtain ⟨_, right, disjoint⟩ := nodup_append.mp complete.apart
  refine ⟨fun inside => ?_, fun inside => ?_, fun inside => ?_⟩
  · exact disjoint _ (mem_append_left _ inside) _ (mem_append_right _ listed) rfl
  · exact disjoint _ (mem_append_right _ inside) _ (mem_append_right _ listed) rfl
  · exact (nodup_append.mp right).2.2 _ inside _ listed rfl

end Apart

theorem Complete.reuse (complete : Complete count (l ++ x :: r) unused) (same : y.dq = x.dq) :
    Complete count (l ++ y :: r) unused := by
  unfold Complete at complete ⊢
  simpa [same] using complete

theorem Complete.push (complete : Complete count (l ++ x :: r) unused) : Complete count (l ++ r) (x.dq :: unused) := by
  refine Perm.trans ?_ complete
  simp only [map_append, map_cons, append_assoc, cons_append]
  refine Perm.append_left _ ?_
  exact perm_middle

theorem Complete.pop (complete : Complete count (l ++ r) (d :: unused)) (named : y.dq = d) :
    Complete count (l ++ y :: r) unused := by
  refine Perm.trans ?_ complete
  simp only [map_append, map_cons, append_assoc, cons_append, named]
  refine Perm.append_left _ ?_
  exact perm_middle.symm

end Ecos
