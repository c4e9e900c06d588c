import Ecos.Lib.Splice
import Mathlib.Algebra.Ring.Int.Defs
import Mathlib.Algebra.GroupWithZero.Nat

/-! The variable block memory pool of `mvarimpl.inl`, with coalescing, on a 32-bit machine. -/

namespace Ecos

/-- Memory: the 32-bit word at each word address. -/
abbrev Memory := Nat → Nat

/-- What remains of a number in a 32-bit register. -/
def word (n : Nat) : Nat := n % 2 ^ 32

def null : Nat := 0

/-- The size of a `struct memdq`: two pointers and a size. -/
def sizeofMemdq : Nat := 12

/-- What `try_alloc` leaves in both pointers of an allocated block. -/
def allocMagic : Nat := 0xd530d53

namespace Memory

def prev (m : Memory) (dq : Nat) : Nat := m dq

def next (m : Memory) (dq : Nat) : Nat := m (dq + 4)

def size (m : Memory) (dq : Nat) : Nat := m (dq + 8)

def setPrev (m : Memory) (dq v : Nat) : Memory := Function.update m dq v

def setNext (m : Memory) (dq v : Nat) : Memory := Function.update m (dq + 4) v

def setSize (m : Memory) (dq v : Nat) : Memory := Function.update m (dq + 8) v

/-- The words of memory as the pointers of a doubly linked list. -/
def nodes (m : Memory) : Ring.Nodes Nat := ⟨m.next, m.prev⟩

/-- The signed comparison `dq->size >= n` with a size `n` that is not negative. -/
def fits (m : Memory) (n dq : Nat) : Bool := decide (n ≤ m.size dq ∧ m.size dq < 2 ^ 31)

end Memory

/-- `Cyg_Mempool_Variable_Implementation`. The list head is a member of the
pool object; `head` is its address, its fields lie in memory like those of a block. -/
structure MempoolVariable where
  mem : Memory
  head : Nat
  obase : Nat
  osize : Nat
  bottom : Nat
  top : Nat
  alignment : Nat
  freemem : Int

namespace MempoolVariable

/-- `(size + sizeof(memdq) + alignment - 1) & -alignment`. -/
def roundup (alignment size : Nat) : Nat :=
  word (size + sizeofMemdq + alignment - 1) &&& (2 ^ 32 - alignment)

def addr2memdq (alignment addr : Nat) : Nat := word (roundup alignment addr + 2 ^ 32 - sizeofMemdq)

def alloc2memdq (addr : Nat) : Nat := addr - sizeofMemdq

def memdq2alloc (dq : Nat) : Nat := dq + sizeofMemdq

/-- `while (alignment < sizeof(memdq)) alignment += alignment`. -/
def enlarge : Nat → Nat → Nat
  | 0, alignment => alignment
  | fuel + 1, alignment => if alignment < sizeofMemdq then enlarge fuel (alignment + alignment) else alignment

/-- The aligned end of the arena: `top` is to `bottom` a multiple of the alignment. -/
def arenaTop (alignment base size : Nat) : Nat :=
  word ((word (base + size + sizeofMemdq) &&& (2 ^ 32 - alignment)) + 2 ^ 32 - sizeofMemdq)

/-- The free list of a new pool: the head and the one block `dq`. -/
def firstBlock (mem : Memory) (hdq dq size : Nat) : Memory :=
  let mem := (mem.setNext hdq dq).setPrev hdq dq
  let mem := mem.setSize hdq 0
  let mem := (mem.setNext dq hdq).setPrev dq hdq
  mem.setSize dq size

/-- The constructor. Below `sizeof(memdq)` bytes only `bottom` is set. -/
def construct (mem : Memory) (head base size align : Nat) : MempoolVariable :=
  if size < sizeofMemdq then
    { mem, head, obase := 0, osize := 0, bottom := null, top := 0, alignment := 0, freemem := 0 }
  else
    let alignment := enlarge sizeofMemdq align
    let bottom := addr2memdq alignment base
    let top := arenaTop alignment base size
    let mem := firstBlock mem head bottom (top - bottom)
    { mem, head, obase := base, osize := size, bottom, top, alignment, freemem := top - bottom }

/-- The search down the free list: stops at the head, whose size is zero, or
at the first block that is large enough. Without fuel it has not ended. -/
def firstFit (mem : Memory) (size : Nat) : Nat → Nat → Option Nat
  | 0, _ => none
  | fuel + 1, dq =>
    let dq := mem.next dq
    if mem.size dq = 0 then some null
    else if mem.fits size dq then some dq
    else firstFit mem size fuel dq

/-- The last part of `try_alloc`, once a block is found. -/
def takeFrom (p : MempoolVariable) (size dq : Nat) : MempoolVariable × Nat :=
  let (mem, alloced) :=
    if size = p.mem.size dq then
      -- exact fit: unlink from the free list
      let mem := p.mem.setNext (p.mem.prev dq) (p.mem.next dq)
      let mem := mem.setPrev (mem.next dq) (mem.prev dq)
      (mem, dq)
    else
      -- allocate a portion of memory from the end of the block
      let mem := p.mem.setSize dq (p.mem.size dq - size)
      (mem, dq + mem.size dq)
  let mem := mem.setSize alloced size
  let mem := (mem.setPrev alloced allocMagic).setNext alloced allocMagic
  ({ p with mem, freemem := p.freemem - size }, memdq2alloc alloced)

def tryAlloc (p : MempoolVariable) (size : Nat) : Option (MempoolVariable × Nat) :=
  if p.bottom = null then some (p, null)
  else
    let size := roundup p.alignment size
    match firstFit p.mem size p.osize p.head with
    | none => none
    | some dq => if dq = null then some (p, null) else some (p.takeFrom size dq)

/-- `for (idq = hdq->next; idq != hdq; idq = idq->next) if (idq > dq) break`. -/
def findSlot (mem : Memory) (head dq : Nat) : Nat → Nat → Option Nat
  | 0, _ => none
  | fuel + 1, idq =>
    if idq = head then some idq
    else if idq > dq then some idq
    else findSlot mem head dq fuel (mem.next idq)

/-- Links `dq` in immediately before `idq`. -/
def linkBefore (mem : Memory) (dq idq : Nat) : Memory :=
  let mem := mem.setNext dq idq
  let mem := mem.setPrev dq (mem.prev idq)
  let mem := mem.setPrev idq dq
  mem.setNext (mem.prev dq) dq

/-- Coalescing with the free block after `dq`. -/
def joinNext (mem : Memory) (head dq : Nat) : Memory :=
  if mem.next dq ≠ head ∧ dq + mem.size dq = mem.next dq then
    let mem := mem.setSize dq (mem.size dq + mem.size (mem.next dq))
    let mem := mem.setNext dq (mem.next (mem.next dq))
    mem.setPrev (mem.next dq) dq
  else mem

/-- Coalescing with the free block before `dq`. -/
def joinPrev (mem : Memory) (head dq : Nat) : Memory :=
  if mem.prev dq ≠ head ∧ mem.prev dq + mem.size (mem.prev dq) = dq then
    let mem := mem.setSize (mem.prev dq) (mem.size (mem.prev dq) + mem.size dq)
    let mem := mem.setNext (mem.prev dq) (mem.next dq)
    mem.setPrev (mem.next dq) (mem.prev dq)
  else mem

def insertFreeBlock (p : MempoolVariable) (dq : Nat) : Option MempoolVariable :=
  match findSlot p.mem p.head dq p.osize (p.mem.next p.head) with
  | none => none
  | some idq =>
    let mem := linkBefore p.mem dq idq
    let mem := joinNext mem p.head dq
    let mem := joinPrev mem p.head dq
    some { p with mem, freemem := p.freemem + p.mem.size dq }

/-- Takes the free block at `nextdq` off the list and adds it to the block at `dq`. -/
def joinBehind (mem : Memory) (dq nextdq : Nat) : Memory :=
  let mem := mem.setPrev (mem.next nextdq) (mem.prev nextdq)
  let mem := mem.setNext (mem.prev nextdq) (mem.next nextdq)
  mem.setSize dq (mem.size dq + mem.size nextdq)

/-- The growing part of `resize_alloc`: joins the block with all of the free
block after it. The sum `dq + newsize` is a pointer and wraps. -/
def joinForResize (p : MempoolVariable) (dq newsize : Nat) : MempoolVariable :=
  if newsize > p.mem.size dq ∧ word (dq + newsize) ≤ p.top then
    let nextdq := dq + p.mem.size dq
    if p.mem.next nextdq ≠ p.mem.prev nextdq ∧ p.mem.fits (newsize - p.mem.size dq) nextdq then
      let mem := joinBehind p.mem dq nextdq
      { p with mem, freemem := p.freemem - mem.size nextdq }
    else p
  else p

/-- The shrinking part of `resize_alloc`, also used to split a block that was
joined: the allocation keeps `newsize` bytes and the rest becomes a free block. -/
def splitForResize (p : MempoolVariable) (allocPtr newsize : Nat) : Option (MempoolVariable × Nat) :=
  let dq := alloc2memdq allocPtr
  if newsize < p.mem.size dq then
    let newdq := dq + newsize
    let mem := p.mem.setSize newdq (p.mem.size dq - newsize)
    let mem := mem.setSize dq newsize
    (insertFreeBlock { p with mem } newdq).map fun p => (p, allocPtr)
  else if newsize = p.mem.size dq then some (p, allocPtr)
  else some (p, null)

/-- The result, and the previous size of the allocation. -/
def resizeAlloc (p : MempoolVariable) (allocPtr newsize : Nat) : Option (MempoolVariable × Nat × Nat) :=
  let dq := alloc2memdq allocPtr
  let newsize := roundup p.alignment newsize
  let oldsize := p.mem.size dq
  ((p.joinForResize dq newsize).splitForResize allocPtr newsize).map fun (p, ret) => (p, ret, oldsize)

/-- A size of zero stands for the size of the block. -/
def free (p : MempoolVariable) (ptr size : Nat) : Option (MempoolVariable × Bool) :=
  let dq := alloc2memdq ptr
  if ¬ (p.bottom ≤ ptr ∧ ptr ≤ p.top) then some (p, false)
  else if p.mem.next dq ≠ p.mem.prev dq ∨ p.mem.next dq ≠ allocMagic then some (p, false)
  else
    let size := if size = 0 then p.mem.size dq else roundup p.alignment size
    if p.mem.size dq ≠ size then some (p, false)
    else (insertFreeBlock p dq).map fun p => (p, true)

end MempoolVariable

end Ecos
