import Ecos.Memalloc.SepmetaLookup

/-! `resize_alloc` of the pool with separate metadata. -/

namespace Ecos

/-- What an address computation leaves in a pointer. -/
def address (z : Int) : Nat := (z % 2 ^ 32).toNat

/-- `copy_data`, which moves overlapping data as it should. -/
def copyData (data : Nat → Nat) (dst src nbytes : Nat) (addr : Nat) : Nat :=
  if dst ≤ addr ∧ addr < dst + nbytes then data (src + (addr - dst)) else data addr

namespace MempoolSepmeta

/-- `behind->mem - dq->mem`. -/
def span (p : MempoolSepmeta) (dq behind : Memdq) : Int := signed (p.mem behind - p.mem dq)

/-- The size of the block that `dq` stands for. -/
def currsize (p : MempoolSepmeta) (dq : Memdq) : Int := p.span dq (p.memnext dq)

/-- If `next` and `memnext` are not equal, the next block must be on the free list. -/
def nextmemsize (p : MempoolSepmeta) (dq : Memdq) : Int :=
  if p.next dq ≠ p.memnext dq then p.span (p.memnext dq) (p.memnext (p.memnext dq)) else 0

def prevmemsize (p : MempoolSepmeta) (dq : Memdq) : Int :=
  if p.prev dq ≠ p.memprev dq then p.span (p.memprev dq) dq else 0

/-- Takes `fblk` off the free list; the descriptor is meant to return to the metadata list. -/
def dropFree (p : MempoolSepmeta) (fblk : Memdq) : MempoolSepmeta :=
  let p := p.setPrev (p.next fblk) (p.prev fblk)
  let p := p.setNext (p.prev fblk) (p.next fblk)
  let p := p.setNext fblk p.freemetahead
  { p with freemetahead := p.next fblk }

def expandForwards (p : MempoolSepmeta) (newsize nextmemsize currsize : Int) (dq : Memdq) : MempoolSepmeta × Int :=
  if nextmemsize = 0 then (p, currsize)
  else if nextmemsize ≤ newsize - currsize then
    let fblk := p.memnext dq
    let p := p.setMemnext dq (p.memnext fblk)
    let p := p.setMemprev (p.memnext dq) dq
    (p.dropFree fblk, currsize + nextmemsize)
  else (p.setMem (p.memnext dq) (address (p.mem (p.memnext dq) + (newsize - currsize))), newsize)

def expandBackwards (p : MempoolSepmeta) (newsize prevmemsize currsize : Int) (dq : Memdq) : MempoolSepmeta :=
  if prevmemsize = newsize - currsize then
    let fblk := p.memprev dq
    let p := p.setMemprev dq (p.memprev fblk)
    let p := p.setMemnext (p.memprev dq) dq
    let p := p.setMem dq (p.mem fblk)
    p.dropFree fblk
  else p.setMem dq (address (p.mem dq - (newsize - currsize)))

/-- The growth of an allocation, with the size it has then; nothing where it does not fit. -/
def grow (p : MempoolSepmeta) (data : Nat → Nat) (newsize origsize : Int) (dq : Memdq) :
    Option (MempoolSepmeta × (Nat → Nat) × Int) :=
  let nextmemsize := p.nextmemsize dq
  let prevmemsize := p.prevmemsize dq
  if nextmemsize + prevmemsize + origsize < newsize then none
  else
    let (p, currsize) := p.expandForwards newsize nextmemsize origsize dq
    if currsize < newsize ∧ prevmemsize ≠ 0 then
      let oldmem := p.mem dq
      let p := p.expandBackwards newsize prevmemsize currsize dq
      some (p, copyData data (p.mem dq) oldmem origsize.toNat, currsize)
    else some (p, data, currsize)

/-- The shrinking of an allocation, and whether it was done. -/
def shrink (p : MempoolSepmeta) (newsize currsize : Int) (dq : Memdq) : Option (MempoolSepmeta × Bool) :=
  if p.memnext dq ≠ p.next dq then
    some (p.setMem (p.memnext dq) (address (p.mem (p.memnext dq) - (currsize - newsize))), true)
  else if p.freemetahead = .null then some (p, false)
  else
    let fdq := p.freemetahead
    let p := { p with freemetahead := p.next fdq }
    let p := p.setMemprev fdq dq
    let p := p.setMemnext fdq (p.memnext dq)
    let p := p.setMem fdq (address (p.mem dq + newsize))
    (p.insertFreeBlock fdq).map (·, true)

/-- `resize_alloc` with what it leaves in the pool and in memory, the old size and the address it returns. -/
def resizeAlloc (p : MempoolSepmeta) (data : Nat → Nat) (ptr : Nat) (newsize : Int) :
    Option (MempoolSepmeta × (Nat → Nat) × Int × Nat) :=
  match p.findAllocedDq ptr p.longest (p.next .allocedhead) with
  | none => none
  | some dq =>
    let origsize := p.currsize dq
    match if newsize > origsize then p.grow data newsize origsize dq else some (p, data, origsize) with
    | none => some (p, data, origsize, Ecos.null)
    | some (grown, data, currsize) =>
      if newsize < currsize then
        match grown.shrink newsize currsize dq with
        | none => none
        | some (p, false) => some (p, data, origsize, Ecos.null)
        | some (p, true) => some ({ p with freemem := p.freemem + (origsize - newsize) }, data, origsize, p.mem dq)
      else some ({ grown with freemem := grown.freemem + (origsize - newsize) }, data, origsize, grown.mem dq)

end MempoolSepmeta

open Ring.Nodes (before after before_mem after_mem after_cons after_nil before_concat)
open Function List

variable {n : Ring.Nodes Memdq} {count : Nat} {head v : Memdq} {l r blocks : List Block} {x y w : Block}
  {unused : List Memdq}

theorem address_of {z : Int} {a : Nat} (value : z = a) (below : a < 2 ^ 32) : address z = a := by
  unfold address
  omega

section Scribble
variable (threads : MetaThreads n head (l ++ x :: r) unused) (complete : Complete count (l ++ x :: r) unused)
include threads complete

theorem MetaThreads.scribble (loose : x.use = .loose) :
    MetaThreads { n with next := update n.next x.dq v } head (l ++ x :: r) unused := by
  obtain ⟨offFree, offAlloced, offUnused⟩ := complete.loose_apart (x := x) (by simp) loose
  have kept : ∀ d, d ≠ x.dq → update n.next x.dq v d = n.next d :=
    fun d other => update_of_ne other _ _
  refine ⟨?_, ?_, ?_⟩
  · exact MetaThreads.ring_kept threads.free fun d inside => ⟨kept d fun same => offFree (same ▸ inside), rfl⟩
  · exact MetaThreads.ring_kept threads.alloced fun d inside => ⟨kept d fun same => offAlloced (same ▸ inside), rfl⟩
  · exact @MetaThreads.chain_kept _ { n with next := update n.next x.dq v } _ _ threads.unused
      fun d inside => kept d fun same => offUnused (same ▸ inside)

end Scribble

namespace MempoolSepmeta
variable {p p' : MempoolSepmeta} {k b : Nat} {d f : Memdq}

/-- What is left of a free block that is dropped: it is off the free list, and
`freemetahead` leads where it led. -/
theorem dropFree_eq : p.dropFree f = { p with
    links := { p.links.bridge f with next := update (p.links.bridge f).next f p.freemetahead } } := by
  have back : update p.links.prev (p.links.next f) (p.links.prev f) f = p.links.prev f := by
    by_cases same : f = p.links.next f
    · rw [← same, update_self]
    · exact update_of_ne same _ _
  simp [dropFree, setPrev, setNext, next, prev, Ring.Nodes.bridge, back]

/-- The descriptors' lists, as far as the links go: a loose block is on none of them. -/
def Threaded (p : MempoolSepmeta) (blocks : List Block) (unused : List Memdq) : Prop :=
  MetaThreads p.links p.freemetahead blocks unused ∧ Complete p.descriptors blocks unused

theorem Lists.threaded (lists : p.Lists blocks unused) : p.Threaded blocks unused := ⟨lists.threads, lists.complete⟩

theorem Threaded.congr (threaded : p.Threaded blocks unused) (links : p'.links = p.links)
    (head : p'.freemetahead = p.freemetahead) (size : p'.metasize = p.metasize) : p'.Threaded blocks unused := by
  unfold Threaded descriptors
  rw [links, head, size]
  exact threaded

theorem Threaded.dropFree (threaded : p.Threaded (l ++ x :: r) unused) (free : x.use = .free) :
    (p.dropFree x.dq).Threaded (l ++ { x with use := .loose } :: r) unused := by
  rw [dropFree_eq]
  have complete : Complete p.descriptors (l ++ { x with use := .loose } :: r) unused := threaded.2.reuse rfl
  exact ⟨(threaded.1.unlink_free threaded.2 free).scribble complete rfl, complete⟩

/-- What is said of the lists: from the block behind `memend` on the mem list
tiles the arena, the three lists share out the descriptors, and the free and the
allocated ones are the blocks. -/
structure Accounted (p : MempoolSepmeta) (blocks alloced free unused : List Memdq) : Prop where
  memlist : p.memlinks.IsRing (.memend :: blocks)
  tiles : Tiles p.mem p.extent p.bottom blocks p.top
  allocedlist : p.links.IsRing (.allocedhead :: (alloced ++ [.memend]))
  freelist : p.links.IsRing (.freehead :: free)
  unusedlist : Chain (fun d => (p.links.next d).ref) p.freemetahead.ref unused
  every : (alloced ++ free ++ unused).Perm (everyMemdq p.descriptors)
  exactly : (alloced ++ free).Perm blocks

theorem Accounted.lists_eq {alloced free rest mem : List Memdq} (accounted : p.Accounted mem alloced free rest)
    (threaded : p.Threaded blocks unused) : alloced = dqs .live blocks ∧ free = dqs .free blocks ∧ rest = unused := by
  have offs : ∀ d ∈ alloced ++ free ++ rest, d ≠ .allocedhead ∧ d ≠ .freehead := by
    intro d member
    have listed := accounted.every.mem_iff.mp member
    simp only [everyMemdq, mem_cons, mem_map, mem_range] at listed
    rcases listed with rfl | ⟨i, _, rfl⟩ <;> simp
  have nodupFree := threaded.2.freeRing_nodup
  have nodupAlloced := threaded.2.allocedRing_nodup
  refine ⟨?_, ?_, accounted.unusedlist.unique threaded.1.unused⟩
  · have same := accounted.allocedlist.unique threaded.1.alloced ?_ (nodup_cons.mp nodupAlloced).1
    · exact append_cancel_right same
    · intro member
      rcases mem_append.mp member with inside | last
      · exact (offs _ (by simp [inside])).1 rfl
      · simp at last
  · refine accounted.freelist.unique threaded.1.free (fun member => ?_) (nodup_cons.mp nodupFree).1
    exact (offs .freehead (by simp [member])).2 rfl

theorem Threaded.lost (threaded : p.Threaded blocks unused) (member : x ∈ blocks) (loose : x.use = .loose) :
    ¬ ∃ mem alloced free rest, p.Accounted mem alloced free rest := by
  rintro ⟨mem, alloced, free, rest, accounted⟩
  obtain ⟨rfl, rfl, rfl⟩ := accounted.lists_eq threaded
  obtain ⟨offFree, offAlloced, offUnused⟩ := threaded.2.loose_apart member loose
  have every : x.dq ∈ everyMemdq p.descriptors :=
    threaded.2.mem_iff.mp (mem_append_left _ (mem_map_of_mem member))
  have listed := accounted.every.mem_iff.mpr every
  simp only [mem_append] at listed
  rcases listed with (alloced | free) | unused
  · exact offAlloced (by simp [allocedRing, alloced])
  · exact offFree (by simp [freeRing, free])
  · exact offUnused unused

theorem Threaded.orphan {mems : List Memdq} (threaded : p.Threaded blocks unused)
    (ring : p.memlinks.IsRing (.memend :: mems)) (free : d ∈ dqs .free blocks) (off : d ∉ mems) (ends :
      .memend ∉ mems) :
    ¬ ∃ mem alloced free rest, p.Accounted mem alloced free rest := by
  rintro ⟨mem, alloced, frees, rest, accounted⟩
  obtain ⟨rfl, rfl, rfl⟩ := accounted.lists_eq threaded
  have same : mem = mems := by
    refine accounted.memlist.unique ring (fun member => ?_) ends
    have listed := accounted.exactly.mem_iff.mpr member
    have every := accounted.every.mem_iff.mp (mem_append_left _ listed)
    simp [everyMemdq] at every
  refine off (same ▸ accounted.exactly.mem_iff.mp ?_)
  exact mem_append_right _ free

namespace Lists

theorem neighbours (lists : p.Lists (l ++ x :: y :: r) unused) : y.addr = x.addr + x.size := by
  have tiles := lists.order.tiles
  simp only [map_append, map_cons] at tiles
  exact (tiles_append.mp tiles).2.2.1

theorem moveBoundary (lists : p.Lists (l ++ x :: y :: r) unused) (low : x.addr < b) (high : b < y.addr + y.size) :
    (p.setMem y.dq b).Lists
      (l ++ { x with size := b - x.addr } :: { y with addr := b, size := y.addr + y.size - b } :: r) unused := by
  have regroup : ∀ x y, l ++ x :: y :: r = (l ++ [x]) ++ y :: r := by simp
  have nodup := lists.complete.memring_nodup
  have proper := lists.complete.dq_proper (x := y) (by simp)
  refine ⟨⟨?_, ?_, ?_, ?_⟩, ?_, ?_, lists.small⟩
  · show p.memlinks.IsRing _
    simpa using lists.order.ring
  · have tiles := lists.order.tiles
    simp only [map_append, map_cons] at tiles ⊢
    obtain ⟨left, _, here, _, right⟩ := tiles_append.mp tiles
    refine tiles_append.mpr ⟨left, ?_, ?_, ?_, ?_⟩
    · simp only
      omega
    · simp only
      omega
    · simp only
      omega
    · have ends : x.addr + (b - x.addr) + (y.addr + y.size - b) = y.addr + y.size := by omega
      simp only [ends]
      rw [here]
      exact right
  · intro z member
    have others : ∀ z, z ∈ l ∨ z = x ∨ z ∈ r → update p.mem y.dq b z.dq = z.addr := by
      intro z inside
      have listed : z ∈ l ++ x :: y :: r := by
        simp only [mem_append, mem_cons]
        tauto
      have apart : z.dq ≠ y.dq := by
        intro same
        simp only [map_append, map_cons, nodup_cons, nodup_append, mem_cons,
          mem_map] at nodup
        rcases inside with left | rfl | right
        · exact nodup.2.2.2 z.dq ⟨z, left, rfl⟩ y.dq (.inr (.inl rfl)) same
        · exact nodup.2.2.1.1 (.inl same)
        · exact nodup.2.2.1.2.1 ⟨z, right, same⟩
      rw [update_of_ne apart]
      exact lists.order.mems z listed
    rcases mem_append.mp member with left | right
    · exact others z (.inl left)
    · rcases mem_cons.mp right with rfl | right
      · exact others x (.inr (.inl rfl))
      · rcases mem_cons.mp right with rfl | later
        · exact update_self ..
        · exact others z (.inr (.inr later))
  · exact (update_of_ne proper.2.2.2.symm _ _).trans lists.order.ends
  · have first := MetaThreads.resize (y := { x with size := b - x.addr }) lists.threads rfl rfl
    rw [regroup] at first
    have second := MetaThreads.resize (y := { y with addr := b, size := y.addr + y.size - b }) first rfl rfl
    rw [← regroup] at second
    exact second
  · have first := Complete.reuse (y := { x with size := b - x.addr }) lists.complete rfl
    rw [regroup] at first
    have second := Complete.reuse (y := { y with addr := b, size := y.addr + y.size - b }) first rfl
    rw [← regroup] at second
    exact second

section
variable (lists : p.Lists (l ++ x :: r) unused)
include lists

theorem span_eq : p.span x.dq (p.memnext x.dq) = x.size := by
  have within := lists.order.within (x := x) (by simp)
  have small := lists.small
  have begins := lists.order.mems x (by simp)
  have ends : p.mem (p.memnext x.dq) = x.addr + x.size := lists.order.mem_next
  rw [span, ends, begins, signed_of_small (by omega) (by omega)]
  omega

theorem currsize_eq : p.currsize x.dq = x.size := lists.span_eq

theorem next_mem_allocedRing (live : x.use = .live) :
    p.next x.dq ∈ allocedRing (l ++ x :: r) := lists.threads.alloced.next_mem (dq_mem_allocedRing live)

theorem prev_mem_allocedRing (live : x.use = .live) :
    p.prev x.dq ∈ allocedRing (l ++ x :: r) := lists.threads.alloced.prev_mem (dq_mem_allocedRing live)

end

theorem next_free (lists : p.Lists (l ++ x :: y :: r) unused) (live : x.use = .live) (free : y.use = .free) :
    p.memnext x.dq = y.dq ∧ p.next x.dq ≠ p.memnext x.dq ∧ p.nextmemsize x.dq = y.size := by
  have memnext : p.memnext x.dq = y.dq := (lists.order.around).1
  have apart : p.next x.dq ≠ p.memnext x.dq := by
    rw [memnext]
    have regroup : l ++ x :: y :: r = (l ++ [x]) ++ y :: r := by simp
    have inFree : y.dq ∈ freeRing (l ++ x :: y :: r) := regroup ▸ dq_mem_freeRing free
    exact fun same => lists.complete.free_alloced inFree (lists.next_mem_allocedRing live) same.symm
  have regroup : l ++ x :: y :: r = (l ++ [x]) ++ y :: r := by simp
  refine ⟨memnext, apart, ?_⟩
  rw [nextmemsize, if_pos apart, memnext]
  exact span_eq (regroup ▸ lists)

theorem next_used (lists : p.Lists (l ++ x :: r) unused) (live : x.use = .live)
    (used : ∀ y ∈ r.head?, y.use = .live) : p.next x.dq = p.memnext x.dq ∧ p.nextmemsize x.dq = 0 := by
  have same : p.next x.dq = p.memnext x.dq := by
    rw [next, memnext, (lists.live_around live).1, (lists.order.around).1]
    cases r with
    | nil => rfl
    | cons y r => simp [dqs_cons, used y rfl]
  exact ⟨same, if_neg (not_not.mpr same)⟩

theorem prev_free (lists : p.Lists (l ++ w :: x :: r) unused) (live : x.use = .live) (free : w.use = .free) :
    p.memprev x.dq = w.dq ∧ p.prevmemsize x.dq = w.size := by
  have regroup : l ++ w :: x :: r = (l ++ [w]) ++ x :: r := by simp
  have memprev : p.memprev x.dq = w.dq := by
    show p.memlinks.prev x.dq = w.dq
    have around := (Order.around (regroup ▸ lists.order)).2
    simpa using around
  have memnext : p.memnext w.dq = x.dq := (lists.order.around).1
  have apart : p.prev x.dq ≠ p.memprev x.dq := by
    rw [memprev]
    have inFree : w.dq ∈ freeRing (l ++ w :: x :: r) := dq_mem_freeRing free
    have inAlloced := prev_mem_allocedRing (regroup ▸ lists) live
    rw [← regroup] at inAlloced
    exact fun same => lists.complete.free_alloced inFree inAlloced same.symm
  refine ⟨memprev, ?_⟩
  have size := lists.span_eq
  rw [memnext] at size
  rw [prevmemsize, if_pos apart, memprev, size]

theorem prev_used (lists : p.Lists (l ++ w :: x :: r) unused) (live : x.use = .live) (used : w.use = .live) :
    p.prevmemsize x.dq = 0 := by
  have regroup : l ++ w :: x :: r = (l ++ [w]) ++ x :: r := by simp
  have memprev := (Order.around (regroup ▸ lists.order)).2
  have back := (live_around (regroup ▸ lists) live).2
  refine if_neg (not_not.mpr ?_)
  rw [prev, MempoolSepmeta.memprev, back, memprev]
  simp [dqs_append, dqs_cons, used]

theorem prev_first (lists : p.Lists (x :: r) unused) (live : x.use = .live) :
    p.prevmemsize x.dq = (p.bottom : Int) - p.top := by
  have memprev : p.memprev x.dq = .memend := (Order.around (l := []) lists.order).2
  have prev : p.prev x.dq = .allocedhead := (live_around (l := []) lists live).2
  have within := lists.order.within (x := x) (by simp)
  have small := lists.small
  have begins := lists.order.mems x (by simp)
  have first : x.addr = p.bottom := lists.order.tiles.1
  rw [prevmemsize, if_pos (by rw [memprev, prev]; simp), memprev, span, begins, lists.order.ends, first,
    signed_of_small (by omega) (by omega)]

end Lists

end MempoolSepmeta

end Ecos
