import Mathlib.Data.List.Chain
import Ecos.Memalloc.MvarAlloc

namespace Ecos
open List MempoolVariable Memory
open MempoolVariable (roundup alloc2memdq)
variable {g : Geometry} {m m' : Memory} {l r pieces : List Piece} {x y z : Piece} {a w n k s : Nat}

theorem freeAfter_cases (g : Geometry) (r : List Piece) : freeAfter g r = g.head ∨
    ∃ z ∈ r, z.use = .free ∧ freeAfter g r = z.addr := by
  induction r with
  | nil => exact .inl rfl
  | cons y r ih =>
    rw [freeAfter_cons]
    by_cases free : y.use = .free
    · exact .inr ⟨y, by simp, free, if_pos free⟩
    · rw [if_neg free]
      rcases ih with head | ⟨z, member, freeZ, here⟩
      · exact .inl head
      · exact .inr ⟨z, mem_cons_of_mem y member, freeZ, here⟩

theorem Holds.findSlot {fuel : Nat} {l' : List Piece} (holds : Holds g m (l ++ (l' ++ x :: r))) (used : x.use ≠ .free)
    (enough : (freeAddrs l').length < fuel) :
    MempoolVariable.findSlot m g.head x.addr fuel (freeAfter g (l' ++ x :: r)) = some (freeAfter g r) := by
  induction l' generalizing l fuel with
  | nil =>
    obtain ⟨fuel, rfl⟩ : ∃ f, fuel = f + 1 := ⟨fuel - 1, by omega⟩
    rw [nil_append, freeAfter_cons, if_neg used]
    obtain ⟨_, positive, right⟩ := tiles_append.mp holds.tiles
    rcases freeAfter_cases g r with head | ⟨z, member, _, here⟩
    · simp [findSlot, head]
    · have later := (right.within member).1
      have behind : z.addr > x.addr := by omega
      simp [findSlot, here, behind]
  | cons y l' ih =>
    have rest : ∀ fuel, (freeAddrs l').length < fuel →
        findSlot m g.head x.addr fuel (freeAfter g (l' ++ x :: r)) = some (freeAfter g r) := by
      intro fuel
      exact ih (l := l ++ [y]) (by simpa using holds)
    rw [cons_append, freeAfter_cons]
    by_cases free : y.use = .free
    · simp only [freeAddrs_cons, free, if_true, length_cons] at enough
      obtain ⟨fuel, rfl⟩ : ∃ f, fuel = f + 1 := ⟨fuel - 1, by omega⟩
      have member : y ∈ l ++ (y :: l' ++ x :: r) := by simp
      have notHead := head_ne_addr holds.tiles holds.grid member
      obtain ⟨_, positive, right⟩ := tiles_append.mp holds.tiles
      have before := (right.within (x := x) (by simp)).1
      have notBehind : ¬ y.addr > x.addr := by omega
      have next : m.next y.addr = freeAfter g (l' ++ x :: r) := (holds.around free).1
      simp only [free, if_true, findSlot, if_neg notHead.symm, if_neg notBehind, next]
      exact rest fuel (by omega)
    · simp only [freeAddrs_cons, free, if_false] at enough
      rw [if_neg free]
      exact rest fuel enough

theorem Holds.linkBefore (holds : Holds g m (l ++ x :: r)) (used : x.use ≠ .free) :
    Holds g (MempoolVariable.linkBefore m x.addr (freeAfter g r)) (l ++ { x with use := .free } :: r) ∧
      Memory.Frame (x.addr :: circuit g (l ++ x :: r)) m
        (MempoolVariable.linkBefore m x.addr (freeAfter g r)) := by
  have xIn := addr_mem_headers (g := g) (show x ∈ l ++ x :: r by simp)
  have clear : ∀ u ∈ headers g (l ++ x :: r), ∀ w ∈ headers g (l ++ x :: r), Clear u w :=
    fun u inU w inW => headers_clear holds.tiles holds.grid inU inW
  have beforeIn : freeBefore g l ∈ circuit g (l ++ x :: r) := by
    rw [circuit_used used]
    exact freeBefore_mem
  have afterIn : freeAfter g r ∈ circuit g (l ++ x :: r) := by
    rw [circuit_used used]
    exact freeAfter_mem
  have notAfter : x.addr ≠ freeAfter g r := fun same =>
    addr_not_circuit holds.tiles holds.grid (same ▸ freeAfter_mem)
  have before : m.prev (freeAfter g r) = freeBefore g l := (holds.between used).2
  have shape : MempoolVariable.linkBefore m x.addr (freeAfter g r) = (((m.setNext x.addr (freeAfter g r)).setPrev
      x.addr (freeBefore g l)).setPrev (freeAfter g r) x.addr).setNext (freeBefore g l) x.addr := by
    simp [MempoolVariable.linkBefore, prev_setNext (clear _ xIn _ (circuit_subset afterIn)), before,
      prev_setPrev, notAfter]
  rw [shape]
  refine ⟨holds.link used ?_ ?_ ?_, ?_⟩
  · intro w inW
    rw [next_setNext, next_setPrev (clear _ (circuit_subset afterIn) _ inW),
      next_setPrev (clear _ xIn _ inW), next_setNext]
  · intro w inW
    rw [prev_setNext (clear _ (circuit_subset beforeIn) _ inW), prev_setPrev, prev_setPrev,
      prev_setNext (clear _ xIn _ inW)]
  · intro w inW
    rw [size_setNext (clear _ (circuit_subset beforeIn) _ inW),
      size_setPrev (clear _ (circuit_subset afterIn) _ inW), size_setPrev (clear _ xIn _ inW),
      size_setNext (clear _ xIn _ inW)]
  · have self : x.addr ∈ x.addr :: circuit g (l ++ x :: r) := mem_cons_self ..
    exact (((frame_setNext self).trans (frame_setPrev self)).trans
      (frame_setPrev (mem_cons_of_mem _ afterIn))).trans
        (frame_setNext (mem_cons_of_mem _ beforeIn))

/-- No two neighbours are free. -/
def Coalesced (pieces : List Piece) : Prop := pieces.IsChain fun x y => ¬ (x.use = .free ∧ y.use = .free)

section Join
variable (holds : Holds g m (l ++ x :: y :: r)) (freeX : x.use = .free) (freeY : y.use = .free)
include holds freeX freeY

theorem Holds.free_pair : m.next x.addr = y.addr ∧ m.prev y.addr = x.addr ∧ m.next y.addr = freeAfter g r ∧
    y.addr = x.addr + x.size := by
  have regroup : l ++ x :: y :: r = (l ++ [x]) ++ y :: r := by simp
  obtain ⟨nextX, _, _, _⟩ := holds.around freeX
  obtain ⟨nextY, prevY, _, _⟩ := Holds.around (regroup ▸ holds) freeY
  rw [freeAfter_cons, if_pos freeY] at nextX
  rw [freeBefore_concat, if_pos freeX] at prevY
  exact ⟨nextX, prevY, nextY, (tiles_append.mp holds.tiles).2.2.1⟩

theorem Holds.swallow :
    Holds g (((m.setSize x.addr (x.size + y.size)).setNext x.addr (freeAfter g r)).setPrev (freeAfter g r) x.addr)
        (l ++ { x with size := x.size + y.size } :: r) ∧
      Memory.Frame (circuit g (l ++ x :: y :: r)) m
        (((m.setSize x.addr (x.size + y.size)).setNext x.addr (freeAfter g r)).setPrev (freeAfter g r) x.addr) := by
  have regroup : l ++ x :: y :: r = (l ++ [x]) ++ y :: r := by simp
  have xIn := addr_mem_headers (g := g) (show x ∈ l ++ x :: y :: r by simp)
  have clear : ∀ u ∈ headers g (l ++ x :: y :: r), ∀ w ∈ headers g (l ++ x :: y :: r), Clear u w :=
    fun u inU w inW => headers_clear holds.tiles holds.grid inU inW
  have before : freeBefore g (l ++ [x]) = x.addr := by rw [freeBefore_concat, if_pos freeX]
  have afterIn : freeAfter g r ∈ circuit g (l ++ x :: y :: r) := by
    rw [regroup, circuit_free freeY]
    simp
  have xListed : x.addr ∈ circuit g (l ++ x :: y :: r) := by
    rw [circuit_free freeX]
    simp
  refine ⟨holds.absorb freeY ?_ ?_ ?_, ?_⟩
  · intro w inW _
    rw [next_setPrev (clear _ (circuit_subset afterIn) _ inW), next_setNext,
      next_setSize (clear _ xIn _ inW), before]
  · intro w inW _
    rw [prev_setPrev, prev_setNext (clear _ xIn _ inW), prev_setSize (clear _ xIn _ inW), before]
  · intro w inW _
    rw [size_setPrev (clear _ (circuit_subset afterIn) _ inW), size_setNext (clear _ xIn _ inW),
      size_setSize]
  · exact ((frame_setSize xListed).trans (frame_setNext xListed)).trans (frame_setPrev afterIn)

theorem Holds.joinNext_eq : MempoolVariable.joinNext m g.head x.addr =
    ((m.setSize x.addr (x.size + y.size)).setNext x.addr (freeAfter g r)).setPrev (freeAfter g r) x.addr := by
  have inX : x ∈ l ++ x :: y :: r := by simp
  have inY : y ∈ l ++ x :: y :: r := by simp
  obtain ⟨nextX, _, nextY, adjacent⟩ := holds.free_pair freeX freeY
  have notHead := (head_ne_addr holds.tiles holds.grid inY).symm
  have clear := headers_clear holds.tiles holds.grid (addr_mem_headers inX) (addr_mem_headers inY)
  unfold joinNext
  rw [if_pos (by rw [nextX, holds.sizes x inX]; exact ⟨notHead, adjacent.symm⟩)]
  simp only [next_setSize (.inl rfl), nextX, next_setSize clear, nextY, holds.sizes x inX,
    holds.sizes y inY, next_setNext, if_true]

theorem Holds.joinPrev_eq : MempoolVariable.joinPrev m g.head y.addr =
    ((m.setSize x.addr (x.size + y.size)).setNext x.addr (freeAfter g r)).setPrev (freeAfter g r) x.addr := by
  have inX : x ∈ l ++ x :: y :: r := by simp
  have inY : y ∈ l ++ x :: y :: r := by simp
  obtain ⟨_, prevY, nextY, adjacent⟩ := holds.free_pair freeX freeY
  have notHead := (head_ne_addr holds.tiles holds.grid inX).symm
  have clear := headers_clear holds.tiles holds.grid (addr_mem_headers inX) (addr_mem_headers inY)
  have positive := (holds.tiles.within inX).2.1
  have apart : y.addr ≠ x.addr := by omega
  unfold joinPrev
  rw [if_pos (by rw [prevY, holds.sizes x inX]; exact ⟨notHead, adjacent.symm⟩)]
  simp only [prevY, prev_setSize clear, next_setSize clear, nextY, holds.sizes x inX, holds.sizes y inY,
    next_setNext, prev_setNext clear, if_neg apart]

end Join

theorem Holds.joinNext_of_used (holds : Holds g m (l ++ x :: r)) (freeX : x.use = .free)
    (used : ∀ y ∈ r.head?, y.use ≠ .free) : MempoolVariable.joinNext m g.head x.addr = m := by
  have nextX : m.next x.addr = freeAfter g r := (holds.around freeX).1
  obtain ⟨_, _, right⟩ := tiles_append.mp holds.tiles
  refine if_neg ?_
  rw [nextX, holds.sizes x (by simp)]
  rintro ⟨notHead, adjacent⟩
  rcases freeAfter_cases g r with head | ⟨z, member, freeZ, here⟩
  · exact notHead head
  · cases r with
    | nil => simp at member
    | cons y r =>
      obtain ⟨_, positive, rest⟩ := right
      rcases mem_cons.mp member with rfl | later
      · exact used z (by simp) freeZ
      · have behind := (rest.within later).1
        omega

theorem freeBefore_cases (g : Geometry) (l : List Piece) : freeBefore g l = g.head ∨
    ∃ z ∈ l, z.use = .free ∧ freeBefore g l = z.addr := by
  induction l using reverseRecOn with
  | nil => exact .inl rfl
  | append_singleton l y ih =>
    rw [freeBefore_concat]
    by_cases free : y.use = .free
    · exact .inr ⟨y, by simp, free, if_pos free⟩
    · rw [if_neg free]
      rcases ih with head | ⟨z, member, freeZ, here⟩
      · exact .inl head
      · exact .inr ⟨z, mem_append_left _ member, freeZ, here⟩

theorem Holds.joinPrev_of_used (holds : Holds g m (l ++ x :: r)) (freeX : x.use = .free)
    (used : ∀ y ∈ l.getLast?, y.use ≠ .free) : MempoolVariable.joinPrev m g.head x.addr = m := by
  have prevX : m.prev x.addr = freeBefore g l := (holds.around freeX).2.1
  have left := (tiles_append.mp holds.tiles).1
  refine if_neg ?_
  rw [prevX]
  rintro ⟨notHead, adjacent⟩
  rcases freeBefore_cases g l with head | ⟨z, member, freeZ, here⟩
  · exact notHead head
  · rw [here, holds.sizes z (by simp [member])] at adjacent
    induction l using reverseRecOn with
    | nil => simp at member
    | append_singleton l y _ =>
      obtain ⟨rest, positive, last⟩ := tiles_append.mp left
      rcases mem_append.mp member with earlier | same
      · have before := (rest.within earlier).2.2
        have ends : y.addr + y.size = x.addr := last
        omega
      · obtain rfl := mem_singleton.mp same
        exact used z (by simp) freeZ

/-- The blocks that are not free. -/
def usedPieces (pieces : List Piece) : List Piece := pieces.filter (·.use ≠ .free)

theorem usedPieces_append : usedPieces (l ++ r) = usedPieces l ++ usedPieces r := by
  simp [usedPieces]

theorem usedPieces_cons : usedPieces (x :: l) = if x.use = .free then usedPieces l else x :: usedPieces l := by
  by_cases free : x.use = .free <;> simp [usedPieces, free]

theorem coalesced_cons (rest : Coalesced r) (used : x.use = .free → ∀ y ∈ r.head?, y.use ≠ .free) :
    Coalesced (x :: r) :=
  rest.cons fun y first both => used both.1 y first both.2

theorem Holds.coalesce_next (holds : Holds g m (l ++ x :: r)) (free : x.use = .free) (rest : Coalesced r) :
    ∃ k r', Holds g (MempoolVariable.joinNext m g.head x.addr) (l ++ { x with size := k } :: r') ∧
      Coalesced ({ x with size := k } :: r') ∧ k + freeBytes r' = x.size + freeBytes r ∧
      usedPieces r' = usedPieces r ∧ freeAddrs r' ⊆ freeAddrs r ∧
      Memory.Frame (circuit g (l ++ x :: r)) m (MempoolVariable.joinNext m g.head x.addr) := by
  by_cases behind : ∃ y r', r = y :: r' ∧ y.use = .free
  · obtain ⟨y, r', rfl, freeY⟩ := behind
    obtain ⟨joined, frame⟩ := holds.swallow free freeY
    rw [← holds.joinNext_eq free freeY] at joined frame
    refine ⟨x.size + y.size, r', joined, ?_, ?_, ?_, ?_, frame⟩
    · refine coalesced_cons rest.tail fun _ z first freeZ => ?_
      exact (rest.rel_head? first) ⟨freeY, freeZ⟩
    · rw [freeBytes_cons, if_pos freeY]
      omega
    · rw [usedPieces_cons, if_pos freeY]
    · rw [freeAddrs_cons, if_pos freeY]
      exact subset_cons_self _ _
  · have used : ∀ y ∈ r.head?, y.use ≠ .free := by
      intro y first freeY
      obtain ⟨r', rfl⟩ := List.head?_eq_some_iff.mp first
      exact behind ⟨y, r', rfl, freeY⟩
    rw [holds.joinNext_of_used free used]
    exact ⟨x.size, r, holds, coalesced_cons rest fun _ => used, rfl, rfl, Subset.refl _, Frame.refl⟩

theorem Holds.coalesce_prev (holds : Holds g m (l ++ x :: r)) (free : x.use = .free) (left : Coalesced l)
    (right : Coalesced (x :: r)) :
    ∃ pieces, Holds g (MempoolVariable.joinPrev m g.head x.addr) pieces ∧ Coalesced pieces ∧
      freeBytes pieces = freeBytes (l ++ x :: r) ∧ usedPieces pieces = usedPieces (l ++ r) ∧
      Memory.Frame (circuit g (l ++ x :: r)) m (MempoolVariable.joinPrev m g.head x.addr) := by
  by_cases front : ∃ l' y, l = l' ++ [y] ∧ y.use = .free
  · obtain ⟨l', y, rfl, freeY⟩ := front
    have regroup : (l' ++ [y]) ++ x :: r = l' ++ y :: x :: r := by simp
    rw [regroup] at holds
    obtain ⟨joined, frame⟩ := holds.swallow freeY free
    rw [← holds.joinPrev_eq freeY free] at joined frame
    refine ⟨_, joined, ?_, ?_, ?_, by rw [regroup]; exact frame⟩
    · have before : Coalesced (l' ++ [{ y with size := y.size + x.size }]) := by
        refine isChain_append.mpr ⟨left.left_of_append, isChain_singleton _, ?_⟩
        intro a last b first
        obtain rfl : { y with size := y.size + x.size } = b := by simpa using first
        exact (isChain_append.mp left).2.2 a last y rfl
      refine isChain_split.mpr ⟨before, ?_⟩
      refine coalesced_cons right.tail fun _ z first freeZ => ?_
      exact (right.rel_head? first) ⟨free, freeZ⟩
    · rw [regroup]
      simp only [freeBytes_append, freeBytes_cons, freeY, free, if_true]
      omega
    · simp [usedPieces, freeY]
  · have used : ∀ y ∈ l.getLast?, y.use ≠ .free := by
      intro y last freeY
      obtain ⟨l', rfl⟩ := getLast?_eq_some_iff.mp last
      exact front ⟨l', y, rfl, freeY⟩
    rw [holds.joinPrev_of_used free used]
    refine ⟨_, holds, ?_, rfl, ?_, Frame.refl⟩
    · refine isChain_append.mpr ⟨left, right, ?_⟩
      intro a last b _ both
      exact used a last both.1
    · simp [usedPieces, free]

theorem Holds.insertFreeBlock {p : MempoolVariable} (holds : Holds g p.mem (l ++ x :: r)) (here : p.At g)
    (used : x.use ≠ .free) (coalesced : Coalesced (l ++ x :: r)) :
    ∃ m' pieces, p.insertFreeBlock x.addr = some { p with mem := m', freemem := p.freemem + x.size } ∧
      Holds g m' pieces ∧ Coalesced pieces ∧ freeBytes pieces = freeBytes (l ++ r) + x.size ∧
      usedPieces pieces = usedPieces (l ++ r) ∧ Memory.Frame (x.addr :: circuit g (l ++ x :: r)) p.mem m' := by
  have slot : MempoolVariable.findSlot p.mem g.head x.addr p.osize (p.mem.next g.head) = some (freeAfter g r) := by
    have first : p.mem.next g.head = freeAfter g (l ++ x :: r) := by
      have ring := holds.ring
      rw [← nil_append (l ++ x :: r), circuit_append] at ring
      exact ring.at_pair.1
    have fewer : (freeAddrs l).length < p.osize := by
      have enough := holds.enough here
      rw [freeAddrs_append, length_append] at enough
      omega
    rw [first]
    exact Holds.findSlot (l := []) holds used fewer
  obtain ⟨linked, frame⟩ := holds.linkBefore used
  have parts := isChain_append.mp coalesced
  obtain ⟨k, r', joined, right, bytes, sameUsed, fewer, frame'⟩ := linked.coalesce_next rfl parts.2.1.tail
  obtain ⟨pieces, done, whole, bytes', sameUsed', frame''⟩ := joined.coalesce_prev rfl parts.1 right
  refine ⟨_, pieces, ?_, done, whole, ?_, ?_, ?_⟩
  · simp only [MempoolVariable.insertFreeBlock, here.head, slot, holds.sizes x (by simp)]
  · rw [bytes', freeBytes_append, freeBytes_cons, freeBytes_append, if_pos rfl]
    simp only at bytes ⊢
    omega
  · rw [sameUsed', usedPieces_append, usedPieces_append, sameUsed]
  · have sub : circuit g (l ++ { x with use := .free } :: r) ⊆ x.addr :: circuit g (l ++ x :: r) := by
      intro w member
      simp only [mem_circuit, freeAddrs_append, freeAddrs_cons, mem_append, if_true, mem_cons,
        if_neg used] at member ⊢
      tauto
    have sub' : circuit g (l ++ { x with use := .free, size := k } :: r') ⊆ x.addr :: circuit g (l ++ x :: r) := by
      intro w member
      simp only [mem_circuit, freeAddrs_append, freeAddrs_cons, mem_append, if_true, mem_cons,
        if_neg used] at member ⊢
      tauto
    exact (frame.trans (frame'.mono sub)).trans (frame''.mono sub')

theorem Holds.free {p : MempoolVariable} (holds : Holds g p.mem (l ++ x :: r)) (here : p.At g)
    (live : x.use = .live) (coalesced : Coalesced (l ++ x :: r)) :
    (∃ m' pieces, p.free (x.addr + sizeofMemdq) s = some ({ p with mem := m', freemem := p.freemem + x.size }, true) ∧
      Holds g m' pieces ∧ Coalesced pieces ∧ freeBytes pieces = freeBytes (l ++ r) + x.size ∧
      usedPieces pieces = usedPieces (l ++ r) ∧ Memory.Frame (x.addr :: circuit g (l ++ x :: r)) p.mem m') ∨
    p.free (x.addr + sizeofMemdq) s = some (p, false) ∧ s ≠ 0 ∧ x.size ≠ roundup g.alignment s := by
  have member : x ∈ l ++ x :: r := by simp
  have header : alloc2memdq (x.addr + sizeofMemdq) = x.addr := Nat.add_sub_cancel ..
  have within := holds.tiles.within member
  have room := header_le holds.tiles holds.grid member
  have inside : p.bottom ≤ x.addr + sizeofMemdq ∧ x.addr + sizeofMemdq ≤ p.top := by
    rw [here.bottom, here.top]
    omega
  obtain ⟨prev, next⟩ := holds.magic x member live
  have intact : ¬ (p.mem.next x.addr ≠ p.mem.prev x.addr ∨ p.mem.next x.addr ≠ allocMagic) := by
    simp [prev, next]
  have unfolded : p.free (x.addr + sizeofMemdq) s =
      if x.size ≠ (if s = 0 then x.size else roundup g.alignment s) then some (p, false)
      else (p.insertFreeBlock x.addr).map fun p => (p, true) := by
    simp only [MempoolVariable.free, header, not_not.mpr inside, if_false, intact, holds.sizes x member, here.alignment]
  rw [unfolded]
  by_cases wrong : s ≠ 0 ∧ x.size ≠ roundup g.alignment s
  · exact .inr ⟨by rw [if_neg wrong.1, if_pos wrong.2], wrong⟩
  · obtain ⟨m', pieces, inserted, rest⟩ := holds.insertFreeBlock here (by simp [live]) coalesced
    refine .inl ⟨m', pieces, ?_, rest⟩
    have right : ¬ x.size ≠ if s = 0 then x.size else roundup g.alignment s := by
      split
      · simp
      · next nonzero => exact fun other => wrong ⟨nonzero, other⟩
    rw [if_neg right, inserted]
    rfl

end Ecos
