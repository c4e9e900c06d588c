import Ecos.Memalloc.MvarFree

namespace Ecos
open List Nat MempoolVariable Memory Option
variable {g : Geometry} {m m' : Memory} {l r pieces : List Piece} {x y z : Piece} {a w n k s : Nat}
  {p : MempoolVariable}

theorem Holds.joinBehind (holds : Holds g m (l ++ x :: y :: r)) (freeY : y.use = .free) :
    Holds g (MempoolVariable.joinBehind m x.addr y.addr) (l ++ { x with size := x.size + y.size } :: r) ∧
      (MempoolVariable.joinBehind m x.addr y.addr).size y.addr = y.size ∧
      Memory.Frame (x.addr :: circuit g (l ++ x :: y :: r)) m
        (MempoolVariable.joinBehind m x.addr y.addr) := by
  have regroup : l ++ x :: y :: r = (l ++ [x]) ++ y :: r := by simp
  have inX : x ∈ l ++ x :: y :: r := by simp
  have inY : y ∈ l ++ x :: y :: r := by simp
  have xIn := addr_mem_headers (g := g) inX
  have yIn := addr_mem_headers (g := g) inY
  have clear : ∀ u ∈ headers g (l ++ x :: y :: r), ∀ w ∈ headers g (l ++ x :: y :: r), Clear u w :=
    fun u inU w inW => headers_clear holds.tiles holds.grid inU inW
  obtain ⟨nextY, prevY, _, _⟩ := Holds.around (regroup ▸ holds) freeY
  have afterIn : freeAfter g r ∈ circuit g (l ++ x :: y :: r) := by
    rw [regroup, circuit_free freeY]
    simp
  have beforeIn : freeBefore g (l ++ [x]) ∈ circuit g (l ++ x :: y :: r) := by
    rw [regroup, circuit_free freeY]
    simp
  have clearA := fun w inW => clear _ (circuit_subset afterIn) w inW
  have clearB := fun w inW => clear _ (circuit_subset beforeIn) w inW
  have notAfter : y.addr ≠ freeAfter g r := fun same =>
    addr_not_circuit (regroup ▸ holds.tiles) (regroup ▸ holds.grid) (same ▸ freeAfter_mem)
  have apart : y.addr ≠ x.addr := by
    have adjacent : y.addr = x.addr + x.size := (tiles_append.mp holds.tiles).2.2.1
    have positive := (holds.tiles.within inX).2.1
    omega
  have shape : MempoolVariable.joinBehind m x.addr y.addr = ((m.setPrev (freeAfter g r) (freeBefore g (l ++ [x]))).setNext
      (freeBefore g (l ++ [x])) (freeAfter g r)).setSize x.addr (x.size + y.size) := by
    simp only [MempoolVariable.joinBehind, nextY, prevY, prev_setPrev, if_neg notAfter, next_setPrev (clearA _ yIn),
      size_setNext (clearB _ xIn), size_setNext (clearB _ yIn), size_setPrev (clearA _ xIn),
      size_setPrev (clearA _ yIn), holds.sizes x inX, holds.sizes y inY]
  rw [shape]
  refine ⟨holds.absorb freeY ?_ ?_ ?_, ?_, ?_⟩
  · intro w inW _
    rw [next_setSize (clear _ xIn _ inW), next_setNext, next_setPrev (clearA _ inW)]
  · intro w inW _
    rw [prev_setSize (clear _ xIn _ inW), prev_setNext (clearB _ inW), prev_setPrev]
  · intro w inW _
    rw [size_setSize, size_setNext (clearB _ inW), size_setPrev (clearA _ inW)]
  · rw [size_setSize, if_neg apart, size_setNext (clearB _ yIn), size_setPrev (clearA _ yIn), holds.sizes y inY]
  · exact ((frame_setPrev (mem_cons_of_mem _ afterIn)).trans
      (frame_setNext (mem_cons_of_mem _ beforeIn))).trans (frame_setSize (mem_cons_self ..))

section
variable (holds : Holds g p.mem (l ++ x :: r))
include holds

/-- The growing part of `resize_alloc` does nothing, or joins the block with a
free one behind it that is large enough. The pointer sum must not wrap if the
block is the last one: then there is nothing behind it to look at. -/
theorem Holds.joinForResize (here : p.At g)
    (settled : ∀ y ∈ r, y.use ≠ .loose) (inside : r = [] → x.addr + n < 2 ^ 32) :
    p.joinForResize x.addr n = p ∨ ∃ y r' m', r = y :: r' ∧ y.use = .free ∧ x.size < n ∧ n ≤ x.size + y.size ∧
      p.joinForResize x.addr n = { p with mem := m', freemem := p.freemem - y.size } ∧
      Holds g m' (l ++ { x with size := x.size + y.size } :: r') ∧
      Memory.Frame (x.addr :: circuit g (l ++ x :: r)) p.mem m' := by
  have sizeX := holds.sizes x (by simp)
  obtain ⟨_, _, right⟩ := tiles_append.mp holds.tiles
  by_cases grows : n > p.mem.size x.addr ∧ word (x.addr + n) ≤ p.top
  · cases r with
    | nil =>
      have ends : x.addr + x.size = g.top := right
      have exact : word (x.addr + n) = x.addr + n := mod_eq_of_lt (inside rfl)
      rw [sizeX, here.top] at grows
      omega
    | cons y r =>
      have inY : y ∈ l ++ x :: y :: r := by simp
      have adjacent : x.addr + p.mem.size x.addr = y.addr := by
        rw [sizeX]
        exact right.1.symm
      by_cases join : p.mem.next y.addr ≠ p.mem.prev y.addr ∧ p.mem.fits (n - p.mem.size x.addr) y.addr
      · have freeY : y.use = .free := by
          cases use : y.use with
          | free => rfl
          | live =>
            obtain ⟨prev, next⟩ := holds.magic y inY use
            exact absurd (next.trans prev.symm) join.1
          | loose => exact absurd use (settled y (by simp))
        have large : n - x.size ≤ y.size := by
          simpa [holds.fits_iff inY, sizeX] using join.2
        obtain ⟨joined, size, frame⟩ := holds.joinBehind freeY
        refine .inr ⟨y, r, _, rfl, freeY, sizeX ▸ grows.1, by omega, ?_, joined, frame⟩
        unfold joinForResize
        simp only [if_pos grows, adjacent, if_pos join]
        rw [← size]
      · refine .inl ?_
        unfold joinForResize
        simp only [if_pos grows, adjacent, if_neg join]
  · exact .inl (if_neg grows)

theorem Holds.shrink (here : p.At g) (live : x.use = .live)
    (coalesced : Coalesced (l ++ x :: r)) (divides : g.alignment ∣ n) (positive : 0 < n) (proper : n < x.size) :
    ∃ m' pieces, MempoolVariable.insertFreeBlock
        { p with mem := (p.mem.setSize (x.addr + n) (x.size - n)).setSize x.addr n } (x.addr + n) =
        some { p with mem := m', freemem := p.freemem + (x.size - n : Nat) } ∧
      Holds g m' pieces ∧ Coalesced pieces ∧ freeBytes pieces = freeBytes (l ++ r) + (x.size - n) ∧
      usedPieces pieces = usedPieces l ++ { x with size := n } :: usedPieces r ∧
      Memory.Frame (x.addr :: (x.addr + n) :: circuit g (l ++ x :: r)) p.mem m' := by
  have xIn := addr_mem_headers (g := g) (show x ∈ l ++ x :: r by simp)
  have divides' : g.alignment ∣ x.size - n := dvd_sub (holds.grid x (by simp)) divides
  have behind : sizeofMemdq ≤ n := g.header.trans (le_of_dvd positive divides)
  have room : sizeofMemdq ≤ x.size - n := g.header.trans (le_of_dvd (by omega) divides')
  have apart : ∀ w ∈ headers g (l ++ x :: r), x.addr + n + sizeofMemdq ≤ w ∨ w + sizeofMemdq ≤ x.addr + n :=
    fun w inW => inner_apart holds.tiles holds.grid behind (by omega) inW
  have clear : ∀ w ∈ headers g (l ++ x :: r), Clear x.addr w ∧ Clear (x.addr + n) w := fun w inW =>
    ⟨headers_clear holds.tiles holds.grid xIn inW, .inr (apart w inW)⟩
  have fresh : ∀ w ∈ headers g (l ++ x :: r), w ≠ x.addr + n := by
    intro w inW
    have away := apart w inW
    simp only [sizeofMemdq] at away
    omega
  have cut : Holds g ((p.mem.setSize (x.addr + n) (x.size - n)).setSize x.addr n)
      (l ++ { x with size := n } :: ⟨x.addr + n, x.size - n, .loose⟩ :: r) := by
    refine holds.cut (by simp) divides positive (by omega) (by omega) ?_ ?_ ?_ ?_ (by simp)
    · intro w inW
      rw [next_setSize (clear w inW).1, next_setSize (clear w inW).2]
    · intro w inW
      rw [prev_setSize (clear w inW).1, prev_setSize (clear w inW).2]
    · intro w inW
      rw [size_setSize, size_setSize, if_neg (fresh w inW)]
    · rw [size_setSize, if_neg (fresh _ xIn).symm, size_setSize, if_pos rfl]
  rw [append_cons] at cut
  have parts := isChain_append.mp coalesced
  have coalesced' : Coalesced ((l ++ [{ x with size := n }]) ++ ⟨x.addr + n, x.size - n, .loose⟩ :: r) := by
    rw [append_assoc, singleton_append]
    refine isChain_append.mpr ⟨parts.1, ?_, ?_⟩
    · refine coalesced_cons (coalesced_cons parts.2.1.tail (by simp)) ?_
      simp [live]
    · intro y _ z first both
      obtain rfl : { x with size := n } = z := by simpa using first
      exact absurd (live.symm.trans both.2) (by simp)
  obtain ⟨m', pieces, inserted, holds', whole, bytes, used, frame⟩ :=
    Holds.insertFreeBlock (p := { p with mem := (p.mem.setSize (x.addr + n) (x.size - n)).setSize x.addr n }) cut
      here.update (by simp) coalesced'
  refine ⟨m', pieces, inserted, holds', whole, ?_, ?_, ?_⟩
  · rw [bytes]
    simp [live, freeBytes]
  · rw [used]
    simp [usedPieces, live]
  · have written : Frame (x.addr :: (x.addr + n) :: circuit g (l ++ x :: r)) p.mem
        ((p.mem.setSize (x.addr + n) (x.size - n)).setSize x.addr n) :=
      (frame_setSize (by simp)).trans (frame_setSize (by simp))
    refine written.trans (frame.mono ?_)
    intro w member
    simp only [mem_cons, mem_circuit, freeAddrs_append, freeAddrs_cons, live, mem_append] at member ⊢
    tauto

theorem Holds.splitForResize (here : p.At g) (live : x.use = .live)
    (coalesced : Coalesced (l ++ x :: r)) (divides : g.alignment ∣ n) (positive : 0 < n) (fits : n ≤ x.size) :
    ∃ m' f pieces, p.splitForResize (x.addr + sizeofMemdq) n =
        some ({ p with mem := m', freemem := f }, x.addr + sizeofMemdq) ∧
      Holds g m' pieces ∧ Coalesced pieces ∧ f + freeBytes (l ++ r) = p.freemem + freeBytes pieces ∧
      usedPieces pieces = usedPieces l ++ { x with size := n } :: usedPieces r ∧
      Untouched (l ++ x :: r) x.addr p.mem m' := by
  have sizeX := holds.sizes x (by simp)
  have header : alloc2memdq (x.addr + sizeofMemdq) = x.addr := Nat.add_sub_cancel ..
  by_cases proper : n < x.size
  · obtain ⟨m', pieces, inserted, holds', whole, bytes, used, frame⟩ :=
      holds.shrink here live coalesced divides positive proper
    refine ⟨m', p.freemem + (x.size - n : Nat), pieces, ?_, holds', whole, ?_, used, ?_⟩
    · simp only [MempoolVariable.splitForResize, header, sizeX, if_pos proper, inserted, map_some]
    · rw [bytes]
      omega
    · have rest : g.alignment ∣ x.size - n := dvd_sub (holds.grid x (by simp)) divides
      have behind : g.alignment ≤ x.size - n := le_of_dvd (by omega) rest
      have room := g.header
      refine frame.untouched holds.tiles holds.grid ?_
      intro h member
      rcases mem_cons.mp member with rfl | others
      · exact .inr ⟨x, by simp, .inr rfl, le_rfl, by omega⟩
      · rcases mem_cons.mp others with rfl | listed
        · exact .inr ⟨x, by simp, .inr rfl, by omega, by omega⟩
        · exact .inl listed
  · have equal : n = x.size := by omega
    refine ⟨p.mem, p.freemem, l ++ x :: r, ?_, holds, coalesced, ?_, ?_, Untouched.refl⟩
    · simp only [MempoolVariable.splitForResize, header, sizeX, if_neg proper, if_pos equal]
    · simp [freeBytes_append, freeBytes_cons, live]
    · rw [usedPieces_append, usedPieces_cons, if_neg (by simp [live]), equal]

/-- `resize_alloc` leaves the block in its place with the new size, or changes nothing. -/
theorem Holds.resizeAlloc (here : p.At g) (live : x.use = .live)
    (settled : ∀ y ∈ r, y.use ≠ .loose) (coalesced : Coalesced (l ++ x :: r)) (sane : g.Sane s)
    (size : n = MempoolVariable.roundup g.alignment s) (inside : r = [] → x.addr + n < 2 ^ 32) :
    (∃ m' f pieces, p.resizeAlloc (x.addr + sizeofMemdq) s =
        some ({ p with mem := m', freemem := f }, x.addr + sizeofMemdq, x.size) ∧
      Holds g m' pieces ∧ Coalesced pieces ∧ f + freeBytes (l ++ r) = p.freemem + freeBytes pieces ∧
      usedPieces pieces = usedPieces l ++ { x with size := n } :: usedPieces r ∧
      Untouched (l ++ x :: r) x.addr p.mem m') ∨
    p.resizeAlloc (x.addr + sizeofMemdq) s = some (p, null, x.size) ∧ x.size < n := by
  obtain ⟨divides, room, _⟩ := Geometry.roundup_spec sane
  rw [← size] at divides room
  have positive : 0 < n := by
    simp only [sizeofMemdq] at room
    omega
  have sizeX := holds.sizes x (by simp)
  have header : MempoolVariable.alloc2memdq (x.addr + sizeofMemdq) = x.addr := Nat.add_sub_cancel ..
  have unfolded : p.resizeAlloc (x.addr + sizeofMemdq) s = ((p.joinForResize x.addr n).splitForResize
      (x.addr + sizeofMemdq) n).map fun r => (r.1, r.2, x.size) := by
    simp only [MempoolVariable.resizeAlloc, header, here.alignment, ← size, sizeX]
  rw [unfolded]
  rcases holds.joinForResize here settled inside with same | ⟨y, r', m₁, rfl, freeY, grows, fits, joined, holds₁, frame₁⟩
  · rw [same]
    by_cases fits : n ≤ x.size
    · obtain ⟨m', f, pieces, split, rest⟩ := holds.splitForResize here live coalesced divides positive fits
      exact .inl ⟨m', f, pieces, by rw [split]; rfl, rest⟩
    · refine .inr ⟨?_, by omega⟩
      simp only [MempoolVariable.splitForResize, header, sizeX, if_neg (show ¬ n < x.size by omega),
        if_neg (show n ≠ x.size by omega), map_some]
  · rw [joined]
    have parts := isChain_append.mp coalesced
    have coalesced₁ : Coalesced (l ++ { x with size := x.size + y.size } :: r') := by
      refine isChain_append.mpr ⟨parts.1, ?_, ?_⟩
      · refine coalesced_cons parts.2.1.tail.tail ?_
        simp [live]
      · intro a _ b first both
        obtain rfl : { x with size := x.size + y.size } = b := by simpa using first
        exact absurd (live.symm.trans both.2) (by simp)
    obtain ⟨m', f, pieces, split, holds', whole, bytes, used, untouched⟩ :=
      Holds.splitForResize (p := { p with mem := m₁, freemem := p.freemem - y.size }) holds₁
        here.update live coalesced₁ divides positive fits
    refine .inl ⟨m', f, pieces, ?_, holds', whole, ?_, ?_, ?_⟩
    · rw [split]
      rfl
    · simp only [freeBytes_append, freeBytes_cons, freeY, if_true] at bytes ⊢
      omega
    · rw [used, usedPieces_cons, if_pos freeY]
    · have first : Untouched (l ++ x :: y :: r') x.addr p.mem m₁ := by
        refine frame₁.untouched holds.tiles holds.grid ?_
        intro h member
        rcases mem_cons.mp member with rfl | listed
        · exact .inr ⟨x, by simp, .inr rfl, le_rfl, by
            have room := header_le holds.tiles holds.grid (x := x) (by simp)
            omega⟩
        · exact .inl listed
      intro z member liveZ other a low high
      refine (untouched z ?_ liveZ other a low high).trans (first z member liveZ other a low high)
      simp only [mem_append, mem_cons] at member ⊢
      rcases member with left | rfl | rfl | right
      · exact .inl left
      · exact absurd rfl other
      · exact absurd (freeY.symm.trans liveZ) (by simp)
      · exact .inr (.inr right)

end

end Ecos
