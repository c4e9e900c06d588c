import Ecos.Memalloc.MvarHeap

namespace Ecos.Heap
open List
open MempoolVariable (roundup alloc2memdq enlarge)
variable {g : Geometry} {h : Heap} {e : HeapEvent} {m : Memory} {pieces : List Piece} {x y : Piece}
  {head base size align s a : Nat}

/-- The blocks and the free list that memory holds: the allocated and the free
blocks tile the arena, the list is in address order, no two free blocks are
neighbours, and the allocations are aligned and large enough. -/
structure Sound (h : Heap) (blocks free : List Nat) : Prop where
  tiles : Tiles id h.pool.mem.size h.pool.bottom blocks h.pool.top
  exactly : blocks.Perm (free ++ h.live.map fun e => MempoolVariable.alloc2memdq e.1)
  ring : h.pool.mem.nodes.Linked (h.pool.head :: (free ++ [h.pool.head]))
  sorted : free.Pairwise (· < ·)
  coalesced : ∀ dq ∈ free, dq + h.pool.mem.size dq ∉ free
  freemem : h.pool.freemem = ((free.map h.pool.mem.size).sum : Nat)
  aligned : ∀ e ∈ h.live, h.pool.alignment ∣ e.1
  room : ∀ e ∈ h.live, e.1 + e.2 ≤ MempoolVariable.alloc2memdq e.1 + h.pool.mem.size (MempoolVariable.alloc2memdq e.1)

theorem perm_split (pieces : List Piece) : (pieces.map Piece.addr).Perm
    (freeAddrs pieces ++ (usedPieces pieces).map Piece.addr) := by
  have halves : (pieces.filter (·.use = .free) ++ pieces.filter fun x => !decide (x.use = .free)).Perm pieces :=
    filter_append_perm _ _
  have mapped := (halves.map Piece.addr).symm
  rw [map_append] at mapped
  simpa [freeAddrs, usedPieces] using mapped

theorem Inv.not_adjacent (inv : Inv g h pieces) (inX : x ∈ pieces) (inY : y ∈ pieces) (freeX : x.use = .free)
    (freeY : y.use = .free) : x.addr + x.size ≠ y.addr := by
  intro adjacent
  obtain ⟨l, r, rfl⟩ := append_of_mem inX
  obtain ⟨left, positive, right⟩ := tiles_append.mp inv.holds.tiles
  simp only [mem_append, mem_cons] at inY
  rcases inY with earlier | rfl | later
  · have before := left.within earlier
    omega
  · omega
  · cases r with
    | nil => simp at later
    | cons z r =>
      have first : z = y := eq_of_addr inv.holds.tiles inv.holds.grid (by simp) (by simp [mem_cons.mp later])
        (right.1.trans adjacent)
      subst first
      have chain := (isChain_append.mp inv.coalesced).2.1
      exact chain.rel_head? rfl ⟨freeX, freeY⟩

theorem Inv.live_perm (inv : Inv g h pieces) :
    (h.live.map fun e => alloc2memdq e.1).Perm ((usedPieces pieces).map Piece.addr) := by
  have pointers := inv.owns.pointers.map alloc2memdq
  rwa [map_map, map_map] at pointers

theorem Inv.sound (inv : Inv g h pieces) : h.Sound (pieces.map Piece.addr) (freeAddrs pieces) := by
  have sizes : ∀ x ∈ pieces, h.pool.mem.size x.addr = x.size := inv.holds.sizes
  have grid := inv.holds.tiles.dvd g.anchored inv.holds.grid
  refine ⟨?_, ?_, ?_, ?_, ?_, ?_, ?_, ?_⟩
  · rw [inv.here.bottom, inv.here.top]
    exact tiles_map.mpr (inv.holds.tiles.congr (fun _ _ => rfl) sizes)
  · refine (perm_split pieces).trans (Perm.append_left _ ?_)
    exact inv.live_perm.symm
  · rw [inv.here.head]
    exact inv.holds.ring
  · exact freeAddrs_sorted inv.holds.tiles inv.holds.grid
  · intro dq inFree inFree'
    obtain ⟨x, inX, freeX, rfl⟩ := mem_freeAddrs.mp inFree
    rw [sizes x inX] at inFree'
    obtain ⟨y, inY, freeY, adjacent⟩ := mem_freeAddrs.mp inFree'
    exact inv.not_adjacent inX inY freeX freeY adjacent.symm
  · rw [inv.freemem]
    have same : (freeAddrs pieces).map h.pool.mem.size = (pieces.filter (·.use = .free)).map Piece.size := by
      unfold freeAddrs
      rw [map_map]
      exact map_congr_left fun x mem => sizes x (mem_of_mem_filter mem)
    rw [same]
    rfl
  · intro e mem
    obtain ⟨l, x, r, rfl, _, pointer⟩ := inv.held (mem_map_of_mem mem)
    rw [inv.here.alignment, pointer]
    exact grid.1 x (by simp)
  · intro e mem
    obtain ⟨l, x, r, rfl, live, pointer⟩ := inv.held (mem_map_of_mem mem)
    have header : alloc2memdq e.1 = x.addr := by
      rw [pointer]
      exact Nat.add_sub_cancel ..
    have room := inv.owns.room e mem x (mem_usedPieces.mpr ⟨by simp, by simp [live]⟩) pointer
    rw [header, sizes x (by simp), pointer]
    omega

/-- The runs of one pool in an arena, whose events must meet a further condition. -/
def runs (m : Memory) (head base size align : Nat) (Only : Heap → HeapEvent → Prop) : Machine Heap :=
  Machine.guided (· = ⟨MempoolVariable.construct m head base size align, []⟩) (fun h e => h.Ok e ∧ Only h e) act

theorem freeBytes_singleton (b k : Nat) : freeBytes [⟨b, k, .free⟩] = k := by
  simp [freeBytes]

theorem first_inv (accepts : Accepts head base size align) :
    Inv accepts.geometry ⟨MempoolVariable.construct m head base size align, []⟩
      [⟨accepts.geometry.bottom, accepts.geometry.top - accepts.geometry.bottom, .free⟩] := by
  refine ⟨accepts.construct_at, accepts.construct_holds, isChain_singleton _, by simp, ?_, ?_⟩
  · rw [freeBytes_singleton]
    exact accepts.construct_freemem
  · exact ⟨by simp [usedPieces], by simp⟩

theorem reach_inv (accepts : Accepts head base size align) (reach : (runs m head base size align NoWrap).Reach h) :
    ∃ pieces, Inv accepts.geometry h pieces := by
  refine reach.kept (P := fun h => ∃ pieces, Inv accepts.geometry h pieces) ?_ ?_
  · rintro h rfl
    exact ⟨_, first_inv accepts⟩
  · rintro h e ⟨pieces, inv⟩ ⟨ok, noWrap⟩
    obtain ⟨pieces', inv', _⟩ := inv.step ok noWrap
    exact ⟨pieces', inv'⟩

/-- In every run without a wrapping pointer the free and the allocated blocks
tile the arena, `try_alloc` fails only for want of a block and then changes
nothing, and no event touches the allocations of others. -/
theorem variable_pool_tiled (accepts : Accepts head base size align)
    (reach : (runs m head base size align NoWrap).Reach h) :
    align ∣ h.pool.alignment ∧ ∃ blocks free, h.Sound blocks free ∧
      (∀ s, h.Sane s → ∃ q, h.pool.tryAlloc s = some q ∧
        (q.2 = null ↔ ∀ dq ∈ free, h.pool.mem.size dq < MempoolVariable.roundup h.pool.alignment s) ∧
        (q.2 = null → q.1 = h.pool)) ∧
      (∀ ptr s, h.Ok (.free ptr s) → (h.pool.free ptr s).isSome) ∧
      (∀ ptr s, h.Ok (.resizeAlloc ptr s) → h.NoWrap (.resizeAlloc ptr s) → (h.pool.resizeAlloc ptr s).isSome) ∧
      ∀ e, h.Ok e → h.NoWrap e → ∀ other ∈ h.live, target e ≠ some other.1 → ∀ a,
        MempoolVariable.alloc2memdq other.1 ≤ a →
        a < MempoolVariable.alloc2memdq other.1 + h.pool.mem.size (MempoolVariable.alloc2memdq other.1) →
        (h.act e).pool.mem a = h.pool.mem a := by
  obtain ⟨pieces, inv⟩ := reach_inv accepts reach
  refine ⟨?_, pieces.map Piece.addr, freeAddrs pieces, inv.sound, ?_, ?_, ?_, ?_⟩
  · obtain ⟨j, _, _, divides, value⟩ := accepts.alignment_spec
    rw [inv.here.alignment]
    show align ∣ enlarge sizeofMemdq align
    rw [value]
    exact divides
  · intro s sane
    obtain ⟨_, _, _, q, result, none, same⟩ := inv.tryAlloc sane
    refine ⟨q, result, none.trans ⟨?_, ?_⟩, same⟩
    · intro small dq inFree
      obtain ⟨x, inX, free, rfl⟩ := mem_freeAddrs.mp inFree
      rw [inv.holds.sizes x inX]
      exact small x inX free
    · intro small x inX free
      rw [← inv.holds.sizes x inX]
      exact small x.addr (mem_freeAddrs.mpr ⟨x, inX, free, rfl⟩)
  · intro ptr s ok
    obtain ⟨l, x, r, rfl, live, rfl⟩ := inv.held ok.2
    exact (inv.free live).choose_spec.2.2
  · intro ptr s ok noWrap
    obtain ⟨l, x, r, rfl, live, rfl⟩ := inv.held ok.2
    exact (inv.resizeAlloc live ok.1 noWrap).choose_spec.2.2.1
  · intro e ok noWrap other mem notTarget a low high
    obtain ⟨_, _, untouched⟩ := inv.step ok noWrap
    obtain ⟨l, x, r, rfl, live, pointer⟩ := inv.held (mem_map_of_mem mem)
    have header : alloc2memdq other.1 = x.addr := by
      rw [pointer]
      exact Nat.add_sub_cancel ..
    rw [header] at low high
    rw [inv.holds.sizes x (by simp)] at high
    exact untouched x (by simp) live (pointer ▸ notTarget) a low high

theorem accepts_page : Accepts 0x1000 0x80100000 0x1000 8 where
  power := ⟨3, by decide, rfl⟩
  large := by decide
  small := by decide
  arena := by decide
  apart := by decide
  ordered := by decide
  inside := by decide

/-- Memory in which the words right behind the page look like a large free block. -/
def lookalike (a : Nat) : Nat :=
  if a = 0x80100ff4 then 0x3000 else if a = 0x80100ff8 then 0x2000 else if a = 0x80100ffc then 0x7ff00000 else 0

/-- A new pool in the page. -/
def page : Heap := ⟨MempoolVariable.construct lookalike 0x1000 0x80100000 0x1000 8, []⟩

/-- The first allocation grown in place, then given back. -/
theorem variable_pool_tiled_page : ∃ blocks free,
    (((page.act (.tryAlloc 100)).act (.resizeAlloc 0x80100f90 50)).act (.free 0x80100f90 0)).Sound blocks free := by
  have start : (runs lookalike 0x1000 0x80100000 0x1000 8 NoWrap).Reach page := .start rfl
  have first := start.next ⟨.tryAlloc 100, ⟨by decide, trivial⟩, rfl⟩
  have second := first.next ⟨.resizeAlloc 0x80100f90 50, ⟨⟨by decide, by decide⟩, by decide⟩, rfl⟩
  have third := second.next ⟨.free 0x80100f90 0, ⟨⟨by decide, by decide⟩, trivial⟩, rfl⟩
  obtain ⟨_, blocks, free, sound, _⟩ := variable_pool_tiled accepts_page third
  exact ⟨blocks, free, sound⟩

/-- Growing the last block by almost the whole address space passes the test
against `top`, because the pointer wraps, and runs out of the arena. -/
theorem resize_wraps_past_top : ¬ ∀ (m : Memory) (head base size align : Nat) (h : Heap),
    Accepts head base size align → (runs m head base size align fun _ _ => True).Reach h →
    ∃ blocks free, h.Sound blocks free := by
  intro claim
  have start : (runs lookalike 0x1000 0x80100000 0x1000 8 fun _ _ => True).Reach page := .start rfl
  have first := start.next ⟨.tryAlloc 4, ⟨by decide, trivial⟩, rfl⟩
  have second := first.next ⟨.resizeAlloc 0x80100ff0 0x7ff00000, ⟨⟨by decide, by decide⟩, trivial⟩, rfl⟩
  obtain ⟨blocks, free, sound⟩ := claim _ _ _ _ _ _ accepts_page second
  have held : (0x80100ff0, 0x7ff00000) ∈ ((page.act (.tryAlloc 4)).act (.resizeAlloc 0x80100ff0 0x7ff00000)).live := by
    decide
  have listed : 0x80100fe4 ∈ blocks := by
    refine sound.exactly.mem_iff.mpr (mem_append_right _ ?_)
    exact List.mem_map.mpr ⟨_, held, rfl⟩
  have within := (sound.tiles.within listed).2.2
  exact absurd within (by decide)

end Ecos.Heap
