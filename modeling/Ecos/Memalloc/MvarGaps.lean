import Ecos.Memalloc.MvarHeap

namespace Ecos
open List Nat
open MempoolVariable (roundup alloc2memdq)
variable {g : Geometry} {h : Heap} {pieces pieces' l r : List Piece} {x y : Piece} {a b lo hi s n : Nat}

theorem gap_in_free (tiles : Tiles Piece.addr Piece.size a pieces b) (coalesced : Coalesced pieces) (some : lo < hi)
    (low : a ≤ lo) (high : hi ≤ b) (clear : ∀ x ∈ pieces, x.use ≠ .free → x.addr + x.size ≤ lo ∨ hi ≤ x.addr) :
    ∃ z ∈ pieces, z.use = .free ∧ z.addr ≤ lo ∧ hi ≤ z.addr + z.size := by
  induction pieces generalizing a with
  | nil =>
    obtain rfl : a = b := tiles
    omega
  | cons x rest ih =>
    obtain ⟨here, positive, later⟩ := tiles
    by_cases beyond : x.addr + x.size ≤ lo
    · obtain ⟨z, mem, found⟩ := ih later coalesced.tail (by omega) fun y mem => clear y (mem_cons_of_mem x mem)
      exact ⟨z, mem_cons_of_mem x mem, found⟩
    · have free : x.use = .free := by
        by_contra used
        have away := clear x (mem_cons_self ..) used
        omega
      refine ⟨x, mem_cons_self .., free, by omega, ?_⟩
      by_contra past
      cases rest with
      | nil =>
        have ends : a + x.size = b := later
        omega
      | cons y rest =>
        have used : y.use ≠ .free := fun freeY => coalesced.rel_head? rfl ⟨free, freeY⟩
        have away := clear y (by simp) used
        have begins : y.addr = a + x.size := later.1
        omega

theorem free_within (tiles : Tiles Piece.addr Piece.size a pieces b) (coalesced : Coalesced pieces)
    (tiles' : Tiles Piece.addr Piece.size a pieces' b)
    (covers : ∀ x ∈ pieces, x.use ≠ .free →
      ∃ x' ∈ pieces', x'.use ≠ .free ∧ x'.addr ≤ x.addr ∧ x.addr + x.size ≤ x'.addr + x'.size)
    (mem : y ∈ pieces') (free : y.use = .free) : ∃ z ∈ pieces, z.use = .free ∧ y.size ≤ z.size := by
  have within := tiles'.within mem
  obtain ⟨z, inZ, freeZ, low, high⟩ := @gap_in_free _ _ _ y.addr (y.addr + y.size) tiles coalesced (by omega)
    within.1 within.2.2 (by
      intro x inX used
      obtain ⟨x', inX', used', below, above⟩ := covers x inX used
      rcases tiles'.apart mem inX' with same | before | after
      · exact absurd (same ▸ free) used'
      · omega
      · omega)
  exact ⟨z, inZ, freeZ, by omega⟩

namespace Heap

/-- What `try_alloc` would return now. -/
def tried (h : Heap) (size : Nat) : Nat :=
  match h.pool.tryAlloc size with
  | none => null
  | some (_, ptr) => ptr

section
variable (inv : Inv g h pieces)
include inv

theorem Inv.tried_null (sane : h.Sane s) : h.tried s = null ↔
    ∀ x ∈ pieces, x.use = .free → x.size < roundup h.pool.alignment s := by
  obtain ⟨_, _, _, q, result, none, _⟩ := inv.tryAlloc sane
  rw [← none]
  simp [tried, result]

theorem Inv.alignment : h.pool.alignment = g.alignment := inv.here.alignment

theorem Inv.fails_on {h' : Heap} (inv' : Inv g h' pieces') (sane : h.Sane s) (fails : h.tried s = null)
    (smaller : ∀ y ∈ pieces', y.use = .free → y.size < roundup h.pool.alignment s ∨
      ∃ z ∈ pieces, z.use = .free ∧ y.size ≤ z.size) : h'.tried s = null := by
  have same : h'.pool.alignment = h.pool.alignment := inv'.alignment.trans inv.alignment.symm
  have sane' : h'.Sane s := by
    unfold Sane at sane ⊢
    rw [same]
    exact sane
  refine (inv'.tried_null sane').mpr fun y mem free => ?_
  rw [same]
  rcases smaller y mem free with small | ⟨z, inZ, freeZ, le⟩
  · exact small
  · exact lt_of_le_of_lt le ((inv.tried_null sane).mp fails z inZ freeZ)

theorem Inv.used_iff (mem : x ∈ pieces) : x.use ≠ .free ↔ x.addr + sizeofMemdq ∈ h.live.map Prod.fst := by
  constructor
  · intro used
    exact inv.owns.pointers.mem_iff.mpr (mem_map.mpr ⟨x, mem_usedPieces.mpr ⟨mem, used⟩, rfl⟩)
  · intro held
    obtain ⟨y, used, same⟩ := mem_map.mp (inv.owns.pointers.mem_iff.mp held)
    obtain ⟨inY, notFree⟩ := mem_usedPieces.mp used
    obtain rfl : y = x := eq_of_addr inv.holds.tiles inv.holds.grid inY mem (Nat.add_right_cancel same)
    exact notFree

theorem Inv.fails_tryAlloc (sane : h.Sane s) (saneN : h.Sane n) (fails : h.tried s = null) :
    (h.act (.tryAlloc n)).tried s = null := by
  have sane' := (sane_iff inv.here).mp saneN
  rcases inv.holds.tryAlloc inv.here sane' rfl with ⟨_, refused⟩ |
    ⟨l, x, r, m', rfl, free, large, _, takes, holds, _⟩
  · have same : h.act (.tryAlloc n) = h := by
      simp [act, refused]
    rw [same]
    exact fails
  · obtain ⟨pieces', inv', _⟩ := inv.tryAlloc saneN
    refine inv.fails_on inv' sane fails fun y mem freeY => .inr ?_
    refine free_within inv.holds.tiles inv.coalesced inv'.holds.tiles ?_ mem freeY
    intro z inZ used
    have held := (inv.used_iff inZ).mp used
    have kept : z.addr + sizeofMemdq ∈ (h.act (.tryAlloc n)).live.map Prod.fst := by
      simp only [act, takes]
      split
      · exact held
      · exact mem_cons_of_mem _ held
    obtain ⟨l', z', r', rfl, live, same⟩ := inv'.held kept
    have begins : z'.addr = z.addr := (Nat.add_right_cancel same).symm
    refine ⟨z', by simp, by simp [live], le_of_eq begins, ?_⟩
    have untouched := inv.tryAlloc saneN
    obtain ⟨_, _, kept', _⟩ := untouched
    have size : (h.act (.tryAlloc n)).pool.mem.size z'.addr = z'.size := inv'.holds.sizes z' (by simp)
    have size' : h.pool.mem.size z.addr = z.size := inv.holds.sizes z inZ
    have liveZ : z.use = .live := by
      cases use : z.use with
      | free => exact absurd use used
      | live => rfl
      | loose => exact absurd use (inv.settled z inZ)
    have room := header_le inv.holds.tiles inv.holds.grid inZ
    have word := kept' z inZ liveZ (z.addr + 8) (by omega) (by simp only [sizeofMemdq] at room; omega)
    have eq : z'.size = z.size := by
      rw [← size, ← size', begins]
      exact word
    omega

end

/-- The bytes in the free block that `resize_alloc` leaves behind an allocation
which it makes smaller: the end of the allocation, and the block behind it if
nobody holds that one. -/
def spare (h : Heap) (ptr newsize : Nat) : Nat :=
  let dq := MempoolVariable.alloc2memdq ptr
  let nextdq := dq + h.pool.mem.size dq
  let behind := if nextdq < h.pool.top ∧ MempoolVariable.memdq2alloc nextdq ∉ h.live.map Prod.fst
    then h.pool.mem.size nextdq else 0
  h.pool.mem.size dq - MempoolVariable.roundup h.pool.alignment newsize + behind

/-- A free block after an allocation was made smaller lies in one from before, or it is the new one. -/
theorem Inv.shrunk_free {h' : Heap} (inv : Inv g h (l ++ x :: r)) (inv' : Inv g h' pieces') (live : x.use = .live)
    (used : usedPieces pieces' = usedPieces l ++ { x with size := roundup g.alignment s } :: usedPieces r)
    (shrinks : roundup g.alignment s < x.size) (mem : y ∈ pieces') (free : y.use = .free) :
    y.size ≤ h.spare (x.addr + sizeofMemdq) s ∨ ∃ z ∈ l ++ x :: r, z.use = .free ∧ y.size ≤ z.size := by
  generalize size : roundup g.alignment s = n at *
  have within := inv'.holds.tiles.within mem
  have away : ∀ z, z.use ≠ .free → z ∈ pieces' → z.addr + z.size ≤ y.addr ∨ y.addr + y.size ≤ z.addr := by
    intro z used inZ
    rcases inv'.holds.tiles.apart mem inZ with same | before | after
    · exact absurd (same ▸ free) used
    · exact .inr before
    · exact .inl after
  have kept : ∀ z, z.use ≠ .free → z ∈ l ∨ z ∈ r → z ∈ pieces' := by
    intro z notFree inside
    have listed : z ∈ usedPieces pieces' := by
      rw [used]
      simp only [mem_append, mem_cons, mem_usedPieces]
      tauto
    exact (mem_usedPieces.mp listed).1
  have self : ({ x with size := n } : Piece) ∈ pieces' := by
    have listed : ({ x with size := n } : Piece) ∈ usedPieces pieces' := by
      rw [used]
      simp
    exact (mem_usedPieces.mp listed).1
  have fromX := away { x with size := n } (by simp [live]) self
  have others : ∀ lo hi, y.addr ≤ lo → hi ≤ y.addr + y.size → x.addr + x.size ≤ lo ∨ hi ≤ x.addr →
      ∀ z ∈ l ++ x :: r, z.use ≠ .free → z.addr + z.size ≤ lo ∨ hi ≤ z.addr := by
    intro lo hi low high clear z inZ notFree
    simp only [mem_append, mem_cons] at inZ
    rcases inZ with left | rfl | right
    · have apart := away z notFree (kept z notFree (.inl left))
      omega
    · exact clear
    · have apart := away z notFree (kept z notFree (.inr right))
      omega
  by_cases clear : x.addr + x.size ≤ y.addr ∨ y.addr + y.size ≤ x.addr
  · obtain ⟨z, inZ, freeZ, low, high⟩ := @gap_in_free _ _ _ y.addr (y.addr + y.size) inv.holds.tiles inv.coalesced
      (by omega) within.1 within.2.2 (others _ _ le_rfl le_rfl clear)
    exact .inr ⟨z, inZ, freeZ, by omega⟩
  · -- the free block begins in what the allocation has lost
    have header : alloc2memdq (x.addr + sizeofMemdq) = x.addr := Nat.add_sub_cancel ..
    have sizeX : h.pool.mem.size x.addr = x.size := inv.holds.sizes x (by simp)
    simp only at fromX
    refine .inl ?_
    by_cases inside : y.addr + y.size ≤ x.addr + x.size
    · simp only [spare, header, sizeX, inv.alignment, size]
      omega
    · obtain ⟨z, inZ, freeZ, low, high⟩ := @gap_in_free _ _ _ (x.addr + x.size) (y.addr + y.size)
        inv.holds.tiles inv.coalesced (by omega) (by omega) within.2.2 (others _ _ (by omega) le_rfl (.inl le_rfl))
      have begins : z.addr = x.addr + x.size := by
        rcases inv.holds.tiles.apart inZ (show x ∈ l ++ x :: r by simp) with same | before | after
        · rw [same, live] at freeZ
          exact absurd freeZ (by simp)
        · omega
        · omega
      have sizeZ : h.pool.mem.size z.addr = z.size := inv.holds.sizes z inZ
      have unheld : z.addr + sizeofMemdq ∉ h.live.map Prod.fst := fun held => (inv.used_iff inZ).mpr held freeZ
      have top := inv.here.top
      simp only [spare, header, sizeX, inv.alignment, size, ← begins, MempoolVariable.memdq2alloc, sizeZ]
      rw [if_pos ⟨by omega, unheld⟩]
      omega

theorem Inv.fails_resizeAlloc (inv : Inv g h (l ++ x :: r)) (live : x.use = .live) (sane : h.Sane s)
    (noWrap : h.NoWrap (.resizeAlloc (x.addr + sizeofMemdq) s)) (saneN : h.Sane n) (fails : h.tried n = null)
    (short : roundup h.pool.alignment s < x.size →
      h.spare (x.addr + sizeofMemdq) s < roundup h.pool.alignment n) :
    (h.act (.resizeAlloc (x.addr + sizeofMemdq) s)).tried n = null := by
  obtain ⟨pieces', inv', _, _, same | used⟩ := inv.resizeAlloc live sane noWrap
  · rw [same]
    exact fails
  · refine inv.fails_on inv' saneN fails fun y mem free => ?_
    rw [inv.alignment] at short ⊢
    by_cases shrinks : roundup g.alignment s < x.size
    · rcases inv.shrunk_free inv' live used shrinks mem free with small | within
      · exact .inl (lt_of_le_of_lt small (short shrinks))
      · exact .inr within
    · refine .inr (free_within inv.holds.tiles inv.coalesced inv'.holds.tiles ?_ mem free)
      intro z inZ notFree
      have listed : ∀ w ∈ usedPieces l ++ { x with size := roundup g.alignment s } :: usedPieces r,
          w ∈ pieces' := fun w inside => (mem_usedPieces.mp (used ▸ inside)).1
      simp only [mem_append, mem_cons] at inZ
      rcases inZ with left | rfl | right
      · exact ⟨z, listed z (by simp [mem_usedPieces, left, notFree]), notFree, le_rfl, le_rfl⟩
      · exact ⟨{ z with size := roundup g.alignment s }, listed _ (by simp), notFree, le_rfl, by simp only; omega⟩
      · exact ⟨z, listed z (by simp [mem_usedPieces, right, notFree]), notFree, le_rfl, le_rfl⟩

end Heap

end Ecos
