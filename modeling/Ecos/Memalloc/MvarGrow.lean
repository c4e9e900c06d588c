import Ecos.Memalloc.MvarSafety

namespace Ecos
open List Nat MempoolVariable Option
variable {g : Geometry} {m m' : Memory} {l r pieces : List Piece} {x y : Piece} {w n s : Nat} {p : MempoolVariable}

theorem freeBefore_lt (tiles : Tiles Piece.addr Piece.size g.bottom (l ++ y :: r) g.top) (some : freeAddrs l ≠ []) :
    freeBefore g l < y.addr ∧ freeBefore g l ∈ freeAddrs l := by
  have member : freeBefore g l ∈ freeAddrs l := by
    have last : freeBefore g l = (freeAddrs l).getLast some := getLast_cons _
    rw [last]
    exact getLast_mem _
  obtain ⟨z, inZ, _, here⟩ := mem_freeAddrs.mp member
  have within := (tiles_append.mp tiles).1.within inZ
  exact ⟨by omega, member⟩

theorem freeAfter_gt (tiles : Tiles Piece.addr Piece.size g.bottom (l ++ y :: r) g.top) (some : freeAddrs r ≠ []) :
    y.addr < freeAfter g r := by
  have member : freeAfter g r ∈ freeAddrs r := by
    obtain ⟨a, rest, split⟩ := exists_cons_of_ne_nil some
    simp [freeAfter, split]
  obtain ⟨z, inZ, _, here⟩ := mem_freeAddrs.mp member
  obtain ⟨_, positive, right⟩ := tiles_append.mp tiles
  have within := right.within inZ
  omega

theorem Holds.links_eq_iff (holds : Holds g m (l ++ y :: r)) (free : y.use = .free) :
    m.next y.addr = m.prev y.addr ↔ freeAddrs (l ++ y :: r) = [y.addr] := by
  obtain ⟨next, prev, _⟩ := holds.around free
  have listed : freeAddrs (l ++ y :: r) = freeAddrs l ++ y.addr :: freeAddrs r := by
    rw [freeAddrs_append, freeAddrs_cons, if_pos free]
  rw [next, prev, listed]
  constructor
  · intro same
    have left : freeAddrs l = [] := by
      by_contra some
      obtain ⟨before, member⟩ := freeBefore_lt holds.tiles some
      by_cases after : freeAddrs r = []
      · have head : freeAfter g r = g.head := by simp [freeAfter, after]
        obtain ⟨z, inZ, _, here⟩ := mem_freeAddrs.mp member
        exact head_ne_addr holds.tiles holds.grid (mem_append_left _ inZ) (by rw [here, ← same, head])
      · have behind := freeAfter_gt holds.tiles after
        omega
    have right : freeAddrs r = [] := by
      by_contra some
      have head : freeBefore g l = g.head := by simp [freeBefore, left]
      obtain ⟨z, inZ, _, here⟩ := mem_freeAddrs.mp (show freeAfter g r ∈ freeAddrs r by
        obtain ⟨a, rest, split⟩ := exists_cons_of_ne_nil some
        simp [freeAfter, split])
      exact head_ne_addr holds.tiles holds.grid (x := z) (by simp [inZ]) (by rw [here, same, head])
    rw [left, right]
    rfl
  · intro only
    have length := congrArg List.length only
    simp only [length_append, length_cons, length_nil] at length
    have left : freeAddrs l = [] := length_eq_zero_iff.mp (by omega)
    have right : freeAddrs r = [] := length_eq_zero_iff.mp (by omega)
    simp [freeAfter, freeBefore, left, right]

theorem Holds.outside_circuit (holds : Holds g m (l ++ x :: r)) (live : x.use = .live) (member : w ∈ circuit g (l ++ x :: r)) :
    w + sizeofMemdq ≤ x.addr ∨ x.addr + x.size ≤ w := by
  have inX : x ∈ l ++ x :: r := by simp
  have within := holds.tiles.within inX
  have apart := g.apart
  rcases mem_circuit.mp member with rfl | listed
  · omega
  · obtain ⟨z, inZ, free, rfl⟩ := mem_freeAddrs.mp listed
    have room := header_le holds.tiles holds.grid inZ
    rcases holds.tiles.apart inX inZ with same | before | after
    · subst same
      exact absurd (live.symm.trans free) (by simp)
    · exact .inr before
    · exact .inl (by omega)

theorem Holds.splitForResize_frame (holds : Holds g p.mem (l ++ x :: r)) (here : p.At g) (live : x.use = .live)
    (coalesced : Coalesced (l ++ x :: r)) (divides : g.alignment ∣ n) (positive : 0 < n) (fits : n ≤ x.size) :
    ∃ q, p.splitForResize (x.addr + sizeofMemdq) n = some (q, x.addr + sizeofMemdq) ∧
      Memory.Frame (x.addr :: (x.addr + n) :: circuit g (l ++ x :: r)) p.mem q.mem := by
  have sizeX := holds.sizes x (by simp)
  have header : alloc2memdq (x.addr + sizeofMemdq) = x.addr := Nat.add_sub_cancel ..
  by_cases proper : n < x.size
  · obtain ⟨m', _, inserted, _, _, _, _, frame⟩ := holds.shrink here live coalesced divides positive proper
    refine ⟨{ p with mem := m', freemem := p.freemem + (x.size - n : Nat) }, ?_, frame⟩
    simp only [MempoolVariable.splitForResize, header, sizeX, if_pos proper, inserted, map_some]
  · refine ⟨p, ?_, Memory.Frame.refl⟩
    simp only [MempoolVariable.splitForResize, header, sizeX, if_neg proper, if_pos (show n = x.size by omega)]

section Grow
variable (here : p.At g) (live : x.use = .live) (divides : g.alignment ∣ n) (grows : x.size < n)
include here live divides grows

theorem Holds.grow_in_place (holds : Holds g p.mem (l ++ x :: y :: r)) (coalesced : Coalesced (l ++ x :: y :: r))
    (free : y.use = .free) (fits : n ≤ x.size + y.size) (others : freeAddrs (l ++ x :: y :: r) ≠ [y.addr]) :
    ∃ q, (p.joinForResize x.addr n).splitForResize (x.addr + sizeofMemdq) n = some (q, x.addr + sizeofMemdq) ∧
      ∀ a, x.addr + sizeofMemdq ≤ a → a < x.addr + x.size → q.mem a = p.mem a := by
  have regroup : l ++ x :: y :: r = (l ++ [x]) ++ y :: r := by simp
  have inX : x ∈ l ++ x :: y :: r := by simp
  have inY : y ∈ l ++ x :: y :: r := by simp
  have sizeX := holds.sizes x inX
  have adjacent : y.addr = x.addr + x.size := (tiles_append.mp holds.tiles).2.2.1
  have inside := (holds.tiles.within inY).2.2
  have bounded := g.bounded
  have exact : word (x.addr + n) = x.addr + n := mod_eq_of_lt (by omega)
  have joins : n > p.mem.size x.addr ∧ word (x.addr + n) ≤ p.top := by
    rw [sizeX, exact, here.top]
    omega
  have apart : p.mem.next y.addr ≠ p.mem.prev y.addr := by
    rw [regroup] at others
    exact fun same => others ((Holds.links_eq_iff (regroup ▸ holds) free).mp same)
  have large : p.mem.fits (n - p.mem.size x.addr) y.addr = true := by
    rw [holds.fits_iff inY, sizeX, decide_eq_true_iff]
    omega
  obtain ⟨joined, size, frame⟩ := holds.joinBehind free
  have parts := isChain_append.mp coalesced
  have coalesced' : Coalesced (l ++ { x with size := x.size + y.size } :: r) := by
    refine isChain_append.mpr ⟨parts.1, ?_, ?_⟩
    · exact coalesced_cons parts.2.1.tail.tail (by simp [live])
    · intro a _ b first both
      obtain rfl : { x with size := x.size + y.size } = b := by simpa using first
      exact absurd (live.symm.trans both.2) (by simp)
  have header := g.header
  obtain ⟨q, split, cut⟩ := Holds.splitForResize_frame
    (p := { p with mem := MempoolVariable.joinBehind p.mem x.addr y.addr, freemem := p.freemem - y.size })
    joined here.update live coalesced' divides (by omega) fits
  refine ⟨q, ?_, ?_⟩
  · have behind : x.addr + p.mem.size x.addr = y.addr := by
      rw [sizeX, adjacent]
    unfold MempoolVariable.joinForResize
    simp only [if_pos joins, behind, if_pos (And.intro apart large), size]
    exact split
  · intro a low high
    refine (cut a ?_).trans (frame a ?_)
    · intro w member
      rcases mem_cons.mp member with rfl | others
      · exact .inr low
      · rcases mem_cons.mp others with rfl | listed
        · exact .inl (by simp only; omega)
        · rcases Holds.outside_circuit joined live listed with before | after
          · exact .inr (by simp only at before; omega)
          · exact .inl (by simp only at after; omega)
    · intro w member
      rcases mem_cons.mp member with rfl | listed
      · exact .inr low
      · rcases holds.outside_circuit live listed with before | after
        · exact .inr (by omega)
        · exact .inl (by omega)

theorem Holds.grow_refused (holds : Holds g p.mem (l ++ x :: r)) (settled : ∀ y ∈ r, y.use ≠ .loose)
    (refuses : ∀ y r', r = y :: r' → y.use = .free → n ≤ x.size + y.size → freeAddrs (l ++ x :: r) = [y.addr])
    (plain : r = [] → word (x.addr + n) ≤ g.top →
      ¬ (p.mem.next g.top ≠ p.mem.prev g.top ∧ p.mem.fits (n - x.size) g.top)) :
    (p.joinForResize x.addr n).splitForResize (x.addr + sizeofMemdq) n = some (p, null) := by
  have sizeX := holds.sizes x (by simp)
  have header : alloc2memdq (x.addr + sizeofMemdq) = x.addr := Nat.add_sub_cancel ..
  have same : p.joinForResize x.addr n = p := by
    unfold MempoolVariable.joinForResize
    rw [sizeX, here.top]
    split
    · next joins =>
      refine if_neg ?_
      rintro ⟨apart, large⟩
      cases r with
      | nil =>
        have ends : x.addr + x.size = g.top := (tiles_append.mp holds.tiles).2.2
        rw [ends] at apart large
        exact plain rfl joins.2 ⟨apart, large⟩
      | cons y r =>
        have regroup : l ++ x :: y :: r = (l ++ [x]) ++ y :: r := by simp
        have adjacent : x.addr + x.size = y.addr := (tiles_append.mp holds.tiles).2.2.1.symm
        have inY : y ∈ l ++ x :: y :: r := by simp
        rw [adjacent] at apart large
        rw [holds.fits_iff inY, decide_eq_true_iff] at large
        have free : y.use = .free := by
          cases use : y.use with
          | free => rfl
          | live =>
            obtain ⟨prev, next⟩ := holds.magic y inY use
            exact absurd (next.trans prev.symm) apart
          | loose => exact absurd use (settled y (by simp))
        have only := refuses y r rfl free (by omega)
        rw [regroup] at only
        exact apart ((Holds.links_eq_iff (regroup ▸ holds) free).mpr only)
    · rfl
  rw [same]
  simp only [MempoolVariable.splitForResize, header, sizeX, if_neg (show ¬ n < x.size by omega),
    if_neg (show n ≠ x.size by omega)]

end Grow

namespace Heap
variable {h : Heap} {e : HeapEvent} {head base size align a ptr : Nat}

/-- The pointer to the end of the grown block wraps, and the words behind the arena look like a free block. -/
def Lookalike (h : Heap) (ptr newsize : Nat) : Prop :=
  let dq := MempoolVariable.alloc2memdq ptr
  let r := MempoolVariable.roundup h.pool.alignment newsize
  dq + h.pool.mem.size dq = h.pool.top ∧ h.pool.mem.size dq < r ∧ word (dq + r) ≤ h.pool.top ∧
    h.pool.mem.next h.pool.top ≠ h.pool.mem.prev h.pool.top ∧ h.pool.mem.fits (r - h.pool.mem.size dq) h.pool.top

instance : Decidable (h.Lookalike ptr s) := inferInstanceAs (Decidable (_ ∧ _))

def Plain (h : Heap) : HeapEvent → Prop
  | .resizeAlloc ptr newsize => ¬ h.Lookalike ptr newsize
  | _ => True

theorem NoWrap.plain (noWrap : h.NoWrap e) : h.Plain e := by
  cases e with
  | resizeAlloc ptr newsize =>
    rintro ⟨last, grows, wrapped, -⟩
    have small := noWrap last
    have exact : word _ = _ := mod_eq_of_lt small
    omega
  | tryAlloc _ => trivial
  | free _ _ => trivial
  | store _ _ _ => trivial

theorem resizeAlloc_eq (p : MempoolVariable) (x : Piece) (s : Nat) : p.resizeAlloc (x.addr + sizeofMemdq) s =
      ((p.joinForResize x.addr (MempoolVariable.roundup p.alignment s)).splitForResize (x.addr + sizeofMemdq)
        (MempoolVariable.roundup p.alignment s)).map fun (q, ret) => (q, ret, p.mem.size x.addr) := by
  simp only [resizeAlloc, alloc2memdq, Nat.add_sub_cancel]

section Piece
variable (inv : Inv g h (l ++ x :: r)) (live : x.use = .live)
  (grows : x.size < MempoolVariable.roundup h.pool.alignment s)
include inv live grows

theorem Inv.grow_refused (sane : h.Sane s) (plain : h.Plain (.resizeAlloc (x.addr + sizeofMemdq) s))
    (refuses : ∀ y r', r = y :: r' → y.use = .free → MempoolVariable.roundup h.pool.alignment s ≤ x.size + y.size →
      freeAddrs (l ++ x :: r) = [y.addr]) :
    h.pool.resizeAlloc (x.addr + sizeofMemdq) s = some (h.pool, null, x.size) := by
  have sizeX := inv.holds.sizes x (by simp)
  have divides := (Geometry.roundup_spec ((sane_iff inv.here).mp sane)).1
  rw [← inv.here.alignment] at divides
  rw [resizeAlloc_eq, inv.holds.grow_refused inv.here live (inv.here.alignment ▸ divides) grows
    (fun y member => inv.settled y (by simp [member])) refuses ?_, map_some, sizeX]
  rintro rfl wrapped ⟨apart, large⟩
  have ends : x.addr + x.size = h.pool.top := by
    rw [inv.here.top]
    exact (tiles_append.mp inv.holds.tiles).2.2
  rw [← inv.here.top] at wrapped apart large
  refine plain ?_
  simp only [Lookalike, alloc2memdq, Nat.add_sub_cancel, sizeX]
  exact ⟨ends, grows, wrapped, apart, large⟩

theorem Inv.wrapped_refused (sane : h.Sane s) (plain : h.Plain (.resizeAlloc (x.addr + sizeofMemdq) s))
    (last : r = []) : h.act (.resizeAlloc (x.addr + sizeofMemdq) s) = h := by
  subst last
  simp [act, inv.grow_refused live grows sane plain (by simp)]

end Piece

theorem Inv.step_plain (inv : Inv g h pieces) (ok : h.Ok e) (plain : h.Plain e) : ∃ pieces', Inv g (h.act e) pieces' := by
  by_cases noWrap : h.NoWrap e
  · obtain ⟨pieces', inv', _⟩ := inv.step ok noWrap
    exact ⟨pieces', inv'⟩
  · cases e with
    | resizeAlloc ptr s =>
      obtain ⟨l, x, r, rfl, live, rfl⟩ := inv.held ok.2
      have sizeX := inv.holds.sizes x (by simp)
      simp only [NoWrap, alloc2memdq, Nat.add_sub_cancel, sizeX, not_forall, not_lt] at noWrap
      obtain ⟨last, large⟩ := noWrap
      have bounded := g.bounded
      rw [inv.here.top] at last
      have none : r = [] := by
        cases r with
        | nil => rfl
        | cons y r =>
          obtain ⟨_, _, adjacent, positive, rest⟩ := tiles_append.mp inv.holds.tiles
          have within := inv.holds.tiles.within (x := y) (by simp)
          omega
      rw [inv.wrapped_refused live (by omega) ok.1 plain none]
      exact ⟨_, inv⟩
    | tryAlloc _ => exact absurd trivial noWrap
    | free _ _ => exact absurd trivial noWrap
    | store _ _ _ => exact absurd trivial noWrap

theorem reach_plain (accepts : Accepts head base size align) (reach : (runs m head base size align Plain).Reach h) :
    ∃ pieces, Inv accepts.geometry h pieces := by
  refine reach.kept (P := fun h => ∃ pieces, Inv accepts.geometry h pieces) ?_ ?_
  · rintro h rfl
    exact ⟨_, first_inv accepts⟩
  · rintro h e ⟨pieces, inv⟩ ⟨ok, plain⟩
    exact inv.step_plain ok plain

/-- What growing an allocation in place is to do: it succeeds just if the block behind is free and both together are
large enough, keeps the contents and the order of the pool, and otherwise changes nothing. -/
structure GrowthRight (h : Heap) (free : List Nat) (ptr newsize : Nat) (q : MempoolVariable × Nat × Nat) : Prop where
  succeeds : q.2.1 = ptr ↔
    let dq := MempoolVariable.alloc2memdq ptr
    dq + h.pool.mem.size dq ∈ free ∧
      MempoolVariable.roundup h.pool.alignment newsize ≤ h.pool.mem.size dq + h.pool.mem.size (dq + h.pool.mem.size dq)
  contents : q.2.1 = ptr → ∀ a, ptr ≤ a →
    a < MempoolVariable.alloc2memdq ptr + h.pool.mem.size (MempoolVariable.alloc2memdq ptr) → q.1.mem a = h.pool.mem a
  sound : q.2.1 = ptr → ∃ blocks free, (h.act (.resizeAlloc ptr newsize)).Sound blocks free
  fails : q.2.1 ≠ ptr → q.2.1 = null ∧ q.1 = h.pool

/-- In every run without a call that takes memory behind the arena for a block, an allocation grows in place as it
should, unless the block that it needs is the only free one of the pool. -/
theorem grows_in_place_iff (accepts : Accepts head base size align) (reach : (runs m head base size align Plain).Reach h)
    (ok : h.Ok (.resizeAlloc ptr s)) (plain : h.Plain (.resizeAlloc ptr s))
    (grows : h.pool.mem.size (MempoolVariable.alloc2memdq ptr) < MempoolVariable.roundup h.pool.alignment s) :
    ∃ blocks free q, h.Sound blocks free ∧ h.pool.resizeAlloc ptr s = some q ∧
      (h.GrowthRight free ptr s q ↔
        let dq := MempoolVariable.alloc2memdq ptr
        ¬ (free = [dq + h.pool.mem.size dq] ∧ MempoolVariable.roundup h.pool.alignment s ≤
          h.pool.mem.size dq + h.pool.mem.size (dq + h.pool.mem.size dq))) := by
  obtain ⟨pieces, inv⟩ := reach_plain accepts reach
  obtain ⟨l, x, r, rfl, live, rfl⟩ := inv.held ok.2
  have sizeX := inv.holds.sizes x (by simp)
  have header : MempoolVariable.alloc2memdq (x.addr + sizeofMemdq) = x.addr := Nat.add_sub_cancel ..
  have divides := (Geometry.roundup_spec ((sane_iff inv.here).mp ok.1)).1
  rw [← inv.here.alignment] at divides
  have nonnull : x.addr + sizeofMemdq ≠ null := Nat.succ_ne_zero _
  rw [header, sizeX] at grows
  by_cases behind : ∃ y r', r = y :: r' ∧ y.use = .free ∧
      MempoolVariable.roundup h.pool.alignment s ≤ x.size + y.size
  · obtain ⟨y, r, rfl, free, fits⟩ := behind
    have inY : y ∈ l ++ x :: y :: r := by simp
    have adjacent : x.addr + x.size = y.addr := (tiles_append.mp inv.holds.tiles).2.2.1.symm
    have listed : y.addr ∈ freeAddrs (l ++ x :: y :: r) := mem_freeAddrs.mpr ⟨y, inY, free, rfl⟩
    have sizeY := inv.holds.sizes y inY
    by_cases only : freeAddrs (l ++ x :: y :: r) = [y.addr]
    · have refused := inv.grow_refused live grows ok.1 plain (by
        rintro z _ same - -
        obtain rfl : y = z := (List.cons.inj same).1
        exact only)
      refine ⟨_, _, _, inv.sound, refused, ?_⟩
      simp only [header, sizeX, adjacent, sizeY]
      refine iff_of_false (fun right => ?_) (not_not.mpr ⟨only, fits⟩)
      have succeeds := right.succeeds
      simp only [header, sizeX, adjacent, sizeY] at succeeds
      exact nonnull (succeeds.mpr ⟨listed, fits⟩).symm
    · obtain ⟨q, result, contents⟩ := inv.holds.grow_in_place inv.here live (inv.here.alignment ▸ divides) grows
        inv.coalesced free fits only
      have grown : h.pool.resizeAlloc (x.addr + sizeofMemdq) s = some (q, x.addr + sizeofMemdq, x.size) := by
        rw [resizeAlloc_eq, result, Option.map_some, sizeX]
      refine ⟨_, _, _, inv.sound, grown, ?_⟩
      simp only [header, sizeX, adjacent, sizeY]
      refine iff_of_true ⟨?_, ?_, ?_, fun other => absurd rfl other⟩ fun both => only both.1
      · simp only [header, sizeX, adjacent, sizeY]
        exact iff_of_true trivial ⟨listed, fits⟩
      · intro _ a low high
        rw [header, sizeX] at high
        exact contents a low high
      · intro _
        obtain ⟨pieces', inv'⟩ := inv.step_plain ok plain
        exact ⟨_, _, inv'.sound⟩
  · have refused := inv.grow_refused live grows ok.1 plain fun y r' same free fits => absurd ⟨y, r', same, free, fits⟩ behind
    refine ⟨_, _, _, inv.sound, refused, ?_⟩
    have small : ¬ (x.addr + x.size ∈ freeAddrs (l ++ x :: r) ∧
        MempoolVariable.roundup h.pool.alignment s ≤ x.size + h.pool.mem.size (x.addr + x.size)) := by
      rintro ⟨listed, fits⟩
      obtain ⟨y, inY, free, here⟩ := mem_freeAddrs.mp listed
      rw [← here, inv.holds.sizes y inY] at fits
      cases r with
      | nil =>
        have ends : x.addr + x.size = accepts.geometry.top := (tiles_append.mp inv.holds.tiles).2.2
        have within := (inv.holds.tiles.within inY).2.2
        omega
      | cons z r =>
        have adjacent : x.addr + x.size = z.addr := (tiles_append.mp inv.holds.tiles).2.2.1.symm
        obtain rfl : y = z := eq_of_addr inv.holds.tiles inv.holds.grid inY (by simp) (here.trans adjacent)
        exact behind ⟨y, r, rfl, free, fits⟩
    simp only [header, sizeX]
    refine iff_of_true ⟨?_, ?_, ?_, fun _ => ⟨rfl, rfl⟩⟩ ?_
    · simp only [header, sizeX]
      exact iff_of_false nonnull.symm small
    · exact fun same => absurd same.symm nonnull
    · exact fun same => absurd same.symm nonnull
    · rintro ⟨only, fits⟩
      exact small ⟨by simp [only], fits⟩

/-- Two allocations of 100 bytes, the first given back: behind the second lies one of two free blocks. -/
def pageGap : Heap := ((page.act (.tryAlloc 100)).act (.tryAlloc 100)).act (.free 0x80100f90 0)

theorem grows_in_place_page : ∃ free q, pageGap.pool.resizeAlloc 0x80100f20 150 = some q ∧
    pageGap.GrowthRight free 0x80100f20 150 q := by
  have start : (runs lookalike 0x1000 0x80100000 0x1000 8 Plain).Reach page := .start rfl
  have first := start.next ⟨.tryAlloc 100, ⟨by decide, trivial⟩, rfl⟩
  have second := first.next ⟨.tryAlloc 100, ⟨by decide, trivial⟩, rfl⟩
  have third := second.next ⟨.free 0x80100f90 0, ⟨⟨by decide, by decide⟩, trivial⟩, rfl⟩
  have plain : pageGap.Plain (.resizeAlloc 0x80100f20 150) := NoWrap.plain (by decide)
  have ok : pageGap.Ok (.resizeAlloc 0x80100f20 150) := ⟨by decide, by decide⟩
  obtain ⟨_, free, q, sound, result, right⟩ := grows_in_place_iff accepts_page third ok plain (by decide)
  refine ⟨free, q, result, right.mpr ?_⟩
  rintro dq ⟨only, -⟩
  have bytes := sound.freemem
  rw [only] at bytes
  exact absurd bytes (by decide)

/-- The arena in two allocations, the upper one given back: the free list has one element. -/
def pageFull : Heap := ((page.act (.tryAlloc 100)).act (.tryAlloc 3956)).act (.free 0x80100f90 0)

/-- The block behind the other allocation is free and large enough, and `resize_alloc` returns NULL. -/
theorem only_free_block_overlooked : ¬ ∀ (m : Memory) (head base size align : Nat) (h : Heap) (ptr s : Nat),
    Accepts head base size align → (runs m head base size align NoWrap).Reach h → h.Ok (.resizeAlloc ptr s) →
    h.NoWrap (.resizeAlloc ptr s) →
    h.pool.mem.size (MempoolVariable.alloc2memdq ptr) < MempoolVariable.roundup h.pool.alignment s →
    ∃ blocks free q, h.Sound blocks free ∧ h.pool.resizeAlloc ptr s = some q ∧ h.GrowthRight free ptr s q := by
  intro claim
  have start : (runs lookalike 0x1000 0x80100000 0x1000 8 NoWrap).Reach page := .start rfl
  have first := start.next ⟨.tryAlloc 100, ⟨by decide, trivial⟩, rfl⟩
  have second := first.next ⟨.tryAlloc 3956, ⟨by decide, trivial⟩, rfl⟩
  have third := second.next ⟨.free 0x80100f90 0, ⟨⟨by decide, by decide⟩, trivial⟩, rfl⟩
  obtain ⟨_, free, q, sound, result, right⟩ := claim _ _ _ _ _ pageFull 0x80100010 3972 accepts_page third
    ⟨by decide, by decide⟩ (by decide) (by decide)
  have refused : (pageFull.pool.resizeAlloc 0x80100010 3972).map (·.2.1) = some null := by decide
  rw [result, Option.map_some, Option.some_inj] at refused
  have listed : 0x80100f84 ∈ free := by
    have ring := sound.ring
    cases free with
    | nil => exact absurd ring.1.1 (by decide)
    | cons dq rest =>
      have next : pageFull.pool.mem.next pageFull.pool.head = dq := ring.1.1
      have here : 0x80100f84 = dq := Eq.trans (by decide) next
      simp [here]
  have grown := right.succeeds.mpr ⟨listed, by decide⟩
  rw [refused] at grown
  exact absurd grown (by decide)

end Heap

end Ecos
