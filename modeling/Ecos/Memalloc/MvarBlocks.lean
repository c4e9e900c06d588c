import Ecos.Memalloc.MvarLayout

namespace Ecos
open List
variable {g : Geometry} {m m' : Memory} {l r pieces : List Piece} {x y : Piece} {a w n : Nat}

/-- The list element before the free blocks that follow `l`. -/
def freeBefore (g : Geometry) (l : List Piece) : Nat := (g.head :: freeAddrs l).getLast (by simp)

/-- The list element after the free blocks that precede `r`. -/
def freeAfter (g : Geometry) (r : List Piece) : Nat := (freeAddrs r ++ [g.head]).head (by simp)

theorem head_cons_freeAddrs : g.head :: freeAddrs l = (g.head :: freeAddrs l).dropLast ++ [freeBefore g l] :=
  (dropLast_append_getLast _).symm

theorem freeAddrs_concat_head : freeAddrs r ++ [g.head] = freeAfter g r :: (freeAddrs r ++ [g.head]).tail :=
  (cons_head_tail _).symm

theorem circuit_append : circuit g (l ++ r) =
    (g.head :: freeAddrs l).dropLast ++ freeBefore g l :: freeAfter g r :: (freeAddrs r ++ [g.head]).tail := by
  rw [append_cons, ← head_cons_freeAddrs, ← freeAddrs_concat_head]
  simp [circuit, freeAddrs_append]

theorem circuit_free (free : x.use = .free) : circuit g (l ++ x :: r) =
    (g.head :: freeAddrs l).dropLast ++ freeBefore g l :: x.addr :: freeAfter g r ::
      (freeAddrs r ++ [g.head]).tail := by
  rw [append_cons _ (freeBefore g l), ← head_cons_freeAddrs, ← freeAddrs_concat_head]
  simp [circuit, freeAddrs_append, freeAddrs_cons, free]

theorem circuit_used (used : x.use ≠ .free) : circuit g (l ++ x :: r) = circuit g (l ++ r) := by
  simp [circuit, freeAddrs_append, freeAddrs_cons, used]

theorem freeBefore_nil : freeBefore g [] = g.head := rfl

theorem freeBefore_concat : freeBefore g (l ++ [x]) = if x.use = .free then x.addr else freeBefore g l := by
  by_cases free : x.use = .free
  · simp [freeBefore, freeAddrs, free, getLast_cons]
  · simp [freeBefore, freeAddrs, free]

theorem freeAfter_cons : freeAfter g (x :: r) = if x.use = .free then x.addr else freeAfter g r := by
  by_cases free : x.use = .free <;> simp [freeAfter, freeAddrs, free]

theorem freeBefore_mem : freeBefore g l ∈ circuit g (l ++ r) := by
  rw [circuit_append]
  simp

theorem freeAfter_mem : freeAfter g r ∈ circuit g (l ++ r) := by
  rw [circuit_append]
  simp

theorem Holds.around (holds : Holds g m (l ++ x :: r)) (free : x.use = .free) :
    m.next x.addr = freeAfter g r ∧ m.prev x.addr = freeBefore g l ∧
      m.next (freeBefore g l) = x.addr ∧ m.prev (freeAfter g r) = x.addr := by
  have ring := holds.ring
  rw [circuit_free free] at ring
  obtain ⟨toX, fromX⟩ := ring.at_pair
  rw [append_cons] at ring
  obtain ⟨toZ, fromZ⟩ := ring.at_pair
  exact ⟨toZ, fromX, toX, fromZ⟩

theorem Holds.between (holds : Holds g m (l ++ x :: r)) (used : x.use ≠ .free) :
    m.next (freeBefore g l) = freeAfter g r ∧ m.prev (freeAfter g r) = freeBefore g l := by
  have ring := holds.ring
  rw [circuit_used used, circuit_append] at ring
  exact ring.at_pair

theorem tiles_reuse {u : Use} : Tiles Piece.addr Piece.size a (l ++ { x with use := u } :: r) w ↔
    Tiles Piece.addr Piece.size a (l ++ x :: r) w := by
  simp only [tiles_append]

theorem grid_reuse {u : Use} : (∀ y ∈ l ++ { x with use := u } :: r, n ∣ y.size) ↔ ∀ y ∈ l ++ x :: r, n ∣ y.size := by
  simp only [forall_mem_append, forall_mem_cons]

theorem used_not_circuit (tiles : Tiles Piece.addr Piece.size g.bottom pieces g.top)
    (grid : ∀ y ∈ pieces, g.alignment ∣ y.size) (mem : x ∈ pieces) (used : x.use ≠ .free) :
    x.addr ∉ circuit g pieces := by
  intro listed
  rcases mem_circuit.mp listed with same | inside
  · exact head_ne_addr tiles grid mem same.symm
  · obtain ⟨y, inY, free, here⟩ := mem_freeAddrs.mp inside
    have same : y = x := eq_of_addr tiles grid inY mem here
    exact used (same ▸ free)

section Ring
variable (tiles : Tiles Piece.addr Piece.size g.bottom (l ++ x :: r) g.top)
  (grid : ∀ y ∈ l ++ x :: r, g.alignment ∣ y.size)
include tiles grid

theorem addr_not_circuit : x.addr ∉ circuit g (l ++ r) := by
  have same : circuit g (l ++ { x with use := .loose } :: r) = circuit g (l ++ r) := circuit_used (by simp)
  rw [← same]
  exact used_not_circuit (x := { x with use := .loose }) (tiles_reuse.mpr tiles) (grid_reuse.mpr grid)
    (by simp) (by simp)

theorem inner_apart {j : Nat} (behind : sizeofMemdq ≤ j) (room : j + sizeofMemdq ≤ x.size)
    (mem : w ∈ headers g (l ++ x :: r)) : x.addr + j + sizeofMemdq ≤ w ∨ w + sizeofMemdq ≤ x.addr + j := by
  have inside := tiles.within (x := x) (by simp)
  have apart := g.apart
  rcases mem_headers.mp mem with rfl | ⟨y, inY, rfl⟩
  · omega
  · have roomY := header_le tiles grid inY
    rcases tiles.apart (x := x) (by simp) inY with same | before | after
    · subst same
      omega
    · omega
    · omega

theorem ring_unlink (ring : m.nodes.Linked (circuit g (l ++ x :: r))) (free : x.use = .free)
    (next : ∀ w ∈ headers g (l ++ x :: r), w ≠ x.addr →
      m'.next w = if w = freeBefore g l then freeAfter g r else m.next w)
    (prev : ∀ w ∈ headers g (l ++ x :: r), w ≠ x.addr →
      m'.prev w = if w = freeAfter g r then freeBefore g l else m.prev w) :
    m'.nodes.Linked (circuit g (l ++ r)) := by
  obtain ⟨nodupNext, nodupPrev⟩ := circuit_nodup tiles grid
  have inHeaders : ∀ w ∈ circuit g (l ++ x :: r), w ∈ headers g (l ++ x :: r) := fun w => circuit_subset
  have apart : ∀ w ∈ circuit g (l ++ r), w ∈ circuit g (l ++ x :: r) ∧ w ≠ x.addr := by
    intro w mem
    refine ⟨?_, ?_⟩
    · rw [circuit_free free]
      rw [circuit_append] at mem
      simp only [mem_append, mem_cons] at mem ⊢
      tauto
    · rintro rfl
      exact addr_not_circuit tiles grid mem
  rw [circuit_free free] at ring nodupNext nodupPrev inHeaders
  rw [circuit_append]
  have beforeIn : freeBefore g l ∈ circuit g (l ++ r) := freeBefore_mem
  have afterIn : freeAfter g r ∈ circuit g (l ++ r) := freeAfter_mem
  have changed : m'.next (freeBefore g l) = freeAfter g r ∧ m'.prev (freeAfter g r) = freeBefore g l := by
    obtain ⟨inB, neB⟩ := apart _ beforeIn
    obtain ⟨inA, neA⟩ := apart _ afterIn
    exact ⟨(next _ (circuit_subset inB) neB).trans (if_pos rfl), (prev _ (circuit_subset inA) neA).trans (if_pos rfl)⟩
  refine ring.unlink nodupNext nodupPrev changed ?_ ?_
  · intro w mem notBefore notX
    exact (next w (inHeaders w (mem_of_mem_dropLast mem)) notX).trans (if_neg notBefore)
  · intro w mem notAfter notX
    exact (prev w (inHeaders w (mem_of_mem_tail mem)) notX).trans (if_neg notAfter)

theorem ring_link (ring : m.nodes.Linked (circuit g (l ++ x :: r))) (used : x.use ≠ .free)
    (next : ∀ w ∈ headers g (l ++ x :: r), m'.next w =
      if w = freeBefore g l then x.addr else if w = x.addr then freeAfter g r else m.next w)
    (prev : ∀ w ∈ headers g (l ++ x :: r), m'.prev w =
      if w = freeAfter g r then x.addr else if w = x.addr then freeBefore g l else m.prev w) :
    m'.nodes.Linked (circuit g (l ++ { x with use := .free } :: r)) := by
  obtain ⟨nodupNext, nodupPrev⟩ := circuit_nodup tiles grid
  have inHeaders : ∀ w ∈ circuit g (l ++ r), w ∈ headers g (l ++ x :: r) ∧ w ≠ x.addr := by
    intro w mem
    refine ⟨circuit_subset (by rwa [circuit_used used]), ?_⟩
    rintro rfl
    exact addr_not_circuit tiles grid mem
  have self : x.addr ∈ headers g (l ++ x :: r) := mem_headers.mpr (.inr ⟨x, by simp, rfl⟩)
  obtain ⟨beforeIn, beforeNe⟩ := inHeaders _ freeBefore_mem
  obtain ⟨afterIn, afterNe⟩ := inHeaders _ freeAfter_mem
  rw [circuit_used used] at ring nodupNext nodupPrev
  rw [circuit_append] at ring nodupNext nodupPrev inHeaders
  rw [circuit_free (x := { x with use := .free }) rfl]
  refine ring.link nodupNext nodupPrev ⟨?_, ?_⟩ ⟨?_, ?_⟩ ?_ ?_
  · exact (next _ beforeIn).trans (if_pos rfl)
  · exact (prev _ self).trans (by rw [if_neg afterNe.symm, if_pos rfl])
  · exact (next _ self).trans (by rw [if_neg beforeNe.symm, if_pos rfl])
  · exact (prev _ afterIn).trans (if_pos rfl)
  · intro w mem notBefore
    obtain ⟨inW, notX⟩ := inHeaders w (mem_of_mem_dropLast mem)
    exact (next w inW).trans (by rw [if_neg notBefore, if_neg notX]; rfl)
  · intro w mem notAfter
    obtain ⟨inW, notX⟩ := inHeaders w (mem_of_mem_tail mem)
    exact (prev w inW).trans (by rw [if_neg notAfter, if_neg notX]; rfl)

end Ring

theorem addr_mem_headers (mem : x ∈ pieces) : x.addr ∈ headers g pieces :=
  mem_headers.mpr (.inr ⟨x, mem, rfl⟩)

theorem head_mem_headers : g.head ∈ headers g pieces := mem_headers.mpr (.inl rfl)

theorem Holds.unlink {u : Use} (holds : Holds g m (l ++ x :: r)) (free : x.use = .free) (other : u ≠ .free)
    (next : ∀ w ∈ headers g (l ++ x :: r), w ≠ x.addr →
      m'.next w = if w = freeBefore g l then freeAfter g r else m.next w)
    (prev : ∀ w ∈ headers g (l ++ x :: r), w ≠ x.addr →
      m'.prev w = if w = freeAfter g r then freeBefore g l else m.prev w)
    (size : ∀ w ∈ headers g (l ++ x :: r), m'.size w = m.size w)
    (magic : u = .live → m'.prev x.addr = allocMagic ∧ m'.next x.addr = allocMagic) :
    Holds g m' (l ++ { x with use := u } :: r) where
  tiles := tiles_reuse.mpr holds.tiles
  grid := grid_reuse.mpr holds.grid
  sizes := by
    have old := holds.sizes
    have kept : ∀ y ∈ l ++ x :: r, m'.size y.addr = y.size := fun y mem =>
      (size _ (addr_mem_headers mem)).trans (old y mem)
    simpa only [forall_mem_append, forall_mem_cons] using kept
  magic := by
    have kept : ∀ y ∈ l ++ x :: r, y.addr ≠ x.addr → y.use = .live →
        m'.prev y.addr = allocMagic ∧ m'.next y.addr = allocMagic := by
      intro y mem apart live
      have outside := used_not_circuit holds.tiles holds.grid mem (by simp [live])
      have notBefore : y.addr ≠ freeBefore g l := fun same =>
        outside (same ▸ by rw [circuit_free free]; simp)
      have notAfter : y.addr ≠ freeAfter g r := fun same =>
        outside (same ▸ by rw [circuit_free free]; simp)
      rw [prev _ (addr_mem_headers mem) apart, next _ (addr_mem_headers mem) apart, if_neg notBefore,
        if_neg notAfter]
      exact holds.magic y mem live
    intro y mem live
    by_cases same : y.addr = x.addr
    · have self : y = { x with use := u } :=
        eq_of_addr (tiles_reuse.mpr holds.tiles) (grid_reuse.mpr holds.grid) mem (by simp) same
      subst self
      exact magic live
    · refine kept y ?_ same live
      simp only [mem_append, mem_cons] at mem ⊢
      rcases mem with left | self | right
      · exact .inl left
      · exact absurd (congrArg Piece.addr self) same
      · exact .inr (.inr right)
  ring := by
    rw [circuit_used other]
    exact ring_unlink holds.tiles holds.grid holds.ring free next prev
  headSize := (size _ head_mem_headers).trans holds.headSize

theorem Holds.link (holds : Holds g m (l ++ x :: r)) (used : x.use ≠ .free)
    (next : ∀ w ∈ headers g (l ++ x :: r), m'.next w =
      if w = freeBefore g l then x.addr else if w = x.addr then freeAfter g r else m.next w)
    (prev : ∀ w ∈ headers g (l ++ x :: r), m'.prev w =
      if w = freeAfter g r then x.addr else if w = x.addr then freeBefore g l else m.prev w)
    (size : ∀ w ∈ headers g (l ++ x :: r), m'.size w = m.size w) :
    Holds g m' (l ++ { x with use := .free } :: r) where
  tiles := tiles_reuse.mpr holds.tiles
  grid := grid_reuse.mpr holds.grid
  sizes := by
    have kept : ∀ y ∈ l ++ x :: r, m'.size y.addr = y.size := fun y mem =>
      (size _ (addr_mem_headers mem)).trans (holds.sizes y mem)
    simpa only [forall_mem_append, forall_mem_cons] using kept
  magic := by
    have kept : ∀ y ∈ l ++ x :: r, y.addr ≠ x.addr → y.use = .live →
        m'.prev y.addr = allocMagic ∧ m'.next y.addr = allocMagic := by
      intro y mem apart live
      have outside := used_not_circuit holds.tiles holds.grid mem (by simp [live])
      rw [circuit_used used] at outside
      have notBefore : y.addr ≠ freeBefore g l := fun same => outside (same ▸ freeBefore_mem)
      have notAfter : y.addr ≠ freeAfter g r := fun same => outside (same ▸ freeAfter_mem)
      rw [prev _ (addr_mem_headers mem), next _ (addr_mem_headers mem), if_neg notBefore, if_neg notAfter,
        if_neg apart, if_neg apart]
      exact holds.magic y mem live
    intro y mem live
    have notX : y ≠ { x with use := .free } := by
      rintro rfl
      simp at live
    have inside : y ∈ l ++ x :: r := by
      simp only [mem_append, mem_cons] at mem ⊢
      tauto
    refine kept y inside ?_ live
    intro same
    exact notX (eq_of_addr (tiles_reuse.mpr holds.tiles) (grid_reuse.mpr holds.grid) mem (by simp) same)
  ring := ring_link holds.tiles holds.grid holds.ring used next prev
  headSize := (size _ head_mem_headers).trans holds.headSize

theorem circuit_resize {k : Nat} : circuit g (l ++ { x with size := k } :: r) = circuit g (l ++ x :: r) := by
  simp only [circuit, freeAddrs_append, freeAddrs_cons]

/-- A block takes over the free block behind it, which leaves the list. -/
theorem Holds.absorb (holds : Holds g m (l ++ x :: y :: r)) (free : y.use = .free)
    (next : ∀ w ∈ headers g (l ++ x :: y :: r), w ≠ y.addr →
      m'.next w = if w = freeBefore g (l ++ [x]) then freeAfter g r else m.next w)
    (prev : ∀ w ∈ headers g (l ++ x :: y :: r), w ≠ y.addr →
      m'.prev w = if w = freeAfter g r then freeBefore g (l ++ [x]) else m.prev w)
    (size : ∀ w ∈ headers g (l ++ x :: y :: r), w ≠ y.addr →
      m'.size w = if w = x.addr then x.size + y.size else m.size w) :
    Holds g m' (l ++ { x with size := x.size + y.size } :: r) := by
  have regroup : l ++ x :: y :: r = (l ++ [x]) ++ y :: r := by simp
  obtain ⟨left, positive, adjacent, positiveY, right⟩ := tiles_append.mp holds.tiles
  have xy : x.addr ≠ y.addr := by omega
  have tiles : Tiles Piece.addr Piece.size g.bottom (l ++ { x with size := x.size + y.size } :: r) g.top := by
    refine tiles_append.mpr ⟨left, by simp; omega, ?_⟩
    simpa only [Nat.add_assoc] using right
  have apart : ∀ z ∈ l ++ r, z ∈ l ++ x :: y :: r ∧ z.addr ≠ x.addr ∧ z.addr ≠ y.addr := by
    intro z mem
    have ordered := holds.tiles.pairwise
    simp only [pairwise_append, pairwise_cons, mem_cons] at ordered
    rcases mem_append.mp mem with inLeft | inRight
    · have before := ordered.2.2 z inLeft x (.inl rfl)
      have positiveZ := (left.within inLeft).2.1
      exact ⟨by simp [inLeft], by omega, by omega⟩
    · have later := (right.within inRight).1
      exact ⟨by simp [inRight], by omega, by omega⟩
  refine ⟨tiles, ?_, ?_, ?_, ?_, ?_⟩
  · have sum := Nat.dvd_add (holds.grid x (by simp)) (holds.grid y (by simp))
    simp only [forall_mem_append, forall_mem_cons]
    refine ⟨fun z mem => holds.grid z (by simp [mem]), sum, fun z mem => holds.grid z (by simp [mem])⟩
  · have kept : ∀ z ∈ l ++ r, m'.size z.addr = z.size := by
      intro z mem
      obtain ⟨inside, notX, notY⟩ := apart z mem
      rw [size _ (addr_mem_headers inside) notY, if_neg notX]
      exact holds.sizes z inside
    simp only [forall_mem_append, forall_mem_cons] at kept ⊢
    refine ⟨kept.1, ?_, kept.2⟩
    exact (size _ (addr_mem_headers (by simp)) xy).trans (if_pos rfl)
  · have kept : ∀ z ∈ l ++ x :: y :: r, z.addr ≠ y.addr → z.use = .live →
        m'.prev z.addr = allocMagic ∧ m'.next z.addr = allocMagic := by
      intro z mem notY live
      have outside := used_not_circuit holds.tiles holds.grid mem (by simp [live])
      rw [regroup, circuit_free free] at outside
      simp only [mem_append, mem_cons, not_or] at outside
      rw [prev _ (addr_mem_headers mem) notY, next _ (addr_mem_headers mem) notY, if_neg outside.2.1,
        if_neg outside.2.2.2.1]
      exact holds.magic z mem live
    intro z mem live
    rcases mem_append.mp mem with inLeft | rest
    · obtain ⟨inside, _, notY⟩ := apart z (mem_append_left _ inLeft)
      exact kept z inside notY live
    · rcases mem_cons.mp rest with rfl | inRight
      · exact kept x (by simp) xy live
      · obtain ⟨inside, _, notY⟩ := apart z (mem_append_right _ inRight)
        exact kept z inside notY live
  · rw [circuit_resize]
    have unlinked : m'.nodes.Linked (circuit g ((l ++ [x]) ++ r)) :=
      ring_unlink (regroup ▸ holds.tiles) (regroup ▸ holds.grid) (regroup ▸ holds.ring) free (regroup ▸ next)
        (regroup ▸ prev)
    simpa using unlinked
  · rw [size _ head_mem_headers (head_ne_addr holds.tiles holds.grid (by simp)),
      if_neg (head_ne_addr holds.tiles holds.grid (by simp))]
    exact holds.headSize

theorem Holds.cut {j k : Nat} {u : Use} (holds : Holds g m (l ++ x :: r)) (other : u ≠ .free)
    (divides : g.alignment ∣ j) (positive : 0 < j) (proper : 0 < k) (sum : j + k = x.size)
    (next : ∀ w ∈ headers g (l ++ x :: r), m'.next w = m.next w)
    (prev : ∀ w ∈ headers g (l ++ x :: r), m'.prev w = m.prev w)
    (size : ∀ w ∈ headers g (l ++ x :: r), m'.size w = if w = x.addr then j else m.size w)
    (tail : m'.size (x.addr + j) = k)
    (magic : u = .live → m'.prev (x.addr + j) = allocMagic ∧ m'.next (x.addr + j) = allocMagic) :
    Holds g m' (l ++ { x with size := j } :: ⟨x.addr + j, k, u⟩ :: r) := by
  obtain ⟨left, positiveX, right⟩ := tiles_append.mp holds.tiles
  have apart : ∀ z ∈ l ++ r, z ∈ l ++ x :: r ∧ z.addr ≠ x.addr := by
    intro z mem
    have ordered := holds.tiles.pairwise
    simp only [pairwise_append, pairwise_cons, mem_cons] at ordered
    rcases mem_append.mp mem with inLeft | inRight
    · have before := ordered.2.2 z inLeft x (.inl rfl)
      have positiveZ := (left.within inLeft).2.1
      exact ⟨by simp [inLeft], by omega⟩
    · have later := (right.within inRight).1
      exact ⟨by simp [inRight], by omega⟩
  refine ⟨?_, ?_, ?_, ?_, ?_, ?_⟩
  · refine tiles_append.mpr ⟨left, positive, rfl, proper, ?_⟩
    simpa only [Nat.add_assoc, sum] using right
  · have rest : g.alignment ∣ k := (Nat.dvd_add_right divides).mp (sum ▸ holds.grid x (by simp))
    simp only [forall_mem_append, forall_mem_cons]
    exact ⟨fun z mem => holds.grid z (by simp [mem]), divides, rest,
      fun z mem => holds.grid z (by simp [mem])⟩
  · have kept : ∀ z ∈ l ++ r, m'.size z.addr = z.size := by
      intro z mem
      obtain ⟨inside, notX⟩ := apart z mem
      rw [size _ (addr_mem_headers inside), if_neg notX]
      exact holds.sizes z inside
    simp only [forall_mem_append, forall_mem_cons] at kept ⊢
    refine ⟨kept.1, ?_, tail, kept.2⟩
    exact (size _ (addr_mem_headers (by simp))).trans (if_pos rfl)
  · have kept : ∀ z ∈ l ++ x :: r, z.use = .live →
        m'.prev z.addr = allocMagic ∧ m'.next z.addr = allocMagic := by
      intro z mem live
      rw [prev _ (addr_mem_headers mem), next _ (addr_mem_headers mem)]
      exact holds.magic z mem live
    simp only [forall_mem_append, forall_mem_cons] at kept ⊢
    exact ⟨kept.1, kept.2.1, magic, kept.2.2⟩
  · have same : circuit g (l ++ { x with size := j } :: ⟨x.addr + j, k, u⟩ :: r) = circuit g (l ++ x :: r) := by
      simp only [circuit, freeAddrs_append, freeAddrs_cons, if_neg other]
    rw [same]
    refine holds.ring.congr ?_ ?_
    · intro w mem
      exact next w (circuit_subset (mem_of_mem_dropLast mem))
    · intro w mem
      exact prev w (circuit_subset (mem_of_mem_tail mem))
  · rw [size _ head_mem_headers, if_neg (head_ne_addr holds.tiles holds.grid (by simp))]
    exact holds.headSize

/-- The allocated blocks other than the one at `dq` have not changed. -/
def Untouched (pieces : List Piece) (dq : Nat) (m m' : Memory) : Prop :=
  ∀ y ∈ pieces, y.use = .live → y.addr ≠ dq → ∀ a, y.addr ≤ a → a < y.addr + y.size → m' a = m a

theorem Untouched.refl {dq : Nat} : Untouched pieces dq m m := fun _ _ _ _ _ _ _ => rfl

/-- A change of headers that lie in free blocks, in the block at `dq` or in the
head of the list touches no other allocated block. -/
theorem Memory.Frame.untouched {headers : List Nat} {dq : Nat} (frame : Memory.Frame headers m m')
    (tiles : Tiles Piece.addr Piece.size g.bottom pieces g.top) (grid : ∀ y ∈ pieces, g.alignment ∣ y.size)
    (inside : ∀ h ∈ headers, h ∈ circuit g pieces ∨
      ∃ z ∈ pieces, (z.use = .free ∨ z.addr = dq) ∧ z.addr ≤ h ∧ h + sizeofMemdq ≤ z.addr + z.size) :
    Untouched pieces dq m m' := by
  intro y mem live other a low high
  refine frame a fun h inH => ?_
  have apart : ∀ z ∈ pieces, (z.use = .free ∨ z.addr = dq) → z.addr + z.size ≤ y.addr ∨ y.addr + y.size ≤ z.addr := by
    intro z inZ kind
    rcases tiles.apart inZ mem with same | before | after
    · subst same
      rcases kind with free | at_dq
      · exact absurd (live.symm.trans free) (by simp)
      · exact absurd at_dq other
    · exact .inl before
    · exact .inr after
  rcases inside h inH with listed | ⟨z, inZ, kind, first, last⟩
  · rcases mem_circuit.mp listed with rfl | inFree
    · have outside := g.apart
      have within := tiles.within mem
      omega
    · obtain ⟨z, inZ, free, rfl⟩ := mem_freeAddrs.mp inFree
      have room := header_le tiles grid inZ
      have away := apart z inZ (.inl free)
      omega
  · have away := apart z inZ kind
    omega

end Ecos
