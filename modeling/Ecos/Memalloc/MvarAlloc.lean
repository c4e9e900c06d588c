import Ecos.Memalloc.MvarBlocks

namespace Ecos
open List Nat Memory
open MempoolVariable (roundup)
variable {g : Geometry} {m m' : Memory} {l r pieces : List Piece} {x y : Piece} {a w n k s : Nat}

theorem and_negative (small : k ≤ 32) : word n &&& (2 ^ 32 - 2 ^ k) = word n / 2 ^ k * 2 ^ k := by
  have below : word n < 2 ^ 32 := mod_lt _ (by decide)
  have mask : 2 ^ 32 - 2 ^ k = (2 ^ (32 - k) - 1) <<< k := by
    rw [Nat.shiftLeft_eq, Nat.sub_mul, ← Nat.pow_add, Nat.sub_add_cancel small, Nat.one_mul]
  rw [mask]
  apply eq_of_testBit_eq
  intro i
  rw [testBit_and, testBit_shiftLeft, testBit_two_pow_sub_one, ← shiftLeft_eq,
    testBit_shiftLeft, testBit_div_two_pow]
  by_cases low : k ≤ i
  · simp only [low, decide_true, Bool.true_and, Nat.sub_add_cancel]
    by_cases high : i < 32
    · simp [show i - k < 32 - k by omega]
    · have bound : word n < 2 ^ i := below.trans_le (Nat.pow_le_pow_right (by decide) (by omega))
      simp [Nat.testBit_lt_two_pow bound]
  · simp [low]

/-- A request that can be rounded up without overflow of a `cyg_int32`. -/
def Geometry.Sane (g : Geometry) (s : Nat) : Prop := s + sizeofMemdq + g.alignment < 2 ^ 31

theorem Geometry.roundup_spec (sane : g.Sane s) : g.alignment ∣ roundup g.alignment s ∧
    s + sizeofMemdq ≤ roundup g.alignment s ∧
      roundup g.alignment s < s + sizeofMemdq + g.alignment := by
  obtain ⟨k, small, power⟩ := g.power
  unfold Geometry.Sane at sane
  have positive : 0 < g.alignment := power ▸ Nat.two_pow_pos k
  have exact : word (s + sizeofMemdq + g.alignment - 1) = s + sizeofMemdq + g.alignment - 1 :=
    mod_eq_of_lt (by omega)
  have value : roundup g.alignment s = (s + sizeofMemdq + g.alignment - 1) / g.alignment * g.alignment := by
    unfold roundup
    rw [power, and_negative (by omega), ← power, exact]
  have division := div_add_mod' (s + sizeofMemdq + g.alignment - 1) g.alignment
  have remainder := mod_lt (s + sizeofMemdq + g.alignment - 1) positive
  rw [value]
  exact ⟨Nat.dvd_mul_left _ _, by omega, by omega⟩

/-- The free block that the search of `try_alloc` stops at. -/
def fitting (n : Nat) (x : Piece) : Bool := decide (x.use = .free ∧ n ≤ x.size)

theorem Holds.small (holds : Holds g m pieces) (member : x ∈ pieces) : x.size < 2 ^ 31 := by
  have within := holds.tiles.within member
  have small := g.small
  omega

theorem Holds.fits_iff (holds : Holds g m pieces) (member : x ∈ pieces) : m.fits n x.addr = decide (n ≤ x.size) := by
  have small := holds.small member
  rw [fits, holds.sizes x member]
  exact decide_eq_decide.mpr ⟨And.left, fun le => ⟨le, small⟩⟩

theorem Holds.walk {P : Nat → Nat → List Piece → Prop} {fuel : Nat} (holds : Holds g m (l ++ r))
    (enough : (freeAddrs r).length < fuel) (stop : ∀ fuel dq, m.size (m.next dq) = 0 → P (fuel + 1) dq [])
    (skip : ∀ fuel dq x r, x.use ≠ .free → P fuel dq r → P fuel dq (x :: r))
    (step : ∀ fuel dq x r, x.use = .free → x.size < 2 ^ 31 → m.next dq = x.addr → m.size x.addr = x.size → x.size ≠ 0 →
      P fuel x.addr r → P (fuel + 1) dq (x :: r)) : P fuel (freeBefore g l) r := by
  induction r generalizing l fuel with
  | nil =>
    obtain ⟨fuel, rfl⟩ : ∃ f, fuel = f + 1 := ⟨fuel - 1, by omega⟩
    have ring := holds.ring
    rw [circuit_append] at ring
    have last : m.next (freeBefore g l) = g.head := ring.at_pair.1
    exact stop _ _ (last ▸ holds.headSize)
  | cons x r ih =>
    have next : ∀ fuel, (freeAddrs r).length < fuel →
        P fuel (if x.use = .free then x.addr else freeBefore g l) r := by
      intro fuel
      rw [← freeBefore_concat]
      exact ih (by simpa using holds)
    by_cases free : x.use = .free
    · simp only [free, if_true] at next
      simp only [freeAddrs_cons, free, if_true, length_cons] at enough
      obtain ⟨fuel, rfl⟩ : ∃ f, fuel = f + 1 := ⟨fuel - 1, by omega⟩
      have member : x ∈ l ++ x :: r := by simp
      have positive := (holds.tiles.within member).2.1
      exact step _ _ _ _ free (holds.small member) (holds.around free).2.2.1 (holds.sizes x member) (by omega)
        (next fuel (by omega))
    · simp only [free, if_false] at next
      simp only [freeAddrs_cons, free, if_false] at enough
      exact skip _ _ _ _ free (next fuel enough)

theorem Holds.firstFit {fuel : Nat} (holds : Holds g m (l ++ r)) (enough : (freeAddrs r).length < fuel) :
    MempoolVariable.firstFit m n fuel (freeBefore g l) =
      some ((r.find? (fitting n)).elim null Piece.addr) := by
  refine holds.walk enough (P := fun fuel dq r => MempoolVariable.firstFit m n fuel dq =
    some ((r.find? (fitting n)).elim null Piece.addr)) (fun fuel dq last => ?_) (fun fuel dq x r busy rest => ?_)
    fun fuel dq x r free small leads size nonzero rest => ?_
  · simp [MempoolVariable.firstFit, last]
  · rw [rest, find?_cons_of_neg (by simp [fitting, busy])]
  · simp only [MempoolVariable.firstFit, leads, fits, size, if_neg nonzero]
    by_cases large : n ≤ x.size
    · rw [if_pos (decide_eq_true ⟨large, small⟩), find?_cons_of_pos (by simp [fitting, free, large])]
      rfl
    · rw [if_neg (by simp [large]), rest, find?_cons_of_neg (by simp [fitting, large])]

/-- What becomes of the block that `try_alloc` takes `n` bytes from. -/
def carve (n : Nat) (x : Piece) : List Piece :=
  if n = x.size then [{ x with use := .live }]
  else [{ x with size := x.size - n }, ⟨x.addr + (x.size - n), n, .live⟩]

theorem freeBytes_carve (free : x.use = .free) (large : n ≤ x.size) :
    freeBytes (l ++ carve n x ++ r) + n = freeBytes (l ++ x :: r) := by
  unfold carve
  split
  · next exact => simp [freeBytes_append, freeBytes_cons, free, exact]; omega
  · simp [free, freeBytes]; omega

section Take
variable {p : MempoolVariable}

/-- The block that the search found is taken off the list, or loses its end. -/
theorem Holds.takeFrom (holds : Holds g p.mem (l ++ x :: r)) (free : x.use = .free) (divides : g.alignment ∣ n)
    (positive : 0 < n) (large : n ≤ x.size) : ∃ m', p.takeFrom n x.addr =
      ({ p with mem := m', freemem := p.freemem - n }, x.addr + (x.size - n) + sizeofMemdq) ∧
    Holds g m' (l ++ carve n x ++ r) ∧
    Memory.Frame ((x.addr + (x.size - n)) :: circuit g (l ++ x :: r)) p.mem m' := by
  have member : x ∈ l ++ x :: r := by simp
  obtain ⟨next, prev, back, forth⟩ := holds.around free
  have xIn := addr_mem_headers (g := g) member
  have sizeX := holds.sizes x member
  have clear : ∀ u ∈ headers g (l ++ x :: r), ∀ w ∈ headers g (l ++ x :: r), Clear u w :=
    fun u inU w inW => headers_clear holds.tiles holds.grid inU inW
  have beforeIn : freeBefore g l ∈ circuit g (l ++ x :: r) := by
    rw [circuit_free free]
    simp
  have afterIn : freeAfter g r ∈ circuit g (l ++ x :: r) := by
    rw [circuit_free free]
    simp
  unfold carve
  by_cases whole : n = x.size
  · have notBefore : x.addr ≠ freeBefore g l := by
      intro same
      exact addr_not_circuit holds.tiles holds.grid (same ▸ freeBefore_mem)
    have shape : p.takeFrom n x.addr = ({ p with
        mem := ((((p.mem.setNext (freeBefore g l) (freeAfter g r)).setPrev (freeAfter g r) (freeBefore g l)).setSize
          x.addr n).setPrev x.addr allocMagic).setNext x.addr allocMagic
        freemem := p.freemem - n }, x.addr + (x.size - n) + sizeofMemdq) := by
      simp [MempoolVariable.takeFrom, sizeX, whole, next, prev, next_setNext, notBefore,
        prev_setNext (clear _ (circuit_subset beforeIn) _ xIn), MempoolVariable.memdq2alloc]
    refine ⟨_, shape, ?_, ?_⟩
    · rw [if_pos whole, append_assoc, singleton_append]
      refine holds.unlink free (by simp) ?_ ?_ ?_ ?_
      · intro w inW notX
        rw [next_setNext, if_neg notX, next_setPrev (clear _ xIn _ inW),
          next_setSize (clear _ xIn _ inW), next_setPrev (clear _ (circuit_subset afterIn) _ inW),
          next_setNext]
      · intro w inW notX
        rw [prev_setNext (clear _ xIn _ inW), prev_setPrev, if_neg notX,
          prev_setSize (clear _ xIn _ inW), prev_setPrev,
          prev_setNext (clear _ (circuit_subset beforeIn) _ inW)]
      · intro w inW
        rw [size_setNext (clear _ xIn _ inW), size_setPrev (clear _ xIn _ inW), size_setSize,
          size_setPrev (clear _ (circuit_subset afterIn) _ inW),
          size_setNext (clear _ (circuit_subset beforeIn) _ inW)]
        split
        · next same => rw [same, sizeX, whole]
        · rfl
      · intro _
        rw [prev_setNext (clear _ xIn _ xIn), prev_setPrev, next_setNext]
        simp
    · have self : x.addr ∈ (x.addr + (x.size - n)) :: circuit g (l ++ x :: r) := by simp [whole]
      refine ((((frame_setNext ?_).trans (frame_setPrev ?_)).trans
        (frame_setSize self)).trans (frame_setPrev self)).trans (frame_setNext self)
      · exact mem_cons_of_mem _ beforeIn
      · exact mem_cons_of_mem _ afterIn
  · have divides' : g.alignment ∣ x.size - n := dvd_sub (holds.grid x member) divides
    have behind : sizeofMemdq ≤ x.size - n := g.header.trans (le_of_dvd (by omega) divides')
    have room : sizeofMemdq ≤ n := g.header.trans (le_of_dvd positive divides)
    have inner : ∀ w ∈ headers g (l ++ x :: r), Clear (x.addr + (x.size - n)) w := fun w inW =>
      .inr (inner_apart holds.tiles holds.grid behind (by omega) inW)
    have fresh : ∀ w ∈ headers g (l ++ x :: r), w ≠ x.addr + (x.size - n) := by
      intro w inW
      have apart := inner_apart holds.tiles holds.grid behind (by omega) inW
      simp only [sizeofMemdq] at apart
      omega
    have shape : p.takeFrom n x.addr = ({ p with
        mem := (((p.mem.setSize x.addr (x.size - n)).setSize (x.addr + (x.size - n)) n).setPrev
          (x.addr + (x.size - n)) allocMagic).setNext (x.addr + (x.size - n)) allocMagic
        freemem := p.freemem - n }, x.addr + (x.size - n) + sizeofMemdq) := by
      simp [MempoolVariable.takeFrom, sizeX, whole, size_setSize, MempoolVariable.memdq2alloc]
    refine ⟨_, shape, ?_, ?_⟩
    · rw [if_neg whole, append_assoc, cons_append, singleton_append]
      refine holds.cut (by simp) divides' (by omega) positive (by omega) ?_ ?_ ?_ ?_ ?_
      · intro w inW
        rw [next_setNext, if_neg (fresh w inW), next_setPrev (inner w inW),
          next_setSize (inner w inW), next_setSize (clear _ xIn _ inW)]
      · intro w inW
        rw [prev_setNext (inner w inW), prev_setPrev, if_neg (fresh w inW),
          prev_setSize (inner w inW), prev_setSize (clear _ xIn _ inW)]
      · intro w inW
        rw [size_setNext (inner w inW), size_setPrev (inner w inW), size_setSize,
          if_neg (fresh w inW), size_setSize]
      · rw [size_setNext (.inl rfl), size_setPrev (.inl rfl), size_setSize, if_pos rfl]
      · intro _
        rw [prev_setNext (.inl rfl), prev_setPrev, next_setNext]
        simp
    · have self : x.addr + (x.size - n) ∈ (x.addr + (x.size - n)) :: circuit g (l ++ x :: r) := by simp
      refine (((frame_setSize ?_).trans (frame_setSize self)).trans (frame_setPrev self)).trans
        (frame_setNext self)
      rw [circuit_free free]
      simp

end Take

/-- Where a pool object describes the arena `g`. -/
structure MempoolVariable.At (p : MempoolVariable) (g : Geometry) : Prop where
  head : p.head = g.head
  obase : p.obase = g.base
  bottom : p.bottom = g.bottom
  top : p.top = g.top
  alignment : p.alignment = g.alignment
  arena : g.top ≤ g.bottom + p.osize
  positive : 0 < p.osize

theorem MempoolVariable.At.update {p : MempoolVariable} {f : Int} (here : p.At g) :
    ({ p with mem := m, freemem := f } : MempoolVariable).At g :=
  ⟨here.head, here.obase, here.bottom, here.top, here.alignment, here.arena, here.positive⟩

theorem Holds.enough {p : MempoolVariable} (holds : Holds g m pieces) (here : p.At g) :
    (freeAddrs pieces).length < p.osize := by
  have room := holds.tiles.length_le fun x member => header_le holds.tiles holds.grid member
  have arena := here.arena
  have positive := here.positive
  have fewer : (freeAddrs pieces).length ≤ pieces.length := by
    unfold freeAddrs
    rw [length_map]
    exact length_filter_le _ _
  simp only [sizeofMemdq] at room
  omega

theorem Holds.tryAlloc_find {p : MempoolVariable} (holds : Holds g p.mem pieces) (here : p.At g)
    (size : n = roundup g.alignment s) : p.tryAlloc s = match pieces.find? (fitting n) with
      | none => some (p, null)
      | some x => if x.addr = null then some (p, null) else some (p.takeFrom n x.addr) := by
  have found := holds.firstFit (l := []) (n := n) (holds.enough here)
  rw [freeBefore_nil, ← here.head] at found
  have nonnull : p.bottom ≠ null := by
    rw [here.bottom]
    exact Nat.pos_iff_ne_zero.mp g.positive
  unfold MempoolVariable.tryAlloc
  simp only [if_neg nonnull, here.alignment, ← size, found]
  cases pieces.find? (fitting n) <;> rfl

/-- `try_alloc` fails, changing nothing, exactly if no free block is large enough;
else it takes the memory from the first such block. -/
theorem Holds.tryAlloc {p : MempoolVariable} (holds : Holds g p.mem pieces) (here : p.At g) (sane : g.Sane s)
    (size : n = roundup g.alignment s) :
    ((∀ x ∈ pieces, x.use = .free → x.size < n) ∧ p.tryAlloc s = some (p, null)) ∨
    ∃ l x r m', pieces = l ++ x :: r ∧ x.use = .free ∧ n ≤ x.size ∧ (∀ y ∈ l, y.use = .free → y.size < n) ∧
      p.tryAlloc s = some ({ p with mem := m', freemem := p.freemem - n }, x.addr + (x.size - n) + sizeofMemdq) ∧
      Holds g m' (l ++ carve n x ++ r) ∧
      Memory.Frame ((x.addr + (x.size - n)) :: circuit g pieces) p.mem m' := by
  obtain ⟨divides, room, _⟩ := Geometry.roundup_spec sane
  rw [← size] at divides room
  have positive : 0 < n := by
    simp only [sizeofMemdq] at room
    omega
  rw [holds.tryAlloc_find here size]
  cases search : pieces.find? (fitting n) with
  | none =>
    refine .inl ⟨?_, rfl⟩
    intro x member free
    have small := find?_eq_none.mp search x member
    simpa [fitting, free] using small
  | some x =>
    obtain ⟨fit, l, r, rfl, before⟩ := find?_eq_some_iff_append.mp search
    obtain ⟨free, large⟩ : x.use = .free ∧ n ≤ x.size := by simpa [fitting] using fit
    have inside := holds.tiles.within (x := x) (by simp)
    have placed : x.addr ≠ null := by
      have positive := g.positive
      simp only [null]
      omega
    obtain ⟨m', taken, holds', frame⟩ := holds.takeFrom free divides positive large
    refine .inr ⟨l, x, r, m', rfl, free, large, ?_, ?_, holds', frame⟩
    · intro y member freeY
      have small := before y member
      simpa [fitting, freeY] using small
    · simp only [if_neg placed, taken]

end Ecos
