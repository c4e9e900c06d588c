import Ecos.Memalloc.Status

/-! `malloc` and `calloc` over a variable block pool, for every request that a 32-bit `size_t` can hold: the request
is converted to a `cyg_int32`, and `try_alloc` compares and subtracts sizes in 32 bits with a sign. -/

namespace Ecos

namespace MempoolVariable

/-- The search of `try_alloc`: `while (dq->size < size)`, signed. Without fuel it has not ended. -/
def firstFit32 (mem : Memory) (size : Nat) : Nat → Nat → Option Nat
  | 0, _ => none
  | fuel + 1, dq =>
    let dq := mem.next dq
    if mem.size dq = 0 then some null
    else if signed (mem.size dq) < signed size then firstFit32 mem size fuel dq
    else some dq

/-- The last part of `try_alloc`, with sums and differences in 32 bits. -/
def takeFrom32 (p : MempoolVariable) (size dq : Nat) : MempoolVariable × Nat :=
  let (mem, alloced) :=
    if size = p.mem.size dq then
      let mem := p.mem.setNext (p.mem.prev dq) (p.mem.next dq)
      let mem := mem.setPrev (mem.next dq) (mem.prev dq)
      (mem, dq)
    else
      let mem := p.mem.setSize dq (word (p.mem.size dq + 2 ^ 32 - size))
      (mem, word (dq + mem.size dq))
  let mem := mem.setSize alloced size
  let mem := (mem.setPrev alloced allocMagic).setNext alloced allocMagic
  ({ p with mem, freemem := signed (p.freemem - signed size) }, word (memdq2alloc alloced))

def tryAlloc32 (p : MempoolVariable) (size : Nat) : Option (MempoolVariable × Nat) :=
  if p.bottom = null then some (p, null)
  else
    let size := roundup p.alignment size
    match firstFit32 p.mem size p.osize p.head with
    | none => none
    | some dq => if dq = null then some (p, null) else some (p.takeFrom32 size dq)

/-- `malloc`, with or without `CYGSEM_MEMALLOC_MALLOC_ZERO_RETURNS_NULL`. -/
def malloc (zeroReturnsNull : Bool) (p : MempoolVariable) (size : Nat) : Option (MempoolVariable × Nat) :=
  if zeroReturnsNull ∧ size = 0 then some (p, null) else p.tryAlloc32 size

/-- `memset( s, 0, n )`. Of the last word only the bytes below the end are cleared. -/
def clear (mem : Memory) (s n : Nat) : Memory := fun a =>
  if s ≤ a ∧ a + 4 ≤ s + n then 0
  else if s ≤ a ∧ a < s + n then mem a / 2 ^ (8 * (s + n - a)) * 2 ^ (8 * (s + n - a))
  else mem a

/-- `calloc`: the product is taken in 32 bits. -/
def calloc (zeroReturnsNull : Bool) (p : MempoolVariable) (nmemb size : Nat) : Option (MempoolVariable × Nat) :=
  let realsize := word (nmemb * size)
  (p.malloc zeroReturnsNull realsize).map fun (p, ptr) =>
    if ptr ≠ null then ({ p with mem := clear p.mem ptr realsize }, ptr) else (p, ptr)

end MempoolVariable

open Function List Nat MempoolVariable Memory
variable {g : Geometry} {m : Memory} {l r pieces : List Piece} {x y : Piece} {p : MempoolVariable} {n k s w : Nat}

theorem signed_word_of_small (small : n < 2 ^ 31) : signed n = n := signed_of_small (by omega) (by omega)

theorem signed_word_of_large (large : 2 ^ 31 ≤ n) (below : n < 2 ^ 32) : signed n = n - 2 ^ 32 :=
  signed_of_large (by omega) (by omega)

/-- A request that `roundup` does not carry beyond the positive sizes. -/
def Geometry.Exact (g : Geometry) (s : Nat) : Prop := s + sizeofMemdq + g.alignment ≤ 2 ^ 31

theorem Geometry.alignment_dvd_pow
    (g : Geometry) : g.alignment ∣ 2 ^ 31 ∧ g.alignment ∣ 2 ^ 32 ∧ g.alignment ≤ 2 ^ 30 := by
  obtain ⟨k, small, power⟩ := g.power
  rw [power]
  exact ⟨Nat.pow_dvd_pow 2 (by omega), Nat.pow_dvd_pow 2 (by omega), Nat.pow_le_pow_right (by decide) small⟩

theorem Geometry.roundup_eq (g : Geometry) (s : Nat) : roundup g.alignment s =
    word (s + sizeofMemdq + g.alignment - 1) / g.alignment * g.alignment := by
  obtain ⟨k, small, power⟩ := g.power
  unfold roundup
  rw [power, and_negative (by omega)]

theorem Geometry.roundup_bounds (g : Geometry) (s : Nat) : g.alignment ∣ roundup g.alignment s ∧
    roundup g.alignment s ≤ word (s + sizeofMemdq + g.alignment - 1) ∧
    word (s + sizeofMemdq + g.alignment - 1) < roundup g.alignment s + g.alignment := by
  have positive : 0 < g.alignment := lt_of_lt_of_le (by decide) g.sixteen_le
  have division := div_add_mod' (word (s + sizeofMemdq + g.alignment - 1)) g.alignment
  have remainder := mod_lt (word (s + sizeofMemdq + g.alignment - 1)) positive
  rw [g.roundup_eq]
  exact ⟨dvd_mul_left _ _, by omega, by omega⟩

theorem eq_of_dvd_near {a b c : Nat} (first : c ∣ a) (second : c ∣ b) (below : a < b) (near : b < a + (c + c)) :
    a + c = b := by
  obtain ⟨k, gap⟩ := dvd_sub second first
  have one : k = 1 := by
    have low : k ≠ 0 := by
      rintro rfl
      omega
    by_contra more
    have bound := mul_le_mul_left c (show 2 ≤ k by omega)
    omega
  subst one
  omega

theorem Geometry.Exact.roundup_spec (exact : g.Exact s) : ∃ s', g.Sane s' ∧ s ≤ s' + 1 ∧
    roundup g.alignment s' = roundup g.alignment s ∧
    s + sizeofMemdq ≤ roundup g.alignment s := by
  by_cases sane : g.Sane s
  · exact ⟨s, sane, le_succ s, rfl, (Geometry.roundup_spec sane).2.1⟩
  · obtain ⟨double, _, most⟩ := g.alignment_dvd_pow
    have least := g.sixteen_le
    obtain ⟨divides, le, lt⟩ := g.roundup_bounds s
    obtain ⟨divides', le', lt'⟩ := g.roundup_bounds (s - 1)
    simp only [Exact, Sane, sizeofMemdq, word] at *
    have value := eq_of_dvd_near divides double (by omega) (by omega)
    have value' := eq_of_dvd_near divides' double (by omega) (by omega)
    exact ⟨s - 1, by omega, by omega, by omega, by omega⟩

theorem Geometry.roundup_wraps (wraps : ¬ g.Exact s) (below : s < 2 ^ 32) :
    g.alignment ∣ roundup g.alignment s ∧ roundup g.alignment s < 2 ^ 32 ∧
      signed (roundup g.alignment s) ≤ g.alignment ∧
      signed (roundup g.alignment s) < s + sizeofMemdq := by
  obtain ⟨double, whole, most⟩ := g.alignment_dvd_pow
  have least := g.sixteen_le
  obtain ⟨divides, le, lt⟩ := g.roundup_bounds s
  generalize roundup g.alignment s = r at *
  simp only [Exact, sizeofMemdq, word] at *
  refine ⟨divides, by omega, ?_⟩
  by_cases carry : s + 12 + g.alignment - 1 < 2 ^ 32
  · have large : 2 ^ 31 ≤ r := by
      by_contra small
      have near := eq_of_dvd_near divides double (by omega) (by omega)
      omega
    rw [signed_word_of_large large (by omega)]
    omega
  · have small : r ≤ g.alignment := by
      obtain ⟨c, rfl⟩ := divides
      by_contra more
      have twice : 2 ≤ c := by
        by_contra one
        have low : c ≤ 1 := by omega
        have bound := mul_le_mul_left g.alignment low
        omega
      have bound := mul_le_mul_left g.alignment twice
      omega
    rw [signed_word_of_small (by omega)]
    omega

/-- The free block that the search stops at, with the request as a signed number. -/
def fitting32 (n : Nat) (x : Piece) : Bool := decide (x.use = .free ∧ signed n ≤ x.size)

theorem Holds.firstFit32 {fuel : Nat} (holds : Holds g m (l ++ r)) (enough : (freeAddrs r).length < fuel) :
    MempoolVariable.firstFit32 m n fuel (freeBefore g l) =
      some ((r.find? (fitting32 n)).elim null Piece.addr) := by
  refine holds.walk enough (P := fun fuel dq r => MempoolVariable.firstFit32 m n fuel dq =
    some ((r.find? (fitting32 n)).elim null Piece.addr)) (fun fuel dq last => ?_) (fun fuel dq x r busy rest => ?_)
    fun fuel dq x r free small leads size nonzero rest => ?_
  · simp [MempoolVariable.firstFit32, last]
  · rw [rest, find?_cons_of_neg (by simp [fitting32, busy])]
  · simp only [MempoolVariable.firstFit32, leads, size, if_neg nonzero, signed_word_of_small small]
    by_cases large : signed n ≤ x.size
    · rw [if_neg (by omega), find?_cons_of_pos (by simp [fitting32, free, large])]
      rfl
    · rw [if_pos (by omega), rest, find?_cons_of_neg (by simp [fitting32, large])]

theorem Holds.tryAlloc32_find (holds : Holds g p.mem pieces) (here : p.At g)
    (size : n = roundup g.alignment s) : p.tryAlloc32 s = match pieces.find? (fitting32 n) with
      | none => some (p, null)
      | some x => if x.addr = null then some (p, null) else some (p.takeFrom32 n x.addr) := by
  have found := holds.firstFit32 (l := []) (n := n) (holds.enough here)
  rw [freeBefore_nil, ← here.head] at found
  have nonnull : p.bottom ≠ null := by
    rw [here.bottom]
    exact Nat.pos_iff_ne_zero.mp g.positive
  unfold tryAlloc32
  simp only [if_neg nonnull, here.alignment, ← size, found]
  cases pieces.find? (fitting32 n) <;> rfl

theorem Holds.addr_ne_null (holds : Holds g m pieces) (member : x ∈ pieces) : x.addr ≠ null := by
  have within := holds.tiles.within member
  have positive := g.positive
  simp only [null]
  omega

theorem Holds.takeFrom32_eq (holds : Holds g p.mem (l ++ x :: r)) (freemem : p.freemem = freeBytes (l ++ x :: r))
    (free : x.use = .free) (divides : g.alignment ∣ n) (positive : 0 < n) (large : n ≤ x.size) :
    p.takeFrom32 n x.addr = p.takeFrom n x.addr := by
  have member : x ∈ l ++ x :: r := by simp
  have within := holds.tiles.within member
  have small := g.small
  have bounded := g.bounded
  have least := g.sixteen_le
  have le := le_of_dvd positive divides
  have sizeX := holds.sizes x member
  have bytes := freeBytes_le holds.tiles
  have rest : word (x.size + 2 ^ 32 - n) = x.size - n := by
    unfold word
    omega
  have sum : signed (p.freemem - signed n) = p.freemem - n := by
    rw [signed_word_of_small (by omega), freemem]
    exact signed_of_small (by omega) (by omega)
  have place : word (x.addr + (x.size - n)) = x.addr + (x.size - n) := mod_eq_of_lt (by omega)
  have pointer : word (x.addr + (x.size - n) + sizeofMemdq) = x.addr + (x.size - n) + sizeofMemdq :=
    mod_eq_of_lt (by simp only [sizeofMemdq]; omega)
  have whole : n = x.size → word (x.addr + sizeofMemdq) = x.addr + sizeofMemdq := fun same =>
    mod_eq_of_lt (by simp only [sizeofMemdq]; omega)
  unfold MempoolVariable.takeFrom32 MempoolVariable.takeFrom
  simp only [sizeX, sum, rest, memdq2alloc]
  split
  · next same => simp only [whole same]
  · simp only [size_setSize, if_true, place, pointer]

theorem Holds.tryAlloc32_eq (holds : Holds g p.mem pieces) (here : p.At g) (freemem : p.freemem = freeBytes pieces)
    (sane : g.Sane k) (same : roundup g.alignment k = roundup g.alignment s) :
    p.tryAlloc32 s = p.tryAlloc k := by
  obtain ⟨divides, room, high⟩ := Geometry.roundup_spec sane
  unfold Geometry.Sane at sane
  simp only [sizeofMemdq] at room high sane
  rw [holds.tryAlloc32_find here same, holds.tryAlloc_find here rfl]
  generalize roundup g.alignment k = n at *
  have fit : fitting32 n = fitting n := by
    funext x
    unfold fitting32 fitting
    rw [signed_word_of_small (by omega)]
    exact decide_eq_decide.mpr (and_congr_right fun _ => Int.ofNat_le)
  rw [fit]
  cases search : pieces.find? (fitting n) with
  | none => rfl
  | some x =>
    obtain ⟨fits, l, r, rfl, _⟩ := find?_eq_some_iff_append.mp search
    obtain ⟨free, large⟩ : x.use = .free ∧ n ≤ x.size := by simpa [fitting] using fits
    simp only [holds.takeFrom32_eq freemem free divides (by omega) large]

theorem Holds.tryAlloc32_first (holds : Holds g p.mem pieces) (here : p.At g) (size : n = roundup g.alignment s)
    (low : signed n ≤ g.alignment) :
    (freeAddrs pieces = [] ∧ p.tryAlloc32 s = some (p, null)) ∨
    ∃ l x r, pieces = l ++ x :: r ∧ freeAddrs l = [] ∧ x.use = .free ∧
      p.tryAlloc32 s = some (p.takeFrom32 n x.addr) := by
  have fit : ∀ x ∈ pieces, fitting32 n x = decide (x.use = .free) := by
    intro x member
    have room := alignment_le holds.tiles holds.grid member
    exact decide_eq_decide.mpr (and_iff_left (by omega))
  rw [holds.tryAlloc32_find here size]
  cases search : pieces.find? (fitting32 n) with
  | none =>
    refine .inl ⟨?_, rfl⟩
    unfold freeAddrs
    rw [filter_eq_nil_iff.mpr, map_nil]
    intro x member
    rw [← fit x member]
    exact find?_eq_none.mp search x member
  | some x =>
    obtain ⟨fits, l, r, rfl, before⟩ := find?_eq_some_iff_append.mp search
    refine .inr ⟨l, x, r, rfl, ?_, ?_, ?_⟩
    · unfold freeAddrs
      rw [filter_eq_nil_iff.mpr, map_nil]
      intro y member
      have other := before y member
      rw [fit y (by simp [member])] at other
      simpa using other
    · rw [fit x (by simp)] at fits
      simpa using fits
    · simp only [if_neg (holds.addr_ne_null (show x ∈ l ++ x :: r by simp))]

theorem dvd_word {a z c : Nat} (whole : a ∣ 2 ^ 32) (divides : a ∣ z + c) : a ∣ word z + c := by
  have split := Nat.div_add_mod z (2 ^ 32)
  have multiple : a ∣ 2 ^ 32 * (z / 2 ^ 32) := Dvd.dvd.mul_right whole _
  refine (Nat.dvd_add_right multiple).mp ?_
  unfold word
  rwa [← add_assoc, split]

theorem le_of_aligned {a z : Nat} (large : 16 ≤ a) (whole : a ∣ 2 ^ 32) (divides : a ∣ z + sizeofMemdq)
    (below : z < 2 ^ 32) : z + sizeofMemdq ≤ 2 ^ 32 := by
  by_contra beyond
  have gap := dvd_sub divides whole
  have le := le_of_dvd (by omega) gap
  simp only [sizeofMemdq] at *
  omega

/-- Where `try_alloc` puts the allocation that it takes from the block `x`. -/
def allocedAt (n : Nat) (x : Piece) : Nat := if n = x.size then x.addr else word (x.addr + word (x.size + 2 ^ 32 - n))

section Wraps
variable (holds : Holds g p.mem (l ++ x :: r)) (divides : g.alignment ∣ n) (below : n < 2 ^ 32)
include holds divides below

theorem Holds.takeFrom32_pointer : (p.takeFrom32 n x.addr).2 = word (allocedAt n x + sizeofMemdq) ∧
    (p.takeFrom32 n x.addr).1.mem.size (allocedAt n x) = n ∧ allocedAt n x + sizeofMemdq ≤ 2 ^ 32 := by
  have member : x ∈ l ++ x :: r := by simp
  have sizeX := holds.sizes x member
  obtain ⟨_, whole, most⟩ := g.alignment_dvd_pow
  have within := holds.tiles.within member
  have bounded := g.bounded
  have header := g.sixteen_le
  have grid := (holds.tiles.dvd g.anchored holds.grid).1 x member
  have alloced : allocedAt n x < 2 ^ 32 := by
    unfold allocedAt
    split
    · omega
    · exact mod_lt _ (by decide)
  have aligned : g.alignment ∣ allocedAt n x + sizeofMemdq := by
    unfold allocedAt
    split
    · exact grid
    · refine dvd_word whole ?_
      have difference : g.alignment ∣ x.size + 2 ^ 32 - n :=
        Nat.dvd_sub (Nat.dvd_add (holds.grid x member) whole) divides
      have inner : g.alignment ∣ word (x.size + 2 ^ 32 - n) + 0 := dvd_word whole difference
      have sum := Nat.dvd_add inner grid
      rwa [show word (x.size + 2 ^ 32 - n) + 0 + (x.addr + sizeofMemdq) =
        x.addr + word (x.size + 2 ^ 32 - n) + sizeofMemdq by omega] at sum
  refine ⟨?_, ?_, ?_⟩
  · simp only [takeFrom32, memdq2alloc, sizeX, allocedAt]
    split
    · rfl
    · simp only [size_setSize, if_true]
  · simp only [takeFrom32, sizeX, allocedAt]
    split
    · simp only [size_setNext (.inl rfl), size_setPrev (.inl rfl), size_setSize, if_true]
    · simp only [size_setNext (.inl rfl), size_setPrev (.inl rfl), size_setSize, if_true]
  · exact le_of_aligned header whole aligned alloced

theorem Holds.takeFrom32_null : (p.takeFrom32 n x.addr).2 = null ↔ word (x.addr + x.size + sizeofMemdq) = n := by
  obtain ⟨pointer, _, _⟩ := holds.takeFrom32_pointer divides below
  have member : x ∈ l ++ x :: r := by simp
  rw [pointer]
  unfold allocedAt word null sizeofMemdq
  split <;> omega

end Wraps

namespace MempoolVariable

/-- The request is rounded up to zero, the first free block ends where the address space does, and the header that is
written behind it is there already. -/
def Corner (p : MempoolVariable) (size : Nat) : Prop :=
  let dq := p.mem.next p.head
  let behind := dq + p.mem.size dq
  roundup p.alignment size = 0 ∧ word (behind + sizeofMemdq) = 0 ∧ p.mem.size behind = 0 ∧
    p.mem.prev behind = allocMagic ∧ p.mem.next behind = allocMagic

instance {p : MempoolVariable} {size : Nat} : Decidable (p.Corner size) := inferInstanceAs (Decidable (_ ∧ _))

end MempoolVariable

/-- A request that wraps and gets NULL has left everything as it was just in the corner. -/
theorem Holds.takeFrom32_unchanged (holds : Holds g p.mem (l ++ x :: r)) (divides : g.alignment ∣ n)
    (below : n < 2 ^ 32)
    (low : signed n ≤ g.alignment) (freemem : 0 ≤ p.freemem ∧ p.freemem < 2 ^ 31) :
    (p.takeFrom32 n x.addr).2 = null ∧ (p.takeFrom32 n x.addr).1 = p ↔
      n = 0 ∧ word (x.addr + x.size + sizeofMemdq) = 0 ∧ p.mem.size (x.addr + x.size) = 0 ∧
        p.mem.prev (x.addr + x.size) = allocMagic ∧ p.mem.next (x.addr + x.size) = allocMagic := by
  have member : x ∈ l ++ x :: r := by simp
  have sizeX := holds.sizes x member
  have within := holds.tiles.within member
  have small := holds.small member
  have bounded := g.bounded
  have room := alignment_le holds.tiles holds.grid member
  have header := g.sixteen_le
  obtain ⟨_, whole, most⟩ := g.alignment_dvd_pow
  rw [holds.takeFrom32_null divides below]
  by_cases zero : n = 0
  · subst zero
    have same : word (x.size + 2 ^ 32 - 0) = x.size := by
      unfold word
      omega
    have here : p.mem.setSize x.addr x.size = p.mem := by
      rw [← sizeX]
      exact update_eq_self _ _
    have place : word (x.addr + x.size) = x.addr + x.size := mod_eq_of_lt (by omega)
    have sum : signed (p.freemem - signed (0 : Nat)) = p.freemem := by
      rw [signed_word_of_small (n := 0) (by decide)]
      exact (signed_of_small (by omega) (by omega)).trans (Int.sub_zero _)
    generalize behind : x.addr + x.size = e at *
    have value : (p.takeFrom32 0 x.addr).1 =
        { p with mem := ((p.mem.setSize e 0).setPrev e allocMagic).setNext e allocMagic } := by
      simp only [takeFrom32, sizeX, if_neg (show ¬ 0 = x.size by omega), same, here, behind, place,
        sum]
    rw [value]
    refine ⟨fun ⟨ends, unchanged⟩ => ⟨rfl, ends, ?_⟩, fun ⟨_, ends, len, one, two⟩ => ⟨ends, ?_⟩⟩
    · have mem := congrArg mem unchanged
      simp only at mem
      rw [← mem]
      refine ⟨?_, ?_, ?_⟩
      · rw [size_setNext (.inl rfl), size_setPrev (.inl rfl), size_setSize, if_pos rfl]
      · rw [prev_setNext (.inl rfl), prev_setPrev, if_pos rfl]
      · rw [next_setNext, if_pos rfl]
    · have first : p.mem.setSize e 0 = p.mem := by
        rw [← len]
        exact update_eq_self _ _
      have second : p.mem.setPrev e allocMagic = p.mem := by
        rw [← one]
        exact update_eq_self _ _
      have third : p.mem.setNext e allocMagic = p.mem := by
        rw [← two]
        exact update_eq_self _ _
      rw [first, second, third]
  · refine iff_of_false ?_ fun both => zero both.1
    rintro ⟨ends, unchanged⟩
    have positive := Nat.le_of_dvd (Nat.pos_of_ne_zero zero) divides
    have large : 2 ^ 31 ≤ n := by
      by_contra small
      rw [signed_word_of_small (by omega)] at low
      unfold word sizeofMemdq at ends
      omega
    have other : n ≠ x.size := by omega
    have alloced : word (x.addr + word (x.size + 2 ^ 32 - n)) ≠ x.addr := by
      unfold word sizeofMemdq at *
      omega
    have changed : (p.takeFrom32 n x.addr).1.mem.size x.addr = word (x.size + 2 ^ 32 - n) := by
      have place : word (x.addr + word (x.size + 2 ^ 32 - n)) = 2 ^ 32 - sizeofMemdq := by
        unfold word sizeofMemdq at *
        omega
      have last := le_of_aligned header whole (holds.tiles.dvd g.anchored holds.grid).2 bounded
      have clear : Clear (2 ^ 32 - sizeofMemdq) x.addr :=
        .inr (.inr (by simp only [sizeofMemdq] at *; omega))
      simp only [takeFrom32, sizeX, if_neg other, size_setSize, if_true, place]
      rw [size_setNext clear, size_setPrev clear, size_setSize, if_neg (place ▸ alloced.symm),
        size_setSize, if_pos rfl]
    rw [unchanged, sizeX] at changed
    unfold word at changed
    omega

namespace Heap
variable {h : Heap} {e : HeapEvent} {zeroReturnsNull : Bool} {head base size align nmemb : Nat}

/-- The block of the allocation `q` has the bytes asked for, lies in the arena, and overlaps no other allocation. -/
structure Gives (h : Heap) (size : Nat) (q : MempoolVariable × Nat) : Prop where
  room : (size : Int) + sizeofMemdq ≤ signed (q.1.mem.size (MempoolVariable.alloc2memdq q.2))
  inside : h.pool.bottom ≤ MempoolVariable.alloc2memdq q.2 ∧
    MempoolVariable.alloc2memdq q.2 + q.1.mem.size (MempoolVariable.alloc2memdq q.2) ≤ h.pool.top
  apart : ∀ e ∈ h.live, MempoolVariable.alloc2memdq q.2 + q.1.mem.size (MempoolVariable.alloc2memdq q.2) ≤
      MempoolVariable.alloc2memdq e.1 ∨
    MempoolVariable.alloc2memdq e.1 + h.pool.mem.size
      (MempoolVariable.alloc2memdq e.1) ≤ MempoolVariable.alloc2memdq q.2

/-- `malloc` returns NULL and changes nothing, or gives a block. -/
def MallocRight (h : Heap) (size : Nat) (q : MempoolVariable × Nat) : Prop :=
  (q.2 = null ∧ q.1 = h.pool) ∨ (q.2 ≠ null ∧ h.Gives size q)

/-- The request does not overflow when it is rounded up. -/
def Exact (h : Heap) (size : Nat) : Prop := size + sizeofMemdq + h.pool.alignment ≤ 2 ^ 31

instance {size : Nat} : Decidable (h.Exact size) := inferInstanceAs (Decidable (_ ≤ _))

theorem Inv.bytes (inv : Inv g h pieces) : 0 ≤ h.pool.freemem ∧ h.pool.freemem < 2 ^ 31 := by
  have small := g.small
  have within := freeBytes_le inv.holds.tiles
  rw [inv.freemem]
  omega

theorem Inv.gives {q : MempoolVariable × Nat} (inv : Inv g h (l ++ x :: r)) (free : x.use = .free) (large : n ≤ x.size)
    (room : s + sizeofMemdq ≤ n) (pointer : q.2 = x.addr + (x.size - n) + sizeofMemdq)
    (header : q.1.mem.size (x.addr + (x.size - n)) = n) : h.Gives s q := by
  have member : x ∈ l ++ x :: r := by simp
  have within := inv.holds.tiles.within member
  have small := inv.holds.small member
  have here : alloc2memdq q.2 = x.addr + (x.size - n) := by
    rw [pointer]
    exact Nat.add_sub_cancel ..
  refine ⟨?_, ?_, fun e held => ?_⟩
  · rw [here, header, signed_word_of_small (by omega)]
    omega
  · rw [here, header, inv.here.bottom, inv.here.top]
    omega
  · obtain ⟨l', y, r', split, live, same⟩ := inv.held (mem_map_of_mem held)
    have inY : y ∈ l ++ x :: r := split ▸ by simp
    have there : alloc2memdq e.1 = y.addr := by
      rw [same]
      exact Nat.add_sub_cancel ..
    rw [here, header, there, inv.holds.sizes y inY]
    rcases inv.holds.tiles.apart member inY with same | before | after
    · subst same
      exact absurd (live.symm.trans free) (by simp)
    · exact .inl (by omega)
    · exact .inr (by omega)

theorem Inv.relabel {live : List (Nat × Nat)} {ptr s' : Nat} {q : MempoolVariable}
    (inv : Inv g ⟨q, (ptr, s') :: live⟩ pieces)
    (room : s + sizeofMemdq ≤ q.mem.size (alloc2memdq ptr)) : Inv g ⟨q, (ptr, s) :: live⟩ pieces where
  here := inv.here
  holds := inv.holds
  coalesced := inv.coalesced
  settled := inv.settled
  freemem := inv.freemem
  owns := by
    refine ⟨inv.owns.pointers, fun e member y inY same => ?_⟩
    rcases mem_cons.mp member with rfl | old
    · have header : alloc2memdq ptr = y.addr := by
        rw [show ptr = y.addr + sizeofMemdq from same]
        exact Nat.add_sub_cancel ..
      rw [header, inv.holds.sizes y (mem_usedPieces.mp inY).1] at room
      exact room
    · exact inv.owns.room e (mem_cons_of_mem _ old) y inY same

theorem Inv.exact (inv : Inv g h pieces) (exact : h.Exact s) :
    ((∀ x ∈ pieces, x.use = .free → x.size < roundup h.pool.alignment s) ∧
      h.pool.tryAlloc32 s = some (h.pool, null)) ∨
    ∃ q, h.pool.tryAlloc32 s = some q ∧ q.2 ≠ null ∧ h.Gives s q ∧
      q.1.mem.size (alloc2memdq q.2) = roundup h.pool.alignment s ∧
      (∃ pieces', Inv g ⟨q.1, (q.2, s) :: h.live⟩ pieces') ∧
      ∃ x ∈ pieces, x.use = .free ∧ roundup h.pool.alignment s ≤ x.size := by
  unfold Exact at exact
  rw [inv.here.alignment] at exact ⊢
  obtain ⟨s', sane, near, same, room⟩ := Geometry.Exact.roundup_spec (g := g) exact
  rw [inv.holds.tryAlloc32_eq inv.here inv.freemem sane same]
  obtain ⟨pieces', inv', _⟩ := inv.tryAlloc ((sane_iff inv.here).mpr sane)
  rcases inv.holds.tryAlloc inv.here sane same.symm with ⟨none, fails⟩ |
    ⟨l, x, r, m', rfl, free, large, _, takes, holds', _⟩
  · exact .inl ⟨none, fails⟩
  · generalize roundup g.alignment s = n at *
    have cut : (⟨x.addr + (x.size - n), n, .live⟩ : Piece) ∈ l ++ carve n x ++ r := by
      unfold carve
      split
      · next whole => simp [whole]
      · simp
    have header : m'.size (x.addr + (x.size - n)) = n := holds'.sizes _ cut
    have back : alloc2memdq (x.addr + (x.size - n) + sizeofMemdq) = x.addr + (x.size - n) :=
      Nat.add_sub_cancel ..
    have placed : x.addr + (x.size - n) + sizeofMemdq ≠ null := succ_ne_zero _
    have state : h.act (.tryAlloc s') = ⟨{ h.pool with mem := m', freemem := h.pool.freemem - n },
        (x.addr + (x.size - n) + sizeofMemdq, s') :: h.live⟩ := by
      simp [act, takes, placed]
    rw [state] at inv'
    refine .inr ⟨_, takes, placed, inv.gives free large room rfl header, ?_, ⟨pieces', ?_⟩, x, by simp, free, large⟩
    · rw [back]
      exact header
    · refine inv'.relabel ?_
      rw [back]
      exact room.trans_eq header.symm

section Wraps
variable (inv : Inv g h pieces) (beyond : ¬ h.Exact s) (below : s < 2 ^ 32)
include inv beyond below

theorem Inv.wraps : (h.pool.freemem = 0 ∧ freeAddrs pieces = [] ∧ h.pool.tryAlloc32 s = some (h.pool, null)) ∨
    ∃ q, h.pool.tryAlloc32 s = some q ∧ h.pool.freemem ≠ 0 ∧
      (∃ x ∈ pieces, x.use = .free ∧ signed (roundup h.pool.alignment s) ≤ x.size) ∧
        (q.2 ≠ null → ∀ k, s ≤ k → ¬ h.Gives k q) ∧
      (q.2 = null ↔ word (h.pool.mem.next h.pool.head + h.pool.mem.size (h.pool.mem.next h.pool.head) + sizeofMemdq) =
        roundup h.pool.alignment s) ∧
      (q.2 = null ∧ q.1 = h.pool ↔ h.pool.Corner s) := by
  unfold Exact at beyond
  rw [inv.here.alignment] at beyond ⊢
  obtain ⟨divides, small, low, short⟩ := Geometry.roundup_wraps (g := g) beyond below
  unfold Corner
  rw [inv.here.alignment]
  have first := inv.holds.tryAlloc32_first inv.here (s := s) rfl low
  generalize roundup g.alignment s = n at *
  rcases first with ⟨none, fails⟩ | ⟨l, x, r, rfl, before, free, takes⟩
  · refine .inl ⟨?_, none, fails⟩
    rw [inv.freemem]
    have empty : pieces.filter (·.use = .free) = [] := map_eq_nil_iff.mp none
    simp [freeBytes, empty]
  · have member : x ∈ l ++ x :: r := by simp
    have sizeX := inv.holds.sizes x member
    have positive := (inv.holds.tiles.within member).2.1
    obtain ⟨pointer, header, last⟩ := inv.holds.takeFrom32_pointer divides small
    have leads : h.pool.mem.next h.pool.head = x.addr := by
      have after := (inv.holds.around free).2.2.1
      have head : freeBefore g l = g.head := by simp [freeBefore, before]
      rw [inv.here.head, ← head]
      exact after
    have bytes : h.pool.freemem ≠ 0 := by
      rw [inv.freemem, freeBytes_append, freeBytes_cons, if_pos free]
      omega
    simp only [leads, sizeX]
    have room := alignment_le inv.holds.tiles inv.holds.grid member
    refine .inr ⟨_, takes, bytes, ⟨x, member, free, by omega⟩, ?_, inv.holds.takeFrom32_null divides small,
      inv.holds.takeFrom32_unchanged divides small low inv.bytes⟩
    intro placed k more gives
    have here : alloc2memdq (h.pool.takeFrom32 n x.addr).2 = allocedAt n x := by
      rw [pointer] at placed ⊢
      unfold alloc2memdq
      unfold word null sizeofMemdq at *
      omega
    have room := gives.room
    rw [here, header] at room
    omega

end Wraps

/-- What `malloc` is asked for in a run that keeps the pool: exact requests, and others where they do no harm. -/
def Harmless (h : Heap) (size : Nat) : Prop := h.Exact size ∨ h.pool.freemem = 0 ∨ h.pool.Corner size

instance {size : Nat} : Decidable (h.Harmless size) := inferInstanceAs (Decidable (_ ∨ _))

/-- The events of a heap with `malloc` for `try_alloc`. -/
def mallocAct (zeroReturnsNull : Bool) (h : Heap) : HeapEvent → Heap
  | .tryAlloc size =>
    match h.pool.malloc zeroReturnsNull size with
    | none => h
    | some (pool, ptr) => { pool, live := if ptr = null then h.live else (ptr, size) :: h.live }
  | e => h.act e

def MallocOk (h : Heap) : HeapEvent → Prop
  | .tryAlloc size => size < 2 ^ 32 ∧ h.Harmless size
  | e => h.Ok e ∧ h.Plain e

def mallocRuns (zeroReturnsNull : Bool) (m : Memory) (head base size align : Nat) : Machine Heap :=
  Machine.guided (· = ⟨MempoolVariable.construct m head base size align, []⟩) MallocOk (mallocAct zeroReturnsNull)

theorem Inv.tryAlloc32_kept (inv : Inv g h pieces) (below : s < 2 ^ 32) (harmless : h.Harmless s) :
    ∃ q, h.pool.tryAlloc32 s = some q ∧
      ∃ pieces', Inv g { pool := q.1, live := if q.2 = null then h.live else (q.2, s) :: h.live } pieces' := by
  by_cases exact : h.Exact s
  · rcases inv.exact exact with ⟨_, fails⟩ | ⟨q, result, placed, _, _, kept, _⟩
    · exact ⟨_, fails, pieces, inv⟩
    · refine ⟨q, result, ?_⟩
      rw [if_neg placed]
      exact kept
  · rcases inv.wraps exact below with ⟨_, _, fails⟩ | ⟨q, result, bytes, _, _, _, unchanged⟩
    · exact ⟨_, fails, pieces, inv⟩
    · obtain ⟨none, same⟩ := unchanged.mpr ((harmless.resolve_left exact).resolve_left bytes)
      refine ⟨q, result, pieces, ?_⟩
      rw [none, same, if_pos rfl]
      exact inv

theorem Inv.mallocAct (inv : Inv g h pieces) (ok : h.MallocOk e) :
    ∃ pieces', Inv g (mallocAct zeroReturnsNull h e) pieces' := by
  cases e with
  | tryAlloc s =>
    obtain ⟨q, result, kept⟩ := inv.tryAlloc32_kept ok.1 ok.2
    unfold Heap.mallocAct malloc
    by_cases zero : zeroReturnsNull ∧ s = 0
    · simp only [if_pos zero, if_true]
      exact ⟨pieces, inv⟩
    · simp only [if_neg zero, result]
      exact kept
  | free _ _ => exact inv.step_plain ok.1 ok.2
  | resizeAlloc _ _ => exact inv.step_plain ok.1 ok.2
  | store _ _ _ => exact inv.step_plain ok.1 ok.2

theorem reach_malloc (accepts : Accepts head base size align)
    (reach : (mallocRuns zeroReturnsNull m head base size align).Reach h) : ∃ pieces,
      Inv accepts.geometry h pieces := by
  refine reach.kept (P := fun h => ∃ pieces, Inv accepts.geometry h pieces) ?_ ?_
  · rintro h rfl
    exact ⟨_, first_inv accepts⟩
  · rintro h e ⟨pieces, inv⟩ ok
    exact inv.mallocAct ok

/-- `calloc` returns a block only if that has all the bytes of the product, as `malloc` has left it. -/
def CallocRight (h : Heap) (zeroReturnsNull : Bool) (nmemb size : Nat) (q : MempoolVariable × Nat) : Prop :=
  ∃ block, h.pool.malloc zeroReturnsNull (word (nmemb * size)) = some block ∧ block.2 = q.2 ∧
    (q.2 ≠ null → h.Gives (nmemb * size) block)

/-- `malloc` finds no block for the request, or its arithmetic ends up at NULL. -/
def Declined (h : Heap) (zeroReturnsNull : Bool) (free : List Nat) (size : Nat) : Prop :=
  (zeroReturnsNull ∧ size = 0) ∨
  (∀ dq ∈ free, signed (h.pool.mem.size dq) < signed (MempoolVariable.roundup h.pool.alignment size)) ∨
  ¬ h.Exact size ∧ word (h.pool.mem.next h.pool.head + h.pool.mem.size (h.pool.mem.next h.pool.head) + sizeofMemdq) =
    MempoolVariable.roundup h.pool.alignment size

theorem Inv.exact_zero (inv : Inv g h pieces) : h.Exact 0 := by
  obtain ⟨_, _, most⟩ := g.alignment_dvd_pow
  unfold Exact sizeofMemdq
  rw [inv.here.alignment]
  omega

theorem Inv.malloc_iff (inv : Inv g h pieces) (below : n < 2 ^ 32) :
    ∃ q, h.pool.malloc zeroReturnsNull n = some q ∧ (h.MallocRight n q ↔ h.Harmless n) := by
  unfold malloc
  by_cases zero : zeroReturnsNull ∧ n = 0
  · refine ⟨_, if_pos zero, iff_of_true (.inl ⟨rfl, rfl⟩) (.inl ?_)⟩
    rw [zero.2]
    exact inv.exact_zero
  rw [if_neg zero]
  by_cases exact : h.Exact n
  · rcases inv.exact exact with ⟨_, fails⟩ | ⟨q, result, placed, gives, _⟩
    · exact ⟨_, fails, iff_of_true (.inl ⟨rfl, rfl⟩) (.inl exact)⟩
    · exact ⟨q, result, iff_of_true (.inr ⟨placed, gives⟩) (.inl exact)⟩
  · rcases inv.wraps exact below with ⟨empty, _, fails⟩ | ⟨q, result, bytes, _, small, _, unchanged⟩
    · exact ⟨_, fails, iff_of_true (.inl ⟨rfl, rfl⟩) (.inr (.inl empty))⟩
    · refine ⟨q, result, ?_⟩
      have harmless : h.Harmless n ↔ h.pool.Corner n :=
        ⟨fun harmless => (harmless.resolve_left exact).resolve_left bytes, fun corner => .inr (.inr corner)⟩
      rw [harmless, ← unchanged]
      exact or_iff_left fun ⟨placed, gives⟩ => small placed n le_rfl gives

/-- Whether `malloc` gives a block of `k` bytes for what 32 bits leave of `k`. -/
theorem Inv.calloc_iff (inv : Inv g h pieces) (k : Nat) : ∃ block, h.pool.malloc zeroReturnsNull (word k) = some block ∧
    ((block.2 ≠ null → h.Gives k block) ↔ h.Exact k ∨ h.Declined zeroReturnsNull (freeAddrs pieces) (word k)) := by
  have below : word k < 2 ^ 32 := mod_lt _ (by decide)
  have whole : h.Exact k → word k = k := fun exact => mod_eq_of_lt (by
    unfold Exact at exact
    omega)
  have sizes : ∀ x ∈ pieces, x.use = .free → x.addr ∈ freeAddrs pieces ∧ signed (h.pool.mem.size x.addr) = x.size := by
    intro x member free
    rw [inv.holds.sizes x member]
    exact ⟨mem_freeAddrs.mpr ⟨x, member, free, rfl⟩, signed_word_of_small (inv.holds.small member)⟩
  unfold malloc
  by_cases zero : zeroReturnsNull ∧ word k = 0
  · exact ⟨_, if_pos zero, iff_of_true (fun placed => absurd rfl placed) (.inr (.inl zero))⟩
  rw [if_neg zero]
  by_cases exact : h.Exact (word k)
  · have small : roundup h.pool.alignment (word k) < 2 ^ 31 := by
      have exact' := exact
      unfold Exact at exact'
      rw [inv.here.alignment] at exact' ⊢
      obtain ⟨s', sane, _, same, _⟩ := Geometry.Exact.roundup_spec (g := g) exact'
      have high := (Geometry.roundup_spec sane).2.2
      unfold Geometry.Sane at sane
      omega
    rcases inv.exact exact with ⟨none, fails⟩ | ⟨q, result, placed, gives, header, _, x, member, free, large⟩
    · refine ⟨_, fails, iff_of_true (fun placed => absurd rfl placed) (.inr (.inr (.inl ?_)))⟩
      intro dq inFree
      obtain ⟨x, member, free, rfl⟩ := mem_freeAddrs.mp inFree
      rw [(sizes x member free).2, signed_word_of_small small]
      exact Int.ofNat_lt.mpr (none x member free)
    · refine ⟨q, result, ?_⟩
      have accepted : ¬ h.Declined zeroReturnsNull (freeAddrs pieces) (word k) := by
        rintro (zero' | none | ⟨wraps, _⟩)
        · exact zero zero'
        · have less := none x.addr (sizes x member free).1
          rw [(sizes x member free).2, signed_word_of_small small] at less
          omega
        · exact wraps exact
      rw [or_iff_left accepted]
      constructor
      · intro given
        have room := (given placed).room
        rw [header, signed_word_of_small small] at room
        have same : word k = k := mod_eq_of_lt (by omega)
        rwa [same] at exact
      · intro exact' _
        rwa [whole exact'] at gives
  · have inexact : ¬ h.Exact k := fun exact' => exact (by rwa [whole exact'])
    rw [or_iff_right inexact]
    rcases inv.wraps exact below with ⟨_, none, fails⟩ | ⟨q, result, _, ⟨x, member, free, low⟩, short, ends, _⟩
    · refine ⟨_, fails, iff_of_true (fun placed => absurd rfl placed) (.inr (.inl ?_))⟩
      rw [none]
      simp
    · refine ⟨q, result, ?_⟩
      have declined : h.Declined zeroReturnsNull (freeAddrs pieces) (word k) ↔ q.2 = null := by
        rw [ends]
        refine ⟨?_, fun value => .inr (.inr ⟨exact, value⟩)⟩
        rintro (zero' | none | ⟨_, value⟩)
        · exact absurd zero' zero
        · have less := none x.addr (sizes x member free).1
          rw [(sizes x member free).2] at less
          omega
        · exact value
      rw [declined]
      constructor
      · intro given
        by_contra placed
        exact short placed k (mod_le _ _) (given placed)
      · exact fun none placed => absurd none placed

/-- In every run without a harmful request, `malloc` is right for a request just if it is harmless, and `calloc` just
if the product is an exact request or `malloc` declines what 32 bits leave of it. -/
theorem requests_safe_iff (accepts : Accepts head base size align)
    (reach : (mallocRuns zeroReturnsNull m head base size align).Reach h) : ∃ blocks free, h.Sound blocks free ∧
      (∀ n < 2 ^ 32, ∃ q, h.pool.malloc zeroReturnsNull n = some q ∧ (h.MallocRight n q ↔ h.Harmless n)) ∧
      ∀ nmemb size, ∃ q, h.pool.calloc zeroReturnsNull nmemb size = some q ∧
        (h.CallocRight zeroReturnsNull nmemb size q ↔
          h.Exact (nmemb * size) ∨ h.Declined zeroReturnsNull free (word (nmemb * size))) := by
  obtain ⟨pieces, inv⟩ := reach_malloc accepts reach
  refine ⟨_, _, inv.sound, fun n below => inv.malloc_iff below, fun nmemb size => ?_⟩
  obtain ⟨block, result, right⟩ : ∃ block, h.pool.malloc zeroReturnsNull (word (nmemb * size)) = some block ∧ _ :=
    inv.calloc_iff (nmemb * size)
  obtain ⟨q, cleared, pointer⟩ : ∃ q, h.pool.calloc zeroReturnsNull nmemb size = some q ∧ q.2 = block.2 := by
    simp only [MempoolVariable.calloc, result, Option.map_some]
    refine ⟨_, rfl, ?_⟩
    split <;> rfl
  refine ⟨q, cleared, ?_⟩
  rw [← right]
  unfold CallocRight
  rw [pointer]
  refine ⟨?_, fun given => ⟨block, result, rfl, given⟩⟩
  rintro ⟨block', result', -, given⟩
  obtain rfl := Option.some.inj (result.symm.trans result')
  exact given

/-- The page after one `malloc`. -/
def pageUsed : Heap := mallocAct false page (.tryAlloc 100)

theorem requests_safe_page : (∃ q, pageUsed.pool.malloc false 50 = some q ∧ pageUsed.MallocRight 50 q) ∧
    ∃ q, pageUsed.pool.calloc false 4 25 = some q ∧ pageUsed.CallocRight false 4 25 q := by
  have start : (mallocRuns false lookalike 0x1000 0x80100000 0x1000 8).Reach page := .start rfl
  have first := start.next ⟨.tryAlloc 100, ⟨by decide, .inl (by decide)⟩, rfl⟩
  obtain ⟨_, _, _, mallocs, callocs⟩ := requests_safe_iff accepts_page first
  obtain ⟨q, result, right⟩ := mallocs 50 (by decide)
  obtain ⟨q', result', right'⟩ := callocs 4 25
  exact ⟨⟨q, result, right.mpr (.inl (by decide))⟩, q', result', right'.mpr (.inl (by decide))⟩

/-- A request of almost 4 GiB is answered with a block of 16 bytes, header included. -/
theorem huge_request_granted : ¬ ∀ (zeroReturnsNull : Bool) (m : Memory) (head base size align : Nat) (h : Heap),
    Accepts head base size align → (mallocRuns zeroReturnsNull m head base size align).Reach h →
    (∀ n < 2 ^ 32, ∃ q, h.pool.malloc zeroReturnsNull n = some q ∧ h.MallocRight n q) ∧
      ∀ nmemb size, ∃ q, h.pool.calloc zeroReturnsNull nmemb size = some q ∧
        h.CallocRight zeroReturnsNull nmemb size q := by
  intro claim
  have start : (mallocRuns false lookalike 0x1000 0x80100000 0x1000 8).Reach page := .start rfl
  obtain ⟨q, result, right⟩ := (claim _ _ _ _ _ _ _ accepts_page start).1 0xfffffff8 (by decide)
  have given : (page.pool.malloc false 0xfffffff8).map (fun q => (q.2, q.1.mem.size (alloc2memdq q.2))) =
      some (0x80100ff0, 16) := by decide
  rw [result, Option.map_some, Option.some_inj, Prod.mk.injEq] at given
  rcases right with ⟨none, _⟩ | ⟨_, gives⟩
  · rw [none] at given
    exact absurd given.1 (by decide)
  · have room := gives.room
    rw [given.2] at room
    exact absurd room (by decide)

end Heap

end Ecos
