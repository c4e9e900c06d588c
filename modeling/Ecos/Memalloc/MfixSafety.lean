import Mathlib.Data.List.Perm.Subperm
import Ecos.Lib.Circular
import Ecos.Lib.Machine
import Ecos.Memalloc.Mfix

namespace Ecos
open Function MempoolFixed Circular List

/-- A fixed block pool and the blocks its callers hold. -/
structure FixedHeap where
  pool : MempoolFixed
  live : List Nat

inductive FixedEvent
  | tryAlloc
  | free (ptr : Nat)

namespace FixedHeap
variable {h : FixedHeap} {e : FixedEvent} {base size blocksize b i j k w ff fuel ptr : Nat} {old : Nat → BitVec 32}

def act (h : FixedHeap) : FixedEvent → FixedHeap
  | .tryAlloc =>
    match h.pool.tryAlloc with
    | none => h
    | some (pool, ptr) => { pool, live := if ptr = null then h.live else ptr :: h.live }
  | .free ptr =>
    let (pool, done) := h.pool.free ptr
    { pool, live := if done then h.live.filter (· ≠ ptr) else h.live }

/-- The address of a block. -/
def address (p : MempoolFixed) (b : Nat) : Nat := p.mempool + b * p.blocksize

/-- The words of the bitmap. -/
def words (p : MempoolFixed) : Nat := (p.numblocks + 31) / 32

/-- Where the parts of a pool lie. -/
structure Fits (base size : Nat) (p : MempoolFixed) : Prop where
  maptop : p.maptop = words p
  bitmap : base + 4 * words p ≤ p.mempool
  blocks : p.mempool + p.numblocks * p.blocksize = base + size

/-- The bits, the count and the blocks that are held. -/
structure Inv (base size : Nat) (h : FixedHeap) : Prop where
  fits : Fits base size h.pool
  positive : 0 < h.pool.blocksize
  nonempty : 1 ≤ h.pool.numblocks
  top : h.pool.top = base + size
  bounded : base + size < 2 ^ 32
  firstfree : h.pool.firstfree < words h.pool
  padding : ∀ b, h.pool.numblocks ≤ b → b < 32 * words h.pool → h.pool.bit b = true
  bits : ∀ b < h.pool.numblocks, h.pool.bit b = true ↔ address h.pool b ∈ h.live
  blocks : ∀ a ∈ h.live, ∃ b < h.pool.numblocks, a = address h.pool b
  nodup : h.live.Nodup
  count : h.pool.freeblocks + h.live.length = h.pool.numblocks

theorem address_injective (positive : 0 < h.pool.blocksize) (same : address h.pool b = address h.pool k) : b = k :=
  Nat.eq_of_mul_eq_mul_right positive (Nat.add_left_cancel same)

theorem address_lt (inv : Inv base size h) (less : b < h.pool.numblocks) :
    address h.pool b + h.pool.blocksize ≤ base + size := by
  have ends := inv.fits.blocks
  have product := Nat.mul_le_mul_right h.pool.blocksize less
  rw [Nat.succ_mul] at product
  unfold address
  omega

theorem Inv.clear_bit (inv : Inv base size h) (free : 0 < h.pool.freeblocks) :
    ∃ b < h.pool.numblocks, h.pool.bit b = false := by
  by_contra none
  have all : ∀ b < h.pool.numblocks, address h.pool b ∈ h.live := by
    intro b less
    refine (inv.bits b less).mp ?_
    cases value : h.pool.bit b with
    | true => rfl
    | false => exact absurd ⟨b, less, value⟩ none
  have distinct : ((List.range h.pool.numblocks).map (address h.pool)).Nodup :=
    nodup_range.map fun _ _ same => address_injective inv.positive same
  have more : ((List.range h.pool.numblocks).map (address h.pool)).length ≤ h.live.length := by
    refine (subperm_of_subset distinct ?_).length_le
    intro a mem
    obtain ⟨b, less, rfl⟩ := mem_map.mp mem
    exact all b (mem_range.mp less)
  have count := inv.count
  rw [length_map, length_range] at more
  omega

theorem search_spec {p : MempoolFixed} (maptop : p.maptop = w) (start : p.firstfree < w) (sum : k + fuel = w)
    (exists_clear : ∃ t, k ≤ t ∧ t < w ∧ p.bitmap (Circular.slot w p.firstfree t) ≠ BitVec.allOnes 32) :
    ∃ i < w, p.search fuel (Circular.slot w p.firstfree k) = some (some i) ∧ p.bitmap i ≠ BitVec.allOnes 32 := by
  induction fuel generalizing k with
  | zero =>
    obtain ⟨t, low, high, _⟩ := exists_clear
    omega
  | succ fuel ih =>
    have inside : slot w p.firstfree k < w := by
      unfold slot
      split <;> omega
    by_cases clear : p.bitmap (slot w p.firstfree k) ≠ BitVec.allOnes 32
    · exact ⟨_, inside, by rw [search, if_pos clear], clear⟩
    · obtain ⟨t, low, high, later⟩ := exists_clear
      have notHere : t ≠ k := by
        rintro rfl
        exact clear later
      have step : (if ((slot w p.firstfree k + 1 : Nat) : Int) ≥ p.maptop then 0
          else slot w p.firstfree k + 1) = slot w p.firstfree (k + 1) := by
        rw [maptop]
        unfold slot
        split <;> split <;> split <;> omega
      have away : slot w p.firstfree (k + 1) ≠ p.firstfree := by
        unfold slot
        split <;> omega
      rw [search, if_neg clear]
      simp only [step, if_pos away]
      exact ih (by omega) ⟨t, by omega, high, later⟩

theorem lsbitOf_spec {word : BitVec 32} (clear : word ≠ BitVec.allOnes 32) :
    lsbitOf (~~~ word) < 32 ∧ word.getLsbD (lsbitOf (~~~ word)) = false := by
  obtain ⟨j, small, bit⟩ : ∃ j < 32, word.getLsbD j = false := by
    by_contra none
    refine clear (BitVec.eq_of_getLsbD_eq fun j small => ?_)
    rw [BitVec.getLsbD_allOnes, decide_eq_true small]
    cases value : word.getLsbD j with
    | true => rfl
    | false => exact absurd ⟨j, small, value⟩ none
  have found : ((List.range 32).find? fun j => (~~~ word).getLsbD j).isSome := by
    rw [find?_isSome]
    exact ⟨j, mem_range.mpr small, by rw [BitVec.getLsbD_not, bit]; simp [small]⟩
  obtain ⟨index, chosen⟩ := Option.isSome_iff_exists.mp found
  have inside := mem_range.mp (mem_of_find?_eq_some chosen)
  have set := find?_some chosen
  have value : lsbitOf (~~~ word) = index := by
    unfold lsbitOf
    rw [chosen]
    rfl
  rw [value]
  refine ⟨inside, ?_⟩
  simpa [inside] using set

theorem bit_set {p p' : MempoolFixed} (small : j < 32)
    (map : p'.bitmap = update p.bitmap i (p.bitmap i ||| (1#32 <<< j))) (b : Nat) :
    p'.bit b = (p.bit b || decide (b = 32 * i + j)) := by
  unfold bit
  rw [map]
  by_cases here : b / 32 = i
  · subst here
    rw [update_self, BitVec.getLsbD_or, shifted_one (by omega)]
    congr 1
    exact decide_eq_decide.mpr (by omega)
  · have other : b ≠ 32 * i + j := by omega
    simp [update_of_ne here, other]

theorem bit_clear {p p' : MempoolFixed} (small : j < 32)
    (map : p'.bitmap = update p.bitmap i (p.bitmap i &&& ~~~ (1#32 <<< j))) (b : Nat) :
    p'.bit b = (p.bit b && !decide (b = 32 * i + j)) := by
  unfold bit
  rw [map]
  by_cases here : b / 32 = i
  · subst here
    have index : b % 32 < 32 := by omega
    rw [update_self, BitVec.getLsbD_and, BitVec.getLsbD_not, shifted_one index]
    have same : decide (b % 32 = j) = decide (b = 32 * (b / 32) + j) := decide_eq_decide.mpr (by omega)
    simp [index, same]
  · have other : b ≠ 32 * i + j := by omega
    simp [update_of_ne here, other]

theorem masked_zero {word : BitVec 32} (small : j < 32) : (1#32 <<< j) &&& word = 0 ↔ word.getLsbD j = false := by
  constructor
  · intro zero
    have bit := congrArg (fun x => BitVec.getLsbD x j) zero
    simpa [shifted_one small] using bit
  · intro clear
    refine BitVec.eq_of_getLsbD_eq fun k inside => ?_
    rw [BitVec.getLsbD_and, shifted_one inside]
    by_cases same : k = j
    · simp [same, clear]
    · simp [same]

/-- What `try_alloc` does while a block is free. -/
theorem Inv.tryAlloc_some (inv : Inv base size h) (free : 0 < h.pool.freeblocks) :
    ∃ b p', b < h.pool.numblocks ∧ address h.pool b ∉ h.live ∧ h.pool.tryAlloc = some (p', address h.pool b) ∧
      Inv base size ⟨p', address h.pool b :: h.live⟩ := by
  obtain ⟨c, inC, clearC⟩ := inv.clear_bit free
  have words_eq : words h.pool = (h.pool.numblocks + 31) / 32 := rfl
  have start := inv.firstfree
  have exists_clear : ∃ t, 0 ≤ t ∧ t < words h.pool ∧
      h.pool.bitmap (slot (words h.pool) h.pool.firstfree t) ≠ BitVec.allOnes 32 := by
    refine ⟨if h.pool.firstfree ≤ c / 32 then c / 32 - h.pool.firstfree
      else c / 32 + words h.pool - h.pool.firstfree, by omega, by split <;> omega, ?_⟩
    have here : slot (words h.pool) h.pool.firstfree (if h.pool.firstfree ≤ c / 32 then
        c / 32 - h.pool.firstfree else c / 32 + words h.pool - h.pool.firstfree) = c / 32 := by
      unfold slot
      split <;> split <;> omega
    rw [here]
    intro full
    unfold bit at clearC
    rw [full, BitVec.getLsbD_allOnes] at clearC
    simp at clearC
    omega
  obtain ⟨i, inside, found, clear⟩ := search_spec inv.fits.maptop start (Nat.zero_add _) exists_clear
  have first : slot (words h.pool) h.pool.firstfree 0 = h.pool.firstfree := by
    unfold slot
    split <;> omega
  rw [first] at found
  obtain ⟨small, isClear⟩ := lsbitOf_spec clear
  generalize index : lsbitOf (~~~ h.pool.bitmap i) = j at *
  have bit : h.pool.bit (32 * i + j) = false := by
    unfold bit
    rw [show (32 * i + j) / 32 = i by omega, show (32 * i + j) % 32 = j by omega]
    exact isClear
  have less : 32 * i + j < h.pool.numblocks := by
    by_contra beyond
    have padded := inv.padding (32 * i + j) (by omega) (by omega)
    rw [bit] at padded
    exact absurd padded (by simp)
  have fresh : address h.pool (32 * i + j) ∉ h.live := fun mem => by
    have set := (inv.bits _ less).mpr mem
    rw [bit] at set
    exact absurd set (by simp)
  have bound := address_lt inv less
  have exact : word (address h.pool (32 * i + j)) = address h.pool (32 * i + j) := by
    refine Nat.mod_eq_of_lt ?_
    have inBounds := inv.bounded
    omega
  have fuel : h.pool.maptop.toNat = words h.pool := by
    rw [inv.fits.maptop]
    rfl
  have notFull : ¬ 0 ≥ h.pool.freeblocks := by omega
  let p' : MempoolFixed := { h.pool with
    bitmap := update h.pool.bitmap i (h.pool.bitmap i ||| (1#32 <<< j))
    firstfree := i
    freeblocks := h.pool.freeblocks - 1 }
  have bits : ∀ b, p'.bit b = (h.pool.bit b || decide (b = 32 * i + j)) := bit_set small rfl
  refine ⟨32 * i + j, p', less, fresh, ?_, ?_⟩
  · unfold tryAlloc
    rw [if_neg notFull, fuel, found]
    simp only [index]
    exact congrArg (fun a => some (p', a)) exact
  · refine ⟨⟨inv.fits.maptop, inv.fits.bitmap, inv.fits.blocks⟩, inv.positive, inv.nonempty, inv.top, inv.bounded, inside, ?_, ?_,
      ?_, nodup_cons.mpr ⟨fresh, inv.nodup⟩, ?_⟩
    · intro b low high
      rw [bits, inv.padding b low high]
      rfl
    · intro b inB
      show p'.bit b = true ↔ address h.pool b ∈ address h.pool (32 * i + j) :: h.live
      have old := inv.bits b inB
      have eq : address h.pool b = address h.pool (32 * i + j) ↔ b = 32 * i + j :=
        ⟨fun same => address_injective inv.positive same, fun same => by rw [same]⟩
      rw [bits, Bool.or_eq_true, mem_cons, old, decide_eq_true_eq, eq, or_comm]
    · intro a mem
      rcases mem_cons.mp mem with rfl | held
      · exact ⟨_, less, rfl⟩
      · exact inv.blocks a held
    · have count := inv.count
      show h.pool.freeblocks - 1 + ((address h.pool (32 * i + j) :: h.live).length : Int) = h.pool.numblocks
      rw [length_cons]
      omega

theorem Inv.free_live (inv : Inv base size h) (mem : ptr ∈ h.live) :
    ∃ p', h.pool.free ptr = (p', true) ∧ Inv base size ⟨p', h.live.filter (· ≠ ptr)⟩ := by
  obtain ⟨b, less, rfl⟩ := inv.blocks ptr mem
  have bound := address_lt inv less
  have inBounds := inv.bounded
  have positive := inv.positive
  have set := (inv.bits b less).mpr mem
  have index : (address h.pool b - h.pool.mempool) / h.pool.blocksize = b := by
    unfold address
    rw [Nat.add_sub_cancel_left, Nat.mul_div_cancel _ positive]
  have exact : word (h.pool.mempool + b * h.pool.blocksize) = address h.pool b := Nat.mod_eq_of_lt (by unfold address at bound; omega)
  have inPool : ¬ (address h.pool b < h.pool.mempool ∨ address h.pool b ≥ h.pool.top) := by
    rw [inv.top]
    have low : h.pool.mempool ≤ address h.pool b := Nat.le_add_right _ _
    omega
  have split : b - 32 * (b / 32) = b % 32 := by omega
  have notZero : ¬ (1#32 <<< (b % 32)) &&& h.pool.bitmap (b / 32) = 0 := by
    rw [masked_zero (by omega)]
    unfold bit at set
    rw [set]
    simp
  let p' : MempoolFixed := { h.pool with
    bitmap := update h.pool.bitmap (b / 32) (h.pool.bitmap (b / 32) &&& ~~~ (1#32 <<< (b % 32)))
    freeblocks := h.pool.freeblocks + 1 }
  have bits : ∀ c, p'.bit c = (h.pool.bit c && !decide (c = 32 * (b / 32) + b % 32)) := bit_clear (by omega) rfl
  have whole : 32 * (b / 32) + b % 32 = b := by omega
  rw [whole] at bits
  refine ⟨p', ?_, ⟨inv.fits.maptop, inv.fits.bitmap, inv.fits.blocks⟩, inv.positive, inv.nonempty, inv.top, inv.bounded, inv.firstfree,
    ?_, ?_, ?_, inv.nodup.filter _, ?_⟩
  · unfold free
    simp only [if_neg inPool, index, exact, ne_eq, not_true_eq_false, if_false, split, notZero]
    rfl
  · intro c low high
    have other : c ≠ b := fun same => by
      have outside : h.pool.numblocks ≤ c := low
      omega
    rw [bits, inv.padding c low high]
    simp [other]
  · intro c inC
    show p'.bit c = true ↔ address h.pool c ∈ h.live.filter (· ≠ address h.pool b)
    have old := inv.bits c inC
    have eq : address h.pool c = address h.pool b ↔ c = b :=
      ⟨fun same => address_injective inv.positive same, fun same => by rw [same]⟩
    simp only [bits, Bool.and_eq_true, Bool.not_eq_true', decide_eq_false_iff_not, mem_filter, decide_eq_true_eq, ne_eq,
      eq, old]
  · intro a kept
    exact inv.blocks a (mem_of_mem_filter kept)
  · have count := inv.count
    have removed : (h.live.filter (· ≠ address h.pool b)).length + 1 = h.live.length := by
      have erased : h.live.filter (· ≠ address h.pool b) = h.live.erase (address h.pool b) := by
        rw [inv.nodup.erase_eq_filter]
        refine filter_congr fun a _ => ?_
        by_cases same : a = address h.pool b <;> simp [same]
      rw [erased, length_erase_of_mem mem]
      have positive := length_pos_of_mem mem
      omega
    show h.pool.freeblocks + 1 + ((h.live.filter (· ≠ address h.pool b)).length : Int) = h.pool.numblocks
    omega

theorem Inv.free_other (inv : Inv base size h) (absent : ptr ∉ h.live) : h.pool.free ptr = (h.pool, false) := by
  unfold free
  by_cases outside : ptr < h.pool.mempool ∨ ptr ≥ h.pool.top
  · rw [if_pos outside]
  rw [if_neg outside]
  simp only
  by_cases unaligned : word (h.pool.mempool + (ptr - h.pool.mempool) / h.pool.blocksize * h.pool.blocksize) ≠ ptr
  · rw [if_pos unaligned]
  rw [if_neg unaligned]
  have top := inv.top
  have ends := inv.fits.blocks
  have part := Nat.div_mul_le_self (ptr - h.pool.mempool) h.pool.blocksize
  have exact : address h.pool ((ptr - h.pool.mempool) / h.pool.blocksize) = ptr := by
    have whole := not_not.mp unaligned
    unfold word at whole
    rw [Nat.mod_eq_of_lt (by omega)] at whole
    exact whole
  generalize (ptr - h.pool.mempool) / h.pool.blocksize = b at *
  have less : b < h.pool.numblocks := by
    refine Nat.lt_of_mul_lt_mul_right (a := h.pool.blocksize) ?_
    omega
  have clear : h.pool.bit b = false := by
    cases value : h.pool.bit b with
    | false => rfl
    | true => exact absurd (exact ▸ (inv.bits b less).mp value) absent
  have split : b - 32 * (b / 32) = b % 32 := by omega
  rw [split, if_pos ((masked_zero (by omega)).mpr clear)]

/-- What is said of a pool in use: the bits mark exactly the live blocks, a
block that is not live is handed out while there is one, and only live blocks
can be given back. -/
structure Sound (h : FixedHeap) : Prop where
  bits : ∀ b < h.pool.numblocks, h.pool.bit b = true ↔ address h.pool b ∈ h.live
  blocks : ∀ a ∈ h.live, ∃ b < h.pool.numblocks, a = address h.pool b
  nodup : h.live.Nodup
  count : h.pool.freeblocks = h.pool.numblocks - h.live.length
  alloc : ∃ q, h.pool.tryAlloc = some q ∧
    ((∃ b < h.pool.numblocks, q.2 = address h.pool b ∧ q.2 ∉ h.live) ↔ 0 < h.pool.freeblocks)
  free : ∀ ptr, ((h.pool.free ptr).2 = true ↔ ptr ∈ h.live) ∧
    ((h.pool.free ptr).2 = false → (h.pool.free ptr).1 = h.pool)

theorem Inv.tryAlloc_none (full : ¬ 0 < h.pool.freeblocks) : h.pool.tryAlloc = some (h.pool, null) :=
  if_pos (Int.not_lt.mp full)

theorem Inv.address_ne_null (inv : Inv base size h) (b : Nat) : address h.pool b ≠ null := by
  have below := inv.fits.bitmap
  have start := inv.firstfree
  simp only [address, null]
  omega

theorem Inv.sound (inv : Inv base size h) : h.Sound := by
  refine ⟨inv.bits, inv.blocks, inv.nodup, ?_, ?_, ?_⟩
  · have count := inv.count
    omega
  · by_cases free : 0 < h.pool.freeblocks
    · obtain ⟨b, p', less, fresh, result, _⟩ := inv.tryAlloc_some free
      exact ⟨_, result, fun _ => free, fun _ => ⟨b, less, rfl, fresh⟩⟩
    · refine ⟨_, Inv.tryAlloc_none free, ?_, fun absurdly => absurd absurdly free⟩
      rintro ⟨b, _, here, _⟩
      exact absurd here.symm (inv.address_ne_null b)
  · intro ptr
    by_cases mem : ptr ∈ h.live
    · obtain ⟨p', result, _⟩ := inv.free_live mem
      rw [result]
      exact ⟨⟨fun _ => mem, fun _ => rfl⟩, fun absurdly => absurd absurdly (by simp)⟩
    · rw [inv.free_other mem]
      exact ⟨⟨fun absurdly => absurd absurdly (by simp), fun held => absurd held mem⟩, fun _ => rfl⟩

theorem Inv.step (inv : Inv base size h) (e : FixedEvent) : Inv base size (h.act e) := by
  cases e with
  | tryAlloc =>
    by_cases free : 0 < h.pool.freeblocks
    · obtain ⟨b, p', _, _, result, inv'⟩ := inv.tryAlloc_some free
      have state : h.act .tryAlloc = ⟨p', address h.pool b :: h.live⟩ := by
        simp [act, result, inv.address_ne_null b]
      rw [state]
      exact inv'
    · have state : h.act .tryAlloc = h := by
        simp [act, Inv.tryAlloc_none free]
      rw [state]
      exact inv
  | free ptr =>
    by_cases mem : ptr ∈ h.live
    · obtain ⟨p', result, inv'⟩ := inv.free_live mem
      have state : h.act (.free ptr) = ⟨p', h.live.filter (· ≠ ptr)⟩ := by
        simp [act, result]
      rw [state]
      exact inv'
    · have state : h.act (.free ptr) = h := by
        simp [act, inv.free_other mem]
      rw [state]
      exact inv

/-- All sequences of calls, with any addresses. -/
def runs (old : Nat → BitVec 32) (base size blocksize : Nat) : Machine FixedHeap :=
  Machine.guided (· = ⟨MempoolFixed.construct old base size blocksize, []⟩) (fun _ (_ : FixedEvent) => True) act

section Construct
variable (positive : 0 < blocksize) (arena : base + size < 2 ^ 32)
  (small : MempoolFixed.NoOverflow size blocksize)
include positive arena small

section
variable (some : 1 ≤ (MempoolFixed.construct old base size blocksize).numblocks)
include some

theorem construct_fits : Fits base size (MempoolFixed.construct old base size blocksize) := by
  obtain ⟨_, fits, _⟩ := @fitment_spec size _ _ positive small
  have whole := construct_mempool old base size blocksize
  have count := construct_numblocks old base size blocksize
  have top := construct_maptop old base size blocksize
  have unit := construct_blocksize old base size blocksize
  have short : bytes blocksize (fitment size blocksize (size / blocksize)) < 2 ^ 31 :=
    (bytes_mono (@fitment_spec size _ _ positive small).1).trans_lt small
  refine ⟨?_, ?_, ?_⟩
  · rw [top, words, count]
    refine mapwords_eq ?_
    unfold bytes at short
    have atLeast := Nat.le_mul_of_pos_right (fitment size blocksize (size / blocksize)) positive
    omega
  all_goals
    rw [count] at some
    rw [whole]
    simp only [words, count, unit]
    generalize fitment size blocksize (size / blocksize) = n at *
    unfold bytes at fits
    unfold word
    omega

theorem first_inv : Inv base size ⟨MempoolFixed.construct old base size blocksize, []⟩ := by
  have fits := construct_fits positive arena small some
  have words_eq : words (construct old base size blocksize) =
      ((construct old base size blocksize).numblocks + 31) / 32 := rfl
  have inMap : ∀ b, b < 32 * words (construct old base size blocksize) → (construct old base size blocksize).bit b =
        decide ((construct old base size blocksize).numblocks ≤ b) := by
    intro b less
    refine construct_bit ?_ fits.maptop
    rw [fits.maptop]
    omega
  refine ⟨fits, ?_, some, ?_, arena, ?_, ?_, ?_, by simp, nodup_nil, ?_⟩
  · simpa only [construct] using positive
  · simp only [construct, word]
    exact Nat.mod_eq_of_lt arena
  · have start : (construct old base size blocksize).firstfree = 0 := by
      simp only [construct]
    simp only [start]
    omega
  · intro b low high
    rw [inMap b high, decide_eq_true_eq]
    exact low
  · intro b less
    have high : b < 32 * words (construct old base size blocksize) := by
      simp only at less
      omega
    rw [inMap b high, decide_eq_true_eq]
    simp only [not_mem_nil, iff_false, Nat.not_le]
    exact less
  · simp only [construct, length_nil]
    omega

end

end Construct

/-- The layout, the choice of the number of blocks and the bookkeeping of a pool
that ends up with a block. -/
def Meets (base size blocksize : Nat) : Prop :=
  ∀ old, 1 ≤ (MempoolFixed.construct old base size blocksize).numblocks →
    Fits base size (MempoolFixed.construct old base size blocksize) ∧
    (∀ n, MempoolFixed.bytes blocksize n ≤ size → n ≤ (MempoolFixed.construct old base size blocksize).numblocks) ∧
    ∀ h, (runs old base size blocksize).Reach h → h.Sound

/-- A fixed block pool is as it should be exactly when the sizes that the
constructor adds up do not overflow. -/
theorem fixed_pool_meets_iff (positive : 0 < blocksize) (short : size < 2 ^ 31) (arena : base + size < 2 ^ 32) :
    Meets base size blocksize ↔ MempoolFixed.NoOverflow size blocksize := by
  constructor
  · intro meets
    by_contra overflow
    have blocks := MempoolFixed.fitment_overflow positive short overflow
    have count := MempoolFixed.construct_numblocks (fun _ => 0) base size blocksize
    have some : 1 ≤ size / blocksize := by
      by_contra none
      refine overflow ?_
      unfold MempoolFixed.NoOverflow MempoolFixed.bytes
      rw [Nat.lt_one_iff.mp (Nat.not_le.mp none)]
      omega
    have fits := (meets (fun _ => 0) (by rw [count, blocks]; exact some)).1
    have top := MempoolFixed.construct_maptop (fun _ => 0) base size blocksize
    have unit := MempoolFixed.construct_blocksize (fun _ => 0) base size blocksize
    have bitmap := fits.bitmap
    have ends := fits.blocks
    have maptop := fits.maptop
    refine MempoolFixed.overflow_overlaps positive short overflow ?_
    rw [← top, maptop, ← count]
    rw [unit] at ends
    unfold words at *
    rw [← count] at blocks
    generalize (MempoolFixed.construct (fun _ => 0) base size blocksize).numblocks = n at *
    omega
  · intro small old some
    refine ⟨construct_fits positive arena small some, ?_, ?_⟩
    · intro n needs
      have count := MempoolFixed.construct_numblocks old base size blocksize
      rw [count]
      refine (MempoolFixed.fitment_spec positive small).2.2 n ?_ needs
      refine (Nat.le_div_iff_mul_le positive).mpr ?_
      unfold MempoolFixed.bytes at needs
      omega
    · intro h reach
      have inv : Inv base size h := by
        refine reach.kept (P := Inv base size) ?_ ?_
        · rintro h rfl
          exact first_inv positive arena small some
        · intro h e inv _
          exact inv.step e
      exact inv.sound

theorem fixed_pool_meets_page : Meets 0x1000 4096 32 :=
  (fixed_pool_meets_iff (by decide) (by decide) (by decide)).mpr (by decide)

/-- In an arena of almost two gigabytes the sum of bitmap and blocks is a negative number. -/
theorem huge_pool_overlaps : ¬ Meets 0x1000 0x7fffffff 4 := by
  intro meets
  have overflow : ¬ MempoolFixed.NoOverflow 0x7fffffff 4 := by decide
  have positive : 0 < 4 := by decide
  have count : (MempoolFixed.construct (fun _ => 0) 0x1000 0x7fffffff 4).numblocks = 0x7fffffff / 4 :=
    MempoolFixed.fitment_overflow positive (by decide) overflow
  obtain ⟨fits, _⟩ := meets (fun _ => 0) (by rw [count]; decide)
  have unit := MempoolFixed.construct_blocksize (fun _ => 0) 0x1000 0x7fffffff 4
  have bitmap := fits.bitmap
  have ends := fits.blocks
  unfold words at bitmap
  rw [count] at bitmap ends
  rw [unit] at ends
  omega

end FixedHeap

end Ecos
