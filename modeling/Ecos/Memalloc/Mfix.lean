import Ecos.Memalloc.Mvar

/-! The fixed block memory pool of `mfiximpl.inl`: a bitmap at the bottom of the arena, the blocks at its top. -/

namespace Ecos

/-- What remains of a number in a `cyg_int32`. -/
def int32 (n : Int) : Int := n.bmod (2 ^ 32)

/-- `HAL_LSBIT_INDEX`: the lowest bit set of a word. -/
def lsbitOf (w : BitVec 32) : Nat := ((List.range 32).find? fun j => w.getLsbD j).getD 0

/-- `Cyg_Mempool_Fixed_Implementation`, with the words of the bitmap. -/
structure MempoolFixed where
  bitmap : Nat → BitVec 32
  maptop : Int
  mempool : Nat
  numblocks : Nat
  freeblocks : Int
  blocksize : Nat
  firstfree : Nat
  top : Nat

namespace MempoolFixed

/-- `(numblocks + 31)/32`, the number of words to map blocks. -/
def mapwords (numblocks : Nat) : Int := (int32 (numblocks + 31)).tdiv 32

/-- `(i * 4 + numblocks * blocksize) > size`, in `cyg_int32` arithmetic. -/
def tooMany (size blocksize numblocks : Nat) : Bool :=
  decide (int32 (int32 (mapwords numblocks * 4) + int32 (numblocks * blocksize)) > size)

/-- The loop that steals one block after the other for the bitmap. -/
def fitment (size blocksize : Nat) : Nat → Nat
  | 0 => 0
  | numblocks + 1 =>
    if tooMany size blocksize (numblocks + 1) then fitment size blocksize numblocks else numblocks + 1

/-- The first loop of the constructor's last part: no blocks allocated yet. -/
def clearWords (bitmap : Nat → BitVec 32) (maptop : Int) : Nat → BitVec 32 :=
  (List.range maptop.toNat).foldl (fun map i => Function.update map i 0) bitmap

/-- The second one: the non-existent blocks at the top. -/
def padWord (bitmap : Nat → BitVec 32) (maptop : Int) (numblocks : Nat) : Nat → BitVec 32 :=
  let last := (maptop - 1).toNat
  let first := ((numblocks - 1) &&& 31) + 1
  (List.range' first (32 - first)).foldl (fun map i => Function.update map last (map last ||| (1#32 <<< i))) bitmap

/-- The constructor; `old` is what the words of the arena hold before. -/
def construct (old : Nat → BitVec 32) (base size blocksize : Nat) : MempoolFixed :=
  let top := word (base + size)
  let numblocks := fitment size blocksize (size / blocksize)
  let maptop := mapwords numblocks
  { bitmap := padWord (clearWords old maptop) maptop numblocks
    maptop, numblocks, blocksize, top
    mempool := word (top + 2 ^ 32 - numblocks * blocksize)
    freeblocks := numblocks
    firstfree := 0 }

/-- The circular search for a word with a clear bit, `none` inside when it is back at `firstfree`. -/
def search (p : MempoolFixed) : Nat → Nat → Option (Option Nat)
  | 0, _ => none
  | fuel + 1, i =>
    if p.bitmap i ≠ BitVec.allOnes 32 then some (some i)
    else
      let i := if ((i + 1 : Nat) : Int) ≥ p.maptop then 0 else i + 1
      if i ≠ p.firstfree then p.search fuel i else some none

def tryAlloc (p : MempoolFixed) : Option (MempoolFixed × Nat) :=
  if 0 ≥ p.freeblocks then some (p, null)
  else
    match p.search p.maptop.toNat p.firstfree with
    | none => none
    | some none => some (p, null)
    | some (some i) =>
      let j := lsbitOf (~~~ p.bitmap i)
      some ({ p with
        bitmap := Function.update p.bitmap i (p.bitmap i ||| (1#32 <<< j))
        firstfree := i
        freeblocks := p.freeblocks - 1 }, word (p.mempool + (32 * i + j) * p.blocksize))

def free (p : MempoolFixed) (ptr : Nat) : MempoolFixed × Bool :=
  if ptr < p.mempool ∨ ptr ≥ p.top then (p, false)
  else
    let i := (ptr - p.mempool) / p.blocksize
    if word (p.mempool + i * p.blocksize) ≠ ptr then (p, false)
    else
      let j := i / 32
      let i := i - 32 * j
      if (1#32 <<< i) &&& p.bitmap j = 0 then (p, false)
      else
        ({ p with
          bitmap := Function.update p.bitmap j (p.bitmap j &&& ~~~ (1#32 <<< i))
          freeblocks := p.freeblocks + 1 }, true)

end MempoolFixed

end Ecos

namespace Ecos.MempoolFixed
variable {p : MempoolFixed} {base size blocksize n m i j b : Nat} {old : Nat → BitVec 32}

theorem int32_of_small {a : Int} (low : 0 ≤ a) (high : a < 2 ^ 31) : int32 a = a := by
  unfold int32
  rw [Int.bmod_def]
  split <;> omega

theorem int32_of_large {a : Int} (low : 2 ^ 31 ≤ a) (high : a < 2 ^ 32) : int32 a = a - 2 ^ 32 := by
  unfold int32
  rw [Int.bmod_def]
  split <;> omega

/-- The bytes that so many blocks and their part of the bitmap take. -/
def bytes (blocksize n : Nat) : Nat := 4 * ((n + 31) / 32) + n * blocksize

theorem bytes_mono (le : n ≤ m) : bytes blocksize n ≤ bytes blocksize m := by
  unfold bytes
  have products := Nat.mul_le_mul_right blocksize le
  omega

theorem mapwords_eq (small : n + 31 < 2 ^ 31) : mapwords n = ((n + 31) / 32 : Nat) := by
  unfold mapwords
  rw [int32_of_small (by omega) (by omega), Int.tdiv_eq_ediv_of_nonneg (by omega)]
  omega

theorem tooMany_iff (positive : 0 < blocksize) (small : bytes blocksize n < 2 ^ 31) :
    tooMany size blocksize n = true ↔ size < bytes blocksize n := by
  unfold bytes at small
  have atLeast := Nat.le_mul_of_pos_right n positive
  have few : n + 31 < 2 ^ 31 := by omega
  have product : ((n * blocksize : Nat) : Int) = n * blocksize := by push_cast; rfl
  unfold tooMany bytes
  rw [mapwords_eq few, ← product, int32_of_small (a := ((n + 31) / 32 : Nat) * 4) (by omega) (by omega),
    int32_of_small (a := (n * blocksize : Nat)) (by omega) (by omega), int32_of_small (by omega) (by omega)]
  simp only [decide_eq_true_eq]
  omega

theorem fitment_spec (positive : 0 < blocksize) (small : bytes blocksize n < 2 ^ 31) :
    fitment size blocksize n ≤ n ∧ bytes blocksize (fitment size blocksize n) ≤ size ∧
      ∀ m ≤ n, bytes blocksize m ≤ size → m ≤ fitment size blocksize n := by
  induction n with
  | zero =>
    refine ⟨le_rfl, ?_, fun m le _ => le⟩
    simp [fitment, bytes]
  | succ n ih =>
    have smaller : bytes blocksize n < 2 ^ 31 := (bytes_mono (Nat.le_succ n)).trans_lt small
    obtain ⟨below, fits, largest⟩ := ih smaller
    have test := @tooMany_iff size _ _ positive small
    unfold fitment
    by_cases more : tooMany size blocksize (n + 1) = true
    · rw [if_pos more]
      refine ⟨by omega, fits, fun m le needs => ?_⟩
      have less : m ≠ n + 1 := by
        rintro rfl
        have beyond := test.mp more
        omega
      exact largest m (by omega) needs
    · rw [if_neg more]
      refine ⟨le_rfl, ?_, fun m le _ => le⟩
      exact Nat.le_of_not_lt fun beyond => more (test.mpr beyond)

/-- The first test of the loop does not overflow. -/
def NoOverflow (size blocksize : Nat) : Prop := bytes blocksize (size / blocksize) < 2 ^ 31

instance : Decidable (NoOverflow size blocksize) := inferInstanceAs (Decidable (_ < _))

theorem fitment_overflow (positive : 0 < blocksize) (short : size < 2 ^ 31) (overflow : ¬ NoOverflow size blocksize) :
    fitment size blocksize (size / blocksize) = size / blocksize := by
  unfold NoOverflow bytes at overflow
  have whole := Nat.div_mul_le_self size blocksize
  generalize size / blocksize = n at *
  have atLeast := Nat.le_mul_of_pos_right n positive
  have product : ((n * blocksize : Nat) : Int) = n * blocksize := by push_cast; rfl
  cases n with
  | zero => omega
  | succ n =>
    have ends : tooMany size blocksize (n + 1) = false := by
      unfold tooMany
      rw [← product]
      refine decide_eq_false ?_
      by_cases few : n + 1 + 31 < 2 ^ 31
      · rw [mapwords_eq few, int32_of_small (a := ((n + 1 + 31) / 32 : Nat) * 4) (by omega) (by omega),
          int32_of_small (a := ((n + 1) * blocksize : Nat)) (by omega) (by omega),
          int32_of_large (by omega) (by omega)]
        omega
      · have words : mapwords (n + 1) = -((2 ^ 32 - (n + 1 + 31)) / 32 : Nat) := by
          unfold mapwords
          rw [int32_of_large (by omega) (by omega)]
          have flip : ((n + 1 : Nat) : Int) + 31 - 2 ^ 32 = -((2 ^ 32 - (n + 1 + 31) : Nat) : Int) := by omega
          rw [flip, Int.neg_tdiv, Int.tdiv_eq_ediv_of_nonneg (by omega)]
          omega
        rw [words]
        have middle : int32 (-((2 ^ 32 - (n + 1 + 31)) / 32 : Nat) * 4) = -((2 ^ 32 - (n + 1 + 31)) / 32 : Nat) * 4 := by
          unfold int32
          rw [Int.bmod_def]
          split <;> omega
        rw [middle, int32_of_small (a := ((n + 1) * blocksize : Nat)) (by omega) (by omega),
          int32_of_small (by omega) (by omega)]
        omega
    simp [fitment, ends]

theorem overflow_overlaps (positive : 0 < blocksize) (short : size < 2 ^ 31) (overflow : ¬ NoOverflow size blocksize) :
    ¬ (0 < mapwords (fitment size blocksize (size / blocksize)) ∧
      4 * mapwords (fitment size blocksize (size / blocksize)) +
        fitment size blocksize (size / blocksize) * blocksize ≤ size) := by
  rw [fitment_overflow positive short overflow]
  unfold NoOverflow bytes at overflow
  have whole := Nat.div_mul_le_self size blocksize
  generalize size / blocksize = n at *
  have product : ((n * blocksize : Nat) : Int) = n * blocksize := by push_cast; rfl
  have atLeast := Nat.le_mul_of_pos_right n positive
  rw [← product]
  rintro ⟨some, fits⟩
  by_cases few : n + 31 < 2 ^ 31
  · rw [mapwords_eq few] at fits
    omega
  · unfold mapwords at some
    rw [int32_of_large (by omega) (by omega)] at some
    have flip : (n : Int) + 31 - 2 ^ 32 = -((2 ^ 32 - (n + 31) : Nat) : Int) := by omega
    rw [flip, Int.neg_tdiv, Int.tdiv_eq_ediv_of_nonneg (by omega)] at some
    omega

/-- The bit of a block. -/
def bit (p : MempoolFixed) (b : Nat) : Bool := (p.bitmap (b / 32)).getLsbD (b % 32)

theorem clearWords_foldl (l : List Nat) (map : Nat → BitVec 32) :
    l.foldl (fun map i => Function.update map i 0) map i = if i ∈ l then 0 else map i := by
  induction l generalizing map with
  | nil => simp
  | cons k l ih =>
    rw [List.foldl_cons, ih]
    by_cases later : i ∈ l
    · simp [later]
    · by_cases here : i = k
      · simp [here]
      · simp [later, here]

theorem shifted_one (small : j < 32) : (1#32 <<< i).getLsbD j = decide (j = i) := by
  rw [BitVec.getLsbD_shiftLeft, BitVec.getLsbD_one]
  by_cases less : j < i
  · simp [less, show j ≠ i by omega]
  · have same : decide (j - i = 0) = decide (j = i) := decide_eq_decide.mpr (by omega)
    simp [less, small, same]

theorem padWord_foldl (l : List Nat) (map : Nat → BitVec 32) (small : j < 32) :
    ((l.foldl (fun map k => Function.update map n (map n ||| (1#32 <<< k))) map) i).getLsbD j =
      ((map i).getLsbD j || decide (i = n ∧ j ∈ l)) := by
  induction l generalizing map with
  | nil => simp
  | cons k l ih =>
    rw [List.foldl_cons, ih]
    by_cases here : i = n
    · subst here
      simp only [Function.update_self, BitVec.getLsbD_or, shifted_one small, List.mem_cons, true_and, Bool.or_assoc]
      congr 1
      exact (Bool.decide_or _ _).symm
    · simp [here]

section Construct
variable (old : Nat → BitVec 32) (base size blocksize : Nat)

theorem construct_numblocks :
    (construct old base size blocksize).numblocks = fitment size blocksize (size / blocksize) := by
  simp only [construct]

theorem construct_maptop :
    (construct old base size blocksize).maptop = mapwords (fitment size blocksize (size / blocksize)) := by
  simp only [construct]

theorem construct_mempool : (construct old base size blocksize).mempool =
    word (word (base + size) + 2 ^ 32 - fitment size blocksize (size / blocksize) * blocksize) := by
  simp only [construct]

theorem construct_blocksize : (construct old base size blocksize).blocksize = blocksize := by
  simp only [construct]

end Construct

theorem construct_bit (inside : (b / 32 : Nat) < (construct old base size blocksize).maptop)
    (words : (construct old base size blocksize).maptop = (((construct old base size blocksize).numblocks + 31) / 32 : Nat)) :
    (construct old base size blocksize).bit b = decide ((construct old base size blocksize).numblocks ≤ b) := by
  have map : (construct old base size blocksize).bitmap = padWord (clearWords old
      (construct old base size blocksize).maptop) (construct old base size blocksize).maptop
      (construct old base size blocksize).numblocks := by
    simp only [construct]
  generalize construct old base size blocksize = p at *
  have cleared : clearWords old p.maptop (b / 32) = 0 := by
    unfold clearWords
    rw [clearWords_foldl, if_pos (List.mem_range.mpr (by omega))]
  have masked : (p.numblocks - 1) &&& 31 = (p.numblocks - 1) % 32 := Nat.and_two_pow_sub_one_eq_mod _ 5
  unfold bit
  rw [map, padWord, padWord_foldl _ _ (by omega), cleared, masked]
  simp only [BitVec.ofNat_eq_ofNat, BitVec.getLsbD_zero, Bool.false_or, List.mem_range'_1]
  refine decide_eq_decide.mpr ?_
  omega

end Ecos.MempoolFixed
