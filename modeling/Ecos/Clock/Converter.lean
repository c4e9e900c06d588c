import Mathlib
import Ecos.Lib.Loop

namespace Ecos
open Nat Option

/-- What a `cyg_uint64` keeps of a number. -/
def u64 (n : ℕ) : ℕ := n % 2 ^ 64

theorem u64_of_lt {n : ℕ} (small : n < 2 ^ 64) : u64 n = n := mod_eq_of_lt small

/-- `Cyg_Clock::converter`. -/
structure ClockConverter where
  mul1 : ℕ
  div1 : ℕ
  mul2 : ℕ
  div2 : ℕ
deriving DecidableEq

namespace ClockConverter

/-- The lazy table of primes. -/
def primes : List ℕ :=
  [3, 5, 7, 11, 13, 17, 19, 23, 29, 31, 37, 41, 43, 47, 53, 59, 61, 67, 71, 73, 79, 83, 89, 97,
    101, 103, 107, 109, 113, 127, 131, 137, 139, 149, 151, 157, 163, 167, 173, 179, 181, 191, 193, 197, 199,
    239, 541, 1667]

/-- Two numbers between which factors are moved, and whether to go on with it. -/
structure Pair where
  fst : ℕ
  snd : ℕ
  cont : Bool

/-- `upper` and `lower` are stripped of a common 2. -/
def stripTwo (s : ℕ × ℕ) : Option (Turn (ℕ × ℕ) (ℕ × ℕ)) :=
  if s.1 % 2 = 0 ∧ s.2 % 2 = 0 then some (.again (s.1 / 2, s.2 / 2)) else some (.leave s)

/-- They are stripped of a common `p`. -/
def stripPrime (p : ℕ) (s : ℕ × ℕ) : Option (Turn (ℕ × ℕ) (ℕ × ℕ)) :=
  if s.1 / p * p = s.1 then
    if s.2 / p * p ≠ s.2 then some (.leave s) else some (.again (s.1 / p, s.2 / p))
  else some (.leave s)

def strip (fuel : ℕ) (s : ℕ × ℕ) : Option (ℕ × ℕ) := do
  let s ← spin stripTwo fuel s
  primes.foldlM (fun s p => spin (stripPrime p) fuel s) s

/-- A 2 moves from `d1` to `d2`. -/
def lowerTwo (s : Pair) : Option (Turn Pair Pair) :=
  if s.fst % 2 = 0 ∧ s.snd < s.fst then some (.again ⟨s.fst / 2, u64 (s.snd * 2), s.cont⟩) else some (.leave s)

/-- A `p` moves from `d1` to `d2`. -/
def lowerPrime (p : ℕ) (s : Pair) : Option (Turn Pair Pair) :=
  if s.cont ∧ s.fst / p * p = s.fst then
    some (.again ⟨s.fst / p, u64 (s.snd * p), u64 (s.snd * p) < s.fst / p⟩)
  else some (.leave s)

def splitLower (fuel d1 : ℕ) : Option Pair := do
  let s ← spin lowerTwo fuel ⟨d1, 1, true⟩
  primes.foldlM (fun s p => if s.cont then spin (lowerPrime p) fuel s else some s) { s with cont := s.snd < s.fst }

/-- A 2 moves from `m1` to `m2`. -/
def upperTwo (d1 : ℕ) (s : Pair) : Option (Turn Pair Pair) :=
  if s.fst % 2 = 0 ∧ s.snd < s.fst ∧ u64 (d1 * 2 ^ 5) < s.fst then
    if s.fst / 2 < 0x10000 then some (.leave ⟨s.fst / 2, u64 (s.snd * 2), s.cont⟩)
    else some (.again ⟨s.fst / 2, u64 (s.snd * 2), s.cont⟩)
  else some (.leave s)

/-- A `p` moves from `m1` to `m2`. -/
def upperPrime (d1 p : ℕ) (s : Pair) : Option (Turn Pair Pair) :=
  if s.cont ∧ s.fst / p * p = s.fst then
    some (.again ⟨s.fst / p, u64 (s.snd * p),
      u64 (s.snd * p) < s.fst / p ∧ u64 (d1 * 2 ^ 4) < s.fst / p / p ∧ 0x10000 < s.fst / p / p⟩)
  else some (.leave s)

def splitUpper (fuel d1 m1 : ℕ) : Option Pair := do
  let s ← spin (upperTwo d1) fuel ⟨m1, 1, true⟩
  primes.foldlM (fun s p =>
    if s.cont then
      spin (upperPrime d1 p) fuel { s with cont := u64 (d1 * 2 ^ 4) < s.fst / p ∧ 0x10000 < s.fst / p }
    else some s)
    { s with cont := s.snd < s.fst ∧ u64 (d1 * 2 ^ 4) < s.fst ∧ 0x10000 < s.fst }

/-- What `construct_converter` does from `retry_rounding` on, with `upper`, `lower` and `rounding`:
it ends, or goes back there. -/
def attempt (fuel : ℕ) (s : ℕ × ℕ × ℕ) : Option (Turn (ℕ × ℕ × ℕ) (ClockConverter × ℕ)) := do
  let (upper, lower) ← strip fuel (s.1, s.2.1)
  let rounding := s.2.2
  if 0x10000 < upper then
    let d ← splitLower fuel lower
    let m ← splitUpper fuel d.fst upper
    if m.fst % 2 = 1 ∧ m.fst = upper ∧ 0x10000 < m.fst ∧ rounding < 2 then
      return .again (m.fst - 1, lower, rounding + 1)
    else if d.fst % 2 = 1 ∧ d.fst = lower ∧ 0x10000 < d.fst ∧ rounding < 2 then
      return .again (upper, d.fst - 1, rounding + 1)
    else return .leave (⟨m.fst, d.fst, m.snd, d.snd⟩, rounding)
  else return .leave (⟨upper, lower, 1, 1⟩, rounding)

/-- `construct_converter`, with the number of roundings; `none` if some loop has more than
`fuel` turns. -/
def construct (fuel m1 d1 m2 d2 : ℕ) : Option (ClockConverter × ℕ) :=
  spin (attempt fuel) fuel (u64 (m1 * m2), u64 (d1 * d2), 0)

def convert (c : ClockConverter) (value : ℕ) : ℕ :=
  let t := u64 (value * c.mul1)
  let t := u64 (t + c.div1 / 2)
  let t := t / c.div1
  let t := u64 (t * c.mul2)
  let t := u64 (t + c.div2 / 2)
  t / c.div2

example : (construct 65 10000000 1 100 1000000000).map (·.1) = some ⟨1, 1, 1, 1⟩ := by decide +kernel

theorem log_lt_of_lt {n fuel : ℕ} (pos : 0 < n) (small : n < 2 ^ 64) (enough : 64 < fuel) : Nat.log 2 n < fuel :=
  lt_trans (log_lt_of_lt_pow (by omega) small) enough

section Strip
variable {upper lower fuel : ℕ}

/-- `s` stands for the same ratio as `upper` and `lower`. -/
structure SameRatio (upper lower : ℕ) (s : ℕ × ℕ) : Prop where
  pos : 0 < s.1 ∧ 0 < s.2
  le : s.1 ≤ upper ∧ s.2 ≤ lower
  ratio : s.1 * lower = upper * s.2

theorem SameRatio.divide {s : ℕ × ℕ} (same : SameRatio upper lower s) {p j k : ℕ} (two : 2 ≤ p) (first : j * p = s.1)
    (second : k * p = s.2) : SameRatio upper lower (j, k) ∧ Nat.log 2 j < Nat.log 2 s.1 := by
  obtain ⟨⟨pos₁, pos₂⟩, ⟨le₁, le₂⟩, ratio⟩ := same
  refine ⟨⟨⟨?_, ?_⟩, ⟨?_, ?_⟩, ?_⟩, log_lt_of_mul_eq two pos₁ first⟩
  · exact Nat.pos_of_mul_pos_right (first.symm ▸ pos₁)
  · exact Nat.pos_of_mul_pos_right (second.symm ▸ pos₂)
  · exact le_trans (first ▸ Nat.le_mul_of_pos_right j (by omega)) le₁
  · exact le_trans (second ▸ Nat.le_mul_of_pos_right k (by omega)) le₂
  · rw [← first, ← second] at ratio
    exact eq_of_mul_eq_mul_right (show 0 < p by omega) (by linarith)

theorem SameRatio.few {s : ℕ × ℕ} (same : SameRatio upper lower s) (enough : Nat.log 2 upper < fuel) :
    Nat.log 2 s.1 < fuel := lt_of_le_of_lt (log_mono_right same.le.1) enough

theorem stripTwo_spec {s : ℕ × ℕ} (same : SameRatio upper lower s) (enough : Nat.log 2 upper < fuel) :
    ∃ r, spin stripTwo fuel s = some r ∧ SameRatio upper lower r := by
  refine spin_spec (fun s => log 2 s.1) (fun s same => ?_) same (same.few enough)
  unfold stripTwo
  split
  · next even =>
    obtain ⟨kept, less⟩ := same.divide (j := s.1 / 2) (k := s.2 / 2) (p := 2) le_rfl (by omega) (by omega)
    exact .inl ⟨_, rfl, kept, less⟩
  · exact .inr ⟨s, rfl, same⟩

theorem stripPrime_spec {s : ℕ × ℕ} {p : ℕ} (two : 2 ≤ p) (same : SameRatio upper lower s)
    (enough : Nat.log 2 upper < fuel) : ∃ r, spin (stripPrime p) fuel s = some r ∧ SameRatio upper lower r := by
  refine spin_spec (fun s => log 2 s.1) (fun s same => ?_) same (same.few enough)
  unfold stripPrime
  split
  · next first =>
    split
    · exact .inr ⟨s, rfl, same⟩
    · next second =>
      obtain ⟨kept, less⟩ := same.divide two first (not_not.mp second)
      exact .inl ⟨_, rfl, kept, less⟩
  · exact .inr ⟨s, rfl, same⟩

theorem two_le_of_mem_primes {p : ℕ} (mem : p ∈ primes) : 2 ≤ p := by
  have all : ∀ p ∈ primes, 2 ≤ p := by decide
  exact all p mem

theorem strip_spec (pos : 0 < upper ∧ 0 < lower) (enough : Nat.log 2 upper < fuel) :
    ∃ r, strip fuel (upper, lower) = some r ∧ SameRatio upper lower r := by
  have start : SameRatio upper lower (upper, lower) := ⟨pos, ⟨le_rfl, le_rfl⟩, rfl⟩
  obtain ⟨s, first, same⟩ := stripTwo_spec start enough
  obtain ⟨r, second, kept⟩ := foldlM_spec (l := primes) (f := fun s p => spin (stripPrime p) fuel s)
    (fun s p mem same => stripPrime_spec (two_le_of_mem_primes mem) same enough) same
  refine ⟨r, ?_, kept⟩
  unfold strip
  rw [first]
  exact second

end Strip

section Split
variable {n fuel : ℕ}

/-- The pair has the product `n`. -/
structure Splits (n : ℕ) (s : Pair) : Prop where
  pos : 0 < s.fst
  product : s.fst * s.snd = n

theorem Splits.move {s : Pair} (splits : Splits n s) (small : n < 2 ^ 64) {p k : ℕ} (two : 2 ≤ p)
    (factor : k * p = s.fst) (cont : Bool) :
    Splits n ⟨k, u64 (s.snd * p), cont⟩ ∧ Nat.log 2 k < Nat.log 2 s.fst := by
  obtain ⟨fstPos, product⟩ := splits
  have kPos : 0 < k := Nat.pos_of_mul_pos_right (factor.symm ▸ fstPos)
  have moved : k * (s.snd * p) = n := by
    rw [← product, ← factor]
    ring
  have fits : s.snd * p < 2 ^ 64 := lt_of_le_of_lt (moved ▸ Nat.le_mul_of_pos_left _ kPos) small
  refine ⟨⟨kPos, ?_⟩, log_lt_of_mul_eq two fstPos factor⟩
  rw [u64_of_lt fits]
  exact moved

theorem Splits.le {s : Pair} (splits : Splits n s) (pos : 0 < n) : s.fst ≤ n := by
  obtain ⟨-, product⟩ := splits
  have : 0 < s.snd := Nat.pos_of_mul_pos_left (product.symm ▸ pos)
  exact product ▸ Nat.le_mul_of_pos_right _ this

theorem Splits.few {s : Pair} (splits : Splits n s) (pos : 0 < n) (enough : Nat.log 2 n < fuel) :
    Nat.log 2 s.fst < fuel := lt_of_le_of_lt (log_mono_right (splits.le pos)) enough

theorem Splits.spin {turn : Pair → Option (Turn Pair Pair)} (pos : 0 < n) (enough : Nat.log 2 n < fuel)
    (step : ∀ s, Splits n s → (∃ s', turn s = some (.again s') ∧ Splits n s' ∧ Nat.log 2 s'.fst < Nat.log 2 s.fst) ∨
      ∃ r, turn s = some (.leave r) ∧ Splits n r)
    {s : Pair} (splits : Splits n s) : ∃ r, spin turn fuel s = some r ∧ Splits n r :=
  spin_spec (fun s => log 2 s.fst) step splits (splits.few pos enough)

theorem lowerTwo_spec (small : n < 2 ^ 64) (s : Pair) (splits : Splits n s) :
    (∃ s', lowerTwo s = some (.again s') ∧ Splits n s' ∧ Nat.log 2 s'.fst < Nat.log 2 s.fst) ∨
      ∃ r, lowerTwo s = some (.leave r) ∧ Splits n r := by
  unfold lowerTwo
  split
  · obtain ⟨moved, less⟩ := splits.move small (p := 2) (k := s.fst / 2) le_rfl (by omega) s.cont
    exact .inl ⟨_, rfl, moved, less⟩
  · exact .inr ⟨s, rfl, splits⟩

theorem lowerPrime_spec {p : ℕ} (two : 2 ≤ p) (small : n < 2 ^ 64) (s : Pair) (splits : Splits n s) :
    (∃ s', lowerPrime p s = some (.again s') ∧ Splits n s' ∧ Nat.log 2 s'.fst < Nat.log 2 s.fst) ∨
      ∃ r, lowerPrime p s = some (.leave r) ∧ Splits n r := by
  unfold lowerPrime
  split
  · next factor =>
    obtain ⟨moved, less⟩ := splits.move small two factor.2 (u64 (s.snd * p) < s.fst / p)
    exact .inl ⟨_, rfl, moved, less⟩
  · exact .inr ⟨s, rfl, splits⟩

theorem splitLower_spec (pos : 0 < n) (small : n < 2 ^ 64) (enough : 64 < fuel) :
    ∃ r, splitLower fuel n = some r ∧ Splits n r := by
  have few := log_lt_of_lt pos small enough
  obtain ⟨s, first, splits⟩ := Splits.spin pos few (lowerTwo_spec small) (s := ⟨n, 1, true⟩) ⟨pos, mul_one n⟩
  obtain ⟨r, second, kept⟩ := foldlM_spec (l := primes) (s := { s with cont := s.snd < s.fst })
    (f := fun s p => if s.cont then Ecos.spin (lowerPrime p) fuel s else some s) (I := Splits n)
    (fun s p mem splits => by
      split
      · exact Splits.spin pos few (lowerPrime_spec (two_le_of_mem_primes mem) small) splits
      · exact ⟨s, rfl, splits⟩)
    ⟨splits.pos, splits.product⟩
  refine ⟨r, ?_, kept⟩
  unfold splitLower
  rw [first]
  exact second

theorem upperTwo_spec (d1 : ℕ) (small : n < 2 ^ 64) (s : Pair) (splits : Splits n s) :
    (∃ s', upperTwo d1 s = some (.again s') ∧ Splits n s' ∧ Nat.log 2 s'.fst < Nat.log 2 s.fst) ∨
      ∃ r, upperTwo d1 s = some (.leave r) ∧ Splits n r := by
  unfold upperTwo
  split
  · obtain ⟨moved, less⟩ := splits.move small (p := 2) (k := s.fst / 2) le_rfl (by omega) s.cont
    split
    · exact .inr ⟨_, rfl, moved⟩
    · exact .inl ⟨_, rfl, moved, less⟩
  · exact .inr ⟨s, rfl, splits⟩

theorem upperPrime_spec {d1 p : ℕ} (two : 2 ≤ p) (small : n < 2 ^ 64) (s : Pair) (splits : Splits n s) :
    (∃ s', upperPrime d1 p s = some (.again s') ∧ Splits n s' ∧ Nat.log 2 s'.fst < Nat.log 2 s.fst) ∨
      ∃ r, upperPrime d1 p s = some (.leave r) ∧ Splits n r := by
  unfold upperPrime
  split
  · next factor =>
    obtain ⟨moved, less⟩ := splits.move small two factor.2
      (u64 (s.snd * p) < s.fst / p ∧ u64 (d1 * 2 ^ 4) < s.fst / p / p ∧ 0x10000 < s.fst / p / p)
    exact .inl ⟨_, rfl, moved, less⟩
  · exact .inr ⟨s, rfl, splits⟩

theorem splitUpper_spec (d1 : ℕ) (pos : 0 < n) (small : n < 2 ^ 64) (enough : 64 < fuel) :
    ∃ r, splitUpper fuel d1 n = some r ∧ Splits n r := by
  have few := log_lt_of_lt pos small enough
  obtain ⟨s, first, splits⟩ := Splits.spin pos few (upperTwo_spec d1 small) (s := ⟨n, 1, true⟩)
    ⟨pos, mul_one n⟩
  obtain ⟨r, second, kept⟩ := foldlM_spec (l := primes)
    (s := { s with cont := s.snd < s.fst ∧ u64 (d1 * 2 ^ 4) < s.fst ∧ 0x10000 < s.fst })
    (f := fun s p =>
      if s.cont then
        Ecos.spin (upperPrime d1 p) fuel { s with cont := u64 (d1 * 2 ^ 4) < s.fst / p ∧ 0x10000 < s.fst / p }
      else some s) (I := Splits n)
    (fun s p mem splits => by
      split
      · exact Splits.spin pos few (upperPrime_spec (two_le_of_mem_primes mem) small) ⟨splits.pos, splits.product⟩
      · exact ⟨s, rfl, splits⟩)
    ⟨splits.pos, splits.product⟩
  refine ⟨r, ?_, kept⟩
  unfold splitUpper
  rw [first]
  exact second

end Split

/-- All four factors can be divided by. -/
structure Positive (c : ClockConverter) : Prop where
  mul1 : 0 < c.mul1
  div1 : 0 < c.div1
  mul2 : 0 < c.mul2
  div2 : 0 < c.div2

section Attempt
variable {fuel upper lower rounding : ℕ}

theorem Splits.snd_pos {n : ℕ} {s : Pair} (splits : Splits n s) (pos : 0 < n) : 0 < s.snd :=
  Nat.pos_of_mul_pos_left (splits.product.symm ▸ pos)

/-- An attempt finds factors with the ratio of `upper` and `lower`, or it takes one off an
odd one of them, stripped and large, and counts the rounding. -/
theorem attempt_spec (pos : 0 < upper ∧ 0 < lower) (small : upper < 2 ^ 64 ∧ lower < 2 ^ 64) (enough : 64 < fuel) :
    (∃ c, attempt fuel (upper, lower, rounding) = some (.leave (c, rounding)) ∧ c.Positive ∧
        c.mul1 * c.mul2 * lower = upper * (c.div1 * c.div2)) ∨
      ∃ s, SameRatio upper lower s ∧ rounding < 2 ∧
        (0x10000 < s.1 ∧ attempt fuel (upper, lower, rounding) = some (.again (s.1 - 1, s.2, rounding + 1)) ∨
          0x10000 < s.2 ∧ attempt fuel (upper, lower, rounding) = some (.again (s.1, s.2 - 1, rounding + 1))) := by
  obtain ⟨⟨u, l⟩, stripped, same⟩ := strip_spec pos (log_lt_of_lt pos.1 small.1 enough)
  obtain ⟨⟨uPos, lPos⟩, ⟨uLe, lLe⟩, ratio⟩ := id same
  obtain ⟨d, lowered, dSplits⟩ := splitLower_spec lPos (by omega) enough
  obtain ⟨m, uppered, mSplits⟩ := splitUpper_spec d.fst uPos (by omega) enough
  unfold attempt
  simp only [stripped, bind_eq_bind, bind_some, lowered, uppered]
  split
  · split
    · next odd => exact .inr ⟨(u, l), same, odd.2.2.2, .inl ⟨odd.2.1 ▸ odd.2.2.1, by rw [odd.2.1]; rfl⟩⟩
    · split
      · next odd => exact .inr ⟨(u, l), same, odd.2.2.2, .inr ⟨odd.2.1 ▸ odd.2.2.1, by rw [odd.2.1]; rfl⟩⟩
      · refine .inl ⟨_, rfl, ⟨mSplits.pos, dSplits.pos, mSplits.snd_pos uPos, dSplits.snd_pos lPos⟩, ?_⟩
        rw [mSplits.product, dSplits.product]
        exact ratio
  · refine .inl ⟨_, rfl, ⟨uPos, lPos, one_pos, one_pos⟩, ?_⟩
    simpa using ratio

end Attempt

section Rounding
variable {U L u l r : ℕ}

/-- After `r` roundings, `u` and `l` have the ratio of `U` and `L` within `r` times one part in `2 ^ 16`,
compounded. -/
structure Near (U L r u l : ℕ) : Prop where
  low : (1 - 1 / 2 ^ 16 : ℚ) ^ r * (U * l) ≤ u * L
  high : (u * L : ℚ) ≤ (1 + 1 / 2 ^ 16) ^ r * (U * l)

theorem Near.same (near : Near U L r u l) (pos : 0 < l) {u' l' : ℕ} (ratio : u' * l = u * l') : Near U L r u' l' := by
  have ratio : (u' * l : ℚ) = u * l' := by exact_mod_cast ratio
  have pos : (0 : ℚ) < l := by exact_mod_cast pos
  have back : (0 : ℚ) ≤ l' := cast_nonneg l'
  refine ⟨le_of_mul_le_mul_right ?_ pos, le_of_mul_le_mul_right ?_ pos⟩
  · calc (1 - 1 / 2 ^ 16 : ℚ) ^ r * (U * l') * l = (1 - 1 / 2 ^ 16) ^ r * (U * l) * l' := by ring
      _ ≤ u * L * l' := mul_le_mul_of_nonneg_right near.low back
      _ = u' * l * L := by rw [ratio]; ring
      _ = u' * L * l := by ring
  · calc (u' * L * l : ℚ) = u' * l * L := by ring
      _ = u * L * l' := by rw [ratio]; ring
      _ ≤ (1 + 1 / 2 ^ 16) ^ r * (U * l) * l' := mul_le_mul_of_nonneg_right near.high back
      _ = (1 + 1 / 2 ^ 16) ^ r * (U * l') * l := by ring

theorem Near.roundUpper (near : Near U L r u l) (large : 0x10000 < u) : Near U L (r + 1) (u - 1) l := by
  have large : (2 ^ 16 + 1 : ℚ) ≤ u := by exact_mod_cast large
  have less : ((u - 1 : ℕ) : ℚ) = u - 1 := by
    rw [cast_sub (by omega), cast_one]
  have lNonneg : (0 : ℚ) ≤ L := cast_nonneg L
  have nonneg : (0 : ℚ) ≤ (1 + 1 / 2 ^ 16 : ℚ) ^ r * (U * l) := by positivity
  refine ⟨?_, ?_⟩ <;> rw [less, pow_succ]
  · calc (1 - 1 / 2 ^ 16 : ℚ) ^ r * (1 - 1 / 2 ^ 16 : ℚ) * (U * l)
        = (1 - 1 / 2 ^ 16 : ℚ) * ((1 - 1 / 2 ^ 16 : ℚ) ^ r * (U * l)) := by ring
      _ ≤ (1 - 1 / 2 ^ 16 : ℚ) * (u * L) := mul_le_mul_of_nonneg_left near.low (by norm_num)
      _ = (1 - 1 / 2 ^ 16 : ℚ) * u * L := by ring
      _ ≤ (u - 1 : ℚ) * L := mul_le_mul_of_nonneg_right (by linarith) lNonneg
  · calc ((u - 1) * L : ℚ) ≤ u * L := mul_le_mul_of_nonneg_right (by linarith) lNonneg
      _ ≤ (1 + 1 / 2 ^ 16 : ℚ) ^ r * (U * l) := near.high
      _ ≤ (1 + 1 / 2 ^ 16 : ℚ) ^ r * (1 + 1 / 2 ^ 16 : ℚ) * (U * l) := by linarith

theorem Near.roundLower (near : Near U L r u l) (large : 0x10000 < l) : Near U L (r + 1) u (l - 1) := by
  have large : (2 ^ 16 + 1 : ℚ) ≤ l := by exact_mod_cast large
  have less : ((l - 1 : ℕ) : ℚ) = l - 1 := by
    rw [cast_sub (by omega), cast_one]
  have shrunk : (0 : ℚ) ≤ (1 - 1 / 2 ^ 16 : ℚ) ^ r * U := mul_nonneg (pow_nonneg (by norm_num) r) (cast_nonneg U)
  have grown : (0 : ℚ) ≤ (1 + 1 / 2 ^ 16 : ℚ) ^ r * U := by positivity
  refine ⟨?_, ?_⟩ <;> rw [less, pow_succ]
  · calc (1 - 1 / 2 ^ 16 : ℚ) ^ r * (1 - 1 / 2 ^ 16 : ℚ) * (U * (l - 1))
        = (1 - 1 / 2 ^ 16 : ℚ) ^ r * U * ((1 - 1 / 2 ^ 16 : ℚ) * (l - 1)) := by ring
      _ ≤ (1 - 1 / 2 ^ 16 : ℚ) ^ r * U * l := mul_le_mul_of_nonneg_left (by linarith) shrunk
      _ = (1 - 1 / 2 ^ 16 : ℚ) ^ r * (U * l) := by ring
      _ ≤ u * L := near.low
  · calc (u * L : ℚ) ≤ (1 + 1 / 2 ^ 16 : ℚ) ^ r * (U * l) := near.high
      _ = (1 + 1 / 2 ^ 16 : ℚ) ^ r * U * l := by ring
      _ ≤ (1 + 1 / 2 ^ 16 : ℚ) ^ r * U * ((1 + 1 / 2 ^ 16 : ℚ) * (l - 1)) :=
        mul_le_mul_of_nonneg_left (by linarith) grown
      _ = (1 + 1 / 2 ^ 16 : ℚ) ^ r * (1 + 1 / 2 ^ 16 : ℚ) * (U * (l - 1)) := by ring

theorem Near.exact (near : Near U L 0 u l) : u * L = U * l := by
  have low := near.low
  have high := near.high
  rw [pow_zero, one_mul] at low high
  exact_mod_cast le_antisymm high low

theorem Near.error (near : Near U L r u l) (few : r ≤ 2) (pos : 0 < U ∧ 0 < l) :
    |(u * L : ℚ) / (l * U) - 1| ≤ 1 / 2 ^ 14 := by
  have divisor : (0 : ℚ) < l * U := by exact_mod_cast mul_pos pos.2 pos.1
  have low := near.low
  have high := near.high
  rw [mul_comm (U : ℚ), ← le_div_iff₀ divisor] at low
  rw [mul_comm (U : ℚ), ← div_le_iff₀ divisor] at high
  rw [abs_le]
  interval_cases r <;> norm_num at low high ⊢ <;> constructor <;> linarith

end Rounding

theorem construct_spec {m1 d1 m2 d2 fuel : ℕ} (pos : 0 < m1 * m2 ∧ 0 < d1 * d2)
    (small : m1 * m2 < 2 ^ 64 ∧ d1 * d2 < 2 ^ 64) (enough : 64 < fuel) :
    ∃ c r, construct fuel m1 d1 m2 d2 = some (c, r) ∧ c.Positive ∧ r ≤ 2 ∧
      Near (m1 * m2) (d1 * d2) r (c.mul1 * c.mul2) (c.div1 * c.div2) := by
  let Sound (s : ℕ × ℕ × ℕ) : Prop := (0 < s.1 ∧ 0 < s.2.1) ∧ (s.1 < 2 ^ 64 ∧ s.2.1 < 2 ^ 64) ∧ s.2.2 ≤ 2 ∧
    Near (m1 * m2) (d1 * d2) s.2.2 s.1 s.2.1
  have start : Sound (m1 * m2, d1 * d2, 0) := by
    refine ⟨pos, small, zero_le _, ?_, ?_⟩ <;> push_cast <;> rw [pow_zero, one_mul]
  obtain ⟨⟨c, r⟩, ended, positive, few, near⟩ := spin_spec (f := attempt fuel) (k := fuel) (I := Sound)
    (Q := fun x => x.1.Positive ∧ x.2 ≤ 2 ∧ Near (m1 * m2) (d1 * d2) x.2 (x.1.mul1 * x.1.mul2) (x.1.div1 * x.1.div2))
    (fun s => 2 - s.2.2) (fun ⟨u, l, r⟩ sound => by
      obtain ⟨pos, small, few, near⟩ := sound
      rcases attempt_spec pos small enough with ⟨c, left, positive, ratio⟩ | ⟨⟨u', l'⟩, same, room, rounded⟩
      · exact .inr ⟨_, left, positive, few, near.same pos.2 ratio⟩
      · obtain ⟨⟨uPos, lPos⟩, ⟨uLe, lLe⟩, ratio⟩ := same
        have kept := near.same pos.2 ratio
        rcases rounded with ⟨large, again⟩ | ⟨large, again⟩
        · exact .inl ⟨_, again, ⟨⟨by dsimp only; omega, lPos⟩, ⟨by dsimp only; omega, by dsimp only; omega⟩,
            by dsimp only; omega, kept.roundUpper large⟩, by dsimp only; omega⟩
        · exact .inl ⟨_, again, ⟨⟨uPos, by dsimp only; omega⟩, ⟨by dsimp only; omega, by dsimp only; omega⟩,
            by dsimp only; omega, kept.roundLower large⟩, by dsimp only; omega⟩) start (by dsimp only; omega)
  refine ⟨c, r, ?_, positive, few, near⟩
  unfold construct
  rw [u64_of_lt small.1, u64_of_lt small.2]
  exact ended

section Convert

theorem rounded_div {x d : ℕ} (pos : 0 < d) : |(((x + d / 2) / d : ℕ) : ℚ) - x / d| ≤ 1 / 2 := by
  have split := div_add_mod (x + d / 2) d
  have rest := mod_lt (x + d / 2) pos
  have low : 2 * (d * ((x + d / 2) / d)) ≤ 2 * x + d := by omega
  have high : 2 * x ≤ 2 * (d * ((x + d / 2) / d)) + d := by omega
  have low : (2 * (d * ((x + d / 2) / d : ℕ)) : ℚ) ≤ 2 * x + d := by exact_mod_cast low
  have high : (2 * x : ℚ) ≤ 2 * (d * ((x + d / 2) / d : ℕ)) + d := by exact_mod_cast high
  have divisor : (0 : ℚ) < d := by exact_mod_cast pos
  generalize (((x + d / 2) / d : ℕ) : ℚ) = q at low high ⊢
  have error : q - x / d = (d * q - x) / d := by
    field_simp
  rw [error, abs_le]
  constructor
  · rw [le_div_iff₀ divisor]
    linarith
  · rw [div_le_iff₀ divisor]
    linarith

theorem convert_error {c : ClockConverter} (positive : c.Positive) {v : ℕ} (first : v * c.mul1 + c.div1 / 2 < 2 ^ 64)
    (second : (v * c.mul1 + c.div1 / 2) / c.div1 * c.mul2 + c.div2 / 2 < 2 ^ 64) :
    |(c.convert v : ℚ) - v * c.mul1 * c.mul2 / (c.div1 * c.div2)| ≤ 1 / 2 + c.mul2 / (2 * c.div2) := by
  have value : c.convert v = ((v * c.mul1 + c.div1 / 2) / c.div1 * c.mul2 + c.div2 / 2) / c.div2 := by
    unfold convert
    simp only
    have product : (v * c.mul1 + c.div1 / 2) / c.div1 * c.mul2 < 2 ^ 64 := by omega
    rw [u64_of_lt (by omega : v * c.mul1 < 2 ^ 64), u64_of_lt first, u64_of_lt product, u64_of_lt second]
  rw [value]
  have div2 : (0 : ℚ) < c.div2 := by exact_mod_cast positive.div2
  have inner := rounded_div (x := v * c.mul1) positive.div1
  have outer := rounded_div (x := (v * c.mul1 + c.div1 / 2) / c.div1 * c.mul2) positive.div2
  push_cast at inner outer ⊢
  generalize (((v * c.mul1 + c.div1 / 2) / c.div1 : ℕ) : ℚ) = t at inner outer ⊢
  generalize ((((v * c.mul1 + c.div1 / 2) / c.div1 * c.mul2 + c.div2 / 2) / c.div2 : ℕ) : ℚ) = r at outer ⊢
  have factor : (0 : ℚ) ≤ c.mul2 / c.div2 := div_nonneg (cast_nonneg _) div2.le
  have carried : |t * c.mul2 / c.div2 - v * c.mul1 * c.mul2 / (c.div1 * c.div2)| ≤ c.mul2 / (2 * c.div2) := by
    calc |t * c.mul2 / c.div2 - v * c.mul1 * c.mul2 / (c.div1 * c.div2)|
        = |(t - v * c.mul1 / c.div1) * (c.mul2 / c.div2)| := by
          congr 1
          field_simp
      _ = |t - v * c.mul1 / c.div1| * (c.mul2 / c.div2) := by rw [abs_mul, abs_of_nonneg factor]
      _ ≤ 1 / 2 * (c.mul2 / c.div2) := mul_le_mul_of_nonneg_right inner factor
      _ = c.mul2 / (2 * c.div2) := by ring
  calc |r - v * c.mul1 * c.mul2 / (c.div1 * c.div2)|
      = |(r - t * c.mul2 / c.div2) + (t * c.mul2 / c.div2 - v * c.mul1 * c.mul2 / (c.div1 * c.div2))| := by
        congr 1
        ring
    _ ≤ |r - t * c.mul2 / c.div2| + |t * c.mul2 / c.div2 - v * c.mul1 * c.mul2 / (c.div1 * c.div2)| := abs_add_le _ _
    _ ≤ 1 / 2 + c.mul2 / (2 * c.div2) := add_le_add outer carried

end Convert

/-- The converter for any two ratios exists, is exact unless it was rounded, and converts with
two roundings. -/
theorem construct_preserves_ratio {m1 d1 m2 d2 fuel : ℕ} (pos : 1 ≤ m1 ∧ 1 ≤ d1 ∧ 1 ≤ m2 ∧ 1 ≤ d2)
    (small : m1 * m2 < 2 ^ 64 ∧ d1 * d2 < 2 ^ 64) (enough : 64 < fuel) :
    ∃ c r, construct fuel m1 d1 m2 d2 = some (c, r) ∧ (c.mul1 ≠ 0 ∧ c.mul2 ≠ 0 ∧ c.div1 ≠ 0 ∧ c.div2 ≠ 0) ∧ r ≤ 2 ∧
      (r = 0 → c.mul1 * c.mul2 * d1 * d2 = c.div1 * c.div2 * m1 * m2) ∧
      |(c.mul1 * c.mul2 * d1 * d2 : ℚ) / (c.div1 * c.div2 * m1 * m2) - 1| ≤ 1 / 2 ^ 14 ∧
      ∀ v : ℕ, v * c.mul1 + c.div1 / 2 < 2 ^ 64 →
        (v * c.mul1 + c.div1 / 2) / c.div1 * c.mul2 + c.div2 / 2 < 2 ^ 64 →
        |(c.convert v : ℚ) - v * c.mul1 * c.mul2 / (c.div1 * c.div2)| ≤ 1 / 2 + c.mul2 / (2 * c.div2) := by
  obtain ⟨pos1, pos2, pos3, pos4⟩ := pos
  have upper : 0 < m1 * m2 := Nat.mul_pos pos1 pos3
  have lower : 0 < d1 * d2 := Nat.mul_pos pos2 pos4
  obtain ⟨c, r, ended, positive, few, near⟩ := construct_spec ⟨upper, lower⟩ small enough
  refine ⟨c, r, ended, ?_, few, ?_, ?_, fun v first second => convert_error positive first second⟩
  · exact ⟨positive.mul1.ne', positive.mul2.ne', positive.div1.ne', positive.div2.ne'⟩
  · rintro rfl
    have exact := near.exact
    calc c.mul1 * c.mul2 * d1 * d2 = c.mul1 * c.mul2 * (d1 * d2) := by ring
      _ = m1 * m2 * (c.div1 * c.div2) := exact
      _ = c.div1 * c.div2 * m1 * m2 := by ring
  · have error := near.error few ⟨upper, Nat.mul_pos positive.div1 positive.div2⟩
    push_cast at error
    rwa [show (c.mul1 * c.mul2 * d1 * d2 : ℚ) = c.mul1 * c.mul2 * (d1 * d2) by ring,
      show (c.div1 * c.div2 * m1 * m2 : ℚ) = c.div1 * c.div2 * (m1 * m2) by ring]

theorem construct_preserves_ratio_ticks :
    ∃ c r, construct 65 1000000 1 100 1000000000 = some (c, r) ∧
      (c.mul1 ≠ 0 ∧ c.mul2 ≠ 0 ∧ c.div1 ≠ 0 ∧ c.div2 ≠ 0) ∧ r ≤ 2 ∧
      (r = 0 → c.mul1 * c.mul2 * 1 * 1000000000 = c.div1 * c.div2 * 1000000 * 100) ∧
      |(c.mul1 * c.mul2 * (1 : ℕ) * (1000000000 : ℕ) : ℚ) / (c.div1 * c.div2 * (1000000 : ℕ) * (100 : ℕ)) - 1| ≤
        1 / 2 ^ 14 ∧
      ∀ v : ℕ, v * c.mul1 + c.div1 / 2 < 2 ^ 64 →
        (v * c.mul1 + c.div1 / 2) / c.div1 * c.mul2 + c.div2 / 2 < 2 ^ 64 →
        |(c.convert v : ℚ) - v * c.mul1 * c.mul2 / (c.div1 * c.div2)| ≤ 1 / 2 + c.mul2 / (2 * c.div2) :=
  construct_preserves_ratio (by decide) (by decide) (by decide)

/-- Half the second divisor may overflow where the second product does not. -/
theorem convert_overflow :
    ∃ c r v, construct 65 42007935 2 1 1 = some (c, r) ∧ v * c.mul1 + c.div1 / 2 < 2 ^ 64 ∧
      (v * c.mul1 + c.div1 / 2) / c.div1 * c.mul2 < 2 ^ 64 ∧
      ¬ |(c.convert v : ℚ) - v * c.mul1 * c.mul2 / (c.div1 * c.div2)| ≤ 1 / 2 + c.mul2 / (2 * c.div2) := by
  refine ⟨⟨164737, 1, 255, 2⟩, 0, 439125228929, by decide +kernel, by decide, by decide, ?_⟩
  rw [show convert ⟨164737, 1, 255, 2⟩ 439125228929 = 0 by decide, abs_le]
  norm_num

end ClockConverter

end Ecos
