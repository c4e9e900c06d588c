import Ecos.Lib.Ranged

namespace Ecos.Fat.Date
open Ranged Nat

def jd1Jan1970 : Int := 2440588

/-- `jdays_to_gdate`: the day, the month and the year. -/
def jdaysToGdate (jd : Int) : Ranged (Int × Int × Int) := do
  let l ← u32 (jd + 68569)
  let n ← u32 (4 * l)
  let n := n / 146097
  let r ← u32 (146097 * n)
  let r ← u32 (r + 3)
  let l ← u32 (l - r / 4)
  let i ← u32 (l + 1)
  let i ← u32 (4000 * i)
  let i := i / 1461001
  let r ← u32 (1461 * i)
  let l ← u32 (l - r / 4)
  let l ← u32 (l + 31)
  let j ← u32 (80 * l)
  let j := j / 2447
  let r ← u32 (2447 * j)
  let day ← u32 (l - r / 80)
  let day ← i32 day
  let l := j / 11
  let month ← u32 (j + 2)
  let r ← u32 (12 * l)
  let month ← u32 (month - r)
  let month ← i32 month
  let century ← u32 (n - 49)
  let year ← u32 (100 * century)
  let year ← u32 (year + i)
  let year ← u32 (year + l)
  let year ← i32 year
  return (day, month, year)

/-- `gdate_to_jdays`. Division rounds towards zero. -/
def gdateToJdays (day month year : Int) : Ranged Int := do
  let a := (month - 14).tdiv 12
  let b ← i32 (year + 4800)
  let b ← i32 (b + a)
  let b ← i32 (1461 * b)
  let c ← i32 (month - 2)
  let c ← i32 (c - a * 12)
  let c ← i32 (367 * c)
  let d ← i32 (year + 4900)
  let d ← i32 (d + a)
  let d ← i32 (3 * d.tdiv 100)
  let s ← i32 (day - 32075)
  let s ← i32 (s + b.tdiv 4)
  let s ← i32 (s + c.tdiv 12)
  let s ← i32 (s - d.tdiv 4)
  u32 s

/-- `date_unix2dos`: the DOS time and date. -/
def dateUnix2dos (unixTimestamp : Int) : Ranged (Int × Int) := do
  let hour := (unixTimestamp.tdiv 3600).tmod 24
  let min := (unixTimestamp.tdiv 60).tmod 60
  let sec := unixTimestamp.tmod 60
  let jd ← i32 (jd1Jan1970 + unixTimestamp.tdiv (3600 * 24))
  let jd ← u32 jd
  let (day, month, year) ← jdaysToGdate jd
  let year := if year < 1980 then 1980 else year
  let dtime ← u16 (((hour <<< (11 : Nat)).lor (min <<< (5 : Nat))).lor (sec >>> (1 : Nat)))
  let ddate ← u16 ((((year - 1980) <<< (9 : Nat)).lor (month <<< (5 : Nat))).lor day)
  return (dtime, ddate)

def dateDos2unix (dosTime dosDate : Int) : Ranged Int := do
  let sec := (dosTime.land ((1 : Int) <<< (5 : Nat) - 1)) * 2
  let dosTime := dosTime >>> (5 : Nat)
  let min := dosTime.land ((1 : Int) <<< (6 : Nat) - 1)
  let dosTime := dosTime >>> (6 : Nat)
  let hour := dosTime
  let day := dosDate.land ((1 : Int) <<< (5 : Nat) - 1)
  let dosDate := dosDate >>> (5 : Nat)
  let month := dosDate.land ((1 : Int) <<< (4 : Nat) - 1)
  let dosDate := dosDate >>> (4 : Nat)
  let year := dosDate + 1980
  let ts ← gdateToJdays day month year
  let ts ← u32 (ts - jd1Jan1970)
  let ts ← u32 (ts * 24)
  let ts ← u32 (ts * 3600)
  let ts ← u32 (ts + (sec + min * 60 + hour * 3600))
  i32 ts

variable {jd n m i d j day month year : Int}

/-- The last day that a DOS date can name, 31 December 2107. -/
def lastDay : Int := (gdateToJdays 31 12 2107).value

/-- The first second that a DOS date can name, 1 January 1980. -/
def dosEpoch : Int := ((gdateToJdays 1 1 1980).value - jd1Jan1970) * (24 * 3600)

theorem lastDay_eq : lastDay = 2490990 := by decide

theorem dosEpoch_eq : dosEpoch = 315532800 := by decide

/-- A day as the conversion takes it apart: the century `n`, the year `i` in it and the month `j` counted from March.
-/
structure Parts (jd n m i d j : Int) : Prop where
  century : n = 4 * (jd + 68569) / 146097
  inCentury : m = jd + 68569 - (146097 * n + 3) / 4
  year : i = 4000 * (m + 1) / 1461001
  inYear : d = m - 1461 * i / 4 + 31
  month : j = 80 * d / 2447

theorem exists_parts (jd : Int) : ∃ n m i d j, Parts jd n m i d j := ⟨_, _, _, _, _, rfl, rfl, rfl, rfl, rfl⟩

namespace Parts
variable (parts : Parts jd n m i d j) (low : jd1Jan1970 ≤ jd) (high : jd ≤ lastDay)
include parts low high

theorem century_bounds : 68 ≤ n ∧ n ≤ 70 := by
  have bounds := parts.century
  rw [lastDay_eq] at high
  unfold jd1Jan1970 at low
  omega

theorem inCentury_bounds : 0 ≤ m ∧ m ≤ 36524 := by
  have century := parts.century
  have inCentury := parts.inCentury
  omega

theorem year_bounds : 0 ≤ i ∧ i ≤ 99 := by
  have bounds := parts.inCentury_bounds low high
  have year := parts.year
  omega

theorem inYear_bounds : 31 ≤ d ∧ d ≤ 396 := by
  have bounds := parts.inCentury_bounds low high
  have inside := parts.year_bounds low high
  have year := parts.year
  have inYear := parts.inYear
  rcases eq_or_lt_of_le inside.1 with first | later <;> omega

theorem month_bounds : 1 ≤ j ∧ j ≤ 12 := by
  have bounds := parts.inYear_bounds low high
  have month := parts.month
  omega

theorem day_bounds : 1 ≤ d - 2447 * j / 80 ∧ d - 2447 * j / 80 ≤ 31 := by
  have bounds := parts.month_bounds low high
  have month := parts.month
  omega

theorem jdaysToGdate : jdaysToGdate jd =
    pure (d - 2447 * j / 80, j + 2 - 12 * (j / 11), 100 * (n - 49) + i + j / 11) := by
  have centuryBounds := parts.century_bounds low high
  have inCenturyBounds := parts.inCentury_bounds low high
  have yearBounds := parts.year_bounds low high
  have inYearBounds := parts.inYear_bounds low high
  have monthBounds := parts.month_bounds low high
  have dayBounds := parts.day_bounds low high
  obtain ⟨century, inCentury, year, inYear, month⟩ := parts
  rw [lastDay_eq] at high
  unfold jd1Jan1970 at low
  unfold Date.jdaysToGdate
  rw [u32_of_mem (by omega) (by omega), pure_bind, u32_of_mem (by omega) (by omega), pure_bind]
  simp only [← century]
  rw [u32_of_mem (by omega) (by omega), pure_bind, u32_of_mem (by omega) (by omega), pure_bind, ← inCentury,
    u32_of_mem (by omega) (by omega), pure_bind, u32_of_mem (by omega) (by omega), pure_bind,
    u32_of_mem (by omega) (by omega), pure_bind]
  simp only [← year]
  rw [u32_of_mem (by omega) (by omega), pure_bind, u32_of_mem (by omega) (by omega), pure_bind,
    u32_of_mem (by omega) (by omega), pure_bind, ← inYear, u32_of_mem (by omega) (by omega), pure_bind]
  simp only [← month]
  simp (disch := omega) only [u32_of_mem, i32_of_mem, pure_bind]

theorem gdateToJdays : gdateToJdays (d - 2447 * j / 80) (j + 2 - 12 * (j / 11)) (100 * (n - 49) + i + j / 11) =
    pure jd := by
  have centuryBounds := parts.century_bounds low high
  have yearBounds := parts.year_bounds low high
  have monthBounds := parts.month_bounds low high
  have dayBounds := parts.day_bounds low high
  have inCentury := parts.inCentury
  have inYear := parts.inYear
  -- January and February are counted with the year before
  have shift : (j + 2 - 12 * (j / 11) - 14).tdiv 12 = -(j / 11) := by
    rcases le_or_gt 11 j with late | early
    · have last : j = 11 ∨ j = 12 := by omega
      rcases last with rfl | rfl <;> rfl
    · have same : j + 2 - 12 * (j / 11) - 14 = -(12 - j) := by omega
      rw [same, Int.neg_tdiv, Int.tdiv_eq_zero_of_lt (by omega) (by omega)]
      omega
  have years : (1461 * (100 * (n - 49) + i + j / 11 + 4800 + -(j / 11))).tdiv 4 = 36525 * (n - 1) + 1461 * i / 4 := by
    rw [Int.tdiv_eq_ediv_of_nonneg (by omega)]
    omega
  have months : (367 * (j + 2 - 12 * (j / 11) - 2 - -(j / 11) * 12)).tdiv 12 = 2447 * j / 80 := by
    rw [Int.tdiv_eq_ediv_of_nonneg (by omega)]
    omega
  have hundred : (100 * (n - 49) + i + j / 11 + 4900 + -(j / 11)).tdiv 100 = n := by
    rw [Int.tdiv_eq_ediv_of_nonneg (by omega)]
    omega
  have centuries : (3 * n).tdiv 4 = 3 * n / 4 := Int.tdiv_eq_ediv_of_nonneg (by omega)
  have total : d - 2447 * j / 80 - 32075 + (36525 * (n - 1) + 1461 * i / 4) + 2447 * j / 80 - 3 * n / 4 = jd := by
    omega
  rw [lastDay_eq] at high
  unfold jd1Jan1970 at low
  unfold Date.gdateToJdays
  simp only [shift]
  rw [i32_of_mem (by omega) (by omega), pure_bind, i32_of_mem (by omega) (by omega), pure_bind,
    i32_of_mem (by omega) (by omega), pure_bind, i32_of_mem (by omega) (by omega), pure_bind,
    i32_of_mem (by omega) (by omega), pure_bind, i32_of_mem (by omega) (by omega), pure_bind,
    i32_of_mem (by omega) (by omega), pure_bind, i32_of_mem (by omega) (by omega), pure_bind,
    hundred, i32_of_mem (by omega) (by omega), pure_bind, i32_of_mem (by omega) (by omega), pure_bind, years,
    i32_of_mem (by omega) (by omega), pure_bind, months, i32_of_mem (by omega) (by omega), pure_bind]
  rw [centuries, total, i32_of_mem (by omega) (by omega), pure_bind, u32_of_mem (by omega) (by omega)]

theorem year_le : 100 * (n - 49) + i + j / 11 ≤ 2107 := by
  have centuryBounds := parts.century_bounds low high
  have yearBounds := parts.year_bounds low high
  have monthBounds := parts.month_bounds low high
  obtain ⟨century, inCentury, year, inYear, month⟩ := parts
  rw [lastDay_eq] at high
  have last : n ≤ 69 ∨ n = 70 := by omega
  rcases last with early | rfl <;> omega

theorem le_year (later : 2444240 ≤ jd) : 1980 ≤ 100 * (n - 49) + i + j / 11 := by
  have centuryBounds := parts.century_bounds low high
  have yearBounds := parts.year_bounds low high
  have monthBounds := parts.month_bounds low high
  obtain ⟨century, inCentury, year, inYear, month⟩ := parts
  have first : n = 68 ∨ 69 ≤ n := by omega
  rcases first with rfl | late
  · have years : i = 79 ∨ 80 ≤ i := by omega
    rcases years with rfl | late <;> omega
  · omega

end Parts

theorem lor_shiftLeft {a b : Int} {k : Nat} (nonneg : 0 ≤ a) (low : 0 ≤ b) (below : b < 2 ^ k) :
    (a <<< k).lor b = a * 2 ^ k + b := by
  lift a to Nat using nonneg
  lift b to Nat using low
  have below' : b < 2 ^ k := by exact_mod_cast below
  have joined := shiftLeft_add_eq_or_of_lt below' a
  rw [shiftLeft_eq] at joined
  rw [← Int.natCast_shiftLeft]
  change ((a <<< k ||| b : Nat) : Int) = _
  rw [shiftLeft_eq, ← joined]
  push_cast
  rfl

theorem land_mask {a : Int} (k : Nat) (nonneg : 0 ≤ a) : a.land ((1 : Int) <<< k - 1) = a % 2 ^ k := by
  lift a to Nat using nonneg
  have mask : (1 : Int) <<< k - 1 = ((2 ^ k - 1 : Nat) : Int) := by
    rw [Int.shiftLeft_eq, Int.one_mul, Nat.cast_sub Nat.one_le_two_pow]
    push_cast
    rfl
  rw [mask]
  change ((a &&& (2 ^ k - 1) : Nat) : Int) = _
  rw [and_two_pow_sub_one_eq_mod]
  push_cast
  rfl

theorem dateUnix2dos_eq {t : Int} (parts : Parts jd n m i d j) (since : dosEpoch ≤ t) (before : t < 2 ^ 31)
    (days : jd = jd1Jan1970 + t / 86400) (dayEq : day = d - 2447 * j / 80) (monthEq : month = j + 2 - 12 * (j / 11))
    (yearEq : year = 100 * (n - 49) + i + j / 11) : dateUnix2dos t =
      pure (t / 3600 % 24 * 2048 + t / 60 % 60 * 32 + t % 60 / 2, (year - 1980) * 512 + month * 32 + day) := by
  rw [dosEpoch_eq] at since
  have low : jd1Jan1970 ≤ jd := by omega
  have high : jd ≤ lastDay := by
    rw [lastDay_eq]
    unfold jd1Jan1970 at days
    omega
  have later : 2444240 ≤ jd := by
    unfold jd1Jan1970 at days
    omega
  have yearLow := parts.le_year low high later
  have yearHigh := parts.year_le low high
  have monthBounds := parts.month_bounds low high
  have dayBounds := parts.day_bounds low high
  have time : (((t / 3600 % 24) <<< (11 : Nat)).lor ((t / 60 % 60) <<< (5 : Nat))).lor ((t % 60) >>> (1 : Nat)) =
      t / 3600 % 24 * 2048 + t / 60 % 60 * 32 + t % 60 / 2 := by
    have hours : ((t / 3600 % 24) <<< (11 : Nat)).lor ((t / 60 % 60) <<< (5 : Nat)) =
      (t / 3600 % 24 * 64 + t / 60 % 60) <<< (5 : Nat) := by
      rw [Int.shiftLeft_eq (t / 60 % 60), lor_shiftLeft (by omega) (by omega) (by omega), Int.shiftLeft_eq]
      omega
    rw [hours, Int.shiftRight_eq_div_pow, lor_shiftLeft (by omega) (by omega) (by omega)]
    omega
  have date : (((year - 1980) <<< (9 : Nat)).lor (month <<< (5 : Nat))).lor day =
    (year - 1980) * 512 + month * 32 + day := by
    have months : ((year - 1980) <<< (9 : Nat)).lor (month <<< (5 : Nat)) =
      ((year - 1980) * 16 + month) <<< (5 : Nat) := by
      rw [Int.shiftLeft_eq month, lor_shiftLeft (by omega) (by omega) (by omega), Int.shiftLeft_eq]
      omega
    rw [months, lor_shiftLeft (by omega) (by omega) (by omega)]
    omega
  have converted := parts.jdaysToGdate low high
  rw [← dayEq, ← monthEq, ← yearEq] at converted
  rw [lastDay_eq] at high
  unfold jd1Jan1970 at low days
  unfold dateUnix2dos jd1Jan1970
  rw [Int.tdiv_eq_ediv_of_nonneg (by omega), Int.tmod_eq_emod_of_nonneg (by omega),
    Int.tdiv_eq_ediv_of_nonneg (by omega), Int.tmod_eq_emod_of_nonneg (by omega),
    Int.tmod_eq_emod_of_nonneg (by omega), Int.tdiv_eq_ediv_of_nonneg (by omega)]
  have same : (2440588 : Int) + t / (3600 * 24) = jd := by omega
  simp only [same]
  rw [i32_of_mem (by omega) (by omega), pure_bind, u32_of_mem (by omega) (by omega), pure_bind, converted, pure_bind]
  simp only [if_neg (show ¬ year < 1980 by omega), time, date]
  rw [u16_of_mem (by omega) (by omega), pure_bind, u16_of_mem (by omega) (by omega), pure_bind]

theorem dateDos2unix_eq {hour min half : Int} (time : 0 ≤ hour ∧ 0 ≤ min ∧ min < 64 ∧ 0 ≤ half ∧ half < 32)
    (date : 1980 ≤ year ∧ 1 ≤ month ∧ month ≤ 12 ∧ 1 ≤ day ∧ day ≤ 31) (days : gdateToJdays day month year = pure jd)
    (since : jd1Jan1970 ≤ jd) (before : (jd - jd1Jan1970) * 86400 + (half * 2 + min * 60 + hour * 3600) < 2 ^ 31) :
    dateDos2unix (hour * 2048 + min * 32 + half) ((year - 1980) * 512 + month * 32 + day) =
      pure ((jd - jd1Jan1970) * 86400 + (half * 2 + min * 60 + hour * 3600)) := by
  have halfEq : (hour * 2048 + min * 32 + half) % 2 ^ 5 = half := by omega
  have minEq : (hour * 2048 + min * 32 + half) / (2 ^ 5 : Nat) % 2 ^ 6 = min := by omega
  have hourEq : (hour * 2048 + min * 32 + half) / (2 ^ 5 : Nat) / (2 ^ 6 : Nat) = hour := by omega
  have dayEq : ((year - 1980) * 512 + month * 32 + day) % 2 ^ 5 = day := by omega
  have monthEq : ((year - 1980) * 512 + month * 32 + day) / (2 ^ 5 : Nat) % 2 ^ 4 = month := by omega
  have yearEq : ((year - 1980) * 512 + month * 32 + day) / (2 ^ 5 : Nat) / (2 ^ 4 : Nat) + 1980 = year := by omega
  unfold dateDos2unix
  simp (disch := omega) only [land_mask, Int.shiftRight_eq_div_pow]
  rw [halfEq, minEq, hourEq, dayEq, monthEq, yearEq, days, pure_bind, u32_of_mem (by omega) (by omega), pure_bind,
    u32_of_mem (by omega) (by omega), pure_bind, u32_of_mem (by omega) (by omega), pure_bind,
    u32_of_mem (by omega) (by omega), pure_bind, i32_of_mem (by omega) (by omega)]
  congr 1
  omega

theorem date_roundtrip {t : Int} (since : dosEpoch ≤ t) (before : t < 2 ^ 31) :
    (dateUnix2dos t >>= fun dos => dateDos2unix dos.1 dos.2) = pure (t - t % 2) := by
  obtain ⟨n, m, i, d, j, parts⟩ := exists_parts (jd1Jan1970 + t / 86400)
  have from1980 := since
  rw [dosEpoch_eq] at from1980
  have low : jd1Jan1970 ≤ jd1Jan1970 + t / 86400 := by omega
  have high : jd1Jan1970 + t / 86400 ≤ lastDay := by
    rw [lastDay_eq]
    unfold jd1Jan1970
    omega
  have later : 2444240 ≤ jd1Jan1970 + t / 86400 := by
    unfold jd1Jan1970
    omega
  have monthBounds := parts.month_bounds low high
  have back : (jd1Jan1970 + t / 86400 - jd1Jan1970) * 86400 +
      (t % 60 / 2 * 2 + t / 60 % 60 * 60 + t / 3600 % 24 * 3600) = t - t % 2 := by omega
  rw [dateUnix2dos_eq parts since before rfl rfl rfl rfl, pure_bind]
  refine (dateDos2unix_eq ⟨?_, ?_, ?_, ?_, ?_⟩ ⟨parts.le_year low high later, ?_, ?_, parts.day_bounds low high⟩
    (parts.gdateToJdays low high) low ?_).trans (congrArg _ back)
  all_goals omega

/-- Times survive the DOS format up to an odd second, and Julian days survive the calendar, with no overflow on the
way. -/
theorem timestamps_survive :
    (∀ t, dosEpoch ≤ t → t < 2 ^ 31 → (dateUnix2dos t >>= fun dos => dateDos2unix dos.1 dos.2) = pure (t - t % 2)) ∧
    ∀ jd, jd1Jan1970 ≤ jd → jd ≤ lastDay → ∃ day month year, jdaysToGdate jd = pure (day, month, year) ∧
      1 ≤ month ∧ month ≤ 12 ∧ 1 ≤ day ∧ day ≤ 31 ∧ gdateToJdays day month year = pure jd := by
  refine ⟨fun t since before => date_roundtrip since before, fun jd low high => ?_⟩
  obtain ⟨n, m, i, d, j, parts⟩ := exists_parts jd
  have monthBounds := parts.month_bounds low high
  have dayBounds := parts.day_bounds low high
  exact ⟨_, _, _, parts.jdaysToGdate low high, by omega, by omega, dayBounds.1, dayBounds.2,
    parts.gdateToJdays low high⟩

/-- The last second of the leap day of 2000. -/
theorem timestamps_survive_leap : (dateUnix2dos 951868799 >>= fun dos => dateDos2unix dos.1 dos.2) = pure 951868798 ∧
    ∃ day month year, jdaysToGdate 2451604 = pure (day, month, year) ∧
      1 ≤ month ∧ month ≤ 12 ∧ 1 ≤ day ∧ day ≤ 31 ∧ gdateToJdays day month year = pure 2451604 :=
  ⟨timestamps_survive.1 951868799 (by decide) (by decide), timestamps_survive.2 2451604 (by decide) (by decide)⟩

end Ecos.Fat.Date
