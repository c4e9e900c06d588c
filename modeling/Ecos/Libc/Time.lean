import Ecos.Lib.Calendar

namespace Ecos.Libc.Time

/-- `struct tm`. The year is counted from 1900. -/
structure Tm where
  sec : Int
  min : Int
  hour : Int
  mday : Int
  mon : Int
  year : Int
  wday : Int
  yday : Int
  isdst : Int
  deriving DecidableEq, Repr

/-- `cyg_libc_time_year_is_leap`. -/
def yearIsLeap (year : Int) : Bool :=
  if year.tmod 400 = 0 then true
  else if year.tmod 4 = 0 ∧ year.tmod 100 ≠ 0 then true
  else false

/-- `cyg_libc_time_month_lengths`. -/
def monthLengths (leap : Bool) : List Int := [31, if leap then 29 else 28, 31, 30, 31, 30, 31, 31, 30, 31, 30, 31]

/-- An entry of the table. No month outside `0..11` is looked up. -/
def monthLength (leap : Bool) (mon : Int) : Int := (monthLengths leap).getD mon.toNat 31

/-- The loop after `div`: `while (t.rem < 0)`. -/
def raiseRem (base : Int) : Nat → Int → Int → Int × Int
  | 0, quot, rem => (quot, rem)
  | fuel + 1, quot, rem => if rem < 0 then raiseRem base fuel (quot - 1) (rem + base) else (quot, rem)

/-- A field that is to be in `0..base - 1`: what it carries into the next field, and what is left. -/
def carry (base value : Int) : Int × Int :=
  if value < 0 ∨ base - 1 < value then
    raiseRem base (-value.tmod base).toNat (value.tdiv base) (value.tmod base)
  else (0, value)

/-- `while (timeptr->tm_mday < 1)`: move back a month. -/
def backward : Nat → Tm → Bool → Tm × Bool
  | 0, tm, leap => (tm, leap)
  | fuel + 1, tm, leap =>
    if tm.mday < 1 then
      let (tm, leap) :=
        if tm.mon - 1 < 0 then ({ tm with year := tm.year - 1, mon := 11 }, yearIsLeap (tm.year - 1))
        else ({ tm with mon := tm.mon - 1 }, leap)
      -- the number of days in the new current month
      backward fuel { tm with mday := tm.mday + monthLength leap tm.mon } leap
    else (tm, leap)

/-- The second loop: move forward a month. -/
def forward : Nat → Tm → Bool → Tm
  | 0, tm, _ => tm
  | fuel + 1, tm, leap =>
    if monthLength leap tm.mon < tm.mday then
      -- the number of days in the old current month
      let tm : Tm := { tm with mday := tm.mday - monthLength leap tm.mon }
      if 11 < tm.mon + 1 then forward fuel { tm with year := tm.year + 1, mon := 0 } (yearIsLeap (tm.year + 1))
      else forward fuel { tm with mon := tm.mon + 1 } leap
    else tm

/-- The fields before the days are normalized. -/
def normalizeFields (tm : Tm) : Tm :=
  let (toMin, sec) := carry 60 tm.sec
  let (toHour, min) := carry 60 (tm.min + toMin)
  let (toDay, hour) := carry 24 (tm.hour + toHour)
  let (toYear, mon) := carry 12 tm.mon
  { tm with sec := sec, min := min, hour := hour, mday := tm.mday + toDay, mon := mon, year := tm.year + toYear }

/-- `cyg_libc_time_normalize_structtm`. -/
def normalizeStructtm (tm : Tm) : Tm :=
  let tm := normalizeFields tm
  let (tm, leap) := backward (1 - tm.mday).toNat tm (yearIsLeap tm.year)
  forward tm.mday.toNat tm leap

def secsPerDay : Int := 60 * 60 * 24

def secsPerYear : Int := secsPerDay * 365

def secsPerLeapYear : Int := secsPerDay * 366

/-- `CYGNUM_LIBC_TIME_EPOCH_WDAY`: a Thursday. -/
def epochWday : Int := 4

/-- The first loop of `gmtime_r`, with the seconds, the year and the day of the week. -/
def yearsBackward : Nat → Int → Int → Int → Int × Int × Int
  | 0, tim, year, wday => (tim, year, wday)
  | fuel + 1, tim, year, wday =>
    if tim < 0 then
      if yearIsLeap (1900 + (year - 1)) then yearsBackward fuel (tim + secsPerLeapYear) (year - 1) (wday - 366)
      else yearsBackward fuel (tim + secsPerYear) (year - 1) (wday - 365)
    else (tim, year, wday)

def yearsForward : Nat → Int → Int → Int → Int × Int × Int
  | 0, tim, year, wday => (tim, year, wday)
  | fuel + 1, tim, year, wday =>
    if secsPerYear ≤ tim then
      if yearIsLeap (1900 + year) then
        -- the last day of the leap year
        if tim < secsPerLeapYear then (tim, year, wday)
        else yearsForward fuel (tim - secsPerLeapYear) (year + 1) (wday + 366)
      else yearsForward fuel (tim - secsPerYear) (year + 1) (wday + 365)
    else (tim, year, wday)

/-- The loop over the months in `gmtime_r`. -/
def monthsForward (leap : Bool) : Nat → Int → Int → Int × Int
  | 0, mon, mday => (mon, mday)
  | fuel + 1, mon, mday =>
    if monthLength leap mon < mday then monthsForward leap fuel (mon + 1) (mday - monthLength leap mon) else (mon, mday)

def gmtimeR (timer : Int) : Tm :=
  let (tim, year, wday) := yearsBackward (-timer / secsPerYear + 1).toNat timer 70 epochWday
  let (tim, year, wday) := yearsForward (tim / secsPerYear).toNat tim year wday
  let yday := tim.tdiv secsPerDay
  let (mon, mday) := monthsForward (yearIsLeap (1900 + year)) 11 0 (yday + 1)
  let left := tim - yday * secsPerDay
  { sec := (left.tmod 3600).tmod 60
    min := (left.tmod 3600).tdiv 60
    hour := left.tdiv 3600
    mday := mday
    mon := mon
    year := year
    wday := ((wday + yday).tmod 7 + 7).tmod 7
    yday := yday
    isdst := 0 }

/-- The loop of `mktime` that counts the days of the year, from month `i`. -/
def countDays (leap : Bool) (mon mday : Int) : Nat → Int → Int → Int
  | 0, _, daycount => daycount
  | fuel + 1, i, daycount =>
    if i = mon then daycount + (mday - 1) else countDays leap mon mday fuel (i + 1) (daycount + monthLength leap i)

/-- The two loops over the years since and before the epoch. -/
def addYears : Nat → Int → Int → Int
  | 0, _, daycount => daycount
  | fuel + 1, i, daycount => addYears fuel (i + 1) (daycount + if yearIsLeap (1900 + i) then 366 else 365)

def subtractYears : Nat → Int → Int → Int
  | 0, _, daycount => daycount
  | fuel + 1, i, daycount => subtractYears fuel (i - 1) (daycount - if yearIsLeap (1900 + i - 1) then 366 else 365)

/-- `mktime`: the value, and what becomes of the structure. -/
def mktime (tm : Tm) : Int × Tm :=
  let tm := normalizeStructtm tm
  if tm.year ≤ 2 ∨ 138 ≤ tm.year then (-1, tm)
  else
    let yday := countDays (yearIsLeap (1900 + tm.year)) tm.mon tm.mday 12 0 0
    let daycount :=
      if 70 < tm.year then addYears (tm.year - 70).toNat 70 yday
      else if tm.year < 70 then subtractYears (70 - tm.year).toNat 70 yday
      else yday
    let rem := (daycount + epochWday).tmod 7
    let wday := if rem < 0 then rem + 7 else rem
    (tm.sec + 60 * tm.min + 60 * 60 * tm.hour + daycount * 24 * 60 * 60, { tm with wday := wday, yday := yday })

open Calendar List Int

theorem yearIsLeap_iff (year : Int) : yearIsLeap year = true ↔ year % 4 = 0 ∧ (year % 100 ≠ 0 ∨ year % 400 = 0) := by
  have four : year.tmod 4 = 0 ↔ year % 4 = 0 := by rw [← dvd_iff_tmod_eq_zero, dvd_iff_emod_eq_zero]
  have hundred : year.tmod 100 = 0 ↔ year % 100 = 0 := by rw [← dvd_iff_tmod_eq_zero, dvd_iff_emod_eq_zero]
  have fourHundred : year.tmod 400 = 0 ↔ year % 400 = 0 := by rw [← dvd_iff_tmod_eq_zero, dvd_iff_emod_eq_zero]
  unfold yearIsLeap
  split_ifs <;> simp <;> omega

/-- The length of month `n`, counted on through the years: `n` is `12 * year + mon`. The year of the calendar is
`base + year`. -/
def calendar (base n : Int) : Int := monthLength (yearIsLeap (base + n / 12)) (n % 12)

theorem monthLength_eq (leap : Bool) {mon : Int} (inside : 0 ≤ mon ∧ mon < 12) : monthLength leap mon =
    if mon = 1 then (if leap then 29 else 28) else if mon = 3 ∨ mon = 5 ∨ mon = 8 ∨ mon = 10 then 30 else 31 := by
  obtain ⟨low, high⟩ := inside
  interval_cases mon <;> simp [monthLength, monthLengths]

theorem monthLength_bounds (leap : Bool) (mon : Int) (inside : 0 ≤ mon ∧ mon < 12) :
    28 ≤ monthLength leap mon ∧ monthLength leap mon ≤ 31 := by
  rw [monthLength_eq leap inside]
  split_ifs <;> omega

theorem calendar_bounds (base n : Int) : 28 ≤ calendar base n ∧ calendar base n ≤ 31 :=
  monthLength_bounds _ _ ⟨emod_nonneg _ (by omega), emod_lt_of_pos _ (by omega)⟩

theorem calendar_pos (base n : Int) : 0 < calendar base n := by
  have bounds := calendar_bounds base n
  omega

theorem calendar_month (base year mon : Int) (inside : 0 ≤ mon ∧ mon < 12) :
    calendar base (12 * year + mon) = monthLength (yearIsLeap (base + year)) mon := by
  rw [calendar, show (12 * year + mon) / 12 = year by omega, show (12 * year + mon) % 12 = mon by omega]

/-- The days of a year. -/
def yearLength (base year : Int) : Int := if yearIsLeap (base + year) then 366 else 365

theorem start_month (base year : Int) (k : Nat) (inside : k ≤ 12) : start (calendar base) (12 * year + k) =
    start (calendar base) (12 * year) + ((monthLengths (yearIsLeap (base + year))).take k).sum := by
  induction k with
  | zero => simp
  | succ k ih =>
    have next := start_succ (calendar base) (12 * year + k)
    rw [ih (by omega), calendar_month _ _ _ ⟨by omega, by omega⟩] at next
    have shape : (12 * year + (k + 1 : Nat) : Int) = 12 * year + k + 1 := by omega
    have some : k < (monthLengths (yearIsLeap (base + year))).length := by
      change k < 12
      omega
    rw [shape, next, take_add_one, sum_append, ← add_assoc]
    simp [monthLength, List.getD, getElem?_eq_getElem some]

theorem start_year_succ (base year : Int) : start (calendar base) (12 * (year + 1)) =
    start (calendar base) (12 * year) + yearLength base year := by
  have whole := start_month base year 12 le_rfl
  rw [show 12 * (year + 1) = 12 * year + (12 : Nat) by omega, whole, yearLength]
  cases yearIsLeap (base + year) <;> rfl

theorem start_years (base year : Int) (k : Nat) : start (calendar base) (12 * (year + k)) =
    start (calendar base) (12 * year) + ((List.range k).map fun i : Nat => yearLength base (year + i)).sum := by
  induction k with
  | zero => simp
  | succ k ih =>
    have next := start_year_succ base (year + k)
    rw [Nat.cast_succ, ← add_assoc, next, ih, range_succ]
    simp [add_assoc]

/-- The calendar of `cyg_libc_time_normalize_structtm` takes the years since 1900 for the year. From March of a year
that it wrongly takes for a leap year to February of the leap year that it misses it is one day ahead. -/
def Ahead (n : Int) : Prop := (n - 2) % 4800 < 1200

instance : DecidablePred Ahead := fun n => inferInstanceAs (Decidable ((n - 2) % 4800 < 1200))

theorem ahead_february {n : Int} (february : n % 12 = 1) : Ahead n ↔ 1 ≤ n / 12 % 400 ∧ n / 12 % 400 ≤ 100 := by
  unfold Ahead
  omega

theorem ahead_march {n : Int} (february : n % 12 = 1) : Ahead (n + 1) ↔ n / 12 % 400 < 100 := by
  unfold Ahead
  omega

theorem leap_shift (year : Int) : (year % 400 ≠ 0 ∧ year % 400 ≠ 100 ∧ yearIsLeap year = yearIsLeap (1900 + year)) ∨
    (year % 400 = 0 ∧ yearIsLeap year = true ∧ yearIsLeap (1900 + year) = false) ∨
    (year % 400 = 100 ∧ yearIsLeap year = false ∧ yearIsLeap (1900 + year) = true) := by
  have short := yearIsLeap_iff year
  have long := yearIsLeap_iff (1900 + year)
  cases first : yearIsLeap year <;> cases second : yearIsLeap (1900 + year) <;>
    simp only [first, second, Bool.false_eq_true, false_iff, true_iff] at short long ⊢ <;> simp <;> omega

theorem calendar_shift (n : Int) :
    calendar 0 n + (if Ahead n then 1 else 0) = calendar 1900 n + if Ahead (n + 1) then 1 else 0 := by
  have inside : 0 ≤ n % 12 ∧ n % 12 < 12 := ⟨emod_nonneg _ (by omega), emod_lt_of_pos _ (by omega)⟩
  have leap := leap_shift (n / 12)
  rw [calendar, calendar, monthLength_eq _ inside, monthLength_eq _ inside, zero_add]
  by_cases february : n % 12 = 1
  · have before := ahead_february february
    have after := ahead_march february
    rw [if_pos february, if_pos february]
    rcases leap with ⟨first, second, same⟩ | ⟨century, short, long⟩ | ⟨century, short, long⟩
    · have still : Ahead n ↔ Ahead (n + 1) := by
        rw [before, after]
        omega
      simp only [same, still]
    · simp [short, long, before, after, century]
    · simp [short, long, before, after, century]
  · have same : Ahead n ↔ Ahead (n + 1) := by
      unfold Ahead
      omega
    simp only [february, if_false, same]

theorem start_shift (n : Int) : start (calendar 0) n = start (calendar 1900) n + if Ahead n then 1 else 0 := by
  have counted := eq_start (fun n => start (calendar 1900) n + if Ahead n then 1 else 0) (calendar 0) (by
    intro n
    have shift := calendar_shift n
    rw [start_succ]
    linarith) n
  have first : ¬ Ahead 0 := by decide
  simp only [start_zero, if_neg first] at counted
  linarith

end Ecos.Libc.Time
