import Ecos.Fat.Date
import Ecos.Libc.TimeConvert

/-! The calendar of the FAT filesystem is that of the C library. -/

namespace Ecos.Fat.Date
open Calendar Libc.Time
variable {n m i d j jd : Int}

/-- The days before 1 March of a year. -/
def beforeMarch (year : Int) : Int := 365 * year + year / 4 - year / 100 + year / 400

theorem beforeMarch_succ (year : Int) :
    beforeMarch (year + 1) = beforeMarch year + if yearIsLeap (year + 1) then 366 else 365 := by
  have leap := yearIsLeap_iff (year + 1)
  unfold beforeMarch
  split
  · next isLeap =>
    have rule := leap.mp isLeap
    omega
  · next common =>
    have rule := mt leap.mpr common
    omega

/-- The days before a month of the line of months that begins in January 1900. -/
def beforeMonth (n : Int) : Int := beforeMarch (1900 + (n - 2) / 12) + (153 * ((n - 2) % 12) + 2) / 5

theorem beforeMonth_succ (n : Int) : beforeMonth (n + 1) = beforeMonth n + calendar 1900 n := by
  obtain ⟨q, r, rfl, low, high⟩ : ∃ q r : Int, n = 12 * q + r ∧ 0 ≤ r ∧ r < 12 :=
    ⟨n / 12, n % 12, by omega, by omega, by omega⟩
  rw [calendar_month _ _ _ ⟨low, high⟩, monthLength_eq _ ⟨low, high⟩]
  unfold beforeMonth
  by_cases february : r = 1
  · subst february
    have next := beforeMarch_succ (1900 + (q - 1))
    rw [show 1900 + (q - 1) + 1 = 1900 + q by omega] at next
    rw [show (12 * q + 1 + 1 - 2) / 12 = q by omega, show (12 * q + 1 + 1 - 2) % 12 = 0 by omega,
      show (12 * q + 1 - 2) / 12 = q - 1 by omega, show (12 * q + 1 - 2) % 12 = 11 by omega, next]
    split <;> omega
  · have same : (12 * q + r + 1 - 2) / 12 = (12 * q + r - 2) / 12 := by omega
    rw [same, if_neg february]
    interval_cases r <;> simp at february ⊢ <;> omega

theorem days_eq (n : Int) : days n = beforeMonth n - 693901 := by
  have counted := eq_start beforeMonth (calendar 1900) beforeMonth_succ n
  have first : beforeMonth 0 = 693901 := by decide
  unfold days
  omega

namespace Parts
variable (parts : Parts jd n m i d j) (low : 2444240 ≤ jd) (high : jd ≤ 2465443)
include parts low high

theorem bounds : (68 ≤ n ∧ n ≤ 69) ∧ (0 ≤ i ∧ i ≤ 99) ∧ (1 ≤ j ∧ j ≤ 12) ∧
    (31 ≤ d ∧ d ≤ 396) ∧ 1 ≤ d - 2447 * j / 80 := by
  have top : jd ≤ lastDay := by rw [lastDay_eq]; omega
  have base : jd1Jan1970 ≤ jd := by unfold jd1Jan1970; omega
  have first := parts.century_bounds base top
  have century := parts.century
  exact ⟨by omega, parts.year_bounds base top, parts.month_bounds base top, parts.inYear_bounds base top,
    (parts.day_bounds base top).1⟩

section Month
variable {y : Int} (isYear : y = 100 * (n - 49) + i)
include isYear

/-- The day that is taken apart is in the C library's calendar where its parts say. -/
theorem days_month : days (12 * (y - 1900) + (j + 1)) + (d - 2447 * j / 80) = days 840 + (jd - jd1Jan1970) + 1 := by
  obtain ⟨centuries, years, ⟨least, most⟩, _⟩ := parts.bounds low high
  have first : beforeMonth 840 = 719468 := by decide
  have months : (153 * (j - 1) + 2) / 5 = 2447 * j / 80 - 30 := by
    interval_cases j <;> rfl
  obtain ⟨century, inCentury, year, inYear, month⟩ := parts
  rw [days_eq, days_eq, first, beforeMonth, jd1Jan1970, show 1900 + (12 * (y - 1900) + (j + 1) - 2) / 12 = y by omega,
    show (12 * (y - 1900) + (j + 1) - 2) % 12 = j - 1 by omega, months, beforeMarch,
    show y / 4 = 25 * (n - 49) + i / 4 by omega, show y / 100 = n - 49 by omega, show y / 400 = (n - 49) / 4 by omega]
  have quarters : 1461 * i / 4 = 365 * i + i / 4 := by omega
  rcases (by omega : n = 68 ∨ n = 69) with rfl | rfl <;> omega

theorem day_le : d - 2447 * j / 80 ≤ calendar 1900 (12 * (y - 1900) + (j + 1)) := by
  obtain ⟨centuries, years, ⟨least, most⟩, yearDays, _⟩ := parts.bounds low high
  obtain ⟨century, inCentury, year, inYear, month⟩ := parts
  have leap := yearIsLeap_iff (1900 + (y - 1900 + 1))
  by_cases sameYear : j ≤ 10
  · rw [calendar_month _ _ _ ⟨by omega, by omega⟩, monthLength_eq _ ⟨by omega, by omega⟩]
    interval_cases j <;> simp <;> omega
  · rw [show 12 * (y - 1900) + (j + 1) = 12 * (y - 1900 + 1) + (j - 11) by omega,
      calendar_month _ _ _ ⟨by omega, by omega⟩, monthLength_eq _ ⟨by omega, by omega⟩]
    rcases (by omega : j = 11 ∨ j = 12) with rfl | rfl
    · simp
      omega
    · split
      · split
        · omega
        · next common =>
          -- 29 February is the last day of four years
          have rule := mt leap.mpr common
          have quarters : 1461 * i / 4 = 365 * i + i / 4 := by omega
          by_contra long
          have last : i % 4 = 3 := by omega
          rcases (by omega : n = 68 ∨ n = 69) with rfl | rfl <;> omega
      · omega

end Month
end Parts

/-- A file is stamped with the fields into which `gmtime_r` breaks down the time. -/
theorem stamp_is_utc {t : Int} (since : dosEpoch ≤ t) (before : t < 2 ^ 31) : dateUnix2dos t =
    pure ((gmtimeR t).hour * 2048 + (gmtimeR t).min * 32 + (gmtimeR t).sec / 2,
      ((gmtimeR t).year - 80) * 512 + ((gmtimeR t).mon + 1) * 32 + (gmtimeR t).mday) := by
  obtain ⟨canonical, instant, _⟩ := gmtimeR_spec t
  generalize gmtimeR t = tm at canonical instant ⊢
  obtain ⟨n, m, i, d, j, parts⟩ := exists_parts (jd1Jan1970 + t / 86400)
  have from1980 := since
  rw [dosEpoch_eq] at from1980
  have low : 2444240 ≤ jd1Jan1970 + t / 86400 := by unfold jd1Jan1970; omega
  have high : jd1Jan1970 + t / 86400 ≤ 2465443 := by unfold jd1Jan1970; omega
  have bounds := parts.bounds low high
  have date := parts.days_month low high rfl
  change tm.sec + 60 * tm.min + 3600 * tm.hour + 86400 * (days tm.month + tm.mday) - 86400 * (days 840 + 1) = t at instant
  obtain ⟨sec, min, hour, mon, mday⟩ := canonical
  have same : days tm.month + tm.mday = days (12 * (100 * (n - 49) + i - 1900) + (j + 1)) + (d - 2447 * j / 80) := by
    omega
  obtain ⟨month, day⟩ := Calendar.unique (calendar_pos 1900) same mday ⟨bounds.2.2.2.2, parts.day_le low high rfl⟩
  unfold Tm.month at month
  rw [dateUnix2dos_eq parts since before rfl rfl rfl rfl, day]
  exact congrArg pure (Prod.ext (by simp only; omega) (by simp only; omega))

theorem stamp_is_utc_leap_day : dateUnix2dos 951782400 = pure (0, 20 * 512 + 2 * 32 + 29) := by
  rw [stamp_is_utc (by decide) (by decide)]
  rfl

end Ecos.Fat.Date
