import Ecos.Libc.Time

namespace Ecos.Libc.Time
open Calendar Int

/-- The month of a structure, counted through the years. -/
def Tm.month (tm : Tm) : Int := 12 * tm.year + tm.mon

/-- The seconds that the fields denote, in the calendar with the given base. -/
noncomputable def Tm.seconds (base : Int) (tm : Tm) : Int :=
  tm.sec + 60 * tm.min + 3600 * tm.hour + 86400 * (start (calendar base) tm.month + tm.mday)

/-- The fields are in their ranges, in the calendar with the given base. -/
structure Canonical (base : Int) (tm : Tm) : Prop where
  sec : 0 ≤ tm.sec ∧ tm.sec < 60
  min : 0 ≤ tm.min ∧ tm.min < 60
  hour : 0 ≤ tm.hour ∧ tm.hour < 24
  mon : 0 ≤ tm.mon ∧ tm.mon < 12
  mday : 1 ≤ tm.mday ∧ tm.mday ≤ calendar base tm.month

theorem Canonical.unique {base : Int} {a b : Tm} (one : Canonical base a) (two : Canonical base b)
    (same : a.seconds base = b.seconds base) : a.sec = b.sec ∧ a.min = b.min ∧ a.hour = b.hour ∧ a.mday = b.mday ∧
      a.mon = b.mon ∧ a.year = b.year := by
  obtain ⟨sec, min, hour, mon, mday⟩ := one
  obtain ⟨sec', min', hour', mon', mday'⟩ := two
  unfold Tm.seconds at same
  have days : start (calendar base) a.month + a.mday = start (calendar base) b.month + b.mday := by omega
  obtain ⟨month, day⟩ := Calendar.unique (calendar_pos base) days mday mday'
  unfold Tm.month at month
  refine ⟨by omega, by omega, by omega, day, by omega, by omega⟩

theorem raiseRem_spec {base : Int} {fuel : Nat} {quot rem : Int} (positive : 0 < base) (enough : -rem ≤ fuel)
    (below : rem < base) :
    raiseRem base fuel quot rem = (quot + rem / base, rem % base) := by
  induction fuel generalizing quot rem with
  | zero =>
    rw [raiseRem, ediv_eq_zero_of_lt (by omega) below, emod_eq_of_lt (by omega) below, add_zero]
  | succ fuel ih =>
    rw [raiseRem]
    split_ifs with negative
    · rw [ih (by omega) (by omega), add_emod_right, add_ediv_of_dvd_right (dvd_refl base), Int.ediv_self (by omega)]
      congr 1
      omega
    · rw [ediv_eq_zero_of_lt (by omega) below, emod_eq_of_lt (by omega) below, add_zero]

theorem carry_spec (base : Int) {value : Int} (positive : 0 < base) : carry base value =
    (value / base, value % base) := by
  unfold carry
  split_ifs with outside
  · have whole := tmod_add_tdiv_mul value base
    rw [raiseRem_spec positive (by omega) (tmod_lt_of_pos value positive)]
    have parts : value = value.tmod base + base * value.tdiv base := by
      rw [mul_comm]
      exact whole.symm
    conv_rhs => rw [parts]
    rw [add_mul_ediv_left _ _ (by omega), add_mul_emod_self_left, add_comm]
  · rw [ediv_eq_zero_of_lt (by omega) (by omega), emod_eq_of_lt (by omega) (by omega)]

/-- The structures agree in all that the loops over the months leave alone. -/
def Tm.SameTime (a b : Tm) : Prop :=
  a.sec = b.sec ∧ a.min = b.min ∧ a.hour = b.hour ∧ a.wday = b.wday ∧ a.yday = b.yday ∧ a.isdst = b.isdst

theorem start_pred (n d : Int) : start (calendar 0) (n - 1) + (d + calendar 0 (n - 1)) = start (calendar 0) n + d := by
  have next := start_succ (calendar 0) (n - 1)
  rw [sub_add_cancel] at next
  omega

theorem backward_spec (fuel : Nat) (tm : Tm) (leap : Bool) (mon : 0 ≤ tm.mon ∧ tm.mon < 12)
    (known : leap = yearIsLeap tm.year)
    (enough : 1 - tm.mday ≤ fuel) : ∃ tm', backward fuel tm leap = (tm', yearIsLeap tm'.year) ∧ tm'.SameTime tm ∧
      (0 ≤ tm'.mon ∧ tm'.mon < 12) ∧ 1 ≤ tm'.mday ∧
      start (calendar 0) tm'.month + tm'.mday = start (calendar 0) tm.month + tm.mday := by
  induction fuel generalizing tm leap with
  | zero =>
    refine ⟨tm, ?_, ⟨rfl, rfl, rfl, rfl, rfl, rfl⟩, mon, by omega, rfl⟩
    rw [backward, known]
  | succ fuel ih =>
    rw [backward]
    split_ifs with early first
    · have long := monthLength_bounds (yearIsLeap (tm.year - 1)) 11 (by omega)
      obtain ⟨tm', eq, same, mon', mday', days⟩ := ih { tm with
        year := tm.year - 1, mon := 11, mday := tm.mday + monthLength (yearIsLeap (tm.year - 1)) 11 }
        (yearIsLeap (tm.year - 1)) ⟨by simp, by simp⟩ rfl (by dsimp only; omega)
      refine ⟨tm', eq, same, mon', mday', days.trans ?_⟩
      have month : 12 * (tm.year - 1) + 11 = tm.month - 1 := by
        unfold Tm.month
        omega
      have length := calendar_month 0 (tm.year - 1) 11 (by omega)
      rw [month, zero_add] at length
      change start (calendar 0) (12 * (tm.year - 1) + 11) + (tm.mday + monthLength (yearIsLeap (tm.year - 1)) 11) = _
      rw [month, ← length, start_pred]
    · have long := monthLength_bounds leap (tm.mon - 1) (by omega)
      obtain ⟨tm', eq, same, mon', mday', days⟩ := ih { tm with
        mon := tm.mon - 1, mday := tm.mday + monthLength leap (tm.mon - 1) }
        leap ⟨by dsimp only; omega, by dsimp only; omega⟩ known (by dsimp only; omega)
      refine ⟨tm', eq, same, mon', mday', days.trans ?_⟩
      have month : 12 * tm.year + (tm.mon - 1) = tm.month - 1 := by
        unfold Tm.month
        omega
      have length := calendar_month 0 tm.year (tm.mon - 1) (by omega)
      rw [month, zero_add, ← known] at length
      change start (calendar 0) (12 * tm.year + (tm.mon - 1)) + (tm.mday + monthLength leap (tm.mon - 1)) = _
      rw [month, ← length, start_pred]
    · refine ⟨tm, ?_, ⟨rfl, rfl, rfl, rfl, rfl, rfl⟩, mon, by omega, rfl⟩
      rw [known]

theorem forward_spec (fuel : Nat) (tm : Tm) (leap : Bool) (mon : 0 ≤ tm.mon ∧ tm.mon < 12)
    (known : leap = yearIsLeap tm.year)
    (some : 1 ≤ tm.mday) (enough : tm.mday ≤ fuel + 27) : (forward fuel tm leap).SameTime tm ∧
      (0 ≤ (forward fuel tm leap).mon ∧ (forward fuel tm leap).mon < 12) ∧
      (1 ≤ (forward fuel tm leap).mday ∧ (forward fuel tm leap).mday ≤ calendar 0 (forward fuel tm leap).month) ∧
      start (calendar 0) (forward fuel tm leap).month + (forward fuel tm leap).mday =
        start (calendar 0) tm.month + tm.mday := by
  induction fuel generalizing tm leap with
  | zero =>
    have bounds := calendar_bounds 0 tm.month
    exact ⟨⟨rfl, rfl, rfl, rfl, rfl, rfl⟩, mon, ⟨some, by rw [forward]; omega⟩, rfl⟩
  | succ fuel ih =>
    have bounds := calendar_bounds 0 tm.month
    have length : calendar 0 tm.month = monthLength leap tm.mon := by
      rw [Tm.month, calendar_month _ _ _ mon, zero_add, known]
    have next := start_succ (calendar 0) tm.month
    rw [forward]
    dsimp only
    split_ifs with late last
    · have month : 12 * (tm.year + 1) + 0 = tm.month + 1 := by
        unfold Tm.month
        omega
      obtain ⟨same, mon', mday', days⟩ := ih { tm with
        mday := tm.mday - monthLength leap tm.mon, year := tm.year + 1, mon := 0 }
        (yearIsLeap (tm.year + 1)) ⟨by simp, by simp⟩ rfl (by dsimp only; omega) (by dsimp only; omega)
      refine ⟨same, mon', mday', days.trans ?_⟩
      change start (calendar 0) (12 * (tm.year + 1) + 0) + (tm.mday - monthLength leap tm.mon) = _
      rw [month]
      omega
    · have month : 12 * tm.year + (tm.mon + 1) = tm.month + 1 := by
        unfold Tm.month
        omega
      obtain ⟨same, mon', mday', days⟩ := ih { tm with
        mday := tm.mday - monthLength leap tm.mon, mon := tm.mon + 1 }
        leap ⟨by dsimp only; omega, by dsimp only; omega⟩ known (by dsimp only; omega) (by dsimp only; omega)
      refine ⟨same, mon', mday', days.trans ?_⟩
      change start (calendar 0) (12 * tm.year + (tm.mon + 1)) + (tm.mday - monthLength leap tm.mon) = _
      rw [month]
      omega
    · exact ⟨⟨rfl, rfl, rfl, rfl, rfl, rfl⟩, mon, ⟨some, by omega⟩, rfl⟩

theorem normalizeFields_spec (base : Int) (tm : Tm) : (normalizeFields tm).seconds base = tm.seconds base ∧
    (normalizeFields tm).month = tm.month ∧
    (0 ≤ (normalizeFields tm).sec ∧ (normalizeFields tm).sec < 60) ∧
    (0 ≤ (normalizeFields tm).min ∧ (normalizeFields tm).min < 60) ∧
    (0 ≤ (normalizeFields tm).hour ∧ (normalizeFields tm).hour < 24) ∧
    0 ≤ (normalizeFields tm).mon ∧ (normalizeFields tm).mon < 12 := by
  have month : (normalizeFields tm).month = tm.month := by
    simp only [normalizeFields, carry_spec 12 (by omega), Tm.month]
    omega
  refine ⟨?_, month, ?_⟩
  · rw [Tm.seconds, month, Tm.seconds]
    simp only [normalizeFields, carry_spec 60 (by omega), carry_spec 24 (by omega)]
    omega
  · simp only [normalizeFields, carry_spec 60 (by omega), carry_spec 24 (by omega), carry_spec 12 (by omega)]
    omega

theorem normalizeStructtm_spec (tm : Tm) : Canonical 0 (normalizeStructtm tm) ∧
    (normalizeStructtm tm).seconds 0 = tm.seconds 0 ∧ (normalizeStructtm tm).isdst = tm.isdst := by
  obtain ⟨seconds, _, sec, min, hour, mon⟩ := normalizeFields_spec 0 tm
  obtain ⟨tm', eq, same, mon', some, days⟩ := backward_spec (1 - (normalizeFields tm).mday).toNat _ _ mon rfl
    (by omega)
  obtain ⟨same', mon'', mday'', days'⟩ := forward_spec tm'.mday.toNat _ _ mon' rfl some (by omega)
  have result : normalizeStructtm tm = forward tm'.mday.toNat tm' (yearIsLeap tm'.year) := by
    simp only [normalizeStructtm, eq]
  obtain ⟨s, m, h, _, _, dst⟩ := same
  obtain ⟨s', m', h', _, _, dst'⟩ := same'
  rw [result]
  refine ⟨⟨by omega, by omega, by omega, mon'', mday''⟩, ?_, dst'.trans (dst.trans rfl)⟩
  rw [← seconds, Tm.seconds, Tm.seconds, days', days, s', m', h', s, m, h]

/-- The days before a month in the calendar of the years `1900 + year`. -/
noncomputable def days (month : Int) : Int := start (calendar 1900) month

theorem days_year_succ (year : Int) :
    days (12 * (year + 1)) = days (12 * year) + if yearIsLeap (1900 + year) then 366 else 365 :=
  start_year_succ 1900 year

theorem days_month_succ (year mon : Int) (inside : 0 ≤ mon ∧ mon < 12) :
    days (12 * year + (mon + 1)) = days (12 * year + mon) + monthLength (yearIsLeap (1900 + year)) mon := by
  rw [← add_assoc, days, start_succ, calendar_month _ _ _ inside, days]

/-- The time that the fields denote, in seconds since the beginning of 1970. -/
noncomputable def Tm.instant (tm : Tm) : Int := tm.seconds 1900 - 86400 * (days 840 + 1)

/-- The days of the year and of the week are those of the date. -/
def Dated (tm : Tm) : Prop :=
  tm.yday = days tm.month - days (12 * tm.year) + tm.mday - 1 ∧
    tm.wday = (days tm.month - days 840 + tm.mday - 1 + epochWday) % 7

theorem yearsBackward_spec (fuel : Nat) (tim year wday : Int) (enough : -tim ≤ secsPerYear * fuel) :
    ∃ tim' year' wday', yearsBackward fuel tim year wday = (tim', year', wday') ∧ 0 ≤ tim' ∧
      tim' + secsPerDay * days (12 * year') = tim + secsPerDay * days (12 * year) ∧
      wday' - days (12 * year') = wday - days (12 * year) := by
  induction fuel generalizing tim year wday with
  | zero => exact ⟨tim, year, wday, rfl, by simpa using enough, rfl, rfl⟩
  | succ fuel ih =>
    have step := days_year_succ (year - 1)
    rw [sub_add_cancel] at step
    simp only [secsPerYear, secsPerDay] at enough
    rw [yearsBackward]
    split_ifs with early leap
    · rw [if_pos leap] at step
      obtain ⟨tim', year', wday', eq, positive, secs, week⟩ := ih (tim + secsPerLeapYear) (year - 1)
        (wday - 366) (by simp only [secsPerYear, secsPerLeapYear, secsPerDay]; omega)
      simp only [secsPerLeapYear, secsPerDay] at secs
      exact ⟨tim', year', wday', eq, positive, by simp only [secsPerDay]; omega, by omega⟩
    · rw [if_neg leap] at step
      obtain ⟨tim', year', wday', eq, positive, secs, week⟩ := ih (tim + secsPerYear) (year - 1)
        (wday - 365) (by simp only [secsPerYear, secsPerDay]; omega)
      simp only [secsPerYear, secsPerDay] at secs
      exact ⟨tim', year', wday', eq, positive, by simp only [secsPerDay]; omega, by omega⟩
    · exact ⟨tim, year, wday, rfl, by omega, rfl, rfl⟩

theorem yearsForward_spec (fuel : Nat) (tim year wday : Int) (positive : 0 ≤ tim)
    (enough : tim < secsPerYear * (fuel + 1)) :
    ∃ tim' year' wday', yearsForward fuel tim year wday = (tim', year', wday') ∧ 0 ≤ tim' ∧
      tim' + secsPerDay * days (12 * year') < secsPerDay * days (12 * (year' + 1)) ∧
      tim' + secsPerDay * days (12 * year') = tim + secsPerDay * days (12 * year) ∧
      wday' - days (12 * year') = wday - days (12 * year) := by
  induction fuel generalizing tim year wday with
  | zero =>
    have step := days_year_succ year
    refine ⟨tim, year, wday, rfl, positive, ?_, rfl, rfl⟩
    simp only [secsPerYear, secsPerDay] at enough ⊢
    split_ifs at step <;> omega
  | succ fuel ih =>
    have step := days_year_succ year
    simp only [secsPerYear, secsPerDay] at enough
    rw [yearsForward]
    split_ifs with late leap inside
    · refine ⟨tim, year, wday, rfl, positive, ?_, rfl, rfl⟩
      rw [if_pos leap] at step
      simp only [secsPerLeapYear, secsPerDay] at inside ⊢
      omega
    · rw [if_pos leap] at step
      simp only [secsPerLeapYear, secsPerDay] at inside
      obtain ⟨tim', year', wday', eq, positive', within, secs, week⟩ := ih (tim - secsPerLeapYear) (year + 1)
        (wday + 366) (by simp only [secsPerLeapYear, secsPerDay]; omega)
        (by simp only [secsPerLeapYear, secsPerYear, secsPerDay]; omega)
      simp only [secsPerLeapYear, secsPerDay] at secs
      exact ⟨tim', year', wday', eq, positive', within, by simp only [secsPerDay]; omega, by omega⟩
    · rw [if_neg leap] at step
      simp only [secsPerYear, secsPerDay] at late
      obtain ⟨tim', year', wday', eq, positive', within, secs, week⟩ := ih (tim - secsPerYear) (year + 1)
        (wday + 365) (by simp only [secsPerYear, secsPerDay]; omega)
        (by simp only [secsPerYear, secsPerDay]; omega)
      simp only [secsPerYear, secsPerDay] at secs
      exact ⟨tim', year', wday', eq, positive', within, by simp only [secsPerDay]; omega, by omega⟩
    · refine ⟨tim, year, wday, rfl, positive, ?_, rfl, rfl⟩
      simp only [secsPerYear, secsPerDay] at late ⊢
      split_ifs at step <;> omega

theorem monthsForward_spec (fuel : Nat) (year mon mday : Int) (inside : 0 ≤ mon ∧ mon + fuel = 11) (some : 1 ≤ mday)
    (within : days (12 * year + mon) + mday ≤ days (12 * (year + 1))) :
    ∃ mon' mday', monthsForward (yearIsLeap (1900 + year)) fuel mon mday = (mon', mday') ∧ (0 ≤ mon' ∧ mon' < 12) ∧
      1 ≤ mday' ∧ mday' ≤ monthLength (yearIsLeap (1900 + year)) mon' ∧
      days (12 * year + mon') + mday' = days (12 * year + mon) + mday := by
  have next := days_month_succ year mon (by omega)
  induction fuel generalizing mon mday with
  | zero =>
    have last : 12 * year + (mon + 1) = 12 * (year + 1) := by omega
    rw [last] at next
    exact ⟨mon, mday, rfl, by omega, some, by omega, rfl⟩
  | succ fuel ih =>
    rw [monthsForward]
    split_ifs with late
    · obtain ⟨mon', mday', eq, range, some', le, same⟩ := ih (mon + 1)
        (mday - monthLength (yearIsLeap (1900 + year)) mon) (by omega) (by omega) (by omega)
        (days_month_succ _ _ (by omega))
      exact ⟨mon', mday', eq, range, some', le, by omega⟩
    · exact ⟨mon, mday, rfl, by omega, some, by omega, rfl⟩

theorem weekday (n : Int) : (n.tmod 7 + 7).tmod 7 = n % 7 := by
  have least := lt_tmod_of_pos n (b := 7) (by omega)
  rw [tmod_eq_emod_of_nonneg (by omega), tmod_eq_emod]
  split_ifs <;> simp

theorem gmtimeR_spec (t : Int) : Canonical 1900 (gmtimeR t) ∧ (gmtimeR t).instant = t ∧ Dated (gmtimeR t) := by
  obtain ⟨tim, year, wday, back, positive, secs, week⟩ := yearsBackward_spec (-t / secsPerYear + 1).toNat
    t 70 epochWday (by simp only [secsPerYear, secsPerDay]; omega)
  obtain ⟨tim', year', wday', forth, positive', within, secs', week'⟩ := yearsForward_spec
    (tim / secsPerYear).toNat tim year wday positive
    (by simp only [secsPerYear, secsPerDay]; omega)
  simp only [secsPerDay] at secs secs' within
  obtain ⟨mon, mday, months, inside, some, le, same⟩ := monthsForward_spec 11 year' 0
    (tim' / 86400 + 1) (by omega) (by omega) (by rw [add_zero]; omega)
  rw [add_zero] at same
  have left : 0 ≤ tim' % 86400 := by omega
  have rest : tim' - tim' / 86400 * 86400 = tim' % 86400 := by omega
  have result : gmtimeR t = ⟨(tim' % 86400 % 3600) % 60, (tim' % 86400 % 3600) / 60, tim' % 86400 / 3600, mday, mon,
    year',
      (wday' + tim' / 86400) % 7, tim' / 86400, 0⟩ := by
    have day : (60 * 60 * 24 : Int) = 86400 := rfl
    simp only [gmtimeR, back, forth, secsPerDay, day, tdiv_eq_ediv_of_nonneg positive', months, rest, weekday,
      tdiv_eq_ediv_of_nonneg left, tmod_eq_emod_of_nonneg left,
      tdiv_eq_ediv_of_nonneg (by omega : 0 ≤ tim' % 86400 % 3600),
      tmod_eq_emod_of_nonneg (by omega : 0 ≤ tim' % 86400 % 3600)]
  have full : 12 * (70 : Int) = 840 := rfl
  rw [full] at secs week
  rw [result]
  refine ⟨⟨by dsimp only; omega, by dsimp only; omega, by dsimp only; omega, inside, some, ?_⟩, ?_, ?_, ?_⟩
  · rw [Tm.month, calendar_month _ _ _ inside]
    exact le
  · rw [Tm.instant, Tm.seconds]
    change _ + _ + _ + 86400 * (days (12 * year' + mon) + mday) - _ = _
    rw [same]
    dsimp only
    omega
  · change _ = days (12 * year' + mon) - days (12 * year') + mday - 1
    dsimp only
    omega
  · change _ = (days (12 * year' + mon) - days 840 + mday - 1 + epochWday) % 7
    dsimp only
    congr 1
    omega

theorem countDays_spec (fuel : Nat) (year mon mday i daycount : Int) (low : 0 ≤ i ∧ i ≤ mon) (inside : mon < 12)
    (enough : mon < i + fuel) (counted : daycount = days (12 * year + i) - days (12 * year)) :
    countDays (yearIsLeap (1900 + year)) mon mday fuel i daycount =
      days (12 * year + mon) - days (12 * year) + mday - 1 := by
  induction fuel generalizing i daycount with
  | zero => omega
  | succ fuel ih =>
    rw [countDays]
    split_ifs with here
    · subst here
      omega
    · have next := days_month_succ year i (by omega)
      exact ih _ _ (by omega) (by omega) (by omega)

theorem addYears_spec (k : Nat) (i daycount : Int) :
    addYears k i daycount = daycount + (days (12 * (i + k)) - days (12 * i)) := by
  induction k generalizing i daycount with
  | zero => simp [addYears]
  | succ k ih =>
    have next := days_year_succ i
    have shape : i + 1 + (k : Int) = i + (k + 1 : Nat) := by omega
    rw [addYears, ih, shape]
    omega

theorem subtractYears_spec (k : Nat) (i daycount : Int) :
    subtractYears k i daycount = daycount - (days (12 * i) - days (12 * (i - k))) := by
  induction k generalizing i daycount with
  | zero => simp [subtractYears]
  | succ k ih =>
    have next := days_year_succ (i - 1)
    have shape : i - 1 - (k : Int) = i - (k + 1 : Nat) := by omega
    have year : 1900 + i - 1 = 1900 + (i - 1) := by omega
    rw [sub_add_cancel] at next
    rw [subtractYears, ih, shape, year]
    omega

theorem years_counted (year yday : Int) : (if 70 < year then addYears (year - 70).toNat 70 yday
      else if year < 70 then subtractYears (70 - year).toNat 70 yday else yday) =
      yday + (days (12 * year) - days 840) := by
  have full : 12 * (70 : Int) = 840 := rfl
  split_ifs with later earlier
  · have shape : (70 : Int) + ((year - 70).toNat : Int) = year := by omega
    rw [addYears_spec, shape, full]
  · have shape : (70 : Int) - ((70 - year).toNat : Int) = year := by omega
    rw [subtractYears_spec, shape, full]
    omega
  · have here : year = 70 := by omega
    rw [here, full, sub_self, add_zero]

theorem weekday_fixed (n : Int) : (if n.tmod 7 < 0 then n.tmod 7 + 7 else n.tmod 7) = n % 7 := by
  have least := lt_tmod_of_pos n (b := 7) (by omega)
  have most := tmod_lt_of_pos n (b := 7) (by omega)
  rw [← weekday]
  split_ifs with negative
  · rw [tmod_eq_emod_of_nonneg (by omega : 0 ≤ n.tmod 7 + 7)]
    omega
  · rw [tmod_eq_emod_of_nonneg (by omega : 0 ≤ n.tmod 7 + 7)]
    omega

/-- The fields of a date and time of day. -/
def Tm.SameDate (a b : Tm) : Prop :=
  a.sec = b.sec ∧ a.min = b.min ∧ a.hour = b.hour ∧ a.mday = b.mday ∧ a.mon = b.mon ∧ a.year = b.year

theorem mktime_spec (tm : Tm) (range : 2 < (normalizeStructtm tm).year ∧ (normalizeStructtm tm).year < 138) :
    (mktime tm).1 = (normalizeStructtm tm).instant ∧ (mktime tm).2.SameDate (normalizeStructtm tm) ∧
      Dated (mktime tm).2 ∧
      (mktime tm).2.isdst = tm.isdst := by
  obtain ⟨canonical, _, dst⟩ := normalizeStructtm_spec tm
  have inside := canonical.mon
  have fits : ¬ ((normalizeStructtm tm).year ≤ 2 ∨ 138 ≤ (normalizeStructtm tm).year) := by omega
  have counted := countDays_spec 12 (normalizeStructtm tm).year _ (normalizeStructtm tm).mday 0 0 (by omega) inside.2
    (by omega) (by rw [add_zero, sub_self])
  unfold mktime
  generalize normalizeStructtm tm = norm at *
  simp only [if_neg fits, counted, years_counted, weekday_fixed]
  refine ⟨?_, ⟨rfl, rfl, rfl, rfl, rfl, rfl⟩, ⟨rfl, ?_⟩, dst⟩
  · rw [Tm.instant, Tm.seconds]
    change _ = _ + _ + _ + 86400 * (days (12 * norm.year + norm.mon) + norm.mday) - _
    ring
  · change _ = (days (12 * norm.year + norm.mon) - days 840 + norm.mday - 1 + epochWday) % 7
    congr 1
    ring

end Ecos.Libc.Time
