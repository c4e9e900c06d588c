import Ecos.Libc.TimeConvert

namespace Ecos.Libc.Time
open Calendar

/-- The structures agree apart from `tm_isdst`. -/
def Tm.Agrees (a b : Tm) : Prop := a.SameDate b ∧ a.wday = b.wday ∧ a.yday = b.yday

/-- The time lies in the years 1903 to 2037. -/
def InYears (t : Int) : Prop := 86400 * (days 36 - days 840) ≤ t ∧ t < 86400 * (days 1656 - days 840)

/-- The beginning of 29 February 2000, and of the day after. -/
def february29 : Int := 951782400

def march1 : Int := 951868800

def RoundTrips (t : Int) : Prop := (mktime (gmtimeR t)).1 = t ∧ (mktime (gmtimeR t)).2.Agrees (gmtimeR t)

/-- `mktime` returns the time that the fields denote, as it does for the canonical fields, and leaves the latter. -/
def Preserves (tm : Tm) : Prop :=
  (mktime tm).1 = tm.instant ∧ (mktime tm).1 = (mktime (gmtimeR tm.instant)).1 ∧ (mktime tm).2.Agrees (gmtimeR (mktime tm).1)

/-- The calendar of the normalization is as far ahead at the month given as at the date, which is not the day
that it does not have. -/
def InStep (tm : Tm) : Prop := (Ahead tm.month ∧ tm.instant < february29) ∨ (¬ Ahead tm.month ∧ march1 ≤ tm.instant)

theorem days_2000 : days 1200 = days 840 + 10957 := by
  have years := start_years 1900 70 30
  change days 1200 = days 840 + _ at years
  rw [years]
  rfl

theorem days_march_2000 : 86400 * (days 1202 - days 840) = march1 := by
  have january := days_month_succ 100 0 (by omega)
  have february := days_month_succ 100 1 (by omega)
  have first : days (12 * 100 + 0) = days 840 + 10957 := days_2000
  have short : monthLength (yearIsLeap (1900 + 100)) 0 = 31 := rfl
  have long : monthLength (yearIsLeap (1900 + 100)) 1 = 29 := rfl
  have last : (12 * 100 + (1 + 1) : Int) = 1202 := rfl
  have next : (12 * 100 + (0 + 1) : Int) = 12 * 100 + 1 := rfl
  rw [last] at february
  rw [next] at january
  unfold march1
  omega

theorem days_le {m n : Int} (le : m ≤ n) : days m ≤ days n := start_le (calendar_pos 1900) le

theorem days_succ (n : Int) : days (n + 1) = days n + calendar 1900 n := start_succ _ n

theorem days_gap {m n : Int} (less : m < n) : days m + 28 ≤ days n := by
  have le := days_le (Int.add_one_le_iff.mpr less)
  have next := days_succ m
  have bounds := calendar_bounds 1900 m
  omega

theorem ahead_iff {n : Int} (low : 2 ≤ n) (high : n < 4802) : Ahead n ↔ n < 1202 := by
  rw [Ahead, Int.emod_eq_of_lt (by omega) (by omega)]
  omega

theorem Canonical.within {base : Int} {tm : Tm} (canonical : Canonical base tm) :
    86400 * (days tm.month - days 840) + 86400 * (tm.mday - 1) ≤ tm.instant ∧
      tm.instant < 86400 * (days tm.month - days 840) + 86400 * tm.mday := by
  obtain ⟨sec, min, hour, _, _⟩ := canonical
  have seconds : tm.instant = tm.sec + 60 * tm.min + 3600 * tm.hour + 86400 * (days tm.month + tm.mday) -
      86400 * (days 840 + 1) := rfl
  omega

theorem Canonical.before {tm : Tm} (canonical : Canonical 1900 tm) (n : Int) :
    tm.month < n ↔ tm.instant < 86400 * (days n - days 840) := by
  have within := canonical.within
  have mday := canonical.mday
  have next := days_succ tm.month
  constructor
  · intro less
    have le := days_le (Int.add_one_le_iff.mpr less)
    omega
  · intro less
    by_contra after
    have le := days_le (not_lt.mp after)
    omega

theorem seconds_shift (tm : Tm) : tm.seconds 0 = tm.seconds 1900 + 86400 * if Ahead tm.month then 1 else 0 := by
  rw [Tm.seconds, Tm.seconds, start_shift]
  split_ifs <;> omega

theorem Tm.SameDate.symm {a b : Tm} (same : a.SameDate b) : b.SameDate a := by
  obtain ⟨sec, min, hour, mday, mon, year⟩ := same
  exact ⟨sec.symm, min.symm, hour.symm, mday.symm, mon.symm, year.symm⟩

theorem Tm.SameDate.trans {a b c : Tm} (one : a.SameDate b) (two : b.SameDate c) : a.SameDate c := by
  obtain ⟨sec, min, hour, mday, mon, year⟩ := one
  obtain ⟨sec', min', hour', mday', mon', year'⟩ := two
  exact ⟨sec.trans sec', min.trans min', hour.trans hour', mday.trans mday', mon.trans mon', year.trans year'⟩

theorem Tm.SameDate.month {a b : Tm} (same : a.SameDate b) : a.month = b.month := by
  obtain ⟨_, _, _, _, mon, year⟩ := same
  rw [Tm.month, Tm.month, mon, year]

theorem Tm.SameDate.seconds {a b : Tm} (same : a.SameDate b) (base : Int) : a.seconds base = b.seconds base := by
  have month := same.month
  obtain ⟨sec, min, hour, mday, _, _⟩ := same
  rw [Tm.seconds, Tm.seconds, month, sec, min, hour, mday]

theorem Tm.SameDate.instant {a b : Tm} (same : a.SameDate b) : a.instant = b.instant := by
  rw [Tm.instant, Tm.instant, same.seconds]

theorem normalize_iff {tm g : Tm} (canonical : Canonical 1900 g) (same : g.instant = tm.instant) :
    (normalizeStructtm tm).SameDate g ↔ (Ahead g.month ↔ Ahead tm.month) ∧ g.mday ≤ calendar 0 g.month := by
  obtain ⟨normal, kept, _⟩ := normalizeStructtm_spec tm
  have seconds : g.seconds 1900 = tm.seconds 1900 := by
    unfold Tm.instant at same
    omega
  have shift := seconds_shift g
  have shift' := seconds_shift tm
  constructor
  · intro date
    have atZero := date.seconds 0
    refine ⟨?_, ?_⟩
    · by_cases one : Ahead g.month <;> by_cases two : Ahead tm.month <;>
        simp only [one, two, if_true, if_false] at shift shift' ⊢ <;> omega
    · rw [← date.month, ← date.2.2.2.1]
      exact normal.mday.2
  · rintro ⟨ahead, le⟩
    obtain ⟨sec, min, hour, mon, mday⟩ := canonical
    refine normal.unique ⟨sec, min, hour, mon, mday.1, le⟩ ?_
    simp only [ahead] at shift
    omega

theorem days_february : 86400 * (days 1201 - days 840) + 86400 * 28 = february29 := by
  have march := days_march_2000
  have next : days 1202 = days 1201 + 29 := days_succ 1201
  unfold march1 at march
  unfold february29
  omega

theorem Canonical.february {tm : Tm} (canonical : Canonical 1900 tm) (last : tm.month = 1201) :
    (tm.mday ≤ 28 ↔ tm.instant < february29) ∧ tm.instant < march1 := by
  have within := canonical.within
  have before := canonical.before 1202
  have first := days_february
  rw [days_march_2000] at before
  rw [last] at within
  refine ⟨⟨fun _ => ?_, fun _ => ?_⟩, before.mp (by omega)⟩
  · omega
  · omega

/-- Around the years that `mktime` accepts, the calendar of the normalization is ahead until February 2000, and the last
day of that month is the only one that it does not have. -/
theorem inStep_iff {tm g : Tm} (canonical : Canonical 1900 g) (same : g.instant = tm.instant)
    (near : 24 ≤ g.month ∧ g.month < 1668) :
    InStep tm ↔ (Ahead g.month ↔ Ahead tm.month) ∧ g.mday ≤ calendar 0 g.month := by
  have before := canonical.before 1202
  have before' := canonical.before 1201
  have ahead := ahead_iff (by omega : 2 ≤ g.month) (by omega)
  have ahead' : Ahead (g.month + 1) ↔ g.month < 1201 := by
    rw [ahead_iff (by omega) (by omega)]
    omega
  have shift := calendar_shift g.month
  rw [days_march_2000] at before
  rw [InStep, ← same]
  by_cases last : g.month = 1201
  · have short : calendar 0 g.month = 28 := by
      rw [last]
      rfl
    obtain ⟨day, early⟩ := canonical.february last
    have first : Ahead g.month := ahead.mpr (by omega)
    rw [short, day]
    simp [not_le.mpr early, first]
  · have full : calendar 0 g.month = calendar 1900 g.month := by
      have still : Ahead g.month ↔ Ahead (g.month + 1) := by
        rw [ahead, ahead']
        omega
      simp only [still] at shift
      omega
    have early : g.instant < february29 ↔ g.month < 1202 := by
      refine ⟨fun less => before.mpr (less.trans (by decide)), fun less => ?_⟩
      have first := days_february
      omega
    have late : march1 ≤ g.instant ↔ ¬ g.month < 1202 := by rw [before, not_lt]
    rw [full, ahead, early, late]
    by_cases one : g.month < 1202 <;> by_cases two : Ahead tm.month <;> simp [one, two, canonical.mday.2]

theorem mktime_sameDate (tm : Tm) : (mktime tm).2.SameDate (normalizeStructtm tm) := by
  by_cases range : 2 < (normalizeStructtm tm).year ∧ (normalizeStructtm tm).year < 138
  · exact (mktime_spec tm range).2.1
  · have outside : (normalizeStructtm tm).year ≤ 2 ∨ 138 ≤ (normalizeStructtm tm).year := by omega
    simp only [mktime, if_pos outside]
    exact ⟨rfl, rfl, rfl, rfl, rfl, rfl⟩

theorem Tm.SameDate.dated {a b : Tm} (same : a.SameDate b) (one : Dated a) (two : Dated b) : a.Agrees b := by
  have month := same.month
  have fields := same
  obtain ⟨_, _, _, mday, _, year⟩ := fields
  refine ⟨same, ?_, ?_⟩
  · rw [one.2, two.2, month, mday]
  · rw [one.1, two.1, month, mday, year]

theorem preserves_iff {tm : Tm} (range : 2 < (gmtimeR tm.instant).year ∧ (gmtimeR tm.instant).year < 138 ∨
      2 < (normalizeStructtm tm).year ∧ (normalizeStructtm tm).year < 138) :
    Preserves tm ↔ (normalizeStructtm tm).SameDate (gmtimeR tm.instant) := by
  obtain ⟨canonical, instant, dated⟩ := gmtimeR_spec tm.instant
  have found := mktime_sameDate tm
  constructor
  · rintro ⟨value, _, agrees⟩
    rw [value] at agrees
    exact found.symm.trans agrees.1
  · intro date
    have year := date.2.2.2.2.2
    obtain ⟨value, _, dated', _⟩ := mktime_spec tm (by omega)
    -- the canonical fields are canonical for the normalization too
    have again : (normalizeStructtm (gmtimeR tm.instant)).SameDate (gmtimeR tm.instant) := by
      have normal := (normalize_iff canonical instant).mp date
      exact (normalize_iff canonical rfl).mpr ⟨Iff.rfl, normal.2⟩
    obtain ⟨value', _⟩ := mktime_spec (gmtimeR tm.instant) (by have same := again.2.2.2.2.2; omega)
    have seconds : (normalizeStructtm tm).instant = tm.instant := date.instant.trans instant
    have seconds' : (normalizeStructtm (gmtimeR tm.instant)).instant = tm.instant := again.instant.trans instant
    refine ⟨value.trans seconds, ?_, ?_⟩
    · rw [value, value', seconds, seconds']
    · rw [value, seconds]
      exact (found.trans date).dated dated' dated

theorem inYears_iff {t : Int} : InYears t ↔ 2 < (gmtimeR t).year ∧ (gmtimeR t).year < 138 := by
  obtain ⟨canonical, instant, _⟩ := gmtimeR_spec t
  have first := canonical.before 36
  have last := canonical.before 1656
  have mon := canonical.mon
  rw [instant] at first last
  unfold Tm.month at first last
  unfold InYears
  omega

theorem normalize_near (tm : Tm) : tm.instant - 86400 ≤ (normalizeStructtm tm).instant ∧
    (normalizeStructtm tm).instant ≤ tm.instant + 86400 := by
  have kept := (normalizeStructtm_spec tm).2.1
  have shift := seconds_shift tm
  have shift' := seconds_shift (normalizeStructtm tm)
  unfold Tm.instant
  split_ifs at shift shift' <;> omega

theorem normalize_within (tm : Tm) :
    86400 * (days (normalizeStructtm tm).month - days 840) ≤ (normalizeStructtm tm).instant ∧
      (normalizeStructtm tm).instant < 86400 * (days (normalizeStructtm tm).month + 31 - days 840) := by
  have normal := (normalizeStructtm_spec tm).1
  have within := normal.within
  have mday := normal.mday
  have bounds := calendar_bounds 0 (normalizeStructtm tm).month
  omega

theorem month_near (tm : Tm) (range : InYears tm.instant ∨
      2 < (normalizeStructtm tm).year ∧ (normalizeStructtm tm).year < 138) :
    24 ≤ (gmtimeR tm.instant).month ∧ (gmtimeR tm.instant).month < 1668 := by
  obtain ⟨canonical, instant, _⟩ := gmtimeR_spec tm.instant
  rcases range with inside | inside
  · rw [inYears_iff] at inside
    have mon := canonical.mon
    unfold Tm.month
    omega
  · have mon := (normalizeStructtm_spec tm).1.mon
    have low := days_gap (by unfold Tm.month; omega : 24 < (normalizeStructtm tm).month)
    have high := days_gap (by unfold Tm.month; omega : (normalizeStructtm tm).month < 1656)
    have later := days_gap (by decide : (1656 : Int) < 1668)
    obtain ⟨before, after⟩ := normalize_near tm
    obtain ⟨first, last⟩ := normalize_within tm
    clear inside mon
    refine ⟨not_lt.mp fun less => ?_, (canonical.before 1668).mpr ?_⟩
    · have less' := (canonical.before 24).mp less
      rw [instant] at less'
      clear high last before later less
      omega
    · rw [instant]
      clear low first after
      omega

theorem before_or_after (t first last : Int) :
    (t < last ∧ t < first) ∨ (¬ t < last ∧ last ≤ t) ↔ t < first ∨ last ≤ t := by
  omega

/-- The calendar conversions. `gmtime_r` is right for every time; `mktime` takes its result back to the time except on
29 February 2000; and of fields in any ranges that denote a time of the years 1903 to 2037, or are normalized to one,
`mktime` makes what it should just if the calendar of the normalization is in step with the true one. -/
theorem calendar_roundtrip (t : Int) (tm : Tm) :
    (InYears t → (Canonical 1900 (gmtimeR t) ∧ (gmtimeR t).instant = t ∧ Dated (gmtimeR t)) ∧
      (RoundTrips t ↔ t < february29 ∨ march1 ≤ t)) ∧
    (InYears tm.instant ∨ (2 < (normalizeStructtm tm).year ∧ (normalizeStructtm tm).year < 138) →
      (Preserves tm ↔ InStep tm)) := by
  have preserves : ∀ tm, InYears tm.instant ∨ (2 < (normalizeStructtm tm).year ∧ (normalizeStructtm tm).year < 138) →
      (Preserves tm ↔ InStep tm) := by
    intro tm range
    obtain ⟨canonical, instant, _⟩ := gmtimeR_spec tm.instant
    rw [preserves_iff (range.imp_left inYears_iff.mp), normalize_iff canonical instant,
      inStep_iff canonical instant (month_near _ range)]
  refine ⟨fun inside => ⟨gmtimeR_spec t, ?_⟩, preserves tm⟩
  obtain ⟨canonical, instant, _⟩ := gmtimeR_spec t
  have near := month_near (gmtimeR t) (.inl (by rw [instant]; exact inside))
  have early := canonical.before 1202
  have ahead : Ahead (gmtimeR t).month ↔ (gmtimeR t).month < 1202 := by
    rw [instant] at near
    exact ahead_iff (by omega) (by omega)
  have back : RoundTrips t ↔ Preserves (gmtimeR t) := by
    unfold RoundTrips Preserves
    rw [instant]
    refine ⟨fun ⟨value, agrees⟩ => ⟨value, rfl, ?_⟩, fun ⟨value, _, agrees⟩ => ⟨value, ?_⟩⟩
    · rw [value]
      exact agrees
    · rwa [value] at agrees
  rw [back, preserves _ (.inl (by rw [instant]; exact inside)), InStep, ahead, early, instant, days_march_2000]
  exact before_or_after t february29 march1

/-- The last hour of 1969, and one more. -/
def newYearsEve : Tm := ⟨0, 0, 24, 31, 11, 69, 0, 0, 0⟩

theorem newYearsEve_instant : newYearsEve.instant = 0 := by
  have next := days_month_succ 69 11 (by omega)
  have long : monthLength (yearIsLeap (1900 + 69)) 11 = 31 := rfl
  change 0 + 60 * 0 + 3600 * 24 + 86400 * (days (12 * 69 + 11) + 31) - 86400 * (days 840 + 1) = 0
  rw [show (840 : Int) = 12 * 69 + (11 + 1) from rfl, next, long]
  omega

theorem calendar_roundtrip_epoch : RoundTrips 0 ∧ Preserves newYearsEve := by
  have inside : InYears 0 := inYears_iff.mpr (by decide)
  obtain ⟨trips, preserves⟩ := calendar_roundtrip 0 newYearsEve
  refine ⟨(trips inside).2.mpr (.inl (by decide)), (preserves ?_).mpr (.inl ?_)⟩
  · rw [newYearsEve_instant]
    exact .inl inside
  · rw [newYearsEve_instant]
    exact ⟨by decide, by decide⟩

/-- On 29 February 2000 `mktime` returns the beginning of the next day. -/
theorem leap_day_lost : ¬ ((∀ t, InYears t → RoundTrips t) ∧ ∀ tm, InYears tm.instant → Preserves tm) := by
  rintro ⟨trips, _⟩
  have value := (trips february29 (inYears_iff.mpr (by decide))).1
  revert value
  decide

/-- The fields in the order in which they count. -/
def Tm.ranked (tm : Tm) : List Int := [tm.year, tm.mon, tm.mday, tm.hour, tm.min, tm.sec]

theorem Canonical.instant_lt {a b : Tm} (one : Canonical 1900 a) (two : Canonical 1900 b) (less : a.ranked < b.ranked) :
    a.instant < b.instant := by
  have early := one.within
  have late := two.within
  by_cases month : a.month < b.month
  · have after := ((one.before b.month).mp month)
    have mday := two.mday
    omega
  · obtain ⟨sec, min, hour, mon, mday⟩ := one
    obtain ⟨sec', min', hour', mon', mday'⟩ := two
    simp only [Tm.ranked, List.cons_lt_cons_iff, List.not_lt_nil, and_false, or_false] at less
    unfold Tm.month at month
    have same : a.month = b.month := by
      unfold Tm.month
      omega
    change a.sec + 60 * a.min + 3600 * a.hour + 86400 * (days a.month + a.mday) - 86400 * (days 840 + 1) <
      b.sec + 60 * b.min + 3600 * b.hour + 86400 * (days b.month + b.mday) - 86400 * (days 840 + 1)
    rw [same]
    omega

/-- `gmtime_r` keeps the order of times. -/
theorem gmtime_ordered (s t : Int) : s < t ↔ (gmtimeR s).ranked < (gmtimeR t).ranked := by
  obtain ⟨one, first, _⟩ := gmtimeR_spec s
  obtain ⟨two, second, _⟩ := gmtimeR_spec t
  constructor
  · intro less
    rcases lt_trichotomy (gmtimeR s).ranked (gmtimeR t).ranked with below | same | above
    · exact below
    · simp only [Tm.ranked, List.cons.injEq, and_true] at same
      obtain ⟨year, mon, mday, hour, min, sec⟩ := same
      rw [← first, ← second, Tm.instant, Tm.instant, Tm.seconds, Tm.seconds, Tm.month, Tm.month, year, mon, mday, hour, min,
        sec] at less
      exact absurd less (lt_irrefl _)
    · have more := two.instant_lt one above
      omega
  · intro less
    have below := one.instant_lt two less
    omega

end Ecos.Libc.Time
