import Ecos.Libc.TimeRoundtrip

namespace Ecos.Libc.Time
open Calendar

/-- `Cyg_libc_time_dst`. -/
inductive Dst where
  | na
  | off
  | on
  deriving DecidableEq, Repr

def Dst.value : Dst → Int
  | .na => -1
  | .off => 0
  | .on => 1

/-- What `cyg_libc_time_getzoneoffsets` reads. -/
structure Zone where
  currentDstStat : Dst
  currentStdOffset : Int
  currentDstOffset : Int

/-- `tm_sec` is an `int` of 32 bits. -/
def Tm.addSec (tm : Tm) (offset : Int) : Tm := { tm with sec := (tm.sec + offset).bmod (2 ^ 32) }

/-- `localtime_r`. -/
def localtimeR (zone : Zone) (timer : Int) : Tm :=
  let tm : Tm := { gmtimeR timer with isdst := zone.currentDstStat.value }
  if tm.isdst = 0 then normalizeStructtm (tm.addSec zone.currentStdOffset)
  else if 0 < tm.isdst then normalizeStructtm (tm.addSec zone.currentDstOffset)
  else tm

/-- The offset that is active. -/
def Zone.offset (zone : Zone) : Int :=
  match zone.currentDstStat with
  | .na => 0
  | .off => zone.currentStdOffset
  | .on => zone.currentDstOffset

/-- Local time is the shifted time in UTC. -/
def IsShifted (zone : Zone) (t : Int) : Prop :=
  (localtimeR zone t).Agrees (gmtimeR (t + zone.offset)) ∧ (localtimeR zone t).isdst = zone.currentDstStat.value

/-- The seconds do not overflow, the shift leads to a day with the same places in its week and its year, and the calendar
of the normalization has that day and is as far ahead there as at the time itself. -/
structure StaysInStep (t offset : Int) : Prop where
  fits : -2 ^ 31 ≤ (gmtimeR t).sec + offset ∧ (gmtimeR t).sec + offset < 2 ^ 31
  wday : (gmtimeR t).wday = (gmtimeR (t + offset)).wday
  yday : (gmtimeR t).yday = (gmtimeR (t + offset)).yday
  ahead : Ahead (gmtimeR (t + offset)).month ↔ Ahead (gmtimeR t).month
  mday : (gmtimeR (t + offset)).mday ≤ calendar 0 (gmtimeR (t + offset)).month

theorem localtimeR_eq {zone : Zone} (known : zone.currentDstStat ≠ .na) (t : Int) : localtimeR zone t =
    normalizeStructtm (Tm.addSec { gmtimeR t with isdst := zone.currentDstStat.value } zone.offset) := by
  obtain ⟨stat, std, dst⟩ := zone
  cases stat with
  | na => exact absurd rfl known
  | off => rfl
  | on => rfl

theorem normalizeStructtm_kept (tm : Tm) :
    (normalizeStructtm tm).wday = tm.wday ∧ (normalizeStructtm tm).yday = tm.yday := by
  obtain ⟨_, _, _, _, _, mon⟩ := normalizeFields_spec 0 tm
  obtain ⟨tm', eq, same, mon', some, _⟩ := backward_spec (1 - (normalizeFields tm).mday).toNat _ _ mon rfl (by omega)
  obtain ⟨same', _⟩ := forward_spec tm'.mday.toNat _ _ mon' rfl some (by omega)
  have result : normalizeStructtm tm = forward tm'.mday.toNat tm' (yearIsLeap tm'.year) := by
    simp only [normalizeStructtm, eq]
  obtain ⟨_, _, _, wday, yday, _⟩ := same
  obtain ⟨_, _, _, wday', yday', _⟩ := same'
  rw [result]
  exact ⟨wday'.trans wday, yday'.trans yday⟩

theorem bmod_eq_self_iff (value : Int) : value.bmod (2 ^ 32) = value ↔ -2 ^ 31 ≤ value ∧ value < 2 ^ 31 := by
  have low : -(2 ^ 31 : Int) ≤ value.bmod (2 ^ 32) := Int.le_bmod (by decide)
  have high : value.bmod (2 ^ 32) < 2 ^ 31 := Int.bmod_lt (by decide)
  refine ⟨fun same => ?_, fun ⟨low, high⟩ => Int.bmod_eq_of_le low high⟩
  rw [same] at low high
  exact ⟨low, high⟩

theorem fits_of_sameDate {tm g : Tm} {offset : Int} (same : g.instant = tm.instant + offset)
    (date : (normalizeStructtm (tm.addSec offset)).SameDate g) : (tm.sec + offset).bmod (2 ^ 32) = tm.sec + offset := by
  have kept := (normalizeStructtm_spec (tm.addSec offset)).2.1
  have wrapped := Int.bmod_eq_self_sub_mul_bdiv (tm.sec + offset) (2 ^ 32)
  have shift := seconds_shift g
  have shift' := seconds_shift (tm.addSec offset)
  have seconds : (tm.addSec offset).seconds 1900 = tm.seconds 1900 - tm.sec + (tm.sec + offset).bmod (2 ^ 32) := by
    unfold Tm.seconds Tm.addSec Tm.month
    ring
  rw [date.seconds] at kept
  unfold Tm.instant at same
  split_ifs at shift shift' <;> omega

theorem localtime_shifted (zone : Zone) (t : Int) (known : zone.currentDstStat ≠ .na) :
    IsShifted zone t ↔ StaysInStep t zone.offset := by
  obtain ⟨canonical, instant, _⟩ := gmtimeR_spec (t + zone.offset)
  have start : ({ gmtimeR t with isdst := zone.currentDstStat.value } : Tm).instant = t := (gmtimeR_spec t).2.1
  rw [IsShifted, localtimeR_eq known]
  generalize local' : ({ gmtimeR t with isdst := zone.currentDstStat.value } : Tm) = tm at start
  have fields : tm.sec = (gmtimeR t).sec ∧ tm.month = (gmtimeR t).month ∧ tm.wday = (gmtimeR t).wday ∧
      tm.yday = (gmtimeR t).yday ∧ tm.isdst = zone.currentDstStat.value := by
    rw [← local']
    exact ⟨rfl, rfl, rfl, rfl, rfl⟩
  obtain ⟨sec, month, wday, yday, isdst⟩ := fields
  obtain ⟨wday', yday'⟩ := normalizeStructtm_kept (tm.addSec zone.offset)
  have isdst' := (normalizeStructtm_spec (tm.addSec zone.offset)).2.2
  have later : tm.sec + zone.offset = (tm.sec + zone.offset).bmod (2 ^ 32) →
      (gmtimeR (t + zone.offset)).instant = (tm.addSec zone.offset).instant := by
    intro fits
    rw [instant, ← start]
    unfold Tm.instant Tm.seconds Tm.addSec Tm.month
    rw [← fits]
    ring
  constructor
  · rintro ⟨⟨date, week, year⟩, _⟩
    have fits := fits_of_sameDate (by rw [instant, start]) date
    obtain ⟨ahead, mday⟩ := (normalize_iff canonical (later fits.symm)).mp date
    refine ⟨?_, ?_, ?_, ?_, mday⟩
    · rw [← sec]
      exact (bmod_eq_self_iff _).mp fits
    · exact wday.symm.trans (wday'.symm.trans week)
    · exact yday.symm.trans (yday'.symm.trans year)
    · rw [ahead, ← month]
      rfl
  · rintro ⟨fits, week, year, ahead, mday⟩
    rw [← sec, ← bmod_eq_self_iff] at fits
    refine ⟨⟨(normalize_iff canonical (later fits.symm)).mpr ⟨?_, mday⟩, ?_, ?_⟩, isdst'.trans isdst⟩
    · rw [ahead, ← month]
      rfl
    · exact wday'.trans (wday.trans week)
    · exact yday'.trans (yday.trans year)

theorem localtime_shifted_epoch : IsShifted ⟨.off, 3600, 7200⟩ 0 :=
  (localtime_shifted ⟨.off, 3600, 7200⟩ 0 (by decide)).mpr
    ⟨by decide, by decide, by decide, by decide, by decide⟩

theorem weekday_stale : ¬ ∀ zone t, zone.currentDstStat ≠ .na → (-2 ^ 31 ≤ t ∧ t < 2 ^ 31) →
    (-2 ^ 31 ≤ t + zone.offset ∧ t + zone.offset < 2 ^ 31) → IsShifted zone t := by
  intro shifted
  have week := (shifted ⟨.off, 3600, 7200⟩ 82800 (by decide) (by decide) (by decide)).1.2.1
  revert week
  decide

end Ecos.Libc.Time
