import Mathlib.Tactic.Ring
import Ecos.Clock.AlarmLists

namespace Ecos
open Nat Counter Function

/-- The times `t`, `t + i`, `t + 2 * i` and so on. -/
def nominalTimes (t i : ℕ) : Set ℕ := {n | ∃ k, n = t + k * i}

section Nominal
variable {t i c n : ℕ}

theorem nominal_first : t ∈ nominalTimes t i := ⟨0, by simp⟩

theorem nominal_le (mem : n ∈ nominalTimes t i) : t ≤ n := by
  obtain ⟨k, rfl⟩ := mem
  exact le_add_right t _

theorem nominal_skip (mem : n ∈ nominalTimes (t + i) i) : n ∈ nominalTimes t i := by
  obtain ⟨k, rfl⟩ := mem
  exact ⟨k + 1, by ring⟩

theorem nominal_second (mem : n ∈ nominalTimes t i) (late : t < n) : n ∈ nominalTimes (t + i) i := by
  obtain ⟨k, rfl⟩ := mem
  cases k with
  | zero => simp at late
  | succ k => exact ⟨k, by ring⟩

theorem nominal_iff : n ∈ nominalTimes t i ↔ t ≤ n ∧ i ∣ n - t := by
  constructor
  · rintro ⟨k, rfl⟩
    exact ⟨le_add_right t _, by simp⟩
  · rintro ⟨le, k, eq⟩
    refine ⟨k, ?_⟩
    rw [mul_comm k i, ← eq]
    omega

theorem isLeast_ahead (ahead : c ≤ t) : IsLeast {n ∈ nominalTimes t i | c ≤ n} t :=
  ⟨⟨nominal_first, ahead⟩, fun _ mem => nominal_le mem.1⟩

theorem isLeast_rounded (pos : 0 < i) (past : t ≤ c) :
    IsLeast {n ∈ nominalTimes t i | c ≤ n} (t + i * ((c + i - t - 1) / i)) := by
  have split := Nat.div_add_mod (c + i - t - 1) i
  have rest := Nat.mod_lt (c + i - t - 1) pos
  refine ⟨⟨⟨(c + i - t - 1) / i, by ring⟩, by omega⟩, ?_⟩
  rintro n ⟨⟨k, rfl⟩, reached⟩
  -- a smaller multiple stays below the present time
  by_contra! less
  have fewer : k < (c + i - t - 1) / i := by
    rw [mul_comm k, add_lt_add_iff_left] at less
    exact Nat.lt_of_mul_lt_mul_left less
  have bound := mul_le_mul_left i fewer
  rw [Nat.succ_eq_add_one, Nat.mul_add_one, mul_comm i k] at bound
  omega

end Nominal

namespace Counter
variable {cfg : CounterConfig} {A : Type} [DecidableEq A] {s : Counter cfg A} {a : A}

theorem synchronize_frame : (s.synchronize a).counter = s.counter ∧ (s.synchronize a).called = s.called ∧
    ((s.synchronize a).alarm a).interval = (s.alarm a).interval := by
  unfold synchronize
  split
  · dsimp only
    split
    · simp [modify]
    · exact ⟨rfl, rfl, rfl⟩
  · exact ⟨rfl, rfl, rfl⟩

theorem distance_near {t i c : BitVec 64} (room : c.toNat + i.toNat < 2 ^ 64) (near : t.toNat ≤ c.toNat + i.toNat) :
    (c + i - t).toNat = c.toNat + i.toNat - t.toNat := by
  rw [BitVec.toNat_sub, BitVec.toNat_add]
  omega

theorem distance_far {t i c : BitVec 64} (far : c.toNat + i.toNat < t.toNat) :
    (c + i - t).toNat = 2 ^ 64 + c.toNat + i.toNat - t.toNat := by
  have := t.isLt
  rw [BitVec.toNat_sub, BitVec.toNat_add]
  omega

section
variable (periodic : (s.alarm a).interval ≠ 0)
include periodic

theorem synchronize_near (room : s.counter.toNat + (s.alarm a).interval.toNat < 2 ^ 64)
    (near : (s.trigger a).toNat ≤ s.counter.toNat + (s.alarm a).interval.toNat) :
    IsLeast {n ∈ nominalTimes (s.trigger a).toNat (s.alarm a).interval.toNat | s.counter.toNat ≤ n}
      ((s.synchronize a).trigger a).toNat := by
  have pos : 0 < (s.alarm a).interval.toNat := by
    rw [pos_iff_ne_zero]
    exact fun zero => periodic (BitVec.eq_of_toNat_eq zero)
  have distance := distance_near room near
  unfold synchronize
  rw [if_pos periodic]
  dsimp only [trigger] at near distance ⊢
  split
  · next past =>
    rw [BitVec.lt_def, distance] at past
    have least := isLeast_rounded pos (show (s.alarm a).trigger.toNat ≤ s.counter.toNat by omega)
    have one : (1 : BitVec 64).toNat = 1 := rfl
    have back : (s.counter + (s.alarm a).interval - (s.alarm a).trigger - 1).toNat =
        s.counter.toNat + (s.alarm a).interval.toNat - (s.alarm a).trigger.toNat - 1 := by
      rw [BitVec.toNat_sub, distance, one]
      omega
    have bound := mul_div_le (s.counter.toNat + (s.alarm a).interval.toNat - (s.alarm a).trigger.toNat - 1)
      (s.alarm a).interval.toNat
    have rounded : ((s.alarm a).trigger + (s.alarm a).interval *
        ((s.counter + (s.alarm a).interval - (s.alarm a).trigger - 1) / (s.alarm a).interval)).toNat =
        (s.alarm a).trigger.toNat + (s.alarm a).interval.toNat *
          ((s.counter.toNat + (s.alarm a).interval.toNat - (s.alarm a).trigger.toNat - 1) /
            (s.alarm a).interval.toNat) := by
      rw [BitVec.toNat_add, BitVec.toNat_mul, BitVec.toNat_udiv, back]
      rw [mod_eq_of_lt (by omega), mod_eq_of_lt (by omega)]
    simpa only [modify, update_self, rounded] using least
  · next ahead =>
    rw [BitVec.lt_def, distance] at ahead
    exact isLeast_ahead (by omega)

theorem synchronize_far (far : s.counter.toNat + (s.alarm a).interval.toNat < (s.trigger a).toNat) :
    s.counter.toNat ≤ ((s.synchronize a).trigger a).toNat ∧
      ((s.synchronize a).trigger a).toNat < s.counter.toNat + (s.alarm a).interval.toNat := by
  have pos : 0 < (s.alarm a).interval.toNat := by
    rw [pos_iff_ne_zero]
    exact fun zero => periodic (BitVec.eq_of_toNat_eq zero)
  have distance := distance_far far
  unfold synchronize
  rw [if_pos periodic]
  dsimp only [trigger] at far distance ⊢
  have past : (s.alarm a).interval < s.counter + (s.alarm a).interval - (s.alarm a).trigger := by
    rw [BitVec.lt_def, distance]
    omega
  rw [if_pos past]
  have one : (1 : BitVec 64).toNat = 1 := rfl
  have back : (s.counter + (s.alarm a).interval - (s.alarm a).trigger - 1).toNat =
      2 ^ 64 + s.counter.toNat + (s.alarm a).interval.toNat - (s.alarm a).trigger.toNat - 1 := by
    rw [BitVec.toNat_sub, distance, one]
    omega
  have split := div_add_mod (2 ^ 64 + s.counter.toNat + (s.alarm a).interval.toNat - (s.alarm a).trigger.toNat - 1)
    (s.alarm a).interval.toNat
  have rest := mod_lt (2 ^ 64 + s.counter.toNat + (s.alarm a).interval.toNat - (s.alarm a).trigger.toNat - 1) pos
  have rounded : ((s.alarm a).trigger + (s.alarm a).interval *
      ((s.counter + (s.alarm a).interval - (s.alarm a).trigger - 1) / (s.alarm a).interval)).toNat =
      (s.alarm a).trigger.toNat + (s.alarm a).interval.toNat *
        ((2 ^ 64 + s.counter.toNat + (s.alarm a).interval.toNat - (s.alarm a).trigger.toNat - 1) /
          (s.alarm a).interval.toNat) - 2 ^ 64 := by
    rw [BitVec.toNat_add, BitVec.toNat_mul, BitVec.toNat_udiv, back]
    generalize (s.alarm a).interval.toNat * (_ / _) = moved at split
    omega
  simp only [modify, update_self, rounded]
  omega

/-- `add_alarm` of an alarm that is due, whose alarm function touches no alarm: it is called, and
goes on in phase from its second time. -/
theorem addAlarm_due (due : s.trigger a ≤ s.counter) : addAlarm (handle · .done) s a =
      ((((s.modify a fun x => { x with enabled := true }).call a).modify a fun x =>
        { x with trigger := x.trigger + x.interval }).synchronize a).link a := by
  unfold addAlarm
  have here : (s.modify a fun x => { x with enabled := true }).trigger a ≤
      (s.modify a fun x => { x with enabled := true }).counter := by
    simpa [trigger, modify] using due
  have again : (((s.modify a fun x => { x with enabled := true }).call a).alarm a).interval ≠ 0 ∧
      (((s.modify a fun x => { x with enabled := true }).call a).alarm a).enabled = true := by
    simpa [modify, call] using periodic
  dsimp only
  rw [if_pos here, handle, if_pos again]

end

theorem addAlarm_ahead {run : Counter cfg A → Counter cfg A} (ahead : ¬ s.trigger a ≤ s.counter) :
    addAlarm run s a = (s.modify a fun x => { x with enabled := true }).link a := by
  unfold addAlarm
  have here : ¬ (s.modify a fun x => { x with enabled := true }).trigger a ≤
      (s.modify a fun x => { x with enabled := true }).counter := by
    simpa [trigger, modify] using ahead
  rw [if_neg here]

theorem link_home (s : Counter cfg A) (a : A) : a ∈ (s.link a).alarmList ((s.link a).home a) :=
  link_mem.mpr (.inl ⟨rfl, rfl⟩)

/-- The time that a due alarm is queued for: its first time from its second one on that has
not passed. -/
theorem addAlarm_due_spec (periodic : (s.alarm a).interval ≠ 0) (due : s.trigger a ≤ s.counter)
    (room : s.counter.toNat + (s.alarm a).interval.toNat < 2 ^ 64) :
    IsLeast {n ∈ nominalTimes ((s.trigger a).toNat + (s.alarm a).interval.toNat) (s.alarm a).interval.toNat |
        s.counter.toNat ≤ n} ((addAlarm (handle · .done) s a).trigger a).toNat ∧
      ((addAlarm (handle · .done) s a).alarm a).enabled = true ∧
      a ∈ (addAlarm (handle · .done) s a).alarmList ((addAlarm (handle · .done) s a).home a) ∧
      (addAlarm (handle · .done) s a).called = s.called ++ [(a, s.counter)] := by
  rw [addAlarm_due periodic due]
  set moved := ((s.modify a fun x => { x with enabled := true }).call a).modify a fun x =>
    { x with trigger := x.trigger + x.interval } with movedIs
  have interval : (moved.alarm a).interval = (s.alarm a).interval := by
    simp [movedIs, modify, call]
  have sum : (moved.trigger a).toNat = (s.trigger a).toNat + (s.alarm a).interval.toNat := by
    have : moved.trigger a = s.trigger a + (s.alarm a).interval := by
      simp [movedIs, trigger, modify, call]
    rw [BitVec.le_def] at due
    rw [this, BitVec.toNat_add, mod_eq_of_lt (by omega)]
  have near := synchronize_near (s := moved) (a := a) (by rwa [interval]) (by rwa [interval]) (by
    rw [sum, interval]
    exact Nat.add_le_add_right due _)
  rw [sum, interval] at near
  refine ⟨near, ?_, link_home _ a, synchronize_frame.2.1⟩
  change ((moved.synchronize a).alarm a).enabled = true
  rw [synchronize_enabled]
  simp [movedIs, modify, call]

/-- In `s'`, which `add_alarm` has made of `s`, the alarm is queued for its first time, of those it
had in `s`, that is still to come. -/
structure QueuedAhead (s s' : Counter cfg A) (a : A) : Prop where
  enabled : (s'.alarm a).enabled = true
  linked : a ∈ s'.alarmList (s'.home a)
  future : s.counter < s'.trigger a
  next : IsLeast {n ∈ nominalTimes (s.trigger a).toNat (s.alarm a).interval.toNat | s.counter.toNat < n}
    (s'.trigger a).toNat

/-- `add_alarm` of a periodic alarm, whose alarm function touches no alarm, queues it for its next
time to come just when the present is not one of its times after the first. -/
theorem addAlarm_queues_ahead_iff (s : Counter cfg A) (a : A) (periodic : (s.alarm a).interval ≠ 0)
    (room : (s.trigger a).toNat + (s.alarm a).interval.toNat < 2 ^ 64 ∧
      s.counter.toNat + (s.alarm a).interval.toNat < 2 ^ 64) :
    s.QueuedAhead (addAlarm (handle · .done) s a) a ↔
      ¬ (s.trigger a < s.counter ∧ (s.alarm a).interval.toNat ∣ s.counter.toNat - (s.trigger a).toNat) := by
  have pos : 0 < (s.alarm a).interval.toNat := by
    rw [Nat.pos_iff_ne_zero]
    exact fun zero => periodic (BitVec.eq_of_toNat_eq zero)
  by_cases due : s.trigger a ≤ s.counter
  · obtain ⟨⟨⟨later, reached⟩, least⟩, enabled, linked, -⟩ := addAlarm_due_spec periodic due room.2
    rw [BitVec.le_def] at due
    constructor
    · rintro ahead ⟨past, divides⟩
      -- the present time is one of those from the second on, so no later one is taken
      rw [BitVec.lt_def] at past
      have present : s.counter.toNat ∈ nominalTimes (s.trigger a).toNat (s.alarm a).interval.toNat :=
        nominal_iff.mpr ⟨due, divides⟩
      have reached := least ⟨nominal_second present past, le_refl _⟩
      have future := ahead.future
      rw [BitVec.lt_def] at future
      omega
    · intro apart
      have future : s.counter.toNat < ((addAlarm (handle · .done) s a).trigger a).toNat := by
        refine lt_of_le_of_ne reached fun same => apart ?_
        rw [← same] at later
        have after := nominal_le later
        exact ⟨by rw [BitVec.lt_def]; omega, (nominal_iff.mp (nominal_skip later)).2⟩
      refine ⟨enabled, linked, by rwa [BitVec.lt_def], ⟨nominal_skip later, future⟩, ?_⟩
      rintro n ⟨mem, coming⟩
      exact least ⟨nominal_second mem (by omega), by omega⟩
  · rw [addAlarm_ahead due]
    have future : s.counter.toNat < (s.trigger a).toNat := by
      rw [BitVec.le_def] at due
      omega
    have trigger : ((s.modify a fun x => { x with enabled := true }).link a).trigger a = s.trigger a := by
      simp [Counter.trigger, Counter.modify, Counter.link, setList]
    refine ⟨fun _ past => due (BitVec.le_of_lt past.1), fun _ => ⟨?_, link_home _ a, ?_, ?_⟩⟩
    · simp [Counter.modify, Counter.link, setList]
    · rwa [trigger, BitVec.lt_def]
    · rw [trigger]
      exact ⟨⟨nominal_first, future⟩, fun n mem => nominal_le mem.1⟩

/-- A single unsorted list, as the examples here have it. -/
def plainConfig : CounterConfig := ⟨.single, false⟩

theorem addAlarm_queues_ahead_five :
    ((initial 5 1).rearm () 2 2 : Counter plainConfig Unit).QueuedAhead
      (addAlarm (handle · .done) ((initial 5 1).rearm () 2 2) ()) () :=
  (addAlarm_queues_ahead_iff ((initial 5 1).rearm () 2 2 : Counter plainConfig Unit) () (by decide) (by decide)).mpr
    (by decide)

/-- Initialised two intervals late, the alarm is queued for a time that has come already. -/
theorem addAlarm_queued_for_present :
    ¬ ((initial 6 1).rearm () 2 2 : Counter plainConfig Unit).QueuedAhead
      (addAlarm (handle · .done) ((initial 6 1).rearm () 2 2) ()) () := by
  intro ahead
  exact absurd ahead.future (by decide)

/-- Enabled at the present value of the counter, the alarm goes off next at time `n`: it is queued
for it, or, if it has come, the alarm function is called at once and the alarm queued for the time after. -/
def ResumesAt (s : Counter cfg A) (a : A) (n : ℕ) : Prop :=
  if s.counter.toNat < n then
    ∀ run, ((s.perform run (.enable a)).trigger a).toNat = n ∧ (s.perform run (.enable a)).called = s.called ∧
      a ∈ (s.perform run (.enable a)).alarmList ((s.perform run (.enable a)).home a)
  else
    (s.perform (handle · .done) (.enable a)).called = s.called ++ [(a, s.counter)] ∧
      ((s.perform (handle · .done) (.enable a)).trigger a).toNat = n + (s.alarm a).interval.toNat

theorem revive_spec : ((s.revive a).trigger a = (s.synchronize a).trigger a) ∧ (s.revive a).counter = s.counter ∧
    (s.revive a).called = s.called ∧ ((s.revive a).alarm a).interval = (s.alarm a).interval := by
  obtain ⟨counter, called, interval⟩ := synchronize_frame (s := s) (a := a)
  refine ⟨?_, counter, called, ?_⟩
  · simp [revive, trigger, modify]
  · simpa [revive, modify] using interval

theorem perform_enable {run : Counter cfg A → Counter cfg A} (disabled : (s.alarm a).enabled = false) :
    s.perform run (.enable a) = addAlarm run (s.revive a) a := by
  rw [perform, if_neg (by simp [disabled])]

theorem resumesAt_revived (disabled : (s.alarm a).enabled = false) (periodic : (s.alarm a).interval ≠ 0)
    (room : s.counter.toNat + (s.alarm a).interval.toNat < 2 ^ 64)
    (reached : s.counter.toNat ≤ ((s.revive a).trigger a).toNat) :
    s.ResumesAt a ((s.revive a).trigger a).toNat := by
  obtain ⟨-, counter, called, interval⟩ := revive_spec (s := s) (a := a)
  unfold ResumesAt
  split
  · next ahead =>
    intro run
    have ahead : ¬ (s.revive a).trigger a ≤ (s.revive a).counter := by
      rw [BitVec.le_def, counter]
      omega
    rw [perform_enable disabled, addAlarm_ahead ahead]
    refine ⟨?_, called, link_home _ a⟩
    simp [trigger, modify, link, setList]
  · next present =>
    have due : (s.revive a).trigger a ≤ (s.revive a).counter := by
      rw [BitVec.le_def, counter]
      omega
    obtain ⟨⟨⟨later, -⟩, least⟩, -, -, ran⟩ :=
      addAlarm_due_spec (s := s.revive a) (a := a) (by rwa [interval]) due (by rwa [counter, interval])
    rw [perform_enable disabled]
    refine ⟨by rw [ran, called, counter], ?_⟩
    have first := least ⟨nominal_first, by rw [counter]; omega⟩
    have after := nominal_le later
    rw [interval] at first after
    omega

/-- An alarm disabled in `s₀` and enabled in `s` goes off next at the first of its times from
then on just when its trigger is at most one interval ahead. -/
theorem enable_resumes_iff (s₀ s : Counter cfg A) (a : A) (run : Counter cfg A → Counter cfg A)
    (kept : s.alarm a = (s₀.perform run (.disable a)).alarm a) (periodic : (s₀.alarm a).interval ≠ 0)
    (room : (s₀.trigger a).toNat + (s₀.alarm a).interval.toNat < 2 ^ 64 ∧
      s.counter.toNat + (s₀.alarm a).interval.toNat < 2 ^ 64) :
    (∃ n, IsLeast {n ∈ nominalTimes (s₀.trigger a).toNat (s₀.alarm a).interval.toNat | s.counter.toNat ≤ n} n ∧
        s.ResumesAt a n) ↔
      (s₀.trigger a).toNat ≤ s.counter.toNat + (s₀.alarm a).interval.toNat := by
  have after : s.alarm a = { s₀.alarm a with enabled := false } := by
    rw [kept, Counter.perform]
    split
    · simp [remAlarm, Counter.modify, setList]
    · next off =>
      have off : (s₀.alarm a).enabled = false := by simpa using off
      rw [← off]
  have disabled : (s.alarm a).enabled = false := by rw [after]
  have interval : (s.alarm a).interval = (s₀.alarm a).interval := by rw [after]
  have trigger : s.trigger a = s₀.trigger a := by rw [Counter.trigger, after, Counter.trigger]
  rw [← interval] at periodic room ⊢
  rw [← trigger] at room ⊢
  obtain ⟨revived, -, -, -⟩ := revive_spec (s := s) (a := a)
  constructor
  · rintro ⟨n, least, resumes⟩
    by_contra! far
    -- the trigger is the first time, but `synchronize` has moved it back
    obtain ⟨low, high⟩ := synchronize_far periodic far
    obtain rfl := least.unique (isLeast_ahead (by omega))
    have moved := resumesAt_revived disabled periodic room.2 (by rwa [revived])
    rw [revived] at moved
    unfold ResumesAt at resumes moved
    rw [if_pos (by omega)] at resumes
    obtain ⟨same, quiet, -⟩ := resumes (handle · .done)
    split at moved
    · have := (moved (handle · .done)).1
      omega
    · have noisy := moved.1
      rw [quiet] at noisy
      simp at noisy
  · intro near
    have least := synchronize_near periodic room.2 near
    refine ⟨_, least, ?_⟩
    have resumes := resumesAt_revived disabled periodic room.2 (by rw [revived]; exact least.1.2)
    rwa [revived] at resumes

/-- An alarm that goes off at 10 and every 2 ticks after. -/
def pending : Counter plainConfig Unit := (initial 0 1).perform (handle · .done) (.initializeAt () 10 2)

theorem enable_resumes_at_nine :
    ∃ n, IsLeast {n ∈ nominalTimes (pending.trigger ()).toNat (pending.alarm ()).interval.toNat | 9 ≤ n} n ∧
      ({ pending.perform (handle · .done) (.disable ()) with counter := 9 } : Counter plainConfig Unit).ResumesAt () n :=
  (enable_resumes_iff pending { pending.perform (handle · .done) (.disable ()) with counter := 9 } ()
    (handle · .done) rfl (by decide) (by decide)).mpr (by decide)

/-- Enabled again at once, it goes off at 0. -/
theorem enable_resumes_early :
    ¬ ∃ n, IsLeast {n ∈ nominalTimes (pending.trigger ()).toNat (pending.alarm ()).interval.toNat | 0 ≤ n} n ∧
      (pending.perform (handle · .done) (.disable ())).ResumesAt () n := by
  rintro ⟨n, least, resumes⟩
  obtain rfl := least.unique (isLeast_ahead (Nat.zero_le _))
  exact absurd (resumes (handle · .done)).1 (by decide)

end Counter

end Ecos
