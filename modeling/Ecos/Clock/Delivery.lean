import Ecos.Clock.Expire

namespace Ecos
open List Nat Finset Alarm

namespace Alarm

/-- The times the alarm is set for: one, or one for each interval. -/
def nominal (x : Alarm) (k : Nat) : Nat := x.trigger.toNat + k * x.interval.toNat

/-- Which of them lie after `low` and not after `high`. -/
def nominals (x : Alarm) (low high : Nat) : Finset Nat :=
  (Finset.range (high + 1)).filter fun k => (x.interval = 0 → k = 0) ∧ low < x.nominal k ∧ x.nominal k ≤ high

variable {x : Alarm} {value : BitVec 64} {inc low high : Nat} {multi : Prop}

theorem mem_nominals {k : Nat} :
    k ∈ x.nominals low high ↔ (x.interval = 0 → k = 0) ∧ low < x.nominal k ∧ x.nominal k ≤ high := by
  simp only [nominals, Finset.mem_filter, Finset.mem_range, and_iff_right_iff_imp]
  rintro ⟨once, -, below⟩
  by_cases zero : x.interval = 0
  · have := once zero
    omega
  · have pos : 0 < x.interval.toNat := Nat.pos_of_ne_zero fun eq => zero (BitVec.eq_of_toNat_eq eq)
    have : k ≤ k * x.interval.toNat := Nat.le_mul_of_pos_right k pos
    unfold nominal at below
    omega

theorem card_nominals_tick (future : value.toNat < x.trigger.toNat + inc)
    (long : x.interval = 0 ∨ inc ≤ x.interval.toNat) (low_eq : low + inc = value.toNat) :
    (x.nominals low value.toNat).card = if x.trigger ≤ value then 1 else 0 := by
  split
  · next due =>
    have only : x.nominals low value.toNat = {0} := by
      ext k
      rw [mem_nominals, Finset.mem_singleton]
      constructor
      · rintro ⟨once, -, below⟩
        by_contra later
        have periodic : inc ≤ x.interval.toNat := long.resolve_left fun zero => later (once zero)
        have : x.interval.toNat ≤ k * x.interval.toNat := Nat.le_mul_of_pos_left _ (Nat.pos_of_ne_zero later)
        unfold nominal at below
        omega
      · rintro rfl
        rw [BitVec.le_def] at due
        exact ⟨fun _ => rfl, by unfold nominal; omega, by unfold nominal; omega⟩
    rw [only, card_singleton]
  · next late =>
    have empty : x.nominals low value.toNat = ∅ := by
      refine eq_empty_of_forall_notMem fun k mem => late ?_
      obtain ⟨-, -, below⟩ := mem_nominals.mp mem
      rw [BitVec.le_def]
      unfold nominal at below
      omega
    rw [empty, card_empty]

theorem Fit.card_nominals (fit : x.Fit value inc multi) (beyond : value.toNat ≤ low) (enabled : x.enabled = true) :
    (x.nominals low high).card = if (x.after value).enabled = true then ((x.after value).nominals low high).card else 0 := by
  by_cases due : x.Due value
  · by_cases once : x.interval = 0
    · rw [after_once due once]
      have empty : x.nominals low high = ∅ := by
        refine eq_empty_of_forall_notMem fun k mem => ?_
        obtain ⟨single, above, -⟩ := mem_nominals.mp mem
        have first := due.2
        rw [BitVec.le_def] at first
        rw [single once] at above
        unfold nominal at above
        omega
      simp [empty]
    · have next := fit.next due
      rw [after_periodic due once]
      rw [if_pos enabled]
      -- the times shift by one
      have shift : x.nominals low high =
          (nominals { x with trigger := x.trigger + x.interval } low high).map ⟨succ, succ_injective⟩ := by
        have step : ∀ k, nominal { x with trigger := x.trigger + x.interval } k = x.nominal (k + 1) := by
          intro k
          simp only [nominal, next, succ_mul]
          omega
        ext k
        simp only [Finset.mem_map, mem_nominals, Function.Embedding.coeFn_mk, step]
        constructor
        · rintro ⟨single, above, below⟩
          cases k with
          | zero =>
            have first := due.2
            rw [BitVec.le_def] at first
            unfold nominal at above
            omega
          | succ k => exact ⟨k, ⟨fun zero => absurd zero once, above, below⟩, rfl⟩
        · rintro ⟨k, ⟨-, above, below⟩, rfl⟩
          exact ⟨fun zero => absurd zero once, above, below⟩
      rw [shift, Finset.card_map]
  · rw [after_of_not_due due, if_pos enabled]

theorem after_interval : (x.after value).interval = x.interval := by
  unfold after
  split
  · split <;> rfl
  · rfl

theorem enabled_of_after (enabled : (x.after value).enabled = true) : x.enabled = true := by
  by_cases due : x.Due value
  · exact due.1
  · rwa [after_of_not_due due] at enabled

theorem Fit.nominal_after (fit : x.Fit value inc multi) (enabled : (x.after value).enabled = true) :
    ∃ j, ∀ k, (x.after value).nominal k = x.nominal (k + j) := by
  by_cases due : x.Due value
  · by_cases once : x.interval = 0
    · rw [after_once due once] at enabled
      cases enabled
    · refine ⟨1, fun k => ?_⟩
      have next := fit.next due
      rw [after_periodic due once]
      simp only [nominal, next, succ_mul]
      omega
  · exact ⟨0, fun k => by rw [after_of_not_due due, add_zero]⟩

end Alarm

namespace Counter
variable {cfg : CounterConfig} {A : Type} [DecidableEq A]

/-- The alarms are set for times to come, with intervals of at least an increment; in the
next `n` ticks the counter does not wrap, no time that is reached is followed by one that
wraps, and the rounding of the last time of an alarm to a tick does not wrap where the
lists depend on it. -/
structure Scheduled (n : Nat) (s : Counter cfg A) : Prop where
  intact : IntactBut [] s
  pos : 0 < s.increment.toNat
  multiple : s.increment.toNat ∣ s.counter.toNat
  future : ∀ a, (s.alarm a).enabled = true → s.counter < s.trigger a
  long : ∀ a, (s.alarm a).enabled = true → (s.alarm a).interval = 0 ∨ s.increment.toNat ≤ (s.alarm a).interval.toNat
  noOverflow : ∀ a k, (s.alarm a).enabled = true → (s.alarm a).interval ≠ 0 →
    (s.alarm a).nominal k ≤ s.counter.toNat + n * s.increment.toNat → (s.alarm a).nominal (k + 1) < 2 ^ 64
  noWrap : s.counter.toNat + n * s.increment.toNat < 2 ^ 64
  rounded : cfg.organisation ≠ .single → ∀ a, (s.alarm a).enabled = true → (s.alarm a).interval = 0 →
    (s.trigger a).toNat ≤ s.counter.toNat + n * s.increment.toNat → (s.trigger a).toNat + s.increment.toNat ≤ 2 ^ 64

variable {s u : Counter cfg A} {a : A} {n : Nat}

section
variable (scheduled : Scheduled (n + 1) s)
include scheduled

theorem Scheduled.increase_counter : s.increase.counter.toNat = s.counter.toNat + s.increment.toNat := by
  have noWrap := scheduled.noWrap
  rw [succ_mul] at noWrap
  rw [increase, BitVec.toNat_add, BitVec.toNat_setWidth, mod_eq_of_lt (by omega : s.increment.toNat < 2 ^ 64)]
  omega

theorem Scheduled.ready : s.increase.Ready := by
  have value := scheduled.increase_counter
  have more : (n + 1) * s.increment.toNat = n * s.increment.toNat + s.increment.toNat := succ_mul ..
  refine ⟨scheduled.intact.congr rfl rfl rfl, scheduled.pos, ?_, fun a => ⟨fun enabled => ?_, scheduled.long a, fun due => ?_,
    fun multi due => ?_⟩⟩
  · rw [value]
    exact (Nat.dvd_add_right scheduled.multiple).mpr (dvd_refl _)
  · have future := scheduled.future a enabled
    rw [BitVec.lt_def] at future
    rw [value]
    exact Nat.add_lt_add_right future _
  · by_cases once : (s.alarm a).interval = 0
    · have small := (s.alarm a).trigger.isLt
      simpa [increase, once] using small
    · have reached := due.2
      rw [BitVec.le_def, value] at reached
      have room := scheduled.noOverflow a 0 due.1 once (by simp only [nominal, zero_mul]; dsimp only [increase] at reached; omega)
      simpa [nominal, increase] using room
  · have reached := due.2
    rw [BitVec.le_def, value] at reached
    dsimp only [increase] at reached ⊢
    rcases scheduled.long a due.1 with once | long
    · exact scheduled.rounded multi a due.1 once (by simp only [trigger]; omega)
    · have periodic : (s.alarm a).interval ≠ 0 := fun zero => by
        rw [zero] at long
        exact absurd scheduled.pos (not_lt.mpr long)
      have room := scheduled.noOverflow a 0 due.1 periodic (by simp only [nominal, zero_mul]; omega)
      simp only [nominal, zero_add, one_mul] at room
      omega

theorem Scheduled.fit (a : A) : (s.alarm a).Fit s.increase.counter s.increment.toNat (cfg.organisation ≠ .single) :=
  scheduled.ready.fit a

theorem Scheduled.next (ready : u.Ready) (counter : u.counter = s.increase.counter)
    (increment : u.increment = s.increment) (alarms : ∀ a, u.alarm a = (s.alarm a).after s.increase.counter) :
    Scheduled n u := by
  have value := scheduled.increase_counter
  have more : (n + 1) * s.increment.toNat = n * s.increment.toNat + s.increment.toNat := succ_mul ..
  have stays : ∀ a, (u.alarm a).enabled = true → (s.alarm a).enabled = true := fun a enabled => by
    rw [alarms a] at enabled
    exact enabled_of_after enabled
  refine ⟨ready.intact, ready.pos, ready.multiple, fun a enabled => ?_, fun a enabled => ?_, fun a k enabled periodic reached => ?_,
    ?_, fun multi a enabled once reached => ?_⟩
  · have settled := (scheduled.fit a).settled
    rw [← BitVec.not_le]
    intro reached
    refine settled ⟨?_, ?_⟩
    · rw [← alarms a]
      exact enabled
    · rw [trigger, alarms a, counter] at reached
      exact reached
  · rw [alarms a, after_interval, increment]
    exact scheduled.long a (stays a enabled)
  · have original := stays a enabled
    rw [alarms a] at enabled periodic reached ⊢
    obtain ⟨j, shift⟩ := (scheduled.fit a).nominal_after enabled
    rw [shift, counter, value, increment] at reached
    rw [shift, add_right_comm]
    rw [after_interval] at periodic
    exact scheduled.noOverflow a (k + j) original periodic (by omega)
  · have noWrap := scheduled.noWrap
    rw [counter, value, increment]
    omega
  · have original := stays a enabled
    have same : u.alarm a = s.alarm a := by
      rw [alarms a] at enabled once ⊢
      rw [after_interval] at once
      refine after_of_not_due fun due => ?_
      rw [after_once due once] at enabled
      cases enabled
    rw [trigger, same, counter, value, increment] at reached
    rw [same] at once
    rw [trigger, same, increment]
    exact scheduled.rounded multi a original once (by simp only [trigger]; omega)

end

variable [Fintype A]

/-- The values of the counter in the next `n` ticks. -/
def Visited (s : Counter cfg A) (n : Nat) (value : BitVec 64) : Prop :=
  s.increment.toNat ∣ value.toNat ∧ s.counter.toNat < value.toNat ∧
    value.toNat ≤ s.counter.toNat + n * s.increment.toNat

instance (s : Counter cfg A) (n : Nat) (value : BitVec 64) : Decidable (s.Visited n value) :=
  inferInstanceAs (Decidable (_ ∧ _ ∧ _))

/-- How often the alarm is to be called when the counter has the given value: once for
each time since the value before. -/
def expected (s : Counter cfg A) (n : Nat) (a : A) (value : BitVec 64) : Nat :=
  if (s.alarm a).enabled = true ∧ s.Visited n value then
    ((s.alarm a).nominals (value.toNat - s.increment.toNat) value.toNat).card
  else 0

section Next
variable (scheduled : Scheduled (n + 1) s) (counter : u.counter = s.increase.counter) (increment : u.increment = s.increment)
  {v : BitVec 64}
include scheduled counter increment

theorem Scheduled.visited_now : s.Visited (n + 1) s.increase.counter ∧ ¬ u.Visited n s.increase.counter := by
  have value := scheduled.increase_counter
  have pos := scheduled.pos
  have more : (n + 1) * s.increment.toNat = n * s.increment.toNat + s.increment.toNat := succ_mul ..
  refine ⟨⟨scheduled.ready.multiple, by omega, by omega⟩, fun visited => ?_⟩
  have above := visited.2.1
  rw [counter] at above
  omega

theorem Scheduled.visited_later (ne : v ≠ s.increase.counter) : s.Visited (n + 1) v ↔ u.Visited n v := by
  have value := scheduled.increase_counter
  have more : (n + 1) * s.increment.toNat = n * s.increment.toNat + s.increment.toNat := succ_mul ..
  have apart : v.toNat ≠ s.counter.toNat + s.increment.toNat :=
    fun same => ne (BitVec.eq_of_toNat_eq (same.trans value.symm))
  unfold Visited
  rw [counter, increment, value]
  constructor
  · rintro ⟨dvd, above, below⟩
    have gap := Nat.le_of_dvd (Nat.sub_pos_of_lt above) (dvd_sub dvd scheduled.multiple)
    exact ⟨dvd, by omega, by omega⟩
  · rintro ⟨dvd, above, below⟩
    exact ⟨dvd, by omega, by omega⟩

theorem Scheduled.visited_beyond (visited : u.Visited n v) : s.increase.counter.toNat ≤ v.toNat - s.increment.toNat := by
  obtain ⟨dvd, above, -⟩ := visited
  rw [increment] at dvd
  rw [counter] at above
  have gap := Nat.le_of_dvd (Nat.sub_pos_of_lt above) (dvd_sub dvd scheduled.ready.multiple)
  omega

theorem Scheduled.expected_next (alarms : ∀ a, u.alarm a = (s.alarm a).after s.increase.counter) (a : A) :
    s.expected (n + 1) a v =
      (if (s.alarm a).Due s.increase.counter ∧ v = s.increase.counter then 1 else 0) + u.expected n a v := by
  have fit := scheduled.fit a
  by_cases enabled : (s.alarm a).enabled = true
  · by_cases now : v = s.increase.counter
    · subst now
      obtain ⟨visited, spent⟩ := scheduled.visited_now counter increment
      have value := scheduled.increase_counter
      have low : s.increase.counter.toNat - s.increment.toNat = s.counter.toNat := by omega
      have none : u.expected n a s.increase.counter = 0 := if_neg fun all => spent all.2
      have all : s.expected (n + 1) a s.increase.counter =
          ((s.alarm a).nominals (s.increase.counter.toNat - s.increment.toNat) s.increase.counter.toNat).card :=
        if_pos ⟨enabled, visited⟩
      rw [none, all, low, card_nominals_tick (fit.near enabled) (fit.long enabled) value.symm]
      simp [Due, enabled]
    · rw [if_neg fun both => now both.2, zero_add]
      by_cases visited : u.Visited n v
      · have before := (scheduled.visited_later counter increment now).mpr visited
        have all : s.expected (n + 1) a v = ((s.alarm a).nominals (v.toNat - s.increment.toNat) v.toNat).card :=
          if_pos ⟨enabled, before⟩
        rw [all, fit.card_nominals (scheduled.visited_beyond counter increment visited) enabled, expected, alarms a, increment]
        simp only [visited, and_true]
      · have before : ¬ s.Visited (n + 1) v := fun seen => visited ((scheduled.visited_later counter increment now).mp seen)
        rw [expected, expected, if_neg fun all => before all.2, if_neg fun all => visited all.2]
  · have off : (u.alarm a).enabled ≠ true := fun on => enabled (enabled_of_after (alarms a ▸ on))
    rw [if_neg fun both => enabled both.1.1, expected, expected, if_neg fun all => enabled all.1, if_neg fun all => off all.1]

end Next

theorem count_delivered {ds : List A} (nodup : ds.Nodup) (c v : BitVec 64) (a : A) :
    (ds.map (·, c)).count (a, v) = if a ∈ ds ∧ v = c then 1 else 0 := by
  have distinct : (ds.map (·, c)).Nodup := nodup.map fun _ _ same => (Prod.mk.inj same).1
  by_cases mem : a ∈ ds ∧ v = c
  · obtain ⟨inList, rfl⟩ := mem
    rw [if_pos ⟨inList, rfl⟩]
    exact count_eq_one_of_mem distinct (mem_map_of_mem inList)
  · rw [if_neg mem, count_eq_zero]
    rintro onList
    obtain ⟨b, inList, same⟩ := mem_map.mp onList
    obtain ⟨rfl, rfl⟩ := Prod.mk.inj same
    exact mem ⟨inList, rfl⟩

theorem Alarm.goes_on {x : Alarm} {value : BitVec 64} {last : Nat} (reached : value.toNat ≤ last) :
    ((x.after value).enabled = true ∧ ((x.after value).interval ≠ 0 ∨ last < (x.after value).trigger.toNat)) ↔
      (x.enabled = true ∧ (x.interval ≠ 0 ∨ last < x.trigger.toNat)) := by
  by_cases due : x.Due value
  · have first := due.2
    rw [BitVec.le_def] at first
    by_cases once : x.interval = 0
    · rw [after_once due once]
      simp only [once]
      constructor
      · rintro ⟨enabled, -⟩
        cases enabled
      · rintro ⟨-, periodic | late⟩
        · exact absurd rfl periodic
        · omega
    · rw [after_periodic due once]
      exact ⟨fun all => ⟨all.1, .inl once⟩, fun all => ⟨all.1, .inl once⟩⟩
  · rw [after_of_not_due due]

/-- The ticks come to an end, deliver what is expected, and disable the alarms without an
interval whose time has come. -/
theorem Scheduled.ticks {turns : Nat} (scheduled : Scheduled n s) (enough : Fintype.card A ≤ turns) :
    ∃ u new, tick (List.replicate n (List.replicate turns (.done, .done))) s = some u ∧
      u.counter.toNat = s.counter.toNat + n * s.increment.toNat ∧ u.called = s.called ++ new ∧
      (∀ a v, new.count (a, v) = s.expected n a v) ∧
      ∀ a, (u.alarm a).enabled = true ↔ (s.alarm a).enabled = true ∧
        ((s.alarm a).interval ≠ 0 ∨ s.counter.toNat + n * s.increment.toNat < (s.trigger a).toNat) := by
  induction n generalizing s with
  | zero =>
    refine ⟨s, [], rfl, by simp, by simp, fun a v => ?_, fun a => ⟨fun enabled => ⟨enabled, .inr ?_⟩, And.left⟩⟩
    · have never : ¬ s.Visited 0 v := fun visited => by
        have above := visited.2.1
        have below := visited.2.2
        omega
      rw [expected, if_neg fun all => never all.2]
      rfl
    · have future := scheduled.future a enabled
      rw [BitVec.lt_def] at future
      omega
  | succ n ih =>
    have value := scheduled.increase_counter
    have more : (n + 1) * s.increment.toNat = n * s.increment.toNat + s.increment.toNat := succ_mul ..
    obtain ⟨w, ds, ended, ready, counter, increment, alarms, called, nodup, members⟩ :=
      scheduled.ready.expire ((card_le_univ _).trans enough)
    obtain ⟨u, new, rest, final, log, counts, left⟩ := ih (scheduled.next ready counter increment alarms)
    have called' : w.called = s.called ++ ds.map (·, s.increase.counter) := called
    refine ⟨u, ds.map (·, s.increase.counter) ++ new, ?_, ?_, ?_, fun a v => ?_, fun a => ?_⟩
    · rw [replicate_succ, tick, ended]
      exact rest
    · rw [final, counter, increment, value]
      dsimp only [increase]
      omega
    · rw [log, called', append_assoc]
    · have due : a ∈ ds ↔ (s.alarm a).Due s.increase.counter := members a
      rw [count_append, count_delivered nodup, counts, scheduled.expected_next counter increment alarms]
      simp only [due]
    · have last : s.increase.counter.toNat ≤ s.counter.toNat + (n + 1) * s.increment.toNat := by omega
      have total : w.counter.toNat + n * w.increment.toNat = s.counter.toNat + (n + 1) * s.increment.toNat := by
        rw [counter, increment, value]
        dsimp only [increase]
        omega
      rw [left a, total, trigger, alarms a]
      exact Alarm.goes_on last

/-- In the next `n` ticks every alarm is called once for each of its times that is reached,
at the first value of the counter that reaches it, and an alarm without an interval is then
disabled; the calls at each value do not depend on how the lists are organised. -/
theorem alarms_delivered_exactly {cfg' : CounterConfig} (s : Counter cfg A) (s' : Counter cfg' A) (n turns : Nat)
    (enough : Fintype.card A ≤ turns) (scheduled : Scheduled n s) (scheduled' : Scheduled n s')
    (alarms : s'.alarm = s.alarm) (counter : s'.counter = s.counter) (increment : s'.increment = s.increment) :
    ∃ u new u' new', tick (List.replicate n (List.replicate turns (.done, .done))) s = some u ∧
      tick (List.replicate n (List.replicate turns (.done, .done))) s' = some u' ∧
      u.called = s.called ++ new ∧ u'.called = s'.called ++ new' ∧
      u.counter.toNat = s.counter.toNat + n * s.increment.toNat ∧
      (∀ a v, new.count (a, v) = if (s.alarm a).enabled = true ∧ s.Visited n v then
        ((s.alarm a).nominals (v.toNat - s.increment.toNat) v.toNat).card else 0) ∧
      (∀ a, (u.alarm a).enabled = true ↔ (s.alarm a).enabled = true ∧
        ((s.alarm a).interval ≠ 0 ∨ s.counter.toNat + n * s.increment.toNat < (s.trigger a).toNat)) ∧
      ∀ v, (new.filter fun call => call.2 = v).Perm (new'.filter fun call => call.2 = v) := by
  obtain ⟨u, new, ended, final, log, counts, left⟩ := scheduled.ticks enough
  obtain ⟨u', new', ended', -, log', counts', -⟩ := scheduled'.ticks enough
  have same : ∀ a v, s'.expected n a v = s.expected n a v := fun a v => by
    have visited : s'.Visited n v ↔ s.Visited n v := by simp only [Visited, counter, increment]
    simp only [expected, visited, alarms, increment]
  have perm : new.Perm new' := by
    rw [perm_iff_count]
    rintro ⟨a, v⟩
    rw [counts, counts', same]
  exact ⟨u, new, u', new', ended, ended', log, log', final, counts, left, fun v => perm.filter _⟩

/-- One alarm every 3 from 4 on, on a single list and on two. -/
theorem alarms_delivered_exactly_thrice :
    ∃ u : Counter ⟨.single, false⟩ (Fin 1), tick (List.replicate 5 (List.replicate 1 (.done, .done)))
        ((initial 0 2).perform (handle · .done) (.initializeAt 0 4 3)) = some u ∧
      u.called.count (0, 4) = 1 ∧ u.called.count (0, 8) = 1 ∧ u.called.count (0, 10) = 1 := by
  have scheduled : ∀ cfg : CounterConfig,
      Scheduled 5 ((initial 0 2 : Counter cfg (Fin 1)).perform (handle · .done) (.initializeAt 0 4 3)) := by
    intro cfg
    have intact := reach_intact (.next (.start ⟨0, 2, rfl⟩)
      ⟨.alarm (.initializeAt 0 4 3) .done, ⟨rfl, fun due => absurd due (show ¬ (4 : BitVec 64) ≤ 0 by decide)⟩, rfl⟩ : (machine cfg (Fin 1) Mild).Reach
        ((initial 0 2).perform (handle · .done) (.initializeAt 0 4 3)))
    refine ⟨intact, show 0 < (2 : BitVec 32).toNat by decide, show (2 : BitVec 32).toNat ∣ (0 : BitVec 64).toNat by decide,
      fun a _ => ?_, fun a _ => ?_, fun a k _ _ => ?_, ?_, fun _ a _ once => ?_⟩
    · obtain rfl : a = 0 := Subsingleton.elim a 0
      show (0 : BitVec 64) < 4
      decide
    · obtain rfl : a = 0 := Subsingleton.elim a 0
      exact .inr (show (2 : BitVec 32).toNat ≤ (3 : BitVec 64).toNat by decide)
    · obtain rfl : a = 0 := Subsingleton.elim a 0
      intro reached
      have reached : 4 + k * 3 ≤ 0 + 5 * 2 := reached
      show 4 + (k + 1) * 3 < 2 ^ 64
      omega
    · show (0 : BitVec 64).toNat + 5 * (2 : BitVec 32).toNat < 2 ^ 64
      decide
    · obtain rfl : a = 0 := Subsingleton.elim a 0
      exact absurd once (show (3 : BitVec 64) ≠ 0 by decide)
  obtain ⟨u, new, -, -, ended, -, log, -, -, counts, -, -⟩ :=
    alarms_delivered_exactly _ _ 5 1 (by decide) (scheduled ⟨.single, false⟩) (scheduled ⟨.multi 2, false⟩) rfl rfl rfl
  have log : u.called = new := log
  refine ⟨u, ended, ?_, ?_, ?_⟩
  all_goals
    rw [log, counts]
    decide

/-- The counter wraps after it has called an alarm, whose times all lie above its new
value; and the rounding wraps for an alarm at the very end, which is then on a list that
the tick does not look at. -/
theorem alarms_at_the_end :
    (∃ u : Counter ⟨.single, false⟩ (Fin 1), tick (List.replicate 2 (List.replicate 1 (.done, .done)))
        ((initial 0xfffffffffffffff0 10).perform (handle · .done) (.initializeAt 0 0xfffffffffffffff1 12)) = some u ∧
      u.called.length = 1 ∧ u.counter.toNat = 4 ∧ ∀ k, 4 < (⟨0xfffffffffffffff1, 12, true⟩ : Alarm).nominal k) ∧
    ∃ u : Counter ⟨.multi 8, false⟩ (Fin 1), tick (List.replicate 1 (List.replicate 1 (.done, .done)))
        ((initial 0xffffffff00000000 0xffffffff).perform (handle · .done) (.initializeAt 0 0xffffffffffffffff 0)) = some u ∧
      u.called = [] ∧ (0xffffffffffffffff : BitVec 64) ≤ u.counter := by
  refine ⟨⟨_, rfl, by decide, by decide, fun k => ?_⟩, ⟨_, rfl, by decide, by decide⟩⟩
  show 4 < 0xfffffffffffffff1 + k * 12
  omega

end Counter

end Ecos
