import Ecos.Clock.AlarmLists

namespace Ecos
open List Counter Alarm Option

namespace Alarm

/-- The alarm is enabled and its time has come. -/
def Due (x : Alarm) (value : BitVec 64) : Prop := x.enabled = true ∧ x.trigger ≤ value

instance (x : Alarm) (value : BitVec 64) : Decidable (x.Due value) := inferInstanceAs (Decidable (_ ∧ _))

/-- What the tick to `value` is to make of the alarm. -/
def after (x : Alarm) (value : BitVec 64) : Alarm :=
  if x.Due value then
    if x.interval = 0 then { x with enabled := false } else { x with trigger := x.trigger + x.interval }
  else x

/-- The alarm is not late by a whole increment `inc`, its interval, if any, is not shorter
than that, and its next time does not wrap; nor does its rounding up, if lists depend on it. -/
structure Fit (x : Alarm) (value : BitVec 64) (inc : Nat) (multi : Prop) : Prop where
  near : x.enabled = true → value.toNat < x.trigger.toNat + inc
  long : x.enabled = true → x.interval = 0 ∨ inc ≤ x.interval.toNat
  room : x.Due value → x.trigger.toNat + x.interval.toNat < 2 ^ 64
  rounded : multi → x.Due value → x.trigger.toNat + inc ≤ 2 ^ 64

variable {x : Alarm} {value : BitVec 64} {inc : Nat} {multi : Prop}

theorem after_of_not_due (notDue : ¬ x.Due value) : x.after value = x := if_neg notDue

theorem after_once (due : x.Due value) (once : x.interval = 0) : x.after value = { x with enabled := false } := by
  rw [after, if_pos due, if_pos once]

theorem after_periodic (due : x.Due value) (periodic : x.interval ≠ 0) :
    x.after value = { x with trigger := x.trigger + x.interval } := by
  rw [after, if_pos due, if_neg periodic]

section
variable (fit : x.Fit value inc multi)
include fit

theorem Fit.next (due : x.Due value) : (x.trigger + x.interval).toNat = x.trigger.toNat + x.interval.toNat := by
  rw [BitVec.toNat_add, Nat.mod_eq_of_lt (fit.room due)]

theorem Fit.late (due : x.Due value) (periodic : x.interval ≠ 0) : ¬ x.trigger + x.interval ≤ value := by
  have near := fit.near due.1
  have long := (fit.long due.1).resolve_left periodic
  rw [BitVec.le_def, fit.next due]
  omega

theorem Fit.settled : ¬ (x.after value).Due value := by
  by_cases due : x.Due value
  · by_cases once : x.interval = 0
    · rw [after_once due once]
      exact fun again => by cases again.1
    · rw [after_periodic due once]
      exact fun again => fit.late due once again.2
  · rw [after_of_not_due due]
    exact due

theorem Fit.after : (x.after value).Fit value inc multi := by
  by_cases due : x.Due value
  · by_cases once : x.interval = 0
    · have settled := fit.settled
      rw [after_once due once] at settled ⊢
      exact ⟨nofun, nofun, fun again => absurd again settled, fun _ again => absurd again settled⟩
    · have settled := fit.settled
      have near := fit.near due.1
      have next := fit.next due
      rw [after_periodic due once] at settled ⊢
      refine ⟨fun _ => ?_, fun _ => fit.long due.1, fun again => absurd again settled, fun _ again => absurd again settled⟩
      dsimp only
      omega
  · rw [after_of_not_due due]
    exact fit

end

end Alarm

namespace Counter
variable {cfg : CounterConfig} {A : Type} [DecidableEq A]

/-- The counter has just been increased, and every alarm fits. -/
structure Ready (s : Counter cfg A) : Prop where
  intact : IntactBut [] s
  pos : 0 < s.increment.toNat
  multiple : s.increment.toNat ∣ s.counter.toNat
  fit : ∀ a, (s.alarm a).Fit s.counter s.increment.toNat (cfg.organisation ≠ .single)

variable {s s' : Counter cfg A} {a b : A} {k : Fin cfg.organisation.lists}

theorem round_up {t inc value : Nat} (multiple : inc ∣ value) (near : value < t + inc) (due : t ≤ value) :
    (t + inc - 1) / inc = value / inc := by
  obtain ⟨m, rfl⟩ := multiple
  have pos : 0 < inc := by omega
  rw [Nat.mul_div_cancel_left m pos]
  refine Nat.div_eq_of_lt_le ?_ ?_
  · rw [mul_comm]
    omega
  · rw [Nat.succ_mul, mul_comm]
    omega

section
variable (ready : s.Ready)
include ready

theorem Ready.home_eq (due : (s.alarm a).Due s.counter) : s.home a = s.current := by
  unfold home current
  cases org : cfg.organisation with
  | single => rfl
  | multi size =>
    have near := (ready.fit a).near due.1
    have rounded := (ready.fit a).rounded (by simp [org]) due
    have wide : (s.increment.setWidth 64).toNat = s.increment.toNat := by
      rw [BitVec.toNat_setWidth]
      omega
    have sum : (s.trigger a + s.increment.setWidth 64 - 1).toNat = (s.trigger a).toNat + s.increment.toNat - 1 := by
      rw [BitVec.toNat_sub, BitVec.toNat_add, wide]
      have one : (1 : BitVec 64).toNat = 1 := rfl
      simp only [trigger]
      omega
    have same : (s.trigger a + s.increment.setWidth 64 - 1) / s.increment.setWidth 64 = s.counter / s.increment.setWidth 64 := by
      refine BitVec.eq_of_toNat_eq ?_
      rw [BitVec.toNat_udiv, BitVec.toNat_udiv, sum, wide]
      exact round_up ready.multiple near due.2
    rw [same]

theorem Ready.due_some (picked : s.due k = some a) : (s.alarm a).Due s.counter := by
  refine ⟨(ready.intact.home a k (due_mem picked)).2, ?_⟩
  unfold due at picked
  split at picked
  · exact of_decide_eq_true (filter_eq_some_iff.mp picked).2
  · have passed := find?_some picked
    exact of_decide_eq_true passed

theorem Ready.due_none (none : s.due s.current = none) (a : A) : ¬ (s.alarm a).Due s.counter := by
  intro isDue
  have mem : a ∈ s.alarmList s.current := by
    rcases ready.intact.linked a isDue.1 with ⟨k, onList⟩ | waits
    · rw [← ready.home_eq isDue, ← (ready.intact.home a k onList).1]
      exact onList
    · cases waits
  unfold due at none
  split at none
  · next sort =>
    have sorted := ready.intact.sorted sort s.current
    cases list : s.alarmList s.current with
    | nil =>
      rw [list] at mem
      cases mem
    | cons h l =>
      rw [list] at none sorted mem
      have late : ¬ s.trigger h ≤ s.counter := by simpa [Option.filter] using none
      rcases mem_cons.mp mem with rfl | behind
      · exact late isDue.2
      · exact late (BitVec.le_trans ((pairwise_cons.mp sorted).1 a behind) isDue.2)
  · exact absurd (decide_eq_true isDue.2) (find?_eq_none.mp none a mem)

theorem Ready.deliver_eq (due : (s.alarm a).Due s.counter) : ∃ lists, s.deliver k a .done .done =
      { s with
        alarm := Function.update s.alarm a ((s.alarm a).after s.counter)
        alarmList := lists
        called := s.called ++ [(a, s.counter)] } := by
  unfold deliver
  simp only [handle]
  by_cases once : (s.alarm a).interval = 0
  · have here : ¬ ((s.retire k a).alarm a).interval ≠ 0 := fun ne => ne once
    rw [if_neg here, after_once due once]
    exact ⟨_, rfl⟩
  · have here : ((s.retire k a).alarm a).interval ≠ 0 := once
    have future : ¬ (((s.retire k a).advance a).modify a fun x => { x with enabled := true }).trigger a ≤
        (((s.retire k a).advance a).modify a fun x => { x with enabled := true }).counter := by
      simpa [trigger, modify, advance, retire, setList] using (ready.fit a).late due once
    rw [if_pos here, after_periodic due once, addAlarm]
    rw [if_neg future]
    refine ⟨((((s.retire k a).advance a).modify a fun x => { x with enabled := true }).link a).alarmList, ?_⟩
    simp [call, link, setList, modify, advance, retire, due.1]

theorem Ready.deliver_intact (picked : s.due k = some a) : IntactBut [] (s.deliver k a .done .done) := by
  have isDue := ready.due_some picked
  refine ready.intact.deliver picked ?_
  unfold DeliverMild
  dsimp only
  split
  · next periodic =>
    refine ⟨fun due => ?_, trivial⟩
    have late := (ready.fit a).late isDue periodic
    exact absurd (by simpa [trigger, modify, advance, retire, setList] using due) late
  · trivial

theorem Ready.deliver (picked : s.due k = some a) : (s.deliver k a .done .done).Ready := by
  have intact := ready.deliver_intact picked
  obtain ⟨lists, eq⟩ := ready.deliver_eq (k := k) (ready.due_some picked)
  rw [eq] at intact ⊢
  refine ⟨intact, ready.pos, ready.multiple, fun b => ?_⟩
  by_cases same : b = a
  · subst same
    simpa using (ready.fit b).after
  · simpa [same] using ready.fit b

end

variable [Fintype A]

/-- The alarms that are due. -/
def dueSet (s : Counter cfg A) : Finset A := Finset.univ.filter fun a => (s.alarm a).Due s.counter

theorem Ready.expire (ready : s.Ready) {n : Nat} (enough : s.dueSet.card ≤ n) :
    ∃ u, ∃ ds : List A, expire s.current (List.replicate n (.done, .done)) s = some u ∧ u.Ready ∧ u.counter = s.counter ∧
      u.increment = s.increment ∧ (∀ a, u.alarm a = (s.alarm a).after s.counter) ∧
      u.called = s.called ++ ds.map (·, s.counter) ∧ ds.Nodup ∧ ∀ a, a ∈ ds ↔ (s.alarm a).Due s.counter := by
  induction n generalizing s with
  | zero =>
    have nothing : ∀ a, ¬ (s.alarm a).Due s.counter := fun a isDue => by
      have mem : a ∈ s.dueSet := by simp [dueSet, isDue]
      have pos := Finset.card_pos.mpr ⟨a, mem⟩
      omega
    have none : s.due s.current = none := by
      rw [eq_none_iff_forall_ne_some]
      exact fun a picked => nothing a (ready.due_some picked)
    refine ⟨s, [], ?_, ready, rfl, rfl, fun a => (after_of_not_due (nothing a)).symm, by simp, .nil, fun a => ?_⟩
    · simp [expire, none]
    · simp [nothing a]
  | succ n ih =>
    rw [replicate_succ, expire]
    cases picked : s.due s.current with
    | none =>
      have nothing := ready.due_none picked
      exact ⟨s, [], rfl, ready, rfl, rfl, fun a => (after_of_not_due (nothing a)).symm, by simp, .nil,
        fun a => by simp [nothing a]⟩
    | some a =>
      have isDue := ready.due_some picked
      have next := ready.deliver picked
      obtain ⟨lists, eq⟩ := ready.deliver_eq (k := s.current) isDue
      have settled := (ready.fit a).settled
      have fewer : (s.deliver s.current a .done .done).dueSet = s.dueSet.erase a := by
        rw [eq]
        ext b
        by_cases same : b = a
        · subst same
          simp [dueSet, settled]
        · simp [dueSet, same]
      have mem : a ∈ s.dueSet := by simp [dueSet, isDue]
      have fewer := congrArg Finset.card fewer
      rw [Finset.card_erase_of_mem mem] at fewer
      obtain ⟨u, ds, ended, ready', counter, increment, alarms, called, nodup, members⟩ := ih next (by omega)
      rw [eq] at ended counter increment alarms called members
      dsimp only
      rw [eq]
      have notLater : a ∉ ds := fun later => settled (by simpa using (members a).mp later)
      refine ⟨u, a :: ds, ended, ready', counter, increment, fun b => ?_, ?_, nodup_cons.mpr ⟨notLater, nodup⟩, fun b => ?_⟩
      · rw [alarms b]
        by_cases same : b = a
        · subst same
          simpa using after_of_not_due settled
        · simp [same]
      · rw [called]
        simp
      · rw [mem_cons, members b]
        by_cases same : b = a
        · subst same
          simp [isDue]
        · simp [same]

end Counter

end Ecos
