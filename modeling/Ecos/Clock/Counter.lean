import Ecos.Lib.Machine
import Mathlib.Data.PNat.Defs
import Mathlib.Algebra.BigOperators.Fin

namespace Ecos

/-- `CYGIMP_KERNEL_COUNTERS_SINGLE_LIST`, or `_MULTI_LIST` with
`CYGNUM_KERNEL_COUNTERS_MULTI_LIST_SIZE`. -/
inductive Organisation
  | single | multi (size : ℕ+)

/-- How many alarm lists a counter has. -/
def Organisation.lists : Organisation → Nat
  | .single => 1
  | .multi size => size

/-- The list for a number of whole ticks. -/
def Organisation.index : (org : Organisation) → BitVec 64 → Fin org.lists
  | .single, _ => ⟨0, Nat.one_pos⟩
  | .multi size, n => ⟨n.toNat % size, Nat.mod_lt _ size.pos⟩

/-- `sort` is `CYGIMP_KERNEL_COUNTERS_SORT_LIST`. -/
structure CounterConfig where
  organisation : Organisation
  sort : Bool

structure Alarm where
  trigger : BitVec 64
  interval : BitVec 64
  enabled : Bool

/-- A `Cyg_Counter` and its alarms. The last field records the calls of alarm functions,
each with the value of the counter. -/
structure Counter (cfg : CounterConfig) (A : Type) where
  alarm : A → Alarm
  alarmList : Fin cfg.organisation.lists → List A
  counter : BitVec 64
  increment : BitVec 32
  called : List (A × BitVec 64)

/-- In front of the first alarm that triggers later. -/
def insertAlarm {A : Type} (trigger : A → BitVec 64) (a : A) : List A → List A
  | [] => [a]
  | x :: l => if trigger a < trigger x then a :: x :: l else x :: insertAlarm trigger a l

namespace Counter
variable {cfg : CounterConfig} {A : Type} [DecidableEq A]

def modify (s : Counter cfg A) (a : A) (f : Alarm → Alarm) : Counter cfg A :=
  { s with alarm := Function.update s.alarm a (f (s.alarm a)) }

def trigger (s : Counter cfg A) (a : A) : BitVec 64 := (s.alarm a).trigger

def setList (s : Counter cfg A) (k : Fin cfg.organisation.lists) (l : List A) : Counter cfg A :=
  { s with alarmList := Function.update s.alarmList k l }

/-- Where `add_alarm` and `rem_alarm` look for an alarm. -/
def home (s : Counter cfg A) (a : A) : Fin cfg.organisation.lists :=
  cfg.organisation.index ((s.trigger a + s.increment.setWidth 64 - 1) / s.increment.setWidth 64)

/-- The list that `tick` looks at. -/
def current (s : Counter cfg A) : Fin cfg.organisation.lists :=
  cfg.organisation.index (s.counter / s.increment.setWidth 64)

/-- The end of `add_alarm`. -/
def link (s : Counter cfg A) (a : A) : Counter cfg A :=
  s.setList (s.home a) (if cfg.sort then insertAlarm s.trigger a (s.alarmList (s.home a)) else s.alarmList (s.home a) ++ [a])

def synchronize (s : Counter cfg A) (a : A) : Counter cfg A :=
  if (s.alarm a).interval ≠ 0 then
    let d := s.counter + (s.alarm a).interval - (s.alarm a).trigger
    if (s.alarm a).interval < d then
      s.modify a fun x => { x with trigger := x.trigger + x.interval * ((d - 1) / x.interval) }
    else s
  else s

/-- The alarm function is called, and what it does to the alarms follows. -/
def call (s : Counter cfg A) (a : A) : Counter cfg A := { s with called := s.called ++ [(a, s.counter)] }

/-- `Cyg_Counter::add_alarm`, where the alarm function, if it is called, does `handler`. -/
def addAlarm (handler : Counter cfg A → Counter cfg A) (s : Counter cfg A) (a : A) : Counter cfg A :=
  let s := s.modify a fun x => { x with enabled := true }
  if s.trigger a ≤ s.counter then
    let s := handler (s.call a)
    if (s.alarm a).interval ≠ 0 ∧ (s.alarm a).enabled = true then
      ((s.modify a fun x => { x with trigger := x.trigger + x.interval }).synchronize a).link a
    else s.modify a fun x => { x with enabled := false }
  else s.link a

def remAlarm (s : Counter cfg A) (a : A) : Counter cfg A :=
  (s.setList (s.home a) ((s.alarmList (s.home a)).erase a)).modify a fun x => { x with enabled := false }

/-- `Cyg_Alarm::initialize` as far as `add_alarm`. -/
def rearm (s : Counter cfg A) (a : A) (t i : BitVec 64) : Counter cfg A :=
  let s := if (s.alarm a).enabled then s.remAlarm a else s
  s.modify a fun x => { x with trigger := t, interval := i }

/-- `Cyg_Alarm::enable` of a disabled alarm as far as `add_alarm`. -/
def revive (s : Counter cfg A) (a : A) : Counter cfg A :=
  (s.synchronize a).modify a fun x => { x with enabled := true }

end Counter

/-- What can be asked of an alarm. -/
inductive AlarmCall (A : Type)
  | initializeAt (a : A) (t i : BitVec 64) | enable (a : A) | disable (a : A)

/-- What an alarm function does: its calls in turn, each with what the alarm function does
that the call may in turn lead to. -/
inductive Handler (A : Type)
  | done
  | call (c : AlarmCall A) (nested rest : Handler A)

namespace Counter
variable {cfg : CounterConfig} {A : Type} [DecidableEq A]

/-- `Cyg_Alarm::initialize`, `enable` and `disable`. -/
def perform (s : Counter cfg A) (handler : Counter cfg A → Counter cfg A) : AlarmCall A → Counter cfg A
  | .initializeAt a t i => addAlarm handler (s.rearm a t i) a
  | .enable a => if (s.alarm a).enabled then s else addAlarm handler (s.revive a) a
  | .disable a => if (s.alarm a).enabled then s.remAlarm a else s

/-- The effect of an alarm function. -/
def handle (s : Counter cfg A) : Handler A → Counter cfg A
  | .done => s
  | .call c nested rest => handle (s.perform (fun s => handle s nested) c) rest

/-- The next alarm that `tick` picks from list `k`: the head, if due, of a sorted list;
the first that is due of an unsorted one. -/
def due (s : Counter cfg A) (k : Fin cfg.organisation.lists) : Option A :=
  if cfg.sort then (s.alarmList k).head?.filter fun a => s.trigger a ≤ s.counter
  else (s.alarmList k).find? fun a => s.trigger a ≤ s.counter

/-- What `tick` does with an alarm before it calls the alarm function. -/
def retire (s : Counter cfg A) (k : Fin cfg.organisation.lists) (a : A) : Counter cfg A :=
  s.setList k ((s.alarmList k).erase a)

def advance (s : Counter cfg A) (a : A) : Counter cfg A := s.modify a fun x => { x with trigger := x.trigger + x.interval }

/-- One turn of the loop of `tick`: `inner` is what the alarm function does if `add_alarm`
calls it, `outer` what it does when `tick` calls it. -/
def deliver (s : Counter cfg A) (k : Fin cfg.organisation.lists) (a : A) (inner outer : Handler A) : Counter cfg A :=
  let s := s.retire k a
  let s := if (s.alarm a).interval ≠ 0 then addAlarm (handle · inner) (s.advance a) a
    else s.modify a fun x => { x with enabled := false }
  handle (s.call a) outer

/-- The loop of `tick`, with what the alarm functions do in each turn; `none` if it goes on
beyond that. -/
def expire (k : Fin cfg.organisation.lists) : List (Handler A × Handler A) → Counter cfg A → Option (Counter cfg A)
  | [], s => if (s.due k).isNone then some s else none
  | (inner, outer) :: turns, s =>
    match s.due k with
    | none => some s
    | some a => expire k turns (s.deliver k a inner outer)

def increase (s : Counter cfg A) : Counter cfg A := { s with counter := s.counter + s.increment.setWidth 64 }

/-- `Cyg_Counter::tick`, one list of turns for each tick. -/
def tick : List (List (Handler A × Handler A)) → Counter cfg A → Option (Counter cfg A)
  | [], s => some s
  | turns :: ticks, s => (expire s.increase.current turns s.increase).bind (tick ticks)

/-- A new counter, and alarms that their constructor has just disabled. -/
def initial (value : BitVec 64) (increment : BitVec 32) : Counter cfg A :=
  ⟨fun _ => ⟨0, 0, false⟩, fun _ => [], value, increment, []⟩

/-- The alarm is on some list. -/
def Linked (s : Counter cfg A) (a : A) : Prop := ∃ k, a ∈ s.alarmList k

instance (s : Counter cfg A) (a : A) : Decidable (s.Linked a) := inferInstanceAs (Decidable (∃ _, _))

/-- How often the alarm is linked. -/
def links (s : Counter cfg A) (a : A) : Nat := ∑ k, (s.alarmList k).count a

end Counter

/-- The operations of a counter and its alarms. -/
inductive CounterOp (A : Type)
  | alarm (c : AlarmCall A) (handler : Handler A)
  | tick (ticks : List (List (Handler A × Handler A)))

namespace Counter
variable {cfg : CounterConfig} {A : Type} [DecidableEq A]

def operate (s : Counter cfg A) : CounterOp A → Option (Counter cfg A)
  | .alarm c handler => some (s.perform (handle · handler) c)
  | .tick ticks => s.tick ticks

end Counter

end Ecos
