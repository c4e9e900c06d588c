import Ecos.Kernel.Alert

namespace Ecos
open Kernel

/-- The effect of a call of `current` on the threads and wait queues. What only
concerns the choice of the next thread has none. -/
def Threads.call {cfg : Config} {T Q : Type} [DecidableEq T] [DecidableEq Q] (s : Threads cfg T Q) (current : T) :
    Call cfg T Q → Threads cfg T Q
  | .sleep => s.sleep current
  | .wake t => s.wake t
  | .countedSleep => s.countedSleep current
  | .countedWake t => s.countedWake t
  | .suspend t => s.suspend t
  | .resume t => s.resume t
  | .forceResume t => s.forceResume t
  | .release t => s.release t
  | .kill t => if t = current then s.exit current else s.kill t
  | .exit => s.exit current
  | .alarm t => s.alarm t
  | .setPriority t new => s.setPriority t new
  | .setSleepReason reason => s.setSleepReason current reason
  | .setWakeReason t reason => s.setWakeReason t reason
  | .toQueueHead t => s.toQueueHead t
  | .enqueue q t => s.enqueue q t
  | .dequeue q => s.dequeue q
  | .remove _ t => s.remove t
  | .startCpu | .lock | .unlock | .reschedule | .unlockReschedule | .yield | .rotateQueue _ | .timeslice
  | .timesliceCpu | .setTimesliceEnabled .. => s

namespace Kernel
variable {cfg : Config} {T Q : Type} [DecidableEq T] [DecidableEq Q] [Fintype T]
variable {clean : Prop} {idle x : T} {k : Kernel cfg T Q} {q : Q} {s : Threads cfg T Q} {c : Call cfg T Q}

/-- How the kernel is used: the idle thread always stays runnable; a thread dies
by its own hand only while it is running; the lock is only given back when held;
and wait queues are used as the synchronization objects use them, where a
thread queues once it sleeps with its reason set and is given a wake reason
once it is off the queue. -/
def Disciplined (idle : T) (k : Kernel cfg T Q) : Call cfg T Q → Prop
  | .startCpu => ∀ t, k.context t = none
  | .unlock | .reschedule | .unlockReschedule => 0 < k.schedLock
  | .sleep | .countedSleep => k.currentThread ≠ idle
  | .suspend t => t ≠ idle
  | .kill t => t ≠ idle ∧ (t = k.currentThread → (k.thread t).Running)
  | .exit => k.currentThread ≠ idle ∧ (k.thread k.currentThread).Running
  | .setSleepReason reason => (k.thread k.currentThread).queue ≠ none → reason.blocking = true
  | .setWakeReason t _ => (k.thread t).queue = none
  | .enqueue _ t => (k.thread t).state.sleeping = true ∧ (k.thread t).queue = none ∧
      (k.thread t).sleepReason.blocking = true
  | .remove q t => (k.thread t).queue = some q
  | .lock | .wake _ | .countedWake _ | .resume _ | .forceResume _ | .release _ | .alarm _ | .setPriority .. | .yield
  | .rotateQueue _ | .toQueueHead _ | .timeslice | .timesliceCpu | .setTimesliceEnabled .. | .dequeue _ => True

/-- The thread that a call takes off its run queue, if any. -/
def descheduled (k : Kernel cfg T Q) : Call cfg T Q → Option T
  | .sleep | .exit => if (k.thread k.currentThread).Running then some k.currentThread else none
  | .countedSleep =>
    if (k.thread k.currentThread).Running ∧ (k.thread k.currentThread).wakeupCount = 0 then some k.currentThread
    else none
  | .suspend t | .setPriority t _ => if (k.thread t).Running then some t else none
  | .kill t =>
    if t = k.currentThread then if (k.thread t).Running then some t else none
    else if (k.thread t).forceResumed.Running ∧ (k.thread t).wakeReason ≠ .exit ∧ (k.thread t).sleepReason = .none
      then some t else none
  | _ => none

/-- The call takes no thread off the run queue of the lowest priority. -/
def SparesLast (k : Kernel cfg T Q) (c : Call cfg T Q) : Prop :=
  ∀ t, k.descheduled c = some t → (k.thread t).priority ≠ cfg.idlePriority

theorem Realizes.body (real : Realizes clean idle k s) (fit : k.Disciplined idle c)
    (spares : clean → k.SparesLast c) : Realizes clean idle (k.body c) (s.call k.currentThread c) := by
  cases c with
  | startCpu | lock | unlock | reschedule | unlockReschedule => exact real
  | sleep =>
    refine real.sleep fit fun isClean runs => spares isClean _ ?_
    simp [descheduled, runs]
  | wake t => exact real.wake t
  | countedSleep =>
    refine real.countedSleep fit fun isClean runs none => spares isClean _ ?_
    simp [descheduled, runs, none]
  | countedWake t => exact real.countedWake t
  | suspend t =>
    refine real.suspend fit fun isClean runs => spares isClean _ ?_
    simp [descheduled, runs]
  | resume t => exact real.resume t
  | forceResume t => exact real.forceResume t
  | release t => exact real.release t
  | kill t =>
    by_cases self : t = k.currentThread
    · subst self
      simp only [body, Threads.call, if_true]
      refine real.exit fit.1 (fit.2 rfl) fun isClean => spares isClean _ ?_
      simp [descheduled, fit.2 rfl]
    · simp only [body, Threads.call, if_neg self]
      refine real.kill fit.1 fun isClean runs pending reason => spares isClean _ ?_
      simp [descheduled, self, runs, pending, reason]
  | exit =>
    refine real.exit fit.1 fit.2 fun isClean => spares isClean _ ?_
    simp [descheduled, fit.2]
  | alarm t => exact real.alarm t
  | setPriority t new =>
    refine real.setPriority new fun isClean runs => spares isClean _ ?_
    simp [descheduled, runs]
  | setSleepReason reason => exact real.setSleepReason reason fit
  | setWakeReason t reason => exact real.setWakeReason fit
  | yield => exact real.yield
  | rotateQueue pri => exact real.rotateQueue pri
  | toQueueHead t => exact real.toQueueHead t
  | timeslice => exact real.timeslice
  | timesliceCpu => exact real.timesliceCpu
  | setTimesliceEnabled t on => exact real.congr rfl rfl rfl fun _ held => held
  | enqueue q t => exact real.enqueue fit.1 fit.2.1 fit.2.2
  | dequeue q => exact real.dequeue q
  | remove q t => exact real.queueRemove fit

theorem Alert.body (alert : k.Alert) (sound : ∀ t, (k.thread t).Sound) : (k.body c).Alert := by
  cases c with
  | startCpu | lock | unlock | reschedule | unlockReschedule => exact alert
  | sleep => exact alert.sleep
  | wake t => exact alert.wake t
  | countedSleep => exact alert.countedSleep
  | countedWake t => exact alert.countedWake t
  | suspend t => exact alert.suspend t
  | resume t => exact alert.resume (sound t)
  | forceResume t => exact alert.forceResume (sound t)
  | release t => exact alert.release t
  | kill t =>
    simp only [body]
    split
    · exact alert.exit
    · exact alert.kill (sound t)
  | exit => exact alert.exit
  | alarm t => exact alert.alarm t
  | setPriority t new => exact alert.setPriority (sound t) new
  | setSleepReason reason => exact alert.modify rfl fun runs => runs
  | setWakeReason t reason => exact alert.modify rfl fun runs => runs
  | yield => exact alert.yield
  | rotateQueue pri => exact alert.rotateQueue pri
  | toQueueHead t => exact alert.toQueueHead t
  | timeslice => exact alert.timeslice
  | timesliceCpu => exact alert.timesliceCpu
  | setTimesliceEnabled t on => exact alert
  | enqueue q t => exact alert.enqueue q t
  | dequeue q => exact alert.dequeue q
  | remove q t => exact alert.queueRemove q t

end Kernel

end Ecos
