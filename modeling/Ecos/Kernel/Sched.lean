import Ecos.Kernel.Mlqueue

namespace Ecos

/-- The reasons that `release`, `kill` and the thread timer act upon. -/
def Reason.blocking : Reason → Bool
  | .wait | .timeout | .delay => true
  | .none | .brk | .destruct | .exit | .done => false

namespace Kernel
variable {cfg : Config} {T Q : Type} [DecidableEq T] [DecidableEq Q]

/-! The members of `Cyg_Thread`, each as what it does between its own `lock`
and `unlock`. Under a lock that is already held that pair cancels, so nested
calls are calls of these. -/

def setSleepReason (k : Kernel cfg T Q) (reason : Reason) : Kernel cfg T Q :=
  k.modify k.currentThread (·.setSleepReason reason)

def setWakeReason (k : Kernel cfg T Q) (t : T) (reason : Reason) : Kernel cfg T Q :=
  k.modify t (·.setWakeReason reason)

/-- Only the current thread puts itself to sleep. -/
def sleep (k : Kernel cfg T Q) : Kernel cfg T Q :=
  let current := k.currentThread
  let k := if (k.thread current).Running then k.remThread current else k
  k.modify current fun r => { r with state := { r.state with sleeping := true } }

def wake (k : Kernel cfg T Q) (t : T) : Kernel cfg T Q :=
  if (k.thread t).state.inSleepset then
    let k := k.modify t fun r => { r with state := r.state.clearSleepset }
    let k := k.remove t
    if (k.thread t).Running then k.addThread t else k
  else k

/-- `counted_sleep()`; when the thread is next dispatched with a wake reason of
`EXIT` or `DESTRUCT` it goes on to call `exit`. -/
def countedSleep (k : Kernel cfg T Q) : Kernel cfg T Q :=
  let current := k.currentThread
  if (k.thread current).wakeupCount = 0 then
    let k := k.setSleepReason .wait
    let k := k.sleep
    k.modify current fun r => { r with state := { r.state with countsleep := true } }
  else k.modify current fun r => { r with wakeupCount := r.wakeupCount - 1 }

def countedWake (k : Kernel cfg T Q) (t : T) : Kernel cfg T Q :=
  if (k.thread t).state.countsleep then (k.setWakeReason t .done).wake t
  else k.modify t fun r => { r with wakeupCount := (r.wakeupCount + 1) % 2 ^ 32 }

def suspend (k : Kernel cfg T Q) (t : T) : Kernel cfg T Q :=
  let k := if (k.thread t).Running then k.remThread t else k
  k.modify t (·.suspended)

def resume (k : Kernel cfg T Q) (t : T) : Kernel cfg T Q :=
  if (k.thread t).suspendCount = 1 then
    let k := k.cygAssert (k.thread t).state.suspended
    let k := k.modify t (·.resumed)
    if (k.thread t).Running then k.addThread t else k
  else k.modify t (·.resumed)

def forceResume (k : Kernel cfg T Q) (t : T) : Kernel cfg T Q :=
  if 0 < (k.thread t).suspendCount then
    let k := k.cygAssert (k.thread t).state.suspended
    let k := k.modify t (·.forceResumed)
    if (k.thread t).Running then k.addThread t else k
  else k

def release (k : Kernel cfg T Q) (t : T) : Kernel cfg T Q :=
  if (k.thread t).sleepReason.blocking then (k.setWakeReason t .brk).wake t else k

/-- The part of `exit` before its final `reschedule`, from which it never
returns. -/
def exit (k : Kernel cfg T Q) : Kernel cfg T Q :=
  let self := k.currentThread
  if (k.thread self).state = .exitedOnly then k
  else (k.modify self fun r => { r with state := .exitedOnly }).remThread self

/-- `kill` on a thread other than the caller; on the caller it is `exit`. -/
def kill (k : Kernel cfg T Q) (t : T) : Kernel cfg T Q :=
  let k := k.forceResume t
  if (k.thread t).wakeReason = .exit then k.wake t
  else
    match (k.thread t).sleepReason with
    | .none =>
      let k := if (k.thread t).Running then k.remThread t else k
      (k.modify t fun r => { r with state := .exitedOnly }).wake t
    | .destruct | .brk | .exit | .done => k
    | .wait | .timeout | .delay => (k.setWakeReason t .exit).wake t

/-- `Cyg_ThreadTimer::alarm`, run from the clock DSR. -/
def alarm (k : Kernel cfg T Q) (t : T) : Kernel cfg T Q :=
  match (k.thread t).sleepReason with
  | .destruct | .brk | .exit | .none | .wait | .done => k
  | .delay => (k.setWakeReason t .done).wake t
  | .timeout => (k.setWakeReason t .timeout).wake t

def setPriority [Fintype T] (k : Kernel cfg T Q) (t : T) (new : Priority cfg) : Kernel cfg T Q :=
  let state := (k.thread t).state
  let queue := if state = .running then none else if state.sleeping then (k.thread t).queue else none
  let k := if state = .running then k.remThread t else if state.sleeping then k.remove t else k
  let k := k.modify t (·.withPriority new)
  let k := if state = .running then k.addThread t
    else match queue with
      | none => k
      | some q => k.enqueue q t
  if t = k.currentThread then k.setNeedReschedule else k.setNeedRescheduleFor t

/-- `Cyg_SchedThread_Implementation::yield` up to its unlock. -/
def yield (k : Kernel cfg T Q) : Kernel cfg T Q :=
  let thread := k.currentThread
  if (k.thread thread).Running then
    let pri := (k.thread thread).priority
    let k := k.setLists (k.lists.rotate (.run pri))
    if k.lists.head (.run pri) ≠ some thread then k.setNeedReschedule else k.timesliceReset thread
  else k

def rotateQueue (k : Kernel cfg T Q) (pri : Priority cfg) : Kernel cfg T Q :=
  if k.runEmpty pri then k else (k.setLists (k.lists.rotate (.run pri))).setNeedReschedule

/-- A thread alone on its run queue does not count as `in_list`. -/
def toQueueHead (k : Kernel cfg T Q) (t : T) : Kernel cfg T Q :=
  match (k.thread t).queue with
  | some q => k.setLists (k.lists.toHead (.wait q) t)
  | none =>
    if k.lists.nodes.next t ≠ t then
      (k.setLists (k.lists.toHead (.run (k.thread t).priority) t)).setNeedRescheduleFor t
    else k

def timesliceCpu (k : Kernel cfg T Q) : Kernel cfg T Q :=
  let thread := k.currentThread
  let k := k.cygAssert (k.queueMap != 0 && k.mapBit cfg.idlePriority)
  let k :=
    if k.timesliceEnabled thread ∧ k.timesliceCount = 0 ∧ (k.thread thread).Running then
      let pri := (k.thread thread).priority
      let k := k.setLists (k.lists.rotate (.run pri))
      let k := if k.lists.head (.run pri) ≠ some thread then k.setNeedReschedule else k
      k.setTimesliceCount cfg.timesliceTicks
    else k
  k.cygAssert k.idlePresent

/-- Decrement of a `cyg_ucount32`, which wraps at zero. -/
def decrement32 (count : Nat) : Nat := if count = 0 then 2 ^ 32 - 1 else count - 1

/-- `timeslice`, called on every tick of the clock. -/
def timeslice (k : Kernel cfg T Q) : Kernel cfg T Q :=
  let k := k.setTimesliceCount (decrement32 k.timesliceCount)
  if k.timesliceCount = 0 then k.timesliceCpu else k

@[simps -fullyApplied]
def setTimesliceEnabled (k : Kernel cfg T Q) (t : T) (on : Bool) : Kernel cfg T Q :=
  { k with timesliceEnabled := Function.update k.timesliceEnabled t on }

@[simps -fullyApplied]
def lock (k : Kernel cfg T Q) : Kernel cfg T Q := { k with schedLock := k.schedLock + 1 }

/-- `Cyg_Scheduler::thread_entry`: the first instructions of a new thread, which
drop the scheduler lock to zero. -/
def threadEntry (k : Kernel cfg T Q) (t : T) : Kernel cfg T Q :=
  let k := { k with needReschedule := false, currentThread := t }
  let k := k.timesliceReset t
  let k := k.timesliceRestore t
  { k with context := Function.update k.context t (some 0), schedLock := 0 }

/-- `HAL_THREAD_SWITCH_CONTEXT`: control continues where `next` lost it, in an
`unlock_inner` of its own or at its entry. -/
def switchContext (k : Kernel cfg T Q) (next : T) : Kernel cfg T Q :=
  match k.context next with
  | none => k.threadEntry next
  | some newLock =>
    let k := { k with currentThread := next }
    let k := k.timesliceRestore next
    { k with needReschedule := false, schedLock := newLock }

/-- `Cyg_Scheduler::unlock_inner`, one turn of its loop. Deferred service
routines that make it turn again are steps of their own, taken by the current
thread under the lock. Where `schedule` finds no thread the system is rebooted;
here the state stays as it is. -/
def unlockInner (k : Kernel cfg T Q) (newLock : Nat) : Kernel cfg T Q :=
  let current := k.currentThread
  if ¬ (k.thread current).Running ∨ k.needReschedule then
    match k.schedule with
    | (k, none) => k
    | (k, some next) =>
      if current ≠ next then
        let k := { k with threadSwitches := k.threadSwitches + 1 }
        let k := k.timesliceSave current
        let k := { k with context := Function.update k.context current (some newLock) }
        k.switchContext next
      else { k with needReschedule := false, schedLock := newLock }
  else { k with schedLock := newLock }

def unlock (k : Kernel cfg T Q) : Kernel cfg T Q :=
  if k.schedLock - 1 = 0 then k.unlockInner 0 else { k with schedLock := k.schedLock - 1 }

def reschedule (k : Kernel cfg T Q) : Kernel cfg T Q := k.unlockInner k.schedLock

def unlockReschedule (k : Kernel cfg T Q) : Kernel cfg T Q := k.unlockInner (k.schedLock - 1)

def startCpu (k : Kernel cfg T Q) : Kernel cfg T Q :=
  match k.schedule with
  | (k, none) => k
  | (k, some next) => k.threadEntry next

/-- What the constructors leave: every thread suspended and on no list, the
scheduler locked and a reschedule due. -/
def boot (pri : T → Priority cfg) (idle : T) : Kernel cfg T Q where
  thread t := Thread.create (pri t)
  lists := .empty
  queueMap := 0
  currentThread := idle
  needReschedule := true
  schedLock := 1
  threadSwitches := 0
  timesliceCount := cfg.timesliceTicks
  threadTimeslice _ := cfg.timesliceTicks
  timesliceEnabled _ := true
  context _ := none
  assertsHeld := true

/-- `set_idle_thread`, the state in which the other threads find the system. -/
def setIdleThread (k : Kernel cfg T Q) (idle : T) : Kernel cfg T Q :=
  let k := { k with currentThread := idle }
  (k.lock.resume idle).unlock

end Kernel

/-- The calls that can be made on the kernel, by the current thread or by a
deferred service routine that interrupts it. -/
inductive Call (cfg : Config) (T Q : Type)
  | startCpu | lock | unlock | reschedule | unlockReschedule
  | sleep | wake (t : T) | countedSleep | countedWake (t : T)
  | suspend (t : T) | resume (t : T) | forceResume (t : T)
  | release (t : T) | kill (t : T) | exit | alarm (t : T)
  | setPriority (t : T) (new : Priority cfg)
  | setSleepReason (reason : Reason) | setWakeReason (t : T) (reason : Reason)
  | yield | rotateQueue (pri : Priority cfg) | toQueueHead (t : T)
  | timeslice | timesliceCpu | setTimesliceEnabled (t : T) (on : Bool)
  | enqueue (q : Q) (t : T) | dequeue (q : Q) | remove (q : Q) (t : T)

namespace Kernel
variable {cfg : Config} {T Q : Type} [DecidableEq T] [DecidableEq Q] [Fintype T]

/-- The body of a call, without the lock that most members take around it. -/
def body (k : Kernel cfg T Q) : Call cfg T Q → Kernel cfg T Q
  | .startCpu | .lock | .unlock | .reschedule | .unlockReschedule => k
  | .sleep => k.sleep
  | .wake t => k.wake t
  | .countedSleep => k.countedSleep
  | .countedWake t => k.countedWake t
  | .suspend t => k.suspend t
  | .resume t => k.resume t
  | .forceResume t => k.forceResume t
  | .release t => k.release t
  | .kill t => if t = k.currentThread then k.exit else k.kill t
  | .exit => k.exit
  | .alarm t => k.alarm t
  | .setPriority t new => k.setPriority t new
  | .setSleepReason reason => k.setSleepReason reason
  | .setWakeReason t reason => k.setWakeReason t reason
  | .yield => k.yield
  | .rotateQueue pri => k.rotateQueue pri
  | .toQueueHead t => k.toQueueHead t
  | .timeslice => k.timeslice
  | .timesliceCpu => k.timesliceCpu
  | .setTimesliceEnabled t on => k.setTimesliceEnabled t on
  | .enqueue q t => k.enqueue q t
  | .dequeue q => k.dequeue q
  | .remove q t => k.queueRemove q t

/-- The final unlock of `yield`. -/
def yieldUnlock (k : Kernel cfg T Q) : Kernel cfg T Q :=
  if k.needReschedule then k.unlockReschedule else k.unlock

def call (k : Kernel cfg T Q) : Call cfg T Q → Kernel cfg T Q
  | .startCpu => k.startCpu
  | .lock => k.lock
  | .unlock => k.unlock
  | .reschedule => k.reschedule
  | .unlockReschedule => k.unlockReschedule
  | .exit => (k.lock.body .exit).reschedule
  | .kill t =>
    if t = k.currentThread then (k.lock.body .exit).reschedule else (k.lock.body (.kill t)).unlock
  | .yield => (k.lock.body .yield).yieldUnlock
  | .timeslice => k.body .timeslice
  | .timesliceCpu => k.body .timesliceCpu
  | .setTimesliceEnabled t on => k.body (.setTimesliceEnabled t on)
  | .setSleepReason reason => k.body (.setSleepReason reason)
  | .setWakeReason t reason => k.body (.setWakeReason t reason)
  | .enqueue q t => k.body (.enqueue q t)
  | .dequeue q => k.body (.dequeue q)
  | .remove q t => k.body (.remove q t)
  | c => (k.lock.body c).unlock

end Kernel

end Ecos
