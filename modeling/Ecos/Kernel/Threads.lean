import Mathlib.Data.Fintype.Basic
import Mathlib.Data.List.Rotate
import Mathlib.Data.List.DropRight
import Mathlib.Algebra.Ring.Int.Defs
import Mathlib.Algebra.GroupWithZero.Nat

namespace Ecos

/-- The configuration points the kernel code depends on. Priorities run from
0, the most urgent, to `CYG_THREAD_MIN_PRIORITY`; the run queue bitmap is a
32 bit word, so there are at most 32 of them. -/
structure Config where
  minPriority : Nat
  fits : minPriority < 32
  sortedQueues : Bool
  timesliceTicks : Nat

abbrev Priority (cfg : Config) := Fin (cfg.minPriority + 1)

/-- `CYG_THREAD_MIN_PRIORITY`, the level of the idle thread. -/
def Config.idlePriority (cfg : Config) : Priority cfg := Fin.last _

/-- Two levels, of which the second is the idle level. -/
def Config.twoLevels : Config where
  minPriority := 1
  fits := by decide
  sortedQueues := false
  timesliceTicks := 5

instance (priority := 2000) neZeroTwoLevels : NeZero (Config.twoLevels.minPriority + 1) := ⟨nofun⟩

/-- `Cyg_Thread::cyg_reason`, why a thread sleeps or why it was woken. -/
inductive Reason
  | none | wait | delay | timeout | brk | destruct | exit | done
  deriving DecidableEq, Repr

/-- The bits of `Cyg_Thread::state`. `CREATING` is never set by the kernel. -/
structure ThreadState where
  sleeping : Bool := false
  countsleep : Bool := false
  suspended : Bool := false
  exited : Bool := false
  deriving DecidableEq, Repr

namespace ThreadState

/-- The zero word: only then can the thread execute. -/
def running : ThreadState := {}

def exitedOnly : ThreadState := { exited := true }

/-- `state & SLEEPSET` is non-zero. -/
def inSleepset (s : ThreadState) : Bool := s.sleeping || s.countsleep

/-- `state &= ~SLEEPSET`. -/
def clearSleepset (s : ThreadState) : ThreadState := { s with sleeping := false, countsleep := false }

end ThreadState

/-- The fields of `Cyg_Thread` that scheduling and synchronization read. The
list pointers of its node and its time slice belong to the scheduler. -/
structure Thread (cfg : Config) (Q : Type) where
  state : ThreadState
  suspendCount : Nat
  wakeupCount : Nat
  sleepReason : Reason
  wakeReason : Reason
  queue : Option Q
  priority : Priority cfg
  originalPriority : Priority cfg
  priorityInherited : Bool
  mutexCount : Int

namespace Thread
variable {cfg : Config} {Q : Type}

/-- The constructor: a thread starts suspended. -/
def create (pri : Priority cfg) : Thread cfg Q where
  state := { suspended := true }
  suspendCount := 1
  wakeupCount := 0
  sleepReason := .none
  wakeReason := .none
  queue := Option.none
  priority := pri
  originalPriority := pri
  priorityInherited := false
  mutexCount := 0

/-- The one state in which a thread may be given the processor. -/
def Running (r : Thread cfg Q) : Prop := r.state = .running

instance (r : Thread cfg Q) : Decidable r.Running := inferInstanceAs (Decidable (_ = _))

/-- `Cyg_Thread::get_priority`: the original priority while one is inherited. -/
def getPriority (r : Thread cfg Q) : Priority cfg :=
  if r.priorityInherited then r.originalPriority else r.priority

@[simps]
def setSleepReason (r : Thread cfg Q) (reason : Reason) : Thread cfg Q :=
  { r with sleepReason := reason, wakeReason := .none }

@[simps]
def setWakeReason (r : Thread cfg Q) (reason : Reason) : Thread cfg Q :=
  { r with sleepReason := .none, wakeReason := reason }

/-- The counter is a `cyg_ucount32`. -/
def suspended (r : Thread cfg Q) : Thread cfg Q :=
  { r with suspendCount := (r.suspendCount + 1) % 2 ^ 32, state := { r.state with suspended := true } }

/-- `Cyg_Thread::resume`, without the return to the scheduler. -/
def resumed (r : Thread cfg Q) : Thread cfg Q :=
  if r.suspendCount = 1 then { r with suspendCount := 0, state := { r.state with suspended := false } }
  else if 0 < r.suspendCount then { r with suspendCount := r.suspendCount - 1 }
  else r

def forceResumed (r : Thread cfg Q) : Thread cfg Q :=
  if 0 < r.suspendCount then { r with suspendCount := 0, state := { r.state with suspended := false } }
  else r

/-- The priority fields as `Cyg_Thread::set_priority` leaves them under the
simple inversion protocol: an inherited priority is only ever improved. -/
def withPriority (r : Thread cfg Q) (new : Priority cfg) : Thread cfg Q :=
  if r.priorityInherited then
    { r with originalPriority := new, priority := if new < r.priority then new else r.priority }
  else { r with priority := new }

end Thread

/-- What the synchronization objects see of the kernel: the thread objects and
the wait queues, each in queue order. Which runnable thread is dispatched, and
in what order, is left open here and belongs to the scheduler. -/
structure Threads (cfg : Config) (T Q : Type) where
  thread : T → Thread cfg Q
  queue : Q → List T

/-- Where `Cyg_ThreadQueue_Implementation::enqueue` puts a thread: at the tail,
or, with sorted queues, in front of a less urgent head and otherwise behind the
last thread that is at least as urgent. -/
def placeQueued {cfg : Config} {T : Type} (pri : T → Priority cfg) (t : T) (l : List T) : List T :=
  if cfg.sortedQueues then
    match l with
    | [] => [t]
    | head :: rest =>
      if pri t < pri head then t :: head :: rest
      else (head :: rest).rdropWhile (pri t < pri ·) ++ t :: (head :: rest).rtakeWhile (pri t < pri ·)
  else l ++ [t]

namespace Threads
variable {cfg : Config} {T Q : Type} [DecidableEq T] [DecidableEq Q]

def setThread (s : Threads cfg T Q) (t : T) (r : Thread cfg Q) : Threads cfg T Q :=
  { s with thread := Function.update s.thread t r }

def modify (s : Threads cfg T Q) (t : T) (f : Thread cfg Q → Thread cfg Q) : Threads cfg T Q :=
  s.setThread t (f (s.thread t))

def setQueue (s : Threads cfg T Q) (q : Q) (l : List T) : Threads cfg T Q :=
  { s with queue := Function.update s.queue q l }

def enqueue (s : Threads cfg T Q) (q : Q) (t : T) : Threads cfg T Q :=
  (s.setQueue q (placeQueued (fun u => (s.thread u).priority) t (s.queue q))).modify t
    fun r => { r with queue := some q }

/-- `Cyg_ThreadQueue::dequeue`; the caller has looked at the head. -/
def dequeue (s : Threads cfg T Q) (q : Q) : Threads cfg T Q :=
  match s.queue q with
  | [] => s
  | t :: rest => (s.setQueue q rest).modify t fun r => { r with queue := none }

/-- `Cyg_SchedThread::remove`: off whatever wait queue the thread is on. -/
def remove (s : Threads cfg T Q) (t : T) : Threads cfg T Q :=
  match (s.thread t).queue with
  | none => s
  | some q => (s.setQueue q ((s.queue q).erase t)).modify t fun r => { r with queue := none }

def sleep (s : Threads cfg T Q) (t : T) : Threads cfg T Q :=
  s.modify t fun r => { r with state := { r.state with sleeping := true } }

def wake (s : Threads cfg T Q) (t : T) : Threads cfg T Q :=
  if (s.thread t).state.inSleepset then
    (s.modify t fun r => { r with state := r.state.clearSleepset }).remove t
  else s

def setSleepReason (s : Threads cfg T Q) (t : T) (reason : Reason) : Threads cfg T Q :=
  s.modify t (·.setSleepReason reason)

def setWakeReason (s : Threads cfg T Q) (t : T) (reason : Reason) : Threads cfg T Q :=
  s.modify t (·.setWakeReason reason)

def suspend (s : Threads cfg T Q) (t : T) : Threads cfg T Q := s.modify t (·.suspended)

def resume (s : Threads cfg T Q) (t : T) : Threads cfg T Q := s.modify t (·.resumed)

def forceResume (s : Threads cfg T Q) (t : T) : Threads cfg T Q := s.modify t (·.forceResumed)

def countedSleep (s : Threads cfg T Q) (t : T) : Threads cfg T Q :=
  if (s.thread t).wakeupCount = 0 then
    ((s.setSleepReason t .wait).sleep t).modify t fun r => { r with state := { r.state with countsleep := true } }
  else s.modify t fun r => { r with wakeupCount := r.wakeupCount - 1 }

def countedWake (s : Threads cfg T Q) (t : T) : Threads cfg T Q :=
  if (s.thread t).state.countsleep then (s.setWakeReason t .done).wake t
  else s.modify t fun r => { r with wakeupCount := (r.wakeupCount + 1) % 2 ^ 32 }

def release (s : Threads cfg T Q) (t : T) : Threads cfg T Q :=
  match (s.thread t).sleepReason with
  | .none | .destruct | .brk | .exit | .done => s
  | .wait | .timeout | .delay => (s.setWakeReason t .brk).wake t

/-- `Cyg_Thread::exit`: the calling thread never runs again. -/
def exit (s : Threads cfg T Q) (t : T) : Threads cfg T Q :=
  if (s.thread t).state = .exitedOnly then s
  else s.modify t fun r => { r with state := .exitedOnly }

/-- `Cyg_Thread::kill` on a thread other than the caller. A sleeper is made to
wake up and exit by itself; any other thread dies on the spot. -/
def kill (s : Threads cfg T Q) (t : T) : Threads cfg T Q :=
  let s := s.forceResume t
  if (s.thread t).wakeReason = .exit then s.wake t
  else
    match (s.thread t).sleepReason with
    | .none => (s.modify t fun r => { r with state := .exitedOnly }).wake t
    | .destruct | .brk | .exit | .done => s
    | .wait | .timeout | .delay => (s.setWakeReason t .exit).wake t

def alarm (s : Threads cfg T Q) (t : T) : Threads cfg T Q :=
  match (s.thread t).sleepReason with
  | .destruct | .brk | .exit | .none | .wait | .done => s
  | .delay => (s.setWakeReason t .done).wake t
  | .timeout => (s.setWakeReason t .timeout).wake t

/-- `to_queue_head` on a wait queue: the head pointer moves along the ring, so
the threads that were in front go to the back. -/
def toQueueHead (s : Threads cfg T Q) (t : T) : Threads cfg T Q :=
  match (s.thread t).queue with
  | none => s
  | some q => s.setQueue q ((s.queue q).rotate ((s.queue q).idxOf t))

def setPriority (s : Threads cfg T Q) (t : T) (new : Priority cfg) : Threads cfg T Q :=
  if (s.thread t).state.sleeping then
    match (s.thread t).queue with
    | none => s.modify t (·.withPriority new)
    | some q => ((s.remove t).modify t (·.withPriority new)).enqueue q t
  else s.modify t (·.withPriority new)

variable (s : Threads cfg T Q) (t u : T) (q : Q) (f : Thread cfg Q → Thread cfg Q)

@[simp] theorem modify_thread_self : (s.modify t f).thread t = f (s.thread t) := by
  simp [modify, setThread]

@[simp] theorem modify_queue : (s.modify t f).queue = s.queue := rfl

@[simp] theorem setQueue_thread (l : List T) : (s.setQueue q l).thread = s.thread := rfl

@[simp] theorem setQueue_queue_self (l : List T) : (s.setQueue q l).queue q = l := by
  simp [setQueue]

variable {s t u q f}

theorem modify_thread_of_ne (ne : u ≠ t) : (s.modify t f).thread u = s.thread u := by
  simp [modify, setThread, ne]

theorem setQueue_queue_of_ne {r : Q} {l : List T} (ne : r ≠ q) : (s.setQueue q l).queue r = s.queue r := by
  simp [setQueue, ne]

theorem remove_none (alone : (s.thread t).queue = none) : s.remove t = s := by
  simp [remove, alone]

theorem remove_some (queued : (s.thread t).queue = some q) :
    s.remove t = (s.setQueue q ((s.queue q).erase t)).modify t fun r => { r with queue := none } := by
  simp [remove, queued]

@[simp] theorem remove_thread_self : (s.remove t).thread t = { s.thread t with queue := none } := by
  cases queued : (s.thread t).queue with
  | none => rw [remove_none queued, ← queued]
  | some q => simp [remove_some queued]

theorem remove_thread_of_ne (ne : u ≠ t) : (s.remove t).thread u = s.thread u := by
  cases queued : (s.thread t).queue with
  | none => rw [remove_none queued]
  | some q => simp [remove_some queued, modify_thread_of_ne ne]

theorem wake_thread_of_ne (ne : u ≠ t) : (s.wake t).thread u = s.thread u := by
  unfold wake
  split
  · rw [remove_thread_of_ne ne, modify_thread_of_ne ne]
  · rfl

/-- A property of every thread object. -/
def All (P : Thread cfg Q → Prop) (s : Threads cfg T Q) : Prop := ∀ t, P (s.thread t)

section All
variable {P : Thread cfg Q → Prop}

theorem All.modify (all : s.All P) (kept : P (s.thread t) → P (f (s.thread t))) : (s.modify t f).All P := by
  intro u
  by_cases same : u = t
  · subst same; simpa using kept (all u)
  · simpa [modify_thread_of_ne same] using all u

theorem All.remove (all : s.All P) (unqueue : ∀ r, P r → P { r with queue := none }) : (s.remove t).All P := by
  intro u
  by_cases same : u = t
  · subst same; simpa using unqueue _ (all u)
  · simpa [remove_thread_of_ne same] using all u

theorem All.wake (all : s.All P) (unqueue : ∀ r, P r → P { r with queue := none })
    (rouse : ∀ r, P r → P { r with state := r.state.clearSleepset }) : (s.wake t).All P := by
  unfold Threads.wake
  split
  · exact (all.modify (rouse _)).remove unqueue
  · exact all

theorem All.dequeue (all : s.All P) (unqueue : ∀ r, P r → P { r with queue := none }) : (s.dequeue q).All P := by
  unfold Threads.dequeue
  split
  · exact all
  · exact All.modify (s := s.setQueue _ _) all (unqueue _)

theorem All.enqueue (all : s.All P) (enqueue : ∀ r, P r → P { r with queue := some q }) : (s.enqueue q t).All P :=
  All.modify (s := s.setQueue _ _) all (enqueue _)

end All

end Threads

end Ecos
