import Ecos.Sync.Waiting
import Ecos.Lib.Machine

namespace Ecos

namespace Threads
variable {cfg : Config} {T Q : Type} [DecidableEq T] [DecidableEq Q]

/-! The priority inversion protocol of `Cyg_SchedThread`, in its simple form. -/

def countMutex (s : Threads cfg T Q) (t : T) : Threads cfg T Q :=
  s.modify t fun r => { r with mutexCount := r.mutexCount + 1 }

def uncountMutex (s : Threads cfg T Q) (t : T) : Threads cfg T Q :=
  s.modify t fun r => { r with mutexCount := r.mutexCount - 1 }

/-- `set_inherited_priority`; the flag is cleared around `set_priority`, which
would otherwise take the new priority for an original one. -/
def setInheritedPriority (s : Threads cfg T Q) (t : T) (pri : Priority cfg) : Threads cfg T Q :=
  let mypri := (s.thread t).priority
  let alreadyInherited := (s.thread t).priorityInherited
  if pri < mypri then
    let s := s.modify t fun r => { r with priorityInherited := false }
    let s := s.setPriority t pri
    let s := if alreadyInherited then s else s.modify t fun r => { r with originalPriority := mypri }
    s.modify t fun r => { r with priorityInherited := true }
  else s

def inheritPriority (s : Threads cfg T Q) (t waiter : T) : Threads cfg T Q :=
  s.setInheritedPriority t (s.thread waiter).priority

/-- `relay_priority`: while others still wait, the priority of the former owner
goes to the thread that is woken. -/
def relayPriority (s : Threads cfg T Q) (t exOwner : T) (pqueue : Q) : Threads cfg T Q :=
  if (s.queue pqueue).isEmpty then s else s.setInheritedPriority t (s.thread exOwner).priority

/-- `clear_inherited_priority`, the common part of `disinherit_priority` and
`clear_priority_ceiling`. -/
def clearInheritedPriority (s : Threads cfg T Q) (t : T) : Threads cfg T Q :=
  let r := s.thread t
  if r.mutexCount = 0 ∧ r.priorityInherited = true then
    let s := s.modify t fun r => { r with priorityInherited := false }
    if r.priority < r.originalPriority then s.setPriority t r.originalPriority else s
  else s

/-- The loop of `release` over a whole queue: `dequeue`, then `release`. -/
def releaseAll (s : Threads cfg T Q) (q : Q) : Nat → Threads cfg T Q
  | 0 => s
  | n + 1 =>
    match s.queue q with
    | [] => s
    | t :: _ => ((s.dequeue q).release t).releaseAll q n

end Threads

inductive Protocol
  | none | inherit | ceiling
  deriving DecidableEq, Repr

structure Mutex (cfg : Config) (T : Type) where
  locked : Bool
  owner : Option T
  protocol : Protocol
  ceiling : Priority cfg

/-- Threads and the mutexes they share; the wait queue of mutex `m` is queue `m`.
`inside t` is the mutex in whose `lock` loop thread `t` waits. The other fields
record the history: `holds` which locks have been taken and not given back,
`woken` which threads an `unlock` has woken that have not tested the mutex since,
`base` the priority a thread was last given. -/
structure Mutexes (cfg : Config) (T M : Type) where
  threads : Threads cfg T M
  mutex : M → Mutex cfg T
  inside : T → Option M
  holds : T → M → Bool
  woken : T → Option M
  base : T → Priority cfg

namespace Mutexes
variable {cfg : Config} {T M : Type} [DecidableEq T] [DecidableEq M]

def active (s : Mutexes cfg T M) (m : M) : Bool := (s.mutex m).protocol != .none

def setMutex (s : Mutexes cfg T M) (m : M) (x : Mutex cfg T) : Mutexes cfg T M :=
  { s with mutex := Function.update s.mutex m x }

def setInside (s : Mutexes cfg T M) (t : T) (m : Option M) : Mutexes cfg T M :=
  { s with inside := Function.update s.inside t m }

def setHolds (s : Mutexes cfg T M) (t : T) (m : M) (b : Bool) : Mutexes cfg T M :=
  { s with holds := Function.update s.holds t (Function.update (s.holds t) m b) }

def setWoken (s : Mutexes cfg T M) (t : T) (m : Option M) : Mutexes cfg T M :=
  { s with woken := Function.update s.woken t m }

def withThreads (s : Mutexes cfg T M) (threads : Threads cfg T M) : Mutexes cfg T M := { s with threads := threads }

/-- The claim on the mutex is counted and a ceiling taken at once. -/
def enter (s : Mutexes cfg T M) (m : M) (t : T) : Threads cfg T M :=
  match (s.mutex m).protocol with
  | .none => s.threads
  | .inherit => s.threads.countMutex t
  | .ceiling => (s.threads.countMutex t).setInheritedPriority t (s.mutex m).ceiling

/-- The claim is given up; with the last one an inherited priority goes. -/
def quit (s : Mutexes cfg T M) (m : M) (t : T) : Threads cfg T M :=
  match (s.mutex m).protocol with
  | .none => s.threads
  | .inherit | .ceiling => (s.threads.uncountMutex t).clearInheritedPriority t

/-- The body of the loop in `lock`, up to its `reschedule`. -/
def wait (s : Mutexes cfg T M) (m : M) (t : T) : Mutexes cfg T M :=
  let threads := s.threads.block t m .wait
  let threads := match (s.mutex m).protocol, (s.mutex m).owner with
    | .inherit, some owner => threads.inheritPriority owner t
    | _, _ => threads
  (s.withThreads threads).setInside t (some m)

def acquire (s : Mutexes cfg T M) (m : M) (t : T) : Mutexes cfg T M :=
  ((s.setMutex m { s.mutex m with locked := true, owner := some t }).setInside t none).setHolds t m true

/-- The test at the head of the loop. -/
def test (s : Mutexes cfg T M) (m : M) (t : T) : Mutexes cfg T M :=
  if (s.mutex m).locked then s.wait m t else s.acquire m t

def lock (s : Mutexes cfg T M) (m : M) (t : T) : Mutexes cfg T M := (s.withThreads (s.enter m t)).test m t

/-- `lock` after its `reschedule` returns. -/
def relock (s : Mutexes cfg T M) (m : M) (t : T) : Mutexes cfg T M :=
  let s := s.setWoken t none
  match (s.threads.thread t).wakeReason with
  | .destruct | .brk => (s.withThreads (s.quit m t)).setInside t none
  | .exit => s.withThreads (s.threads.exit t)
  | .none | .wait | .delay | .timeout | .done => s.test m t

def trylock (s : Mutexes cfg T M) (m : M) (t : T) : Mutexes cfg T M :=
  if (s.mutex m).locked then s else (s.acquire m t).withThreads (s.enter m t)

/-- Wake the first waiter, if there is one. -/
def notify (s : Mutexes cfg T M) (m : M) : Mutexes cfg T M :=
  match s.threads.queue m, (s.mutex m).owner with
  | thread :: _, some owner =>
    let threads := s.threads.dequeue m
    let threads := match (s.mutex m).protocol with
      | .inherit => threads.relayPriority thread owner m
      | .none | .ceiling => threads
    (s.withThreads ((threads.setWakeReason thread .done).wake thread)).setWoken thread (some m)
  | _, _ => s

/-- `unlock`, by the owner. -/
def unlock (s : Mutexes cfg T M) (m : M) (t : T) : Mutexes cfg T M :=
  let s := s.notify m
  let s := s.withThreads (s.quit m t)
  (s.setMutex m { s.mutex m with locked := false, owner := none }).setHolds t m false

def release (s : Mutexes cfg T M) (m : M) : Mutexes cfg T M :=
  s.withThreads (s.threads.releaseAll m (s.threads.queue m).length)

end Mutexes

/-- What can happen: the calls on mutexes, and what threads do to each other or
suffer from outside. -/
inductive MutexEvent (cfg : Config) (T M : Type)
  | lock (t : T) (m : M) | relock (t : T) (m : M) | trylock (t : T) (m : M) | unlock (t : T) (m : M)
  | release (m : M)
  | threadRelease (t : T) | kill (t : T) | exit (t : T)
  | suspend (t : T) | resume (t : T) | forceResume (t : T)
  | delay (t : T) | alarm (t : T)
  | setPriority (t : T) (new : Priority cfg)

namespace Mutexes
variable {cfg : Config} {T M : Type} [DecidableEq T] [DecidableEq M]

/-- A thread acts when it may run; in the loop of `lock` it can only go on with
it. Only the owner may unlock. -/
def Enabled (s : Mutexes cfg T M) : MutexEvent cfg T M → Prop
  | .lock t _ | .trylock t _ | .exit t | .delay t => (s.threads.thread t).Running ∧ s.inside t = none
  | .relock t m => (s.threads.thread t).Running ∧ s.inside t = some m
  | .unlock t m => (s.threads.thread t).Running ∧ s.inside t = none ∧ (s.mutex m).owner = some t
  | .release _ | .threadRelease _ | .kill _ | .suspend _ | .resume _ | .forceResume _ | .alarm _ | .setPriority .. =>
    True

instance (s : Mutexes cfg T M) : ∀ e, Decidable (s.Enabled e)
  | .lock .. | .relock .. | .trylock .. | .exit _ | .delay _ => inferInstanceAs (Decidable (_ ∧ _))
  | .unlock .. => inferInstanceAs (Decidable (_ ∧ _ ∧ _))
  | .release _ | .threadRelease _ | .kill _ | .suspend _ | .resume _ | .forceResume _ | .alarm _ | .setPriority .. =>
    inferInstanceAs (Decidable True)

def step (s : Mutexes cfg T M) : MutexEvent cfg T M → Mutexes cfg T M
  | .lock t m => s.lock m t
  | .relock t m => s.relock m t
  | .trylock t m => s.trylock m t
  | .unlock t m => s.unlock m t
  | .release m => s.release m
  | .threadRelease t => s.withThreads (s.threads.release t)
  | .kill t => s.withThreads (s.threads.kill t)
  | .exit t => s.withThreads (s.threads.exit t)
  | .suspend t => s.withThreads (s.threads.suspend t)
  | .resume t => s.withThreads (s.threads.resume t)
  | .forceResume t => s.withThreads (s.threads.forceResume t)
  | .delay t => s.withThreads ((s.threads.setSleepReason t .delay).sleep t)
  | .alarm t => s.withThreads (s.threads.alarm t)
  | .setPriority t new => { s.withThreads (s.threads.setPriority t new) with base := Function.update s.base t new }

/-- All threads created, and every mutex free with a protocol of its own. -/
def initial (pri : T → Priority cfg) (protocol : M → Protocol) (ceiling : M → Priority cfg) : Mutexes cfg T M where
  threads := ⟨fun t => Thread.create (pri t), fun _ => []⟩
  mutex m := ⟨false, none, protocol m, ceiling m⟩
  inside _ := none
  holds _ _ := false
  woken _ := none
  base := pri

/-- The runs in which every event meets `Ok`. -/
def machine (Ok : Mutexes cfg T M → MutexEvent cfg T M → Prop) : Machine (Mutexes cfg T M) :=
  .guided (fun s => ∃ pri protocol ceiling, s = initial pri protocol ceiling) (fun s e => s.Enabled e ∧ Ok s e) step

end Mutexes

end Ecos
