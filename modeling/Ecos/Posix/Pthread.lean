import Ecos.Lib.Machine
import Ecos.Lib.Tally

namespace Ecos.Posix.Pthread

/-- `CYGNUM_POSIX_PTHREAD_THREADS_MAX`, in its legal range. -/
structure Config where
  threadsMax : Nat
  least : 64 ≤ threadsMax
  most : threadsMax ≤ 1024

/-- `PTHREAD_STATE_FREE` and so on. -/
inductive Phase
  | free | detached | running | join | exited
  deriving DecidableEq, Repr

inductive Errno
  | eagain | enomem | esrch | edeadlk | einval
  deriving DecidableEq, Repr

/-- The fields of `pthread_info` that the life of a thread depends on. Cancellation is deferred;
`cancelstate` is whether it is enabled. -/
structure Info where
  state : Phase
  id : BitVec 32
  retval : Nat
  cancelpending : Bool
  cancelstate : Bool
  deriving DecidableEq, Repr

/-- Who calls: a POSIX thread, known by its `pthread_info`, or another thread of the kernel. -/
inductive Caller
  | pthread (b : Nat)
  | other (n : Nat)
  deriving DecidableEq, Repr

/-- `pthread_self_info`. -/
def Caller.info : Caller → Option Nat
  | .pthread b => some b
  | .other _ => none

/-- The table and the counters of `pthread.cxx`. The `pthread_info`s are numbered in the order of
creation, which no two share: what `info` has for a reaped one is no longer there to be read.
`joining` has the `joinee` of a thread that is in `joiner->wait()`, and `broken` records a read of a
`pthread_info` that has been reaped, or beyond the table. -/
structure State (c : Config) where
  threadTable : Fin c.threadsMax → Option Nat
  info : Nat → Info
  reaped : Nat → Bool
  pthreadCount : Int
  pthreadsExited : Int
  pthreadsTobejoined : Int
  threadInfoNext : Fin c.threadsMax
  threadIdCookie : BitVec 32
  created : Nat
  joining : Caller → Option Nat
  broken : Bool

/-- `value b v` is the success of `pthread_join` on `b`, with its return value; `waits` is no return yet. -/
inductive Result
  | error (e : Errno)
  | ok
  | id (id : BitVec 32)
  | value (b v : Nat)
  | waits
  deriving DecidableEq, Repr

variable {c : Config}

/-- `THREAD_ID_COOKIE_INC`, and the index that `THREAD_ID_COOKIE_MASK` leaves of an id. -/
def cookieInc : BitVec 32 := 0x400
def index (id : BitVec 32) : Nat := (id &&& (cookieInc - 1)).toNat

namespace State
variable (s : State c)

def initial (c : Config) : State c where
  threadTable _ := none
  info _ := ⟨.free, 0, 0, false, true⟩
  reaped _ := false
  pthreadCount := 0
  pthreadsExited := 0
  pthreadsTobejoined := 0
  threadInfoNext := ⟨0, by have := c.least; omega⟩
  threadIdCookie := cookieInc
  created := 0
  joining _ := none
  broken := false

def breaks : State c := { s with broken := true }

def setInfo (b : Nat) (t : Info) : State c := { s with info := Function.update s.info b t }

/-- `pthread_info_id`; the outer `none` is a read beyond the table. -/
def pthreadInfoId (id : BitVec 32) : Option (Option Nat) :=
  if inside : index id < c.threadsMax then
    match s.threadTable ⟨index id, inside⟩ with
    | none => some none
    | some b =>
      let info := s.info b
      if info.state = .free ∨ info.state = .exited then some none else if info.id ≠ id then some none else some (some b)
  else none

/-- One turn of the loop of `pthread_reap`, which ends when `pthreads_exited` is zero. The kernel
thread of an exited thread is let run until it has exited too. -/
def reapAt (i : Fin c.threadsMax) : State c :=
  if s.pthreadsExited ≠ 0 then
    match s.threadTable i with
    | none => s
    | some b =>
      if (s.info b).state = .exited then
        { s with
          threadTable := Function.update s.threadTable i none
          reaped := Function.update s.reaped b true
          pthreadCount := s.pthreadCount - 1
          pthreadsExited := s.pthreadsExited - 1 }
      else s
  else s

def pthreadReap : State c := (List.finRange c.threadsMax).foldl reapAt s

/-- `thread_next++`, and back to the start at the end of the table. -/
def nextSlot (i : Fin c.threadsMax) : Fin c.threadsMax :=
  if more : i.val + 1 < c.threadsMax then ⟨i.val + 1, more⟩ else ⟨0, by have := c.least; omega⟩

/-- The search for a free slot, from the one used last and once around. -/
def freeSlot : Nat → Fin c.threadsMax → Option (Fin c.threadsMax)
  | 0, _ => none
  | turns + 1, i => if s.threadTable i = none then some i else freeSlot turns (nextSlot i)

/-- The id that `pthread_create` gives to a thread in slot `i`. -/
def nextId (i : Fin c.threadsMax) : BitVec 32 := BitVec.ofNat 32 i + (s.threadIdCookie + cookieInc)

/-- The part of `pthread_create` that fills the slot it has found. -/
def enter (i : Fin c.threadsMax) (joinable : Bool) : State c :=
  let b := s.created
  let s := { s with
    threadTable := Function.update s.threadTable i (some b)
    threadInfoNext := i
    info := Function.update s.info b ⟨if joinable then .running else .detached, s.nextId i, 0, false, true⟩
    threadIdCookie := s.threadIdCookie + cookieInc }
  { s with created := b + 1, pthreadCount := s.pthreadCount + 1 }

/-- `pthread_create`; `memory` is whether the stack can be allocated. -/
def pthreadCreate (joinable memory : Bool) : State c × Result :=
  if memory then
    let s := s.pthreadReap
    match s.freeSlot c.threadsMax s.threadInfoNext with
    | none => (s, .error .enomem)
    | some i => (s.enter i joinable, .id (s.nextId i))
  else (s, .error .eagain)

/-- `pthread_exit`, from where it has called the cleanup handlers and key destructors. -/
def pthreadExit (b retval : Nat) : State c × Result :=
  let self := { s.info b with cancelstate := false, retval := retval }
  if self.state = .detached then
    ({ s.setInfo b { self with state := .exited } with pthreadsExited := s.pthreadsExited + 1 }, .ok)
  else ({ s.setInfo b { self with state := .join } with pthreadsTobejoined := s.pthreadsTobejoined + 1 }, .ok)

/-- The end of a `pthread_join` that has found its joinee in state `JOIN`. -/
def joined (b : Nat) : State c × Result :=
  let s' := { s.setInfo b { s.info b with state := .exited } with
    pthreadsExited := s.pthreadsExited + 1, pthreadsTobejoined := s.pthreadsTobejoined - 1 }
  (s'.pthreadReap, .value b (s.info b).retval)

def pthreadJoin (j : Caller) (id : BitVec 32) : State c × Result :=
  let s := s.pthreadReap
  match s.pthreadInfoId id with
  | none => (s.breaks, .error .esrch)
  | some none => (s, .error .esrch)
  | some (some b) =>
    if j.info = some b then (s, .error .edeadlk)
    else
      match (s.info b).state with
      | .running => ({ s with joining := Function.update s.joining j (some b) }, .waits)
      | .join => s.joined b
      | .free | .detached | .exited => (s, .error .einval)

def checkforcancel (j : Caller) : Bool := j.info.any fun b => (s.info b).cancelpending && (s.info b).cancelstate

/-- `pthread_join` goes on when `joiner->wait()` returns, with `false` if the thread was released. -/
def joinWake (j : Caller) (released : Bool) : State c × Result :=
  match s.joining j with
  | none => (s, .ok)
  | some b =>
    let cancelled := released && s.checkforcancel j
    let s := if s.reaped b then s.breaks else s
    if (s.info b).state = .running ∧ cancelled = false then (s, .waits)
    else
      let s := { s with joining := Function.update s.joining j none }
      if (s.info b).state = .join then if cancelled then (s, .error .eagain) else s.joined b
      else (s, .error .einval)

def pthreadDetach (id : BitVec 32) : State c × Result :=
  match s.pthreadInfoId id with
  | none => (s.breaks, .error .esrch)
  | some none => (s.pthreadReap, .error .esrch)
  | some (some b) =>
    if (s.info b).state = .detached then (s.pthreadReap, .error .einval)
    else ((s.setInfo b { s.info b with state := .detached }).pthreadReap, .ok)

/-- `pthread_cancel`; that it releases the thread from its wait is a wake of its own. -/
def pthreadCancel (id : BitVec 32) : State c × Result :=
  match s.pthreadInfoId id with
  | none => (s.breaks, .error .esrch)
  | some none => (s, .error .esrch)
  | some (some b) => (s.setInfo b { s.info b with cancelpending := true }, .ok)

end State

inductive Act
  | pthreadCreate (joinable memory : Bool)
  | pthreadExit (b retval : Nat)
  | pthreadJoin (j : Caller) (id : BitVec 32)
  | joinWake (j : Caller) (released : Bool)
  | pthreadDetach (id : BitVec 32)
  | pthreadCancel (id : BitVec 32)
  | setcancelstate (b : Nat) (enable : Bool)
  deriving DecidableEq, Repr

def State.call (s : State c) : Act → State c × Result
  | .pthreadCreate joinable memory => s.pthreadCreate joinable memory
  | .pthreadExit b retval => s.pthreadExit b retval
  | .pthreadJoin j id => s.pthreadJoin j id
  | .joinWake j released => s.joinWake j released
  | .pthreadDetach id => s.pthreadDetach id
  | .pthreadCancel id => s.pthreadCancel id
  | .setcancelstate b enable => (s.setInfo b { s.info b with cancelstate := enable }, .ok)

/-- The state, and what has happened: the values with which threads have exited, which threads were
detached or joined, and which joiner got which value of which thread. -/
structure Run (c : Config) where
  state : State c
  done : Nat → Option Nat
  released : Nat → Bool
  joins : List (Caller × Nat × Nat)

namespace Run
variable (r : Run c)

def initial (c : Config) : Run c := ⟨.initial c, fun _ => none, fun _ => false, []⟩

/-- What a call that gave `result` and led to `after` adds to the history. -/
def learn (a : Act) (after : State c) (result : Result) : Run c :=
  match a, result with
  | .pthreadCreate joinable _, .id _ =>
    { r with state := after, released := Function.update r.released r.state.created (!joinable) }
  | .pthreadExit b retval, _ => { r with state := after, done := Function.update r.done b (some retval) }
  | .pthreadJoin j _, .value b v | .joinWake j _, .value b v =>
    { r with state := after, released := Function.update r.released b true, joins := (j, b, v) :: r.joins }
  | .pthreadDetach id, .ok =>
    match r.state.pthreadInfoId id with
    | some (some b) => { r with state := after, released := Function.update r.released b true }
    | _ => { r with state := after }
  | _, _ => { r with state := after }

def act (a : Act) : Run c := r.learn a (r.state.call a).1 (r.state.call a).2

/-- A thread that exists, has not exited and is not in `pthread_join`. -/
def Active (r : Run c) : Caller → Prop
  | .pthread b => b < r.state.created ∧ r.done b = none ∧ r.state.joining (.pthread b) = none
  | .other n => r.state.joining (.other n) = none

def Enabled (r : Run c) : Act → Prop
  | .pthreadExit b _ | .setcancelstate b _ => r.Active (.pthread b)
  | .pthreadJoin j _ => r.Active j
  | .joinWake j _ => r.state.joining j ≠ none
  | .pthreadCreate .. | .pthreadDetach _ | .pthreadCancel _ => True

/-- No thread is still in `pthread_join` for one that is about to be reaped. -/
def Unwaited (s : State c) : Prop := ∀ j b, s.joining j = some b → (s.info b).state ≠ .exited

/-- No thread is reaped while another is still in `pthread_join` for it; none is detached after it has
exited; ids have an index in the table; and no id is given a second time. -/
def Gentle (r : Run c) : Act → Prop
  | .pthreadCreate _ memory => memory = true → Unwaited r.state ∧
      ∀ i, r.state.pthreadReap.freeSlot c.threadsMax r.state.pthreadReap.threadInfoNext = some i →
        ∀ b < r.state.created, (r.state.info b).id ≠ r.state.nextId i
  | .pthreadJoin _ id => index id < c.threadsMax ∧ Unwaited r.state ∧
      ∀ b, r.state.pthreadInfoId id = some (some b) → (r.state.info b).state = .join → ∀ j, r.state.joining j ≠ some b
  | .joinWake j released => ∀ b, r.state.joining j = some b → (r.state.info b).state = .join →
      (released && r.state.checkforcancel j) = false →
      Unwaited r.state ∧ ∀ other, other ≠ j → r.state.joining other ≠ some b
  | .pthreadDetach id => index id < c.threadsMax ∧ Unwaited r.state ∧
      ∀ b, r.state.pthreadInfoId id = some (some b) → (r.state.info b).state ≠ .join
  | .pthreadCancel id => index id < c.threadsMax
  | .pthreadExit .. | .setcancelstate .. => True

end Run

end Ecos.Posix.Pthread
