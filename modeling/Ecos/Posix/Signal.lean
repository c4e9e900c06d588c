import Ecos.Lib.Machine
import Ecos.Posix.SigPool

namespace Ecos.Posix.Signal

/-- `sa_handler`: `SIG_DFL`, `SIG_IGN` or a function. -/
inductive Handler
  | dfl | ign | fn
  deriving DecidableEq, Repr

/-- `struct sigaction`; of `sa_flags` there is only `SA_SIGINFO`. -/
structure Sigaction where
  saHandler : Handler
  siginfo : Bool
  saMask : Sigset
  deriving DecidableEq, Repr

inductive Errno
  | einval | esrch
  deriving DecidableEq, Repr

/-- What the body of the loop of `cyg_deliver_signals` has in its local variables, with the number of
the receipt for what it has taken. -/
structure Frame where
  oldmask : Sigset
  signo : Fin 32
  lsi : Siginfo
  receipt : Nat
  deriving DecidableEq, Repr

/-- Where in `cyg_deliver_signals` a thread is: before the test of the loop, between the unlocking of
the mutex and the call of the handler, or in the handler. -/
inductive Phase
  | test
  | call (f : Frame)
  | handler (f : Frame)
  deriving DecidableEq, Repr

/-- A call of `cyg_deliver_signals` that has not returned, with the mask it was entered with. -/
structure Delivery where
  locked : Bool
  entered : Sigset
  phase : Phase
  deriving DecidableEq, Repr

/-- A signal that was generated, for the process or for one thread; `queued` is whether its value was. -/
structure Generation (T : Type) where
  info : Siginfo
  target : Option T
  queued : Bool
  deriving DecidableEq, Repr

/-- What became of a generation; one that is taken is so under the number of a receipt. -/
inductive Fate
  | pending
  | taken (r : Nat)
  | discarded
  deriving DecidableEq, Repr

structure Receipt (T : Type) where
  thread : T
  info : Siginfo
  deriving DecidableEq, Repr

/-- A call of a handler, or a return of `sigtimedwait`, and the receipt it is for. -/
structure Call (T : Type) where
  thread : T
  info : Siginfo
  receipt : Nat
  deriving DecidableEq, Repr

/-- A return of `cyg_deliver_signals`: the mask at its entry, the mask now, and its last `todo`. -/
structure Return (T : Type) where
  thread : T
  entered : Sigset
  mask : Sigset
  todo : Sigset
  deriving DecidableEq, Repr

/-- The history: `reported` counts the generating calls that returned success, the generations are
numbered, and `tag` has the number of the one each `signal_info` was filled for. -/
structure Ledger (T : Type) (n : Nat) where
  reported : Nat
  generations : List (Generation T)
  fate : Nat → Fate
  receipts : List (Receipt T)
  calls : List (Call T)
  returns : List (Return T)
  tag : Fin n → Nat

/-- The end of the process: `_exit`, or a call of the address `SIG_IGN` or `SIG_DFL`. -/
inductive Halt
  | exit (signo : Fin 32)
  | wild
  deriving DecidableEq, Repr

/-- The state of `signal.cxx`: the owner of `signal_mutex`, `sig_pending`, the `sigpending` and `sigmask`
of each thread, `sigstate` and the `signal_info` objects. -/
structure State (T : Type) (n : Nat) where
  owner : Option T
  sigPending : Sigset
  sigpending : T → Sigset
  sigmask : T → Sigset
  sa : Fin 32 → Sigaction
  pool : Pool n
  stack : T → List Delivery
  halted : Option Halt
  ledger : Ledger T n

variable {T : Type} [DecidableEq T] {n : Nat}

def siUser : Int := 1
def siQueue : Int := 2

namespace Ledger
variable (l : Ledger T n)

def initial : Ledger T n := ⟨0, [], fun _ => .pending, [], [], [], fun _ => 0⟩

def generate (g : Generation T) (x : Option (Fin n)) : Ledger T n :=
  { l with
    generations := l.generations ++ [g]
    tag := match x with
      | some x => Function.update l.tag x l.generations.length
      | none => l.tag }

/-- The generations of `signo` that are merged in its bits in the masks of the process and of `t`. -/
def merged (t : T) (signo : Fin 32) (k : Nat) : Bool :=
  match l.generations[k]? with
  | some g => g.info.siSigno = signo && !g.queued && (g.target = none || g.target = some t)
  | none => false

/-- Taking a signal takes the value in `x` and, if the bits are cleared, all that was merged in them. -/
def take (t : T) (info : Siginfo) (signo : Fin 32) (x : Option (Fin n)) (cleared : Bool) : Ledger T n :=
  { l with
    fate := fun k =>
      if l.fate k = .pending ∧ (x.map l.tag = some k ∨ cleared ∧ l.merged t signo k) then .taken l.receipts.length else l.fate k
    receipts := l.receipts ++ [⟨t, info⟩] }

/-- A change to `SIG_IGN` discards the queued values, and what was merged in the bits. -/
def discard (t : T) (signo : Fin 32) : Ledger T n :=
  { l with
    fate := fun k =>
      if l.fate k = .pending ∧ (l.merged t signo k ∨ ∃ g ∈ l.generations[k]?, g.info.siSigno = signo ∧ g.queued) then .discarded
      else l.fate k }

def call (c : Call T) : Ledger T n := { l with calls := l.calls ++ [c] }
def returned (r : Return T) : Ledger T n := { l with returns := l.returns ++ [r] }
def report : Ledger T n := { l with reported := l.reported + 1 }

end Ledger

namespace State
variable (s : State T n)

/-- `cyg_posix_signal_start`. -/
def initial (T : Type) (n : Nat) : State T n where
  owner := none
  sigPending := 0
  sigpending _ := 0
  sigmask _ := 0
  sa _ := ⟨.dfl, false, 0⟩
  pool := .start n
  stack _ := []
  halted := none
  ledger := .initial

/-- `sig_pending | self->sigpending`, and what of it is not masked. -/
def pending (t : T) : Sigset := s.sigPending ||| s.sigpending t
def todo (t : T) : Sigset := s.pending t &&& ~~~s.sigmask t

/-- `sigaddset` to the mask of the thread, or of the process. -/
def setPending (signo : Fin 32) : Option T → State T n
  | some t => { s with sigpending := Function.update s.sigpending t (sigaddset (s.sigpending t) signo) }
  | none => { s with sigPending := sigaddset s.sigPending signo }

/-- `cyg_sigqueue` of a `SIGEV_SIGNAL` notification, but for the waking of threads. -/
def cygSigqueue (info : Siginfo) (thread : Option T) : Bool × State T n :=
  let signo := info.siSigno
  if (s.sa signo).siginfo then
    match s.pool.enqueue signo info with
    | none => (false, s)
    | some (x, pool) =>
      (true, { s with pool := pool, ledger := s.ledger.generate ⟨info, thread, true⟩ (some x) }.setPending signo thread)
  else
    (true, { s with ledger := s.ledger.generate ⟨info, thread, false⟩ none }.setPending signo thread)

/-- `kill`, up to its call of `cyg_deliver_signals`. The result of `cyg_sigqueue` is not looked at. -/
def kill (pid sig : Int) : Option Errno × State T n :=
  match signalValid sig with
  | none => (some .einval, s)
  | some signo => if pid ≠ 0 then (some .esrch, s) else (none, (s.cygSigqueue ⟨signo, siUser, 0⟩ none).2)

/-- `pthread_kill`; `thread` is what `pthread_info_id` finds. -/
def pthreadKill (thread : Option T) (sig : Int) : Option Errno × State T n :=
  match signalValid sig with
  | none => (some .einval, s)
  | some signo =>
    match thread with
    | none => (some .esrch, s)
    | some t => (none, (s.cygSigqueue ⟨signo, siUser, 0⟩ (some t)).2)

def sigqueue (sig value : Int) : Option Errno × State T n :=
  match signalValid sig with
  | none => (some .einval, s)
  | some signo => (none, (s.cygSigqueue ⟨signo, siQueue, value⟩ none).2)

/-- Clears the bit in both masks, "regardless of which one it actually came from". -/
def clear (t : T) (signo : Fin 32) : State T n :=
  { s with
    sigPending := sigdelset s.sigPending signo
    sigpending := Function.update s.sigpending t (sigdelset (s.sigpending t) signo) }

/-- `sigaction`, up to its call of `cyg_deliver_signals`. -/
def sigaction (t : T) (sig : Int) (act : Sigaction) : Option Errno × State T n :=
  match signalValid sig with
  | none => (some .einval, s)
  | some signo =>
    let s := { s with sa := Function.update s.sa signo act }
    if act.saHandler = .ign then
      if sigismember (s.pending t) signo then
        (none, { s with pool := s.pool.discard signo n, ledger := s.ledger.discard t signo }.clear t signo)
      else (none, s)
    else (none, s)

/-- `pthread_sigmask`, up to its call of `cyg_deliver_signals`. -/
def pthreadSigmask (t : T) (how : How) (set : Sigset) : State T n :=
  { s with sigmask := Function.update s.sigmask t (how.apply (s.sigmask t) set) }

/-- What is taken for `signo`: the first queued object, if there is one and it is wanted, or the
default values. -/
def fetch (signo : Fin 32) (wanted : Bool) : Option (Fin n) × Siginfo × Pool n :=
  if wanted ∧ s.pool.pending signo ≠ none then
    match s.pool.dequeue signo with
    | (some x, pool) => (some x, s.pool.si x, pool)
    | (none, pool) => (none, ⟨signo, siUser, 0⟩, pool)
  else (none, ⟨signo, siUser, 0⟩, s.pool)

/-- Takes `signo` for `t`; its bits are cleared unless the queue is not empty. -/
def take (t : T) (signo : Fin 32) (wanted : Bool) : State T n :=
  let (x, info, pool) := s.fetch signo wanted
  if pool.pending signo = none then
    { s with pool := pool, ledger := s.ledger.take t info signo x true }.clear t signo
  else { s with pool := pool, ledger := s.ledger.take t info signo x false }

/-- The acceptance of a signal by `sigtimedwait`; with none of the set pending, it waits. -/
def sigtimedwait (t : T) (set : Sigset) : State T n :=
  match lsbitIndex (set &&& s.pending t) with
  | none => s
  | some signo =>
    let wanted := (s.sa signo).siginfo
    let info := (s.fetch signo wanted).2.1
    { s.take t signo wanted with
      ledger := (s.take t signo wanted).ledger.call ⟨t, info, s.ledger.receipts.length⟩ }

def setStack (t : T) (stack : List Delivery) : State T n := { s with stack := Function.update s.stack t stack }

/-- The entry of `cyg_deliver_signals`. -/
def deliver (t : T) : State T n :=
  if s.todo t = 0 then { s with ledger := s.ledger.returned ⟨t, s.sigmask t, s.sigmask t, s.todo t⟩ }
  else { s with owner := some t }.setStack t (⟨s.owner = some t, s.sigmask t, .test⟩ :: s.stack t)

/-- The test of the loop, and the body up to the call of the handler or, when there is nothing left to
do, the return. A signal that is ignored leaves everything as it was. -/
def test (t : T) : State T n :=
  match s.stack t with
  | ⟨locked, entered, .test⟩ :: rest =>
    match lsbitIndex (s.todo t) with
    | none =>
      { s with
        owner := if locked then some t else none
        ledger := s.ledger.returned ⟨t, entered, s.sigmask t, s.todo t⟩ }.setStack t rest
    | some signo =>
      let ss := s.sa signo
      if ss.saHandler ≠ .ign then
        let oldmask := s.sigmask t
        let info := (s.fetch signo true).2.1
        { s.take t signo true with
          sigmask := Function.update s.sigmask t (oldmask ||| ss.saMask ||| sigbit signo)
          owner := none }.setStack t (⟨locked, entered, .call ⟨oldmask, signo, info, s.ledger.receipts.length⟩⟩ :: rest)
      else s
  | _ => s

/-- The call of the handler. The action is read again, without the mutex. -/
def call (t : T) : State T n :=
  match s.stack t with
  | ⟨locked, entered, .call f⟩ :: rest =>
    let ss := s.sa f.signo
    if ss.siginfo ∧ ss.saHandler ≠ .fn then { s with halted := some .wild }
    else if ss.saHandler = .dfl then { s with halted := some (.exit f.signo) }
    else if ss.saHandler = .ign then { s with halted := some .wild }
    else { s with ledger := s.ledger.call ⟨t, f.lsi, f.receipt⟩ }.setStack t (⟨locked, entered, .handler f⟩ :: rest)
  | _ => s

/-- The return of the handler: the mutex is locked again and the mask restored. -/
def ret (t : T) : State T n :=
  match s.stack t with
  | ⟨locked, entered, .handler f⟩ :: rest =>
    { s with
      owner := some t
      sigmask := Function.update s.sigmask t f.oldmask }.setStack t (⟨locked, entered, .test⟩ :: rest)
  | _ => s

end State

/-- What a thread may do. Every generating call, `sigaction` and `pthread_sigmask` go on to `deliver`,
which the ASR may start at any time too. -/
inductive Act (T : Type)
  | kill (t : T) (pid sig : Int)
  | sigqueue (t : T) (sig value : Int)
  | pthreadKill (t : T) (thread : Option T) (sig : Int)
  | sigaction (t : T) (sig : Int) (act : Sigaction)
  | pthreadSigmask (t : T) (how : How) (set : Sigset)
  | sigtimedwait (t : T) (set : Sigset)
  | deliver (t : T)
  | test (t : T)
  | call (t : T)
  | ret (t : T)

namespace State
variable (s : State T n)

def report (r : Option Errno × State T n) : State T n :=
  if r.1 = none then { r.2 with ledger := r.2.ledger.report } else r.2

def act : Act T → State T n
  | .kill _ pid sig => report (s.kill pid sig)
  | .sigqueue _ sig value => report (s.sigqueue sig value)
  | .pthreadKill _ thread sig => report (s.pthreadKill thread sig)
  | .sigaction t sig act => (s.sigaction t sig act).2
  | .pthreadSigmask t how set => s.pthreadSigmask t how set
  | .sigtimedwait t set => s.sigtimedwait t set
  | .deliver t => s.deliver t
  | .test t => s.test t
  | .call t => s.call t
  | .ret t => s.ret t

/-- The phase of the innermost call of `cyg_deliver_signals`. -/
def phase (t : T) : Option Phase := (s.stack t).head?.map Delivery.phase

/-- The thread runs its program, or a handler. -/
def Runs (t : T) : Prop := s.phase t = none ∨ ∃ f, s.phase t = some (.handler f)

/-- When the mutex and the place of the thread allow the act. -/
def Enabled : Act T → Prop
  | .kill t _ _ | .sigqueue t _ _ | .pthreadKill t _ _ | .sigaction t _ _ | .sigtimedwait t _ =>
    s.halted = none ∧ s.Runs t ∧ s.owner = none
  | .pthreadSigmask t _ _ => s.halted = none ∧ s.Runs t
  | .deliver t => s.halted = none ∧ (s.todo t = 0 ∨ s.owner = none ∨ s.owner = some t)
  | .test t => s.halted = none ∧ s.owner = some t ∧ s.phase t = some .test
  | .call t => s.halted = none ∧ ∃ f, s.phase t = some (.call f)
  | .ret t => s.halted = none ∧ s.owner = none ∧ ∃ f, s.phase t = some (.handler f)

end State

end Ecos.Posix.Signal
