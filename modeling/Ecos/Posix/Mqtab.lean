import Ecos.Lib.Machine
import Mathlib.Data.List.FinRange

namespace Ecos.Posix.Mqtab

/-- `CYGNUM_POSIX_MQUEUE_OPEN_MAX` and `PATH_MAX`. -/
structure Config where
  openMax : Nat
  pathMax : Nat
  path : 0 < pathMax

/-- A C string, without the zero that ends it. -/
abbrev Name := List { b : UInt8 // b ≠ 0 }

inductive Errno
  | einval | eexist | enoent | enfile | enospc | ebusy | ebadf
  deriving DecidableEq, Repr

def oRdonly : BitVec 32 := 1#32 <<< 0
def oWronly : BitVec 32 := 1#32 <<< 1
def oRdwr : BitVec 32 := oRdonly ||| oWronly
def oCreat : BitVec 32 := 1#32 <<< 3
def oExcl : BitVec 32 := 1#32 <<< 4
def oNonblock : BitVec 32 := 1#32 <<< 9

/-- `(oflag & bits) == bits`. -/
def has (oflag bits : BitVec 32) : Bool := oflag &&& bits == bits

/-- `struct mq_attr`, as far as `mq_open` reads it. -/
structure Attr where
  flags : BitVec 32
  maxmsg : Int
  msgsize : Int
  deriving DecidableEq, Repr

/-- The `default_attr` of `mq_open`. -/
def Attr.default (c : Config) : Attr := ⟨0, c.openMax, 128⟩

variable {c : Config}

/-- A queue user, to which an `mqd_t` points; `magic` is whether it has the valid one. -/
structure User (c : Config) where
  flags : BitVec 32
  tabent : Fin c.openMax
  notifieruser : Bool
  magic : Bool
  deriving DecidableEq, Repr

/-- A table entry. Queues and queue users are numbered in the order in which they are allocated;
`sigev` is the address of the notification event. -/
structure Tabent where
  name : Name
  mq : Option Nat
  maxmsg : Int
  msgsize : Int
  unlinkme : Bool
  users : List Nat
  sigev : Option Nat
  deriving DecidableEq

/-- The table and the objects it points to. Of a `Cyg_Mqueue` only what `setnotify` sets is here: the
user to notify, `callback_data`, if `callback` is `notifyme`. `live` are the queues constructed and
not destroyed, `destroyed` lists the calls of the destructor, and `broken` records a call on a null
pointer or on a queue that is not live. -/
structure State (c : Config) where
  mqtab : Fin c.openMax → Tabent
  user : Nat → Option (User c)
  notified : Nat → Option Nat
  live : Nat → Bool
  nextUser : Nat
  nextQueue : Nat
  destroyed : List Nat
  broken : Bool

inductive Result
  | error (e : Errno)
  | descriptor (u : Nat)
  | ok
  deriving DecidableEq, Repr

/-- What the calls of `malloc` return: whether the queue object, the space for its messages and the
queue user are allocated, and what the memory of the user has in the place of `notifieruser`. -/
structure Memory where
  holder : Bool
  space : Bool
  user : Bool
  garbage : Bool
  deriving DecidableEq, Repr

namespace State
variable (s : State c)

/-- The table as it is before `main`. -/
def initial (c : Config) : State c where
  mqtab _ := ⟨[], none, 0, 0, false, [], none⟩
  user _ := none
  notified _ := none
  live _ := false
  nextUser := 0
  nextQueue := 0
  destroyed := []
  broken := false

def setEntry (i : Fin c.openMax) (e : Tabent) : State c := { s with mqtab := Function.update s.mqtab i e }

def setUser (u : Nat) (user : User c) : State c := { s with user := Function.update s.user u (some user) }

def breaks : State c := { s with broken := true }

/-- The search for a name: `strncmp` over `PATH_MAX` characters. -/
def lookup (name : Name) : Option (Fin c.openMax) :=
  (List.finRange c.openMax).find? fun i => name.take c.pathMax = (s.mqtab i).name.take c.pathMax

/-- The search for an empty table entry. -/
def emptyEntry : Option (Fin c.openMax) := (List.finRange c.openMax).find? fun i => (s.mqtab i).mq = none

/-- `mq->setnotify`, to call `notifyme` with a user, or nothing. -/
def setnotify (mq : Option Nat) (user : Option Nat) : State c :=
  match mq with
  | none => s.breaks
  | some q => if s.live q then { s with notified := Function.update s.notified q user } else s.breaks

/-- `mq->~Cyg_Mqueue()`, and the `free` of the object. -/
def destroy (mq : Option Nat) : State c :=
  match mq with
  | none => s.breaks
  | some q =>
    if s.live q then { s with live := Function.update s.live q false, destroyed := q :: s.destroyed } else s.breaks

def doMqUnlink (i : Fin c.openMax) : State c :=
  (s.destroy (s.mqtab i).mq).setEntry i { s.mqtab i with name := [], mq := none }

/-- The part of `mq_open` that makes a new queue in the empty entry `i`. -/
def create (i : Fin c.openMax) (name : Name) (oflag : BitVec 32) (attr : Attr) (memory : Memory) : State c × Result :=
  if memory.holder then
    let q := s.nextQueue
    let s := { s with nextQueue := q + 1 }
    let s := s.setEntry i { s.mqtab i with mq := some q }
    if memory.space then
      let s := { s with live := Function.update s.live q true, notified := Function.update s.notified q none }
      if memory.user then
        let u := s.nextUser
        let s := { s with nextUser := u + 1 }
        let s := s.setEntry i ⟨name.take c.pathMax, some q, attr.maxmsg, attr.msgsize, false, [u], none⟩
        (s.setUser u ⟨oflag ||| (attr.flags &&& oNonblock), i, false, true⟩, .descriptor u)
      else ((s.destroy (some q)).setEntry i { s.mqtab i with users := [] }, .error .enospc)
    -- `NOMEM`: the object is freed, but the entry still points to it
    else (s, .error .enospc)
  else (s, .error .enospc)

/-- The part of `mq_open` that opens the queue of an entry that was found. -/
def reopen (i : Fin c.openMax) (oflag : BitVec 32) (memory : Memory) : State c × Result :=
  if (s.mqtab i).unlinkme then (s, .error .einval)
  else if memory.user then
    let u := s.nextUser
    let s := { s with nextUser := u + 1 }
    let s := s.setEntry i { s.mqtab i with users := u :: (s.mqtab i).users }
    (s.setUser u ⟨oflag, i, memory.garbage, true⟩, .descriptor u)
  else (s, .error .enospc)

def mqOpen (name : Name) (oflag : BitVec 32) (attr : Option Attr) (memory : Memory) : State c × Result :=
  if !has oflag oRdonly && !has oflag oWronly && !has oflag oRdwr then (s, .error .einval)
  else
    match s.lookup name with
    | some i => if has oflag oExcl then (s, .error .eexist) else s.reopen i oflag memory
    | none =>
      if has oflag oCreat then
        match s.emptyEntry with
        | none => (s, .error .enfile)
        | some i =>
          match attr with
          | none => s.create i name oflag (.default c) memory
          | some attr =>
            if attr.maxmsg ≤ 0 ∨ attr.msgsize ≤ 0 then (s, .error .einval) else s.create i name oflag attr memory
      else (s, .error .enoent)

/-- `mq_close`; the search for the user asserts that it is there. -/
def mqClose (u : Nat) : State c × Result :=
  match s.user u with
  | none => (s.breaks, .ok)
  | some user =>
    if user.magic then
      let i := user.tabent
      let s :=
        if user.notifieruser then
          let s := s.setnotify (s.mqtab i).mq none
          s.setEntry i { s.mqtab i with sigev := none }
        else s
      let s := s.setEntry i { s.mqtab i with users := (s.mqtab i).users.erase u }
      let s := s.setUser u { user with magic := false }
      if (s.mqtab i).unlinkme ∧ (s.mqtab i).users = [] then (s.doMqUnlink i, .ok) else (s, .ok)
    else (s, .error .ebadf)

def mqUnlink (name : Name) : State c × Result :=
  match s.lookup name with
  | none => (s, .error .enoent)
  | some i =>
    if (s.mqtab i).users ≠ [] then (s.setEntry i { s.mqtab i with unlinkme := true }, .ok) else (s.doMqUnlink i, .ok)

def mqNotify (u : Nat) (notification : Option Nat) : State c × Result :=
  match s.user u with
  | none => (s.breaks, .ok)
  | some user =>
    if user.magic then
      let i := user.tabent
      match notification with
      | none => ((s.setnotify (s.mqtab i).mq none).setEntry i { s.mqtab i with sigev := none }, .ok)
      | some ev =>
        if (s.mqtab i).sigev ≠ none then (s, .error .ebusy)
        else
          let s := s.setEntry i { s.mqtab i with sigev := some ev }
          let s := s.setUser u { user with notifieruser := true }
          (s.setnotify (s.mqtab i).mq (some u), .ok)
    else (s, .error .ebadf)

/-- `notifyme`, called by the queue `q` with the user it was told. -/
def notifyme (q u : Nat) : State c :=
  match s.user u with
  | none => s.breaks
  | some user =>
    let i := user.tabent
    if (s.mqtab i).sigev = none then s
    else
      let s := s.setnotify (some q) none
      let s := s.setEntry i { s.mqtab i with sigev := none }
      s.setUser u { user with notifieruser := false }

end State

/-- The calls of the program, and the arrival of a message at an empty queue. -/
inductive Act
  | mqOpen (name : Name) (oflag : BitVec 32) (attr : Option Attr) (memory : Memory)
  | mqClose (u : Nat)
  | mqUnlink (name : Name)
  | mqNotify (u : Nat) (notification : Option Nat)
  | message (q : Nat)

def State.call (s : State c) : Act → State c × Result
  | .mqOpen name oflag attr memory => s.mqOpen name oflag attr memory
  | .mqClose u => s.mqClose u
  | .mqUnlink name => s.mqUnlink name
  | .mqNotify u notification => s.mqNotify u notification
  | .message q =>
    match s.notified q with
    | none => (s, .ok)
    | some u => (s.notifyme q u, .ok)

/-- The state and what the program knows of it: the descriptors it has open, with the entry and the
queue they were opened on, and the queues it has unlinked. -/
structure Run (c : Config) where
  state : State c
  opened : Nat → Option (Fin c.openMax × Option Nat)
  unlinked : Nat → Bool

namespace Run
variable (r : Run c)

def initial (c : Config) : Run c := ⟨.initial c, fun _ => none, fun _ => false⟩

/-- What the program learns from a call that gave `result` and led to `after`. -/
def learn (a : Act) (after : State c) : Result → Run c
  | .error _ => { r with state := after }
  | .descriptor u =>
    let on := (after.user u).map fun user => (user.tabent, (after.mqtab user.tabent).mq)
    { r with state := after, opened := Function.update r.opened u on }
  | .ok =>
    match a with
    | .mqClose u => { r with state := after, opened := Function.update r.opened u none }
    | .mqUnlink name =>
      match (r.state.lookup name).bind fun i => (r.state.mqtab i).mq with
      | none => { r with state := after }
      | some q => { r with state := after, unlinked := Function.update r.unlinked q true }
    | _ => { r with state := after }

def act (a : Act) : Run c := r.learn a (r.state.call a).1 (r.state.call a).2

/-- Descriptors are closed, and notifications asked for, through descriptors that are open. -/
def Enabled (r : Run c) : Act → Prop
  | .mqClose u | .mqNotify u _ => r.opened u ≠ none
  | .mqOpen .. | .mqUnlink _ => True
  | .message q => r.state.live q = true

/-- A call of `mq_open` comes to the creation of a queue. -/
def Creates (r : Run c) (name : Name) (oflag : BitVec 32) : Prop :=
  r.state.lookup name = none ∧ has oflag oCreat = true ∧ r.state.emptyEntry ≠ none

/-- No allocation fails after that of the queue object; the memory for a further descriptor does not
happen to say `notifieruser`; no entry that is not in use is opened or unlinked by the empty name;
and no notification is cleared by a null one. -/
def Gentle (r : Run c) : Act → Prop
  | .mqOpen name oflag _ memory =>
    (r.Creates name oflag → memory.holder = true → memory.space = true ∧ memory.user = true) ∧
      ∀ i, r.state.lookup name = some i → has oflag oExcl = false → (r.state.mqtab i).unlinkme = false →
        memory.user = true → name ≠ [] ∧ memory.garbage = false
  | .mqUnlink name => name = [] → r.state.lookup name = none
  | .mqNotify u none => ∀ user, r.state.user u = some user → (r.state.mqtab user.tabent).sigev = none
  | .mqNotify _ (some _) | .mqClose _ | .message _ => True

end Run

end Ecos.Posix.Mqtab
