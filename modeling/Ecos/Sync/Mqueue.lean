import Ecos.Lib.Machine
import Mathlib.Data.List.Range

namespace Ecos

/-- `struct qentry`, with the bytes that follow it. -/
structure Qentry (B : Type) where
  priority : Nat
  busy : Bool
  buflen : Nat
  buf : Nat → B

/-- What a `put` is given and a `get` returns. -/
structure Message (B : Type) where
  data : List B
  prio : Nat
  deriving DecidableEq

/-- `memcpy` into the entry, which also gets the length. -/
def Qentry.fill {B : Type} (x : Qentry B) (data : List B) : Qentry B :=
  { x with buflen := data.length, buf := fun i => data[i]?.getD (x.buf i) }

/-- What `get` copies out: length, bytes and priority. -/
def Qentry.message {B : Type} (x : Qentry B) : Message B := ⟨(List.range x.buflen).map x.buf, x.priority⟩

/-- How far a call has come. Between two phases other threads may run. -/
inductive MqPhase (B : Type)
  | idle
  | putFree (m : Message B) | putCopy (e : Nat) (m : Message B) | putClear (e : Nat) | putPost
  | getFull | getCopy (e : Nat) | getClear (e : Nat) | getPost
  deriving DecidableEq

/-- A `Cyg_Mqueue` and the threads that use it; entries are known by their index in
`queuespace`, and the two lists by what they link. `fault` is set when a search runs
off the end of its list.

The other fields record the history: `sent` the messages put into the queue,
`stamp e` which of them entry `e` has, and `received` what was copied out, each with
the number of the message the entry had. -/
structure Mqueue (T B : Type) where
  entry : Nat → Qentry B
  q : List Nat
  freelist : List Nat
  putsem : Nat
  getsem : Nat
  phase : T → MqPhase B
  fault : Bool
  sent : List (Message B)
  stamp : Nat → Nat
  received : List (Nat × Message B)

/-- The first entry of a list that is not busy, and the list without it. The search
does not look for the end of the list. -/
def unlinkIdle (busy : Nat → Bool) : List Nat → Option (Nat × List Nat)
  | [] => none
  | e :: l => if busy e then (unlinkIdle busy l).map fun (x, rest) => (x, e :: rest) else some (e, l)

/-- In front of the first entry of lower priority. -/
def insertByPrio (priority : Nat → Nat) (e prio : Nat) : List Nat → List Nat
  | [] => [e]
  | x :: l => if priority x < prio then e :: x :: l else x :: insertByPrio priority e prio l

namespace Mqueue
variable {T B : Type} [DecidableEq T]

def busy (s : Mqueue T B) (e : Nat) : Bool := (s.entry e).busy

def priority (s : Mqueue T B) (e : Nat) : Nat := (s.entry e).priority

def setPhase (s : Mqueue T B) (t : T) (p : MqPhase B) : Mqueue T B := { s with phase := Function.update s.phase t p }

def modify (s : Mqueue T B) (e : Nat) (f : Qentry B → Qentry B) : Mqueue T B :=
  { s with entry := Function.update s.entry e (f (s.entry e)) }

/-- The steps of `put` once it has `putsem`. -/
def insert (s : Mqueue T B) (t : T) (m : Message B) : Mqueue T B :=
  match unlinkIdle s.busy s.freelist with
  | none => { s with fault := true }
  | some (qent, freelist) =>
    let q := insertByPrio s.priority qent m.prio s.q
    { (s.modify qent fun x => { x with priority := m.prio, busy := true }).setPhase t (.putCopy qent m) with
      q := q
      freelist := freelist
      sent := s.sent ++ [m]
      stamp := Function.update s.stamp qent s.sent.length }

/-- The steps of `get` once it has `getsem`. -/
def unlink (s : Mqueue T B) (t : T) : Mqueue T B :=
  match unlinkIdle s.busy s.q with
  | none => { s with fault := true }
  | some (qent, q) =>
    { (s.modify qent fun x => { x with busy := true }).setPhase t (.getCopy qent) with
      q := q
      freelist := qent :: s.freelist }

/-- A call goes on by one step: `insert` or `unlink` under the scheduler lock, then
the copy, then `busy` is cleared, then the semaphore posted. -/
def advance (s : Mqueue T B) (t : T) : Mqueue T B :=
  match s.phase t with
  | .idle => s
  | .putFree m => s.insert t m
  | .putCopy e m => (s.modify e (·.fill m.data)).setPhase t (.putClear e)
  | .putClear e => (s.modify e fun x => { x with busy := false }).setPhase t .putPost
  | .putPost => { s.setPhase t .idle with getsem := s.getsem + 1 }
  | .getFull => s.unlink t
  | .getCopy e => { s.setPhase t (.getClear e) with received := s.received ++ [(s.stamp e, (s.entry e).message)] }
  | .getClear e => (s.modify e fun x => { x with busy := false }).setPhase t .getPost
  | .getPost => { s.setPhase t .idle with putsem := s.putsem + 1 }

end Mqueue

/-- What can happen. A call that does not get its semaphore, because it would block,
has timed out or was released, ends there and leaves no trace. -/
inductive MqueueEvent (T B : Type)
  | put (t : T) (m : Message B) | get (t : T) | advance (t : T)

namespace Mqueue
variable {T B : Type} [DecidableEq T]

def Enabled (s : Mqueue T B) : MqueueEvent T B → Prop
  | .put t _ => s.phase t = .idle ∧ 0 < s.putsem
  | .get t => s.phase t = .idle ∧ 0 < s.getsem
  | .advance _ => True

instance [DecidableEq B] (s : Mqueue T B) : ∀ e, Decidable (s.Enabled e)
  | .put _ _ | .get _ => inferInstanceAs (Decidable (_ ∧ _))
  | .advance _ => inferInstanceAs (Decidable True)

def step (s : Mqueue T B) : MqueueEvent T B → Mqueue T B
  | .put t m => { s.setPhase t (.putFree m) with putsem := s.putsem - 1 }
  | .get t => { s.setPhase t .getFull with getsem := s.getsem - 1 }
  | .advance t => s.advance t

/-- The constructor: all entries free, over memory that holds anything. -/
def initial (maxmsgs : Nat) (entry : Nat → Qentry B) : Mqueue T B where
  entry e := { entry e with busy := false }
  q := []
  freelist := List.range maxmsgs
  putsem := maxmsgs
  getsem := 0
  phase _ := .idle
  fault := false
  sent := []
  stamp _ := 0
  received := []

def machine (T B : Type) [DecidableEq T] (maxmsgs : Nat) : Machine (Mqueue T B) :=
  .guided (fun s => ∃ entry, s = initial maxmsgs entry) Enabled step

end Mqueue

end Ecos
