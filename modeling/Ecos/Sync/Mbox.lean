import Ecos.Sync.Withdraw
import Ecos.Lib.Circular
import Ecos.Lib.Machine

namespace Ecos

inductive MboxQueue
  | get | put
  deriving DecidableEq, Repr

/-- Threads and one `Cyg_Mboxt2` of `size` slots. Its indices stay below twice the
size of the array. `message t` is what the wait info of thread `t` points to: the
item it puts, or the place for the one it gets; `inside t` says on which queue it
went to sleep, and whether with a timeout.

The other fields record the history: `got` the items handed to getters, each with
the thread it was handed to, and `served t` whether thread `t` has had one since it
last went to sleep; `accepted` the puts issued, in order, less those that
have failed; `ticket t` the last put of thread `t` there and `tickets` the number
of puts so far. -/
structure Mbox (cfg : Config) (T Item : Type) where
  threads : Threads cfg T MboxQueue
  base : Nat
  count : Nat
  itemqueue : Nat → Item
  message : T → Item
  inside : T → Option (MboxQueue × Bool)
  got : List (T × Item)
  served : T → Bool
  accepted : List (Nat × Item)
  ticket : T → Nat
  tickets : Nat

namespace Mbox
variable {cfg : Config} {T Item : Type} [DecidableEq T]

def withThreads (s : Mbox cfg T Item) (threads : Threads cfg T MboxQueue) : Mbox cfg T Item :=
  { s with threads := threads }

def setInside (s : Mbox cfg T Item) (t : T) (o : Option (MboxQueue × Bool)) : Mbox cfg T Item :=
  { s with inside := Function.update s.inside t o }

def setMessage (s : Mbox cfg T Item) (t : T) (item : Item) : Mbox cfg T Item :=
  { s with message := Function.update s.message t item }

def setServed (s : Mbox cfg T Item) (t : T) (b : Bool) : Mbox cfg T Item :=
  { s with served := Function.update s.served t b }

/-- An item reaches a getter. -/
def hand (s : Mbox cfg T Item) (t : T) (item : Item) : Mbox cfg T Item :=
  { (s.setMessage t item).setServed t true with got := s.got ++ [(t, item)] }

/-- A put is issued. -/
def issue (s : Mbox cfg T Item) (t : T) (item : Item) : Mbox cfg T Item :=
  { s with
    accepted := s.accepted ++ [(s.tickets, item)]
    ticket := Function.update s.ticket t s.tickets
    tickets := s.tickets + 1 }

/-- A put fails. -/
def refuse (s : Mbox cfg T Item) (t : T) : Mbox cfg T Item :=
  { s with accepted := s.accepted.filter (·.1 ≠ s.ticket t) }

def wakeupWinner (s : Mbox cfg T Item) (item : Item) : Mbox cfg T Item :=
  match s.threads.queue .get with
  | [] => s
  | thread :: _ => (s.withThreads (s.threads.wakeHead .get .done)).hand thread item

/-- The item goes into the first free slot. -/
def store (size : Nat) (s : Mbox cfg T Item) (item : Item) : Mbox cfg T Item :=
  let slot := if size ≤ s.base + s.count then s.base + s.count - size else s.base + s.count
  { s with count := s.count + 1, itemqueue := Function.update s.itemqueue slot item }

def wakeupPutter (size : Nat) (s : Mbox cfg T Item) : Mbox cfg T Item :=
  match s.threads.queue .put with
  | [] => s
  | thread :: _ => (store size s (s.message thread)).withThreads (s.threads.wakeHead .put .done)

/-- The part that `get`, its timed form and `tryget` share: take the first item. -/
def take (size : Nat) (s : Mbox cfg T Item) (t : T) : Mbox cfg T Item :=
  let item := s.itemqueue s.base
  let base := if size ≤ s.base + 1 then 0 else s.base + 1
  wakeupPutter size { s.hand t item with count := s.count - 1, base := base }

def get (size : Nat) (s : Mbox cfg T Item) (t : T) : Mbox cfg T Item :=
  if 0 < s.count then take size s t
  else ((s.setServed t false).withThreads (s.threads.block t .get .wait)).setInside t (some (.get, false))

/-- The timed `get`; `past` says that the timeout has gone by already. -/
def getTimed (size : Nat) (s : Mbox cfg T Item) (t : T) (past : Bool) : Mbox cfg T Item :=
  if 0 < s.count then take size s t
  else
    let s := ((s.setServed t false).withThreads (s.threads.setTimer t past)).setInside t (some (.get, true))
    if (s.threads.thread t).wakeReason = .none then s.withThreads ((s.threads.sleep t).enqueue .get t) else s

def tryget (size : Nat) (s : Mbox cfg T Item) (t : T) : Mbox cfg T Item := if 0 < s.count then take size s t else s

/-- What `peek_item` finds; it changes nothing. -/
def peekItem (s : Mbox cfg T Item) : Option Item := if 0 < s.count then some (s.itemqueue s.base) else none

/-- The part that `put`, its timed form and `tryput` share when the box is not full. -/
def putNow (size : Nat) (s : Mbox cfg T Item) (t : T) (item : Item) : Mbox cfg T Item :=
  let s := s.issue t item
  if s.threads.queue .get ≠ [] then s.wakeupWinner item else store size s item

def put (size : Nat) (s : Mbox cfg T Item) (t : T) (item : Item) : Mbox cfg T Item :=
  if s.count = size then
    (((s.issue t item).setMessage t item).withThreads (s.threads.block t .put .wait)).setInside t
      (some (.put, false))
  else putNow size s t item

/-- The timed `put`. -/
def putTimed (size : Nat) (s : Mbox cfg T Item) (t : T) (item : Item) (past : Bool) : Mbox cfg T Item :=
  if s.count = size then
    let s := (((s.issue t item).setMessage t item).withThreads (s.threads.setTimer t past)).setInside t
      (some (.put, true))
    if (s.threads.thread t).wakeReason = .none then s.withThreads ((s.threads.sleep t).enqueue .put t) else s.refuse t
  else putNow size s t item

def tryput (size : Nat) (s : Mbox cfg T Item) (t : T) (item : Item) : Mbox cfg T Item :=
  if s.count = size then s else putNow size s t item

/-- What a call that went to sleep returns for the reason it was woken. -/
def outcome (timed : Bool) : Reason → Bool
  | .timeout => !timed
  | .destruct | .brk => false
  | .none | .wait | .delay | .exit | .done => true

/-- A call that went to sleep returns. -/
def finish (s : Mbox cfg T Item) (t : T) : Mbox cfg T Item :=
  if (s.threads.thread t).wakeReason = .exit then s.withThreads (s.threads.exit t) else s.setInside t none

/-- A timeout, a `release` and the like; a putter taken off its queue has failed. -/
def suffer (s : Mbox cfg T Item) (e : Outside T) : Mbox cfg T Item :=
  let after := s.withThreads (s.threads.suffer e)
  if (s.threads.thread e.target).queue = some .put ∧ (after.threads.thread e.target).queue = none then
    after.refuse e.target
  else after

end Mbox

/-- What can happen. Nobody is killed or given another priority. -/
inductive MboxEvent (T Item : Type)
  | get (t : T) | getTimed (t : T) (past : Bool) | tryget (t : T) | peekItem (t : T)
  | put (t : T) (item : Item) | putTimed (t : T) (item : Item) (past : Bool) | tryput (t : T) (item : Item)
  | finish (t : T) | exit (t : T) | delay (t : T) | suffer (e : Outside T)

namespace Mbox
variable {cfg : Config} {T Item : Type} [DecidableEq T]

def Enabled (s : Mbox cfg T Item) : MboxEvent T Item → Prop
  | .get t | .getTimed t _ | .tryget t | .peekItem t | .put t _ | .putTimed t .. | .tryput t _ | .exit t | .delay t =>
    (s.threads.thread t).Running ∧ s.inside t = none
  | .finish t => (s.threads.thread t).Running ∧ s.inside t ≠ none
  | .suffer _ => True

instance [DecidableEq Item] (s : Mbox cfg T Item) : ∀ e, Decidable (s.Enabled e)
  | .get _ | .getTimed .. | .tryget _ | .peekItem _ | .put .. | .putTimed .. | .tryput .. | .exit _ | .delay _ =>
    inferInstanceAs (Decidable (_ ∧ _))
  | .finish _ => inferInstanceAs (Decidable (_ ∧ _))
  | .suffer _ => inferInstanceAs (Decidable True)

def step (size : Nat) (s : Mbox cfg T Item) : MboxEvent T Item → Mbox cfg T Item
  | .get t => get size s t
  | .getTimed t past => getTimed size s t past
  | .tryget t => tryget size s t
  | .peekItem _ => s
  | .put t item => put size s t item
  | .putTimed t item past => putTimed size s t item past
  | .tryput t item => tryput size s t item
  | .finish t => s.finish t
  | .exit t => s.withThreads (s.threads.exit t)
  | .delay t => s.withThreads ((s.threads.setSleepReason t .delay).sleep t)
  | .suffer e => s.suffer e

/-- All threads created, and the box empty; the memory holds anything. -/
def initial (pri : T → Priority cfg) (itemqueue : Nat → Item) (message : T → Item) : Mbox cfg T Item where
  threads := ⟨fun t => Thread.create (pri t), fun _ => []⟩
  base := 0
  count := 0
  itemqueue := itemqueue
  message := message
  inside _ := none
  got := []
  served _ := false
  accepted := []
  ticket _ := 0
  tickets := 0

def machine (cfg : Config) (T Item : Type) [DecidableEq T] (size : Nat) : Machine (Mbox cfg T Item) :=
  .guided (fun s => ∃ pri itemqueue message, s = initial pri itemqueue message) Enabled (step size)

end Mbox

end Ecos
