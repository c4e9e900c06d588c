import Ecos.Memalloc.MvarGaps
import Ecos.Sync.FlagSetbits

namespace Ecos

/-- The wait queue of a pool and the local queue of `free`, as of a flag. -/
abbrev Mempolt2Queue := FlagQueue

/-- Threads and one `Cyg_Mempolt2` over the variable block allocator. `size t` and
`addr t` are the wait info of thread `t`; `inside t` says that it is in `alloc`,
and whether in the timed one. `owner` records to whom each allocation was handed. -/
structure Mempolt2 (cfg : Config) (T : Type) where
  threads : Threads cfg T Mempolt2Queue
  heap : Heap
  size : T → Nat
  addr : T → Nat
  inside : T → Option Bool
  owner : Nat → Option T

namespace Mempolt2
variable {cfg : Config} {T : Type} [DecidableEq T]

def withThreads (s : Mempolt2 cfg T) (threads : Threads cfg T Mempolt2Queue) : Mempolt2 cfg T :=
  { s with threads := threads }

def setInside (s : Mempolt2 cfg T) (t : T) (o : Option Bool) : Mempolt2 cfg T :=
  { s with inside := Function.update s.inside t o }

/-- A new wait info. -/
def setInfo (s : Mempolt2 cfg T) (t : T) (size : Nat) : Mempolt2 cfg T :=
  { s with size := Function.update s.size t size, addr := Function.update s.addr t null }

/-- `pool.try_alloc` for a thread. -/
def attempt (s : Mempolt2 cfg T) (t : T) (size : Nat) : Mempolt2 cfg T :=
  { s with
    heap := s.heap.act (.tryAlloc size)
    owner := if s.heap.tried size = null then s.owner else Function.update s.owner (s.heap.tried size) (some t) }

/-- The untimed `alloc` up to its `unlock`. -/
def alloc (s : Mempolt2 cfg T) (t : T) (size : Nat) : Mempolt2 cfg T :=
  let ret := s.heap.tried size
  let s := s.attempt t size
  if ret ≠ null then s
  else ((s.setInfo t size).withThreads (s.threads.block t .queue .wait)).setInside t (some false)

/-- The timed `alloc` up to its `unlock`; `past` says that the timeout has gone by already. -/
def allocTimed (s : Mempolt2 cfg T) (t : T) (size : Nat) (past : Bool) : Mempolt2 cfg T :=
  let ret := s.heap.tried size
  let s := s.attempt t size
  if ret ≠ null then s
  else
    let s := ((s.setInfo t size).withThreads (s.threads.setTimer t past)).setInside t (some true)
    if (s.threads.thread t).wakeReason = .none then s.withThreads ((s.threads.sleep t).enqueue .queue t) else s

/-- Either form of `alloc` after its `unlock`: it returns, with the address of the
wait info unless the thread was woken for another reason. -/
def again (s : Mempolt2 cfg T) (t : T) : Mempolt2 cfg T :=
  match (s.threads.thread t).wakeReason with
  | .exit => s.withThreads (s.threads.exit t)
  | _ => s.setInside t none

def tryAlloc (s : Mempolt2 cfg T) (t : T) (size : Nat) : Mempolt2 cfg T := s.attempt t size

def resizeAlloc (s : Mempolt2 cfg T) (ptr newsize : Nat) : Mempolt2 cfg T :=
  { s with heap := s.heap.act (.resizeAlloc ptr newsize) }

/-- The body of the first loop in `free`, for the thread at the head. -/
def offer (s : Mempolt2 cfg T) (thread : T) : Mempolt2 cfg T :=
  let mem := s.heap.tried (s.size thread)
  let threads := s.threads.dequeue .queue
  let s := s.attempt thread (s.size thread)
  if mem ≠ null then
    { s with
      threads := (threads.setWakeReason thread .done).wake thread
      addr := Function.update s.addr thread mem }
  else s.withThreads (threads.enqueue .holding thread)

/-- The first loop; it ends when the queue is empty, after one round for each thread. -/
def offerAll (s : Mempolt2 cfg T) : Nat → Mempolt2 cfg T
  | 0 => s
  | n + 1 =>
    match s.threads.queue .queue with
    | [] => s
    | thread :: _ => (s.offer thread).offerAll n

def free (s : Mempolt2 cfg T) (ptr size : Nat) : Mempolt2 cfg T :=
  let s := { s with heap := s.heap.act (.free ptr size) }
  let s := s.offerAll (s.threads.queue .queue).length
  s.withThreads (Flag.putBack s.threads (s.threads.queue .holding).length)

/-- An allocation that a thread has been woken with and that its `alloc` has not returned yet. -/
def Pending (s : Mempolt2 cfg T) (t : T) : Prop :=
  s.inside t ≠ none ∧ (s.threads.thread t).queue = none ∧ (s.threads.thread t).wakeReason = .done

end Mempolt2

/-- What can happen. Nobody is killed, and the pool is not destroyed. -/
inductive Mempolt2Event (cfg : Config) (T : Type)
  | alloc (t : T) (size : Nat) | allocTimed (t : T) (size : Nat) (past : Bool) | again (t : T)
  | tryAlloc (t : T) (size : Nat) | resizeAlloc (ptr newsize : Nat) | free (ptr size : Nat)
  /-- The owner of an allocation writes a word of it. -/
  | store (ptr addr value : Nat)
  | exit (t : T) | delay (t : T) | suffer (e : Outside T) | setPriority (t : T) (new : Priority cfg)

namespace Mempolt2
variable {cfg : Config} {T : Type} [DecidableEq T]

/-- What the code and its callers see to: a thread calls while it runs, sizes can be
rounded up, and only what has been returned is freed, resized or written. -/
def Enabled (s : Mempolt2 cfg T) : Mempolt2Event cfg T → Prop
  | .alloc t size | .allocTimed t size _ | .tryAlloc t size =>
    (s.threads.thread t).Running ∧ s.inside t = none ∧ s.heap.Ok (.tryAlloc size)
  | .again t => (s.threads.thread t).Running ∧ s.inside t ≠ none
  | .exit t | .delay t => (s.threads.thread t).Running ∧ s.inside t = none
  | .resizeAlloc ptr newsize => s.heap.Ok (.resizeAlloc ptr newsize) ∧ ∀ t, s.Pending t → s.addr t ≠ ptr
  | .free ptr size => s.heap.Ok (.free ptr size) ∧ ∀ t, s.Pending t → s.addr t ≠ ptr
  | .store ptr addr value => s.heap.Ok (.store ptr addr value)
  | .suffer _ | .setPriority .. => True

def step (s : Mempolt2 cfg T) : Mempolt2Event cfg T → Mempolt2 cfg T
  | .alloc t size => s.alloc t size
  | .allocTimed t size past => s.allocTimed t size past
  | .again t => s.again t
  | .tryAlloc t size => s.tryAlloc t size
  | .resizeAlloc ptr newsize => s.resizeAlloc ptr newsize
  | .free ptr size => s.free ptr size
  | .store ptr addr value => { s with heap := s.heap.act (.store ptr addr value) }
  | .exit t => s.withThreads (s.threads.exit t)
  | .delay t => s.withThreads ((s.threads.setSleepReason t .delay).sleep t)
  | .suffer e => s.withThreads (s.threads.suffer e)
  | .setPriority t new => s.withThreads (s.threads.setPriority t new)

def initial (pri : T → Priority cfg) (pool : MempoolVariable) : Mempolt2 cfg T where
  threads := ⟨fun t => Thread.create (pri t), fun _ => []⟩
  heap := ⟨pool, []⟩
  size _ := 0
  addr _ := null
  inside _ := none
  owner _ := none

/-- A `resize_alloc` whose end pointer does not wrap, and that leaves no free block
which a waiting thread could have. -/
def Kind (s : Mempolt2 cfg T) : Mempolt2Event cfg T → Prop
  | .resizeAlloc ptr newsize =>
    s.heap.NoWrap (.resizeAlloc ptr newsize) ∧
    (MempoolVariable.roundup s.heap.pool.alignment newsize < s.heap.pool.mem.size (MempoolVariable.alloc2memdq ptr) →
      ∀ t ∈ s.threads.queue .queue,
        s.heap.spare ptr newsize < MempoolVariable.roundup s.heap.pool.alignment (s.size t))
  | _ => True

/-- The runs of a pool in an arena, whose events must meet a further condition. -/
def machine (m : Memory) (head base size align : Nat) (Only : Mempolt2 cfg T → Mempolt2Event cfg T → Prop) :
    Machine (Mempolt2 cfg T) :=
  .guided (fun s => ∃ pri, s = initial pri (MempoolVariable.construct m head base size align))
    (fun s e => s.Enabled e ∧ Only s e) step

end Mempolt2

end Ecos
