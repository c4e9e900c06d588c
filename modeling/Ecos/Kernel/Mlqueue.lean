import Mathlib.Data.Fintype.Card
import Ecos.Lib.RingStore
import Ecos.Kernel.Threads

namespace Ecos

/-- The circular lists a thread can be linked on: the run queue of a priority
or a wait queue. A thread has one node, so it can be on one list only. -/
inductive ListId (cfg : Config) (Q : Type)
  | run (p : Priority cfg)
  | wait (q : Q)
  deriving DecidableEq

/-- The state of the uniprocessor multi-level queue scheduler and its threads.
`context t` is the argument of the `unlock_inner` call in which `t` lost the
processor, `none` before its first dispatch; `assertsHeld` records whether every
assertion checked so far was true. -/
structure Kernel (cfg : Config) (T Q : Type) where
  thread : T → Thread cfg Q
  lists : Ring.Store (ListId cfg Q) T
  queueMap : BitVec 32
  currentThread : T
  needReschedule : Bool
  schedLock : Nat
  threadSwitches : Nat
  timesliceCount : Nat
  threadTimeslice : T → Nat
  timesliceEnabled : T → Bool
  context : T → Option Nat
  assertsHeld : Bool

namespace Kernel
variable {cfg : Config} {T Q : Type} [DecidableEq T] [DecidableEq Q]

@[simps -fullyApplied]
def cygAssert (k : Kernel cfg T Q) (test : Bool) : Kernel cfg T Q :=
  { k with assertsHeld := k.assertsHeld && test }

@[simps -fullyApplied]
def modify (k : Kernel cfg T Q) (t : T) (f : Thread cfg Q → Thread cfg Q) : Kernel cfg T Q :=
  { k with thread := Function.update k.thread t (f (k.thread t)) }

@[simps -fullyApplied]
def setLists (k : Kernel cfg T Q) (lists : Ring.Store (ListId cfg Q) T) : Kernel cfg T Q :=
  { k with lists := lists }

/-- `queue_map & (1<<pri)`. -/
def mapBit (k : Kernel cfg T Q) (p : Priority cfg) : Bool := k.queueMap.getLsbD p

def runEmpty (k : Kernel cfg T Q) (p : Priority cfg) : Bool := k.lists.isEmpty (.run p)

def mapAgrees (k : Kernel cfg T Q) (p : Priority cfg) : Bool := k.mapBit p == !k.runEmpty p

/-- The two assertions "Idle thread vanished!!!". -/
def idlePresent (k : Kernel cfg T Q) : Bool :=
  k.mapBit cfg.idlePriority && !k.runEmpty cfg.idlePriority

/-- `HAL_LSBIT_INDEX`: the lowest bit set, the most urgent occupied level. -/
def lsbitIndex (map : BitVec 32) : Option (Priority cfg) :=
  (List.finRange _).find? fun p => map.getLsbD p

/-- Choose the best thread to run next. -/
def schedule (k : Kernel cfg T Q) : Kernel cfg T Q × Option T :=
  let k := k.cygAssert (k.queueMap != 0 && k.idlePresent)
  let next := (lsbitIndex k.queueMap).bind fun index => k.lists.head (.run index)
  (k.cygAssert (next.any fun t => (k.thread t).queue.isNone), next)

/-- `set_need_reschedule()`. -/
@[simps -fullyApplied]
def setNeedReschedule (k : Kernel cfg T Q) : Kernel cfg T Q := { k with needReschedule := true }

/-- `set_need_reschedule(thread)`. -/
@[simps -fullyApplied]
def setNeedRescheduleFor (k : Kernel cfg T Q) (t : T) : Kernel cfg T Q :=
  let current := k.thread k.currentThread
  { k with
    needReschedule := if (k.thread t).priority < current.priority ∨ ¬ current.Running then true else k.needReschedule }

@[simps -fullyApplied]
def setTimesliceCount (k : Kernel cfg T Q) (count : Nat) : Kernel cfg T Q :=
  { k with timesliceCount := count }

@[simps -fullyApplied]
def timesliceSave (k : Kernel cfg T Q) (t : T) : Kernel cfg T Q :=
  { k with threadTimeslice := Function.update k.threadTimeslice t k.timesliceCount }

@[simps -fullyApplied]
def timesliceRestore (k : Kernel cfg T Q) (t : T) : Kernel cfg T Q :=
  { k with timesliceCount := k.threadTimeslice t }

@[simps -fullyApplied]
def timesliceReset (k : Kernel cfg T Q) (t : T) : Kernel cfg T Q :=
  { k with threadTimeslice := Function.update k.threadTimeslice t cfg.timesliceTicks }

/-- `Cyg_ThreadQueue_Implementation::remove`. -/
def queueRemove (k : Kernel cfg T Q) (q : Q) (t : T) : Kernel cfg T Q :=
  let k := k.modify t fun r => { r with queue := none }
  k.setLists (k.lists.remove (.wait q) t)

def remove (k : Kernel cfg T Q) (t : T) : Kernel cfg T Q :=
  match (k.thread t).queue with
  | none => k
  | some q => k.queueRemove q t

/-- `add_thread` marks the level of a queue that was empty. -/
@[simps -fullyApplied]
def markLevel (k : Kernel cfg T Q) (pri : Priority cfg) : Kernel cfg T Q :=
  { k with queueMap := if k.runEmpty pri then k.queueMap ||| 1#32 <<< pri.val else k.queueMap }

/-- `rem_thread` clears the level of a queue that has become empty. -/
@[simps -fullyApplied]
def clearLevel (k : Kernel cfg T Q) (pri : Priority cfg) : Kernel cfg T Q :=
  { k with queueMap := if k.runEmpty pri then k.queueMap &&& ~~~(1#32 <<< pri.val) else k.queueMap }

/-- The part of `add_thread` after the thread has left its wait queue. -/
def joinRun (k : Kernel cfg T Q) (pri : Priority cfg) (t : T) : Kernel cfg T Q :=
  let k := k.markLevel pri
  let k := k.setLists (k.lists.addTail (.run pri) t)
  let k := k.setNeedRescheduleFor t
  let k := k.timesliceReset t
  k.cygAssert ((k.thread t).queue.isNone && k.queueMap != 0 && k.mapBit pri && !k.runEmpty pri
    && k.mapAgrees pri && k.idlePresent)

def addThread (k : Kernel cfg T Q) (t : T) : Kernel cfg T Q :=
  let pri := (k.thread t).priority
  let k := k.cygAssert (k.mapAgrees pri)
  let k := k.remove t
  k.joinRun pri t

def remThread (k : Kernel cfg T Q) (t : T) : Kernel cfg T Q :=
  let k := k.cygAssert (k.queueMap != 0)
  let pri := (k.thread t).priority
  let k := k.cygAssert (pri != cfg.idlePriority && !k.runEmpty cfg.idlePriority && k.mapBit pri && !k.runEmpty pri)
  let k := k.setLists (k.lists.remove (.run pri) t)
  let k := k.clearLevel pri
  k.cygAssert (k.queueMap != 0 && k.idlePresent && k.mapAgrees pri)

/-- The backward search of a sorted `enqueue`, at most `fuel` steps: from
`qtmp` back to the first thread that is at least as urgent as `pri`. -/
def searchBack (k : Kernel cfg T Q) (pri : Priority cfg) : Nat → T → T
  | 0, qtmp => qtmp
  | fuel + 1, qtmp =>
    if pri < (k.thread qtmp).priority then k.searchBack pri fuel (k.lists.nodes.prev qtmp) else qtmp

/-- The list part of `Cyg_ThreadQueue_Implementation::enqueue`. -/
def placeNode [Fintype T] (k : Kernel cfg T Q) (q : Q) (t : T) : Ring.Store (ListId cfg Q) T :=
  let pri := (k.thread t).priority
  if cfg.sortedQueues then
    match k.lists.head (.wait q) with
    | none => k.lists.addTail (.wait q) t
    | some qhead =>
      let qtail := k.lists.nodes.prev qhead
      if qhead = k.lists.nodes.next qhead then
        let lists := { k.lists with nodes := k.lists.nodes.insert qhead t }
        if pri < (k.thread qhead).priority then lists.toHead (.wait q) t else lists
      else if pri < (k.thread qhead).priority then
        { k.lists with nodes := k.lists.nodes.insert qhead t }.toHead (.wait q) t
      else if (k.thread qtail).priority < pri then k.lists.addTail (.wait q) t
      else { k.lists with nodes := k.lists.nodes.append (k.searchBack pri (Fintype.card T) qtail) t }
  else k.lists.addTail (.wait q) t

def enqueue [Fintype T] (k : Kernel cfg T Q) (q : Q) (t : T) : Kernel cfg T Q :=
  let k := k.setLists (k.placeNode q t)
  k.modify t fun r => { r with queue := some q }

def dequeue (k : Kernel cfg T Q) (q : Q) : Kernel cfg T Q :=
  match k.lists.head (.wait q) with
  | none => k
  | some t => (k.setLists (k.lists.remHead (.wait q))).modify t fun r => { r with queue := none }

end Kernel

end Ecos
