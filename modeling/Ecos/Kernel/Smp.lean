import Ecos.Lib.Machine
import Ecos.Kernel.Dispatch

namespace Ecos

/-- The multi-level queue scheduler with `n` processors. A thread has its `cpu` while it is
the current thread of that processor; `pending` counts the threads of each run queue that
are not. The scheduler lock serialises all calls, so each is one step.

`idleThread` records the thread that `set_idle_thread` was given for each processor, and
`stuck` whether a search has gone round a run queue in vain. -/
structure Smp (cfg : Config) (n : Nat) (T Q : Type) where
  thread : T → Thread cfg Q
  cpu : T → Option (Fin n)
  runQueue : Priority cfg → List T
  queueMap : BitVec 32
  pending : Priority cfg → Nat
  pendingMap : BitVec 32
  currentThread : Fin n → Option T
  needReschedule : Fin n → Bool
  idleThread : Fin n → Option T
  stuck : Bool

namespace Smp
variable {cfg : Config} {n : Nat} {T Q : Type} [DecidableEq T]

def modify (s : Smp cfg n T Q) (t : T) (f : Thread cfg Q → Thread cfg Q) : Smp cfg n T Q :=
  { s with thread := Function.update s.thread t (f (s.thread t)) }

def priority (s : Smp cfg n T Q) (t : T) : Priority cfg := (s.thread t).priority

def setCpu (s : Smp cfg n T Q) (t : T) (c : Option (Fin n)) : Smp cfg n T Q :=
  { s with cpu := Function.update s.cpu t c }

def setQueue (s : Smp cfg n T Q) (p : Priority cfg) (l : List T) : Smp cfg n T Q :=
  { s with runQueue := Function.update s.runQueue p l }

/-- `pending[p]++`, and the bit of the map. -/
def addPending (s : Smp cfg n T Q) (p : Priority cfg) : Smp cfg n T Q :=
  { s with
    pending := Function.update s.pending p (s.pending p + 1)
    pendingMap := s.pendingMap ||| (1#32 <<< p.val) }

/-- `if( --pending[p] == 0 )` clear the bit of the map. -/
def remPending (s : Smp cfg n T Q) (p : Priority cfg) : Smp cfg n T Q :=
  { s with
    pending := Function.update s.pending p (s.pending p - 1)
    pendingMap := if s.pending p - 1 = 0 then s.pendingMap &&& ~~~(1#32 <<< p.val) else s.pendingMap }

/-- `set_need_reschedule()`. -/
def askReschedule (s : Smp cfg n T Q) (this : Fin n) : Smp cfg n T Q :=
  { s with needReschedule := Function.update s.needReschedule this true }

/-- The processors in the order in which `set_need_reschedule` asks them. -/
def cpusFrom (this : Fin n) : List (Fin n) :=
  (List.finRange n).map fun i => ⟨(i.val + this.val) % n, Nat.mod_lt _ this.pos⟩

/-- `set_need_reschedule(thread)`: the thread displaced from a processor is offered to the next. -/
def setNeedReschedule (s : Smp cfg n T Q) (this : Fin n) (t : T) : Smp cfg n T Q :=
  let offered := (cpusFrom this).foldl
    (fun (acc : (Fin n → Bool) × T) c =>
      match s.currentThread c with
      | some cur =>
        if !acc.1 c && decide (s.priority acc.2 < s.priority cur) then (Function.update acc.1 c true, cur) else acc
      | none => acc)
    (s.needReschedule, t)
  { s with needReschedule := offered.1 }

/-- `add_thread`, of a thread on no queue. -/
def addThread (s : Smp cfg n T Q) (this : Fin n) (t : T) : Smp cfg n T Q :=
  let pri := s.priority t
  let s := if (s.runQueue pri).isEmpty then { s with queueMap := s.queueMap ||| (1#32 <<< pri.val) } else s
  let s := (s.setQueue pri (s.runQueue pri ++ [t])).setNeedReschedule this t
  if (s.cpu t).isNone then
    -- `if( pending[pri]++ == 0 )` sets a bit that is set already otherwise
    if s.pending pri = 0 then s.addPending pri
    else { s with pending := Function.update s.pending pri (s.pending pri + 1) }
  else s

def remThread (s : Smp cfg n T Q) (t : T) : Smp cfg n T Q :=
  let pri := s.priority t
  let s := if (s.cpu t).isNone then s.remPending pri else s
  let s := s.setQueue pri ((s.runQueue pri).erase t)
  if (s.runQueue pri).isEmpty then { s with queueMap := s.queueMap &&& ~~~(1#32 <<< pri.val) } else s

/-- `schedule`, first part: the current thread of `c` goes back. -/
def release (s : Smp cfg n T Q) (current : T) : Smp cfg n T Q :=
  if (s.thread current).Running then (s.setCpu current none).addPending (s.priority current)
  else s.setCpu current none

/-- `schedule`, second part: the first thread of the best queue that has no processor. -/
def choose (s : Smp cfg n T Q) : Option (Priority cfg × T) :=
  (Kernel.lsbitIndex s.pendingMap).bind fun index =>
    ((s.runQueue index).find? fun t => (s.cpu t).isNone).map fun t => (index, t)

/-- `schedule` on processor `c`, and the switch to the thread it returns. -/
def schedule (s : Smp cfg n T Q) (c : Fin n) (current : T) : Smp cfg n T Q :=
  let s := s.release current
  match s.choose with
  | some (index, t) =>
    { (s.setCpu t (some c)).remPending index with
      currentThread := Function.update s.currentThread c (some t)
      needReschedule := Function.update s.needReschedule c false }
  | none => { s with stuck := true }

/-- The first steps of `set_idle_thread`: the thread is current, and resumes. -/
def appoint (s : Smp cfg n T Q) (t : T) (c : Fin n) : Smp cfg n T Q :=
  { s.modify t fun r => { r with state := .running } with
    currentThread := Function.update s.currentThread c (some t)
    idleThread := Function.update s.idleThread c (some t) }

/-- `set_idle_thread`; the thread is added as one that has no processor. -/
def setIdleThread (s : Smp cfg n T Q) (t : T) (c : Fin n) : Smp cfg n T Q :=
  let s := (s.appoint t c).addThread c t
  (s.setCpu t (some c)).remPending (s.priority t)

/-- `Cyg_Thread::set_priority`, before it asks for a reschedule. -/
def reprioritize (s : Smp cfg n T Q) (this : Fin n) (t : T) (new : Priority cfg) : Smp cfg n T Q :=
  if (s.thread t).Running then ((s.remThread t).modify t (·.withPriority new)).addThread this t
  else s.modify t (·.withPriority new)

def setPriority (s : Smp cfg n T Q) (this : Fin n) (t : T) (new : Priority cfg) : Smp cfg n T Q :=
  let s := s.reprioritize this t new
  if s.currentThread this = some t then s.askReschedule this else s.setNeedReschedule this t

/-- The circular list from the thread after `t` on. -/
def behind (l : List T) (t : T) : List T := l.drop (l.idxOf t + 1) ++ l.take (l.idxOf t + 1)

/-- `queue->to_head( thread->get_next() )`, in `yield` and `timeslice_cpu`. -/
def headBehind (s : Smp cfg n T Q) (this : Fin n) (t : T) : Smp cfg n T Q :=
  if (s.thread t).Running then
    let s := s.setQueue (s.priority t) (behind (s.runQueue (s.priority t)) t)
    if (s.runQueue (s.priority t)).head? = some t then s else s.askReschedule this
  else s

def rotateQueue (s : Smp cfg n T Q) (this : Fin n) (p : Priority cfg) : Smp cfg n T Q :=
  if (s.runQueue p).isEmpty then s else (s.setQueue p ((s.runQueue p).rotate 1)).askReschedule this

end Smp

/-- The calls of the scheduler, each with the processor that makes it where that matters. -/
inductive SmpEvent (cfg : Config) (n : Nat) (T : Type)
  | setIdleThread (t : T) (c : Fin n)
  | wake (this : Fin n) (t : T)
  | stop (t : T) (state : ThreadState)
  | setPriority (this : Fin n) (t : T) (new : Priority cfg)
  | headBehind (this : Fin n) (t : T)
  | rotateQueue (this : Fin n) (p : Priority cfg)
  | schedule (c : Fin n)

namespace Smp
variable {cfg : Config} {n : Nat} {T Q : Type} [DecidableEq T]

/-- When the kernel makes these calls: a processor gets its idle thread once, a thread is
added when it becomes runnable and removed when it no longer is, an idle thread never. -/
def Enabled (s : Smp cfg n T Q) : SmpEvent cfg n T → Prop
  | .setIdleThread t c => s.currentThread c = none ∧ ¬ (s.thread t).Running ∧ s.cpu t = none
  | .wake _ t => ¬ (s.thread t).Running
  | .stop t state => (s.thread t).Running ∧ state ≠ .running ∧ ∀ c, s.idleThread c ≠ some t
  | .schedule c => s.currentThread c ≠ none
  | .setPriority _ _ _ | .headBehind _ _ | .rotateQueue _ _ => True

instance (s : Smp cfg n T Q) : ∀ e, Decidable (s.Enabled e)
  | .setIdleThread _ _ | .stop _ _ => inferInstanceAs (Decidable (_ ∧ _ ∧ _))
  | .wake _ _ => inferInstanceAs (Decidable (¬ _))
  | .schedule _ => inferInstanceAs (Decidable (_ ≠ _))
  | .setPriority _ _ _ | .headBehind _ _ | .rotateQueue _ _ => inferInstanceAs (Decidable True)

def step (s : Smp cfg n T Q) : SmpEvent cfg n T → Smp cfg n T Q
  | .setIdleThread t c => s.setIdleThread t c
  | .wake this t => (s.modify t fun r => { r with state := .running }).addThread this t
  | .stop t state => (s.remThread t).modify t fun r => { r with state := state }
  | .setPriority this t new => s.setPriority this t new
  | .headBehind this t => s.headBehind this t
  | .rotateQueue this p => s.rotateQueue this p
  | .schedule c =>
    match s.currentThread c with
    | some current => s.schedule c current
    | none => s

/-- Nothing runs yet. -/
def initial (pri : T → Priority cfg) : Smp cfg n T Q where
  thread t := .create (pri t)
  cpu _ := none
  runQueue _ := []
  queueMap := 0
  pending _ := 0
  pendingMap := 0
  currentThread _ := none
  needReschedule _ := true
  idleThread _ := none
  stuck := false

def machine (cfg : Config) (n : Nat) (T Q : Type) [DecidableEq T] : Machine (Smp cfg n T Q) :=
  .guided (fun s => ∃ pri, s = initial pri) Enabled step

end Smp

open Function Option Kernel Bool List

section Waiting
variable {T C : Type} [DecidableEq T] {cpu : T → Option C} {t : T} {l l' : List T}

/-- How many threads of a queue have no processor. -/
def waiting (cpu : T → Option C) (l : List T) : Nat := l.countP fun t => (cpu t).isNone

theorem waiting_perm (perm : l.Perm l') : waiting cpu l = waiting cpu l' := perm.countP_eq _

theorem waiting_cons : waiting cpu (t :: l) = waiting cpu l + (cpu t).isNone.toNat := by
  simp only [waiting, countP_cons]
  cases (cpu t).isNone <;> rfl

theorem waiting_erase (mem : t ∈ l) : waiting cpu l = waiting cpu (l.erase t) + (cpu t).isNone.toNat := by
  rw [← waiting_cons]
  exact waiting_perm (perm_cons_erase mem)

theorem waiting_update_of_notMem {c : Option C} (absent : t ∉ l) : waiting (update cpu t c) l = waiting cpu l := by
  refine countP_congr fun u mem => ?_
  rw [update_of_ne fun same : u = t => absent (same ▸ mem)]

theorem waiting_update {c : Option C} (nodup : l.Nodup) (mem : t ∈ l) :
    waiting (update cpu t c) l + (cpu t).isNone.toNat = waiting cpu l + c.isNone.toNat := by
  have absent := nodup.not_mem_erase (a := t)
  have before := @waiting_erase _ _ _ cpu _ _ mem
  have after := @waiting_erase _ _ _ (update cpu t c) _ _ mem
  rw [waiting_update_of_notMem absent, update_self] at after
  omega

end Waiting

namespace Smp
variable {cfg : Config} {n : Nat} {T Q : Type} [DecidableEq T]

/-- The run queues hold the runnable threads but `gone`, each on the queue of its priority,
once; the pending counts are those of their threads without a processor, and the map
shows which are not zero. -/
structure CountedBut (gone : T → Prop) (s : Smp cfg n T Q) : Prop where
  queued : ∀ p t, t ∈ s.runQueue p ↔ ¬ gone t ∧ (s.thread t).Running ∧ s.priority t = p
  nodup : ∀ p, (s.runQueue p).Nodup
  pending : ∀ p, s.pending p = waiting s.cpu (s.runQueue p)
  map : ∀ p : Priority cfg, s.pendingMap.getLsbD p = true ↔ 0 < s.pending p

def Counted (s : Smp cfg n T Q) : Prop := s.CountedBut fun _ => False

variable {s s' : Smp cfg n T Q} {t : T} {p : Priority cfg} {gone : T → Prop}

section
variable (map : ∀ p : Priority cfg, s.pendingMap.getLsbD p = true ↔ 0 < s.pending p)
include map

theorem map_addPending (r : Priority cfg) :
    (s.addPending p).pendingMap.getLsbD r = true ↔ 0 < (s.addPending p).pending r := by
  simp only [addPending, getLsbD_setBit, or_eq_true, decide_eq_true_eq, map r]
  by_cases same : r = p
  · subst same
    simp
  · simp [same]

theorem map_remPending (r : Priority cfg) :
    (s.remPending p).pendingMap.getLsbD r = true ↔ 0 < (s.remPending p).pending r := by
  simp only [remPending]
  by_cases same : r = p
  · subst same
    rw [update_self]
    split
    · next zero =>
      rw [getLsbD_clearBit, zero]
      simp
    · next more =>
      rw [map r]
      omega
  · rw [update_of_ne same]
    split
    · rw [getLsbD_clearBit, and_eq_true, map r]
      simp [same]
    · exact map r

end

theorem CountedBut.congr (counted : CountedBut gone s) (thread : s'.thread = s.thread) (cpu : s'.cpu = s.cpu)
    (runQueue : s'.runQueue = s.runQueue) (pending : s'.pending = s.pending) (pendingMap : s'.pendingMap =
      s.pendingMap) :
    CountedBut gone s' := by
  obtain ⟨queued, nodup, count, map⟩ := counted
  refine ⟨?_, ?_, ?_, ?_⟩
  · simp only [runQueue, thread, priority]
    exact queued
  · rwa [runQueue]
  · rwa [pending, cpu, runQueue]
  · rwa [pending, pendingMap]

theorem counted_iff_of_not_running (stopped : ¬ (s.thread t).Running) : s.Counted ↔ s.CountedBut (· = t) := by
  have same : ∀ p u, (¬ False ∧ (s.thread u).Running ∧ s.priority u = p) ↔
    (¬ u = t ∧ (s.thread u).Running ∧ s.priority u = p) := by
    intro p u
    constructor
    · rintro ⟨-, runs, level⟩
      exact ⟨fun eq => stopped (eq ▸ runs), runs, level⟩
    · rintro ⟨-, runs, level⟩
      exact ⟨id, runs, level⟩
  constructor
  · exact fun counted => ⟨fun p u => (counted.queued p u).trans (same p u), counted.nodup, counted.pending, counted.map⟩
  · exact fun counted => ⟨fun p u => (counted.queued p u).trans (same p u).symm, counted.nodup, counted.pending,
    counted.map⟩

theorem CountedBut.modify (counted : s.CountedBut (· = t)) (f : Thread cfg Q → Thread cfg Q) :
    (s.modify t f).CountedBut (· = t) := by
  refine ⟨fun p u => ?_, counted.nodup, counted.pending, counted.map⟩
  rw [show (s.modify t f).runQueue = s.runQueue from rfl, counted.queued p u]
  by_cases same : u = t
  · simp [same]
  · simp [Smp.modify, Smp.priority, same]

/-- What `rem_thread` and `add_thread` make of the pending counts. -/
def unpend (s : Smp cfg n T Q) (t : T) : Smp cfg n T Q := if (s.cpu t).isNone then s.remPending (s.priority t) else s

def pend (s : Smp cfg n T Q) (t : T) : Smp cfg n T Q := if (s.cpu t).isNone then s.addPending (s.priority t) else s

/-- `s'` differs from `s` in the queue of the priority of `t` and in pending counts only. -/
structure Requeued (t : T) (l : List T) (counts s s' : Smp cfg n T Q) : Prop where
  thread : s'.thread = s.thread
  cpu : s'.cpu = s.cpu
  runQueue : s'.runQueue = Function.update s.runQueue (s.priority t) l
  pending : s'.pending = counts.pending
  map : ∀ r : Priority cfg, s'.pendingMap.getLsbD r = counts.pendingMap.getLsbD r
  current : s'.currentThread = s.currentThread
  idle : s'.idleThread = s.idleThread
  stuck : s'.stuck = s.stuck

theorem remThread_requeued (s : Smp cfg n T Q) (t : T) :
    Requeued t ((s.runQueue (s.priority t)).erase t) (s.unpend t) s (s.remThread t) := by
  unfold remThread unpend
  constructor <;> cases (s.cpu t).isNone <;> simp only [if_true, if_false,
    false_eq_true] <;> split <;> simp [remPending, setQueue]

theorem addThread_requeued (s : Smp cfg n T Q) (this : Fin n) (t : T)
    (map : ∀ p : Priority cfg, s.pendingMap.getLsbD p = true ↔ 0 < s.pending p) :
    Requeued t (s.runQueue (s.priority t) ++ [t]) (s.pend t) s (s.addThread this t) := by
  have bit : s.pending (s.priority t) ≠ 0 → ∀ r : Priority cfg,
      s.pendingMap.getLsbD r = (s.addPending (s.priority t)).pendingMap.getLsbD r := by
    intro more r
    rw [addPending, getLsbD_setBit]
    by_cases same : r = s.priority t
    · subst same
      simp [(map _).mpr (Nat.pos_of_ne_zero more)]
    · simp [same]
  unfold addThread pend
  dsimp only
  cases (s.runQueue (s.priority t)).isEmpty
  all_goals
    simp only [if_true, if_false, false_eq_true, setNeedReschedule, setQueue]
    by_cases free : (s.cpu t).isNone = true
    · simp only [free, if_true]
      by_cases none : s.pending (s.priority t) = 0
      · simp only [none, if_true]
        exact ⟨rfl, rfl, rfl, by simp [addPending], fun _ => rfl, rfl, rfl, rfl⟩
      · simp only [none, if_false]
        exact ⟨rfl, rfl, rfl, rfl, bit none, rfl, rfl, rfl⟩
    · simp only [free]
      exact ⟨rfl, rfl, rfl, rfl, fun _ => rfl, rfl, rfl, rfl⟩

theorem Requeued.priority {l : List T} {counts : Smp cfg n T Q} (requeued : Requeued t l counts s s') :
    s'.priority = s.priority := by
  funext u
  rw [Smp.priority, Smp.priority, requeued.thread]

theorem Counted.remThread (counted : s.Counted) (runs : (s.thread t).Running) : (s.remThread t).CountedBut (· = t) := by
  have requeued := remThread_requeued s t
  have mem : t ∈ s.runQueue (s.priority t) := (counted.queued _ t).mpr ⟨id, runs, rfl⟩
  have fewer := @waiting_erase _ _ _ s.cpu _ _ mem
  have count := counted.pending (s.priority t)
  refine ⟨fun p u => ?_, fun p => ?_, fun p => ?_, fun p => ?_⟩
  · rw [requeued.runQueue, requeued.thread, requeued.priority]
    by_cases same : p = s.priority t
    · subst same
      rw [update_self, (counted.nodup _).mem_erase_iff, counted.queued]
      simp [priority]
    · rw [update_of_ne same, counted.queued]
      constructor
      · rintro ⟨-, running, level⟩
        exact ⟨fun eq => same (eq ▸ level.symm), running, level⟩
      · rintro ⟨-, running, level⟩
        exact ⟨id, running, level⟩
  · rw [requeued.runQueue]
    by_cases same : p = s.priority t
    · subst same
      simpa using (counted.nodup _).erase t
    · simpa [same] using counted.nodup p
  · rw [requeued.pending, requeued.cpu, requeued.runQueue]
    unfold unpend
    by_cases same : p = s.priority t
    · subst same
      rw [update_self]
      cases free : (s.cpu t).isNone with
      | true =>
        rw [free, toNat_true] at fewer
        simp only [if_true, remPending, update_self]
        omega
      | false =>
        rw [free, toNat_false] at fewer
        simp only [false_eq_true, if_false]
        omega
    · rw [update_of_ne same, ← counted.pending p]
      cases (s.cpu t).isNone <;> simp [remPending, same]
  · rw [requeued.map, requeued.pending]
    unfold unpend
    split
    · exact map_remPending counted.map p
    · exact counted.map p

theorem CountedBut.addThread (counted : s.CountedBut (· = t)) (this : Fin n) (runs : (s.thread t).Running) :
    (s.addThread this t).Counted := by
  have requeued := addThread_requeued s this t counted.map
  have count := counted.pending (s.priority t)
  have absent : ∀ p, t ∉ s.runQueue p := fun p mem => ((counted.queued p t).mp mem).1 rfl
  have more : waiting s.cpu (s.runQueue (s.priority t) ++ [t]) =
      waiting s.cpu (s.runQueue (s.priority t)) + (s.cpu t).isNone.toNat := by
    rw [← waiting_cons]
    exact waiting_perm (perm_append_singleton ..)
  refine ⟨fun p u => ?_, fun p => ?_, fun p => ?_, fun p => ?_⟩
  · rw [requeued.runQueue, requeued.thread, requeued.priority]
    by_cases same : p = s.priority t
    · subst same
      rw [update_self, mem_append, mem_singleton, counted.queued]
      by_cases eq : u = t
      · simp [eq, runs]
      · simp [eq]
    · rw [update_of_ne same, counted.queued]
      constructor
      · rintro ⟨-, running, level⟩
        exact ⟨id, running, level⟩
      · rintro ⟨-, running, level⟩
        exact ⟨fun eq => same (eq ▸ level.symm), running, level⟩
  · rw [requeued.runQueue]
    by_cases same : p = s.priority t
    · subst same
      rw [update_self]
      exact ((perm_append_singleton ..).nodup_iff).mpr (nodup_cons.mpr ⟨absent _, counted.nodup _⟩)
    · simpa [same] using counted.nodup p
  · rw [requeued.pending, requeued.cpu, requeued.runQueue]
    unfold pend
    by_cases same : p = s.priority t
    · subst same
      rw [update_self, more, ← count]
      cases (s.cpu t).isNone <;> simp [addPending]
    · rw [update_of_ne same, ← counted.pending p]
      cases (s.cpu t).isNone <;> simp [addPending, same]
  · rw [requeued.map, requeued.pending]
    unfold pend
    split
    · exact map_addPending counted.map p
    · exact counted.map p

theorem Counted.take (counted : s.Counted) {c : Fin n} (mem : t ∈ s.runQueue p) (free : s.cpu t = none) :
    ((s.setCpu t (some c)).remPending p).Counted := by
  have here := ((counted.queued p t).mp mem).2.2
  refine ⟨counted.queued, counted.nodup, fun r => ?_, map_remPending counted.map⟩
  have count := counted.pending r
  by_cases same : r = p
  · subst same
    have moved := @waiting_update _ _ _ s.cpu _ _ (some c) (counted.nodup r) mem
    rw [free] at moved
    simp only [isNone_none, isNone_some, toNat_true, toNat_false] at moved
    simp only [setCpu, remPending, update_self]
    omega
  · have absent : t ∉ s.runQueue r := fun onQueue => same (((counted.queued r t).mp onQueue).2.2.symm.trans here)
    simpa [setCpu, remPending, same, waiting_update_of_notMem absent] using count

theorem Counted.release (counted : s.Counted) (owned : s.cpu t ≠ none) : (s.release t).Counted := by
  have taken : (s.cpu t).isNone = false := by
    rw [eq_false_iff]
    exact fun isNone => owned (isNone_iff_eq_none.mp isNone)
  unfold Smp.release
  split
  · next runs =>
    have mem : t ∈ s.runQueue (s.priority t) := (counted.queued _ t).mpr ⟨id, runs, rfl⟩
    refine ⟨counted.queued, counted.nodup, fun r => ?_, map_addPending counted.map⟩
    have count := counted.pending r
    by_cases same : r = s.priority t
    · subst same
      have moved := @waiting_update _ _ _ s.cpu _ _ none (counted.nodup _) mem
      rw [taken] at moved
      simp only [isNone_none, toNat_true, toNat_false] at moved
      simp only [setCpu, addPending, update_self]
      omega
    · have absent : t ∉ s.runQueue r := fun onQueue => same ((counted.queued r t).mp onQueue).2.2.symm
      simpa [setCpu, addPending, same, waiting_update_of_notMem absent] using count
  · next stopped =>
    refine ⟨counted.queued, counted.nodup, fun r => ?_, counted.map⟩
    have absent : t ∉ s.runQueue r := fun onQueue => stopped ((counted.queued r t).mp onQueue).2.1
    have count := counted.pending r
    simpa [setCpu, waiting_update_of_notMem absent] using count

end Smp

end Ecos
