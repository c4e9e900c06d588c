import Ecos.Kernel.Front

namespace Ecos
open Kernel List Option

namespace Kernel
variable {cfg : Config} {T Q : Type} [DecidableEq T] [DecidableEq Q] [Fintype T]
variable {clean : Prop} {pri : T → Priority cfg} {idle x : T} {k : Kernel cfg T Q} {q : Q} {s : Threads cfg T Q}
variable {c : Call cfg T Q}

/-- The clock calls the scheduler from its deferred service routine, so under the lock. -/
def Deferred (k : Kernel cfg T Q) (c : Call cfg T Q) : Prop :=
  c = .timeslice ∨ c = .timesliceCpu → 0 < k.schedLock

/-- With no reschedule due, the call puts no other thread in front of the current one on its run
queue: neither by `to_queue_head`, nor by making the current thread, stopped under the lock,
runnable again behind the others. -/
structure Polite (k : Kernel cfg T Q) (c : Call cfg T Q) : Prop where
  front : ∀ t, c = .toQueueHead t → (k.thread t).Running → (k.thread k.currentThread).Running →
    k.needReschedule = false → (k.thread t).priority = (k.thread k.currentThread).priority → t = k.currentThread
  back : k.Returns (k.body c) k.currentThread → k.needReschedule = true ∨
    ∀ u, (k.thread u).Running → (k.thread u).priority ≠ (k.thread k.currentThread).priority

theorem Realizes.head_none (real : Realizes clean idle k s) {p : Priority cfg}
    (empty : ∀ u, (k.thread u).Running → (k.thread u).priority ≠ p) : k.lists.head (.run p) = none := by
  obtain ⟨L, linked, -⟩ := real
  rw [linked.rep.heads, head?_eq_none_iff, eq_nil_iff_forall_not_mem]
  exact fun u mem => empty u (linked.mem_run_iff.mp mem).1 (linked.mem_run_iff.mp mem).2

theorem Realizes.running_of_inList (real : Realizes clean idle k s) (alone : (k.thread x).queue = none)
    (inList : k.lists.nodes.next x ≠ x) : (k.thread x).Running := by
  obtain ⟨L, linked, -⟩ := real
  by_contra stopped
  refine inList (linked.rep.alone x fun i mem => ?_).1
  rw [linked.place x, Thread.location_stopped stopped, alone] at mem
  cases mem

theorem Fronted.body (fronted : k.Fronted) (real : Realizes clean idle k s) (fit : k.Disciplined idle c)
    (polite : k.Polite c) : (k.body c).Fronted := by
  have free : ∀ x, k.Returns (k.body c) x → k.Free x := by
    intro x returns same
    subst same
    exact (polite.back returns).imp_right real.head_none
  cases c with
  | startCpu | lock | unlock | reschedule | unlockReschedule => exact fronted
  | sleep => exact fronted.sleep
  | wake t => exact fronted.wake t (free t)
  | countedSleep => exact fronted.countedSleep
  | countedWake t => exact fronted.countedWake t (free t)
  | suspend t => exact fronted.suspend t
  | resume t => exact fronted.resume (real.sound t) (free t)
  | forceResume t => exact fronted.forceResume (real.sound t) (free t)
  | release t => exact fronted.release t (free t)
  | kill t =>
    simp only [body]
    split
    · exact fronted.exit
    · next other => exact fronted.kill (real.sound t) other
  | exit => exact fronted.exit
  | alarm t => exact fronted.alarm t (free t)
  | setPriority t new => exact fronted.setPriority (real.sound t) new
  | setSleepReason reason => exact fronted.modify rfl rfl
  | setWakeReason t reason => exact fronted.modify rfl rfl
  | yield => exact fronted.yield
  | rotateQueue pri => exact fronted.rotateQueue pri
  | toQueueHead t =>
    exact fronted.toQueueHead fun alone inList => polite.front t rfl (real.running_of_inList alone inList)
  | timeslice => exact fronted.timeslice
  | timesliceCpu => exact fronted.timesliceCpu
  | setTimesliceEnabled t on => exact fronted
  | enqueue q t => exact fronted.enqueue q t
  | dequeue q => exact fronted.dequeue q
  | remove q t => exact fronted.queueRemove q t

theorem Governed.body_lock (governed : Governed clean idle s k) (fit : k.Disciplined idle c)
    (spares : clean → k.SparesLast c) : (k.lock.body c).thread = (k.body c).thread := by
  have bare := (governed.body fit spares).1.thread_eq
  have locked := (governed.lock.body fit.lock fun isClean => (spares isClean).lock).1.thread_eq
  exact locked.symm.trans bare

theorem Polite.lock (polite : k.Polite c) (same : (k.lock.body c).thread = (k.body c).thread) : k.lock.Polite c := by
  refine ⟨polite.front, fun returns => polite.back ⟨returns.1, ?_⟩⟩
  rw [← same]
  exact returns.2

/-- What a dispatch leaves: no reschedule due, and the current thread the head of its run queue. -/
structure Led (k : Kernel cfg T Q) : Prop where
  calm : k.needReschedule = false
  head : k.lists.head (.run (k.thread k.currentThread).priority) = some k.currentThread

theorem Led.fronted (led : k.Led) : k.Fronted := .inr fun _ => led.head

theorem Realizes.schedule_head (real : Realizes clean idle k s) :
    ∃ next, k.schedule.2 = some next ∧ (k.thread next).Running ∧ k.Foremost next ∧
      k.lists.head (.run (k.thread next).priority) = some next := by
  obtain ⟨next, isNext, runs, first, -⟩ := real.schedule
  refine ⟨next, isNext, runs, first, ?_⟩
  obtain ⟨p, -, head⟩ := bind_eq_some_iff.mp (show (lsbitIndex k.queueMap).bind
    (fun index => k.lists.head (.run index)) = some next from isNext)
  obtain ⟨L, linked, -⟩ := real
  have mem : next ∈ L (.run p) := by
    rw [linked.rep.heads] at head
    exact mem_of_mem_head? head
  rwa [(linked.mem_run_iff.mp mem).2]

theorem switchContext_led (head : k.lists.head (.run (k.thread x).priority) = some x) : (k.switchContext x).Led := by
  unfold switchContext
  split <;> exact ⟨rfl, head⟩

theorem switchContext_currentThread : (k.switchContext x).currentThread = x := by
  unfold switchContext
  split <;> rfl

theorem Realizes.unlockInner_led (real : Realizes clean idle k s) (fronted : k.Fronted) (newLock : Nat) :
    (k.unlockInner newLock).Led := by
  obtain ⟨next, isNext, runs, first, head⟩ := real.schedule_head
  unfold Kernel.unlockInner
  dsimp only
  split
  · have pair : k.schedule = (k.schedule.1, some next) := by rw [← isNext]
    rw [pair]
    dsimp only
    split
    · exact switchContext_led head
    · next same =>
      have same : k.currentThread = next := by simpa using same
      refine ⟨rfl, ?_⟩
      show k.lists.head (.run (k.thread k.currentThread).priority) = some k.currentThread
      rwa [same]
  · next stays =>
    push Not at stays
    have calm : k.needReschedule = false := by simpa using stays.2
    exact ⟨calm, (fronted.resolve_left (by simp [calm])) stays.1⟩

/-- The invariant behind `yield`: besides that of the scheduler, the current thread is in front,
and no reschedule is left over once unlocked. -/
structure Orderly (idle : T) (s : Threads cfg T Q) (k : Kernel cfg T Q) : Prop where
  governed : Governed False idle s k
  fronted : k.Fronted
  calm : k.schedLock = 0 → k.needReschedule = false

/-- A call ends in an unlocking or dispatch, or under the lock, or it leaves lock and flag as they are. -/
theorem Orderly.call (orderly : Orderly idle s k) (fit : k.Disciplined idle c) (deferred : k.Deferred c)
    (polite : k.Polite c) : Orderly idle (s.call k.currentThread c) (k.call c) := by
  obtain ⟨governed, fronted, calm⟩ := orderly
  have after := governed.call fit False.elim
  suffices (k.call c).Fronted ∧ ((k.call c).schedLock = 0 → (k.call c).needReschedule = false) from
    ⟨after, this.1, this.2⟩
  have same := governed.body_lock fit False.elim
  obtain ⟨real, -⟩ := governed.lock.body fit.lock False.elim
  have inFront : (k.lock.body c).Fronted := Fronted.body (k := k.lock) fronted governed.lock.real fit.lock (polite.lock same)
  have bare : (k.body c).Fronted := fronted.body governed.real fit polite
  have dispatched : ∀ {k' : Kernel cfg T Q} {s' : Threads cfg T Q} (n : Nat), Realizes False idle k' s' → k'.Fronted →
      (k'.unlockInner n).Fronted ∧ ((k'.unlockInner n).schedLock = 0 → (k'.unlockInner n).needReschedule = false) :=
    fun n real fronted => ⟨(real.unlockInner_led fronted n).fronted, fun _ => (real.unlockInner_led fronted n).calm⟩
  have unlocked : ∀ {k' : Kernel cfg T Q} {s' : Threads cfg T Q}, Realizes False idle k' s' → k'.Fronted →
      k'.unlock.Fronted ∧ (k'.unlock.schedLock = 0 → k'.unlock.needReschedule = false) := by
    intro k' s' real fronted
    unfold unlock
    split
    · exact dispatched 0 real fronted
    · next held => exact ⟨fronted, fun zero => absurd zero held⟩
  cases c with
  | startCpu =>
    obtain ⟨next, isNext, runs, first, head⟩ := governed.real.schedule_head
    have pair : k.schedule = (k.schedule.1, some next) := by rw [← isNext]
    simp only [call, startCpu]
    rw [pair]
    exact ⟨.inr fun _ => head, fun _ => rfl⟩
  | lock => exact ⟨fronted, fun zero => absurd zero (Nat.succ_ne_zero _)⟩
  | unlock => exact unlocked governed.real fronted
  | reschedule => exact dispatched _ governed.real fronted
  | unlockReschedule => exact dispatched _ governed.real fronted
  | exit => exact dispatched _ real inFront
  | kill t =>
    simp only [call]
    split
    · next self =>
      subst self
      have dying : k.Disciplined idle .exit := ⟨fit.1, fit.2 rfl⟩
      obtain ⟨real, -⟩ := governed.lock.body dying.lock False.elim
      exact dispatched _ real (Fronted.exit (k := k.lock) fronted)
    · exact unlocked real inFront
  | yield =>
    simp only [call, yieldUnlock]
    split
    · exact dispatched _ real inFront
    · exact unlocked real inFront
  | timeslice =>
    obtain ⟨-, lock, -⟩ := timeslice_fields (k := k)
    have held := deferred (.inl rfl)
    exact ⟨bare, fun zero => absurd (lock.symm.trans zero) (ne_of_gt held)⟩
  | timesliceCpu =>
    obtain ⟨-, lock, -⟩ := timesliceCpu_fields (k := k)
    have held := deferred (.inr rfl)
    exact ⟨bare, fun zero => absurd (lock.symm.trans zero) (ne_of_gt held)⟩
  | setTimesliceEnabled t on => exact ⟨bare, calm⟩
  | setSleepReason reason => exact ⟨bare, calm⟩
  | setWakeReason t reason => exact ⟨bare, calm⟩
  | enqueue q t => exact ⟨bare, calm⟩
  | dequeue q =>
    refine ⟨bare, ?_⟩
    simp only [call, body, dequeue]
    split <;> exact calm
  | remove q t => exact ⟨bare, calm⟩
  | _ => exact unlocked real inFront

theorem start_orderly (last : pri idle = cfg.idlePriority) :
    Orderly idle (Threads.modify ⟨fun t => Thread.create (pri t), fun _ => []⟩ idle (·.resumed))
      (start pri idle : Kernel cfg T Q) := by
  refine ⟨start_governed pri idle last, .inl ?_, ?_⟩
  · have alone : ((awakened pri idle : Kernel cfg T Q).thread idle).queue = none := by
      simp [awakened, boot, Thread.create, Thread.resumed]
    rw [start_eq]
    show ((awakened pri idle : Kernel cfg T Q).addThread idle).needReschedule = true
    rw [addThread_needReschedule alone, setNeedRescheduleFor_needReschedule]
    split <;> rfl
  · rw [start_eq]
    intro zero
    cases zero

theorem reach_orderly {Ok : Kernel cfg T Q → Call cfg T Q → Prop} (last : pri idle = cfg.idlePriority)
    (ok : ∀ k c, Ok k c → k.Disciplined idle c ∧ k.Deferred c ∧ k.Polite c)
    (reach : (machine pri idle Ok).Reach k) : ∃ s, Orderly idle s k := by
  refine reach.invariant (P := fun k => ∃ s, Orderly idle s k) ?_ ?_
  · rintro _ rfl
    exact ⟨_, start_orderly last⟩
  · rintro k _ ⟨s, orderly⟩ ⟨c, allowed, rfl⟩
    obtain ⟨fit, deferred, polite⟩ := ok k c allowed
    exact ⟨_, orderly.call fit deferred polite⟩

theorem Realizes.dispatch_head (real : Realizes clean idle k s) (due : k.needReschedule = true) {p : Priority cfg}
    (head : k.lists.head (.run p) = some x) (most : ∀ u, (k.thread u).Running → p ≤ (k.thread u).priority)
    (newLock : Nat) : (k.unlockInner newLock).currentThread = x := by
  obtain ⟨next, isNext, runs, first, atHead⟩ := real.schedule_head
  have mem : (k.thread x).Running ∧ (k.thread x).priority = p := by
    obtain ⟨L, linked, -⟩ := real
    rw [linked.rep.heads] at head
    exact linked.mem_run_iff.mp (mem_of_mem_head? head)
  have level : (k.thread next).priority = p := le_antisymm (mem.2 ▸ first x mem.1) (most next runs)
  rw [level] at atHead
  obtain rfl := some.inj (atHead.symm.trans head)
  have pair : k.schedule = (k.schedule.1, some next) := by rw [← isNext]
  unfold Kernel.unlockInner
  rw [if_pos (.inr due), pair]
  dsimp only
  split
  · exact switchContext_currentThread
  · next same =>
    show k.currentThread = next
    simpa using same

theorem Realizes.next_of_shared (real : Realizes clean idle k s) {p : Priority cfg} {u : T}
    (head : k.lists.head (.run p) = some x) (runs : (k.thread u).Running) (level : (k.thread u).priority = p)
    (other : u ≠ x) : k.lists.nodes.next x ≠ x := by
  obtain ⟨L, linked, -⟩ := real
  obtain ⟨l, split⟩ := linked.rep.head_some head
  have mem : u ∈ L (.run p) := linked.mem_run_iff.mpr ⟨runs, level⟩
  have ring := linked.rep.ring (.run p)
  have nodup := linked.rep.nodup (.run p)
  rw [split] at mem ring nodup
  cases l with
  | nil => exact absurd (mem_singleton.mp mem) other
  | cons y l =>
    rw [ring.next_head]
    intro same
    have again : y = x := same
    rw [again] at nodup
    simp at nodup

theorem rotate_head_self (s : Ring.Store (ListId cfg Q) T) (i : ListId cfg Q) :
    (s.rotate i).head i = (s.head i).map s.nodes.next := by
  unfold Ring.Store.rotate
  split
  · next none => simp [none]
  · next h some => simp [some, Ring.Store.setHead]

/-- The current thread is in front of its run queue, and if it shares that queue it yields to the
thread behind it. -/
def GivesWay (k : Kernel cfg T Q) : Prop :=
  k.lists.head (.run (k.thread k.currentThread).priority) = some k.currentThread ∧
    ((∃ u, u ≠ k.currentThread ∧ (k.thread u).Running ∧ (k.thread u).priority = (k.thread k.currentThread).priority) →
      (k.call .yield).currentThread = k.lists.nodes.next k.currentThread ∧
        k.lists.nodes.next k.currentThread ≠ k.currentThread)

instance (k : Kernel cfg T Q) : Decidable k.GivesWay := inferInstanceAs (Decidable (_ ∧ (_ → _)))

theorem Orderly.givesWay (orderly : Orderly idle s k) (unlocked : k.schedLock = 0) : k.GivesWay := by
  obtain ⟨governed, fronted, calm⟩ := orderly
  obtain ⟨runs, first⟩ := governed.settled unlocked
  have head := (fronted.resolve_left (by simp [calm unlocked])) runs
  refine ⟨head, ?_⟩
  rintro ⟨u, other, uRuns, level⟩
  have apart := governed.real.next_of_shared head uRuns level other
  refine ⟨?_, apart⟩
  obtain ⟨real, -⟩ := governed.lock.body (c := .yield) trivial False.elim
  set p := (k.thread k.currentThread).priority with isLevel
  have turned : (k.lists.rotate (.run p)).head (.run p) = some (k.lists.nodes.next k.currentThread) := by
    rw [rotate_head_self, head]
    rfl
  have body : k.lock.body .yield = (k.lock.setLists (k.lists.rotate (.run p))).setNeedReschedule := by
    show k.lock.yield = _
    unfold yield
    rw [if_pos (show (k.lock.thread k.lock.currentThread).Running from runs), if_pos]
    · rfl
    · show (k.lists.rotate (.run p)).head (.run p) ≠ some k.currentThread
      rw [turned]
      exact fun same => apart (some.inj same)
  simp only [Kernel.call, Kernel.yieldUnlock]
  rw [body] at real ⊢
  exact real.dispatch_head rfl turned first _

/-- In every disciplined run of polite calls the current thread is in front of its run queue whenever
the scheduler is unlocked, so that to yield is to give way to the thread behind. -/
theorem yield_gives_way (last : pri idle = cfg.idlePriority)
    (reach : (machine pri idle fun k c => k.Disciplined idle c ∧ k.Deferred c ∧ k.Polite c).Reach k)
    (unlocked : k.schedLock = 0) : k.GivesWay := by
  obtain ⟨s, orderly⟩ := reach_orderly last (fun _ _ ok => ok) reach
  exact orderly.givesWay unlocked

/-- Two threads of one priority, of which the first is running. -/
def twins : Kernel .twoLevels (Fin 3) Unit :=
  (((start ![1, 0, 0] 0).call (.resume 1)).call (.resume 2)).call .startCpu

theorem twins_reach {Ok : Kernel .twoLevels (Fin 3) Unit → Call .twoLevels (Fin 3) Unit → Prop}
    (resumes : ∀ k t, ¬ k.Returns (k.body (.resume t)) k.currentThread → Ok k (.resume t))
    (begins : ∀ k, (∀ t, k.context t = none) → Ok k .startCpu) : (machine ![1, 0, 0] 0 Ok).Reach twins := by
  refine .next (.next (.next (.start rfl) ⟨.resume 1, resumes _ 1 ?_, rfl⟩) ⟨.resume 2, resumes _ 2 ?_, rfl⟩)
    ⟨.startCpu, begins _ (by decide), rfl⟩
  · unfold Returns
    decide
  · unfold Returns
    decide

theorem yield_gives_way_twins : twins.schedLock = 0 ∧ (twins.call .yield).currentThread = 2 := by
  have reach : (machine ![1, 0, 0] 0 fun k c => k.Disciplined 0 c ∧ k.Deferred c ∧ k.Polite c).Reach twins :=
    twins_reach
      (fun k t still => ⟨trivial, by rintro (⟨⟨⟩⟩ | ⟨⟨⟩⟩), by rintro t ⟨⟩, fun returns => absurd returns still⟩)
      (fun k begun => ⟨begun, by rintro (⟨⟨⟩⟩ | ⟨⟨⟩⟩), by rintro t ⟨⟩, fun returns => absurd returns.2 returns.1⟩)
  have unlocked : twins.schedLock = 0 := by decide
  have gives := (yield_gives_way rfl reach unlocked).2 (by decide)
  exact ⟨unlocked, gives.1.trans (by decide)⟩

/-- A thread moved to the head by another of the same priority: the other goes on in spite of it,
and then yields to no one. -/
theorem front_displaced :
    ¬ ∀ k : Kernel .twoLevels (Fin 3) Unit, (machine ![1, 0, 0] 0 fun k c => k.Disciplined 0 c ∧ k.Deferred c).Reach k →
      k.schedLock = 0 → k.GivesWay := by
  intro always
  have before : (machine ![1, 0, 0] 0 fun k c => k.Disciplined 0 c ∧ k.Deferred c).Reach twins :=
    twins_reach (fun k t _ => ⟨trivial, by rintro (⟨⟨⟩⟩ | ⟨⟨⟩⟩)⟩) (fun k begun => ⟨begun, by rintro (⟨⟨⟩⟩ | ⟨⟨⟩⟩)⟩)
  have reach := before.next ⟨.toQueueHead 2, ⟨trivial, by rintro (⟨⟨⟩⟩ | ⟨⟨⟩⟩)⟩, rfl⟩
  exact absurd (always _ reach (by decide)) (by decide)

end Kernel

end Ecos
