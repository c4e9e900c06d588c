import Mathlib.Data.Fin.VecNotation
import Ecos.Kernel.Runs
import Ecos.Lib.Machine

namespace Ecos
open Thread Kernel List

/-- The threads alone, as the synchronization objects see them, under any calls
of any thread. -/
def Threads.machine {cfg : Config} {T Q : Type} [DecidableEq T] [DecidableEq Q] (pri : T → Priority cfg) (idle : T) :
    Machine (Threads cfg T Q) where
  init s := s = Threads.modify ⟨fun t => Thread.create (pri t), fun _ => []⟩ idle (·.resumed)
  step s s' := ∃ current c, s' = s.call current c

namespace Kernel
variable {cfg : Config} {T Q : Type} [DecidableEq T] [DecidableEq Q] [Fintype T]
variable {clean : Prop} {pri : T → Priority cfg} {idle : T} {k : Kernel cfg T Q} {s : Threads cfg T Q}

/-- The scheduler with its idle thread in place, before any other call. -/
def start (pri : T → Priority cfg) (idle : T) : Kernel cfg T Q := (boot pri idle).setIdleThread idle

/-- The runs of the kernel in which every call meets `Ok`. -/
def machine (pri : T → Priority cfg) (idle : T) (Ok : Kernel cfg T Q → Call cfg T Q → Prop) :
    Machine (Kernel cfg T Q) where
  init k := k = start pri idle
  step k k' := ∃ c, Ok k c ∧ k' = k.call c

section Start
variable (pri idle)

/-- The idle thread about to enter its run queue for the first time. -/
def awakened : Kernel cfg T Q := ((boot pri idle).lock.cygAssert true).modify idle (·.resumed)

theorem awakened_off : Off False idle (awakened pri idle : Kernel cfg T Q) (fun _ => []) idle where
  rep := Ring.Store.represents_empty
  map p := by simp [mapBit, awakened, boot]
  idleRuns := by simp [awakened, boot, create, resumed, Running, ThreadState.running]
  asserted := False.elim
  place t ne i := by
    have fresh : (awakened pri idle : Kernel cfg T Q).thread t = create (pri t) := by
      simp [awakened, boot, ne]
    simp [fresh, location, create, Running, ThreadState.running]
  sound t ne := by
    have fresh : (awakened pri idle : Kernel cfg T Q).thread t = create (pri t) := by
      simp [awakened, boot, ne]
    rw [fresh]
    exact ⟨by simp [create], by simp [create], fun _ => rfl⟩
  absent i := by simp

theorem start_eq : (start pri idle : Kernel cfg T Q) = { (awakened pri idle).addThread idle with schedLock := 1 } := by
  have alone : ((awakened pri idle : Kernel cfg T Q).thread idle).queue = none := by
    simp [awakened, boot, create, resumed]
  have runs : ((awakened pri idle : Kernel cfg T Q).thread idle).Running := (awakened_off pri idle).idleRuns
  have resumed : (boot pri idle : Kernel cfg T Q).lock.resume idle = (awakened pri idle).addThread idle := by
    simp only [resume]
    rw [if_pos (by rfl)]
    exact if_pos runs
  have two : ((awakened pri idle : Kernel cfg T Q).addThread idle).schedLock = 2 := addThread_schedLock alone
  simp only [start, setIdleThread]
  rw [show ({ (boot pri idle : Kernel cfg T Q) with currentThread := idle } : Kernel cfg T Q) = boot pri idle from rfl,
    resumed, unlock, two]
  rfl

theorem start_governed (last : pri idle = cfg.idlePriority) :
    Governed clean idle (Threads.modify ⟨fun t => Thread.create (pri t), fun _ => []⟩ idle (·.resumed))
      (start pri idle : Kernel cfg T Q) := by
  have off := awakened_off (Q := Q) pri idle
  have alone : ((awakened pri idle : Kernel cfg T Q).thread idle).queue = none := by
    simp [awakened, boot, create, resumed]
  have level : ((awakened pri idle : Kernel cfg T Q).thread idle).priority = cfg.idlePriority := by
    simp [awakened, boot, create, resumed, last]
  have joined := off.addThread off.idleRuns ⟨by simp [alone], by simp [alone], by
    simp [awakened, boot, create, resumed]⟩
  rw [level] at joined
  have home : idle ∈ Function.update (fun _ => []) (ListId.run cfg.idlePriority : ListId cfg Q) ([] ++ [idle])
      (.run cfg.idlePriority) := by simp
  have bit := (joined.map cfg.idlePriority).mpr (ne_nil_of_mem home)
  have present := joined.idlePresent home
  have held : ((awakened pri idle : Kernel cfg T Q).addThread idle).assertsHeld = true := by
    rw [addThread_assertsHeld alone, level, off.mapAgrees, joined.mapAgrees, present, map_ne_zero bit, bit, alone,
      joined.occupied home]
    rfl
  rw [start_eq]
  refine ⟨⟨_, ⟨⟨joined.rep, joined.map, joined.idleRuns, fun _ => ⟨held, home⟩⟩, joined.place, joined.sound⟩, ?_⟩, ?_, ?_⟩
  · rw [view_update_run]
    simp only [view, addThread_thread alone]
    rfl
  · refine .inl ?_
    show ((awakened pri idle : Kernel cfg T Q).addThread idle).needReschedule = true
    rw [addThread_needReschedule alone, setNeedRescheduleFor_needReschedule]
    split <;> rfl
  · intro zero
    simp at zero

end Start

theorem reach_governed (clean : Prop) {Ok : Kernel cfg T Q → Call cfg T Q → Prop} (last : pri idle = cfg.idlePriority)
    (fit : ∀ k c, Ok k c → k.Disciplined idle c) (spares : clean → ∀ k c, Ok k c → k.SparesLast c)
    (reach : (machine pri idle Ok).Reach k) :
    ∃ s, (Threads.machine pri idle).Reach s ∧ Governed clean idle s k := by
  refine reach.simulate (R := fun k s => Governed clean idle s k) ?_ ?_
  · rintro _ rfl
    exact ⟨_, rfl, start_governed pri idle last⟩
  · rintro k _ s governed ⟨c, ok, rfl⟩
    exact ⟨_, ⟨k.currentThread, c, rfl⟩, governed.call (fit k c ok) fun isClean => spares isClean k c ok⟩

/-- The lists, the bitmap and the thread objects agree. -/
def Consistent (k : Kernel cfg T Q) : Prop :=
  ∃ L : ListId cfg Q → List T, k.lists.Represents L ∧
    (∀ t, ((k.thread t).Running → (L (.run (k.thread t).priority)).count t = 1 ∧
        ∀ p, p ≠ (k.thread t).priority → t ∉ L (.run p)) ∧
      (¬ (k.thread t).Running → ∀ p, t ∉ L (.run p))) ∧
    (∀ p, k.mapBit p = true ↔ L (.run p) ≠ []) ∧
    (∀ t, (∀ q, (k.thread t).queue = some q → (L (.wait q)).count t = 1 ∧ (k.thread t).state.sleeping = true) ∧
      ∀ q, t ∈ L (.wait q) → (k.thread t).queue = some q)

theorem Realizes.consistent (real : Realizes clean idle k s) : k.Consistent := by
  obtain ⟨L, linked, -⟩ := real
  have once : ∀ t i, t ∈ L i → (L i).count t = 1 := fun t i => count_eq_one_of_mem (linked.rep.nodup i)
  refine ⟨L, linked.rep, fun t => ⟨fun runs => ⟨?_, ?_⟩, ?_⟩, linked.map, fun t => ⟨fun q queued => ⟨?_, ?_⟩, ?_⟩⟩
  · exact once t _ (linked.mem_run_iff.mpr ⟨runs, rfl⟩)
  · intro p ne mem
    exact ne (linked.mem_run_iff.mp mem).2.symm
  · intro stopped p mem
    exact stopped (linked.mem_run_iff.mp mem).1
  · exact once t _ (linked.mem_wait_iff.mpr queued)
  · exact (linked.sound t).sleeping (by simp [queued])
  · intro q mem
    exact linked.queue_of_mem mem

end Kernel

/-- A suspension that shows in the state is counted. -/
def Thread.Marked {cfg : Config} {Q : Type} (r : Thread cfg Q) : Prop := r.state.suspended = true → 0 < r.suspendCount

section Marked
variable {cfg : Config} {T Q : Type} [DecidableEq T] [DecidableEq Q]
variable {s : Threads cfg T Q} {c : Call cfg T Q} {t current : T}

theorem Threads.All.marked_wake (all : s.All Thread.Marked) : (s.wake t).All Thread.Marked :=
  all.wake (fun _ marked => marked) fun _ marked => marked

theorem Threads.All.marked_wakeFor (all : s.All Thread.Marked) (reason : Reason) :
    ((s.setWakeReason t reason).wake t).All Thread.Marked :=
  (all.modify (f := (·.setWakeReason reason)) fun marked => marked).marked_wake

theorem Thread.Marked.resumed {r : Thread cfg Q} (marked : r.Marked) : r.resumed.Marked := by
  unfold Thread.resumed
  split
  · intro still
    simp at still
  · split
    · intro _
      dsimp only
      omega
    · exact marked

theorem Thread.Marked.forceResumed {r : Thread cfg Q} (marked : r.Marked) : r.forceResumed.Marked := by
  unfold Thread.forceResumed
  split
  · intro still
    simp at still
  · exact marked

theorem Thread.Marked.dead (r : Thread cfg Q) : Thread.Marked { r with state := .exitedOnly } := by
  intro still
  simp [ThreadState.exitedOnly] at still

/-- Only a suspend count that wraps leaves a suspended thread uncounted. -/
theorem Threads.All.marked_call (all : s.All Thread.Marked)
    (fits : ∀ t, c = .suspend t → (s.thread t).suspendCount + 1 < 2 ^ 32) :
    (s.call current c).All Thread.Marked := by
  cases c with
  | startCpu | lock | unlock | reschedule | unlockReschedule | yield | rotateQueue | timeslice | timesliceCpu
  | setTimesliceEnabled => exact all
  | sleep => exact all.modify (f := fun r => { r with state := { r.state with sleeping := true } }) fun marked => marked
  | wake t => exact all.marked_wake
  | countedSleep =>
    simp only [call, countedSleep]
    split
    · have reasoned : (s.setSleepReason current .wait).All Marked :=
        all.modify (f := (·.setSleepReason .wait)) fun marked => marked
      exact (reasoned.modify fun marked => marked).modify fun marked => marked
    · exact all.modify fun marked => marked
  | countedWake t =>
    simp only [call, countedWake]
    split
    · exact all.marked_wakeFor .done
    · exact all.modify fun marked => marked
  | suspend t =>
    refine all.modify fun _ _ => ?_
    have small := fits t rfl
    simp only [suspended, Nat.mod_eq_of_lt small]
    omega
  | resume t => exact all.modify Marked.resumed
  | forceResume t => exact all.modify Marked.forceResumed
  | release t =>
    simp only [call, release]
    split
    any_goals exact all
    all_goals exact all.marked_wakeFor .brk
  | kill t =>
    have resumed : (s.forceResume t).All Marked := all.modify Marked.forceResumed
    simp only [call]
    split
    · unfold exit
      split
      · exact all
      · exact all.modify fun _ => Marked.dead _
    · simp only [kill]
      split
      · exact resumed.marked_wake
      · split
        · exact (resumed.modify fun _ => Marked.dead _).marked_wake
        any_goals exact resumed
        all_goals exact resumed.marked_wakeFor .exit
  | exit =>
    simp only [call, exit]
    split
    · exact all
    · exact all.modify fun _ => Marked.dead _
  | alarm t =>
    simp only [call, alarm]
    split
    any_goals exact all
    · exact all.marked_wakeFor .done
    · exact all.marked_wakeFor .timeout
  | setPriority t new =>
    have changed : ∀ r : Thread cfg Q, r.Marked → (r.withPriority new).Marked := by
      intro r marked
      obtain ⟨state, -, -, count⟩ := withPriority_fields r new
      simpa [Marked, state, count] using marked
    simp only [call, setPriority]
    split
    · split
      · exact all.modify (changed _)
      · exact ((all.remove fun _ marked => marked).modify (changed _)).enqueue fun _ marked => marked
    · exact all.modify (changed _)
  | setSleepReason reason => exact all.modify (f := (·.setSleepReason reason)) fun marked => marked
  | setWakeReason t reason => exact all.modify (f := (·.setWakeReason reason)) fun marked => marked
  | toQueueHead t =>
    simp only [call, toQueueHead]
    split <;> exact all
  | enqueue q t => exact all.enqueue fun _ marked => marked
  | dequeue q => exact all.dequeue fun _ marked => marked
  | remove q t => exact all.remove fun _ marked => marked

end Marked

namespace Kernel
variable {cfg : Config} {T Q : Type} [DecidableEq T] [DecidableEq Q] [Fintype T]
variable {pri : T → Priority cfg} {idle : T} {k : Kernel cfg T Q}

/-- A suspend count stays within its 32 bits. -/
def CountFits (k : Kernel cfg T Q) (c : Call cfg T Q) : Prop :=
  ∀ t, c = .suspend t → (k.thread t).suspendCount + 1 < 2 ^ 32

theorem reach_marked {Ok : Kernel cfg T Q → Call cfg T Q → Prop} (last : pri idle = cfg.idlePriority)
    (fit : ∀ k c, Ok k c → k.Disciplined idle c) (fits : ∀ k c, Ok k c → k.CountFits c)
    (reach : (machine pri idle Ok).Reach k) (t : T) :
    (k.thread t).state.suspended = true ↔ 0 < (k.thread t).suspendCount := by
  have governed : ∃ s, Governed False idle s k ∧ s.All Marked := by
    refine reach.invariant (P := fun k => ∃ s, Governed False idle s k ∧ s.All Marked) ?_ ?_
    · rintro _ rfl
      refine ⟨_, start_governed pri idle last, Threads.All.modify ?_ Marked.resumed⟩
      exact fun t _ => one_pos
    · rintro k _ ⟨s, governed, marked⟩ ⟨c, ok, rfl⟩
      refine ⟨_, governed.call (fit k c ok) False.elim, marked.marked_call ?_⟩
      rw [governed.real.thread_eq]
      exact fits k c ok
  obtain ⟨s, governed, marked⟩ := governed
  refine ⟨?_, (governed.real.sound t).counted⟩
  rw [← governed.real.thread_eq]
  exact marked t

/-- In every disciplined run the lists, the bitmap and the thread objects agree
and the suspended threads are those whose suspensions are counted; and if
besides no thread is ever taken off the run queue of the lowest priority, then
every assertion about these things holds. -/
theorem scheduler_consistent (last : pri idle = cfg.idlePriority) :
    (∀ k : Kernel cfg T Q, (machine pri idle fun k c => k.Disciplined idle c ∧ k.CountFits c).Reach k →
      k.Consistent ∧ ∀ t, (k.thread t).state.suspended = true ↔ 0 < (k.thread t).suspendCount) ∧
    ∀ k : Kernel cfg T Q,
      (machine pri idle fun k c => k.Disciplined idle c ∧ k.CountFits c ∧ k.SparesLast c).Reach k →
      k.assertsHeld = true := by
  refine ⟨fun k reach => ⟨?_, ?_⟩, fun k reach => ?_⟩
  · obtain ⟨s, -, governed⟩ := reach_governed False last (fun _ _ ok => ok.1) False.elim reach
    exact governed.real.consistent
  · exact reach_marked last (fun _ _ ok => ok.1) (fun _ _ ok => ok.2) reach
  · obtain ⟨s, -, governed⟩ :=
      reach_governed True last (fun _ _ ok => ok.1) (fun _ _ _ ok => ok.2.2) reach
    obtain ⟨L, linked, -⟩ := governed.real
    exact (linked.asserted trivial).1

/-- An application thread above the idle level, started and suspended again. -/
theorem scheduler_consistent_pair :
    (((start ![1, 0] 0 : Kernel .twoLevels (Fin 2) Unit).call (.resume 1)).call (.suspend 1)).Consistent ∧
      (((start ![1, 0] 0 : Kernel .twoLevels (Fin 2) Unit).call (.resume 1)).call (.suspend 1)).assertsHeld = true := by
  have both := @scheduler_consistent .twoLevels (Fin 2) Unit _ _ _ ![1, 0] 0 rfl
  refine ⟨(both.1 _ ?_).1, both.2 _ ?_⟩
  · refine .next (.next (.start rfl) ⟨.resume 1, ⟨trivial, ?_⟩, rfl⟩) ⟨.suspend 1, ⟨?_, ?_⟩, rfl⟩
    · rintro t ⟨⟩
    · exact Fin.zero_ne_one.symm
    · rintro t ⟨⟩
      decide
  · refine .next (.next (.start rfl) ⟨.resume 1, ⟨trivial, ?_, ?_⟩, rfl⟩) ⟨.suspend 1, ⟨?_, ?_, ?_⟩, rfl⟩
    · rintro t ⟨⟩
    · rintro t ⟨⟩
    · exact Fin.zero_ne_one.symm
    · rintro t ⟨⟩
      decide
    · unfold SparesLast
      decide

/-- An application thread at the lowest priority that goes to sleep fails the
assertion "Idle thread trying to sleep!", though the idle thread is untouched. -/
theorem lowest_priority_sleeper :
    ¬ ∀ k : Kernel .twoLevels (Fin 2) Unit,
      (machine ![1, 1] 0 fun k c => k.Disciplined 0 c ∧ ∀ new, c ≠ .setPriority 0 new).Reach k →
      k.assertsHeld = true := by
  intro always
  have run : (machine ![1, 1] 0 fun k c => k.Disciplined 0 c ∧ ∀ new, c ≠ .setPriority 0 new).Reach
      (((((start ![1, 1] 0 : Kernel .twoLevels (Fin 2) Unit).call (.resume 1)).call .startCpu).call .yield).call
        .sleep) := by
    refine .next (.next (.next (.next (.start rfl) ⟨.resume 1, ⟨trivial, ?_⟩, rfl⟩) ⟨.startCpu, ⟨?_, ?_⟩, rfl⟩)
      ⟨.yield, ⟨trivial, ?_⟩, rfl⟩) ⟨.sleep, ⟨?_, ?_⟩, rfl⟩
    · rintro new ⟨⟩
    · show ∀ t, Kernel.context _ t = none
      decide
    · rintro new ⟨⟩
    · rintro new ⟨⟩
    · show Kernel.currentThread _ ≠ 0
      decide
    · rintro new ⟨⟩
  exact absurd (always _ run) (by decide)

/-- In every disciplined run a reschedule is due whenever some runnable thread is
more urgent than the current one, so that whenever the scheduler is unlocked the
current thread may run and no runnable thread is more urgent. -/
theorem unlocked_runs_most_urgent (last : pri idle = cfg.idlePriority)
    (reach : (machine pri idle fun k c => k.Disciplined idle c).Reach k) :
    (k.needReschedule = true ∨ k.Foremost k.currentThread) ∧
    (k.schedLock = 0 → (k.thread k.currentThread).Running ∧ k.Foremost k.currentThread) ∧
    (0 < k.schedLock → k.unlock.schedLock = 0 →
      (k.unlock.thread k.unlock.currentThread).Running ∧ k.unlock.Foremost k.unlock.currentThread) := by
  obtain ⟨s, -, governed⟩ := reach_governed False last (fun _ _ ok => ok) False.elim reach
  exact ⟨governed.alert, governed.settled, fun _ => (governed.real.unlock governed.alert).settled⟩

/-- The more urgent of two threads is dispatched when the scheduler starts. -/
theorem unlocked_runs_most_urgent_pair :
    (((start ![1, 0] 0 : Kernel .twoLevels (Fin 2) Unit).call (.resume 1)).call .startCpu).schedLock = 0 ∧
      (((start ![1, 0] 0 : Kernel .twoLevels (Fin 2) Unit).call (.resume 1)).call .startCpu).Foremost 1 := by
  have reach : (machine ![1, 0] 0 fun k c => k.Disciplined 0 c).Reach
      (((start ![1, 0] 0 : Kernel .twoLevels (Fin 2) Unit).call (.resume 1)).call .startCpu) := by
    refine .next (.next (.start rfl) ⟨.resume 1, trivial, rfl⟩) ⟨.startCpu, ?_, rfl⟩
    show ∀ t, Kernel.context _ t = none
    decide
  have unlocked : (((start ![1, 0] 0 : Kernel .twoLevels (Fin 2) Unit).call (.resume 1)).call .startCpu).schedLock = 0 := by
    decide
  exact ⟨unlocked, ((unlocked_runs_most_urgent rfl reach).2.1 unlocked).2⟩

end Kernel

end Ecos
