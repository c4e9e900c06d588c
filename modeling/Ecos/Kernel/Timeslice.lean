import Ecos.Kernel.Yield

namespace Ecos
open Function (update update_of_ne update_self)
open Thread Kernel

namespace Kernel
variable {cfg : Config} {T Q : Type} [DecidableEq T] [DecidableEq Q]
variable {x t : T} {k k' k'' : Kernel cfg T Q} {q : Q}

/-- What is left of the time slice of a thread: of the current one the counter, of another what was saved. -/
def quantum (k : Kernel cfg T Q) (t : T) : Nat := if t = k.currentThread then k.timesliceCount else k.threadTimeslice t

def HasQuantum (k : Kernel cfg T Q) (t : T) : Prop := 1 ≤ k.quantum t ∧ k.quantum t ≤ cfg.timesliceTicks

instance : Decidable (k.HasQuantum t) := inferInstanceAs (Decidable (_ ∧ _))

/-- Every thread that may run and is timesliced has part of its quantum left; one that was never
switched out has a full one saved. -/
structure Quanta (k : Kernel cfg T Q) : Prop where
  left : ∀ t, (k.thread t).Running → k.timesliceEnabled t = true → k.HasQuantum t
  fresh : ∀ t, k.context t = none → k.threadTimeslice t = cfg.timesliceTicks

/-- What an operation other than a tick does to the time slices: one that is not as before is full,
and that of a thread that it makes runnable is. -/
structure Carried (k k' : Kernel cfg T Q) : Prop where
  current : k'.currentThread = k.currentThread
  count : k'.timesliceCount = k.timesliceCount
  enabled : k'.timesliceEnabled = k.timesliceEnabled
  context : k'.context = k.context
  slice : ∀ t, k'.threadTimeslice t = cfg.timesliceTicks ∨
    (k'.threadTimeslice t = k.threadTimeslice t ∧ ((k'.thread t).Running → (k.thread t).Running))

theorem Carried.refl (k : Kernel cfg T Q) : k.Carried k := ⟨rfl, rfl, rfl, rfl, fun _ => .inr ⟨rfl, id⟩⟩

theorem Carried.trans (first : k.Carried k') (second : k'.Carried k'') : k.Carried k'' := by
  refine ⟨second.current.trans first.current, second.count.trans first.count, second.enabled.trans first.enabled,
    second.context.trans first.context, fun t => ?_⟩
  rcases second.slice t with full | ⟨same, runs⟩
  · exact .inl full
  · rcases first.slice t with full | ⟨before, ran⟩
    · exact .inl (same.trans full)
    · exact .inr ⟨same.trans before, fun now => ran (runs now)⟩

theorem Quanta.carried (quanta : k.Quanta) (carried : k.Carried k') (some : 1 ≤ cfg.timesliceTicks)
    (returning : k.Returns k' k.currentThread → k.timesliceEnabled k.currentThread = true → k.HasQuantum k.currentThread) :
    k'.Quanta := by
  refine ⟨fun t runs on => ?_, fun t never => ?_⟩
  · rw [carried.enabled] at on
    unfold HasQuantum quantum
    rw [carried.current, carried.count]
    split
    · next same =>
      subst same
      have kept : k.HasQuantum k.currentThread := by
        by_cases ran : (k.thread k.currentThread).Running
        · exact quanta.left _ ran on
        · exact returning ⟨ran, runs⟩ on
      simpa [HasQuantum, quantum] using kept
    · next other =>
      rcases carried.slice t with full | ⟨same, ran⟩
      · rw [full]
        exact ⟨some, le_rfl⟩
      · rw [same]
        simpa [HasQuantum, quantum, other] using quanta.left t (ran runs) on
  · rcases carried.slice t with full | ⟨same, -⟩
    · exact full
    · rw [same]
      exact quanta.fresh t (by rw [← carried.context, never])

theorem Carried.quiet (current : k'.currentThread = k.currentThread) (count : k'.timesliceCount = k.timesliceCount)
    (enabled : k'.timesliceEnabled = k.timesliceEnabled) (context : k'.context = k.context)
    (slice : k'.threadTimeslice = k.threadTimeslice) (runs : ∀ t, (k'.thread t).Running → (k.thread t).Running) :
    k.Carried k' := ⟨current, count, enabled, context, fun t => .inr ⟨congrFun slice t, runs t⟩⟩

theorem Carried.modify {f : Thread cfg Q → Thread cfg Q} (runs : (f (k.thread x)).Running → (k.thread x).Running) :
    k.Carried (k.modify x f) := by
  refine .quiet rfl rfl rfl rfl rfl fun t now => ?_
  by_cases same : t = x
  · subst same
    exact runs (by simpa using now)
  · simpa [same] using now

theorem Carried.remThread : k.Carried (k.remThread x) := .quiet rfl rfl rfl rfl rfl fun _ => id

theorem Carried.remove : k.Carried (k.remove x) := by
  cases queued : (k.thread x).queue with
  | none =>
    rw [remove_none _ _ queued]
    exact .refl k
  | some q =>
    rw [remove_some _ _ queued]
    refine .quiet rfl rfl rfl rfl rfl fun t runs => ?_
    by_cases same : t = x
    · subst same
      simpa [queueRemove, Running] using runs
    · simpa [queueRemove, same] using runs

theorem remove_runs : ((k.remove x).thread t).Running ↔ (k.thread t).Running := by
  cases queued : (k.thread x).queue with
  | none => rw [remove_none _ _ queued]
  | some q =>
    rw [remove_some _ _ queued]
    by_cases same : t = x
    · subst same
      simp [queueRemove, Running, modify, setLists]
    · simp [queueRemove, same]

theorem remove_threadTimeslice : (k.remove x).threadTimeslice = k.threadTimeslice := by
  cases queued : (k.thread x).queue with
  | none => rw [remove_none _ _ queued]
  | some q => rw [remove_some _ _ queued]; rfl

section
variable (current : k'.currentThread = k.currentThread) (count : k'.timesliceCount = k.timesliceCount)
  (enabled : k'.timesliceEnabled = k.timesliceEnabled) (context : k'.context = k.context)
  (slice : k'.threadTimeslice = k.threadTimeslice) (others : ∀ t, t ≠ x → (k'.thread t).Running → (k.thread t).Running)
include current count enabled context slice others

theorem Carried.addThread : k.Carried (k'.addThread x) := by
  have removed := Carried.remove (k := k'.cygAssert (k'.mapAgrees (k'.thread x).priority)) (x := x)
  set m := (k'.cygAssert (k'.mapAgrees (k'.thread x).priority)).remove x with isM
  refine ⟨removed.current.trans current, removed.count.trans count, removed.enabled.trans enabled,
    removed.context.trans context, fun t => ?_⟩
  show update m.threadTimeslice x cfg.timesliceTicks t = _ ∨ (update m.threadTimeslice x _ t = _ ∧
    ((m.thread t).Running → _))
  by_cases same : t = x
  · exact .inl (by rw [same, update_self])
  · rw [update_of_ne same]
    have sliced : m.threadTimeslice = k'.threadTimeslice := remove_threadTimeslice
    refine .inr ⟨by rw [sliced, slice], fun runs => others t same ?_⟩
    rw [isM] at runs
    exact (remove_runs (k := k'.cygAssert _)).mp runs

theorem Carried.rejoin : k.Carried (if (k'.thread x).Running then k'.addThread x else k') := by
  split
  · exact .addThread current count enabled context slice others
  · next stopped =>
    refine .quiet current count enabled context slice fun t runs => others t ?_ runs
    rintro rfl
    exact stopped runs

end

theorem Carried.wake (x : T) : k.Carried (k.wake x) := by
  unfold Kernel.wake
  split
  · have removed := Carried.remove (k := k.modify x fun r => { r with state := r.state.clearSleepset }) (x := x)
    refine .rejoin removed.current removed.count removed.enabled removed.context remove_threadTimeslice
      fun t other runs => ?_
    simpa [other] using remove_runs.mp runs
  · exact .refl k

theorem Carried.wakeFor (x : T) (reason : Reason) : k.Carried ((k.setWakeReason x reason).wake x) :=
  (Carried.modify (f := (·.setWakeReason reason)) id).trans (.wake x)

theorem Carried.countedWake (x : T) : k.Carried (k.countedWake x) := by
  unfold Kernel.countedWake
  split
  · exact .wakeFor x .done
  · exact .modify id

theorem Carried.release (x : T) : k.Carried (k.release x) := by
  unfold Kernel.release
  split
  · exact .wakeFor x .brk
  · exact .refl k

theorem Carried.alarm (x : T) : k.Carried (k.alarm x) := by
  unfold Kernel.alarm
  split
  any_goals exact .refl k
  · exact .wakeFor x .done
  · exact .wakeFor x .timeout

theorem Carried.stop {f : Thread cfg Q → Thread cfg Q} (stopped : ∀ r, ¬ (f r).Running) :
    k.Carried ((if (k.thread x).Running then k.remThread x else k).modify x f) := by
  split
  · exact Carried.remThread.trans (.modify fun runs => absurd runs (stopped _))
  · exact .modify fun runs => absurd runs (stopped _)

theorem Carried.sleep : k.Carried k.sleep :=
  Carried.stop (x := k.currentThread) (f := fun r => { r with state := { r.state with sleeping := true } })
    fun r => by simp [Running, ThreadState.running]

theorem Carried.suspend (x : T) : k.Carried (k.suspend x) :=
  Carried.stop (f := (·.suspended)) fun r => by simp [Running, suspended, ThreadState.running]

theorem Carried.countedSleep : k.Carried k.countedSleep := by
  unfold Kernel.countedSleep
  dsimp only
  split
  · refine (Carried.modify (f := (·.setSleepReason .wait)) id).trans (Carried.sleep.trans (.modify fun runs => ?_))
    simp [Running, ThreadState.running] at runs
  · exact .modify id

theorem Carried.resume (x : T) : k.Carried (k.resume x) := by
  unfold Kernel.resume
  split
  · exact .rejoin rfl rfl rfl rfl rfl fun t other runs => by simpa [other] using runs
  · next more =>
    refine .modify fun runs => ?_
    simp only [resumed, if_neg more] at runs
    split at runs <;> exact runs

theorem Carried.forceResume (x : T) : k.Carried (k.forceResume x) := by
  unfold Kernel.forceResume
  split
  · exact .rejoin rfl rfl rfl rfl rfl fun t other runs => by simpa [other] using runs
  · exact .refl k

theorem Carried.exit : k.Carried k.exit := by
  unfold Kernel.exit
  dsimp only
  split
  · exact .refl k
  · refine (Carried.modify fun runs => ?_).trans .remThread
    simp [Running, ThreadState.exitedOnly, ThreadState.running] at runs

theorem Carried.kill (x : T) : k.Carried (k.kill x) := by
  refine (Carried.forceResume x).trans ?_
  unfold Kernel.kill
  dsimp only
  split
  · exact .wake x
  · split
    · exact (Carried.stop fun r => by simp [Running, ThreadState.exitedOnly, ThreadState.running]).trans (.wake x)
    any_goals exact .refl _
    all_goals exact .wakeFor x .exit

theorem Carried.queueRemove (q : Q) (x : T) : k.Carried (k.queueRemove q x) :=
  (Carried.modify (x := x) (f := fun r => { r with queue := none }) id).trans (.quiet rfl rfl rfl rfl rfl fun _ => id)

theorem Carried.dequeue (q : Q) : k.Carried (k.dequeue q) := by
  unfold Kernel.dequeue
  split
  · exact .refl k
  · next t _ =>
    exact (Carried.modify (x := t) (f := fun r => { r with queue := none }) id).trans
      (.quiet rfl rfl rfl rfl rfl fun _ => id)

theorem Carried.enqueue [Fintype T] (q : Q) (x : T) : k.Carried (k.enqueue q x) :=
  (Carried.modify (x := x) (f := fun r => { r with queue := some q }) id).trans (.quiet rfl rfl rfl rfl rfl fun _ => id)

theorem Carried.setPriority [Fintype T] (x : T) (new : Priority cfg) : k.Carried (k.setPriority x new) := by
  have same : ∀ r : Thread cfg Q, (r.withPriority new).Running → r.Running := fun r runs =>
    (withPriority_fields r new).1.symm.trans runs
  have flagged : ∀ {k' : Kernel cfg T Q}, k.Carried k' →
      k.Carried (if x = k'.currentThread then k'.setNeedReschedule else k'.setNeedRescheduleFor x) := by
    intro k' carried
    split <;> exact carried.trans (.quiet rfl rfl rfl rfl rfl fun _ => id)
  unfold Kernel.setPriority
  by_cases runs : (k.thread x).state = .running
  · simp only [runs, if_true]
    refine flagged (.addThread rfl rfl rfl rfl rfl fun t other now => ?_)
    simpa [other] using now
  simp only [if_neg runs]
  by_cases asleep : (k.thread x).state.sleeping = true
  · simp only [asleep, if_true]
    have changed := (Carried.remove (k := k) (x := x)).trans (.modify (x := x) (f := (·.withPriority new)) (same _))
    cases queued : (k.thread x).queue with
    | none => exact flagged changed
    | some q => exact flagged (changed.trans (.enqueue q x))
  · simp only [if_neg asleep]
    exact flagged (.modify (same _))

theorem Carried.yield : k.Carried k.yield := by
  unfold Kernel.yield
  dsimp only
  split
  · split
    · exact .quiet rfl rfl rfl rfl rfl fun _ => id
    · refine ⟨rfl, rfl, rfl, rfl, fun t => ?_⟩
      show update k.threadTimeslice k.currentThread _ t = _ ∨ (update _ _ _ t = _ ∧ _)
      by_cases same : t = k.currentThread
      · exact .inl (by rw [same, update_self])
      · exact .inr ⟨update_of_ne same _ _, id⟩
  · exact .refl k

theorem Carried.rotateQueue (p : Priority cfg) : k.Carried (k.rotateQueue p) := by
  unfold Kernel.rotateQueue
  split
  · exact .refl k
  · exact .quiet rfl rfl rfl rfl rfl fun _ => id

theorem Carried.toQueueHead (x : T) : k.Carried (k.toQueueHead x) := by
  unfold Kernel.toQueueHead
  split
  · exact .quiet rfl rfl rfl rfl rfl fun _ => id
  · split
    · exact .quiet rfl rfl rfl rfl rfl fun _ => id
    · exact .refl k

theorem Carried.body [Fintype T] (c : Call cfg T Q) (noTick : c ≠ .timeslice) (noTurn : c ≠ .timesliceCpu)
    (noSwitch : ∀ t on, c ≠ .setTimesliceEnabled t on) : k.Carried (k.body c) := by
  cases c with
  | startCpu | lock | unlock | reschedule | unlockReschedule => exact .refl k
  | sleep => exact .sleep
  | wake t => exact .wake t
  | countedSleep => exact .countedSleep
  | countedWake t => exact .countedWake t
  | suspend t => exact .suspend t
  | resume t => exact .resume t
  | forceResume t => exact .forceResume t
  | release t => exact .release t
  | kill t =>
    simp only [Kernel.body]
    split
    · exact .exit
    · exact .kill t
  | exit => exact .exit
  | alarm t => exact .alarm t
  | setPriority t new => exact .setPriority t new
  | setSleepReason reason => exact .modify (f := (·.setSleepReason reason)) id
  | setWakeReason t reason => exact .modify (f := (·.setWakeReason reason)) id
  | yield => exact .yield
  | rotateQueue pri => exact .rotateQueue pri
  | toQueueHead t => exact .toQueueHead t
  | timeslice => exact absurd rfl noTick
  | timesliceCpu => exact absurd rfl noTurn
  | setTimesliceEnabled t on => exact absurd rfl (noSwitch t on)
  | enqueue q t => exact .enqueue q t
  | dequeue q => exact .dequeue q
  | remove q t => exact .queueRemove q t

variable [Fintype T]

theorem timesliceCpu_spent (on : k.timesliceEnabled k.currentThread = true) (spent : k.timesliceCount = 0)
    (runs : (k.thread k.currentThread).Running) : k.timesliceCpu.timesliceCount = cfg.timesliceTicks := by
  unfold timesliceCpu
  dsimp only
  split
  · rfl
  · next other => exact absurd ⟨on, spent, runs⟩ other

theorem timesliceCpu_idle
    (other : ¬ (k.timesliceEnabled k.currentThread = true ∧ k.timesliceCount = 0 ∧ (k.thread k.currentThread).Running)) :
    k.timesliceCpu.timesliceCount = k.timesliceCount := by
  unfold timesliceCpu
  dsimp only
  split
  · next all => exact absurd all other
  · rfl

theorem timesliceCpu_kept : k.timesliceCpu.timesliceEnabled = k.timesliceEnabled ∧
    k.timesliceCpu.threadTimeslice = k.threadTimeslice ∧ k.timesliceCpu.context = k.context := by
  unfold timesliceCpu
  dsimp only
  split
  · split <;> exact ⟨rfl, rfl, rfl⟩
  · exact ⟨rfl, rfl, rfl⟩

theorem Quanta.ticked (quanta : k.Quanta) (current : k'.currentThread = k.currentThread) (thread : k'.thread = k.thread)
    (enabled : k'.timesliceEnabled = k.timesliceEnabled) (slice : k'.threadTimeslice = k.threadTimeslice)
    (context : k'.context = k.context)
    (own : (k.thread k.currentThread).Running → k.timesliceEnabled k.currentThread = true →
      k.HasQuantum k.currentThread → 1 ≤ k'.timesliceCount ∧ k'.timesliceCount ≤ cfg.timesliceTicks) : k'.Quanta := by
  refine ⟨fun t runs on => ?_, fun t never => ?_⟩
  · rw [thread] at runs
    rw [enabled] at on
    unfold HasQuantum quantum
    rw [current, slice]
    split
    · next same =>
      subst same
      exact own runs on (quanta.left _ runs on)
    · next other => simpa [HasQuantum, quantum, other] using quanta.left t runs on
  · rw [slice]
    exact quanta.fresh t (by rw [← context, never])

theorem Quanta.timesliceCpu (quanta : k.Quanta) : k.timesliceCpu.Quanta := by
  obtain ⟨current, -, thread⟩ := timesliceCpu_fields (k := k)
  obtain ⟨enabled, slice, context⟩ := timesliceCpu_kept (k := k)
  refine quanta.ticked current thread enabled slice context fun runs on has => ?_
  have left : 1 ≤ k.timesliceCount ∧ k.timesliceCount ≤ cfg.timesliceTicks := by simpa [HasQuantum, quantum] using has
  rw [timesliceCpu_idle fun all => absurd all.2.1 (by omega)]
  exact left

theorem timesliceCpu_turns (on : k.timesliceEnabled k.currentThread = true) (spent : k.timesliceCount = 0)
    (runs : (k.thread k.currentThread).Running) :
    k.timesliceCpu.lists = k.lists.rotate (.run (k.thread k.currentThread).priority) ∧
      (k.timesliceCpu.lists.head (.run (k.thread k.currentThread).priority) ≠ some k.currentThread →
        k.timesliceCpu.needReschedule = true) := by
  unfold timesliceCpu
  dsimp only
  split
  · split
    · exact ⟨rfl, fun _ => rfl⟩
    · next stays => exact ⟨rfl, fun turned => absurd turned stays⟩
  · next other => exact absurd ⟨on, spent, runs⟩ other

theorem timeslice_last (last : k.timesliceCount = 1) : k.timeslice = (k.setTimesliceCount 0).timesliceCpu := by
  unfold timeslice
  rw [last]
  rfl

theorem timeslice_more (more : 1 < k.timesliceCount) : k.timeslice = k.setTimesliceCount (k.timesliceCount - 1) := by
  have down : decrement32 k.timesliceCount = k.timesliceCount - 1 := if_neg (by omega)
  unfold timeslice
  rw [down]
  exact if_neg (show ¬ k.timesliceCount - 1 = 0 by omega)

theorem timeslice_kept : k.timeslice.timesliceEnabled = k.timesliceEnabled ∧
    k.timeslice.threadTimeslice = k.threadTimeslice ∧ k.timeslice.context = k.context := by
  unfold timeslice
  dsimp only
  split
  · exact timesliceCpu_kept
  · exact ⟨rfl, rfl, rfl⟩

theorem Quanta.timeslice (quanta : k.Quanta) (some : 1 ≤ cfg.timesliceTicks) : k.timeslice.Quanta := by
  obtain ⟨current, -, thread⟩ := timeslice_fields (k := k)
  obtain ⟨enabled, slice, context⟩ := timeslice_kept (k := k)
  refine quanta.ticked current thread enabled slice context fun runs on has => ?_
  have left : 1 ≤ k.timesliceCount ∧ k.timesliceCount ≤ cfg.timesliceTicks := by simpa [HasQuantum, quantum] using has
  by_cases last : k.timesliceCount = 1
  · rw [timeslice_last last, timesliceCpu_spent (k := k.setTimesliceCount 0) on rfl runs]
    exact ⟨some, le_rfl⟩
  · rw [timeslice_more (by omega), setTimesliceCount_timesliceCount]
    omega

theorem Quanta.setTimesliceEnabled (quanta : k.Quanta) (on : Bool)
    (has : on = true → (k.thread x).Running → k.HasQuantum x) : (k.setTimesliceEnabled x on).Quanta := by
  refine ⟨fun t runs enabled => ?_, quanta.fresh⟩
  by_cases same : t = x
  · subst same
    exact has (by simpa using enabled) runs
  · exact quanta.left t runs (by simpa [same] using enabled)

theorem threadEntry_quanta (some : 1 ≤ cfg.timesliceTicks)
    (fresh : ∀ t, k.context t = none → k.threadTimeslice t = cfg.timesliceTicks)
    (saved : ∀ t, (k.thread t).Running → k.timesliceEnabled t = true →
      1 ≤ k.threadTimeslice t ∧ k.threadTimeslice t ≤ cfg.timesliceTicks) : (k.threadEntry x).Quanta := by
  refine ⟨fun t runs on => ?_, fun t never => ?_⟩
  · unfold HasQuantum
    by_cases same : t = x
    · have full : (k.threadEntry x).quantum t = cfg.timesliceTicks := by
        simp [same, quantum, threadEntry, timesliceReset, timesliceRestore]
      rw [full]
      exact ⟨some, le_rfl⟩
    · have kept : (k.threadEntry x).quantum t = k.threadTimeslice t := by
        simp [same, quantum, threadEntry, timesliceReset, timesliceRestore]
      rw [kept]
      exact saved t runs on
  · have never : update k.context x (Option.some 0) t = none := never
    show update k.threadTimeslice x cfg.timesliceTicks t = _
    by_cases same : t = x
    · rw [same, update_self]
    · rw [update_of_ne same] at never ⊢
      exact fresh t never

theorem switchContext_quanta (some : 1 ≤ cfg.timesliceTicks)
    (fresh : ∀ t, k.context t = none → k.threadTimeslice t = cfg.timesliceTicks)
    (saved : ∀ t, (k.thread t).Running → k.timesliceEnabled t = true →
      1 ≤ k.threadTimeslice t ∧ k.threadTimeslice t ≤ cfg.timesliceTicks) : (k.switchContext x).Quanta := by
  unfold switchContext
  split
  · exact threadEntry_quanta some fresh saved
  · have restored : ∀ k' : Kernel cfg T Q, k'.currentThread = x → k'.timesliceCount = k.threadTimeslice x →
        k'.threadTimeslice = k.threadTimeslice → k'.thread = k.thread → k'.timesliceEnabled = k.timesliceEnabled →
        k'.context = k.context → k'.Quanta := by
      intro k' current count slice thread enabled context
      refine ⟨fun t runs on => ?_, fun t never => ?_⟩
      · rw [thread] at runs
        rw [enabled] at on
        have left : k'.quantum t = k.threadTimeslice t := by
          unfold quantum
          rw [current, count, slice]
          split
          · next same => rw [same]
          · rfl
        unfold HasQuantum
        rw [left]
        exact saved t runs on
      · rw [slice]
        exact fresh t (by rw [← context, never])
    exact restored _ rfl rfl rfl rfl rfl rfl

theorem Quanta.unlockInner (quanta : k.Quanta) (some : 1 ≤ cfg.timesliceTicks) (newLock : Nat) :
    (k.unlockInner newLock).Quanta := by
  have plain : ∀ {k' : Kernel cfg T Q}, k'.currentThread = k.currentThread → k'.timesliceCount = k.timesliceCount →
      k'.timesliceEnabled = k.timesliceEnabled → k'.threadTimeslice = k.threadTimeslice → k'.context = k.context →
      k'.thread = k.thread → k'.Quanta := fun current count enabled slice context thread =>
    quanta.ticked current thread enabled slice context fun _ _ has => by simpa [HasQuantum, quantum, count] using has
  unfold Kernel.unlockInner
  dsimp only
  split
  · obtain ⟨next, isNext⟩ : ∃ next, k.schedule.2 = next := ⟨_, rfl⟩
    have pair : k.schedule = (k.schedule.1, next) := by rw [← isNext]
    rw [pair]
    cases next with
    | none => exact plain rfl rfl rfl rfl rfl rfl
    | some next =>
      dsimp only
      split
      · refine switchContext_quanta some (fun t never => ?_) fun t runs on => ?_
        · have never : update k.context k.currentThread (Option.some newLock) t = none := never
          show update k.threadTimeslice k.currentThread k.timesliceCount t = _
          by_cases same : t = k.currentThread
          · simp [same] at never
          · rw [update_of_ne same] at never ⊢
            exact quanta.fresh t never
        · have has := quanta.left t runs on
          show 1 ≤ update k.threadTimeslice k.currentThread k.timesliceCount t ∧
            update k.threadTimeslice k.currentThread k.timesliceCount t ≤ _
          by_cases same : t = k.currentThread
          · rw [same, update_self]
            simpa [same, HasQuantum, quantum] using has
          · rw [update_of_ne same]
            simpa [same, HasQuantum, quantum] using has
      · exact plain rfl rfl rfl rfl rfl rfl
  · exact plain rfl rfl rfl rfl rfl rfl

theorem Quanta.unlock (quanta : k.Quanta) (some : 1 ≤ cfg.timesliceTicks) : k.unlock.Quanta := by
  unfold Kernel.unlock
  split
  · exact quanta.unlockInner some 0
  · exact quanta.ticked rfl rfl rfl rfl rfl fun _ _ has => by simpa [HasQuantum, quantum] using has

variable {pri : T → Priority cfg} {idle : T} {s : Threads cfg T Q} {c : Call cfg T Q}

/-- A thread that may run is given back to timeslicing only with part of its quantum left: neither
is timeslicing enabled for one without, nor is the current thread, stopped under the lock and
drained by ticks in the meantime, made runnable again. -/
structure Refreshed (k : Kernel cfg T Q) (c : Call cfg T Q) : Prop where
  enabling : ∀ t, c = .setTimesliceEnabled t true → (k.thread t).Running → k.HasQuantum t
  returning : k.Returns (k.body c) k.currentThread → k.timesliceEnabled k.currentThread = true →
    k.HasQuantum k.currentThread

theorem Quanta.lock (quanta : k.Quanta) : k.lock.Quanta := ⟨quanta.left, quanta.fresh⟩

theorem Quanta.startCpu (quanta : k.Quanta) (some : 1 ≤ cfg.timesliceTicks) (begun : ∀ t, k.context t = none) :
    k.startCpu.Quanta := by
  unfold Kernel.startCpu
  obtain ⟨next, isNext⟩ : ∃ next, k.schedule.2 = next := ⟨_, rfl⟩
  have pair : k.schedule = (k.schedule.1, next) := by rw [← isNext]
  rw [pair]
  cases next with
  | none => exact ⟨quanta.left, quanta.fresh⟩
  | some next =>
    refine threadEntry_quanta some quanta.fresh fun t _ _ => ?_
    have full : k.schedule.1.threadTimeslice t = cfg.timesliceTicks := quanta.fresh t (begun t)
    rw [full]
    exact ⟨some, le_rfl⟩

theorem Quanta.call (quanta : k.Quanta) (some : 1 ≤ cfg.timesliceTicks) (governed : Governed False idle s k)
    (fit : k.Disciplined idle c) (refreshed : k.Refreshed c) : (k.call c).Quanta := by
  have same := governed.body_lock fit False.elim
  have back : k.lock.Returns (k.lock.body c) k.currentThread → k.timesliceEnabled k.currentThread = true →
      k.HasQuantum k.currentThread := by
    rintro ⟨stopped, runs⟩
    rw [same] at runs
    exact refreshed.returning ⟨stopped, runs⟩
  have carried : c ≠ .timeslice → c ≠ .timesliceCpu → (∀ t on, c ≠ .setTimesliceEnabled t on) → (k.lock.body c).Quanta :=
    fun noTick noTurn noSwitch => quanta.lock.carried (.body c noTick noTurn noSwitch) some back
  have bare : c ≠ .timeslice → c ≠ .timesliceCpu → (∀ t on, c ≠ .setTimesliceEnabled t on) → (k.body c).Quanta :=
    fun noTick noTurn noSwitch => quanta.carried (.body c noTick noTurn noSwitch) some refreshed.returning
  cases c with
  | startCpu => exact quanta.startCpu some fit
  | lock => exact quanta.lock
  | unlock => exact quanta.unlock some
  | reschedule => exact quanta.unlockInner some _
  | unlockReschedule => exact quanta.unlockInner some _
  | exit => exact (carried (by simp) (by simp) (by simp)).unlockInner some _
  | kill t =>
    simp only [call]
    split
    · next self =>
      subst self
      exact (quanta.lock.carried .exit some fun returns => back (by simpa [body] using returns)).unlockInner some _
    · exact (carried (by simp) (by simp) (by simp)).unlock some
  | yield =>
    have body := carried (by simp) (by simp) (by simp)
    simp only [call, yieldUnlock]
    split
    · exact body.unlockInner some _
    · exact body.unlock some
  | timeslice => exact quanta.timeslice some
  | timesliceCpu => exact quanta.timesliceCpu
  | setTimesliceEnabled t on =>
    refine quanta.setTimesliceEnabled on fun enabled runs => ?_
    subst enabled
    exact refreshed.enabling t rfl runs
  | setSleepReason reason => exact bare (by simp) (by simp) (by simp)
  | setWakeReason t reason => exact bare (by simp) (by simp) (by simp)
  | enqueue q t => exact bare (by simp) (by simp) (by simp)
  | dequeue q => exact bare (by simp) (by simp) (by simp)
  | remove q t => exact bare (by simp) (by simp) (by simp)
  | _ => exact (carried (by simp) (by simp) (by simp)).unlock some

theorem start_quanta (some : 1 ≤ cfg.timesliceTicks) : (start pri idle : Kernel cfg T Q).Quanta := by
  have full : ∀ t, ({ boot pri idle with currentThread := idle } : Kernel cfg T Q).quantum t = cfg.timesliceTicks :=
    fun t => ite_self _
  have has : ∀ t, ({ boot pri idle with currentThread := idle } : Kernel cfg T Q).HasQuantum t := by
    intro t
    unfold HasQuantum
    rw [full]
    exact ⟨some, le_rfl⟩
  have quanta : ({ boot pri idle with currentThread := idle } : Kernel cfg T Q).Quanta := ⟨fun t _ _ => has t, fun _ _ => rfl⟩
  exact (quanta.lock.carried (.resume idle) some fun _ _ => has _).unlock some

theorem reach_quanta {Ok : Kernel cfg T Q → Call cfg T Q → Prop} (some : 1 ≤ cfg.timesliceTicks)
    (last : pri idle = cfg.idlePriority) (ok : ∀ k c, Ok k c → k.Disciplined idle c ∧ k.Refreshed c)
    (reach : (machine pri idle Ok).Reach k) : (∃ s, Governed False idle s k) ∧ k.Quanta := by
  refine reach.invariant (P := fun k => (∃ s, Governed False idle s k) ∧ k.Quanta) ?_ ?_
  · rintro _ rfl
    exact ⟨⟨_, start_governed pri idle last⟩, start_quanta some⟩
  · rintro k _ ⟨⟨s, governed⟩, quanta⟩ ⟨c, allowed, rfl⟩
    obtain ⟨fit, refreshed⟩ := ok k c allowed
    exact ⟨⟨_, governed.call fit False.elim⟩, quanta.call some governed fit refreshed⟩

/-- A tick of the clock: its deferred service routine calls `timeslice` under the lock. -/
def tick (k : Kernel cfg T Q) : Kernel cfg T Q := ((k.call .lock).call .timeslice).call .unlock

theorem Orderly.tick (orderly : Orderly idle s k) : ∃ s', Orderly idle s' k.tick := by
  have still : ∀ {k : Kernel cfg T Q} {c : Call cfg T Q}, (k.body c).thread = k.thread → (∀ t, c ≠ .toQueueHead t) → k.Polite c := by
    intro k c same other
    refine ⟨fun t front => absurd front (other t), fun returns => absurd returns.2 ?_⟩
    rw [same]
    exact returns.1
  have locked := orderly.call (c := .lock) trivial (by rintro (⟨⟨⟩⟩ | ⟨⟨⟩⟩)) (still rfl (by simp))
  have ticked := locked.call (c := .timeslice) trivial (fun _ => Nat.succ_pos _) (still timeslice_fields.2.2 (by simp))
  have held : 0 < k.lock.timeslice.schedLock := by
    rw [timeslice_fields.2.1]
    exact Nat.succ_pos _
  exact ⟨_, ticked.call (c := .unlock) held (by rintro (⟨⟨⟩⟩ | ⟨⟨⟩⟩)) (still rfl (by simp))⟩

theorem Orderly.tick_last (orderly : Orderly idle s k) (unlocked : k.schedLock = 0)
    (on : k.timesliceEnabled k.currentThread = true) (last : k.timesliceCount = 1)
    (apart : k.lists.nodes.next k.currentThread ≠ k.currentThread) :
    k.tick.currentThread = k.lists.nodes.next k.currentThread := by
  obtain ⟨governed, fronted, calm⟩ := orderly
  obtain ⟨runs, first⟩ := governed.settled unlocked
  have head := (fronted.resolve_left (by simp [calm unlocked])) runs
  set p := (k.thread k.currentThread).priority with isLevel
  have turned : (k.lists.rotate (.run p)).head (.run p) = some (k.lists.nodes.next k.currentThread) := by
    rw [rotate_head_self, head]
    rfl
  obtain ⟨current, lock, thread⟩ := timeslice_fields (k := k.lock)
  obtain ⟨real, -⟩ := governed.lock.body (c := .timeslice) trivial False.elim
  have turning : k.lock.timeslice = (k.lock.setTimesliceCount 0).timesliceCpu := timeslice_last last
  obtain ⟨lists, due⟩ := timesliceCpu_turns (k := k.lock.setTimesliceCount 0) on rfl runs
  rw [← turning] at lists due
  have isNext : k.lock.timeslice.lists.head (.run p) = some (k.lists.nodes.next k.currentThread) := by
    rw [lists]
    exact turned
  have unlocking : k.tick = k.lock.timeslice.unlockInner 0 := by
    show k.lock.timeslice.unlock = _
    unfold unlock
    rw [if_pos]
    rw [lock]
    show k.schedLock + 1 - 1 = 0
    omega
  rw [unlocking]
  have flagged : k.lock.timeslice.needReschedule = true := due fun same => apart (Option.some.inj (isNext.symm.trans same))
  refine real.dispatch_head flagged isNext ?_ 0
  · show ∀ u, (k.lock.timeslice.thread u).Running → p ≤ (k.lock.timeslice.thread u).priority
    rw [thread]
    exact first

theorem Orderly.tick_more (orderly : Orderly idle s k) (unlocked : k.schedLock = 0) (more : 1 < k.timesliceCount) :
    k.tick.currentThread = k.currentThread ∧ k.tick.thread = k.thread ∧ k.tick.lists = k.lists ∧ k.tick.schedLock = 0 ∧
      k.tick.timesliceEnabled = k.timesliceEnabled ∧ k.tick.timesliceCount = k.timesliceCount - 1 := by
  obtain ⟨governed, -, calm⟩ := orderly
  obtain ⟨runs, -⟩ := governed.settled unlocked
  have counted : k.lock.timeslice = k.lock.setTimesliceCount (k.timesliceCount - 1) := timeslice_more more
  have same : k.tick = { k.lock.setTimesliceCount (k.timesliceCount - 1) with schedLock := 0 } := by
    show k.lock.timeslice.unlock = _
    rw [counted]
    unfold unlock
    rw [if_pos (show (k.lock.setTimesliceCount (k.timesliceCount - 1)).schedLock - 1 = 0 by simp [unlocked])]
    unfold unlockInner
    rw [if_neg]
    rintro (stopped | due)
    · exact stopped runs
    · exact absurd (due.symm.trans (calm unlocked)) (by simp)
  rw [same]
  exact ⟨rfl, rfl, rfl, rfl, rfl, rfl⟩

theorem Orderly.rotated_out (n : Nat) : ∀ {s : Threads cfg T Q} {k : Kernel cfg T Q}, Orderly idle s k →
    k.schedLock = 0 → k.timesliceEnabled k.currentThread = true →
    k.lists.nodes.next k.currentThread ≠ k.currentThread → k.timesliceCount = n + 1 →
    (Kernel.tick^[n + 1] k).currentThread = k.lists.nodes.next k.currentThread := by
  induction n with
  | zero =>
    intro s k orderly unlocked on apart count
    exact orderly.tick_last unlocked on count apart
  | succ n ih =>
    intro s k orderly unlocked on apart count
    obtain ⟨current, thread, lists, lock, enabled, left⟩ := orderly.tick_more unlocked (by omega)
    obtain ⟨s', after⟩ := orderly.tick
    have later := ih after lock (by rw [enabled, current, on]) (by rw [lists, current]; exact apart) (by omega)
    rw [lists, current] at later
    exact later

/-- In every disciplined run in which time slices are refreshed, a current thread that is timesliced
has part of its quantum left; if nothing is put in front of it either, then a thread that shares
its level is rotated out within so many ticks, in favour of the next one. -/
theorem quantum_kept {Ok : Kernel cfg T Q → Call cfg T Q → Prop} (some : 1 ≤ cfg.timesliceTicks)
    (last : pri idle = cfg.idlePriority) (ok : ∀ k c, Ok k c → k.Disciplined idle c ∧ k.Refreshed c)
    (reach : (machine pri idle Ok).Reach k) (on : k.timesliceEnabled k.currentThread = true) :
    ((k.thread k.currentThread).Running → 1 ≤ k.timesliceCount ∧ k.timesliceCount ≤ cfg.timesliceTicks) ∧
      ((∀ k c, Ok k c → k.Deferred c ∧ k.Polite c) → k.schedLock = 0 →
        (∃ u, u ≠ k.currentThread ∧ (k.thread u).Running ∧ (k.thread u).priority = (k.thread k.currentThread).priority) →
        ∃ n ≤ cfg.timesliceTicks, (tick^[n] k).currentThread = k.lists.nodes.next k.currentThread ∧
          k.lists.nodes.next k.currentThread ≠ k.currentThread) := by
  obtain ⟨-, quanta⟩ := reach_quanta some last ok reach
  have left : (k.thread k.currentThread).Running → 1 ≤ k.timesliceCount ∧ k.timesliceCount ≤ cfg.timesliceTicks :=
    fun runs => by simpa [HasQuantum, quantum] using quanta.left _ runs on
  refine ⟨left, fun polite unlocked shared => ?_⟩
  obtain ⟨s, orderly⟩ := reach_orderly last (fun k c allowed => ⟨(ok k c allowed).1, polite k c allowed⟩) reach
  obtain ⟨runs, -⟩ := orderly.governed.settled unlocked
  obtain ⟨least, most⟩ := left runs
  have apart := ((orderly.givesWay unlocked).2 shared).2
  refine ⟨k.timesliceCount, most, ?_, apart⟩
  obtain ⟨n, count⟩ : ∃ n, k.timesliceCount = n + 1 := ⟨k.timesliceCount - 1, by omega⟩
  rw [count]
  exact Orderly.rotated_out n orderly unlocked on apart count

theorem quantum_kept_twins : ∃ n ≤ 5, (tick^[n] twins).currentThread = 2 := by
  have reach : (machine ![1, 0, 0] 0 fun k c => k.Disciplined 0 c ∧ k.Refreshed c ∧ k.Deferred c ∧ k.Polite c).Reach
      twins :=
    twins_reach
      (fun k t still => ⟨trivial, ⟨by rintro t ⟨⟩, fun returns => absurd returns still⟩, by rintro (⟨⟨⟩⟩ | ⟨⟨⟩⟩),
        by rintro t ⟨⟩, fun returns => absurd returns still⟩)
      (fun k begun => ⟨begun, ⟨by rintro t ⟨⟩, fun returns => absurd returns.2 returns.1⟩, by rintro (⟨⟨⟩⟩ | ⟨⟨⟩⟩),
        by rintro t ⟨⟩, fun returns => absurd returns.2 returns.1⟩)
  have kept := quantum_kept (by decide) rfl (fun _ _ ok => ⟨ok.1, ok.2.1⟩) reach (by decide)
  obtain ⟨n, bound, turned, -⟩ := kept.2 (fun _ _ ok => ok.2.2) (by decide) (by decide)
  exact ⟨n, bound, turned.trans (by decide)⟩

/-- A thread that runs out its quantum with timeslicing disabled: enabled again, it has one of 2³² - 1. -/
theorem quantum_escapes :
    ¬ ∀ k : Kernel .twoLevels (Fin 3) Unit,
      (machine ![1, 0, 0] 0 fun k c => k.Disciplined 0 c ∧ k.Deferred c ∧ k.Polite c).Reach k →
      (k.thread k.currentThread).Running → k.timesliceEnabled k.currentThread = true →
        1 ≤ k.timesliceCount ∧ k.timesliceCount ≤ 5 := by
  intro always
  have step : ∀ {k : Kernel .twoLevels (Fin 3) Unit} (c : Call .twoLevels (Fin 3) Unit),
      (machine ![1, 0, 0] 0 fun k c => k.Disciplined 0 c ∧ k.Deferred c ∧ k.Polite c).Reach k →
      k.Disciplined 0 c → k.Deferred c → (∀ t, c ≠ .toQueueHead t) → ¬ k.Returns (k.body c) k.currentThread →
      (machine ![1, 0, 0] 0 fun k c => k.Disciplined 0 c ∧ k.Deferred c ∧ k.Polite c).Reach (k.call c) :=
    fun c reach fit deferred other still =>
      reach.next ⟨c, ⟨fit, deferred, fun t front => absurd front (other t), fun returns => absurd returns still⟩, rfl⟩
  have quiet : ∀ {k : Kernel .twoLevels (Fin 3) Unit} {c : Call .twoLevels (Fin 3) Unit},
      c ≠ .timeslice → c ≠ .timesliceCpu → k.Deferred c := fun noTick noTurn either => (either.elim noTick noTurn).elim
  have ticks : ∀ {k : Kernel .twoLevels (Fin 3) Unit},
      (machine ![1, 0, 0] 0 fun k c => k.Disciplined 0 c ∧ k.Deferred c ∧ k.Polite c).Reach k → 0 < k.schedLock →
      (machine ![1, 0, 0] 0 fun k c => k.Disciplined 0 c ∧ k.Deferred c ∧ k.Polite c).Reach (k.call .timeslice) := by
    intro k reach held
    have same : k.timeslice.thread = k.thread := timeslice_fields.2.2
    refine step .timeslice reach trivial (fun _ => held) (by simp) fun returns => returns.1 ?_
    rw [← same]
    exact returns.2
  have reach := step (.setTimesliceEnabled 1 false) (twins_reach
    (fun k t still => ⟨trivial, quiet (by simp) (by simp), by rintro t ⟨⟩, fun returns => absurd returns still⟩)
    (fun k begun => ⟨begun, quiet (by simp) (by simp), by rintro t ⟨⟩, fun returns => absurd returns.2 returns.1⟩))
    trivial (quiet (by simp) (by simp)) (by simp) fun returns => returns.1 returns.2
  have reach := step .lock reach trivial (quiet (by simp) (by simp)) (by simp) fun returns => returns.1 returns.2
  have reach := ticks (ticks (ticks (ticks (ticks reach (by decide)) (by decide)) (by decide)) (by decide)) (by decide)
  have reach := step (.setTimesliceEnabled 1 true) reach trivial (quiet (by simp) (by simp)) (by simp) fun returns =>
    returns.1 returns.2
  exact absurd (always _ (ticks reach (by decide)) (by decide) (by decide)) (by decide)

end Kernel

end Ecos
