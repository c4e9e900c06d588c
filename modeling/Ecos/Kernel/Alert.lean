import Ecos.Kernel.Dispatch

namespace Ecos
open Thread

namespace Kernel
variable {cfg : Config} {T Q : Type} [DecidableEq T] [DecidableEq Q]
variable {x : T} {k : Kernel cfg T Q} {q : Q}

/-- `Alert` in the middle of an operation on `x`, whatever `x` is to do. -/
def AlertBut (k : Kernel cfg T Q) (x : T) : Prop :=
  k.needReschedule = true ∨
    ∀ u, u ≠ x → (k.thread u).Running → (k.thread k.currentThread).priority ≤ (k.thread u).priority

theorem Alert.but (alert : k.Alert) (x : T) : k.AlertBut x := alert.imp_right fun first u _ => first u

theorem AlertBut.settle (alert : k.AlertBut x) (stopped : ¬ (k.thread x).Running) : k.Alert := by
  refine alert.imp_right fun first u runs => first u ?_ runs
  rintro rfl
  exact stopped runs

theorem AlertBut.congr {k' : Kernel cfg T Q} (alert : k.AlertBut x) (current : k'.currentThread = k.currentThread)
    (flag : k'.needReschedule = k.needReschedule)
    (pri : ∀ u, (k'.thread u).priority = (k.thread u).priority)
    (state : ∀ u, u ≠ x → (k'.thread u).state = (k.thread u).state) : k'.AlertBut x := by
  rcases alert with due | first
  · exact .inl (flag.trans due)
  · refine .inr fun u ne runs => ?_
    rw [current, pri, pri]
    exact first u ne ((state u ne).symm.trans runs)

theorem Alert.congr {k' : Kernel cfg T Q} (alert : k.Alert) (current : k'.currentThread = k.currentThread)
    (flag : k.needReschedule = true → k'.needReschedule = true)
    (pri : ∀ u, (k'.thread u).priority = (k.thread u).priority)
    (runs : ∀ u, (k'.thread u).Running → (k.thread u).Running) : k'.Alert := by
  rcases alert with due | first
  · exact .inl (flag due)
  · refine .inr fun u uRuns => ?_
    rw [current, pri, pri]
    exact first u (runs u uRuns)

theorem AlertBut.modify (alert : k.AlertBut x) {f : Thread cfg Q → Thread cfg Q}
    (pri : (f (k.thread x)).priority = (k.thread x).priority) : (k.modify x f).AlertBut x := by
  refine alert.congr rfl rfl ?_ ?_
  · intro u
    by_cases same : u = x
    · subst same; simpa using pri
    · simp [same]
  · intro u ne
    simp [ne]

theorem Alert.modify (alert : k.Alert) {f : Thread cfg Q → Thread cfg Q}
    (pri : (f (k.thread x)).priority = (k.thread x).priority)
    (runs : (f (k.thread x)).Running → (k.thread x).Running) : (k.modify x f).Alert := by
  refine alert.congr rfl id ?_ ?_
  · intro u
    by_cases same : u = x
    · subst same; simpa using pri
    · simp [same]
  · intro u
    by_cases same : u = x
    · subst same; simpa using runs
    · simp [same]

theorem AlertBut.remove (alert : k.AlertBut x) : (k.remove x).AlertBut x := by
  cases queued : (k.thread x).queue with
  | none => rwa [remove_none _ _ queued]
  | some q =>
    rw [remove_some _ _ queued]
    exact alert.modify (f := fun r => { r with queue := none }) rfl

theorem AlertBut.addThread (alert : k.AlertBut x) (alone : (k.thread x).queue = none) : (k.addThread x).Alert := by
  unfold Alert Foremost
  rw [addThread_needReschedule alone, addThread_thread alone, addThread_currentThread alone]
  simp only [setNeedRescheduleFor_needReschedule]
  split
  · exact .inl rfl
  · next calm =>
    push Not at calm
    refine alert.imp_right fun first u runs => ?_
    by_cases same : u = x
    · subst same; exact calm.1
    · exact first u same runs

theorem AlertBut.rejoin (alert : k.AlertBut x) (alone : (k.thread x).queue = none) :
    (if (k.thread x).Running then k.addThread x else k).Alert := by
  split
  · exact alert.addThread alone
  · next stopped => exact alert.settle stopped

section
variable (alert : k.Alert)
include alert

theorem Alert.wake (x : T) : (k.wake x).Alert := by
  unfold Kernel.wake
  split
  · exact ((alert.but x).modify (f := fun r => { r with state := r.state.clearSleepset }) rfl).remove.rejoin
      (by rw [remove_thread])
  · exact alert

theorem Alert.wakeFor (x : T) (reason : Reason) : ((k.setWakeReason x reason).wake x).Alert :=
  (alert.modify (f := (·.setWakeReason reason)) rfl (fun runs => runs)).wake x

theorem Alert.countedWake (x : T) : (k.countedWake x).Alert := by
  unfold Kernel.countedWake
  split
  · exact alert.wakeFor x .done
  · exact alert.modify rfl fun runs => runs

theorem Alert.release (x : T) : (k.release x).Alert := by
  unfold Kernel.release
  split
  · exact alert.wakeFor x .brk
  · exact alert

theorem Alert.alarm (x : T) : (k.alarm x).Alert := by
  unfold Kernel.alarm
  split
  any_goals exact alert
  · exact alert.wakeFor x .done
  · exact alert.wakeFor x .timeout

theorem Alert.stop {f : Thread cfg Q → Thread cfg Q}
    (pri : (f (k.thread x)).priority = (k.thread x).priority) (stopped : ¬ (f (k.thread x)).Running) :
    ((if (k.thread x).Running then k.remThread x else k).modify x f).Alert := by
  split <;> exact alert.modify pri fun runs => absurd runs stopped

theorem Alert.sleep : k.sleep.Alert := by
  refine alert.stop rfl ?_
  simp [Running, ThreadState.running]

theorem Alert.suspend (x : T) : (k.suspend x).Alert := by
  refine alert.stop rfl ?_
  simp [Running, suspended, ThreadState.running]

theorem Alert.countedSleep : k.countedSleep.Alert := by
  unfold Kernel.countedSleep
  dsimp only
  split
  · have reasoned : (k.setSleepReason .wait).Alert :=
      alert.modify (f := (·.setSleepReason .wait)) rfl fun runs => runs
    refine reasoned.sleep.modify rfl ?_
    simp [Running, ThreadState.running]
  · exact alert.modify rfl fun runs => runs

theorem Alert.unsuspend (sound : (k.thread x).Sound) {f : Thread cfg Q → Thread cfg Q}
    (pri : (f (k.thread x)).priority = (k.thread x).priority)
    (queue : (f (k.thread x)).queue = (k.thread x).queue)
    (sleeping : (f (k.thread x)).state.sleeping = (k.thread x).state.sleeping) :
    (if ((k.modify x f).thread x).Running then (k.modify x f).addThread x else k.modify x f).Alert := by
  have changed := (alert.but x).modify pri
  split
  · next runs =>
    refine changed.addThread ?_
    simp only [modify_thread, Function.update_self] at runs ⊢
    rw [queue]
    by_contra queued
    have asleep := sound.sleeping queued
    rw [← sleeping, show (f (k.thread x)).state = .running from runs] at asleep
    simp [ThreadState.running] at asleep
  · next stopped => exact changed.settle stopped

theorem Alert.resume (sound : (k.thread x).Sound) : (k.resume x).Alert := by
  unfold Kernel.resume
  split
  · next one =>
    refine Alert.unsuspend (k := k.cygAssert _) alert sound ?_ ?_ ?_ <;> simp [resumed, one]
  · next other =>
    refine alert.modify ?_ ?_ <;> simp only [resumed, if_neg other]
    · split <;> rfl
    · split <;> exact fun runs => runs

theorem Alert.forceResume (sound : (k.thread x).Sound) : (k.forceResume x).Alert := by
  unfold Kernel.forceResume
  split
  · next some =>
    refine Alert.unsuspend (k := k.cygAssert _) alert sound ?_ ?_ ?_ <;> simp [forceResumed, some]
  · exact alert

theorem Alert.exit : k.exit.Alert := by
  unfold Kernel.exit
  dsimp only
  split
  · exact alert
  · exact alert.modify (f := fun r => { r with state := .exitedOnly }) rfl fun dead => by
      simp [Running, ThreadState.exitedOnly, ThreadState.running] at dead

theorem Alert.kill (sound : (k.thread x).Sound) : (k.kill x).Alert := by
  have resumed := alert.forceResume sound
  unfold Kernel.kill
  dsimp only
  split
  · exact resumed.wake x
  · split
    · refine Alert.wake ?_ x
      refine resumed.stop rfl ?_
      simp [Running, ThreadState.exitedOnly, ThreadState.running]
    any_goals exact resumed
    all_goals exact resumed.wakeFor x .exit

theorem Alert.queueRemove (q : Q) (x : T) : (k.queueRemove q x).Alert :=
  alert.modify (f := fun r => { r with queue := none }) rfl fun runs => runs

theorem Alert.dequeue (q : Q) : (k.dequeue q).Alert := by
  unfold Kernel.dequeue
  split
  · exact alert
  · exact alert.modify (f := fun r => { r with queue := none }) rfl fun runs => runs

theorem Alert.enqueue [Fintype T] (q : Q) (x : T) : (k.enqueue q x).Alert :=
  alert.modify (f := fun r => { r with queue := some q }) rfl fun runs => runs

end

theorem AlertBut.flagged (alert : x ≠ k.currentThread → k.AlertBut x) :
    (if x = k.currentThread then k.setNeedReschedule else k.setNeedRescheduleFor x).Alert := by
  split
  · exact .inl rfl
  · next other =>
    unfold Alert Foremost
    simp only [setNeedRescheduleFor_needReschedule, setNeedRescheduleFor_thread, setNeedRescheduleFor_currentThread]
    split
    · exact .inl rfl
    · next calm =>
      push Not at calm
      refine (alert other).imp_right fun first u runs => ?_
      by_cases same : u = x
      · subst same; exact calm.1
      · exact first u same runs

theorem AlertBut.reprioritize (alert : k.AlertBut x) (other : x ≠ k.currentThread)
    (f : Thread cfg Q → Thread cfg Q) : (k.modify x f).AlertBut x := by
  refine alert.imp_right fun first u ne runs => ?_
  have current : ((k.modify x f).thread (k.modify x f).currentThread) = k.thread k.currentThread := by
    simp [Ne.symm other]
  rw [current]
  simpa [ne] using first u ne (by simpa [ne] using runs)

section
variable (alert : k.Alert)
include alert

theorem Alert.setPriority [Fintype T] (sound : (k.thread x).Sound) (new : Priority cfg) :
    (k.setPriority x new).Alert := by
  obtain ⟨state, queue, -, -⟩ := withPriority_fields (k.thread x) new
  unfold Kernel.setPriority
  by_cases runs : (k.thread x).state = .running
  · have alone : (((k.remThread x).modify x (·.withPriority new)).thread x).queue = none := by
      simp [queue, sound.queue_none runs]
    simp only [runs, if_true]
    refine AlertBut.flagged fun other => ?_
    rw [addThread_currentThread alone] at other
    have changed := AlertBut.reprioritize (k := k.remThread x) (alert.but x) other (·.withPriority new)
    exact (changed.addThread alone).but x
  simp only [if_neg runs]
  by_cases asleep : (k.thread x).state.sleeping = true
  · simp only [asleep, if_true]
    refine AlertBut.flagged fun other => ?_
    cases queued : (k.thread x).queue with
    | none =>
      simp only [queued, remove_none _ _ queued] at other ⊢
      exact (alert.but x).reprioritize other _
    | some q =>
      simp only [queued, remove_some _ _ queued] at other ⊢
      have changed := AlertBut.reprioritize (k := k.queueRemove q x) ((alert.queueRemove q x).but x) other
        (·.withPriority new)
      exact changed.modify (f := fun r => { r with queue := some q }) rfl
  · simp only [if_neg asleep]
    refine AlertBut.flagged fun other => ?_
    exact (alert.but x).reprioritize other _

theorem Alert.rotateQueue (p : Priority cfg) : (k.rotateQueue p).Alert := by
  unfold Kernel.rotateQueue
  split
  · exact alert
  · exact .inl rfl

theorem Alert.yield : k.yield.Alert := by
  unfold Kernel.yield
  dsimp only
  split
  · split
    · exact .inl rfl
    · exact alert
  · exact alert

theorem Alert.toQueueHead (x : T) : (k.toQueueHead x).Alert := by
  unfold Kernel.toQueueHead
  split
  · exact alert
  · split
    · refine alert.congr rfl ?_ (fun _ => rfl) (fun _ runs => runs)
      intro due
      simp only [setNeedRescheduleFor_needReschedule, setLists_needReschedule, due]
      split <;> rfl
    · exact alert

theorem Alert.timesliceCpu : k.timesliceCpu.Alert := by
  unfold Kernel.timesliceCpu
  dsimp only
  split
  · split
    · exact .inl rfl
    · exact alert
  · exact alert

theorem Alert.timeslice : k.timeslice.Alert := by
  have counted : ∀ n, (k.setTimesliceCount n).Alert := fun _ => alert
  unfold Kernel.timeslice
  dsimp only
  split
  · exact (counted _).timesliceCpu
  · exact counted _

end

end Kernel

end Ecos
