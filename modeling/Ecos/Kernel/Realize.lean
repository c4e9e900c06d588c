import Ecos.Kernel.Enqueue

namespace Ecos

namespace Kernel
variable {cfg : Config} {T Q : Type} [DecidableEq T] [DecidableEq Q]
variable {clean : Prop} {idle x : T} {k : Kernel cfg T Q} {L : ListId cfg Q → List T} {q : Q}
variable {s : Threads cfg T Q}

/-- The pointers, bitmap and fields of `k` realize the threads and queues `s`. -/
def Realizes (clean : Prop) (idle : T) (k : Kernel cfg T Q) (s : Threads cfg T Q) : Prop :=
  ∃ L, Linked clean idle k L ∧ view k L = s

theorem Linked.realizes (linked : Linked clean idle k L) : Realizes clean idle k (view k L) := ⟨L, linked, rfl⟩

theorem Realizes.thread_eq (real : Realizes clean idle k s) : s.thread = k.thread := by
  obtain ⟨L, -, rfl⟩ := real
  rfl

theorem Realizes.sound (real : Realizes clean idle k s) (x : T) : (k.thread x).Sound := by
  obtain ⟨L, linked, -⟩ := real
  exact linked.sound x

theorem Linked.congr (linked : Linked clean idle k L) {k' : Kernel cfg T Q} (thread : k'.thread = k.thread)
    (lists : k'.lists = k.lists) (map : k'.queueMap = k.queueMap)
    (held : clean → k.assertsHeld = true → k'.assertsHeld = true) : Linked clean idle k' L where
  rep := lists ▸ linked.rep
  map p := by simpa [mapBit, map] using linked.map p
  idleRuns := thread ▸ linked.idleRuns
  asserted isClean := ⟨held isClean (linked.asserted isClean).1, (linked.asserted isClean).2⟩
  place t := thread ▸ linked.place t
  sound t := thread ▸ linked.sound t

theorem Off.congr (off : Off clean idle k L x) {k' : Kernel cfg T Q} (thread : ∀ t, t ≠ x → k'.thread t = k.thread t)
    (lists : k'.lists = k.lists) (map : k'.queueMap = k.queueMap) (held : k'.assertsHeld = k.assertsHeld)
    (away : x ≠ idle) : Off clean idle k' L x where
  rep := lists ▸ off.rep
  map p := by simpa [mapBit, map] using off.map p
  idleRuns := by simpa [thread idle away.symm] using off.idleRuns
  asserted isClean := by simpa [held] using off.asserted isClean
  place t ne := by simpa [thread t ne] using off.place t ne
  sound t ne := by simpa [thread t ne] using off.sound t ne
  absent := off.absent

theorem Realizes.congr (real : Realizes clean idle k s) {k' : Kernel cfg T Q} (thread : k'.thread = k.thread)
    (lists : k'.lists = k.lists) (map : k'.queueMap = k.queueMap)
    (held : clean → k.assertsHeld = true → k'.assertsHeld = true) : Realizes clean idle k' s := by
  obtain ⟨L, linked, rfl⟩ := real
  exact ⟨L, linked.congr thread lists map held, by simp [view, thread]⟩

theorem Linked.not_idle (linked : Linked clean idle k L) (stopped : ¬ (k.thread x).Running) : x ≠ idle := by
  rintro rfl
  exact stopped linked.idleRuns

theorem view_queueRemove (l : List T) : view (k.queueRemove q x) (Function.update L (.wait q) l) =
      ((view k L).setQueue q l).modify x fun r => { r with queue := none } := by
  simp only [view, queueRemove, Threads.setQueue, Threads.modify, Threads.setThread, Threads.mk.injEq]
  refine ⟨rfl, ?_⟩
  funext r
  by_cases same : r = q
  · subst same; simp
  · simp [same]

theorem view_enqueue [Fintype T] : view (k.enqueue q x)
      (Function.update L (.wait q) (placeQueued (fun u => (k.thread u).priority) x (L (.wait q)))) =
      (view k L).enqueue q x := by
  simp only [view, Threads.enqueue, Threads.setQueue, Threads.modify, Threads.setThread, Threads.mk.injEq]
  refine ⟨rfl, ?_⟩
  funext r
  by_cases same : r = q
  · subst same; simp
  · simp [same]

theorem Linked.detach (linked : Linked clean idle k L) (stopped : ¬ (k.thread x).Running)
    {f : Thread cfg Q → Thread cfg Q} (keeps : (f (k.thread x)).queue = (k.thread x).queue) :
    ∃ L', Off clean idle ((k.modify x f).remove x) L' x ∧
      view ((k.modify x f).remove x) L' = ((view k L).modify x f).remove x := by
  have away := linked.not_idle stopped
  cases queued : (k.thread x).queue with
  | none =>
    have alone : ((k.modify x f).thread x).queue = none := by simp [keeps, queued]
    have alone' : (((view k L).modify x f).thread x).queue = none := alone
    refine ⟨L, ?_, ?_⟩
    · rw [remove_none _ _ alone]
      exact (linked.off (by rw [Thread.location_stopped stopped, queued]; rfl)).modify fun same => absurd same away
    · rw [remove_none _ _ alone]
      simp only [Threads.remove, alone']
      rfl
  | some q =>
    have on : ((k.modify x f).thread x).queue = some q := by simp [keeps, queued]
    have on' : (((view k L).modify x f).thread x).queue = some q := on
    rw [remove_some _ _ on]
    refine ⟨_, (linked.queueRemove queued).congr ?_ rfl rfl rfl away, ?_⟩
    · intro t ne
      simp [Kernel.queueRemove, ne]
    · simp only [Threads.remove, on', view_queueRemove]
      rfl

theorem modify_modify (f g : Thread cfg Q → Thread cfg Q) : (k.modify x g).modify x f = k.modify x (f ∘ g) := by
  simp [modify]

theorem Threads.modify_modify (f g : Thread cfg Q → Thread cfg Q) : (s.modify x g).modify x f = s.modify x (f ∘ g) := by
  simp [Threads.modify, Threads.setThread]

theorem remove_thread : (k.remove x).thread x = { k.thread x with queue := none } := by
  cases queued : (k.thread x).queue with
  | none => rw [remove_none _ _ queued, ← queued]
  | some q => simp [remove_some _ _ queued, queueRemove]

theorem Off.rejoin (off : Off clean idle k L x) (sound : (k.thread x).Sound) (alone : (k.thread x).queue = none) :
    Realizes clean idle (if (k.thread x).Running then k.addThread x else k) (view k L) := by
  split
  · next runs =>
    refine ⟨_, off.addThread runs sound, ?_⟩
    rw [view_update_run]
    simp [view, addThread_thread alone]
  · next stopped =>
    refine ⟨L, off.settle ?_ sound, rfl⟩
    rw [Thread.location_stopped stopped, alone]
    rfl

theorem Linked.wakeWith (linked : Linked clean idle k L) {g : Thread cfg Q → Thread cfg Q}
    (state : (g (k.thread x)).state = (k.thread x).state) (queue : (g (k.thread x)).queue = (k.thread x).queue)
    (pri : (g (k.thread x)).priority = (k.thread x).priority)
    (count : (g (k.thread x)).suspendCount = (k.thread x).suspendCount) :
    Realizes clean idle ((k.modify x g).wake x) (((view k L).modify x g).wake x) := by
  have known := linked.sound x
  have sameThread : ((view k L).modify x g).thread = (k.modify x g).thread := rfl
  simp only [wake, Threads.wake, sameThread]
  split
  · next asleep =>
    have stopped : ¬ (k.thread x).Running := by
      intro runs
      simp only [modify_thread, Function.update_self, state, show (k.thread x).state = .running from runs] at asleep
      simp [ThreadState.inSleepset, ThreadState.running] at asleep
    rw [modify_modify, Threads.modify_modify]
    obtain ⟨L', off, seen⟩ := linked.detach stopped
      (f := (fun r => { r with state := r.state.clearSleepset }) ∘ g) (by simpa using queue)
    rw [← seen]
    refine off.rejoin ⟨?_, ?_, ?_⟩ ?_ <;> rw [remove_thread]
    · simp
    · simp
    · simpa [count, state, ThreadState.clearSleepset] using known.counted
  · next awake =>
    have alone : (k.thread x).queue = none := by
      by_contra queued
      simp [ThreadState.inSleepset, state, known.sleeping queued] at awake
    have runs : (g (k.thread x)).Running ↔ (k.thread x).Running := by simp [Thread.Running, state]
    refine ⟨L, linked.modify ?_ ⟨?_, ?_, ?_⟩ ?_, rfl⟩
    · simp [Thread.location, runs, queue, pri]
    · simp [queue, alone]
    · simp [queue, alone]
    · simpa [count, state] using known.counted
    · rintro rfl
      exact runs.mpr linked.idleRuns

section
variable (real : Realizes clean idle k s)
include real

theorem Realizes.wake (x : T) : Realizes clean idle (k.wake x) (s.wake x) := by
  obtain ⟨L, linked, rfl⟩ := real
  have woken := linked.wakeWith (x := x) (g := id) rfl rfl rfl rfl
  simpa [modify, Threads.modify, Threads.setThread] using woken

theorem Realizes.wakeFor (x : T) (reason : Reason) :
    Realizes clean idle ((k.setWakeReason x reason).wake x) ((s.setWakeReason x reason).wake x) := by
  obtain ⟨L, linked, rfl⟩ := real
  exact linked.wakeWith rfl rfl rfl rfl

theorem Realizes.release (x : T) : Realizes clean idle (k.release x) (s.release x) := by
  have woken := real.wakeFor x .brk
  have same := congrFun real.thread_eq x
  unfold Kernel.release Threads.release
  rw [same]
  cases reason : (k.thread x).sleepReason <;> simp [Reason.blocking] <;> assumption

theorem Realizes.alarm (x : T) : Realizes clean idle (k.alarm x) (s.alarm x) := by
  have delayed := real.wakeFor x .done
  have timedOut := real.wakeFor x .timeout
  have same := congrFun real.thread_eq x
  unfold Kernel.alarm Threads.alarm
  rw [same]
  cases reason : (k.thread x).sleepReason <;> simp <;> assumption

theorem Realizes.modify {f : Thread cfg Q → Thread cfg Q}
    (state : (f (k.thread x)).state = (k.thread x).state) (queue : (f (k.thread x)).queue = (k.thread x).queue)
    (pri : (f (k.thread x)).priority = (k.thread x).priority)
    (count : 0 < (f (k.thread x)).suspendCount → 0 < (k.thread x).suspendCount)
    (reason : (k.thread x).queue ≠ none → (f (k.thread x)).sleepReason.blocking = true) :
    Realizes clean idle (k.modify x f) (s.modify x f) := by
  obtain ⟨L, linked, rfl⟩ := real
  have known := linked.sound x
  have runs : (f (k.thread x)).Running ↔ (k.thread x).Running := by simp [Thread.Running, state]
  refine ⟨L, linked.modify ?_ ⟨?_, ?_, ?_⟩ ?_, rfl⟩
  · simp [Thread.location, runs, queue, pri]
  · simpa [queue, state] using known.sleeping
  · simpa [queue] using reason
  · rw [state]
    exact known.counted ∘ count
  · rintro rfl
    exact runs.mpr linked.idleRuns

theorem Realizes.countedWake (x : T) : Realizes clean idle (k.countedWake x) (s.countedWake x) := by
  have woken := real.wakeFor x .done
  have same := congrFun real.thread_eq x
  unfold Kernel.countedWake Threads.countedWake
  rw [same]
  split
  · exact woken
  · exact real.modify rfl rfl rfl id (real.sound x).blocking

/-- The thread stops running and is on no list afterwards, or it was stopped
already and stays where it is. -/
theorem Realizes.stop (away : x ≠ idle)
    (home : clean → (k.thread x).Running → (k.thread x).priority ≠ cfg.idlePriority)
    {f : Thread cfg Q → Thread cfg Q} (stopped : ¬ (f (k.thread x)).Running)
    (queue : (f (k.thread x)).queue = (k.thread x).queue) (sound : (f (k.thread x)).Sound) :
    Realizes clean idle ((if (k.thread x).Running then k.remThread x else k).modify x f) (s.modify x f) := by
  obtain ⟨L, linked, rfl⟩ := real
  split
  · next runs =>
    have alone := (linked.sound x).queue_none runs
    have off := (linked.remThread runs fun isClean => home isClean runs).modify (f := f) fun same => absurd same away
    refine ⟨_, off.settle ?_ ?_, ?_⟩
    · simp [Thread.location_stopped, stopped, queue, alone]
    · simpa using sound
    · rw [view_update_run]
      rfl
  · next already =>
    refine ⟨L, linked.modify ?_ sound fun same => absurd same away, rfl⟩
    rw [Thread.location_stopped stopped, Thread.location_stopped already, queue]

theorem Realizes.suspend (away : x ≠ idle)
    (home : clean → (k.thread x).Running → (k.thread x).priority ≠ cfg.idlePriority) :
    Realizes clean idle (k.suspend x) (s.suspend x) := by
  have known := real.sound x
  refine real.stop away home ?_ rfl ⟨known.sleeping, known.blocking, fun _ => rfl⟩
  simp [Thread.Running, Thread.suspended, ThreadState.running]

theorem Realizes.sleep (away : k.currentThread ≠ idle)
    (home : clean → (k.thread k.currentThread).Running → (k.thread k.currentThread).priority ≠ cfg.idlePriority) :
    Realizes clean idle k.sleep (s.sleep k.currentThread) := by
  have known := real.sound k.currentThread
  refine real.stop (f := fun r => { r with state := { r.state with sleeping := true } }) away home ?_ rfl
    ⟨fun _ => rfl, known.blocking, known.counted⟩
  simp [Thread.Running, ThreadState.running]

theorem Realizes.setSleepReason (reason : Reason)
    (fits : (k.thread k.currentThread).queue ≠ none → reason.blocking = true) :
    Realizes clean idle (k.setSleepReason reason) (s.setSleepReason k.currentThread reason) :=
  real.modify rfl rfl rfl id fits

theorem Realizes.setWakeReason {reason : Reason} (alone : (k.thread x).queue = none) :
    Realizes clean idle (k.setWakeReason x reason) (s.setWakeReason x reason) :=
  real.modify rfl rfl rfl id fun queued => absurd alone queued

theorem Realizes.stopped {f : Thread cfg Q → Thread cfg Q}
    (before : ¬ (k.thread x).Running) (after : ¬ (f (k.thread x)).Running)
    (queue : (f (k.thread x)).queue = (k.thread x).queue) (sound : (f (k.thread x)).Sound) :
    Realizes clean idle (k.modify x f) (s.modify x f) := by
  have away : x ≠ idle := by
    obtain ⟨L, linked, -⟩ := real
    exact linked.not_idle before
  have halted := real.stop away (fun _ runs => absurd runs before) after queue sound
  rwa [if_neg before] at halted

theorem Realizes.countedSleep (away : k.currentThread ≠ idle)
    (home : clean → (k.thread k.currentThread).Running → (k.thread k.currentThread).wakeupCount = 0 →
      (k.thread k.currentThread).priority ≠ cfg.idlePriority) :
    Realizes clean idle k.countedSleep (s.countedSleep k.currentThread) := by
  have same := congrFun real.thread_eq k.currentThread
  simp only [Kernel.countedSleep, Threads.countedSleep, same]
  split
  · next none =>
    have reasoned := real.setSleepReason .wait fun _ => rfl
    have asleep := reasoned.sleep away fun isClean runs => by
      simpa [Kernel.setSleepReason] using home isClean
        (by simpa [Kernel.setSleepReason, Thread.Running] using runs) none
    have sleeping : ((k.setSleepReason .wait).sleep.thread k.currentThread).state.sleeping = true := by
      simp [Kernel.sleep, Kernel.setSleepReason]
    have known := asleep.sound k.currentThread
    refine asleep.stopped (f := fun r => { r with state := { r.state with countsleep := true } })
      ?_ ?_ rfl ⟨known.sleeping, known.blocking, known.counted⟩
    · intro runs
      simp [show _ = ThreadState.running from runs, ThreadState.running] at sleeping
    · simp [Thread.Running, ThreadState.running]
  · exact real.modify rfl rfl rfl id (real.sound k.currentThread).blocking

theorem Realizes.cygAssert {test : Bool} (true : clean → test = true) : Realizes clean idle (k.cygAssert test) s := by
  refine real.congr rfl rfl rfl ?_
  intro isClean held
  simp [held, true isClean]

/-- A suspension ends: unless the thread still sleeps or is dead, it goes back
to its run queue. -/
theorem Realizes.unsuspend (counted : 0 < (k.thread x).suspendCount) {f : Thread cfg Q → Thread cfg Q}
    (state : (f (k.thread x)).state = { (k.thread x).state with suspended := false })
    (queue : (f (k.thread x)).queue = (k.thread x).queue)
    (reason : (f (k.thread x)).sleepReason = (k.thread x).sleepReason)
    (count : (f (k.thread x)).suspendCount = 0) :
    Realizes clean idle
      (if ((k.modify x f).thread x).Running then (k.modify x f).addThread x else k.modify x f) (s.modify x f) := by
  have suspended := (real.sound x).counted counted
  have stopped : ¬ (k.thread x).Running := by
    intro runs
    simp [show _ = ThreadState.running from runs, ThreadState.running] at suspended
  have record : (k.modify x f).thread x = f (k.thread x) := by simp
  rw [record]
  split
  · next runs =>
    obtain ⟨L, linked, rfl⟩ := real
    have alone : (k.thread x).queue = none := by
      by_contra queued
      have asleep := (linked.sound x).sleeping queued
      have zero : (f (k.thread x)).state = .running := runs
      simp [state, ThreadState.running, asleep] at zero
    have off := (linked.off (by rw [Thread.location_stopped stopped, alone]; rfl)).modify (f := f)
      fun same => absurd same (linked.not_idle stopped)
    have back := off.rejoin ⟨by simp [queue, alone], by simp [queue, alone], by simp [count]⟩ (by simp [queue, alone])
    rw [record, if_pos runs] at back
    exact back
  · next still =>
    have known := real.sound x
    refine real.stopped stopped still queue ⟨?_, ?_, by simp [count]⟩
    · simpa [queue, state] using known.sleeping
    · simpa [queue, reason] using known.blocking

theorem Realizes.resume (x : T) : Realizes clean idle (k.resume x) (s.resume x) := by
  unfold Kernel.resume Threads.resume
  split
  · next one =>
    have marked : Realizes clean idle (k.cygAssert (k.thread x).state.suspended) s :=
      real.cygAssert fun _ => (real.sound x).counted (by omega)
    refine marked.unsuspend ?_ ?_ ?_ ?_ ?_ <;> simp [Thread.resumed, one]
  · next other =>
    refine real.modify ?_ ?_ ?_ ?_ ?_ <;> simp only [Thread.resumed, if_neg other]
    · split <;> rfl
    · split <;> rfl
    · split <;> rfl
    · split <;> simp [*]
    · split <;> exact (real.sound x).blocking

theorem Realizes.forceResume (x : T) : Realizes clean idle (k.forceResume x) (s.forceResume x) := by
  have same := congrFun real.thread_eq x
  unfold Kernel.forceResume Threads.forceResume
  split
  · next some =>
    have marked : Realizes clean idle (k.cygAssert (k.thread x).state.suspended) s :=
      real.cygAssert fun _ => (real.sound x).counted some
    refine marked.unsuspend ?_ ?_ ?_ ?_ ?_ <;> simp [Thread.forceResumed, some]
  · next none =>
    have fixed : (s.thread x).forceResumed = s.thread x := by
      rw [same]
      simp [Thread.forceResumed, none]
    simpa [Threads.modify, Threads.setThread, fixed] using real

end

theorem modify_remThread {f : Thread cfg Q → Thread cfg Q} (pri : (f (k.thread x)).priority = (k.thread x).priority) :
    (k.modify x f).remThread x = (k.remThread x).modify x f := by
  have same : ((k.modify x f).thread x).priority = (k.thread x).priority := by simp [pri]
  simp only [remThread, cygAssert_thread, same]
  rfl

theorem Thread.Sound.uncounted {r : Thread cfg Q} (sound : r.Sound) (runs : r.Running) : r.suspendCount = 0 := by
  by_contra counted
  have suspended := sound.counted (by omega)
  simp [show _ = ThreadState.running from runs, ThreadState.running] at suspended

theorem Realizes.die (real : Realizes clean idle k s) (away : x ≠ idle) (alone : (k.thread x).queue = none)
    (zero : (k.thread x).suspendCount = 0)
    (home : clean → (k.thread x).Running → (k.thread x).priority ≠ cfg.idlePriority) :
    Realizes clean idle
      ((if (k.thread x).Running then k.remThread x else k).modify x fun r => { r with state := .exitedOnly })
      (s.modify x fun r => { r with state := .exitedOnly }) := by
  refine real.stop away home ?_ rfl ⟨?_, ?_, ?_⟩
  · simp [Thread.Running, ThreadState.exitedOnly, ThreadState.running]
  · exact fun queued => absurd alone queued
  · exact fun queued => absurd alone queued
  · simp [zero]

theorem Realizes.exit (real : Realizes clean idle k s) (away : k.currentThread ≠ idle)
    (runs : (k.thread k.currentThread).Running)
    (home : clean → (k.thread k.currentThread).priority ≠ cfg.idlePriority) :
    Realizes clean idle k.exit (s.exit k.currentThread) := by
  have same := congrFun real.thread_eq k.currentThread
  have known := real.sound k.currentThread
  have alive : (k.thread k.currentThread).state ≠ .exitedOnly := by
    rw [show _ = ThreadState.running from runs]
    decide
  have dead := real.die away (known.queue_none runs) (Thread.Sound.uncounted known runs) fun isClean _ => home isClean
  rw [if_pos runs] at dead
  simp only [Kernel.exit, Threads.exit, same, if_neg alive]
  rwa [modify_remThread rfl]

theorem forceResumed_fields (r : Thread cfg Q) : r.forceResumed.wakeReason = r.wakeReason ∧
    r.forceResumed.sleepReason = r.sleepReason ∧ r.forceResumed.priority = r.priority ∧
    r.forceResumed.suspendCount = 0 := by
  unfold Thread.forceResumed
  split
  · exact ⟨rfl, rfl, rfl, rfl⟩
  · exact ⟨rfl, rfl, rfl, by omega⟩

theorem Realizes.kill (real : Realizes clean idle k s) (away : x ≠ idle)
    (home : clean → (k.thread x).forceResumed.Running → (k.thread x).wakeReason ≠ .exit →
      (k.thread x).sleepReason = .none → (k.thread x).priority ≠ cfg.idlePriority) :
    Realizes clean idle (k.kill x) (s.kill x) := by
  have resumed := real.forceResume x
  have same := congrFun resumed.thread_eq x
  have record : (k.forceResume x).thread x = (k.thread x).forceResumed := by
    rw [← same, ← congrFun real.thread_eq x]
    simp [Threads.forceResume, Threads.modify, Threads.setThread]
  obtain ⟨woken, reason, pri, zero⟩ := forceResumed_fields (k.thread x)
  rw [← record] at woken reason pri zero
  simp only [Kernel.kill, Threads.kill, same]
  split
  · exact resumed.wake x
  next pending =>
  cases sleeping : ((k.forceResume x).thread x).sleepReason with
  | none =>
    have alone : ((k.forceResume x).thread x).queue = Option.none := by
      by_contra queued
      simpa [sleeping, Reason.blocking] using (resumed.sound x).blocking queued
    refine (resumed.die away alone zero ?_).wake x
    intro isClean runs
    rw [pri]
    exact home isClean (record ▸ runs) (woken ▸ pending) (reason ▸ sleeping)
  | destruct | brk | exit | done => exact resumed
  | wait | timeout | delay => exact resumed.wakeFor x .exit

theorem Realizes.queueRemove (real : Realizes clean idle k s) (queued : (k.thread x).queue = some q) :
    Realizes clean idle (k.queueRemove q x) (s.remove x) := by
  obtain ⟨L, linked, rfl⟩ := real
  have known := linked.sound x
  have record : (k.queueRemove q x).thread x = { k.thread x with queue := none } := by
    simp [queueRemove]
  have stopped : ¬ ((k.queueRemove q x).thread x).Running := by
    intro runs
    have asleep := known.sleeping (by simp [queued])
    rw [record] at runs
    simp [show (k.thread x).state = ThreadState.running from runs, ThreadState.running] at asleep
  refine ⟨_, (linked.queueRemove queued).settle ?_ ⟨?_, ?_, ?_⟩, ?_⟩
  · rw [Thread.location_stopped stopped, record]
    rfl
  · simp [record]
  · simp [record]
  · simpa [record] using known.counted
  · rw [view_queueRemove]
    simp only [Threads.remove, show ((view k L).thread x).queue = some q from queued]
    rfl

theorem Linked.queue_of_mem (linked : Linked clean idle k L) (mem : x ∈ L (.wait q)) :
    (k.thread x).queue = some q := by
  have at' := (linked.place x _).mp mem
  by_cases runs : (k.thread x).Running
  · simp [Thread.location_running runs] at at'
  · rw [Thread.location_stopped runs, Option.map_eq_some_iff] at at'
    obtain ⟨r, queued, same⟩ := at'
    cases same
    exact queued

theorem Linked.mem_run_iff (linked : Linked clean idle k L) {p : Priority cfg} :
    x ∈ L (.run p) ↔ (k.thread x).Running ∧ (k.thread x).priority = p := by
  rw [linked.place x]
  by_cases runs : (k.thread x).Running
  · simp [Thread.location_running runs, runs]
  · simp [Thread.location_stopped runs, runs]

theorem Realizes.dequeue (real : Realizes clean idle k s) (q : Q) :
    Realizes clean idle (k.dequeue q) (s.dequeue q) := by
  obtain ⟨L, linked, rfl⟩ := real
  have heads := linked.rep.heads (.wait q)
  cases members : L (.wait q) with
  | nil =>
    have none : k.lists.head (.wait q) = none := by rw [heads, members]; rfl
    simpa [dequeue, Threads.dequeue, view, members, none] using linked.realizes
  | cons x rest =>
    have some : k.lists.head (.wait q) = some x := by rw [heads, members]; rfl
    have queued := linked.queue_of_mem (show x ∈ L (.wait q) by simp [members])
    have removed := linked.realizes.queueRemove queued
    have kernel : k.dequeue q = k.queueRemove q x := by
      simp [Kernel.dequeue, Kernel.queueRemove, some, Ring.Store.remove, Kernel.modify, Kernel.setLists]
    have threads : (view k L).dequeue q = (view k L).remove x := by
      simp [Threads.dequeue, Threads.remove, view, members, queued]
    rwa [kernel, threads]

theorem Realizes.enqueue [Fintype T] (real : Realizes clean idle k s) (asleep : (k.thread x).state.sleeping = true)
    (alone : (k.thread x).queue = none) (blocked : (k.thread x).sleepReason.blocking = true) :
    Realizes clean idle (k.enqueue q x) (s.enqueue q x) := by
  obtain ⟨L, linked, rfl⟩ := real
  have stopped : ¬ (k.thread x).Running := by
    intro runs
    simp [show _ = ThreadState.running from runs, ThreadState.running] at asleep
  have off := linked.off (x := x) (by rw [Thread.location_stopped stopped, alone]; rfl)
  exact ⟨_, off.enqueue asleep blocked (linked.sound x).counted, view_enqueue⟩

end Kernel

open Function (update)
open List Thread Kernel Realizes

namespace Kernel
variable {cfg : Config} {T Q : Type} [DecidableEq T] [DecidableEq Q]
variable {clean : Prop} {idle x : T} {k : Kernel cfg T Q} {L : ListId cfg Q → List T} {q : Q}
variable {s : Threads cfg T Q}

theorem withPriority_fields (r : Thread cfg Q) (new : Priority cfg) :
    (r.withPriority new).state = r.state ∧ (r.withPriority new).queue = r.queue ∧
      (r.withPriority new).sleepReason = r.sleepReason ∧ (r.withPriority new).suspendCount = r.suspendCount := by
  unfold withPriority
  split <;> exact ⟨rfl, rfl, rfl, rfl⟩

theorem withPriority_sound {r : Thread cfg Q} (sound : r.Sound) (new : Priority cfg) : (r.withPriority new).Sound := by
  obtain ⟨state, queue, reason, count⟩ := withPriority_fields r new
  exact ⟨by rw [queue, state]; exact sound.sleeping, by rw [queue, reason]; exact sound.blocking,
    by rw [count, state]; exact sound.counted⟩

theorem Realizes.flagged (real : Realizes clean idle k s) (test : Prop) [Decidable test] (x : T) :
    Realizes clean idle (if test then k.setNeedReschedule else k.setNeedRescheduleFor x) s := by
  split <;> exact real.congr rfl rfl rfl fun _ held => held

theorem Realizes.setPriority [Fintype T] (real : Realizes clean idle k s) (new : Priority cfg)
    (home : clean → (k.thread x).Running → (k.thread x).priority ≠ cfg.idlePriority) :
    Realizes clean idle (k.setPriority x new) (s.setPriority x new) := by
  have known := real.sound x
  have same := congrFun real.thread_eq x
  obtain ⟨state, queue, reason, count⟩ := withPriority_fields (k.thread x) new
  have keeps : ((k.thread x).withPriority new).Running ↔ (k.thread x).Running := by simp [Running, state]
  unfold Kernel.setPriority
  by_cases runs : (k.thread x).state = .running
  · have awake : (k.thread x).state.sleeping = false := by rw [runs]; rfl
    have alone := known.queue_none runs
    simp only [runs, if_true]
    refine flagged ?_ _ _
    obtain ⟨L, linked, rfl⟩ := real
    have off := (linked.remThread runs fun isClean => home isClean runs).modify (f := (·.withPriority new))
      fun _ => keeps.mpr runs
    have back := off.rejoin (by simpa using withPriority_sound known new) (by simp [queue, alone])
    have now : (((k.remThread x).modify x (·.withPriority new)).thread x).Running := by simpa using keeps.mpr runs
    rw [if_pos now, view_update_run] at back
    simpa [Threads.setPriority, same, awake] using back
  simp only [if_neg runs]
  by_cases asleep : (k.thread x).state.sleeping = true
  · simp only [asleep, if_true]
    refine flagged ?_ _ _
    cases queued : (k.thread x).queue with
    | none =>
      have changed := real.stopped (f := (·.withPriority new)) runs (keeps.not.mpr runs) queue
        (withPriority_sound known new)
      simpa [Threads.setPriority, same, asleep, queued, remove_none _ _ queued] using changed
    | some q =>
      obtain ⟨L, linked, rfl⟩ := real
      have away := linked.not_idle runs
      have off := (linked.queueRemove queued).modify (f := (·.withPriority new)) fun same => absurd same away
      obtain ⟨state', queue', reason', count'⟩ := withPriority_fields
        ({ k.thread x with queue := none } : Thread cfg Q) new
      have record : (((k.queueRemove q x).modify x (·.withPriority new)).thread x) =
          ({ k.thread x with queue := none } : Thread cfg Q).withPriority new := by
        simp [Kernel.queueRemove]
      have back := off.enqueue (q := q) (by rw [record, state']; exact asleep)
        (by rw [record, reason']; exact known.blocking (by simp [queued]))
        (by rw [record, state', count']; exact known.counted)
      rw [remove_some _ _ queued]
      refine ⟨_, back, ?_⟩
      rw [view_enqueue, view_modify, view_queueRemove]
      simp only [Threads.setPriority, Threads.remove, same, asleep, queued, if_true]
      rfl
  · simp only [if_neg asleep]
    refine flagged ?_ _ _
    have changed := real.stopped (f :=
      (·.withPriority new)) runs (keeps.not.mpr runs) queue (withPriority_sound known new)
    simpa [Threads.setPriority, same, asleep] using changed

theorem Linked.turn (linked : Linked clean idle k L) {i : ListId cfg Q} {l : List T}
    {lists : Ring.Store (ListId cfg Q) T} (rep : lists.Represents (update L i l)) (perm : l.Perm (L i)) :
    Linked clean idle (k.setLists lists) (update L i l) := by
  have members : ∀ j t, t ∈ update L i l j ↔ t ∈ L j := by
    intro j t
    by_cases same : j = i
    · subst same; simpa using perm.mem_iff
    · simp [same]
  refine ⟨⟨rep, ?_, linked.idleRuns, ?_⟩, ?_, linked.sound⟩
  · intro p
    have empty : update L i l (.run p) = [] ↔ L (.run p) = [] := by
      simp only [eq_nil_iff_forall_not_mem, members]
    simpa [mapBit, empty] using linked.map p
  · intro isClean
    simpa [members] using linked.asserted isClean
  · intro t
    exact (linked.place t).update_of_ne fun j => members j t

theorem Realizes.rotate (real : Realizes clean idle k s) (p : Priority cfg) :
    Realizes clean idle (k.setLists (k.lists.rotate (.run p))) s := by
  obtain ⟨L, linked, rfl⟩ := real
  exact ⟨_, linked.turn linked.rep.rotate (rotate_perm ..), view_update_run ..⟩

theorem Realizes.rotateQueue (real : Realizes clean idle k s) (p : Priority cfg) :
    Realizes clean idle (k.rotateQueue p) s := by
  unfold Kernel.rotateQueue
  split
  · exact real
  · exact (real.rotate p).congr rfl rfl rfl fun _ held => held

theorem Realizes.yield (real : Realizes clean idle k s) : Realizes clean idle k.yield s := by
  unfold Kernel.yield
  dsimp only
  split
  · split <;> exact (real.rotate _).congr rfl rfl rfl fun _ held => held
  · exact real

theorem Linked.mem_wait_iff (linked : Linked clean idle k L) : x ∈ L (.wait q) ↔ (k.thread x).queue = some q := by
  refine ⟨linked.queue_of_mem, ?_⟩
  intro queued
  have stopped : ¬ (k.thread x).Running := by
    intro runs
    have alone := (linked.sound x).queue_none runs
    simp [alone] at queued
  rw [linked.place x, location_stopped stopped, queued]
  rfl

theorem Linked.turnTo (linked : Linked clean idle k L) {i : ListId cfg Q} (mem : x ∈ L i) :
    Linked clean idle (k.setLists (k.lists.toHead i x)) (update L i ((L i).rotate ((L i).idxOf x))) := by
  obtain ⟨front, back, split⟩ := append_of_mem mem
  have nodup := linked.rep.nodup i
  have first : x ∉ front := by
    rw [split] at nodup
    have apart := (nodup_append.mp nodup).2.2
    intro inFront
    exact apart x inFront x (by simp) rfl
  have turned : (L i).rotate ((L i).idxOf x) = x :: back ++ front := by
    rw [split, idxOf_append_of_notMem first, idxOf_cons_self, Nat.add_zero,
      rotate_append_length_eq]
  refine linked.turn ?_ (rotate_perm ..)
  rw [turned]
  exact linked.rep.toHead split

section
variable (real : Realizes clean idle k s)
include real

theorem Realizes.toQueueHead (x : T) : Realizes clean idle (k.toQueueHead x) (s.toQueueHead x) := by
  obtain ⟨L, linked, rfl⟩ := real
  unfold toQueueHead Threads.toQueueHead
  have same : ((view k L).thread x).queue = (k.thread x).queue := rfl
  rw [same]
  cases queued : (k.thread x).queue with
  | some q =>
    refine ⟨_, linked.turnTo (linked.mem_wait_iff.mpr queued), ?_⟩
    simp only [view, Threads.setQueue, Threads.mk.injEq]
    refine ⟨rfl, ?_⟩
    funext r
    by_cases same : r = q
    · subst same; simp
    · simp [same]
  | none =>
    dsimp only
    split
    · next inList =>
      have mem : x ∈ L (.run (k.thread x).priority) := by
        by_contra absent
        refine inList (linked.rep.alone x ?_).1
        intro i inI
        cases i with
        | run p => exact absent ((linked.mem_run_iff.mp inI).2 ▸ inI)
        | wait q => simp [linked.queue_of_mem inI] at queued
      refine congr ⟨_, linked.turnTo mem, ?_⟩ rfl rfl rfl fun _ held => held
      rw [view_update_run]
      rfl
    · exact linked.realizes

theorem Realizes.idleHome (isClean : clean) : k.mapBit cfg.idlePriority = true ∧ k.idlePresent = true := by
  obtain ⟨L, linked, -⟩ := real
  have home := (linked.asserted isClean).2
  exact ⟨(linked.map _).mpr (ne_nil_of_mem home), linked.idlePresent home⟩

theorem Realizes.rotateFlag (p : Priority cfg) (test : Prop) [Decidable test] :
    Realizes clean idle (if test then (k.setLists (k.lists.rotate (.run p))).setNeedReschedule
      else k.setLists (k.lists.rotate (.run p))) s := by
  split
  · exact (real.rotate p).congr rfl rfl rfl fun _ held => held
  · exact real.rotate p

theorem Realizes.timesliceCpu : Realizes clean idle k.timesliceCpu s := by
  have start : Realizes clean idle (k.cygAssert (k.queueMap != 0 && k.mapBit cfg.idlePriority)) s := by
    refine real.cygAssert fun isClean => ?_
    have home := (real.idleHome isClean).1
    rw [home, map_ne_zero home]
    rfl
  have idleThere : ∀ {k' : Kernel cfg T Q}, Realizes clean idle k' s →
    Realizes clean idle (k'.cygAssert k'.idlePresent) s :=
    fun after => after.cygAssert fun isClean => (after.idleHome isClean).2
  refine idleThere ?_
  split
  · exact (start.rotateFlag _ _).congr rfl rfl rfl fun _ held => held
  · exact start

theorem Realizes.timeslice : Realizes clean idle k.timeslice s := by
  have counted : ∀ n, Realizes clean idle (k.setTimesliceCount n) s :=
    fun n => real.congr rfl rfl rfl fun _ held => held
  unfold Kernel.timeslice
  dsimp only
  split
  · exact (counted _).timesliceCpu
  · exact counted _

end

end Kernel

end Ecos
