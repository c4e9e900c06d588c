import Ecos.Kernel.Safety

namespace Ring.Store
variable {κ α : Type*} [DecidableEq κ] [DecidableEq α] {s : Store κ α} {i j : κ} {x h : α}

theorem addTail_head (first : s.head i = some h) : (s.addTail j x).head i = some h := by
  unfold addTail
  split
  · next none =>
    have ne : i ≠ j := by
      rintro rfl
      simp [none] at first
    simpa [setHead, ne] using first
  · exact first

theorem addTail_head_empty (empty : s.head i = none) : (s.addTail i x).head i = some x := by
  simp [addTail, empty, setHead]

theorem remHead_head (ne : i ≠ j) : (s.remHead j).head i = s.head i := by
  unfold remHead
  split
  · rfl
  · dsimp only
    split <;> simp [setHead, ne]

theorem remove_head (first : s.head i = some h) (ne : h ≠ x) : (s.remove j x).head i = some h := by
  unfold remove
  split
  · next here =>
    have apart : i ≠ j := by
      rintro rfl
      exact ne (Option.some.inj (first.symm.trans here))
    rwa [remHead_head apart]
  · exact first

end Ring.Store

namespace Ecos

namespace Kernel
variable {cfg : Config} {T Q : Type} [DecidableEq T] [DecidableEq Q]
variable {x : T} {k k' : Kernel cfg T Q} {q : Q}

/-- A reschedule is due, or the current thread, if it may run, is the head of its run queue. -/
def Fronted (k : Kernel cfg T Q) : Prop :=
  k.needReschedule = true ∨ ((k.thread k.currentThread).Running →
    k.lists.head (.run (k.thread k.currentThread).priority) = some k.currentThread)

/-- `Fronted` in the middle of an operation on `x`, wherever `x` is. -/
def FrontedBut (k : Kernel cfg T Q) (x : T) : Prop :=
  k.needReschedule = true ∨ (x ≠ k.currentThread → (k.thread k.currentThread).Running →
    k.lists.head (.run (k.thread k.currentThread).priority) = some k.currentThread)

/-- If `x` is the current thread, then a reschedule is due, or its run queue is empty. -/
def Free (k : Kernel cfg T Q) (x : T) : Prop :=
  x = k.currentThread → k.needReschedule = true ∨ k.lists.head (.run (k.thread x).priority) = none

theorem Fronted.but (fronted : k.Fronted) (x : T) : k.FrontedBut x := fronted.imp_right fun first _ => first

theorem FrontedBut.settle (fronted : k.FrontedBut x) (away : x = k.currentThread → ¬ (k.thread x).Running) :
    k.Fronted := by
  refine fronted.imp_right fun first runs => first ?_ runs
  rintro rfl
  exact away rfl runs

theorem FrontedBut.congr (fronted : k.FrontedBut x) (current : k'.currentThread = k.currentThread)
    (flag : k.needReschedule = true → k'.needReschedule = true)
    (pri : ∀ u, u ≠ x → (k'.thread u).priority = (k.thread u).priority)
    (state : ∀ u, u ≠ x → (k'.thread u).state = (k.thread u).state)
    (head : ∀ p h, h ≠ x → k.lists.head (.run p) = some h → k'.lists.head (.run p) = some h) : k'.FrontedBut x := by
  rcases fronted with due | first
  · exact .inl (flag due)
  · refine .inr fun other runs => ?_
    rw [current] at other runs ⊢
    rw [pri _ other.symm]
    exact head _ _ other.symm (first other ((state _ other.symm).symm.trans runs))

theorem Fronted.congr (fronted : k.Fronted) (current : k'.currentThread = k.currentThread)
    (flag : k.needReschedule = true → k'.needReschedule = true)
    (pri : ∀ u, (k'.thread u).priority = (k.thread u).priority)
    (state : ∀ u, (k'.thread u).state = (k.thread u).state)
    (head : ∀ p h, k.lists.head (.run p) = some h → k'.lists.head (.run p) = some h) : k'.Fronted := by
  rcases fronted with due | first
  · exact .inl (flag due)
  · refine .inr fun runs => ?_
    rw [current] at runs ⊢
    rw [pri]
    exact head _ _ (first ((state _).symm.trans runs))

theorem FrontedBut.modify (fronted : k.FrontedBut x) (f : Thread cfg Q → Thread cfg Q) :
    (k.modify x f).FrontedBut x :=
  fronted.congr rfl id (fun u ne => by simp [ne]) (fun u ne => by simp [ne]) fun _ _ _ first => first

theorem Fronted.modify (fronted : k.Fronted) {f : Thread cfg Q → Thread cfg Q}
    (pri : (f (k.thread x)).priority = (k.thread x).priority) (state : (f (k.thread x)).state = (k.thread x).state) :
    (k.modify x f).Fronted := by
  refine fronted.congr rfl id (fun u => ?_) (fun u => ?_) fun _ _ first => first
  · by_cases same : u = x
    · subst same; simpa using pri
    · simp [same]
  · by_cases same : u = x
    · subst same; simpa using state
    · simp [same]

theorem fronted_stopped (stopped : ¬ (k.thread k.currentThread).Running) : k.Fronted :=
  .inr fun runs => absurd runs stopped

theorem FrontedBut.remThread (fronted : k.FrontedBut x) : (k.remThread x).FrontedBut x :=
  fronted.congr rfl id (fun _ _ => rfl) (fun _ _ => rfl) fun _ _ ne first => Ring.Store.remove_head first ne

theorem queueRemove_head (p : Priority cfg) : (k.queueRemove q x).lists.head (.run p) = k.lists.head (.run p) := by
  show (k.lists.remove (.wait q) x).head (.run p) = _
  unfold Ring.Store.remove
  split
  · exact Ring.Store.remHead_head (by simp)
  · rfl

theorem FrontedBut.remove (fronted : k.FrontedBut x) : (k.remove x).FrontedBut x := by
  cases queued : (k.thread x).queue with
  | none => rwa [remove_none _ _ queued]
  | some q =>
    rw [remove_some _ _ queued]
    refine fronted.congr rfl id (fun u ne => ?_) (fun u ne => ?_) fun p _ _ first => by rwa [queueRemove_head]
    · simp [queueRemove, ne]
    · simp [queueRemove, ne]

theorem FrontedBut.addThread (fronted : k.FrontedBut x) (alone : (k.thread x).queue = none) (free : k.Free x) :
    (k.addThread x).Fronted := by
  by_cases same : x = k.currentThread
  · rcases free same with due | empty
    · refine .inl ?_
      rw [addThread_needReschedule alone, setNeedRescheduleFor_needReschedule]
      split
      · rfl
      · exact due
    · refine .inr fun _ => ?_
      rw [addThread_currentThread alone, addThread_thread alone, addThread_lists alone, ← same]
      exact Ring.Store.addTail_head_empty empty
  · have others : (k.addThread x).FrontedBut x := by
      refine fronted.congr (addThread_currentThread alone) (fun due => ?_) (fun u _ => ?_) (fun u _ => ?_) fun p h _ first => ?_
      · rw [addThread_needReschedule alone, setNeedRescheduleFor_needReschedule]
        split
        · rfl
        · exact due
      · rw [addThread_thread alone]
      · rw [addThread_thread alone]
      · rw [addThread_lists alone]
        exact Ring.Store.addTail_head first
    refine others.settle fun current => ?_
    rw [addThread_currentThread alone] at current
    exact absurd current same

theorem FrontedBut.rejoin (fronted : k.FrontedBut x) (alone : (k.thread x).queue = none)
    (free : (k.thread x).Running → k.Free x) : (if (k.thread x).Running then k.addThread x else k).Fronted := by
  split
  · next runs => exact fronted.addThread alone (free runs)
  · next stopped => exact fronted.settle fun _ => stopped

theorem rejoin_thread (alone : (k.thread x).queue = none) :
    (if (k.thread x).Running then k.addThread x else k).thread = k.thread := by
  split
  · exact addThread_thread alone
  · rfl

/-- The operation puts `x`, which could not run, back on its run queue. -/
def Returns (k k' : Kernel cfg T Q) (x : T) : Prop := ¬ (k.thread x).Running ∧ (k'.thread x).Running

theorem Free.congr (free : k.Free x) (current : k'.currentThread = k.currentThread)
    (flag : k'.needReschedule = k.needReschedule) (pri : (k'.thread x).priority = (k.thread x).priority)
    (head : ∀ p, k'.lists.head (.run p) = k.lists.head (.run p)) : k'.Free x := by
  intro same
  rw [flag, pri, head]
  exact free (same.trans current)

theorem remove_front : (k.remove x).currentThread = k.currentThread ∧
    (k.remove x).needReschedule = k.needReschedule ∧ ∀ p, (k.remove x).lists.head (.run p) = k.lists.head (.run p) := by
  cases queued : (k.thread x).queue with
  | none =>
    rw [remove_none _ _ queued]
    exact ⟨rfl, rfl, fun _ => rfl⟩
  | some q =>
    rw [remove_some _ _ queued]
    exact ⟨rfl, rfl, fun p => queueRemove_head p⟩

section
variable (fronted : k.Fronted)
include fronted

theorem Fronted.wake (x : T) (free : k.Returns (k.wake x) x → k.Free x) : (k.wake x).Fronted := by
  unfold Kernel.wake at free ⊢
  split
  · next asleep =>
    rw [if_pos asleep] at free
    have stopped : ¬ (k.thread x).Running := by
      intro runs
      rw [show (k.thread x).state = .running from runs] at asleep
      simp [ThreadState.inSleepset, ThreadState.running] at asleep
    let k₁ := k.modify x fun r => { r with state := r.state.clearSleepset }
    have alone : ((k₁.remove x).thread x).queue = none := by rw [remove_thread]
    obtain ⟨current, flag, head⟩ := remove_front (k := k₁) (x := x)
    refine ((fronted.but x).modify _).remove.rejoin alone fun runs => ?_
    refine (free ⟨stopped, ?_⟩).congr current flag ?_ head
    · dsimp only
      rwa [rejoin_thread alone]
    · rw [remove_thread]
      simp
  · exact fronted

theorem Fronted.wakeFor (x : T) (reason : Reason)
    (free : k.Returns ((k.setWakeReason x reason).wake x) x → k.Free x) : ((k.setWakeReason x reason).wake x).Fronted := by
  refine (fronted.modify (f := (·.setWakeReason reason)) rfl rfl).wake x fun returns => ?_
  have same : ((k.setWakeReason x reason).thread x).state = (k.thread x).state ∧
      ((k.setWakeReason x reason).thread x).priority = (k.thread x).priority := by simp [setWakeReason]
  refine (free ⟨fun runs => returns.1 (same.1.trans runs), returns.2⟩).congr rfl rfl same.2 fun _ => rfl

theorem Fronted.countedWake (x : T) (free : k.Returns (k.countedWake x) x → k.Free x) :
    (k.countedWake x).Fronted := by
  unfold Kernel.countedWake at free ⊢
  split
  · next counted =>
    rw [if_pos counted] at free
    exact fronted.wakeFor x .done free
  · exact fronted.modify rfl rfl

theorem Fronted.release (x : T) (free : k.Returns (k.release x) x → k.Free x) : (k.release x).Fronted := by
  unfold Kernel.release at free ⊢
  split
  · next blocked =>
    rw [if_pos blocked] at free
    exact fronted.wakeFor x .brk free
  · exact fronted

theorem Fronted.alarm (x : T) (free : k.Returns (k.alarm x) x → k.Free x) : (k.alarm x).Fronted := by
  unfold Kernel.alarm at free ⊢
  cases reason : (k.thread x).sleepReason with
  | delay =>
    rw [reason] at free
    exact fronted.wakeFor x .done free
  | timeout =>
    rw [reason] at free
    exact fronted.wakeFor x .timeout free
  | none | wait | brk | destruct | exit | done => exact fronted

theorem Fronted.stop {f : Thread cfg Q → Thread cfg Q} (stopped : ¬ (f (k.thread x)).Running) :
    ((if (k.thread x).Running then k.remThread x else k).modify x f).Fronted := by
  have changed : ((if (k.thread x).Running then k.remThread x else k).modify x f).FrontedBut x := by
    split
    · exact (fronted.but x).remThread.modify f
    · exact (fronted.but x).modify f
  refine changed.settle fun _ => ?_
  rw [modify_thread, Function.update_self]
  split <;> exact stopped

theorem Fronted.sleep : k.sleep.Fronted := by
  refine fronted.stop ?_
  simp [Thread.Running, ThreadState.running]

theorem Fronted.suspend (x : T) : (k.suspend x).Fronted := by
  refine fronted.stop ?_
  simp [Thread.Running, Thread.suspended, ThreadState.running]

theorem Fronted.countedSleep : k.countedSleep.Fronted := by
  unfold Kernel.countedSleep
  dsimp only
  split
  · have reasoned : (k.setSleepReason .wait).Fronted := fronted.modify (f := (·.setSleepReason .wait)) rfl rfl
    have slept := (reasoned.sleep.but k.currentThread).modify fun r => { r with state := { r.state with countsleep := true } }
    refine slept.settle fun _ => ?_
    simp [Thread.Running, ThreadState.running]
  · exact fronted.modify rfl rfl

theorem Fronted.unsuspend (sound : (k.thread x).Sound) {f : Thread cfg Q → Thread cfg Q}
    (pri : (f (k.thread x)).priority = (k.thread x).priority)
    (queue : (f (k.thread x)).queue = (k.thread x).queue)
    (sleeping : (f (k.thread x)).state.sleeping = (k.thread x).state.sleeping)
    (stopped : ¬ (k.thread x).Running)
    (free : k.Returns (if ((k.modify x f).thread x).Running then (k.modify x f).addThread x else k.modify x f) x →
      k.Free x) :
    (if ((k.modify x f).thread x).Running then (k.modify x f).addThread x else k.modify x f).Fronted := by
  have changed := (fronted.but x).modify f
  split at free
  · next runs =>
    have alone : ((k.modify x f).thread x).queue = none := by
      simp only [modify_thread, Function.update_self] at runs ⊢
      rw [queue]
      by_contra queued
      have asleep := sound.sleeping queued
      rw [← sleeping, show (f (k.thread x)).state = .running from runs] at asleep
      simp [ThreadState.running] at asleep
    rw [if_pos runs]
    refine changed.addThread alone ((free ⟨stopped, ?_⟩).congr rfl rfl ?_ fun _ => rfl)
    · rwa [addThread_thread alone]
    · simpa using pri
  · next still =>
    rw [if_neg still]
    exact changed.settle fun _ => still

theorem Fronted.resume (sound : (k.thread x).Sound)
    (free : k.Returns (k.resume x) x → k.Free x) : (k.resume x).Fronted := by
  unfold Kernel.resume at free ⊢
  split
  · next one =>
    rw [if_pos one] at free
    refine Fronted.unsuspend (k := k.cygAssert _) fronted sound ?_ ?_ ?_ ?_ free
    · simp [Thread.resumed, one]
    · simp [Thread.resumed, one]
    · simp [Thread.resumed, one]
    · intro runs
      have known := sound.counted (by omega)
      rw [show (k.thread x).state = .running from runs] at known
      simp [ThreadState.running] at known
  · next other =>
    refine fronted.modify ?_ ?_ <;> simp only [Thread.resumed, if_neg other]
    · split <;> rfl
    · split <;> rfl

theorem Fronted.forceResume (sound : (k.thread x).Sound)
    (free : k.Returns (k.forceResume x) x → k.Free x) : (k.forceResume x).Fronted := by
  unfold Kernel.forceResume at free ⊢
  split
  · next some =>
    rw [if_pos some] at free
    refine Fronted.unsuspend (k := k.cygAssert _) fronted sound ?_ ?_ ?_ ?_ free
    · simp [Thread.forceResumed, some]
    · simp [Thread.forceResumed, some]
    · simp [Thread.forceResumed, some]
    · intro runs
      have known := sound.counted some
      rw [show (k.thread x).state = .running from runs] at known
      simp [ThreadState.running] at known
  · exact fronted

theorem Fronted.exit : k.exit.Fronted := by
  unfold Kernel.exit
  dsimp only
  split
  · exact fronted
  · refine fronted_stopped ?_
    show ¬ ((k.modify k.currentThread fun r => { r with state := .exitedOnly }).thread k.currentThread).Running
    simp [Thread.Running, ThreadState.exitedOnly, ThreadState.running]

end

theorem forceResume_currentThread (sound : (k.thread x).Sound) : (k.forceResume x).currentThread = k.currentThread := by
  unfold Kernel.forceResume
  split
  · dsimp only
    split
    · next some runs =>
      have alone : (((k.cygAssert (k.thread x).state.suspended).modify x (·.forceResumed)).thread x).queue = none := by
        by_contra queued
        have same : (((k.cygAssert (k.thread x).state.suspended).modify x (·.forceResumed)).thread x).queue =
            (k.thread x).queue := by simp [Thread.forceResumed, some]
        rw [same] at queued
        have asleep := sound.sleeping queued
        have still : (k.thread x).forceResumed.state.sleeping = (k.thread x).state.sleeping := by
          simp [Thread.forceResumed, some]
        have runs : (k.thread x).forceResumed.Running := by simpa using runs
        rw [← still, show (k.thread x).forceResumed.state = .running from runs] at asleep
        simp [ThreadState.running] at asleep
      rw [addThread_currentThread alone]
      rfl
    · rfl
  · rfl

theorem Fronted.kill (fronted : k.Fronted) (sound : (k.thread x).Sound) (other : x ≠ k.currentThread) :
    (k.kill x).Fronted := by
  have away : ∀ {k' : Kernel cfg T Q}, k'.currentThread = k.currentThread → k'.Free x := fun current same =>
    absurd (same.trans current) other
  have resumed := fronted.forceResume sound fun _ => away rfl
  have current := forceResume_currentThread sound
  unfold Kernel.kill
  dsimp only
  split
  · exact resumed.wake x fun _ => away current
  · split
    · refine Fronted.wake ?_ x fun _ => away ?_
      · refine resumed.stop ?_
        simp [Thread.Running, ThreadState.exitedOnly, ThreadState.running]
      · split <;> exact current
    any_goals exact resumed
    all_goals exact resumed.wakeFor x .exit fun _ => away current

theorem Fronted.queueRemove (fronted : k.Fronted) (q : Q) (x : T) : (k.queueRemove q x).Fronted := by
  refine (fronted.modify (x := x) (f := fun r => { r with queue := none }) rfl rfl).congr rfl id (fun _ => rfl)
    (fun _ => rfl) fun p h first => ?_
  rwa [queueRemove_head]

theorem Fronted.dequeue (fronted : k.Fronted) (q : Q) : (k.dequeue q).Fronted := by
  unfold Kernel.dequeue
  split
  · exact fronted
  · next t _ =>
    refine (fronted.modify (x := t) (f := fun r => { r with queue := none }) rfl rfl).congr rfl id (fun _ => rfl)
      (fun _ => rfl) fun p h first => ?_
    show (k.lists.remHead (.wait q)).head (.run p) = some h
    rw [Ring.Store.remHead_head (by simp)]
    exact first

theorem addTail_wait_head (s : Ring.Store (ListId cfg Q) T) (p : Priority cfg) :
    (s.addTail (.wait q) x).head (.run p) = s.head (.run p) := by
  unfold Ring.Store.addTail
  split <;> simp [Ring.Store.setHead]

theorem placeNode_head [Fintype T] (p : Priority cfg) : (k.placeNode q x).head (.run p) = k.lists.head (.run p) := by
  unfold Kernel.placeNode
  dsimp only
  split
  · split
    · exact addTail_wait_head _ p
    · split
      · split <;> simp [Ring.Store.toHead, Ring.Store.setHead]
      · split
        · simp [Ring.Store.toHead, Ring.Store.setHead]
        · split
          · exact addTail_wait_head _ p
          · rfl
  · exact addTail_wait_head _ p

theorem FrontedBut.enqueue [Fintype T] (fronted : k.FrontedBut x) (q : Q) : (k.enqueue q x).FrontedBut x :=
  (fronted.modify fun r => { r with queue := some q }).congr rfl id (fun _ _ => rfl) (fun _ _ => rfl)
    fun p h _ first => by
      show (k.placeNode q x).head (.run p) = some h
      rw [placeNode_head]
      exact first

theorem Fronted.enqueue [Fintype T] (fronted : k.Fronted) (q : Q) (x : T) : (k.enqueue q x).Fronted :=
  (fronted.modify (x := x) (f := fun r => { r with queue := some q }) rfl rfl).congr rfl id (fun _ => rfl)
    (fun _ => rfl) fun p h first => by
      show (k.placeNode q x).head (.run p) = some h
      rw [placeNode_head]
      exact first

theorem Fronted.flagged (fronted : k.Fronted) : (k.setNeedRescheduleFor x).Fronted := by
  refine fronted.congr rfl (fun due => ?_) (fun _ => rfl) (fun _ => rfl) fun _ _ first => first
  rw [setNeedRescheduleFor_needReschedule]
  split
  · rfl
  · exact due

theorem FrontedBut.reflagged (fronted : x ≠ k.currentThread → k.Fronted) :
    (if x = k.currentThread then k.setNeedReschedule else k.setNeedRescheduleFor x).Fronted := by
  split
  · exact .inl rfl
  · next other => exact (fronted other).flagged

section
variable (fronted : k.Fronted)
include fronted

theorem Fronted.setPriority [Fintype T] (sound : (k.thread x).Sound) (new : Priority cfg) :
    (k.setPriority x new).Fronted := by
  obtain ⟨-, queue, -, -⟩ := withPriority_fields (k.thread x) new
  unfold Kernel.setPriority
  by_cases runs : (k.thread x).state = .running
  · have alone : (((k.remThread x).modify x (·.withPriority new)).thread x).queue = none := by
      simp [queue, sound.queue_none runs]
    simp only [runs, if_true]
    refine FrontedBut.reflagged fun other => ?_
    rw [addThread_currentThread alone] at other
    exact ((fronted.but x).remThread.modify _).addThread alone fun same => absurd same other
  simp only [if_neg runs]
  by_cases asleep : (k.thread x).state.sleeping = true
  · simp only [asleep, if_true]
    refine FrontedBut.reflagged fun other => ?_
    have changed := (fronted.but x).remove.modify (·.withPriority new)
    cases queued : (k.thread x).queue with
    | none =>
      simp only [queued] at other ⊢
      exact changed.settle fun same => absurd same other
    | some q =>
      simp only [queued] at other ⊢
      exact (changed.enqueue q).settle fun same => absurd same other
  · simp only [if_neg asleep]
    refine FrontedBut.reflagged fun other => ?_
    exact ((fronted.but x).modify (·.withPriority new)).settle fun same => absurd same other

theorem Fronted.rotateQueue (p : Priority cfg) : (k.rotateQueue p).Fronted := by
  unfold Kernel.rotateQueue
  split
  · exact fronted
  · exact .inl rfl

theorem Fronted.yield : k.yield.Fronted := by
  unfold Kernel.yield
  dsimp only
  split
  · split
    · exact .inl rfl
    · next stays => exact .inr fun _ => not_not.mp stays
  · exact fronted

theorem Fronted.timesliceCpu : k.timesliceCpu.Fronted := by
  unfold Kernel.timesliceCpu
  dsimp only
  split
  · split
    · exact .inl rfl
    · next stays => exact .inr fun _ => not_not.mp stays
  · exact fronted

theorem Fronted.timeslice : k.timeslice.Fronted := by
  have counted : ∀ n, (k.setTimesliceCount n).Fronted := fun _ => fronted
  unfold Kernel.timeslice
  dsimp only
  split
  · exact (counted _).timesliceCpu
  · exact counted _

/-- Moving a thread to the head of a run queue is harmless unless it displaces a current thread
that nothing calls to be rescheduled. -/
theorem Fronted.toQueueHead (polite : (k.thread x).queue = none → k.lists.nodes.next x ≠ x → (k.thread k.currentThread).Running →
      k.needReschedule = false → (k.thread x).priority = (k.thread k.currentThread).priority → x = k.currentThread) :
    (k.toQueueHead x).Fronted := by
  unfold Kernel.toQueueHead
  split
  · exact fronted.congr rfl id (fun _ => rfl) (fun _ => rfl) fun p h first => by
      simpa [Ring.Store.toHead, Ring.Store.setHead] using first
  · next alone =>
    split
    · next inList =>
      rcases fronted with due | first
      · refine .inl ?_
        simp only [setNeedRescheduleFor_needReschedule, setLists_needReschedule, due]
        split <;> rfl
      · by_cases runs : (k.thread k.currentThread).Running
        · cases due : k.needReschedule with
          | true =>
            refine .inl ?_
            simp only [setNeedRescheduleFor_needReschedule, setLists_needReschedule, due]
            split <;> rfl
          | false =>
            refine .inr fun _ => ?_
            show (k.lists.toHead (.run (k.thread x).priority) x).head (.run (k.thread k.currentThread).priority) =
              some k.currentThread
            by_cases level : (k.thread x).priority = (k.thread k.currentThread).priority
            · have same := polite alone inList runs due level
              rw [same]
              simp [Ring.Store.toHead, Ring.Store.setHead]
            · have apart : (ListId.run (k.thread k.currentThread).priority : ListId cfg Q) ≠ .run (k.thread x).priority := by
                simpa using fun same => level (Eq.symm same)
              simpa [Ring.Store.toHead, Ring.Store.setHead, apart] using first runs
        · refine .inl ?_
          simp [runs]
    · exact fronted

end

end Kernel

end Ecos
