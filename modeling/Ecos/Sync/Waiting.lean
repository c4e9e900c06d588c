import Ecos.Kernel.Realize

namespace Ecos
open Thread List Option

/-- What a wakeup leaves of a sleeping thread. -/
def Thread.awakened {cfg : Config} {Q : Type} (r : Thread cfg Q) (reason : Reason) : Thread cfg Q :=
  { r.setWakeReason reason with state := r.state.clearSleepset, queue := none }

/-- What `set_sleep_reason`, `sleep` and `enqueue` leave of the current thread. -/
def Thread.blocked {cfg : Config} {Q : Type} (r : Thread cfg Q) (q : Q) (reason : Reason) : Thread cfg Q :=
  { r.setSleepReason reason with state := { r.state with sleeping := true }, queue := some q }

namespace Threads
variable {cfg : Config} {T Q : Type} [DecidableEq T] [DecidableEq Q]

/-- The wait queues agree with the thread objects. -/
structure Wf (s : Threads cfg T Q) : Prop where
  member : ∀ t q, t ∈ s.queue q ↔ (s.thread t).queue = some q
  nodup : ∀ q, (s.queue q).Nodup
  asleep : ∀ t q, (s.thread t).queue = some q → (s.thread t).state.sleeping = true
  blocking : ∀ t q, (s.thread t).queue = some q → (s.thread t).sleepReason.blocking = true

/-- The current thread goes to sleep on a queue: `set_sleep_reason`, `sleep`,
`enqueue`. -/
def block (s : Threads cfg T Q) (t : T) (q : Q) (reason : Reason) : Threads cfg T Q :=
  ((s.setSleepReason t reason).sleep t).enqueue q t

/-- Take the first thread off a queue and wake it: `dequeue`, `set_wake_reason`,
`wake`. -/
def wakeHead (s : Threads cfg T Q) (q : Q) (reason : Reason) : Threads cfg T Q :=
  match s.queue q with
  | [] => s
  | t :: _ => ((s.dequeue q).setWakeReason t reason).wake t

/-- Wake a thread for a reason, from whatever queue it is on. -/
def rouse (s : Threads cfg T Q) (t : T) (reason : Reason) : Threads cfg T Q := (s.setWakeReason t reason).wake t

variable {s : Threads cfg T Q} {t u : T} {q r : Q} {reason : Reason}

theorem block_thread_self : (s.block t q reason).thread t = (s.thread t).blocked q reason := by
  simp [block, enqueue, sleep, setSleepReason, blocked]

theorem block_thread_of_ne (ne : u ≠ t) : (s.block t q reason).thread u = s.thread u := by
  simp [block, enqueue, sleep, setSleepReason, modify_thread_of_ne ne]

theorem block_queue_of_ne (ne : r ≠ q) : (s.block t q reason).queue r = s.queue r := by
  simp [block, enqueue, sleep, setSleepReason, setQueue_queue_of_ne ne]

theorem block_queue_self :
    (s.block t q reason).queue q = placeQueued (fun u => (s.thread u).priority) t (s.queue q) := by
  have same : (fun u => (((s.setSleepReason t reason).sleep t).thread u).priority) = fun u =>
    (s.thread u).priority := by
    funext u
    by_cases self : u = t
    · subst self; simp [sleep, setSleepReason]
    · simp [sleep, setSleepReason, modify_thread_of_ne self]
  simp only [block, enqueue, modify_queue, setQueue_queue_self, same]
  rfl

theorem block_mem {v : T} : v ∈ (s.block t q reason).queue r ↔ (v = t ∧ r = q) ∨ v ∈ s.queue r := by
  by_cases same : r = q
  · subst same; simp [block_queue_self]
  · simp [block_queue_of_ne same, same]

theorem Wf.queue_none (wf : s.Wf) (awake : (s.thread t).state.sleeping = false) : (s.thread t).queue = none := by
  cases queued : (s.thread t).queue with
  | none => rfl
  | some q => simp [wf.asleep t q queued] at awake

theorem Wf.block (wf : s.Wf) (alone : (s.thread t).queue = none) (fits : reason.blocking = true) :
    (s.block t q reason).Wf where
  member v r := by
    rw [block_mem]
    by_cases same : v = t
    · subst same
      rw [block_thread_self, wf.member, alone]
      simp [blocked, eq_comm]
    · simp [same, block_thread_of_ne same, wf.member]
  nodup r := by
    by_cases same : r = q
    · subst same
      rw [block_queue_self, placeQueued_perm.nodup_iff, nodup_cons, wf.member, alone]
      exact ⟨by simp, wf.nodup r⟩
    · rw [block_queue_of_ne same]
      exact wf.nodup r
  asleep v r queued := by
    by_cases same : v = t
    · subst same
      rw [block_thread_self]
      rfl
    · rw [block_thread_of_ne same] at queued ⊢
      exact wf.asleep v r queued
  blocking v r queued := by
    by_cases same : v = t
    · subst same
      rw [block_thread_self]
      exact fits
    · rw [block_thread_of_ne same] at queued ⊢
      exact wf.blocking v r queued

theorem rouse_thread_of_ne (ne : u ≠ t) : (s.rouse t reason).thread u = s.thread u := by
  rw [rouse, wake_thread_of_ne ne, setWakeReason, modify_thread_of_ne ne]

theorem rouse_thread_self (asleep : (s.thread t).state.inSleepset = true) :
    (s.rouse t reason).thread t = (s.thread t).awakened reason := by
  simp [rouse, wake, setWakeReason, asleep, awakened]

theorem rouse_thread_awake (awake : (s.thread t).state.inSleepset = false) :
    (s.rouse t reason).thread t = (s.thread t).setWakeReason reason := by
  simp [rouse, wake, setWakeReason, awake]

theorem Wf.erase_absent (wf : s.Wf) (other : (s.thread t).queue ≠ some r) : (s.queue r).erase t = s.queue r :=
  erase_of_not_mem fun on => other ((wf.member t r).mp on)

theorem Wf.inSleepset (wf : s.Wf) (queued : (s.thread t).queue = some q) : (s.thread t).state.inSleepset = true := by
  simp [ThreadState.inSleepset, wf.asleep t q queued]

theorem Wf.alone_of_awake (wf : s.Wf) (awake : (s.thread t).state.inSleepset = false) : (s.thread t).queue = none := by
  refine wf.queue_none ?_
  simp only [ThreadState.inSleepset, Bool.or_eq_false_iff] at awake
  exact awake.1

theorem Wf.left (wf : s.Wf) {s' : Threads cfg T Q} (queue : ∀ r, s'.queue r = (s.queue r).erase t)
    (others : ∀ v, v ≠ t → s'.thread v = s.thread v) (alone : (s'.thread t).queue = none) : s'.Wf := by
  refine ⟨fun v r => ?_, fun r => ?_, fun v r on => ?_, fun v r on => ?_⟩
  · rw [queue, (wf.nodup r).mem_erase_iff]
    by_cases same : v = t
    · subst same
      simp [alone]
    · simp [same, others v same, wf.member]
  · rw [queue]
    exact (wf.nodup r).erase t
  · by_cases same : v = t
    · subst same
      simp [alone] at on
    · rw [others v same] at on ⊢
      exact wf.asleep v r on
  · by_cases same : v = t
    · subst same
      simp [alone] at on
    · rw [others v same] at on ⊢
      exact wf.blocking v r on

/-! A wakeup, after a change `f` of fields that do not say whether or where the
thread sleeps. -/

section WakeWith
variable {f : Thread cfg Q → Thread cfg Q}

theorem Wf.wakeWith_queue (wf : s.Wf) (state : (f (s.thread t)).state = (s.thread t).state)
    (queue : (f (s.thread t)).queue = (s.thread t).queue) :
    ((s.modify t f).wake t).queue r = (s.queue r).erase t := by
  unfold wake
  split
  · cases queued : (s.thread t).queue with
    | none =>
      rw [remove_none (by simp [queue, queued])]
      simp [wf.erase_absent, queued]
    | some q =>
      rw [remove_some (q := q) (by simp [queue, queued])]
      by_cases same : r = q
      · subst same; simp
      · have other : (s.thread t).queue ≠ some r := by
          rw [queued]
          exact fun eq => same (some.inj eq).symm
        simp [setQueue_queue_of_ne same, wf.erase_absent other]
  · next awake =>
    have alone : (s.thread t).queue = none := wf.alone_of_awake (by simpa [state] using awake)
    simp [wf.erase_absent, alone]

theorem Wf.wakeWith_alone (wf : s.Wf) (state : (f (s.thread t)).state = (s.thread t).state)
    (queue : (f (s.thread t)).queue = (s.thread t).queue) :
    (((s.modify t f).wake t).thread t).queue = none := by
  unfold wake
  split
  · simp
  · next awake =>
    rw [modify_thread_self, queue]
    exact wf.alone_of_awake (by simpa [state] using awake)

theorem Wf.wakeWith (wf : s.Wf) (state : (f (s.thread t)).state = (s.thread t).state)
    (queue : (f (s.thread t)).queue = (s.thread t).queue) : ((s.modify t f).wake t).Wf := by
  refine wf.left (fun r => wf.wakeWith_queue state queue) ?_ (wf.wakeWith_alone state queue)
  intro v ne
  rw [wake_thread_of_ne ne, modify_thread_of_ne ne]

end WakeWith

theorem Wf.rouse_queue (wf : s.Wf) : (s.rouse t reason).queue r = (s.queue r).erase t := wf.wakeWith_queue rfl rfl

theorem Wf.rouse_alone (wf : s.Wf) : ((s.rouse t reason).thread t).queue = none := wf.wakeWith_alone rfl rfl

theorem Wf.rouse (wf : s.Wf) : (s.rouse t reason).Wf := wf.wakeWith rfl rfl

theorem modify_id : s.modify t id = s := by
  simp [Threads.modify, setThread]

theorem Wf.wakeHead_eq (wf : s.Wf) {rest : List T} (head : s.queue q = t :: rest) :
    s.wakeHead q reason = s.rouse t reason := by
  have queued : (s.thread t).queue = some q := (wf.member t q).mp (by simp [head])
  have asleep := wf.asleep t q queued
  simp [wakeHead, head, Threads.rouse, Threads.wake, dequeue, setWakeReason, Threads.modify, setThread, setQueue,
    Threads.remove, queued, ThreadState.inSleepset, asleep]

theorem Wf.modify (wf : s.Wf) {f : Thread cfg Q → Thread cfg Q} (queue : (f (s.thread t)).queue = (s.thread t).queue)
    (asleep : (s.thread t).queue ≠ none → (f (s.thread t)).state.sleeping = true)
    (blocking : (s.thread t).queue ≠ none → (f (s.thread t)).sleepReason.blocking = true) : (s.modify t f).Wf where
  member v r := by
    by_cases same : v = t
    · subst same; simpa [queue] using wf.member v r
    · simpa [modify_thread_of_ne same] using wf.member v r
  nodup := wf.nodup
  asleep v r on := by
    by_cases same : v = t
    · subst same
      rw [modify_thread_self] at on ⊢
      exact asleep (by rw [← queue, on]; simp)
    · rw [modify_thread_of_ne same] at on ⊢
      exact wf.asleep v r on
  blocking v r on := by
    by_cases same : v = t
    · subst same
      rw [modify_thread_self] at on ⊢
      exact blocking (by rw [← queue, on]; simp)
    · rw [modify_thread_of_ne same] at on ⊢
      exact wf.blocking v r on

theorem Wf.remove_queue (wf : s.Wf) : (s.remove t).queue r = (s.queue r).erase t := by
  cases queued : (s.thread t).queue with
  | none => rw [remove_none queued, wf.erase_absent (by simp [queued])]
  | some q =>
    rw [remove_some queued]
    by_cases same : r = q
    · subst same; simp
    · have other : (s.thread t).queue ≠ some r := by
        rw [queued]
        exact fun eq => same (some.inj eq).symm
      simp [setQueue_queue_of_ne same, wf.erase_absent other]

theorem Wf.remove (wf : s.Wf) (t : T) : (s.remove t).Wf :=
  wf.left (fun _ => wf.remove_queue) (fun _ ne => remove_thread_of_ne ne) (by simp)

theorem Wf.dequeue_eq (wf : s.Wf) {rest : List T} (head : s.queue q = t :: rest) : s.dequeue q = s.remove t := by
  have queued : (s.thread t).queue = some q := (wf.member t q).mp (by simp [head])
  simp [dequeue, head, remove_some queued]

end Threads

/-- The thread object, but for its priorities and its count of mutexes. -/
def Thread.SameTask {cfg : Config} {Q : Type} (r r' : Thread cfg Q) : Prop :=
  r'.state = r.state ∧ r'.sleepReason = r.sleepReason ∧ r'.wakeReason = r.wakeReason ∧ r'.queue = r.queue

namespace Threads
variable {cfg : Config} {T Q : Type} [DecidableEq T] [DecidableEq Q]

/-- At most priorities differ, and with them the order of queues. -/
structure Reprioritized (s s' : Threads cfg T Q) : Prop where
  task : ∀ t, (s.thread t).SameTask (s'.thread t)
  perm : ∀ q, (s'.queue q).Perm (s.queue q)

variable {s s' s'' : Threads cfg T Q} {t u : T} {q r : Q}

theorem Reprioritized.refl (s : Threads cfg T Q) : Reprioritized s s :=
    ⟨fun _ => ⟨rfl, rfl, rfl, rfl⟩, fun _ => .refl _⟩

theorem Reprioritized.trans (first : Reprioritized s s') (second : Reprioritized s' s'') : Reprioritized s s'' where
  task t := by
    obtain ⟨a, b, c, d⟩ := first.task t
    obtain ⟨a', b', c', d'⟩ := second.task t
    exact ⟨a'.trans a, b'.trans b, c'.trans c, d'.trans d⟩
  perm q := (second.perm q).trans (first.perm q)

theorem Reprioritized.wf (same : Reprioritized s s') (wf : s.Wf) : s'.Wf where
  member t q := by rw [(same.perm q).mem_iff, wf.member, (same.task t).2.2.2]
  nodup q := (same.perm q).nodup_iff.mpr (wf.nodup q)
  asleep t q queued := by
    rw [(same.task t).1]
    exact wf.asleep t q ((same.task t).2.2.2 ▸ queued)
  blocking t q queued := by
    rw [(same.task t).2.1]
    exact wf.blocking t q ((same.task t).2.2.2 ▸ queued)

theorem Reprioritized.modify {f : Thread cfg Q → Thread cfg Q} (same : (s.thread t).SameTask (f (s.thread t))) :
    Reprioritized s (s.modify t f) where
  task u := by
    by_cases self : u = t
    · subst self; simpa using same
    · rw [modify_thread_of_ne self]
      exact ⟨rfl, rfl, rfl, rfl⟩
  perm q := .refl _

theorem withPriority_task (r : Thread cfg Q) (new : Priority cfg) : r.SameTask (r.withPriority new) := by
  unfold withPriority
  split <;> exact ⟨rfl, rfl, rfl, rfl⟩

theorem setPriority_thread_of_ne {new : Priority cfg} (ne : u ≠ t) : (s.setPriority t new).thread u = s.thread u := by
  unfold setPriority
  split
  · split
    · exact modify_thread_of_ne ne
    · simp [enqueue, modify_thread_of_ne ne, remove_thread_of_ne ne]
  · exact modify_thread_of_ne ne

theorem setPriority_thread_self {new : Priority cfg} :
    (s.setPriority t new).thread t = (s.thread t).withPriority new := by
  unfold setPriority
  split
  · cases queued : (s.thread t).queue with
    | none => simp
    | some q =>
      have fields := (withPriority_task (s.thread t) new).2.2.2
      simp only [enqueue, modify_thread_self, setQueue_thread, remove_thread_self]
      unfold withPriority at fields ⊢
      split <;> simp_all
  · simp

theorem Wf.setPriority (wf : s.Wf) (t : T) (new : Priority cfg) : Reprioritized s (s.setPriority t new) where
  task u := by
    by_cases same : u = t
    · subst same
      rw [setPriority_thread_self]
      exact withPriority_task ..
    · rw [setPriority_thread_of_ne same]
      exact ⟨rfl, rfl, rfl, rfl⟩
  perm r := by
    unfold Threads.setPriority
    split
    · cases queued : (s.thread t).queue with
      | none => exact .refl _
      | some q =>
        simp only [enqueue, modify_queue, remove_some queued]
        by_cases same : r = q
        · subst same
          rw [setQueue_queue_self, setQueue_queue_self]
          exact placeQueued_perm.trans (perm_cons_erase ((wf.member t r).mpr queued)).symm
        · rw [setQueue_queue_of_ne same, modify_queue, modify_queue, setQueue_queue_of_ne same]
    · exact .refl _

end Threads

end Ecos
