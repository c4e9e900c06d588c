import Ecos.Sync.MutexSafety

namespace Ecos
open Threads List

namespace Mutexes
variable {cfg : Config} {T M : Type} [DecidableEq T] [DecidableEq M]
variable {skip : M → Prop} {s : Mutexes cfg T M} {t : T} {m : M} {threads : Threads cfg T M}

theorem SaneBut.alone (sane : s.SaneBut skip) (runs : (s.threads.thread t).Running) (n : M) :
    t ∉ s.threads.queue n := by
  intro queued
  have on := (sane.wf.member t n).mp queued
  rw [sane.queue_none runs] at on
  simp at on

theorem BoundedBut.test (bounded : s.BoundedBut (· = m)) (sane : s.SaneBut (· = m))
    (runs : (s.threads.thread t).Running) (inherit : (s.mutex m).protocol = .inherit)
    (poor : ∀ n, (s.mutex n).owner ≠ some t)
    (urgent : (s.mutex m).locked = false → ∀ w ∈ s.threads.queue m, s.pri t ≤ s.pri w) : (s.test m t).Bounded := by
  unfold Mutexes.test
  split
  · next busy => exact bounded.wait sane runs inherit busy poor
  · next free => exact bounded.acquire runs poor (urgent (by simpa using free))

theorem enter_priority (inherit : (s.mutex m).protocol = .inherit) (r : Thread cfg M) :
    (entered (s.mutex m) r).priority = r.priority := by
  simp [entered, inherit]

theorem Bounded.entered (bounded : s.Bounded) (sane : s.Sane) (runs : (s.threads.thread t).Running)
    (inherit : (s.mutex m).protocol = .inherit) : (s.withThreads (s.enter m t)).Bounded :=
  BoundedBut.revalue bounded (enter_revalues sane.wf) (sane.alone runs) fun _ => (enter_priority inherit _).le

theorem entered_urgent (sane : s.Sane) (inherit : (s.mutex m).protocol = .inherit)
    (urgent : ∀ w ∈ s.threads.queue m, s.pri t ≤ s.pri w) :
    ∀ w ∈ (s.enter m t).queue m, (s.withThreads (s.enter m t)).pri t ≤ (s.withThreads (s.enter m t)).pri w := by
  have made : Revalues t _ s.threads (s.enter m t) := enter_revalues sane.wf
  have same : ∀ u, (s.withThreads (s.enter m t)).pri u = s.pri u := by
    intro u
    by_cases self : u = t
    · subst self
      exact (congrArg Thread.priority made.self).trans (enter_priority inherit _)
    · exact revalued_pri made self
  intro w waits
  rw [same, same]
  exact urgent w ((revalued_mem made).mp waits)

section
variable (bounded : s.Bounded)
include bounded

theorem Bounded.lock (sane : s.Sane) (runs : (s.threads.thread t).Running)
    (inherit : (s.mutex m).protocol = .inherit) (first : s.Foremost t) (poor : ∀ n, (s.mutex n).owner ≠ some t) :
    (s.lock m t).Bounded := by
  have entered := bounded.entered sane runs inherit
  have still : ((s.enter m t).thread t).Running := running_of_task (enter_revalues sane.wf).same runs
  refine (entered.but _).test (Sane.but (SaneBut.enter sane) _) still inherit poor fun free => ?_
  exact entered_urgent sane inherit (bounded.foremost sane first free)

theorem Bounded.trylock (sane : s.Sane) (runs : (s.threads.thread t).Running)
    (inherit : (s.mutex m).protocol = .inherit) (first : s.Foremost t) (poor : ∀ n, (s.mutex n).owner ≠ some t) :
    (s.trylock m t).Bounded := by
  unfold Mutexes.trylock
  split
  · exact bounded
  · next free =>
    have vacant : (s.mutex m).locked = false := by simpa using free
    have still : ((s.enter m t).thread t).Running := running_of_task (enter_revalues sane.wf).same runs
    exact ((bounded.entered sane runs inherit).but _).acquire still poor
      (entered_urgent sane inherit (bounded.foremost sane first vacant))

theorem Bounded.arrive (sane : s.Sane) (inside : s.inside t = some m) : (s.setWoken t none).BoundedBut (· = m) where
  single := bounded.single
  apart := bounded.apart
  upright := bounded.upright
  owner := bounded.owner
  heir n apart free waiting := by
    obtain ⟨heir, woken, urgent⟩ := bounded.heir n not_false free waiting
    have other : heir ≠ t := by
      rintro rfl
      have within := (sane.onWay heir n woken).1
      rw [inside] at within
      exact apart (Option.some.inj within).symm
    exact ⟨heir, by simpa [setWoken, other] using woken, urgent⟩

theorem Bounded.outside : (s.setInside t none).Bounded where
  single := bounded.single
  apart n u owner := by
    by_cases same : u = t
    · subst same; simp [setInside]
    · simpa [setInside, same] using bounded.apart n u owner
  upright u inside := by
    have other : u ≠ t := by
      rintro rfl
      simp [setInside] at inside
    exact bounded.upright u (by simpa [setInside, other] using inside)
  owner := bounded.owner
  heir := bounded.heir

theorem Bounded.poor (inside : s.inside t = some m) (n : M) : (s.mutex n).owner ≠ some t := by
  intro owner
  have outside := bounded.apart n t owner
  rw [inside] at outside
  simp at outside

theorem Bounded.relock (sane : s.Sane) (runs : (s.threads.thread t).Running)
    (inherit : (s.mutex m).protocol = .inherit) (first : s.Foremost t) (inside : s.inside t = some m) :
    (s.relock m t).Bounded := by
  have poor := bounded.poor inside
  have again : ((s.setWoken t none).test m t).Bounded :=
    (bounded.arrive sane inside).test (sane.arrive inside) runs inherit poor fun free => bounded.foremost sane first free
  have unwoken : (s.setWoken t none).woken t = none := by simp [setWoken]
  unfold Mutexes.relock
  dsimp only
  have sameReason : ((s.setWoken t none).threads.thread t).wakeReason = (s.threads.thread t).wakeReason := rfl
  rw [sameReason]
  cases reason : (s.threads.thread t).wakeReason with
  | destruct | brk =>
    have kept := sane.unmark (t := t) (by simp [reason])
    rw [kept] at unwoken ⊢
    refine Bounded.outside (BoundedBut.revalue bounded (quit_revalues sane.wf) (sane.alone runs) ?_)
    rintro (⟨n, owner⟩ | woken)
    · exact absurd owner (poor n)
    · exact absurd unwoken woken
  | exit =>
    have kept := sane.unmark (t := t) (by simp [reason])
    rw [kept]
    refine BoundedBut.befall bounded (Befalls.exit sane.wf (sane.queue_none runs)) fun upright => ?_
    unfold exit
    split
    · exact upright
    · simp [ThreadState.exitedOnly]
  | none | wait | delay | timeout | done => exact again

theorem Bounded.mark (unwoken : s.woken t = none) : (s.setWoken t (some m)).Bounded where
  single := bounded.single
  apart := bounded.apart
  upright := bounded.upright
  owner := bounded.owner
  heir n kept free waiting := by
    obtain ⟨heir, woken, urgent⟩ := bounded.heir n kept free waiting
    have other : heir ≠ t := by
      rintro rfl
      rw [unwoken] at woken
      simp at woken
    exact ⟨heir, by simpa [setWoken, other] using woken, urgent⟩

end

theorem relayPriority_revalues {s : Threads cfg T M} (wf : s.Wf) (th o : T) :
    ∃ f, Threads.Revalues th f s (s.relayPriority th o m) ∧ (f (s.thread th)).priority ≤ (s.thread th).priority ∧
      (s.queue m ≠ [] → (f (s.thread th)).priority ≤ (s.thread o).priority) := by
  unfold relayPriority
  split
  · next none =>
    refine ⟨id, ⟨.refl s, rfl, fun _ _ => rfl⟩, le_rfl, fun waiting => ?_⟩
    exact absurd (isEmpty_iff.mp none) waiting
  · refine ⟨_, wf.setInheritedPriority th _, ?_, fun _ => ?_⟩
    · rw [Thread.inheriting_priority]
      exact min_le_right ..
    · rw [Thread.inheriting_priority]
      exact min_le_left ..

theorem Bounded.notify (bounded : s.Bounded) (sane : s.Sane) (inherit : (s.mutex m).protocol = .inherit)
    (owner : (s.mutex m).owner = some t) :
    (s.notify m).Bounded ∧ ((s.notify m).threads.queue m ≠ [] →
      ∃ th, (s.notify m).woken th = some m ∧
        ∀ w ∈ (s.notify m).threads.queue m, (s.notify m).pri th ≤ (s.notify m).pri w) := by
  cases waiters : s.threads.queue m with
  | nil =>
    have nothing : s.notify m = s := by simp [Mutexes.notify, waiters]
    rw [nothing]
    exact ⟨bounded, fun waiting => absurd waiters waiting⟩
  | cons th rest =>
    have queued : (s.threads.thread th).queue = some m := (sane.wf.member th m).mp (by simp [waiters])
    have asleep := sane.wf.inSleepset queued
    have unwoken : s.woken th = none := by
      cases woken : s.woken th with
      | none => rfl
      | some n => exact absurd (sane.onWay th n woken).2.1 (Thread.not_afoot asleep)
    have ne : t ≠ th := by
      rintro rfl
      exact bounded.owner_alone sane owner m (by simp [waiters])
    have gone : Befalls th s.threads (s.threads.dequeue m) := by
      rw [sane.wf.dequeue_eq waiters]
      exact Befalls.remove sane.wf th
    have off : (s.withThreads (s.threads.dequeue m)).Bounded := by
      refine BoundedBut.befall bounded gone fun upright => ?_
      rw [sane.wf.dequeue_eq waiters, remove_thread_self]
      exact upright
    have absent : ∀ n, th ∉ (s.threads.dequeue m).queue n := by
      intro n
      rw [sane.wf.dequeue_eq waiters, sane.wf.remove_queue, (sane.wf.nodup n).mem_erase_iff]
      simp
    obtain ⟨f, made, lower, relay⟩ := relayPriority_revalues (m := m) gone.wf th t
    have relayed := BoundedBut.revalue off made absent fun _ => lower
    have roused : Befalls th ((s.threads.dequeue m).relayPriority th t m)
        (((s.threads.dequeue m).relayPriority th t m).rouse th .done) := Befalls.rouse (made.same.wf gone.wf)
    have state : (((s.threads.dequeue m).relayPriority th t m).thread th).state = (s.threads.thread th).state := by
      rw [(made.same.task th).1, sane.wf.dequeue_eq waiters, remove_thread_self]
    have up := BoundedBut.befall relayed roused fun upright => by
      rw [rouse_thread_self (by rw [state]; exact asleep)]
      exact upright
    have result : s.notify m = (s.withThreads (((s.threads.dequeue m).relayPriority th t m).rouse th .done)).setWoken th
        (some m) := by
      simp only [Mutexes.notify, waiters, owner, inherit]
      rfl
    rw [result]
    refine ⟨Bounded.mark up unwoken, fun _ => ⟨th, by simp [setWoken], fun w waits => ?_⟩⟩
    have left : w ∈ (s.threads.dequeue m).queue m := (made.same.perm m).mem_iff.mp ((roused.subset m).subset waits)
    have other : w ≠ th := by
      rintro rfl
      exact absent m left
    have waiter : (((s.threads.dequeue m).relayPriority th t m).rouse th .done).thread w = s.threads.thread w := by
      rw [roused.others w other, made.others w other, gone.others w other]
    show ((((s.threads.dequeue m).relayPriority th t m).rouse th .done).thread th).priority ≤
      ((((s.threads.dequeue m).relayPriority th t m).rouse th .done).thread w).priority
    rw [waiter, roused.rank.1, made.self]
    refine (relay (ne_nil_of_mem left)).trans ?_
    rw [gone.others t ne]
    exact bounded.owner m t owner w ((gone.subset m).subset left)

theorem Bounded.free (bounded : s.Bounded)
    (handed : s.threads.queue m ≠ [] → ∃ th, s.woken th = some m ∧ ∀ w ∈ s.threads.queue m, s.pri th ≤ s.pri w) :
    ((s.setMutex m { s.mutex m with locked := false, owner := none }).setHolds t m false).Bounded := by
  have ownedBy : ∀ n u, ((s.setMutex m { s.mutex m with locked := false, owner := none }).mutex n).owner = some u →
      (s.mutex n).owner = some u := by
    intro n u owner
    by_cases same : n = m
    · subst same
      simp [setMutex] at owner
    · simpa [setMutex, same] using owner
  refine ⟨fun n n' u first second => bounded.single n n' u (ownedBy n u first) (ownedBy n' u second),
    fun n u owner => bounded.apart n u (ownedBy n u owner), bounded.upright,
    fun n u owner => bounded.owner n u (ownedBy n u owner), fun n kept unlocked waiting => ?_⟩
  by_cases same : n = m
  · subst same; exact handed waiting
  · exact bounded.heir n kept (by simpa [setMutex, setHolds, same] using unlocked) waiting

theorem Bounded.unlock (bounded : s.Bounded) (sane : s.Sane) (inherit : (s.mutex m).protocol = .inherit)
    (owner : (s.mutex m).owner = some t) : (s.unlock m t).Bounded := by
  obtain ⟨notified, handed⟩ := bounded.notify sane inherit owner
  have saneNext := (sane.notify (m := m) (by simp [owner])).1
  have owner' : ((s.notify m).mutex m).owner = some t := by rw [notify_mutex]; exact owner
  have freed := notified.free (t := t) handed
  refine BoundedBut.revalue freed (quit_revalues saneNext.wf) (notified.owner_alone saneNext owner') ?_
  rintro (⟨n, still⟩ | woken)
  · by_cases same : n = m
    · subst same
      simp [setMutex, setHolds] at still
    · have before : ((s.notify m).mutex n).owner = some t := by simpa [setMutex, setHolds, same] using still
      exact absurd (notified.single n m t before owner') same
  · have unwoken := saneNext.unwoken (notified.apart m t owner')
    exact absurd unwoken woken

theorem rouse_upright {s : Threads cfg T M} {reason : Reason} (upright : (s.thread t).state.suspended = false) :
    ((s.rouse t reason).thread t).state.suspended = false := by
  cases asleep : (s.thread t).state.inSleepset with
  | true => rw [rouse_thread_self asleep]; exact upright
  | false => rw [rouse_thread_awake asleep]; exact upright

theorem Bounded.releaseAll (bounded : s.Bounded) (wf : s.threads.Wf) (n : Nat) :
    (s.withThreads (s.threads.releaseAll m n)).Bounded := by
  induction n generalizing s with
  | zero => exact bounded
  | succ n ih =>
    unfold releaseAll
    split
    · exact bounded
    · next th rest head =>
      have broken : Befalls th s.threads (s.threads.rouse th .brk) := Befalls.rouse wf
      rw [release_head wf head]
      exact ih (BoundedBut.befall bounded broken rouse_upright) broken.wf

theorem Bounded.step (bounded : s.Bounded) (sane : s.Sane) {e : MutexEvent cfg T M} (enabled : s.Enabled e)
    (orderly : s.Orderly e) : (s.step e).Bounded := by
  obtain ⟨inherit, orderly⟩ := orderly
  cases e with
  | lock t m => exact bounded.lock sane enabled.1 (inherit m) orderly.1 orderly.2
  | relock t m => exact bounded.relock sane enabled.1 (inherit m) orderly enabled.2
  | trylock t m => exact bounded.trylock sane enabled.1 (inherit m) orderly.1 orderly.2
  | unlock t m => exact bounded.unlock sane (inherit m) enabled.2.2
  | release m => exact bounded.releaseAll sane.wf _
  | threadRelease t =>
    refine BoundedBut.befall bounded (Befalls.release sane.wf t) fun upright => ?_
    unfold Threads.release
    split
    any_goals exact upright
    all_goals exact rouse_upright upright
  | kill t | suspend t | setPriority t new => exact orderly.elim
  | exit t =>
    refine BoundedBut.befall bounded (Befalls.exit sane.wf (sane.queue_none enabled.1)) fun upright => ?_
    unfold exit
    split
    · exact upright
    · simp [ThreadState.exitedOnly]
  | resume t =>
    refine BoundedBut.befall bounded (Befalls.resume sane.wf t) fun upright => ?_
    rw [resume, modify_thread_self, Thread.resumed]
    split
    · rfl
    · split <;> exact upright
  | forceResume t =>
    refine BoundedBut.befall bounded (Befalls.forceResume sane.wf t) fun upright => ?_
    rw [forceResume, modify_thread_self, Thread.forceResumed]
    split
    · rfl
    · exact upright
  | delay t =>
    refine BoundedBut.befall bounded (Befalls.delay sane.wf (sane.queue_none enabled.1)) fun upright => ?_
    simpa [sleep, setSleepReason] using upright
  | alarm t =>
    refine BoundedBut.befall bounded (Befalls.alarm sane.wf t) fun upright => ?_
    unfold alarm
    split
    any_goals exact upright
    all_goals exact rouse_upright upright

/-- In every orderly run the owner of a mutex is at least as urgent as every
thread that waits for it; and while the mutex is free, so is the thread that
can take it next. -/
theorem inheritance_bounds_inversion (reach : (machine Orderly).Reach s) (m : M) :
    (∀ t, (s.mutex m).owner = some t → ∀ w ∈ s.threads.queue m,
      (s.threads.thread t).priority ≤ (s.threads.thread w).priority) ∧
    ((s.mutex m).locked = false → ∀ t, s.Foremost t → ∀ w ∈ s.threads.queue m,
      (s.threads.thread t).priority ≤ (s.threads.thread w).priority) := by
  have both : s.Sane ∧ s.Bounded := by
    refine reach.kept (P := fun s => s.Sane ∧ s.Bounded) ?_ ?_
    · rintro _ ⟨pri, protocol, ceiling, rfl⟩
      exact ⟨Sane.initial pri protocol ceiling, Bounded.initial pri protocol ceiling⟩
    · rintro s e ⟨sane, bounded⟩ ⟨enabled, orderly⟩
      refine ⟨sane.step enabled ?_, bounded.step sane enabled orderly⟩
      cases e with
      | kill t => exact orderly.2.elim
      | _ => trivial
  obtain ⟨sane, bounded⟩ := both
  exact ⟨bounded.owner m, fun free t first => bounded.foremost sane first free⟩

/-- Thread 0 starts alone and takes the mutex for which the more urgent threads 1
and 2 then wait. -/
def overtake : List (MutexEvent .twoLevels (Fin 3) Unit) :=
  [.resume 0, .lock 0 (), .resume 1, .lock 1 (), .resume 2]

theorem inheritance_bounds_inversion_overtaken :
    ((overtake.foldl step (initial ![1, 0, 0] (fun _ => .inherit) fun _ => 0)).mutex ()).owner = some 0 ∧
      (overtake.foldl step (initial ![1, 0, 0] (fun _ => .inherit) fun _ => 0)).threads.queue () = [1] ∧
      ((overtake.foldl step (initial ![1, 0, 0] (fun _ => .inherit) fun _ => 0)).threads.thread 0).priority ≤
        ((overtake.foldl step (initial ![1, 0, 0] (fun _ => .inherit) fun _ => 0)).threads.thread 1).priority := by
  have owner : ((overtake.foldl step (initial ![1, 0, 0] (fun _ => .inherit) fun _ => 0)).mutex ()).owner = some 0 := by
    decide
  have queue : (overtake.foldl step (initial ![1, 0, 0] (fun _ => .inherit) fun _ => 0)).threads.queue () = [1] := by
    decide
  refine ⟨owner, queue, (inheritance_bounds_inversion (Machine.Reach.run (.start ⟨_, _, _, rfl⟩) ?_) ()).1 0 owner 1 ?_⟩
  · simp only [overtake, Machine.Admits, Orderly, Foremost, and_true]
    decide
  · rw [queue]
    simp

end Mutexes

end Ecos
