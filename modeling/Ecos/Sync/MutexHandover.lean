import Ecos.Sync.Inherit

namespace Ecos
open Threads Thread ThreadState Mutexes Option

namespace Mutexes
variable {cfg : Config} {T M : Type} [DecidableEq T] [DecidableEq M]

/-- A free mutex with waiters, unless it is one of `skip`, has a thread on its way
to take it: one that an `unlock` has woken, that is alive and has not tested the
mutex since. -/
structure SaneBut (skip : M → Prop) (s : Mutexes cfg T M) : Prop where
  wf : s.threads.Wf
  waits : ∀ t m, (s.threads.thread t).queue = some m → s.inside t = some m
  living : ∀ t, (s.threads.thread t).queue ≠ none → (s.threads.thread t).state.exited = false
  locked : ∀ m, (s.mutex m).locked = true ↔ (s.mutex m).owner.isSome = true
  holds : ∀ t m, s.holds t m = true ↔ (s.mutex m).owner = some t
  onWay : ∀ t m, s.woken t = some m → s.inside t = some m ∧ (s.threads.thread t).Afoot ∧
    (s.threads.thread t).wakeReason = .done
  pass : ∀ m, ¬ skip m → (s.mutex m).locked = false → s.threads.queue m ≠ [] → ∃ t, s.woken t = some m

abbrev Sane (s : Mutexes cfg T M) : Prop := s.SaneBut fun _ => False

variable {skip : M → Prop} {s : Mutexes cfg T M} {t : T} {m : M} {threads : Threads cfg T M}

theorem Sane.initial (pri : T → Priority cfg) (protocol : M → Protocol) (ceiling : M → Priority cfg) :
    (initial pri protocol ceiling : Mutexes cfg T M).Sane where
  wf := ⟨fun t q => by simp [Mutexes.initial, create], fun q => by simp [Mutexes.initial],
    fun t q queued => by simp [Mutexes.initial, create] at queued,
    fun t q queued => by simp [Mutexes.initial, create] at queued⟩
  waits t m queued := by simp [Mutexes.initial, create] at queued
  living t queued := by simp [Mutexes.initial, create]
  locked m := by simp [Mutexes.initial]
  holds t m := by simp [Mutexes.initial]
  onWay t m woken := by simp [Mutexes.initial] at woken
  pass m _ _ waiting := by simp [Mutexes.initial] at waiting

theorem SaneBut.befall (sane : s.SaneBut skip) (befalls : Threads.Befalls t s.threads threads)
    (calm : (s.threads.thread t).Afoot → s.woken t ≠ none →
      (threads.thread t).Afoot ∧ (threads.thread t).wakeReason = (s.threads.thread t).wakeReason) :
    (s.withThreads threads).SaneBut skip where
  wf := befalls.wf
  waits u m queued := by
    have before := (befalls.subset m).subset ((befalls.wf.member u m).mpr queued)
    exact sane.waits u m ((sane.wf.member u m).mp before)
  living u queued := by
    by_cases same : u = t
    · subst same
      obtain ⟨m, on⟩ := ne_none_iff_exists'.mp queued
      have before := (sane.wf.member u m).mp ((befalls.subset m).subset ((befalls.wf.member u m).mpr on))
      have living := sane.living u (by simp [before])
      exact (befalls.alive queued).trans living
    · have others : (s.withThreads threads).threads.thread u = s.threads.thread u := befalls.others u same
      rw [others] at queued ⊢
      exact sane.living u queued
  locked := sane.locked
  holds := sane.holds
  onWay u m woken := by
    obtain ⟨inside, afoot, reason⟩ := sane.onWay u m woken
    by_cases same : u = t
    · subst same
      obtain ⟨still, kept⟩ := calm afoot (by rw [show s.woken u = some m from woken]; simp)
      exact ⟨inside, still, kept.trans reason⟩
    · have others : (s.withThreads threads).threads.thread u = s.threads.thread u := befalls.others u same
      rw [others]
      exact ⟨inside, afoot, reason⟩
  pass m kept free waiting := by
    refine sane.pass m kept free ?_
    intro none
    have sub := befalls.subset m
    rw [none] at sub
    exact waiting (List.sublist_nil.mp sub)

theorem SaneBut.reprioritize (sane : s.SaneBut skip) (same : Threads.Reprioritized s.threads threads) :
    (s.withThreads threads).SaneBut skip where
  wf := same.wf sane.wf
  waits u m queued := sane.waits u m ((same.task u).2.2.2 ▸ queued)
  living u queued := by
    have living := sane.living u (fun none => queued ((same.task u).2.2.2.trans none))
    exact (congrArg exited (same.task u).1).trans living
  locked := sane.locked
  holds := sane.holds
  onWay u m woken := by
    obtain ⟨inside, ⟨awake, alive, reason⟩, done⟩ := sane.onWay u m woken
    obtain ⟨state, sleep, wake, -⟩ := same.task u
    refine ⟨inside, ⟨?_, ?_, sleep.trans reason⟩, wake.trans done⟩
    · exact (congrArg inSleepset state).trans awake
    · exact (congrArg exited state).trans alive
  pass m kept free waiting := by
    refine sane.pass m kept free ?_
    intro none
    have perm := same.perm m
    rw [none] at perm
    exact waiting perm.eq_nil

theorem SaneBut.queue_none (sane : s.SaneBut skip) (runs : (s.threads.thread t).Running) : (s.threads.thread t).queue = none := by
  refine sane.wf.queue_none ?_
  rw [show _ = running from runs]
  rfl

section
variable (sane : s.SaneBut (· = m))
include sane

theorem SaneBut.block (runs : (s.threads.thread t).Running) (busy : (s.mutex m).locked = true)
    (tested : s.woken t = none) :
    ((s.withThreads (s.threads.block t m .wait)).setInside t (some m)).Sane where
  wf := sane.wf.block (sane.queue_none runs) rfl
  waits u n queued := by
    by_cases same : u = t
    · subst same
      simp only [withThreads, setInside, block_thread_self, blocked] at queued
      simpa [withThreads, setInside] using queued
    · simp only [withThreads, setInside, block_thread_of_ne same] at queued
      simpa [withThreads, setInside, same] using sane.waits u n queued
  living u queued := by
    by_cases same : u = t
    · subst same
      simp only [withThreads, setInside, block_thread_self, blocked]
      rw [show (s.threads.thread u).state = .running from runs]
      rfl
    · simp only [withThreads, setInside, block_thread_of_ne same] at queued ⊢
      exact sane.living u queued
  locked := sane.locked
  holds := sane.holds
  onWay u n woken := by
    have other : u ≠ t := by
      rintro rfl
      rw [show s.woken u = some n from woken] at tested
      simp at tested
    simpa [withThreads, setInside, block_thread_of_ne other, other] using sane.onWay u n woken
  pass n _ free waiting := by
    have apart : n ≠ m := by
      rintro rfl
      rw [show (s.mutex n).locked = false from free] at busy
      simp at busy
    refine sane.pass n apart free ?_
    simpa [withThreads, setInside, block_queue_of_ne apart] using waiting

theorem SaneBut.wait (runs : (s.threads.thread t).Running) (busy : (s.mutex m).locked = true)
    (tested : s.woken t = none) : (s.wait m t).Sane := by
  have asleep := sane.block runs busy tested
  unfold Mutexes.wait
  split
  · exact asleep.reprioritize (asleep.wf.setInheritedPriority _ _).same
  · exact asleep

theorem SaneBut.acquire (runs : (s.threads.thread t).Running) (free : (s.mutex m).locked = false)
    (tested : s.woken t = none) : (s.acquire m t).Sane where
  wf := sane.wf
  waits u n queued := by
    have other : u ≠ t := by
      rintro rfl
      have alone := sane.queue_none runs
      rw [show (s.threads.thread u).queue = some n from queued] at alone
      simp at alone
    simpa [Mutexes.acquire, setInside, setHolds, setMutex, other] using sane.waits u n queued
  living := sane.living
  locked n := by
    by_cases same : n = m
    · subst same
      simp [acquire, setInside, setHolds, setMutex]
    · simpa [Mutexes.acquire, setInside, setHolds, setMutex, same] using sane.locked n
  holds u n := by
    have vacant : (s.mutex m).owner = none := by
      have known := sane.locked m
      simpa [free] using known
    have before := sane.holds u n
    by_cases same : n = m
    · subst same
      by_cases self : u = t
      · subst self
        simp [acquire, setInside, setHolds, setMutex]
      · simpa [acquire, setInside, setHolds, setMutex, self, Ne.symm self, vacant] using before
    · by_cases self : u = t
      · subst self
        simpa [acquire, setInside, setHolds, setMutex, same] using before
      · simpa [Mutexes.acquire, setInside, setHolds, setMutex, same, self] using before
  onWay u n woken := by
    have other : u ≠ t := by
      rintro rfl
      rw [show s.woken u = some n from woken] at tested
      simp at tested
    simpa [Mutexes.acquire, setInside, setHolds, setMutex, other] using sane.onWay u n woken
  pass n _ unlocked waiting := by
    have apart : n ≠ m := by
      rintro rfl
      simp [acquire, setInside, setHolds, setMutex] at unlocked
    refine sane.pass n apart ?_ waiting
    simpa [Mutexes.acquire, setInside, setHolds, setMutex, apart] using unlocked

theorem SaneBut.test (runs : (s.threads.thread t).Running) (tested : s.woken t = none) : (s.test m t).Sane := by
  unfold Mutexes.test
  split
  · next busy => exact sane.wait runs busy tested
  · next free => exact sane.acquire runs (by simpa using free) tested

end

theorem SaneBut.unwoken (sane : s.SaneBut skip) (outside : s.inside t = none) : s.woken t = none := by
  cases woken : s.woken t with
  | none => rfl
  | some m =>
    have inside := (sane.onWay t m woken).1
    rw [outside] at inside
    simp at inside

theorem Sane.but (sane : s.Sane) (skip : M → Prop) : s.SaneBut skip :=
  { sane with pass := fun m _ => sane.pass m not_false }

theorem SaneBut.enter (sane : s.SaneBut skip) : (s.withThreads (s.enter m t)).SaneBut skip :=
  sane.reprioritize (enter_revalues sane.wf).same

theorem SaneBut.quit (sane : s.SaneBut skip) : (s.withThreads (s.quit m t)).SaneBut skip :=
  sane.reprioritize (quit_revalues sane.wf).same

theorem running_of_task {s s' : Threads cfg T M} (same : Threads.Reprioritized s s') (runs : (s.thread t).Running) :
    (s'.thread t).Running := (same.task t).1.trans runs

section
variable (sane : s.Sane)
include sane

theorem Sane.lock (runs : (s.threads.thread t).Running) (outside : s.inside t = none) : (s.lock m t).Sane :=
  (sane.but _).enter.test (running_of_task (enter_revalues sane.wf).same runs) (sane.unwoken outside)

theorem Sane.trylock (runs : (s.threads.thread t).Running) (outside : s.inside t = none) : (s.trylock m t).Sane := by
  unfold Mutexes.trylock
  split
  · exact sane
  · next free =>
    have vacant : (s.mutex m).locked = false := by simpa using free
    exact (sane.but _).enter.acquire (running_of_task (enter_revalues sane.wf).same runs) vacant
      (sane.unwoken outside)

theorem Sane.arrive (inside : s.inside t = some m) : (s.setWoken t none).SaneBut (· = m) where
  wf := sane.wf
  waits := sane.waits
  living := sane.living
  locked := sane.locked
  holds := sane.holds
  onWay u n woken := by
    have other : u ≠ t := by
      rintro rfl
      simp [setWoken] at woken
    exact sane.onWay u n (by simpa [setWoken, other] using woken)
  pass n apart free waiting := by
    obtain ⟨u, woken⟩ := sane.pass n not_false free waiting
    have other : u ≠ t := by
      rintro rfl
      have within := (sane.onWay u n woken).1
      rw [inside] at within
      exact apart (some.inj within).symm
    exact ⟨u, by simpa [setWoken, other] using woken⟩

theorem Sane.unmark (other : (s.threads.thread t).wakeReason ≠ .done) : s.setWoken t none = s := by
  have unwoken : s.woken t = none := by
    cases woken : s.woken t with
    | none => rfl
    | some m => exact absurd (sane.onWay t m woken).2.2 other
  simp [setWoken, ← unwoken]

theorem Sane.outside (runs : (s.threads.thread t).Running) (unwoken : s.woken t = none) :
    (s.setInside t none).Sane where
  wf := sane.wf
  waits u n queued := by
    have other : u ≠ t := by
      rintro rfl
      have alone := sane.queue_none runs
      rw [show (s.threads.thread u).queue = some n from queued] at alone
      simp at alone
    simpa [setInside, other] using sane.waits u n queued
  living := sane.living
  locked := sane.locked
  holds := sane.holds
  onWay u n woken := by
    have other : u ≠ t := by
      rintro rfl
      rw [show s.woken u = some n from woken] at unwoken
      simp at unwoken
    simpa [setInside, other] using sane.onWay u n woken
  pass := sane.pass

theorem Sane.relock (runs : (s.threads.thread t).Running) (inside : s.inside t = some m) : (s.relock m t).Sane := by
  have again : ((s.setWoken t none).test m t).Sane :=
    (sane.arrive inside).test runs (by simp [setWoken])
  have unwoken : (s.setWoken t none).woken t = none := by simp [setWoken]
  unfold Mutexes.relock
  dsimp only
  have sameReason : ((s.setWoken t none).threads.thread t).wakeReason = (s.threads.thread t).wakeReason := rfl
  rw [sameReason]
  cases reason : (s.threads.thread t).wakeReason with
  | destruct | brk =>
    have kept := sane.unmark (t := t) (by simp [reason])
    rw [kept] at unwoken ⊢
    exact Sane.outside (SaneBut.quit sane) (running_of_task (quit_revalues sane.wf).same runs) unwoken
  | exit =>
    have kept := sane.unmark (t := t) (by simp [reason])
    rw [kept] at unwoken ⊢
    exact SaneBut.befall sane (Befalls.exit sane.wf (sane.queue_none runs)) fun _ on => absurd unwoken on
  | none | wait | delay | timeout | done => exact again

end

end Mutexes

end Ecos
