import Mathlib.Data.Fin.VecNotation
import Mathlib.Tactic.FinCases
import Ecos.Sync.MutexHandover

namespace Ecos
open Option Threads Thread ThreadState Mutexes List

namespace Mutexes
variable {cfg : Config} {T M : Type} [DecidableEq T] [DecidableEq M]
variable {s : Mutexes cfg T M} {t : T} {m : M}

theorem Sane.mark (sane : s.Sane) (inside : s.inside t = some m) (afoot : (s.threads.thread t).Afoot)
    (done : (s.threads.thread t).wakeReason = .done) : (s.setWoken t (some m)).Sane where
  wf := sane.wf
  waits := sane.waits
  living := sane.living
  locked := sane.locked
  holds := sane.holds
  onWay u n woken := by
    by_cases same : u = t
    · subst same
      have eq : m = n := by simpa [setWoken] using woken
      subst eq
      exact ⟨inside, afoot, done⟩
    · exact sane.onWay u n (by simpa [setWoken, same] using woken)
  pass n kept free waiting := by
    obtain ⟨u, woken⟩ := sane.pass n kept free waiting
    by_cases same : u = t
    · subst same
      have within := (sane.onWay u n woken).1
      rw [inside] at within
      exact ⟨u, by simpa [setWoken] using within⟩
    · exact ⟨u, by simpa [setWoken, same] using woken⟩

theorem Sane.notify (sane : s.Sane) (owned : (s.mutex m).owner.isSome = true) :
    (s.notify m).Sane ∧ ((s.notify m).threads.queue m ≠ [] → ∃ t, (s.notify m).woken t = some m) := by
  obtain ⟨owner, isOwner⟩ := isSome_iff_exists.mp owned
  cases waiters : s.threads.queue m with
  | nil =>
    have nothing : s.notify m = s := by simp [Mutexes.notify, waiters]
    rw [nothing]
    exact ⟨sane, fun waiting => absurd waiters waiting⟩
  | cons th rest =>
    have queued : (s.threads.thread th).queue = some m := (sane.wf.member th m).mp (by simp [waiters])
    have asleep := sane.wf.inSleepset queued
    have off := sane.befall (Befalls.remove sane.wf th) fun afoot => absurd afoot (not_afoot asleep)
    rw [← sane.wf.dequeue_eq waiters] at off
    -- the relay changes priorities only
    have relayed : ∃ threads, (s.withThreads threads).Sane ∧ Reprioritized (s.threads.dequeue m) threads ∧
        s.notify m = (s.withThreads (threads.rouse th .done)).setWoken th (some m) := by
      cases kind : (s.mutex m).protocol with
      | none | ceiling =>
        refine ⟨_, off, .refl _, ?_⟩
        simp only [Mutexes.notify, waiters, isOwner, kind]
        rfl
      | inherit =>
        have same : Reprioritized (s.threads.dequeue m) ((s.threads.dequeue m).relayPriority th owner m) := by
          unfold relayPriority
          split
          · exact .refl _
          · exact (Wf.setInheritedPriority off.wf _ _).same
        refine ⟨_, off.reprioritize same, same, ?_⟩
        simp only [Mutexes.notify, waiters, isOwner, kind]
        rfl
    obtain ⟨threads, ready, same, result⟩ := relayed
    have state : (threads.thread th).state = (s.threads.thread th).state := by
      rw [(same.task th).1, sane.wf.dequeue_eq waiters]
      simp
    have still : (threads.thread th).state.inSleepset = true := by rw [state]; exact asleep
    have roused : Befalls th threads (threads.rouse th .done) := Befalls.rouse ready.wf
    have up := ready.befall roused fun afoot => absurd afoot (not_afoot still)
    have record : (threads.rouse th .done).thread th = (threads.thread th).awakened .done :=
      rouse_thread_self still
    refine ⟨?_, fun _ => ⟨th, by simp [result, setWoken]⟩⟩
    rw [result]
    refine Sane.mark up (sane.waits th m queued) ⟨?_, ?_, ?_⟩ ?_
    · simp [withThreads, record, awakened, clearSleepset, inSleepset]
    · have living := sane.living th (by simp [queued])
      simpa [withThreads, record, awakened, clearSleepset, state] using living
    · simp [withThreads, record, awakened]
    · simp [withThreads, record, awakened]

theorem notify_mutex : (s.notify m).mutex = s.mutex := by
  unfold notify
  split <;> rfl

theorem Sane.free (sane : s.Sane) (owned : (s.mutex m).owner = some t)
    (handed : s.threads.queue m ≠ [] → ∃ t, s.woken t = some m) :
    ((s.setMutex m { s.mutex m with locked := false, owner := none }).setHolds t m false).Sane where
  wf := sane.wf
  waits := sane.waits
  living := sane.living
  locked n := by
    by_cases same : n = m
    · subst same; simp [setMutex, setHolds]
    · simpa [setMutex, setHolds, same] using sane.locked n
  holds u n := by
    have before := sane.holds u n
    by_cases same : n = m
    · subst same
      by_cases self : u = t
      · subst self; simp [setMutex, setHolds]
      · have other : s.holds u n ≠ true := by
          intro held
          have owner := before.mp held
          rw [owned] at owner
          exact self (some.inj owner).symm
        simpa [setMutex, setHolds, self] using other
    · by_cases self : u = t
      · subst self; simpa [setMutex, setHolds, same] using before
      · simpa [setMutex, setHolds, same, self] using before
  onWay := sane.onWay
  pass n kept unlocked waiting := by
    by_cases same : n = m
    · subst same; exact handed waiting
    · exact sane.pass n kept (by simpa [setMutex, setHolds, same] using unlocked) waiting

theorem Sane.unlock (sane : s.Sane) (owned : (s.mutex m).owner = some t) : (s.unlock m t).Sane := by
  obtain ⟨notified, handed⟩ := sane.notify (m := m) (by simp [owned])
  have quit := SaneBut.quit (m := m) (t := t) notified
  refine Sane.free quit (by simpa [withThreads, notify_mutex] using owned) ?_
  intro waiting
  refine handed ?_
  intro none
  have perm := (quit_revalues (m := m) (t := t) notified.wf).same.perm m
  rw [none] at perm
  exact waiting perm.eq_nil

theorem release_head {s : Threads cfg T M} (wf : s.Wf) {rest : List T} (head : s.queue m = t :: rest) :
    (s.dequeue m).release t = s.rouse t .brk := by
  have queued : (s.thread t).queue = some m := (wf.member t m).mp (by simp [head])
  have blocking := wf.blocking t m queued
  have woken : s.wakeHead m .brk = s.rouse t .brk := wf.wakeHead_eq head
  simp only [wakeHead, head] at woken
  rw [← woken, wf.dequeue_eq head]
  unfold Threads.release
  rw [remove_thread_self]
  cases reason : (s.thread t).sleepReason <;> simp [reason, Reason.blocking] at blocking ⊢

theorem Sane.releaseAll (sane : s.Sane) (n : Nat) : (s.withThreads (s.threads.releaseAll m n)).Sane := by
  induction n generalizing s with
  | zero => exact sane
  | succ n ih =>
    unfold releaseAll
    split
    · exact sane
    · next th rest head =>
      have queued : (s.threads.thread th).queue = some m := (sane.wf.member th m).mp (by simp [head])
      rw [release_head sane.wf head]
      have broken : (s.withThreads (s.threads.rouse th .brk)).Sane :=
        sane.befall (Befalls.rouse sane.wf) fun afoot =>
          absurd afoot (not_afoot (sane.wf.inSleepset queued))
      exact ih broken

/-- A thread that an `unlock` has woken is not killed before it has tested the
mutex again. -/
def SparesWoken (s : Mutexes cfg T M) : MutexEvent cfg T M → Prop
  | .kill t => s.woken t = none
  | _ => True

theorem Sane.step (sane : s.Sane) {e : MutexEvent cfg T M} (enabled : s.Enabled e) (spares : s.SparesWoken e) :
    (s.step e).Sane := by
  cases e with
  | lock t m => exact sane.lock enabled.1 enabled.2
  | relock t m => exact sane.relock enabled.1 enabled.2
  | trylock t m => exact sane.trylock enabled.1 enabled.2
  | unlock t m => exact sane.unlock enabled.2.2
  | release m => exact sane.releaseAll _
  | threadRelease t =>
    refine SaneBut.befall sane (Befalls.release sane.wf t) fun afoot _ => ?_
    rw [afoot_release afoot]
    exact ⟨afoot, rfl⟩
  | kill t => exact SaneBut.befall sane (Befalls.kill sane.wf t) fun _ on => absurd spares on
  | exit t =>
    exact SaneBut.befall sane (Befalls.exit sane.wf (sane.queue_none enabled.1))
      fun _ on => absurd (sane.unwoken enabled.2) on
  | suspend t =>
    refine SaneBut.befall sane (Befalls.suspend sane.wf t) fun afoot _ => ?_
    rw [suspend, modify_thread_self]
    exact ⟨afoot.suspended, rfl⟩
  | resume t =>
    refine SaneBut.befall sane (Befalls.resume sane.wf t) fun afoot _ => ?_
    rw [resume, modify_thread_self]
    exact afoot.resumed
  | forceResume t =>
    refine SaneBut.befall sane (Befalls.forceResume sane.wf t) fun afoot _ => ?_
    rw [forceResume, modify_thread_self]
    exact afoot.forceResumed
  | delay t =>
    exact SaneBut.befall sane (Befalls.delay sane.wf (sane.queue_none enabled.1))
      fun _ on => absurd (sane.unwoken enabled.2) on
  | alarm t =>
    refine SaneBut.befall sane (Befalls.alarm sane.wf t) fun afoot _ => ?_
    rw [afoot_alarm afoot]
    exact ⟨afoot, rfl⟩
  | setPriority t new =>
    have changed := SaneBut.reprioritize sane (sane.wf.setPriority t new)
    exact ⟨changed.wf, changed.waits, changed.living, changed.locked, changed.holds, changed.onWay, changed.pass⟩

/-- The priority with which a thread competes for the processor. -/
def pri (s : Mutexes cfg T M) (t : T) : Priority cfg := (s.threads.thread t).priority

/-- No runnable thread is more urgent: the scheduler dispatches no other. -/
def Foremost (s : Mutexes cfg T M) (t : T) : Prop := ∀ u, (s.threads.thread u).Running → s.pri t ≤ s.pri u

/-- The steps under which inheritance is to bound inversion: a thread acts only
when it is the most urgent, locks only when it owns no mutex, all mutexes
follow the inheritance protocol, and nobody is suspended, killed or given
another priority. -/
def Orderly (s : Mutexes cfg T M) (e : MutexEvent cfg T M) : Prop :=
  (∀ m, (s.mutex m).protocol = .inherit) ∧
  match e with
  | .lock t _ | .trylock t _ => s.Foremost t ∧ ∀ m, (s.mutex m).owner ≠ some t
  | .relock t _ | .unlock t _ | .exit t | .delay t => s.Foremost t
  | .release _ | .threadRelease _ | .resume _ | .forceResume _ | .alarm _ => True
  | .kill _ | .suspend _ | .setPriority .. => False

/-- An owner is at least as urgent as the threads that wait for its mutex. A free
mutex, unless it is one of `skip`, has an heir that is so. -/
structure BoundedBut (skip : M → Prop) (s : Mutexes cfg T M) : Prop where
  single : ∀ m n t, (s.mutex m).owner = some t → (s.mutex n).owner = some t → m = n
  apart : ∀ m t, (s.mutex m).owner = some t → s.inside t = none
  upright : ∀ t, s.inside t ≠ none → (s.threads.thread t).state.suspended = false
  owner : ∀ m t, (s.mutex m).owner = some t → ∀ w ∈ s.threads.queue m, s.pri t ≤ s.pri w
  heir : ∀ m, ¬ skip m → (s.mutex m).locked = false → s.threads.queue m ≠ [] →
    ∃ t, s.woken t = some m ∧ ∀ w ∈ s.threads.queue m, s.pri t ≤ s.pri w

abbrev Bounded (s : Mutexes cfg T M) : Prop := s.BoundedBut fun _ => False

variable {skip : M → Prop} {s : Mutexes cfg T M} {t : T} {m : M} {threads : Threads cfg T M}

theorem Bounded.initial (pri : T → Priority cfg) (protocol : M → Protocol) (ceiling : M → Priority cfg) :
    (initial pri protocol ceiling : Mutexes cfg T M).Bounded where
  single m n t owner := by simp [Mutexes.initial] at owner
  apart m t owner := by simp [Mutexes.initial] at owner
  upright t inside := by simp [Mutexes.initial] at inside
  owner m t owner := by simp [Mutexes.initial] at owner
  heir m _ _ waiting := by simp [Mutexes.initial] at waiting

theorem BoundedBut.but (bounded : s.Bounded) (skip : M → Prop) : s.BoundedBut skip :=
  { bounded with heir := fun m _ => bounded.heir m not_false }

theorem BoundedBut.owner_alone (bounded : s.BoundedBut skip) (sane : s.SaneBut skip)
    (owner : (s.mutex m).owner = some t) (n : M) : t ∉ s.threads.queue n := by
  intro queued
  have inside := sane.waits t n ((sane.wf.member t n).mp queued)
  rw [bounded.apart m t owner] at inside
  simp at inside

theorem BoundedBut.runs (bounded : s.BoundedBut skip) (sane : s.SaneBut skip) (woken : s.woken t = some m) :
    (s.threads.thread t).Running := by
  obtain ⟨inside, ⟨awake, alive, -⟩, -⟩ := sane.onWay t m woken
  have upright := bounded.upright t (by simp [inside])
  unfold Running
  revert awake alive upright
  rcases (s.threads.thread t).state with ⟨sleeping, countsleep, suspended, exited⟩
  simp only [inSleepset, running, Bool.or_eq_false_iff]
  rintro ⟨rfl, rfl⟩ rfl rfl
  rfl

theorem BoundedBut.foremost (bounded : s.Bounded) (sane : s.Sane) (first : s.Foremost t)
    (free : (s.mutex m).locked = false) : ∀ w ∈ s.threads.queue m, s.pri t ≤ s.pri w := by
  intro w waits
  obtain ⟨heir, woken, urgent⟩ := bounded.heir m not_false free (ne_nil_of_mem waits)
  exact (first heir (bounded.runs sane woken)).trans (urgent w waits)

theorem BoundedBut.befall (bounded : s.BoundedBut skip) (befalls : Threads.Befalls t s.threads threads)
    (upright : (s.threads.thread t).state.suspended = false → (threads.thread t).state.suspended = false) :
    (s.withThreads threads).BoundedBut skip := by
  have pri : ∀ u, (s.withThreads threads).pri u = s.pri u := by
    intro u
    by_cases same : u = t
    · subst same; exact befalls.rank.1
    · exact congrArg priority (befalls.others u same)
  refine ⟨bounded.single, bounded.apart, fun u inside => ?_, fun n u owner w waits => ?_, fun n kept free waiting => ?_⟩
  · by_cases same : u = t
    · subst same; exact upright (bounded.upright u inside)
    · have others : (s.withThreads threads).threads.thread u = s.threads.thread u := befalls.others u same
      rw [others]
      exact bounded.upright u inside
  · rw [pri, pri]
    exact bounded.owner n u owner w ((befalls.subset n).subset waits)
  · have before : s.threads.queue n ≠ [] := by
      intro none
      have sub := befalls.subset n
      rw [none] at sub
      exact waiting (sublist_nil.mp sub)
    obtain ⟨heir, woken, urgent⟩ := bounded.heir n kept free before
    refine ⟨heir, woken, fun w waits => ?_⟩
    rw [pri, pri]
    exact urgent w ((befalls.subset n).subset waits)

section Revalue
variable {f : Thread cfg M → Thread cfg M}

section
variable (made : Threads.Revalues t f s.threads threads)
include made

theorem revalued_pri {u : T} (ne : u ≠ t) :
    (s.withThreads threads).pri u = s.pri u := congrArg priority (made.others u ne)

theorem revalued_mem {w : T} :
    w ∈ (s.withThreads threads).threads.queue m ↔ w ∈ s.threads.queue m := (made.same.perm m).mem_iff

theorem revalued_ne_nil : (s.withThreads threads).threads.queue m ≠ [] → s.threads.queue m ≠ [] := by
  intro waiting none
  have perm := made.same.perm m
  rw [none] at perm
  exact waiting perm.eq_nil

end

/-- One thread that is on no queue gets another priority; what its old one was
good for, the new one is. -/
theorem BoundedBut.revalue (bounded : s.BoundedBut skip) (made : Threads.Revalues t f s.threads threads)
    (alone : ∀ n, t ∉ s.threads.queue n)
    (better : (∃ n, (s.mutex n).owner = some t) ∨ s.woken t ≠ none →
      (f (s.threads.thread t)).priority ≤ (s.threads.thread t).priority) :
    (s.withThreads threads).BoundedBut skip := by
  have self : (s.withThreads threads).pri t = (f (s.threads.thread t)).priority := congrArg priority made.self
  have kept : ∀ n u, ((∃ n, (s.mutex n).owner = some u) ∨ s.woken u ≠ none) →
      (∀ w ∈ s.threads.queue n, s.pri u ≤ s.pri w) →
      ∀ w ∈ (s.withThreads threads).threads.queue n, (s.withThreads threads).pri u ≤ (s.withThreads threads).pri w := by
    intro n u role urgent w waits
    have queued := (revalued_mem made).mp waits
    have apart : w ≠ t := by
      rintro rfl
      exact alone n queued
    rw [revalued_pri made apart]
    refine le_trans ?_ (urgent w queued)
    by_cases same : u = t
    · subst same
      rw [self]
      exact better role
    · rw [revalued_pri made same]
  refine ⟨bounded.single, bounded.apart, fun u inside => ?_, fun n u owner => ?_, fun n spared free waiting => ?_⟩
  · have state := (made.same.task u).1
    exact (congrArg ThreadState.suspended state).trans (bounded.upright u inside)
  · exact kept n u (.inl ⟨n, owner⟩) (bounded.owner n u owner)
  · obtain ⟨heir, woken, urgent⟩ := bounded.heir n spared free (revalued_ne_nil made waiting)
    have role : s.woken heir ≠ none := by rw [woken]; simp
    exact ⟨heir, woken, kept n heir (.inr role) urgent⟩

end Revalue

/-- A thread goes to sleep on a locked mutex, and the owner inherits. -/
theorem BoundedBut.wait (bounded : s.BoundedBut (· = m)) (sane : s.SaneBut (· = m))
    (runs : (s.threads.thread t).Running) (inherit : (s.mutex m).protocol = .inherit)
    (busy : (s.mutex m).locked = true) (poor : ∀ n, (s.mutex n).owner ≠ some t) : (s.wait m t).Bounded := by
  obtain ⟨o, isOwner⟩ := isSome_iff_exists.mp ((sane.locked m).mp busy)
  have other : o ≠ t := by
    rintro rfl
    exact poor m isOwner
  have made := (sane.wf.block (q :=
    m) (sane.queue_none runs) (show Reason.wait.blocking = true from rfl)).setInheritedPriority o
    ((s.threads.block t m .wait).thread t).priority
  have result : s.wait m t = (s.withThreads ((s.threads.block t m .wait).inheritPriority o t)).setInside t
    (some m) := by
    simp [Mutexes.wait, inherit, isOwner]
  have raised : (s.wait m t).pri o = min (s.pri t) (s.pri o) := by
    rw [result]
    refine (congrArg priority made.self).trans ?_
    rw [inheriting_priority, block_thread_self, block_thread_of_ne other]
    rfl
  have others : ∀ u, u ≠ o → (s.wait m t).pri u = s.pri u := by
    intro u ne
    rw [result]
    refine (congrArg priority (made.others u ne)).trans ?_
    by_cases same : u = t
    · subst same; rw [block_thread_self]; rfl
    · rw [block_thread_of_ne same]; rfl
  have below : ∀ u, (s.wait m t).pri u ≤ s.pri u := by
    intro u
    by_cases same : u = o
    · subst same; rw [raised]; exact min_le_right ..
    · exact (others u same).le
  have mem : ∀ n w, w ∈ (s.wait m t).threads.queue n ↔ (w = t ∧ n = m) ∨ w ∈ s.threads.queue n := by
    intro n w
    rw [result]
    exact (made.same.perm n).mem_iff.trans block_mem
  have waiter : ∀ n w, w ∈ (s.wait m t).threads.queue n → (s.wait m t).pri w = s.pri w := by
    intro n w waits
    refine others w ?_
    rintro rfl
    rcases (mem n w).mp waits with ⟨rfl, -⟩ | queued
    · exact other rfl
    · exact bounded.owner_alone sane isOwner n queued
  have mutex : (s.wait m t).mutex = s.mutex := by rw [result]; rfl
  refine ⟨?_, fun n u owner => ?_, fun u inside => ?_, fun n u owner w waits => ?_, fun n _ free waiting => ?_⟩
  · rw [mutex]
    exact bounded.single
  · rw [mutex] at owner
    have ne : u ≠ t := by
      rintro rfl
      exact poor n owner
    simpa [result, setInside, withThreads, ne] using bounded.apart n u owner
  · have state := (made.same.task u).1
    rw [result]
    refine (congrArg ThreadState.suspended state).trans ?_
    by_cases same : u = t
    · subst same
      rw [block_thread_self]
      exact congrArg ThreadState.suspended runs
    · rw [block_thread_of_ne same]
      exact bounded.upright u (by simpa [result, setInside, withThreads, same] using inside)
  · rw [mutex] at owner
    rw [waiter n w waits]
    rcases (mem n w).mp waits with ⟨rfl, rfl⟩ | queued
    · have same : u = o := some.inj (owner.symm.trans isOwner)
      subst same
      rw [raised]
      exact min_le_left ..
    · exact (below u).trans (bounded.owner n u owner w queued)
  · rw [mutex] at free
    have apart : n ≠ m := by
      rintro rfl
      rw [free] at busy
      simp at busy
    have queued : ∀ w, w ∈ (s.wait m t).threads.queue n → w ∈ s.threads.queue n := by
      intro w waits
      rcases (mem n w).mp waits with ⟨-, same⟩ | queued
      · exact absurd same apart
      · exact queued
    obtain ⟨w, waits⟩ := exists_mem_of_ne_nil _ waiting
    obtain ⟨heir, woken, urgent⟩ := bounded.heir n apart free (ne_nil_of_mem (queued w waits))
    refine ⟨heir, by rw [result]; exact woken, fun w waits => ?_⟩
    rw [waiter n w waits]
    exact (below heir).trans (urgent w (queued w waits))

theorem BoundedBut.acquire (bounded : s.BoundedBut (· = m)) (runs : (s.threads.thread t).Running)
    (poor : ∀ n, (s.mutex n).owner ≠ some t) (urgent : ∀ w ∈ s.threads.queue m, s.pri t ≤ s.pri w) :
    (s.acquire m t).Bounded := by
  have ownedBy : ∀ n u, ((s.acquire m t).mutex n).owner = some u → (n = m ∧ u = t) ∨
    (n ≠ m ∧ (s.mutex n).owner = some u) := by
    intro n u owner
    by_cases same : n = m
    · subst same
      simp only [acquire, setHolds, setInside, setMutex, Function.update_self, some.injEq] at owner
      exact .inl ⟨rfl, owner.symm⟩
    · exact .inr ⟨same, by simpa [Mutexes.acquire, setHolds, setInside, setMutex, same] using owner⟩
  refine ⟨fun n n' u owner owner' => ?_, fun n u owner => ?_, fun u inside => ?_, fun n u owner => ?_,
    fun n _ free waiting => ?_⟩
  · rcases ownedBy n u owner with ⟨rfl, rfl⟩ | ⟨-, before⟩
    · rcases ownedBy n' u owner' with ⟨rfl, -⟩ | ⟨-, before'⟩
      · rfl
      · exact absurd before' (poor n')
    · rcases ownedBy n' u owner' with ⟨rfl, rfl⟩ | ⟨-, before'⟩
      · exact absurd before (poor n)
      · exact bounded.single n n' u before before'
  · rcases ownedBy n u owner with ⟨rfl, rfl⟩ | ⟨-, before⟩
    · simp [acquire, setHolds, setInside]
    · have ne : u ≠ t := by
        rintro rfl
        exact poor n before
      simpa [Mutexes.acquire, setHolds, setInside, setMutex, ne] using bounded.apart n u before
  · have ne : u ≠ t := by
      rintro rfl
      simp [acquire, setHolds, setInside] at inside
    exact bounded.upright u (by simpa [Mutexes.acquire, setHolds, setInside, setMutex, ne] using inside)
  · rcases ownedBy n u owner with ⟨rfl, rfl⟩ | ⟨-, before⟩
    · exact urgent
    · exact bounded.owner n u before
  · have apart : n ≠ m := by
      rintro rfl
      simp [acquire, setHolds, setInside, setMutex] at free
    exact bounded.heir n apart (by simpa [Mutexes.acquire, setHolds, setInside, setMutex, apart] using free) waiting

end Mutexes

end Ecos
