import Ecos.Sync.Waiting

namespace Ecos
open Thread List Option

/-- The priorities of a thread and its count of mutexes. -/
def Thread.SameRank {cfg : Config} {Q : Type} (r r' : Thread cfg Q) : Prop :=
  r'.priority = r.priority ∧ r'.originalPriority = r.originalPriority ∧
    r'.priorityInherited = r.priorityInherited ∧ r'.mutexCount = r.mutexCount

/-- Awake, alive and with no reason to sleep: only `kill` can still touch it. -/
def Thread.Afoot {cfg : Config} {Q : Type} (r : Thread cfg Q) : Prop :=
  r.state.inSleepset = false ∧ r.state.exited = false ∧ r.sleepReason = .none

namespace Threads
variable {cfg : Config} {T Q : Type} [DecidableEq T] [DecidableEq Q]

/-- Something befalls thread `t`: it may leave its queue, but nobody else does,
and priorities stay. -/
structure Befalls (t : T) (s s' : Threads cfg T Q) : Prop where
  wf : s'.Wf
  others : ∀ u, u ≠ t → s'.thread u = s.thread u
  subset : ∀ r, (s'.queue r).Sublist (s.queue r)
  rank : (s.thread t).SameRank (s'.thread t)
  alive : (s'.thread t).queue ≠ none → (s'.thread t).state.exited = (s.thread t).state.exited

variable {s s' : Threads cfg T Q} {t u : T} {q r : Q} {reason : Reason}

theorem Befalls.trans {s'' : Threads cfg T Q} (first : Befalls t s s') (second : Befalls t s' s'') :
    Befalls t s s'' where
  wf := second.wf
  others u ne := (second.others u ne).trans (first.others u ne)
  subset r := (second.subset r).trans (first.subset r)
  rank := by
    obtain ⟨a, b, c, d⟩ := first.rank
    obtain ⟨a', b', c', d'⟩ := second.rank
    exact ⟨a'.trans a, b'.trans b, c'.trans c, d'.trans d⟩
  alive queued := by
    obtain ⟨q, on⟩ := ne_none_iff_exists'.mp queued
    have before : (s'.thread t).queue = some q :=
      (first.wf.member t q).mp ((second.subset q).subset ((second.wf.member t q).mpr on))
    rw [second.alive queued, first.alive (by simp [before])]

theorem sublist_eq {l l' : List T} (sub : l'.Sublist l) (nodup : l.Nodup) (all : ∀ u ∈ l, u ∈ l') : l' = l :=
  sub.eq_of_length_le (subperm_of_subset nodup all).length_le

theorem Befalls.queue_eq (befalls : Befalls t s s') (wf : s.Wf) (same : (s'.thread t).queue = (s.thread t).queue) :
    s'.queue r = s.queue r := by
  refine sublist_eq (befalls.subset r) (wf.nodup r) fun u mem => ?_
  rw [befalls.wf.member]
  by_cases self : u = t
  · subst self
    rw [same]
    exact (wf.member u r).mp mem
  · rw [befalls.others u self]
    exact (wf.member u r).mp mem

theorem Befalls.queue_erase (befalls : Befalls t s s') (wf : s.Wf) (off : (s'.thread t).queue = none) :
    s'.queue r = (s.queue r).erase t := by
  have gone : t ∉ s'.queue r := by
    rw [befalls.wf.member, off]
    simp
  have sub := (befalls.subset r).erase t
  rw [erase_of_not_mem gone] at sub
  refine sublist_eq sub ((wf.nodup r).erase t) fun u mem => ?_
  obtain ⟨ne, before⟩ := (wf.nodup r).mem_erase_iff.mp mem
  rw [befalls.wf.member, befalls.others u ne]
  exact (wf.member u r).mp before

section
variable (wf : s.Wf)
include wf

theorem Befalls.refl (t : T) : Befalls t s s :=
  ⟨wf, fun _ _ => rfl, fun _ => .refl _, ⟨rfl, rfl, rfl, rfl⟩, fun _ => rfl⟩

theorem Befalls.modify {f : Thread cfg Q → Thread cfg Q}
    (queue : (f (s.thread t)).queue = (s.thread t).queue) (rank : (s.thread t).SameRank (f (s.thread t)))
    (queued : (s.thread t).queue ≠ none → (f (s.thread t)).state.sleeping = (s.thread t).state.sleeping ∧
      (f (s.thread t)).sleepReason.blocking = true ∧ (f (s.thread t)).state.exited = (s.thread t).state.exited) :
    Befalls t s (s.modify t f) where
  wf := by
    refine wf.modify queue (fun on => ?_) fun on => (queued on).2.1
    obtain ⟨q, at'⟩ := ne_none_iff_exists'.mp on
    rw [(queued on).1]
    exact wf.asleep t q at'
  others u ne := modify_thread_of_ne ne
  subset r := .refl _
  rank := by simpa using rank
  alive on := by
    rw [modify_thread_self] at on ⊢
    exact (queued (queue ▸ on)).2.2

theorem Befalls.wakeWith {f : Thread cfg Q → Thread cfg Q}
    (state : (f (s.thread t)).state = (s.thread t).state) (queue : (f (s.thread t)).queue = (s.thread t).queue)
    (rank : (s.thread t).SameRank (f (s.thread t))) : Befalls t s ((s.modify t f).wake t) where
  wf := wf.wakeWith state queue
  others u ne := by rw [wake_thread_of_ne ne, modify_thread_of_ne ne]
  subset r := by
    rw [wf.wakeWith_queue state queue]
    exact erase_sublist
  rank := by
    unfold Threads.wake
    split
    · rw [remove_thread_self, modify_thread_self, modify_thread_self]
      exact rank
    · simpa using rank
  alive on := absurd (wf.wakeWith_alone state queue) on

theorem Befalls.rouse : Befalls t s (s.rouse t reason) := Befalls.wakeWith wf rfl rfl ⟨rfl, rfl, rfl, rfl⟩

theorem Befalls.wake : Befalls t s (s.wake t) := by
  have woken := Befalls.wakeWith (t := t) (f := id) wf rfl rfl ⟨rfl, rfl, rfl, rfl⟩
  rwa [modify_id] at woken

theorem Befalls.remove (t : T) : Befalls t s (s.remove t) where
  wf := wf.remove t
  others u ne := remove_thread_of_ne ne
  subset r := by
    rw [wf.remove_queue]
    exact erase_sublist
  rank := by
    rw [remove_thread_self]
    exact ⟨rfl, rfl, rfl, rfl⟩
  alive on := by simp at on

theorem Befalls.release (t : T) : Befalls t s (s.release t) := by
  unfold Threads.release
  split
  any_goals exact Befalls.refl wf t
  all_goals exact Befalls.rouse wf

theorem Befalls.alarm (t : T) : Befalls t s (s.alarm t) := by
  unfold Threads.alarm
  split
  any_goals exact Befalls.refl wf t
  all_goals exact Befalls.rouse wf

theorem Wf.blocking_of_queued (queued : (s.thread t).queue ≠ none) : (s.thread t).sleepReason.blocking = true := by
  obtain ⟨q, on⟩ := ne_none_iff_exists'.mp queued
  exact wf.blocking t q on

theorem Befalls.suspend (t : T) : Befalls t s (s.suspend t) :=
  Befalls.modify wf rfl ⟨rfl, rfl, rfl, rfl⟩ fun on => ⟨rfl, wf.blocking_of_queued on, rfl⟩

theorem Befalls.resume (t : T) : Befalls t s (s.resume t) := by
  have kept : ∀ r : Thread cfg Q, r.resumed.queue = r.queue ∧ r.SameRank r.resumed ∧
      r.resumed.state.sleeping = r.state.sleeping ∧ r.resumed.sleepReason = r.sleepReason ∧
      r.resumed.state.exited = r.state.exited := by
    intro r
    unfold resumed
    split
    · exact ⟨rfl, ⟨rfl, rfl, rfl, rfl⟩, rfl, rfl, rfl⟩
    · split <;> exact ⟨rfl, ⟨rfl, rfl, rfl, rfl⟩, rfl, rfl, rfl⟩
  obtain ⟨queue, rank, sleeping, reason, exited⟩ := kept (s.thread t)
  exact Befalls.modify wf queue rank fun on => ⟨sleeping, reason ▸ wf.blocking_of_queued on, exited⟩

theorem Befalls.forceResume (t : T) : Befalls t s (s.forceResume t) := by
  have kept : ∀ r : Thread cfg Q, r.forceResumed.queue = r.queue ∧ r.SameRank r.forceResumed ∧
      r.forceResumed.state.sleeping = r.state.sleeping ∧ r.forceResumed.sleepReason = r.sleepReason ∧
      r.forceResumed.state.exited = r.state.exited := by
    intro r
    unfold forceResumed
    split <;> exact ⟨rfl, ⟨rfl, rfl, rfl, rfl⟩, rfl, rfl, rfl⟩
  obtain ⟨queue, rank, sleeping, reason, exited⟩ := kept (s.thread t)
  exact Befalls.modify wf queue rank fun on => ⟨sleeping, reason ▸ wf.blocking_of_queued on, exited⟩

theorem Befalls.die (alone : (s.thread t).queue = none) :
    Befalls t s (s.modify t fun r => { r with state := .exitedOnly }) :=
  Befalls.modify wf rfl ⟨rfl, rfl, rfl, rfl⟩ fun on => absurd alone on

theorem Befalls.exit (alone : (s.thread t).queue = none) : Befalls t s (s.exit t) := by
  unfold Threads.exit
  split
  · exact Befalls.refl wf t
  · exact Befalls.die wf alone

theorem Befalls.kill (t : T) : Befalls t s (s.kill t) := by
  have resumed := Befalls.forceResume wf t
  unfold Threads.kill
  dsimp only
  split
  · exact resumed.trans (Befalls.wake resumed.wf)
  · split
    · next awake =>
      have alone : ((s.forceResume t).thread t).queue = none := by
        by_contra on
        simpa [awake, Reason.blocking] using resumed.wf.blocking_of_queued on
      have dead := Befalls.die resumed.wf alone
      exact (resumed.trans dead).trans (Befalls.wake dead.wf)
    any_goals exact resumed
    all_goals exact resumed.trans (Befalls.rouse resumed.wf)

theorem Befalls.delay (alone : (s.thread t).queue = none) : Befalls t s ((s.setSleepReason t .delay).sleep t) := by
  have reasoned : Befalls t s (s.setSleepReason t .delay) :=
    Befalls.modify wf rfl ⟨rfl, rfl, rfl, rfl⟩ fun on => absurd alone on
  refine reasoned.trans (Befalls.modify reasoned.wf rfl ⟨rfl, rfl, rfl, rfl⟩ fun on => absurd ?_ on)
  simpa [setSleepReason] using alone

end

theorem afoot_release (afoot : (s.thread t).Afoot) : s.release t = s := by
  simp [release, afoot.2.2]

theorem afoot_alarm (afoot : (s.thread t).Afoot) : s.alarm t = s := by
  simp [alarm, afoot.2.2]

end Threads

theorem Thread.Afoot.suspended {cfg : Config} {Q : Type} {r : Thread cfg Q} (afoot : r.Afoot) : r.suspended.Afoot :=
  afoot

theorem Thread.Afoot.resumed {cfg : Config} {Q : Type} {r : Thread cfg Q} (afoot : r.Afoot) :
    r.resumed.Afoot ∧ r.resumed.wakeReason = r.wakeReason := by
  unfold Thread.resumed
  split
  · exact ⟨afoot, rfl⟩
  · split <;> exact ⟨afoot, rfl⟩

theorem Thread.Afoot.forceResumed {cfg : Config} {Q : Type} {r : Thread cfg Q} (afoot : r.Afoot) :
    r.forceResumed.Afoot ∧ r.forceResumed.wakeReason = r.wakeReason := by
  unfold Thread.forceResumed
  split <;> exact ⟨afoot, rfl⟩

theorem Thread.not_afoot {cfg : Config} {Q : Type} {r : Thread cfg Q} (asleep : r.state.inSleepset = true) :
    ¬ r.Afoot := by
  intro afoot
  simp [afoot.1] at asleep

/-- What other threads, or the clock, do to a thread short of killing it. -/
inductive Outside (T : Type)
  | release (t : T) | alarm (t : T) | suspend (t : T) | resume (t : T) | forceResume (t : T)

def Outside.target {T : Type} : Outside T → T
  | .release t | .alarm t | .suspend t | .resume t | .forceResume t => t

namespace Threads
variable {cfg : Config} {T Q : Type} [DecidableEq T] [DecidableEq Q]

def suffer (s : Threads cfg T Q) : Outside T → Threads cfg T Q
  | .release t => s.release t
  | .alarm t => s.alarm t
  | .suspend t => s.suspend t
  | .resume t => s.resume t
  | .forceResume t => s.forceResume t

variable {s : Threads cfg T Q} {e : Outside T}

theorem Befalls.suffer (wf : s.Wf) (e : Outside T) : Befalls e.target s (s.suffer e) := by
  cases e with
  | release t => exact Befalls.release wf t
  | alarm t => exact Befalls.alarm wf t
  | suspend t => exact Befalls.suspend wf t
  | resume t => exact Befalls.resume wf t
  | forceResume t => exact Befalls.forceResume wf t

theorem suffer_afoot (afoot : (s.thread e.target).Afoot) : ((s.suffer e).thread e.target).Afoot ∧
      ((s.suffer e).thread e.target).wakeReason = (s.thread e.target).wakeReason := by
  cases e with
  | release t =>
    rw [show s.suffer (.release t) = s from afoot_release afoot]
    exact ⟨afoot, rfl⟩
  | alarm t =>
    rw [show s.suffer (.alarm t) = s from afoot_alarm afoot]
    exact ⟨afoot, rfl⟩
  | suspend t =>
    simp only [suffer, suspend, Outside.target, modify_thread_self]
    exact ⟨afoot.suspended, rfl⟩
  | resume t =>
    simp only [suffer, resume, Outside.target, modify_thread_self]
    exact afoot.resumed
  | forceResume t =>
    simp only [suffer, forceResume, Outside.target, modify_thread_self]
    exact afoot.forceResumed

theorem Wf.suffer_cases (wf : s.Wf) (e : Outside T) : let r := s.thread e.target
    let r' := (s.suffer e).thread e.target
    (r'.queue = r.queue ∧ r'.sleepReason = r.sleepReason ∧ r'.wakeReason = r.wakeReason) ∨
      (r.sleepReason ≠ .none ∧ r'.queue = none ∧ r'.sleepReason = .none ∧
        (r'.wakeReason = .brk ∨ (r.sleepReason = .timeout ∧ r'.wakeReason = .timeout) ∨
          (r.sleepReason = .delay ∧ r'.wakeReason = .done))) := by
  have roused : ∀ t reason, ((s.rouse t reason).thread t).queue = none ∧ ((s.rouse t reason).thread t).sleepReason = .none ∧
      ((s.rouse t reason).thread t).wakeReason = reason := by
    intro t reason
    refine ⟨wf.rouse_alone, ?_⟩
    cases asleep : (s.thread t).state.inSleepset with
    | true => rw [rouse_thread_self asleep]; exact ⟨rfl, rfl⟩
    | false => rw [rouse_thread_awake asleep]; exact ⟨rfl, rfl⟩
  cases e with
  | release t =>
    simp only [Outside.target, suffer, release]
    obtain ⟨off, free, reason⟩ := roused t .brk
    split
    any_goals exact .inl ⟨rfl, rfl, rfl⟩
    all_goals
      next sleeps => exact .inr ⟨by simp [sleeps], off, free, .inl reason⟩
  | alarm t =>
    simp only [Outside.target, suffer, alarm]
    split
    any_goals exact .inl ⟨rfl, rfl, rfl⟩
    · next sleeps =>
      obtain ⟨off, free, reason⟩ := roused t .done
      exact .inr ⟨by simp [sleeps], off, free, .inr (.inr ⟨sleeps, reason⟩)⟩
    · next sleeps =>
      obtain ⟨off, free, reason⟩ := roused t .timeout
      exact .inr ⟨by simp [sleeps], off, free, .inr (.inl ⟨sleeps, reason⟩)⟩
  | suspend t =>
    left
    simp only [Outside.target, suffer, suspend, modify_thread_self]
    exact ⟨rfl, rfl, rfl⟩
  | resume t =>
    left
    simp only [Outside.target, suffer, resume, modify_thread_self, resumed]
    split
    · exact ⟨rfl, rfl, rfl⟩
    · split <;> exact ⟨rfl, rfl, rfl⟩
  | forceResume t =>
    left
    simp only [Outside.target, suffer, forceResume, modify_thread_self, forceResumed]
    split <;> exact ⟨rfl, rfl, rfl⟩

/-- Why a thread sleeps in the plain and the timed form of a wait. -/
def waitReason (timed : Bool) : Reason := if timed then .timeout else .wait

/-- `Cyg_Thread::set_timer`; a trigger in the past calls the alarm function at once. -/
def setTimer (s : Threads cfg T Q) (t : T) (past : Bool) : Threads cfg T Q :=
  let s := s.setSleepReason t .timeout
  if past then s.alarm t else s

theorem waitReason_blocking (timed : Bool) : (waitReason timed).blocking = true := by
  cases timed <;> rfl

variable {t : T} {past : Bool}

theorem Befalls.setTimer (wf : s.Wf) (alone : (s.thread t).queue = none) : Befalls t s (s.setTimer t past) := by
  have set : Befalls t s (s.setSleepReason t .timeout) :=
    Befalls.modify wf rfl ⟨rfl, rfl, rfl, rfl⟩ fun on => absurd alone on
  cases past with
  | false => exact set
  | true => exact set.trans (Befalls.alarm set.wf t)

theorem setSleepReason_awake (runs : (s.thread t).Running) (reason : Reason) :
    ((s.setSleepReason t reason).thread t).state.inSleepset = false := by
  rw [setSleepReason, modify_thread_self, setSleepReason_state, show (s.thread t).state = .running from runs]
  rfl

theorem setTimer_past : s.setTimer t true = (s.setSleepReason t .timeout).rouse t .timeout := by
  simp [setTimer, alarm, setSleepReason, rouse]

theorem setTimer_past_thread (runs : (s.thread t).Running) :
    (s.setTimer t true).thread t = (s.thread t).setWakeReason .timeout := by
  rw [setTimer_past, rouse_thread_awake (setSleepReason_awake runs _)]
  simp [setSleepReason, Thread.setWakeReason, Thread.setSleepReason]

theorem setTimer_thread (runs : (s.thread t).Running) : ((s.setTimer t past).thread t).Running ∧
      (((s.setTimer t past).thread t).wakeReason = if past then .timeout else .none) := by
  cases past with
  | false =>
    refine ⟨?_, ?_⟩
    · simpa [setTimer, setSleepReason, Running] using runs
    · simp [setTimer, setSleepReason]
  | true =>
    rw [setTimer_past_thread runs]
    exact ⟨runs, rfl⟩

theorem setTimer_queue (runs : (s.thread t).Running) : (s.setTimer t past).queue = s.queue := by
  cases past with
  | false => rfl
  | true =>
    have awake : ((s.setSleepReason t .timeout).setWakeReason t .timeout |>.thread t).state.inSleepset = false := by
      simpa [setWakeReason] using setSleepReason_awake runs .timeout
    rw [setTimer_past, rouse, wake, awake]
    rfl

end Threads

end Ecos
