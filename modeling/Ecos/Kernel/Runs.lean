import Ecos.Kernel.Calls

namespace Ecos
open Kernel

namespace Kernel
variable {cfg : Config} {T Q : Type} [DecidableEq T] [DecidableEq Q] [Fintype T]
variable {clean : Prop} {idle x : T} {k : Kernel cfg T Q} {q : Q} {s : Threads cfg T Q} {c : Call cfg T Q}

/-- The current thread may run and no runnable thread is more urgent. -/
def Settled (k : Kernel cfg T Q) : Prop := (k.thread k.currentThread).Running ∧ k.Foremost k.currentThread

/-- The invariant of the scheduler: realized threads, a reschedule due whenever
the current thread has to give way, and nothing to be done once unlocked. -/
structure Governed (clean : Prop) (idle : T) (s : Threads cfg T Q) (k : Kernel cfg T Q) : Prop where
  real : Realizes clean idle k s
  alert : k.Alert
  settled : k.schedLock = 0 → k.Settled

theorem Dispatched.governed (d : Dispatched clean idle s k) : Governed clean idle s k :=
  ⟨d.real, .inr d.foremost, fun _ => ⟨d.runs, d.foremost⟩⟩

theorem Settled.congr {k' : Kernel cfg T Q} (settled : k.Settled) (current : k'.currentThread = k.currentThread)
    (pri : ∀ u, (k'.thread u).priority = (k.thread u).priority)
    (state : ∀ u, (k'.thread u).state = (k.thread u).state) : k'.Settled := by
  refine ⟨?_, ?_⟩
  · rw [current]
    exact (state _).trans settled.1
  · intro u runs
    rw [current, pri, pri]
    exact settled.2 u ((state u).symm.trans runs)

theorem Realizes.unlock (real : Realizes clean idle k s) (alert : k.Alert) : Governed clean idle s k.unlock := by
  unfold Kernel.unlock
  split
  · exact (real.unlockInner alert 0).governed
  · next held =>
    exact ⟨real.congr rfl rfl rfl fun _ was => was, alert, fun zero => absurd zero held⟩

theorem Governed.lock (governed : Governed clean idle s k) : Governed clean idle s k.lock :=
  ⟨governed.real.congr rfl rfl rfl fun _ held => held, governed.alert, fun zero => absurd zero (Nat.succ_ne_zero _)⟩

theorem Disciplined.lock (fit : k.Disciplined idle c) : k.lock.Disciplined idle c := by
  cases c with
  | unlock | reschedule | unlockReschedule => exact Nat.succ_pos _
  | _ => exact fit

theorem SparesLast.lock (spares : k.SparesLast c) : k.lock.SparesLast c := by
  cases c <;> exact spares

section
variable (governed : Governed clean idle s k)
include governed

theorem Governed.body (fit : k.Disciplined idle c) (spares : clean → k.SparesLast c) :
    Realizes clean idle (k.body c) (s.call k.currentThread c) ∧ (k.body c).Alert :=
  ⟨governed.real.body fit spares, governed.alert.body governed.real.sound⟩

theorem Governed.locked (fit : k.Disciplined idle c)
    (spares : clean → k.SparesLast c) : Governed clean idle (s.call k.currentThread c) (k.lock.body c).unlock := by
  obtain ⟨real, alert⟩ := governed.lock.body fit.lock fun isClean => (spares isClean).lock
  exact real.unlock alert

theorem Governed.bare (fit : k.Disciplined idle c)
    (spares : clean → k.SparesLast c) (current : (k.body c).currentThread = k.currentThread)
    (lock : (k.body c).schedLock = k.schedLock)
    (pri : ∀ u, ((k.body c).thread u).priority = (k.thread u).priority)
    (state : ∀ u, ((k.body c).thread u).state = (k.thread u).state) :
    Governed clean idle (s.call k.currentThread c) (k.body c) := by
  obtain ⟨real, alert⟩ := governed.body fit spares
  exact ⟨real, alert, fun zero => (governed.settled (lock ▸ zero)).congr current pri state⟩

end

theorem timesliceCpu_fields : k.timesliceCpu.currentThread = k.currentThread ∧
    k.timesliceCpu.schedLock = k.schedLock ∧ k.timesliceCpu.thread = k.thread := by
  unfold timesliceCpu
  dsimp only
  split
  · split <;> exact ⟨rfl, rfl, rfl⟩
  · exact ⟨rfl, rfl, rfl⟩

theorem timeslice_fields : k.timeslice.currentThread = k.currentThread ∧
    k.timeslice.schedLock = k.schedLock ∧ k.timeslice.thread = k.thread := by
  have turned : ∀ n, (k.setTimesliceCount n).timesliceCpu.currentThread = k.currentThread ∧
      (k.setTimesliceCount n).timesliceCpu.schedLock = k.schedLock ∧
      (k.setTimesliceCount n).timesliceCpu.thread = k.thread := fun n => timesliceCpu_fields
  unfold timeslice
  dsimp only
  generalize decrement32 k.timesliceCount = n
  split
  · exact turned n
  · exact ⟨rfl, rfl, rfl⟩

theorem update_priority {f : Thread cfg Q → Thread cfg Q} (pri : (f (k.thread x)).priority = (k.thread x).priority)
    (u : T) : (Function.update k.thread x (f (k.thread x)) u).priority = (k.thread u).priority := by
  by_cases same : u = x
  · subst same; simpa using pri
  · simp [same]

theorem update_state {f : Thread cfg Q → Thread cfg Q} (state : (f (k.thread x)).state = (k.thread x).state)
    (u : T) : (Function.update k.thread x (f (k.thread x)) u).state = (k.thread u).state := by
  by_cases same : u = x
  · subst same; simpa using state
  · simp [same]

theorem Governed.call (governed : Governed clean idle s k) (fit : k.Disciplined idle c)
    (spares : clean → k.SparesLast c) : Governed clean idle (s.call k.currentThread c) (k.call c) := by
  have locked := governed.locked fit spares
  have body := governed.lock.body fit.lock fun isClean => (spares isClean).lock
  cases c with
  | startCpu => exact governed.real.startCpu.governed
  | lock => exact governed.lock
  | unlock => exact governed.real.unlock governed.alert
  | reschedule => exact (governed.real.unlockInner governed.alert _).governed
  | unlockReschedule => exact (governed.real.unlockInner governed.alert _).governed
  | exit => exact (body.1.unlockInner body.2 _).governed
  | kill t =>
    simp only [call]
    split
    · next self =>
      subst self
      have dying : k.Disciplined idle .exit := ⟨fit.1, fit.2 rfl⟩
      have sparing : clean → k.SparesLast .exit := by
        intro isClean
        simpa [SparesLast, descheduled] using spares isClean
      obtain ⟨real, alert⟩ := governed.lock.body dying.lock fun isClean => (sparing isClean).lock
      have gone := (real.unlockInner alert (k.lock.body .exit).schedLock).governed
      simpa [Threads.call, reschedule] using gone
    · exact locked
  | yield =>
    simp only [call, yieldUnlock]
    split
    · exact (body.1.unlockInner body.2 _).governed
    · exact body.1.unlock body.2
  | timeslice =>
    obtain ⟨current, lock, thread⟩ := timeslice_fields (k := k)
    exact governed.bare fit spares current lock (fun u => by simp [Kernel.body, thread])
      (fun u => by simp [Kernel.body, thread])
  | timesliceCpu =>
    obtain ⟨current, lock, thread⟩ := timesliceCpu_fields (k := k)
    exact governed.bare fit spares current lock (fun u => by simp [Kernel.body, thread])
      (fun u => by simp [Kernel.body, thread])
  | setTimesliceEnabled t on => exact governed.bare fit spares rfl rfl (fun _ => rfl) (fun _ => rfl)
  | setSleepReason reason =>
    exact governed.bare fit spares rfl rfl (update_priority (f := (·.setSleepReason reason)) rfl)
      (update_state (f := (·.setSleepReason reason)) rfl)
  | setWakeReason t reason =>
    exact governed.bare fit spares rfl rfl (update_priority (f := (·.setWakeReason reason)) rfl)
      (update_state (f := (·.setWakeReason reason)) rfl)
  | enqueue q t =>
    exact governed.bare fit spares rfl rfl (update_priority (f := fun r => { r with queue := some q }) rfl)
      (update_state (f := fun r => { r with queue := some q }) rfl)
  | dequeue q =>
    refine governed.bare fit spares ?_ ?_ ?_ ?_ <;> simp only [Kernel.body, Kernel.dequeue] <;> split
    any_goals exact fun _ => rfl
    any_goals rfl
    · exact update_priority (f := fun r => { r with queue := none }) rfl
    · exact update_state (f := fun r => { r with queue := none }) rfl
  | remove q t =>
    exact governed.bare fit spares rfl rfl (update_priority (f := fun r => { r with queue := none }) rfl)
      (update_state (f := fun r => { r with queue := none }) rfl)
  | _ => exact locked

end Kernel

end Ecos
