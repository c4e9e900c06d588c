import Ecos.Sync.Mutex
import Ecos.Sync.Withdraw

namespace Ecos
open Threads Thread

namespace Thread
variable {cfg : Config} {Q : Type}

/-- The fields as `set_inherited_priority` leaves them. -/
def inheriting (r : Thread cfg Q) (pri : Priority cfg) : Thread cfg Q :=
  if pri < r.priority then
    { r with
      priority := pri
      originalPriority := if r.priorityInherited then r.originalPriority else r.priority
      priorityInherited := true }
  else r

/-- The fields as `clear_inherited_priority` leaves them. -/
def disinheriting (r : Thread cfg Q) : Thread cfg Q :=
  if r.mutexCount = 0 ∧ r.priorityInherited = true then
    { r with
      priority := if r.priority < r.originalPriority then r.originalPriority else r.priority
      priorityInherited := false }
  else r

theorem inheriting_priority (r : Thread cfg Q) (pri : Priority cfg) :
    (r.inheriting pri).priority = min pri r.priority := by
  unfold inheriting
  split
  · next less => exact (min_eq_left less.le).symm
  · next more => exact (min_eq_right (not_lt.mp more)).symm

end Thread

namespace Threads
variable {cfg : Config} {T Q : Type} [DecidableEq T] [DecidableEq Q]
variable {s s' : Threads cfg T Q} {t u : T} {q : Q} {pri : Priority cfg}

/-- Thread `t` alone gets new priorities, those of `f`. -/
structure Revalues (t : T) (f : Thread cfg Q → Thread cfg Q) (s s' : Threads cfg T Q) : Prop where
  same : Reprioritized s s'
  self : s'.thread t = f (s.thread t)
  others : ∀ u, u ≠ t → s'.thread u = s.thread u

theorem Revalues.modify {f : Thread cfg Q → Thread cfg Q} (task : (s.thread t).SameTask (f (s.thread t))) :
    Revalues t f s (s.modify t f) :=
  ⟨.modify task, by simp, fun _ ne => modify_thread_of_ne ne⟩

theorem Wf.setPriority_revalues (wf : s.Wf) (t : T) (new : Priority cfg) :
    Revalues t (·.withPriority new) s (s.setPriority t new) :=
  ⟨wf.setPriority t new, setPriority_thread_self, fun _ ne => setPriority_thread_of_ne ne⟩

theorem Revalues.trans {f g : Thread cfg Q → Thread cfg Q} {s'' : Threads cfg T Q} (first : Revalues t f s s')
    (second : Revalues t g s' s'') : Revalues t (g ∘ f) s s'' where
  same := first.same.trans second.same
  self := by rw [second.self, first.self]; rfl
  others u ne := (second.others u ne).trans (first.others u ne)

theorem Revalues.congr {f g : Thread cfg Q → Thread cfg Q} (made : Revalues t f s s')
    (eq : f (s.thread t) = g (s.thread t)) : Revalues t g s s' := ⟨made.same, made.self.trans eq, made.others⟩

theorem Wf.setInheritedPriority (wf : s.Wf) (t : T) (pri : Priority cfg) :
    Revalues t (·.inheriting pri) s (s.setInheritedPriority t pri) := by
  unfold Threads.setInheritedPriority
  dsimp only
  split
  · next less =>
    have cleared : Revalues t (fun r => { r with priorityInherited := false }) s
        (s.modify t fun r => { r with priorityInherited := false }) := .modify ⟨rfl, rfl, rfl, rfl⟩
    have set := cleared.trans ((cleared.same.wf wf).setPriority_revalues t pri)
    by_cases already : (s.thread t).priorityInherited = true
    · simp only [already, if_true]
      refine (set.trans (.modify (f := fun r => { r with priorityInherited := true }) ⟨rfl, rfl, rfl, rfl⟩)).congr ?_
      simp [inheriting, less, already, withPriority]
    · simp only [already]
      refine ((set.trans (.modify (f := fun r => { r with originalPriority := (s.thread t).priority })
        ⟨rfl, rfl, rfl, rfl⟩)).trans (.modify (f := fun r => { r with priorityInherited := true })
        ⟨rfl, rfl, rfl, rfl⟩)).congr ?_
      simp [inheriting, less, already, withPriority]
  · next more =>
    refine ⟨.refl s, ?_, fun _ _ => rfl⟩
    simp [inheriting, more]

theorem Wf.clearInheritedPriority (wf : s.Wf) (t : T) :
    Revalues t (·.disinheriting) s (s.clearInheritedPriority t) := by
  unfold Threads.clearInheritedPriority
  dsimp only
  split
  · next both =>
    have cleared : Revalues t (fun r => { r with priorityInherited := false }) s
        (s.modify t fun r => { r with priorityInherited := false }) := .modify ⟨rfl, rfl, rfl, rfl⟩
    split
    · next less =>
      refine (cleared.trans ((cleared.same.wf wf).setPriority_revalues t _)).congr ?_
      simp [disinheriting, both, less, withPriority]
    · next more =>
      refine cleared.congr ?_
      simp [disinheriting, both, more]
  · next other =>
    refine ⟨.refl s, ?_, fun _ _ => rfl⟩
    simp [disinheriting, other]

theorem countMutex_revalues : Revalues t (fun r => { r with mutexCount := r.mutexCount + 1 }) s (s.countMutex t) :=
  .modify ⟨rfl, rfl, rfl, rfl⟩

theorem uncountMutex_revalues : Revalues t (fun r => { r with mutexCount := r.mutexCount - 1 }) s (s.uncountMutex t) :=
  .modify ⟨rfl, rfl, rfl, rfl⟩

end Threads

namespace Mutexes
variable {cfg : Config} {T M : Type} [DecidableEq T] [DecidableEq M]
variable {s : Mutexes cfg T M} {t : T} {m : M}

/-- The thread as `lock` and `trylock` count it in. -/
def entered (x : Mutex cfg T) (r : Thread cfg M) : Thread cfg M :=
  match x.protocol with
  | .none => r
  | .inherit => { r with mutexCount := r.mutexCount + 1 }
  | .ceiling => ({ r with mutexCount := r.mutexCount + 1 } : Thread cfg M).inheriting x.ceiling

/-- The thread as `unlock` and a `lock` that fails count it out. -/
def left (x : Mutex cfg T) (r : Thread cfg M) : Thread cfg M :=
  match x.protocol with
  | .none => r
  | .inherit | .ceiling => ({ r with mutexCount := r.mutexCount - 1 } : Thread cfg M).disinheriting

theorem enter_revalues (wf : s.threads.Wf) : Threads.Revalues t (entered (s.mutex m)) s.threads (s.enter m t) := by
  have counted := countMutex_revalues (s := s.threads) (t := t)
  cases kind : (s.mutex m).protocol with
  | none =>
    simp only [enter, kind]
    exact ⟨.refl _, by simp [entered, kind], fun _ _ => rfl⟩
  | inherit =>
    simp only [enter, kind]
    exact counted.congr (by simp [entered, kind])
  | ceiling =>
    simp only [enter, kind]
    exact (counted.trans ((counted.same.wf wf).setInheritedPriority t _)).congr (by simp [entered, kind])

theorem quit_revalues (wf : s.threads.Wf) : Threads.Revalues t (left (s.mutex m)) s.threads (s.quit m t) := by
  have uncounted := uncountMutex_revalues (s := s.threads) (t := t)
  cases kind : (s.mutex m).protocol with
  | none =>
    simp only [quit, kind]
    exact ⟨.refl _, by simp [left, kind], fun _ _ => rfl⟩
  | inherit | ceiling =>
    simp only [quit, kind]
    exact (uncounted.trans ((uncounted.same.wf wf).clearInheritedPriority t)).congr (by simp [left, kind])

end Mutexes

end Ecos
