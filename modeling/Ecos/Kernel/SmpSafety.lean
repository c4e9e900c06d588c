import Mathlib
import Ecos.Kernel.Smp

namespace Ecos
open Function (update update_of_ne update_self)
open List Option Thread

namespace Smp
variable {cfg : Config} {n : Nat} {T Q : Type} [DecidableEq T]

/-- A thread has the processor whose current thread it is; every processor that has started
has an idle thread of its own, which stays runnable; and no search has failed. -/
structure Owned (s : Smp cfg n T Q) : Prop where
  owner : ∀ c t, s.currentThread c = some t ↔ s.cpu t = some c
  started : ∀ c, s.currentThread c = none ↔ s.idleThread c = none
  ready : ∀ c t, s.idleThread c = some t → (s.thread t).Running
  distinct : ∀ c d t, s.idleThread c = some t → s.idleThread d = some t → c = d
  unstuck : s.stuck = false

variable {s s' : Smp cfg n T Q} {t current : T} {p : Priority cfg} {c : Fin n}

theorem Owned.congr (owned : s.Owned) (cpu : s'.cpu = s.cpu) (current : s'.currentThread = s.currentThread)
    (idle : s'.idleThread = s.idleThread) (stuck : s'.stuck = s.stuck)
    (ready : ∀ c t, s.idleThread c = some t → (s'.thread t).Running) : s'.Owned := by
  refine ⟨?_, ?_, ?_, ?_, ?_⟩
  · rw [cpu, current]
    exact owned.owner
  · rw [current, idle]
    exact owned.started
  · rw [idle]
    exact ready
  · rw [idle]
    exact owned.distinct
  · rw [stuck]
    exact owned.unstuck

theorem release_cpu : (s.release current).cpu = update s.cpu current none := by
  unfold release
  split <;> rfl

theorem release_rest : (s.release current).thread = s.thread ∧ (s.release current).currentThread = s.currentThread ∧
    (s.release current).idleThread = s.idleThread ∧ (s.release current).stuck = s.stuck ∧
    (s.release current).runQueue = s.runQueue := by
  unfold release
  split <;> exact ⟨rfl, rfl, rfl, rfl, rfl⟩

/-- There are as many idle threads as processors that have started, so when one of these has
released its thread, some idle thread has no processor. -/
theorem Owned.idle_waits (owned : s.Owned) (here : s.currentThread c = some current) :
    ∃ t, (s.thread t).Running ∧ (s.release current).cpu t = none := by
  by_contra! allBusy
  have onOther : ∀ d : { d : Fin n // s.idleThread d ≠ none }, ∃ e : { e : Fin n // s.idleThread e ≠ none },
      e.1 ≠ c ∧ ∃ t, s.idleThread d = some t ∧ s.cpu t = some e := by
    rintro ⟨d, on⟩
    obtain ⟨t, idle⟩ := ne_none_iff_exists'.mp on
    have busy := allBusy t (owned.ready d t idle)
    rw [release_cpu] at busy
    have other : t ≠ current := fun same => busy (by rw [same, update_self])
    rw [update_of_ne other] at busy
    obtain ⟨e, held⟩ := ne_none_iff_exists'.mp busy
    have isCurrent := (owned.owner e t).mpr held
    have begun : s.idleThread e ≠ none := fun unset => by
      rw [(owned.started e).mpr unset] at isCurrent
      cases isCurrent
    refine ⟨⟨e, begun⟩, fun same => other ?_, t, idle, held⟩
    have same : e = c := same
    rw [same, here] at isCurrent
    exact (some.inj isCurrent).symm
  choose f away idle held using onOther
  have injective : Function.Injective f := by
    intro d d' same
    obtain ⟨idleD, heldD⟩ := held d
    obtain ⟨idleD', heldD'⟩ := held d'
    rw [same] at heldD
    have sameThread : idle d = idle d' :=
      some.inj (((owned.owner _ _).mpr heldD).symm.trans ((owned.owner _ _).mpr heldD'))
    exact Subtype.ext (owned.distinct d d' _ idleD (sameThread ▸ idleD'))
  have begun : s.idleThread c ≠ none := fun unset => by
    rw [(owned.started c).mpr unset] at here
    cases here
  obtain ⟨d, hit⟩ := Finite.surjective_of_injective injective ⟨c, begun⟩
  exact away d (congrArg Subtype.val hit)

theorem Counted.choose_some (counted : s.Counted) (runs : (s.thread t).Running) (free : s.cpu t = none) :
    ∃ index u, s.choose = some (index, u) ∧ u ∈ s.runQueue index ∧ s.cpu u = none ∧ 0 < s.pending index ∧
      ∀ p, 0 < s.pending p → index ≤ p := by
  have mem : t ∈ s.runQueue (s.priority t) := (counted.queued _ t).mpr ⟨id, runs, rfl⟩
  have some : 0 < s.pending (s.priority t) := by
    rw [counted.pending, waiting, countP_pos_iff]
    exact ⟨t, mem, by simp [free]⟩
  obtain ⟨index, found, bit, least⟩ := Kernel.lsbitIndex_spec ((counted.map _).mpr some)
  have left := (counted.map index).mp bit
  have inside : ∃ u ∈ s.runQueue index, (s.cpu u).isNone = true := by
    rw [counted.pending, waiting, countP_pos_iff] at left
    exact left
  obtain ⟨u, isU⟩ := isSome_iff_exists.mp (find?_isSome.mpr inside)
  refine ⟨index, u, ?_, mem_of_find?_eq_some isU, ?_, left, fun p more => least p ((counted.map p).mpr more)⟩
  · simp [choose, found, isU]
  · simpa using find?_some isU

section
variable (owned : s.Owned)
include owned

/-- The thread `u`, which has no processor, becomes the current thread of `c`, which has
given back its own. -/
theorem Owned.switch {u : T} (here : s.currentThread c = some current)
    (free : update s.cpu current none u = none) (d : Fin n) (v : T) :
    update s.currentThread c (some u) d = some v ↔
      update (update s.cpu current none) u (some c) v = some d := by
  have held : s.cpu current = some c := (owned.owner c current).mp here
  by_cases mine : v = u
  · subst mine
    rw [update_self]
    by_cases same : d = c
    · simp [same]
    · rw [update_of_ne same, owned.owner]
      have unheld : s.cpu v ≠ some d := by
        by_cases eq : v = current
        · rw [eq, held]
          exact fun other => same (some.inj other).symm
        · rw [update_of_ne eq] at free
          rw [free]
          simp
      exact iff_of_false unheld fun other => same (some.inj other).symm
  · rw [update_of_ne mine]
    by_cases eq : v = current
    · subst eq
      rw [update_self]
      refine iff_of_false (fun now => ?_) (by simp)
      by_cases same : d = c
      · rw [same, update_self] at now
        exact mine (some.inj now).symm
      · rw [update_of_ne same, owned.owner, held] at now
        exact same (some.inj now).symm
    · rw [update_of_ne eq]
      by_cases same : d = c
      · subst same
        rw [update_self, ← owned.owner, here]
        exact iff_of_false (fun now => mine (some.inj now).symm) fun now => eq (some.inj now).symm
      · rw [update_of_ne same]
        exact owned.owner d v

theorem Owned.schedule (counted : s.Counted) (here : s.currentThread c = some current) :
    (s.schedule c current).Counted ∧ (s.schedule c current).Owned := by
  have held : s.cpu current = some c := (owned.owner c current).mp here
  have released := counted.release (by rw [held]; simp)
  obtain ⟨t, runs, free⟩ := owned.idle_waits here
  obtain ⟨thread, currents, idle, stuck, -⟩ := @release_rest cfg n T Q _ s current
  obtain ⟨index, u, chosen, mem, free, -, -⟩ := released.choose_some (by rw [thread]; exact runs) free
  have taken := released.take (c := c) mem free
  unfold Smp.schedule
  simp only [chosen]
  refine ⟨taken.congr rfl rfl rfl rfl rfl, ⟨fun d v => ?_, fun d => ?_, fun d v isIdle => ?_, fun d e v => ?_, ?_⟩⟩
  · have switched := owned.switch here (u := u) (by rw [← release_cpu]; exact free) d v
    simp only [remPending, setCpu, currents, release_cpu]
    exact switched
  · simp only [remPending, setCpu, currents, idle]
    by_cases same : d = c
    · subst same
      rw [update_self, ← owned.started d, here]
      simp
    · rw [update_of_ne same]
      exact owned.started d
  · simp only [remPending, setCpu, idle] at isIdle
    simp only [remPending, setCpu, thread]
    exact owned.ready d v isIdle
  · simp only [remPending, setCpu, idle]
    exact owned.distinct d e v
  · simp only [remPending, setCpu, stuck]
    exact owned.unstuck

theorem Owned.setIdleThread (counted : s.Counted) (unset : s.currentThread c = none)
    (stopped : ¬ (s.thread t).Running) (free : s.cpu t = none) :
    (s.setIdleThread t c).Counted ∧ (s.setIdleThread t c).Owned := by
  have gone : CountedBut (· = t) (s.appoint t c) :=
    (((counted_iff_of_not_running stopped).mp counted).modify fun r => { r with state := .running }).congr rfl rfl rfl rfl rfl
  have runs : ((s.appoint t c).thread t).Running := by simp [appoint, modify, Running]
  have added := gone.addThread c runs
  have requeued := addThread_requeued (s.appoint t c) c t gone.map
  have mem := (added.queued _ t).mpr ⟨id, by rw [requeued.thread]; exact runs, rfl⟩
  have currents : (s.setIdleThread t c).currentThread = update s.currentThread c (some t) := requeued.current
  have cpus : (s.setIdleThread t c).cpu = update s.cpu t (some c) := by
    simp only [Smp.setIdleThread, remPending, setCpu, requeued.cpu]
    rfl
  have idles : (s.setIdleThread t c).idleThread = update s.idleThread c (some t) := requeued.idle
  have threads : (s.setIdleThread t c).thread = (s.appoint t c).thread := requeued.thread
  refine ⟨added.take mem (by rw [requeued.cpu]; exact free), ⟨fun d v => ?_, fun d => ?_, fun d v isIdle => ?_,
    fun d e v first second => ?_, requeued.stuck.trans owned.unstuck⟩⟩
  · rw [currents, cpus]
    by_cases same : d = c
    · subst same
      rw [update_self]
      by_cases mine : v = t
      · simp [mine]
      · rw [update_of_ne mine, ← owned.owner, unset]
        exact iff_of_false (fun now => mine (some.inj now).symm) (by simp)
    · rw [update_of_ne same, owned.owner]
      by_cases mine : v = t
      · rw [mine, update_self, free]
        exact iff_of_false (by simp) fun other => same (some.inj other).symm
      · rw [update_of_ne mine]
  · rw [currents, idles]
    by_cases same : d = c
    · simp [same]
    · rw [update_of_ne same, update_of_ne same]
      exact owned.started d
  · rw [idles] at isIdle
    rw [threads]
    by_cases mine : v = t
    · exact mine ▸ runs
    · by_cases same : d = c
      · rw [same, update_self] at isIdle
        exact absurd (some.inj isIdle).symm mine
      · rw [update_of_ne same] at isIdle
        simpa [appoint, modify, mine] using owned.ready d v isIdle
  · rw [idles] at first second
    by_cases sameD : d = c
    · by_cases sameE : e = c
      · rw [sameD, sameE]
      · rw [sameD, update_self] at first
        rw [update_of_ne sameE] at second
        exact absurd (owned.ready e v second) (some.inj first ▸ stopped)
    · rw [update_of_ne sameD] at first
      by_cases sameE : e = c
      · rw [sameE, update_self] at second
        exact absurd (owned.ready d v first) (some.inj second ▸ stopped)
      · rw [update_of_ne sameE] at second
        exact owned.distinct d e v first second

theorem Owned.modify {f : Thread cfg Q → Thread cfg Q}
    (ready : (∃ c, s.idleThread c = some t) → (f (s.thread t)).Running) : (s.modify t f).Owned := by
  refine owned.congr rfl rfl rfl rfl fun c u isIdle => ?_
  by_cases same : u = t
  · subst same
    simpa [Smp.modify] using ready ⟨c, isIdle⟩
  · simpa [Smp.modify, same] using owned.ready c u isIdle

theorem Owned.requeued {l : List T} {counts : Smp cfg n T Q} (requeued : Requeued t l counts s s') : s'.Owned := by
  refine owned.congr requeued.cpu requeued.current requeued.idle requeued.stuck fun c u isIdle => ?_
  rw [requeued.thread]
  exact owned.ready c u isIdle

end

theorem Counted.reorder (counted : s.Counted) {l : List T} (perm : l.Perm (s.runQueue p)) : (s.setQueue p l).Counted := by
  have same : ∀ r, ((s.setQueue p l).runQueue r).Perm (s.runQueue r) := by
    intro r
    by_cases eq : r = p
    · subst eq
      simpa [setQueue] using perm
    · simp [setQueue, eq]
  refine ⟨fun r u => (same r).mem_iff.trans (counted.queued r u), fun r => (same r).nodup_iff.mpr (counted.nodup r), fun r => ?_,
    counted.map⟩
  exact (counted.pending r).trans (waiting_perm (same r)).symm

theorem behind_perm (l : List T) (t : T) : (behind l t).Perm l := by
  have joined : (l.take (l.idxOf t + 1) ++ l.drop (l.idxOf t + 1)).Perm l := by rw [take_append_drop]
  exact perm_append_comm.trans joined

theorem withPriority_running (r : Thread cfg Q) (new : Priority cfg) : (r.withPriority new).Running ↔ r.Running := by
  unfold withPriority
  split <;> exact Iff.rfl

theorem Owned.reprioritize (owned : s.Owned) (counted : s.Counted) (this : Fin n) (t : T) (new : Priority cfg) :
    (s.reprioritize this t new).Counted ∧ (s.reprioritize this t new).Owned := by
  unfold Smp.reprioritize
  split
  · next runs =>
    have removed := remThread_requeued s t
    have gone := (counted.remThread runs).modify (·.withPriority new)
    have still : (((s.remThread t).modify t (·.withPriority new)).thread t).Running := by
      simpa [Smp.modify, withPriority_running, removed.thread] using runs
    have kept : ((s.remThread t).modify t (·.withPriority new)).Owned := (owned.requeued removed).modify fun _ => by
      rw [withPriority_running, removed.thread]
      exact runs
    exact ⟨gone.addThread this still, kept.requeued (addThread_requeued _ this t gone.map)⟩
  · next stopped =>
    have gone := ((counted_iff_of_not_running stopped).mp counted).modify (·.withPriority new)
    have still : ¬ ((s.modify t (·.withPriority new)).thread t).Running := by
      simpa [Smp.modify, withPriority_running] using stopped
    refine ⟨(counted_iff_of_not_running still).mpr gone, owned.modify ?_⟩
    rintro ⟨c, isIdle⟩
    exact absurd (owned.ready c t isIdle) stopped

theorem Owned.setPriority (owned : s.Owned) (counted : s.Counted) (this : Fin n) (t : T) (new : Priority cfg) :
    (s.setPriority this t new).Counted ∧ (s.setPriority this t new).Owned := by
  obtain ⟨counted, owned⟩ := owned.reprioritize counted this t new
  unfold Smp.setPriority
  dsimp only
  split <;> exact ⟨counted.congr rfl rfl rfl rfl rfl, owned.congr rfl rfl rfl rfl owned.ready⟩

theorem safe_step (counted : s.Counted) (owned : s.Owned) {e : SmpEvent cfg n T} (enabled : s.Enabled e) :
    (s.step e).Counted ∧ (s.step e).Owned := by
  cases e with
  | setIdleThread t c => exact owned.setIdleThread counted enabled.1 enabled.2.1 enabled.2.2
  | wake this t =>
    have gone := ((counted_iff_of_not_running enabled).mp counted).modify fun r => { r with state := .running }
    have runs : ((s.modify t fun r => { r with state := .running }).thread t).Running := by simp [modify, Running]
    have kept : (s.modify t fun r => { r with state := .running }).Owned := owned.modify fun _ => rfl
    exact ⟨gone.addThread this runs, kept.requeued (addThread_requeued _ this t gone.map)⟩
  | stop t state =>
    obtain ⟨runs, halted, notIdle⟩ := enabled
    have removed := remThread_requeued s t
    have gone := (counted.remThread runs).modify fun r => { r with state := state }
    have stopped : ¬ (((s.remThread t).modify t fun r => { r with state := state }).thread t).Running := by
      simpa [modify, Running] using halted
    have kept : ((s.remThread t).modify t fun r => { r with state := state }).Owned := by
      refine (owned.requeued removed).modify ?_
      rintro ⟨c, isIdle⟩
      exact absurd (removed.idle ▸ isIdle) (notIdle c)
    exact ⟨(counted_iff_of_not_running stopped).mpr gone, kept⟩
  | setPriority this t new => exact owned.setPriority counted this t new
  | headBehind this t =>
    simp only [step, headBehind]
    split
    · have moved := counted.reorder (behind_perm (s.runQueue (s.priority t)) t)
      split
      · exact ⟨moved, owned.congr rfl rfl rfl rfl owned.ready⟩
      · exact ⟨moved.congr rfl rfl rfl rfl rfl, owned.congr rfl rfl rfl rfl owned.ready⟩
    · exact ⟨counted, owned⟩
  | rotateQueue this p =>
    simp only [step, rotateQueue]
    split
    · exact ⟨counted, owned⟩
    · exact ⟨(counted.reorder (rotate_perm ..)).congr rfl rfl rfl rfl rfl, owned.congr rfl rfl rfl rfl owned.ready⟩
  | schedule c =>
    obtain ⟨current, here⟩ := ne_none_iff_exists'.mp enabled
    simp only [step, here]
    exact owned.schedule counted here

theorem reach_safe (reach : (machine cfg n T Q).Reach s) : s.Counted ∧ s.Owned := by
  refine reach.kept (P := fun s => s.Counted ∧ s.Owned) ?_ fun s e safe enabled => safe_step safe.1 safe.2 enabled
  rintro s ⟨pri, rfl⟩
  refine ⟨⟨fun p t => ?_, fun _ => .nil, fun _ => rfl, fun p => ?_⟩, ⟨fun c t => ?_, fun _ => Iff.rfl, nofun, nofun, rfl⟩⟩
  · simp [initial, create, Running, ThreadState.running]
  · simp [initial]
  · simp [initial]

/-- In every reachable state of the scheduler, with any number of processors: the pending
counts and their map are right, no thread is current on two processors, and wherever
`schedule` is called its search ends at a thread of the best pending priority. -/
theorem smp_pending_balanced (s : Smp cfg n T Q) (reach : (machine cfg n T Q).Reach s) :
    (∀ p, s.pending p = (s.runQueue p).countP fun t => (s.cpu t).isNone) ∧
    (∀ p : Priority cfg, s.pendingMap.getLsbD p = true ↔ 0 < s.pending p) ∧
    (∀ c d t, s.currentThread c = some t → s.currentThread d = some t → c = d) ∧
    s.stuck = false ∧
    ∀ c current, s.currentThread c = some current → ∃ index t, (s.release current).choose = some (index, t) ∧
      t ∈ (s.release current).runQueue index ∧ (s.release current).cpu t = none ∧
      0 < (s.release current).pending index ∧ ∀ p, 0 < (s.release current).pending p → index ≤ p := by
  obtain ⟨counted, owned⟩ := reach_safe reach
  refine ⟨counted.pending, counted.map, fun c d t first second => ?_, owned.unstuck, fun c current here => ?_⟩
  · exact Option.some.inj (((owned.owner c t).mp first).symm.trans ((owned.owner d t).mp second))
  · have held := (owned.owner c current).mp here
    obtain ⟨t, runs, free⟩ := owned.idle_waits here
    refine (counted.release (by rw [held]; simp)).choose_some ?_ free
    rw [release_rest.1]
    exact runs

/-- Two processors; thread 2 is stopped by processor 1 while it runs on processor 0, and
readied again before that has rescheduled. -/
def crossed : List (SmpEvent .twoLevels 2 (Fin 3)) :=
  [.setIdleThread 0 0, .setIdleThread 1 1, .wake 0 2, .schedule 0, .stop 2 ⟨true, false, false, false⟩, .wake 1 2]

theorem smp_pending_balanced_crossed :
    (crossed.foldl step (initial ![1, 1, 0] : Smp .twoLevels 2 (Fin 3) Unit)).currentThread 0 = some 2 ∧
      (crossed.foldl step (initial ![1, 1, 0] : Smp .twoLevels 2 (Fin 3) Unit)).pending 0 =
        ((crossed.foldl step (initial ![1, 1, 0] : Smp .twoLevels 2 (Fin 3) Unit)).runQueue 0).countP fun t =>
          ((crossed.foldl step (initial ![1, 1, 0] : Smp .twoLevels 2 (Fin 3) Unit)).cpu t).isNone := by
  have run := smp_pending_balanced (crossed.foldl step (initial ![1, 1, 0] : Smp .twoLevels 2 (Fin 3) Unit))
    (Machine.Reach.run (.start ⟨_, rfl⟩) (by decide))
  exact ⟨by decide, run.1 0⟩

end Smp

end Ecos
