import Ecos.Kernel.Realize

namespace Ecos
open List Option

namespace Kernel
variable {cfg : Config} {T Q : Type} [DecidableEq T] [DecidableEq Q]
variable {clean : Prop} {idle x : T} {k : Kernel cfg T Q} {L : ListId cfg Q → List T} {q : Q}
variable {s : Threads cfg T Q}

/-- No runnable thread is more urgent than `t`. -/
def Foremost (k : Kernel cfg T Q) (t : T) : Prop :=
  ∀ u, (k.thread u).Running → (k.thread t).priority ≤ (k.thread u).priority

theorem lsbitIndex_spec {map : BitVec 32} {r : Priority cfg} (bit : map.getLsbD r = true) :
    ∃ p : Priority cfg, lsbitIndex map = some p ∧ map.getLsbD p = true ∧
      ∀ j : Priority cfg, map.getLsbD j = true → p ≤ j := by
  have found : (lsbitIndex map : Option (Priority cfg)).isSome = true := by
    rw [lsbitIndex, find?_isSome]
    exact ⟨r, mem_finRange r, bit⟩
  obtain ⟨p, isP⟩ := isSome_iff_exists.mp found
  obtain ⟨atP, before, after, split, none⟩ := find?_eq_some_iff_append.mp isP
  refine ⟨p, isP, atP, ?_⟩
  intro j atJ
  have ordered := pairwise_lt_finRange (cfg.minPriority + 1)
  rw [split, pairwise_append] at ordered
  have mem : j ∈ before ++ p :: after := split ▸ mem_finRange j
  rcases mem_append.mp mem with early | late
  · simpa [atJ] using none j early
  · rcases mem_cons.mp late with same | later
    · exact same.ge
    · exact (rel_of_pairwise_cons ordered.2.1 later).le

theorem Realizes.schedule (real : Realizes clean idle k s) :
    ∃ next, k.schedule.2 = some next ∧ (k.thread next).Running ∧ k.Foremost next ∧
      Realizes clean idle k.schedule.1 s := by
  have real' := real
  obtain ⟨L, linked, -⟩ := real'
  have occupied : L (.run (k.thread idle).priority) ≠ [] :=
    ne_nil_of_mem (linked.mem_run_iff.mpr ⟨linked.idleRuns, rfl⟩)
  obtain ⟨p, index, bit, least⟩ := lsbitIndex_spec ((linked.map _).mpr occupied)
  obtain ⟨next, rest, members⟩ := exists_cons_of_ne_nil ((linked.map p).mp bit)
  have head : k.lists.head (.run p) = some next := by
    rw [linked.rep.heads, members]
    rfl
  have isNext : k.schedule.2 = some next := by
    simp [Kernel.schedule, index, head]
  obtain ⟨runs, level⟩ := linked.mem_run_iff.mp (show next ∈ L (.run p) by simp [members])
  refine ⟨next, isNext, runs, ?_, ?_⟩
  · intro u uRuns
    rw [level]
    refine least _ ((linked.map _).mpr (ne_nil_of_mem (linked.mem_run_iff.mpr ⟨uRuns, rfl⟩)))
  · refine real.congr rfl rfl rfl ?_
    intro isClean held
    obtain ⟨idleBit, present⟩ := real.idleHome isClean
    have alone := (linked.sound next).queue_none runs
    simp only [Kernel.schedule, cygAssert_assertsHeld, cygAssert_queueMap, cygAssert_lists, cygAssert_thread, index,
      bind_some, head, any_some, alone, isNone_none, held, present, map_ne_zero idleBit]
    rfl

/-- What `unlock_inner` leaves: the threads as they were and, as the current
one, a thread that runs and that no other is more urgent than. -/
structure Dispatched (clean : Prop) (idle : T) (s : Threads cfg T Q) (k : Kernel cfg T Q) : Prop where
  real : Realizes clean idle k s
  runs : (k.thread k.currentThread).Running
  foremost : k.Foremost k.currentThread

theorem Realizes.threadEntry (real : Realizes clean idle k s) (runs : (k.thread x).Running) (first : k.Foremost x) :
    Dispatched clean idle s (k.threadEntry x) :=
  ⟨real.congr rfl rfl rfl fun _ held => held, runs, first⟩

theorem Realizes.switchContext (real : Realizes clean idle k s) (runs : (k.thread x).Running)
    (first : k.Foremost x) : Dispatched clean idle s (k.switchContext x) := by
  unfold Kernel.switchContext
  split
  · exact real.threadEntry runs first
  · exact ⟨real.congr rfl rfl rfl fun _ held => held, runs, first⟩

/-- Whether a reschedule is due, or no runnable thread is more urgent than the
current one. -/
def Alert (k : Kernel cfg T Q) : Prop := k.needReschedule = true ∨ k.Foremost k.currentThread

theorem Realizes.unlockInner (real : Realizes clean idle k s) (alert : k.Alert) (newLock : Nat) :
    Dispatched clean idle s (k.unlockInner newLock) := by
  obtain ⟨next, isNext, runs, first, after⟩ := real.schedule
  unfold Kernel.unlockInner
  dsimp only
  split
  · have pair : k.schedule = (k.schedule.1, some next) := by rw [← isNext]
    rw [pair]
    dsimp only
    split
    · exact Realizes.switchContext (after.congr rfl rfl rfl fun _ held => held) runs first
    · next same =>
      have same : k.currentThread = next := by simpa using same
      refine ⟨after.congr rfl rfl rfl fun _ held => held, ?_, ?_⟩
      · exact same ▸ runs
      · exact same ▸ first
  · next stays =>
    push Not at stays
    refine ⟨real.congr rfl rfl rfl fun _ held => held, stays.1, ?_⟩
    exact alert.resolve_left (by simpa using stays.2)

theorem Realizes.startCpu (real : Realizes clean idle k s) : Dispatched clean idle s k.startCpu := by
  obtain ⟨next, isNext, runs, first, after⟩ := real.schedule
  have pair : k.schedule = (k.schedule.1, some next) := by rw [← isNext]
  unfold Kernel.startCpu
  rw [pair]
  exact after.threadEntry runs first

end Kernel

end Ecos
