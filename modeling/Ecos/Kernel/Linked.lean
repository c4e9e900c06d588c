import Ecos.Kernel.Sched

namespace Ecos
open Function Thread List

/-- The list on which the fields of a thread say it is linked. -/
def Thread.location {cfg : Config} {Q : Type} (r : Thread cfg Q) : Option (ListId cfg Q) :=
  if r.Running then some (.run r.priority) else r.queue.map .wait

/-- A queued thread sleeps, for a reason that `release` and `kill` act upon,
and a suspension that is counted shows in the state. -/
structure Thread.Sound {cfg : Config} {Q : Type} (r : Thread cfg Q) : Prop where
  sleeping : r.queue ≠ none → r.state.sleeping = true
  blocking : r.queue ≠ none → r.sleepReason.blocking = true
  counted : 0 < r.suspendCount → r.state.suspended = true

theorem Thread.Sound.queue_none {cfg : Config} {Q : Type} {r : Thread cfg Q} (sound : r.Sound)
    (runs : r.Running) : r.queue = none := by
  by_contra queued
  have asleep := sound.sleeping queued
  rw [show r.state = .running from runs] at asleep
  simp [ThreadState.running] at asleep

theorem Thread.location_running {cfg : Config} {Q : Type} {r : Thread cfg Q} (runs : r.Running) :
    r.location = some (.run r.priority) := by
  simp [location, runs]

theorem Thread.location_stopped {cfg : Config} {Q : Type} {r : Thread cfg Q} (stopped : ¬ r.Running) :
    r.location = r.queue.map .wait := by
  simp [location, stopped]

namespace Kernel
variable {cfg : Config} {T Q : Type} [DecidableEq T] [DecidableEq Q]

/-- Thread `t` is on the list `loc` and on no other. -/
def LinkedAt (L : ListId cfg Q → List T) (t : T) (loc : Option (ListId cfg Q)) : Prop :=
  ∀ i, t ∈ L i ↔ loc = some i

/-- The pointers represent the lists `L`, the bitmap shows which run queues
have threads and the idle thread can run. In a `clean` run all assertions have
held and the idle thread is at home on the last run queue. -/
structure Shape (clean : Prop) (idle : T) (k : Kernel cfg T Q) (L : ListId cfg Q → List T) : Prop where
  rep : k.lists.Represents L
  map : ∀ p, k.mapBit p = true ↔ L (.run p) ≠ []
  idleRuns : (k.thread idle).Running
  asserted : clean → k.assertsHeld = true ∧ idle ∈ L (.run cfg.idlePriority)

/-- Every thread is linked where its fields say. -/
structure Linked (clean : Prop) (idle : T) (k : Kernel cfg T Q) (L : ListId cfg Q → List T) : Prop
    extends Shape clean idle k L where
  place : ∀ t, LinkedAt L t (k.thread t).location
  sound : ∀ t, (k.thread t).Sound

/-- The state in the middle of an operation on `x`, which is on no list while
its fields change. -/
structure Off (clean : Prop) (idle : T) (k : Kernel cfg T Q) (L : ListId cfg Q → List T) (x : T) : Prop
    extends Shape clean idle k L where
  place : ∀ t, t ≠ x → LinkedAt L t (k.thread t).location
  sound : ∀ t, t ≠ x → (k.thread t).Sound
  absent : ∀ i, x ∉ L i

/-- What the synchronization objects see of a kernel state. -/
def view (k : Kernel cfg T Q) (L : ListId cfg Q → List T) : Threads cfg T Q := ⟨k.thread, fun q => L (.wait q)⟩

@[simp] theorem view_update_run (k : Kernel cfg T Q) (L : ListId cfg Q → List T) (p : Priority cfg) (l : List T) :
    view k (update L (.run p) l) = view k L := by
  simp [view]

@[simp] theorem view_modify (k : Kernel cfg T Q) (L : ListId cfg Q → List T) (x : T)
    (f : Thread cfg Q → Thread cfg Q) : view (k.modify x f) L = (view k L).modify x f := rfl

@[simp] theorem view_remThread (k : Kernel cfg T Q) (L : ListId cfg Q → List T) (x : T) :
    view (k.remThread x) L = view k L := rfl

section Bits
variable {map : BitVec 32} {p r : Priority cfg}

theorem Priority.lt_width (p : Priority cfg) : p.val < 32 := by
  have := cfg.fits
  have := p.isLt
  omega

theorem getLsbD_setBit : (map ||| 1#32 <<< p.val).getLsbD r.val = (map.getLsbD r.val || decide (r = p)) := by
  have small := Priority.lt_width r
  have same : decide (r = p) = decide (r.val = p.val) := by simp [Fin.ext_iff]
  rw [same]
  grind

theorem getLsbD_clearBit : (map &&& ~~~(1#32 <<< p.val)).getLsbD r.val = (map.getLsbD r.val && decide (r ≠ p)) := by
  have same : decide (r ≠ p) = decide (r.val ≠ p.val) := by simp [Fin.ext_iff]
  rw [same]
  grind

theorem map_ne_zero (bit : map.getLsbD r.val = true) : (map != 0) = true := by
  simp only [bne_iff_ne]
  rintro rfl
  simp at bit

end Bits

variable {clean : Prop} {idle x : T} {k : Kernel cfg T Q} {L : ListId cfg Q → List T} {q : Q}

section
variable (shape : Shape clean idle k L)
include shape

theorem Shape.runEmpty_iff {p : Priority cfg} : k.runEmpty p = true ↔ L (.run p) = [] := shape.rep.isEmpty_iff

theorem Shape.occupied {p : Priority cfg} {t : T} (mem : t ∈ L (.run p)) : k.runEmpty p = false := by
  rw [← Bool.not_eq_true, shape.runEmpty_iff]
  exact ne_nil_of_mem mem

theorem Shape.mapAgrees (p : Priority cfg) : k.mapAgrees p = true := by
  have bit := shape.map p
  have empty := shape.runEmpty_iff (p := p)
  unfold Kernel.mapAgrees
  grind

theorem Shape.idlePresent (home : idle ∈ L (.run cfg.idlePriority)) : k.idlePresent = true := by
  have occupied : L (.run cfg.idlePriority) ≠ [] := ne_nil_of_mem home
  have bit := (shape.map _).mpr occupied
  have empty := shape.runEmpty_iff (p := cfg.idlePriority)
  unfold Kernel.idlePresent
  grind

end

theorem LinkedAt.update_of_ne {t : T} {loc : Option (ListId cfg Q)} (at' : LinkedAt L t loc)
    {L' : ListId cfg Q → List T} (same : ∀ i, t ∈ L' i ↔ t ∈ L i) : LinkedAt L' t loc :=
  fun i => (same i).trans (at' i)

section Fields
variable (k : Kernel cfg T Q) (t : T)

@[simp] theorem remThread_thread : (k.remThread t).thread = k.thread := rfl

theorem remThread_queueMap : (k.remThread t).queueMap =
    if (k.remThread t).runEmpty (k.thread t).priority then k.queueMap &&& ~~~(1#32 <<< (k.thread t).priority.val)
    else k.queueMap := rfl

theorem remThread_assertsHeld : (k.remThread t).assertsHeld = (k.assertsHeld && k.queueMap != 0 &&
      ((k.thread t).priority != cfg.idlePriority && !k.runEmpty cfg.idlePriority &&
        k.mapBit (k.thread t).priority && !k.runEmpty (k.thread t).priority) &&
      ((k.remThread t).queueMap != 0 && (k.remThread t).idlePresent &&
        (k.remThread t).mapAgrees (k.thread t).priority)) := rfl

theorem remove_none (alone : (k.thread t).queue = none) : k.remove t = k := by
  simp [remove, alone]

theorem remove_some {q : Q} (queued : (k.thread t).queue = some q) : k.remove t = k.queueRemove q t := by
  simp [remove, queued]

end Fields

theorem Linked.remThread (linked : Linked clean idle k L) (runs : (k.thread x).Running)
    (home : clean → (k.thread x).priority ≠ cfg.idlePriority) :
    Off clean idle (k.remThread x)
      (update L (.run (k.thread x).priority) ((L (.run (k.thread x).priority)).erase x)) x := by
  set p := (k.thread x).priority with hp
  set L' := update L (.run p) ((L (.run p)).erase x) with hL
  have mem : x ∈ L (.run p) := (linked.place x _).mpr (location_running runs)
  have rep : (k.remThread x).lists.Represents L' := linked.rep.remove mem
  have empty : (k.remThread x).runEmpty p = true ↔ L' (.run p) = [] := rep.isEmpty_iff
  have others : ∀ t, t ≠ x → ∀ i, t ∈ L' i ↔ t ∈ L i := by
    intro t ne i
    by_cases same : i = .run p
    · subst same; simp [hL, mem_erase_of_ne ne]
    · simp [hL, same]
  have map : ∀ r, (k.remThread x).mapBit r = true ↔ L' (.run r) ≠ [] := by
    intro r
    have old := linked.map r
    unfold mapBit at old ⊢
    rw [remThread_queueMap, ← hp]
    by_cases same : r = p
    · subst same
      have bit := old.mpr (ne_nil_of_mem mem)
      split
      · next none =>
        rw [getLsbD_clearBit]
        simp [empty.mp none]
      · next some => exact ⟨fun _ nil => some (empty.mpr nil), fun _ => bit⟩
    · have apart : (ListId.run r : ListId cfg Q) ≠ .run p := by simpa using same
      rw [hL, update_of_ne apart, ← old]
      split
      · rw [getLsbD_clearBit]
        simp [same]
      · rfl
  have shape : Shape False idle (k.remThread x) L' := ⟨rep, map, linked.idleRuns, False.elim⟩
  refine ⟨⟨rep, map, linked.idleRuns, ?_⟩, ?_, fun t _ => linked.sound t, ?_⟩
  · intro isClean
    obtain ⟨held, atHome⟩ := linked.asserted isClean
    have away : (ListId.run cfg.idlePriority : ListId cfg Q) ≠ .run p := by
      simpa using (home isClean).symm
    have stays : idle ∈ L' (.run cfg.idlePriority) := by simpa [hL, away] using atHome
    have bit := (linked.map p).mpr (ne_nil_of_mem mem)
    have occupied := linked.occupied mem
    have idleBit := (map cfg.idlePriority).mpr (ne_nil_of_mem stays)
    have idleOccupied := linked.occupied atHome
    refine ⟨?_, stays⟩
    rw [remThread_assertsHeld, ← hp, held, shape.idlePresent stays, shape.mapAgrees p, bit, occupied, idleOccupied,
      map_ne_zero bit, map_ne_zero idleBit]
    simpa using home isClean
  · intro t ne
    exact (linked.place t).update_of_ne (others t ne)
  · intro i
    by_cases same : i = .run p
    · subst same; simpa [hL] using (linked.rep.nodup _).not_mem_erase
    · rw [hL, update_of_ne same]
      intro inI
      exact same (linked.rep.disjoint inI mem)

section AddFields
variable (alone : (k.thread x).queue = none)
include alone

theorem addThread_eq :
    k.addThread x = (k.cygAssert (k.mapAgrees (k.thread x).priority)).joinRun (k.thread x).priority x := by
  simp only [Kernel.addThread]
  rw [remove_none (k.cygAssert _) x alone]

theorem addThread_thread : (k.addThread x).thread = k.thread := by rw [addThread_eq alone]; rfl
theorem addThread_lists : (k.addThread x).lists = k.lists.addTail (.run (k.thread x).priority) x := by
  rw [addThread_eq alone]; rfl
theorem addThread_queueMap : (k.addThread x).queueMap =
    if k.runEmpty (k.thread x).priority then k.queueMap ||| 1#32 <<< (k.thread x).priority.val else k.queueMap := by
  rw [addThread_eq alone]; rfl
theorem addThread_currentThread : (k.addThread x).currentThread = k.currentThread := by rw [addThread_eq alone]; rfl
theorem addThread_schedLock : (k.addThread x).schedLock = k.schedLock := by rw [addThread_eq alone]; rfl
theorem addThread_needReschedule : (k.addThread x).needReschedule = (k.setNeedRescheduleFor x).needReschedule := by
  rw [addThread_eq alone]; rfl

theorem addThread_assertsHeld : (k.addThread x).assertsHeld =
    (k.assertsHeld && k.mapAgrees (k.thread x).priority && (((k.thread x).queue.isNone &&
      (k.addThread x).queueMap != 0 &&
      (k.addThread x).mapBit (k.thread x).priority && !(k.addThread x).runEmpty (k.thread x).priority &&
      (k.addThread x).mapAgrees (k.thread x).priority && (k.addThread x).idlePresent))) := by
  rw [addThread_eq alone]; rfl

end AddFields

/-- A runnable thread is returned to the tail of its run queue. -/
theorem Off.addThread (off : Off clean idle k L x) (runs : (k.thread x).Running) (sound : (k.thread x).Sound) :
    Linked clean idle (k.addThread x)
      (update L (.run (k.thread x).priority) (L (.run (k.thread x).priority) ++ [x])) := by
  have alone := sound.queue_none runs
  set p := (k.thread x).priority with hp
  set L' := update L (.run p) (L (.run p) ++ [x]) with hL
  have sameThread : (k.addThread x).thread = k.thread := addThread_thread alone
  have rep : (k.addThread x).lists.Represents L' := by
    rw [addThread_lists alone]
    exact off.rep.addTail off.absent
  have map : ∀ r, (k.addThread x).mapBit r = true ↔ L' (.run r) ≠ [] := by
    intro r
    have old := off.map r
    unfold mapBit at old ⊢
    rw [addThread_queueMap alone, ← hp]
    by_cases same : r = p
    · subst same
      have grown : L' (.run p) ≠ [] := by simp [hL]
      refine iff_of_true ?_ grown
      split
      · rw [getLsbD_setBit]
        simp
      · next occupied => exact old.mpr fun nil => occupied (off.runEmpty_iff.mpr nil)
    · have apart : (ListId.run r : ListId cfg Q) ≠ .run p := by simpa using same
      rw [hL, update_of_ne apart, ← old]
      split
      · rw [getLsbD_setBit]
        simp [same]
      · rfl
  have kept : ∀ i t, t ∈ L i → t ∈ L' i := by
    intro i t inI
    by_cases same : i = .run p
    · subst same; simp [hL, inI]
    · simpa [hL, same] using inI
  have others : ∀ t, t ≠ x → ∀ i, t ∈ L' i ↔ t ∈ L i := by
    intro t ne i
    refine ⟨?_, kept i t⟩
    by_cases same : i = .run p
    · subst same; simp [hL, ne]
    · simp [hL, same]
  have mem : x ∈ L' (.run p) := by simp [hL]
  have idleRuns : ((k.addThread x).thread idle).Running := sameThread ▸ off.idleRuns
  have shape : Shape False idle (k.addThread x) L' := ⟨rep, map, idleRuns, False.elim⟩
  refine ⟨⟨rep, map, idleRuns, ?_⟩, ?_, ?_⟩
  · intro isClean
    obtain ⟨held, atHome⟩ := off.asserted isClean
    have stays := kept _ _ atHome
    have bit := (map p).mpr (ne_nil_of_mem mem)
    have occupied := shape.occupied mem
    refine ⟨?_, stays⟩
    rw [addThread_assertsHeld alone, ← hp, held, off.mapAgrees p, shape.mapAgrees p, shape.idlePresent stays,
      map_ne_zero bit, bit, occupied, alone]
    rfl
  · intro t
    rw [sameThread]
    by_cases same : t = x
    · subst same
      intro i
      rw [location_running runs, ← hp]
      refine ⟨fun inI => ?_, ?_⟩
      · rw [rep.disjoint inI mem]
      · rintro ⟨⟩
        exact mem
    · exact (off.place t same).update_of_ne (others t same)
  · intro t
    rw [sameThread]
    by_cases same : t = x
    · subst same; exact sound
    · exact off.sound t same

theorem Linked.off (linked : Linked clean idle k L) (nowhere : (k.thread x).location = none) :
    Off clean idle k L x where
  toShape := linked.toShape
  place t _ := linked.place t
  sound t _ := linked.sound t
  absent i inI := by simpa [nowhere] using (linked.place x i).mp inI

theorem Off.modify (off : Off clean idle k L x) {f : Thread cfg Q → Thread cfg Q}
    (keeps : x = idle → (f (k.thread x)).Running) : Off clean idle (k.modify x f) L x where
  rep := off.rep
  map := off.map
  idleRuns := by
    by_cases same : idle = x
    · subst same; simpa using keeps rfl
    · simpa [same] using off.idleRuns
  asserted := off.asserted
  place t ne := by simpa [ne] using off.place t ne
  sound t ne := by simpa [ne] using off.sound t ne
  absent := off.absent

theorem Off.settle (off : Off clean idle k L x) (nowhere : (k.thread x).location = none)
    (sound : (k.thread x).Sound) : Linked clean idle k L where
  toShape := off.toShape
  place t := by
    by_cases same : t = x
    · subst same
      intro i
      simp [nowhere, off.absent]
    · exact off.place t same
  sound t := by
    by_cases same : t = x
    · subst same; exact sound
    · exact off.sound t same

theorem Linked.modify (linked : Linked clean idle k L) {f : Thread cfg Q → Thread cfg Q}
    (stays : (f (k.thread x)).location = (k.thread x).location) (sound : (f (k.thread x)).Sound)
    (keeps : x = idle → (f (k.thread x)).Running) : Linked clean idle (k.modify x f) L where
  rep := linked.rep
  map := linked.map
  idleRuns := by
    by_cases same : idle = x
    · subst same; simpa using keeps rfl
    · simpa [same] using linked.idleRuns
  asserted := linked.asserted
  place t := by
    by_cases same : t = x
    · subst same; simpa [stays] using linked.place t
    · simpa [same] using linked.place t
  sound t := by
    by_cases same : t = x
    · subst same; simpa using sound
    · simpa [same] using linked.sound t

theorem Linked.queueRemove (linked : Linked clean idle k L) (queued : (k.thread x).queue = some q) :
    Off clean idle (k.queueRemove q x) (update L (.wait q) ((L (.wait q)).erase x)) x := by
  have asleep : ¬ (k.thread x).Running := by
    intro runs
    have alone := (linked.sound x).queue_none runs
    simp [alone] at queued
  have mem : x ∈ L (.wait q) :=
    (linked.place x _).mpr (by rw [location_stopped asleep, queued]; rfl)
  have away : x ≠ idle := by
    rintro rfl
    exact asleep linked.idleRuns
  have rep := linked.rep.remove mem
  have others : ∀ t, t ≠ x → ∀ i, t ∈ update L (.wait q) ((L (.wait q)).erase x) i ↔ t ∈ L i := by
    intro t ne i
    by_cases same : i = .wait q
    · subst same; simp [mem_erase_of_ne ne]
    · simp [same]
  refine ⟨⟨rep, ?_, ?_, ?_⟩, ?_, ?_, ?_⟩
  · intro p
    simpa [Kernel.queueRemove, mapBit] using linked.map p
  · simpa [Kernel.queueRemove, Ne.symm away] using linked.idleRuns
  · intro isClean
    simpa [Kernel.queueRemove] using linked.asserted isClean
  · intro t ne
    have same : (k.queueRemove q x).thread t = k.thread t := by simp [Kernel.queueRemove, ne]
    rw [same]
    exact (linked.place t).update_of_ne (others t ne)
  · intro t ne
    simpa [Kernel.queueRemove, ne] using linked.sound t
  · intro i
    by_cases same : i = .wait q
    · subst same; simpa using (linked.rep.nodup _).not_mem_erase
    · rw [update_of_ne same]
      intro inI
      exact same (linked.rep.disjoint inI mem)

end Kernel

end Ecos
