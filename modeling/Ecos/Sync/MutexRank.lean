import Ecos.Sync.MutexSafety

namespace Ecos
open Threads Thread Finset Mutexes Function Befalls

/-- The priorities of a thread whose own priority is `base` and that has claims
on `n` mutexes. -/
structure Thread.Ranked {cfg : Config} {Q : Type} (r : Thread cfg Q) (base : Priority cfg) (n : Nat) : Prop where
  count : r.mutexCount = n
  own : r.getPriority = base
  raised : r.priorityInherited = true → r.priority ≤ r.originalPriority
  cleared : n = 0 → r.priorityInherited = false

namespace Thread.Ranked
variable {cfg : Config} {Q : Type} {r r' : Thread cfg Q} {base new pri : Priority cfg} {n : Nat}

section
variable (ranked : r.Ranked base n)
include ranked

theorem priority_le : r.priority ≤ base := by
  have own := ranked.own
  unfold getPriority at own
  split at own
  · next inherited =>
    rw [← own]
    exact ranked.raised inherited
  · exact own.le

theorem priority_eq (none : n = 0) : r.priority = base := by
  have own := ranked.own
  simpa [getPriority, ranked.cleared none] using own

theorem sameRank (same : r.SameRank r') : r'.Ranked base n := by
  obtain ⟨priority, original, inherited, count⟩ := same
  refine ⟨count.trans ranked.count, ?_, ?_, ?_⟩
  · have own := ranked.own
    simpa [getPriority, priority, original, inherited] using own
  · rw [inherited, priority, original]
    exact ranked.raised
  · rw [inherited]
    exact ranked.cleared

theorem inheriting (claims : n ≠ 0) (pri : Priority cfg) : (r.inheriting pri).Ranked base n := by
  unfold Thread.inheriting
  split
  · next less =>
    have own := ranked.own
    refine ⟨ranked.count, ?_, ?_, fun none => absurd none claims⟩
    · simpa [getPriority] using own
    · intro _
      split
      · next inherited => exact less.le.trans (ranked.raised inherited)
      · exact less.le
  · exact ranked

theorem counted : Ranked { r with mutexCount := r.mutexCount + 1 } base (n + 1) where
  count := by simp [ranked.count]
  own := ranked.own
  raised := ranked.raised
  cleared none := by simp at none

end

theorem uncounted (ranked : r.Ranked base (n + 1)) :
    (Thread.disinheriting { r with mutexCount := r.mutexCount - 1 }).Ranked base n := by
  have count : r.mutexCount - 1 = n := by simp [ranked.count]
  have own := ranked.own
  unfold disinheriting
  simp only [count]
  split
  · next both =>
    obtain ⟨-, inherited⟩ := both
    have back : (if r.priority < r.originalPriority then r.originalPriority else r.priority) = base := by
      simp only [getPriority, inherited, if_true] at own
      split
      · exact own
      · next more => exact (le_antisymm (ranked.raised inherited) (not_lt.mp more)).trans own
    refine ⟨rfl, ?_, fun still => by simp at still, fun _ => rfl⟩
    simpa [getPriority] using back
  · next other =>
    refine ⟨rfl, own, ranked.raised, fun none => ?_⟩
    have zero : (n : Int) = 0 := by simp [none]
    simpa [zero] using other

theorem withPriority (ranked : r.Ranked base n) (new : Priority cfg) : (r.withPriority new).Ranked new n := by
  unfold Thread.withPriority
  split
  · next inherited =>
    refine ⟨ranked.count, ?_, fun _ => ?_, ranked.cleared⟩
    · simp [getPriority, inherited]
    · dsimp only
      split
      · exact le_rfl
      · next more => exact not_lt.mp more
  · next own =>
    refine ⟨ranked.count, ?_, fun inherited => absurd inherited own, ranked.cleared⟩
    simp [getPriority, own]

end Thread.Ranked

namespace Mutexes
variable {cfg : Config} {T M : Type} [DecidableEq T] [DecidableEq M] [Fintype M]

/-- The mutexes with a protocol that a thread owns. -/
def owned (s : Mutexes cfg T M) (t : T) : Finset M :=
  Finset.univ.filter fun m => s.active m = true ∧ (s.mutex m).owner = some t

/-- One if the thread is in `lock` for a mutex with a protocol, else zero. -/
def entering (s : Mutexes cfg T M) (t : T) : Nat := (s.inside t).elim 0 fun m => (s.active m).toNat

/-- The claims that `mutex_count` counts. -/
def claims (s : Mutexes cfg T M) (t : T) : Nat := (s.owned t).card + s.entering t

/-- Every thread has the priorities that its claims call for. -/
def Ranked (s : Mutexes cfg T M) : Prop := ∀ t, (s.threads.thread t).Ranked (s.base t) (s.claims t)

variable {s : Mutexes cfg T M} {t u : T} {m : M} {threads : Threads cfg T M}

theorem Ranked.initial (pri : T → Priority cfg) (protocol : M → Protocol) (ceiling : M → Priority cfg) :
    (initial pri protocol ceiling : Mutexes cfg T M).Ranked := by
  intro t
  have none : (Mutexes.initial pri protocol ceiling : Mutexes cfg T M).claims t = 0 := by
    simp [claims, owned, entering, Mutexes.initial]
  rw [none]
  exact ⟨rfl, rfl, fun inherited => by simp [Mutexes.initial, create] at inherited, fun _ => rfl⟩

theorem inactive (kind : (s.mutex m).protocol = .none) : s.active m = false := by
  rw [active, kind]
  rfl

theorem active_of_inherit (kind : (s.mutex m).protocol = .inherit) : s.active m = true := by
  rw [active, kind]
  rfl

theorem active_of_ceiling (kind : (s.mutex m).protocol = .ceiling) : s.active m = true := by
  rw [active, kind]
  rfl

theorem mem_owned : m ∈ s.owned t ↔ s.active m = true ∧ (s.mutex m).owner = some t := by simp [owned]

theorem claims_of_owner (active : s.active m = true) (owner : (s.mutex m).owner = some t) : s.claims t ≠ 0 := by
  have pos : 0 < (s.owned t).card := card_pos.mpr ⟨m, mem_owned.mpr ⟨active, owner⟩⟩
  unfold claims
  omega

theorem claims_of_inside (active : s.active m = true) (inside : s.inside t = some m) : s.claims t ≠ 0 := by
  simp [claims, entering, inside, active]

theorem Ranked.befall (ranked : s.Ranked) (befalls : Threads.Befalls t s.threads threads) :
    (s.withThreads threads).Ranked := by
  intro u
  by_cases same : u = t
  · subst same
    exact (ranked u).sameRank befalls.rank
  · show (threads.thread u).Ranked _ _
    rw [befalls.others u same]
    exact ranked u

theorem Ranked.revalue (ranked : s.Ranked) {f : Thread cfg M → Thread cfg M}
    (made : Threads.Revalues t f s.threads threads)
    (kept : (s.threads.thread t).Ranked (s.base t) (s.claims t) →
      (f (s.threads.thread t)).Ranked (s.base t) (s.claims t)) : (s.withThreads threads).Ranked := by
  intro u
  by_cases same : u = t
  · subst same
    show (threads.thread u).Ranked _ _
    rw [made.self]
    exact kept (ranked u)
  · show (threads.thread u).Ranked _ _
    rw [made.others u same]
    exact ranked u

theorem claims_setInside_of_ne {o : Option M} (ne : u ≠ t) : (s.setInside t o).claims u = s.claims u := by
  simp [claims, entering, setInside, owned, active, ne]

theorem claims_inside (inside : s.inside t = some m) :
    s.claims t = (s.setInside t none).claims t + (s.active m).toNat := by
  simp [claims, entering, setInside, owned, active, inside]

theorem claims_outside (outside : s.inside t = none) :
    (s.setInside t (some m)).claims t = s.claims t + (s.active m).toNat := by
  simp [claims, entering, setInside, owned, active, outside]

theorem Ranked.enter (ranked : s.Ranked) (wf : s.threads.Wf) (outside : s.inside t = none) :
    ((s.withThreads (s.enter m t)).setInside t (some m)).Ranked := by
  have made : Revalues t (entered (s.mutex m)) s.threads (s.enter m t) := enter_revalues wf
  intro u
  by_cases same : u = t
  · subst same
    have more : ((s.withThreads (s.enter m u)).setInside u (some m)).claims u = s.claims u + (s.active m).toNat :=
      claims_outside (s := s.withThreads _) outside
    rw [more]
    show ((s.enter m u).thread u).Ranked (s.base u) _
    rw [made.self]
    have mine := ranked u
    cases kind : (s.mutex m).protocol with
    | none => simpa [entered, inactive kind, kind] using mine
    | inherit => simpa [entered, active_of_inherit kind, kind] using mine.counted
    | ceiling =>
      have raised := mine.counted.inheriting (Nat.succ_ne_zero _) (s.mutex m).ceiling
      simpa [entered, active_of_ceiling kind, kind] using raised
  · rw [claims_setInside_of_ne same]
    show ((s.enter m t).thread u).Ranked _ _
    rw [made.others u same]
    exact ranked u

theorem left_ranked {r : Thread cfg M} {base : Priority cfg} {n : Nat}
    (ranked : r.Ranked base (n + (s.active m).toNat)) : (left (s.mutex m) r).Ranked base n := by
  cases kind : (s.mutex m).protocol with
  | none => simpa [left, inactive kind, kind] using ranked
  | inherit =>
    rw [active_of_inherit kind] at ranked
    simpa [left, kind] using ranked.uncounted
  | ceiling =>
    rw [active_of_ceiling kind] at ranked
    simpa [left, kind] using ranked.uncounted

theorem Ranked.quit (ranked : s.Ranked) (wf : s.threads.Wf) (inside : s.inside t = some m) :
    ((s.withThreads (s.quit m t)).setInside t none).Ranked := by
  have made : Revalues t (left (s.mutex m)) s.threads (s.quit m t) := quit_revalues wf
  intro u
  by_cases same : u = t
  · subst same
    show ((s.quit m u).thread u).Ranked (s.base u) ((s.setInside u none).claims u)
    rw [made.self]
    exact left_ranked (claims_inside inside ▸ ranked u)
  · rw [claims_setInside_of_ne same]
    show ((s.quit m t).thread u).Ranked _ _
    rw [made.others u same]
    exact ranked u

theorem withThreads_inside (inside : s.inside t = some m) (threads : Threads cfg T M) :
    (s.withThreads threads).setInside t (some m) = s.withThreads threads := by
  simp [setInside, withThreads, ← inside]

theorem Ranked.wait (ranked : s.Ranked) (wf : s.threads.Wf) (alone : (s.threads.thread t).queue = none)
    (inside : s.inside t = some m) : (s.wait m t).Ranked := by
  have asleep : (s.withThreads (s.threads.block t m .wait)).Ranked := by
    intro u
    show ((s.threads.block t m .wait).thread u).Ranked _ _
    by_cases same : u = t
    · subst same
      rw [block_thread_self]
      exact (ranked u).sameRank ⟨rfl, rfl, rfl, rfl⟩
    · rw [block_thread_of_ne same]
      exact ranked u
  unfold Mutexes.wait
  split
  · next owner kind isOwner =>
    have claims : s.claims owner ≠ 0 := claims_of_owner (active_of_inherit kind) isOwner
    rw [withThreads_inside inside]
    exact asleep.revalue (Wf.setInheritedPriority (wf.block alone rfl) owner _)
      fun mine => mine.inheriting claims _
  · rw [withThreads_inside inside]
    exact asleep

theorem owned_setMutex (x : Mutex cfg T) (same : x.protocol = (s.mutex m).protocol) (u : T) :
    (s.setMutex m x).owned u = if s.active m = true ∧ x.owner = some u then insert m (s.owned u) else (s.owned u).erase m := by
  ext n
  by_cases eq : n = m
  · subst eq
    split
    · next both => simpa [mem_owned, setMutex, active, same] using both
    · next other => simpa [mem_owned, setMutex, active, same] using other
  · split <;> simp [mem_owned, setMutex, active, eq]

theorem active_setMutex (x : Mutex cfg T) (same : x.protocol = (s.mutex m).protocol) :
    (s.setMutex m x).active = s.active := by
  funext n
  by_cases eq : n = m
  · subst eq; simp [active, setMutex, same]
  · simp [active, setMutex, eq]

theorem claims_gain (vacant : (s.mutex m).owner = none) (x : Mutex cfg T)
    (same : x.protocol = (s.mutex m).protocol) (owner : x.owner = some t) (u : T) :
    (s.setMutex m x).claims u = s.claims u + if u = t then (s.active m).toNat else 0 := by
  have fresh : m ∉ s.owned u := by simp [mem_owned, vacant]
  have entering : (s.setMutex m x).entering u = s.entering u := by
    simp only [entering, active_setMutex x same]
    rfl
  simp only [claims, entering, owned_setMutex x same, owner]
  by_cases self : u = t
  · subst self
    cases activated : s.active m
    · simp [fresh]
    · simp [fresh, Nat.add_right_comm]
  · simp [fresh, self, Ne.symm self]

theorem claims_loss (owner : (s.mutex m).owner = some t) (x : Mutex cfg T)
    (same : x.protocol = (s.mutex m).protocol) (vacant : x.owner = none) (u : T) :
    s.claims u = (s.setMutex m x).claims u + if u = t then (s.active m).toNat else 0 := by
  have entering : (s.setMutex m x).entering u = s.entering u := by
    simp only [entering, active_setMutex x same]
    rfl
  simp only [claims, entering, owned_setMutex x same, vacant]
  by_cases self : u = t
  · subst self
    cases activated : s.active m
    · have absent : m ∉ s.owned u := by simp [mem_owned, activated]
      simp [absent]
    · have mine : m ∈ s.owned u := mem_owned.mpr ⟨activated, owner⟩
      have pos : 0 < (s.owned u).card := card_pos.mpr ⟨m, mine⟩
      simp only [reduceCtorEq, and_false, if_false, card_erase_of_mem mine, if_true, Bool.toNat_true]
      omega
  · have absent : m ∉ s.owned u := by simp [mem_owned, owner, Ne.symm self]
    simp [absent, self]

theorem Ranked.acquire (ranked : s.Ranked) (inside : s.inside t = some m) (vacant : (s.mutex m).owner = none) :
    (s.acquire m t).Ranked := by
  intro u
  have gain := claims_gain (s := s.setInside t none) vacant { s.mutex m with locked := true, owner := some t } rfl rfl u
  have same : (s.acquire m t).claims u = s.claims u := by
    show ((s.setInside t none).setMutex m { s.mutex m with locked := true, owner := some t }).claims u = _
    rw [gain]
    by_cases self : u = t
    · subst self
      rw [if_pos rfl, claims_inside inside]
      rfl
    · rw [if_neg self, claims_setInside_of_ne self, Nat.add_zero]
  rw [same]
  exact ranked u

theorem test_inside : (s.setInside t (some m)).test m t = s.test m t := by
  simp [test, wait, acquire, setInside, setMutex, setHolds, withThreads]

section
variable (ranked : s.Ranked)
include ranked

theorem Ranked.test (wf : s.threads.Wf) (alone : (s.threads.thread t).queue = none)
    (locked : (s.mutex m).locked = true ↔ (s.mutex m).owner.isSome = true) (inside : s.inside t = some m) :
    (s.test m t).Ranked := by
  unfold Mutexes.test
  split
  · exact ranked.wait wf alone inside
  · next free => exact ranked.acquire inside (by simpa [free] using locked)

theorem Ranked.lock (sane : s.Sane) (runs : (s.threads.thread t).Running)
    (outside : s.inside t = none) : (s.lock m t).Ranked := by
  have made := (enter_revalues (m := m) (t := t) sane.wf).same
  have entered : ((s.withThreads (s.enter m t)).setInside t (some m)).Ranked := ranked.enter sane.wf outside
  have alone : ((s.enter m t).thread t).queue = none := (made.task t).2.2.2.trans (sane.queue_none runs)
  rw [Mutexes.lock, ← test_inside]
  exact entered.test (made.wf sane.wf) alone (sane.locked m) (by simp [setInside])

theorem Ranked.trylock (sane : s.Sane) (outside : s.inside t = none) : (s.trylock m t).Ranked := by
  unfold Mutexes.trylock
  split
  · exact ranked
  · next free =>
    have known := sane.locked m
    have vacant : (s.mutex m).owner = none := by simpa [free] using known
    have entered : ((s.withThreads (s.enter m t)).setInside t (some m)).Ranked := ranked.enter sane.wf outside
    have taken := entered.acquire (t := t) (m := m) (by simp [setInside]) vacant
    simpa [Mutexes.acquire, setInside, setMutex, setHolds, withThreads] using taken

theorem Ranked.setWoken (o : Option M) : (s.setWoken t o).Ranked := ranked

theorem Ranked.relock (sane : s.Sane) (runs : (s.threads.thread t).Running)
    (inside : s.inside t = some m) : (s.relock m t).Ranked := by
  have again : ((s.setWoken t none).test m t).Ranked :=
    (ranked.setWoken none).test sane.wf (sane.queue_none runs) (sane.locked m) inside
  unfold Mutexes.relock
  dsimp only
  split
  · exact (ranked.setWoken none).quit sane.wf inside
  · exact (ranked.setWoken none).quit sane.wf inside
  · exact (ranked.setWoken none).befall (exit sane.wf (sane.queue_none runs))
  all_goals exact again

theorem Ranked.notify (sane : s.Sane) : (s.notify m).Ranked := by
  unfold Mutexes.notify
  split
  · next th rest owner waiters isOwner =>
    have off := ranked.befall (remove sane.wf th)
    have wf := sane.wf.remove th
    rw [← sane.wf.dequeue_eq waiters] at off wf
    have queued : (s.threads.thread th).queue = some m := (sane.wf.member th m).mp (by simp [waiters])
    cases kind : (s.mutex m).protocol with
    | none | ceiling => exact Ranked.setWoken (off.befall (rouse wf)) _
    | inherit =>
      have claims : s.claims th ≠ 0 := claims_of_inside (active_of_inherit kind) (sane.waits th m queued)
      simp only [relayPriority]
      split
      · exact Ranked.setWoken (off.befall (rouse wf)) _
      · have raised := wf.setInheritedPriority th ((s.threads.dequeue m).thread owner).priority
        have relayed := off.revalue raised fun mine => mine.inheriting claims _
        exact Ranked.setWoken (relayed.befall (rouse (raised.same.wf wf))) _
  · exact ranked

theorem Ranked.unlock (sane : s.Sane) (owner : (s.mutex m).owner = some t) : (s.unlock m t).Ranked := by
  have notified := ranked.notify (m := m) sane
  have wf := (sane.notify (m := m) (by simp [owner])).1.wf
  have same : ((s.notify m).mutex m).owner = some t := by rw [notify_mutex]; exact owner
  have made : Revalues t _ _ _ := quit_revalues (m := m) wf
  intro u
  have loss := claims_loss same { (s.notify m).mutex m with locked := false, owner := none } rfl rfl u
  show (((s.notify m).quit m t).thread u).Ranked _
    (((s.notify m).setMutex m { (s.notify m).mutex m with locked := false, owner := none }).claims u)
  by_cases self : u = t
  · subst self
    rw [if_pos rfl] at loss
    rw [made.self]
    exact left_ranked (loss ▸ notified u)
  · rw [if_neg self, Nat.add_zero] at loss
    rw [made.others u self]
    exact loss ▸ notified u

theorem Ranked.releaseAll (wf : s.threads.Wf) (n : Nat) : (s.withThreads (s.threads.releaseAll m n)).Ranked := by
  induction n generalizing s with
  | zero => exact ranked
  | succ n ih =>
    unfold releaseAll
    split
    · exact ranked
    · next th rest head =>
      have broken : Befalls th s.threads (s.threads.rouse th .brk) := rouse wf
      rw [release_head wf head]
      exact ih (ranked.befall broken) broken.wf

theorem Ranked.step (sane : s.Sane) {e : MutexEvent cfg T M} (enabled : s.Enabled e) : (s.step e).Ranked := by
  cases e with
  | lock t m => exact ranked.lock sane enabled.1 enabled.2
  | relock t m => exact ranked.relock sane enabled.1 enabled.2
  | trylock t m => exact ranked.trylock sane enabled.2
  | unlock t m => exact ranked.unlock sane enabled.2.2
  | release m => exact ranked.releaseAll sane.wf _
  | threadRelease t => exact ranked.befall (Befalls.release sane.wf t)
  | kill t => exact ranked.befall (kill sane.wf t)
  | exit t => exact ranked.befall (exit sane.wf (sane.queue_none enabled.1))
  | suspend t => exact ranked.befall (suspend sane.wf t)
  | resume t => exact ranked.befall (resume sane.wf t)
  | forceResume t => exact ranked.befall (forceResume sane.wf t)
  | delay t => exact ranked.befall (delay sane.wf (sane.queue_none enabled.1))
  | alarm t => exact ranked.befall (alarm sane.wf t)
  | setPriority t new =>
    have made := sane.wf.setPriority_revalues t new
    intro u
    show ((s.threads.setPriority t new).thread u).Ranked (update s.base t new u) (s.claims u)
    by_cases same : u = t
    · subst same
      rw [made.self, update_self]
      exact (ranked u).withPriority new
    · rw [made.others u same, update_of_ne same]
      exact ranked u

end

/-- In every run each thread has the priorities its claims call for: what
`mutex_count` counts, no worse than its own priority, and its own priority
exactly once it has no claims. -/
theorem mutexes_restore_priorities (reach : (machine SparesWoken).Reach s) (t : T) :
    (s.threads.thread t).mutexCount = s.claims t ∧
    (s.threads.thread t).getPriority = s.base t ∧
    (s.threads.thread t).priority ≤ s.base t ∧
    ((s.threads.thread t).mutexCount = 0 →
      (s.threads.thread t).priorityInherited = false ∧ (s.threads.thread t).priority = s.base t) := by
  have both : s.Sane ∧ s.Ranked := by
    refine reach.kept (P := fun s => s.Sane ∧ s.Ranked) ?_ ?_
    · rintro _ ⟨pri, protocol, ceiling, rfl⟩
      exact ⟨Sane.initial pri protocol ceiling, Ranked.initial pri protocol ceiling⟩
    · rintro s e ⟨sane, ranked⟩ ⟨enabled, ok⟩
      exact ⟨sane.step enabled ok, ranked.step sane enabled⟩
  have ranked := both.2 t
  refine ⟨ranked.count, ranked.own, ranked.priority_le, fun zero => ?_⟩
  have none : s.claims t = 0 := by
    rw [ranked.count] at zero
    exact_mod_cast zero
  exact ⟨ranked.cleared none, ranked.priority_eq none⟩

/-- Thread 0 locks the mutex and inherits the priority of thread 1, until it
gives the mutex back. -/
def lend : List (MutexEvent .twoLevels (Fin 2) Unit) :=
  [.resume 0, .resume 1, .lock 0 (), .lock 1 (), .unlock 0 ()]

theorem mutexes_restore_priorities_lent :
    (((lend.take 4).foldl step (initial ![1, 0] (fun _ => .inherit) fun _ => 0)).threads.thread 0).priority = 0 ∧
      ((lend.foldl step (initial ![1, 0] (fun _ => .inherit) fun _ => 0)).threads.thread 0).priority = 1 := by
  refine ⟨by decide, ((mutexes_restore_priorities (Machine.Reach.run (.start ⟨_, _, _, rfl⟩) ?_) 0).2.2.2 ?_).2⟩
  · simp only [lend, Machine.Admits, SparesWoken, and_true]
    decide
  · decide

end Mutexes

end Ecos
