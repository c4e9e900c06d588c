import Ecos.Sync.Mbox
import Ecos.Sync.Sorted

namespace Ecos
open List Option Threads Thread

namespace Mbox
variable {cfg : Config} {T Item : Type} [DecidableEq T]

/-- The items of the box, from the first on. -/
def items (size : Nat) (s : Mbox cfg T Item) : List Item := Circular.contents size s.itemqueue s.base s.count

/-- The puts of the threads that wait to put. -/
def pending (s : Mbox cfg T Item) : List (Nat × Item) :=
  (s.threads.queue .put).map fun t => (s.ticket t, s.message t)

/-- The sleeping call of thread `t` on queue `q` has had its effect. -/
def Succeeded (s : Mbox cfg T Item) (t : T) : MboxQueue → Prop
  | .get => s.served t = true
  | .put => s.ticket t ∈ s.accepted.map Prod.fst

/-- Where threads sleep, and what a call that has slept returns. -/
structure Parked (s : Mbox cfg T Item) : Prop where
  wf : s.threads.Wf
  waits : ∀ t q, (s.threads.thread t).queue = some q → ∃ timed, s.inside t = some (q, timed) ∧
    (s.threads.thread t).sleepReason = Threads.waitReason timed ∧ (q = .get → s.served t = false)
  back : ∀ t q timed, s.inside t = some (q, timed) → (s.threads.thread t).queue = none →
    (s.threads.thread t).sleepReason = .none ∧ (s.threads.thread t).wakeReason ≠ .exit ∧
      (outcome timed (s.threads.thread t).wakeReason = true ↔ s.Succeeded t q)
  own : ∀ t u b c, s.inside t = some (.put, b) → s.inside u = some (.put, c) → s.ticket t = s.ticket u → t = u
  old : ∀ t b, s.inside t = some (.put, b) → s.ticket t < s.tickets

/-- The box is in order; `slack` slots may be free while threads wait to put. -/
structure Filled (slack size : Nat) (s : Mbox cfg T Item) : Prop where
  baseLt : s.base < size
  countLe : s.count ≤ size
  getters : s.threads.queue .get ≠ [] → s.count = 0 ∧ s.threads.queue .put = []
  putters : s.threads.queue .put ≠ [] → s.count + slack = size
  fresh : ∀ p ∈ s.accepted, p.1 < s.tickets
  distinct : (s.accepted.map Prod.fst).Nodup
  log : ∃ gone kept, gone.map Prod.snd = s.got.map Prod.snd ∧ kept.map Prod.snd = items size s ∧
    s.accepted = gone ++ kept ++ s.pending

variable {slack size : Nat} {s : Mbox cfg T Item} {t u : T} {threads : Threads cfg T MboxQueue}

theorem Parked.initial (pri : T → Priority cfg) (itemqueue : Nat → Item) (message : T → Item) :
    (initial pri itemqueue message : Mbox cfg T Item).Parked where
  wf := ⟨fun t q => by simp [Mbox.initial, create], fun q => by simp [Mbox.initial],
    fun t q queued => by simp [Mbox.initial, create] at queued,
    fun t q queued => by simp [Mbox.initial, create] at queued⟩
  waits t q queued := by simp [Mbox.initial, create] at queued
  back t q timed inside := by simp [Mbox.initial] at inside
  own t u b c inside := by simp [Mbox.initial] at inside
  old t b inside := by simp [Mbox.initial] at inside

theorem Filled.initial (pos : 0 < size) (pri : T → Priority cfg) (itemqueue : Nat → Item) (message : T → Item) :
    Filled 0 size (initial pri itemqueue message : Mbox cfg T Item) where
  baseLt := pos
  countLe := Nat.zero_le _
  getters waiting := by simp [Mbox.initial] at waiting
  putters waiting := by simp [Mbox.initial] at waiting
  fresh p mem := by simp [Mbox.initial] at mem
  distinct := by simp [Mbox.initial]
  log := ⟨[], [], by simp [Mbox.initial, items, pending]⟩

theorem Parked.queue_none (parked : s.Parked) (runs : (s.threads.thread t).Running) :
    (s.threads.thread t).queue = none := by
  refine parked.wf.queue_none ?_
  rw [show _ = ThreadState.running from runs]
  rfl

theorem Parked.alone (parked : s.Parked) (runs : (s.threads.thread t).Running) (q : MboxQueue) :
    t ∉ s.threads.queue q := by
  intro queued
  have on := (parked.wf.member t q).mp queued
  rw [parked.queue_none runs] at on
  simp at on

/-- The calls of all threads but `t` are as they were. -/
structure Others (t : T) (s s' : Mbox cfg T Item) : Prop where
  thread : ∀ u, u ≠ t → s'.threads.thread u = s.threads.thread u
  inside : ∀ u, u ≠ t → s'.inside u = s.inside u
  served : ∀ u, u ≠ t → s.inside u ≠ none → s'.served u = s.served u
  ticket : ∀ u, u ≠ t → s.inside u ≠ none → s'.ticket u = s.ticket u
  accepted : ∀ u b, u ≠ t → s.inside u = some (.put, b) →
    (s'.ticket u ∈ s'.accepted.map Prod.fst ↔ s.ticket u ∈ s.accepted.map Prod.fst)
  tickets : s.tickets ≤ s'.tickets

theorem Parked.move {s' : Mbox cfg T Item} (parked : s.Parked) (others : Others t s s') (wf : s'.threads.Wf)
    (waits : ∀ q, (s'.threads.thread t).queue = some q → ∃ timed, s'.inside t = some (q, timed) ∧
      (s'.threads.thread t).sleepReason = Threads.waitReason timed ∧ (q = .get → s'.served t = false))
    (back : ∀ q timed, s'.inside t = some (q, timed) → (s'.threads.thread t).queue = none →
      (s'.threads.thread t).sleepReason = .none ∧ (s'.threads.thread t).wakeReason ≠ .exit ∧
        (outcome timed (s'.threads.thread t).wakeReason = true ↔ s'.Succeeded t q))
    (mine : ∀ b, s'.inside t = some (.put, b) → s'.ticket t < s'.tickets ∧
      ∀ u c, u ≠ t → s.inside u = some (.put, c) → s.ticket u ≠ s'.ticket t) : s'.Parked := by
  refine ⟨wf, fun u q on => ?_, fun u q timed within off => ?_, fun u v b c first second same => ?_, fun u b within => ?_⟩
  · by_cases self : u = t
    · subst self; exact waits q on
    · rw [others.thread u self] at on ⊢
      obtain ⟨timed, within, reason, unserved⟩ := parked.waits u q on
      rw [others.inside u self, others.served u self (by simp [within])]
      exact ⟨timed, within, reason, unserved⟩
  · by_cases self : u = t
    · subst self; exact back q timed within off
    · rw [others.thread u self] at off ⊢
      rw [others.inside u self] at within
      obtain ⟨free, live, result⟩ := parked.back u q timed within off
      refine ⟨free, live, result.trans ?_⟩
      cases q with
      | get => simp only [Succeeded, others.served u self (by simp [within])]
      | put => exact (others.accepted u timed self within).symm
  · by_cases self : u = t
    · subst self
      by_cases other : v = u
      · exact other.symm
      · rw [others.inside v other] at second
        rw [others.ticket v other (by simp [second])] at same
        exact absurd same.symm ((mine b first).2 v c other second)
    · rw [others.inside u self] at first
      rw [others.ticket u self (by simp [first])] at same
      by_cases other : v = t
      · subst other
        exact absurd same ((mine c second).2 u b self first)
      · rw [others.inside v other] at second
        rw [others.ticket v other (by simp [second])] at same
        exact parked.own u v b c first second same
  · by_cases self : u = t
    · subst self; exact (mine b within).1
    · rw [others.inside u self] at within
      rw [others.ticket u self (by simp [within])]
      exact (parked.old u b within).trans_le others.tickets

theorem Parked.befallOutside (parked : s.Parked) (befalls : Threads.Befalls t s.threads threads)
    (outside : s.inside t = none) : (s.withThreads threads).Parked := by
  have none : ∀ q timed, (s.withThreads threads).inside t ≠ some (q, timed) := by
    intro q timed within
    rw [show s.inside t = some (q, timed) from within] at outside
    simp at outside
  refine parked.move ⟨befalls.others, fun _ _ => rfl, fun _ _ _ => rfl, fun _ _ _ => rfl, fun _ _ _ _ => Iff.rfl, le_rfl⟩
    befalls.wf (fun q on => ?_) (fun q timed within => absurd within (none q timed)) fun b within => absurd within (none _ b)
  have before := (parked.wf.member t q).mp ((befalls.subset q).subset ((befalls.wf.member t q).mpr on))
  obtain ⟨timed, within, -⟩ := parked.waits t q before
  exact absurd within (none q timed)

theorem Parked.idle {s' : Mbox cfg T Item} (parked : s.Parked) (others : Others t s s') (threads : s'.threads = s.threads)
    (outside : s'.inside t = none) (before : s.inside t = none) : s'.Parked := by
  refine parked.move others (threads ▸ parked.wf) (fun q on => ?_) (fun q timed within => ?_) fun b within => ?_
  · rw [threads] at on
    obtain ⟨timed, within, -⟩ := parked.waits t q on
    rw [before] at within
    simp at within
  · rw [outside] at within
    simp at within
  · rw [outside] at within
    simp at within

theorem Filled.congr {s' : Mbox cfg T Item} (filled : Filled slack size s) (queue : s'.threads.queue = s.threads.queue)
    (base : s'.base = s.base) (count : s'.count = s.count) (itemqueue : s'.itemqueue = s.itemqueue) (got : s'.got = s.got)
    (accepted : s'.accepted = s.accepted) (tickets : s.tickets ≤ s'.tickets) (pending : s'.pending = s.pending) :
    Filled slack size s' := by
  refine ⟨?_, ?_, ?_, ?_, ?_, ?_, ?_⟩
  · rw [base]; exact filled.baseLt
  · rw [count]; exact filled.countLe
  · rw [queue, count]; exact filled.getters
  · rw [queue, count]; exact filled.putters
  · rw [accepted]; exact fun p mem => (filled.fresh p mem).trans_le tickets
  · rw [accepted]; exact filled.distinct
  · rw [accepted, got, pending, items, itemqueue, base, count]; exact filled.log

section
variable (parked : s.Parked)
include parked

theorem Parked.block {s' : Mbox cfg T Item} {q : MboxQueue} {timed : Bool} (runs : (s.threads.thread t).Running)
    (threads : s'.threads = s.threads.block t q (Threads.waitReason timed)) (inside : s'.inside t = some (q, timed))
    (others : Others t s s') (unserved : q = .get → s'.served t = false)
    (mine : q = .put → s'.ticket t < s'.tickets ∧ ∀ u c, u ≠ t → s.inside u = some (.put, c) → s.ticket u ≠ s'.ticket t) :
    s'.Parked := by
  have record : s'.threads.thread t = (s.threads.thread t).blocked q (waitReason timed) := by
    rw [threads, block_thread_self]
  refine parked.move others ?_ (fun q' on => ?_) (fun q' timed' _ off => ?_) fun b within => ?_
  · rw [threads]
    exact parked.wf.block (parked.queue_none runs) (waitReason_blocking timed)
  · rw [record] at on ⊢
    have same : q = q' := some.inj on
    subst same
    exact ⟨timed, inside, rfl, unserved⟩
  · rw [record] at off
    simp [blocked] at off
  · rw [inside] at within
    exact mine (Prod.mk.inj (some.inj within)).1

theorem Parked.wakeDone {s' : Mbox cfg T Item} {q : MboxQueue} (queued : (s.threads.thread t).queue = some q) (threads : s'.threads = s.threads.rouse t .done)
    (inside : s'.inside = s.inside) (others : Others t s s') (done : s'.Succeeded t q)
    (ticket : s'.ticket t = s.ticket t) : s'.Parked := by
  have record : s'.threads.thread t = (s.threads.thread t).awakened .done := by
    rw [threads, rouse_thread_self (parked.wf.inSleepset queued)]
  obtain ⟨timed, within, -, -⟩ := parked.waits t q queued
  refine parked.move others ?_ (fun q' on => ?_) (fun q' timed' within' _ => ?_) fun b within' => ?_
  · rw [threads]
    exact parked.wf.rouse
  · rw [record] at on
    simp [awakened] at on
  · rw [inside, within] at within'
    obtain ⟨rfl, rfl⟩ := Prod.mk.inj (some.inj within')
    rw [record]
    refine ⟨rfl, by simp [awakened], iff_of_true rfl done⟩
  · rw [inside] at within'
    rw [ticket]
    refine ⟨(parked.old t b within').trans_le others.tickets, fun u c ne other same => ?_⟩
    exact ne (parked.own u t c b other within' same)

theorem Parked.late {s' : Mbox cfg T Item} {q : MboxQueue} (runs : (s.threads.thread t).Running)
    (threads : s'.threads = s.threads.setTimer t true) (inside : s'.inside t = some (q, true)) (others : Others t s s')
    (failed : ¬ s'.Succeeded t q)
    (mine : q = .put → s'.ticket t < s'.tickets ∧ ∀ u c, u ≠ t → s.inside u = some (.put, c) → s.ticket u ≠ s'.ticket t) :
    s'.Parked := by
  have record : s'.threads.thread t = (s.threads.thread t).setWakeReason .timeout := by
    rw [threads, setTimer_past_thread runs]
  refine parked.move others ?_ (fun q' on => ?_) (fun q' timed within _ => ?_) fun b within => ?_
  · rw [threads]
    exact (Befalls.setTimer parked.wf (parked.queue_none runs)).wf
  · rw [record, setWakeReason_queue, parked.queue_none runs] at on
    simp at on
  · rw [inside] at within
    obtain ⟨rfl, rfl⟩ := Prod.mk.inj (some.inj within)
    rw [record]
    exact ⟨rfl, by simp, iff_of_false (by simp [outcome]) failed⟩
  · rw [inside] at within
    exact mine (Prod.mk.inj (some.inj within)).1

theorem Parked.leave (runs : (s.threads.thread t).Running) : (s.setInside t none).Parked := by
  have others : Others t s (s.setInside t none) :=
    ⟨fun _ _ => rfl, fun u ne => by simp [setInside, ne], fun _ _ _ => rfl, fun _ _ _ => rfl, fun _ _ _ _ => Iff.rfl, le_rfl⟩
  refine parked.move others parked.wf (fun q on => ?_) (fun q timed within => ?_) fun b within => ?_
  · have off := parked.queue_none runs
    rw [show (s.threads.thread t).queue = some q from on] at off
    simp at off
  · simp [setInside] at within
  · simp [setInside] at within

theorem Parked.issue (outside : s.inside t = none) (item : Item) : (s.issue t item).Parked := by
  refine parked.idle (t := t) ⟨fun _ _ => rfl, fun _ _ => rfl, fun _ _ _ => rfl, fun u ne _ => ?_, fun u b ne within => ?_,
    Nat.le_succ _⟩ rfl outside outside
  · simp [Mbox.issue, ne]
  · have older := parked.old u b within
    have other : s.ticket u ≠ s.tickets := older.ne
    simp [Mbox.issue, ne, other]

end

theorem Filled.issued (filled : Filled slack size s) (item : Item) :
    (∀ p ∈ s.accepted ++ [(s.tickets, item)], p.1 < s.tickets + 1) ∧
      ((s.accepted ++ [(s.tickets, item)]).map Prod.fst).Nodup := by
  refine ⟨fun p mem => ?_, ?_⟩
  · rcases mem_append.mp mem with old | new
    · exact (filled.fresh p old).trans (Nat.lt_succ_self _)
    · rw [mem_singleton.mp new]
      exact Nat.lt_succ_self _
  · rw [map_append, nodup_append]
    refine ⟨filled.distinct, by simp, fun a old b new => ?_⟩
    obtain ⟨p, mem, rfl⟩ := mem_map.mp old
    have same : b = s.tickets := by simpa using new
    exact ne_of_lt (same ▸ filled.fresh p mem)

end Mbox

end Ecos
