import Ecos.Sync.MboxFifo

namespace Ecos
open List Threads Circular Bool Mbox Nat

namespace Mbox
variable {cfg : Config} {T Item : Type} [DecidableEq T]
variable {slack size : Nat} {s : Mbox cfg T Item} {t : T}

/-- The state of the box and of all calls on it. -/
structure Lossless (slack size : Nat) (s : Mbox cfg T Item) : Prop where
  parked : s.Parked
  filled : Filled slack size s

theorem Filled.head_put (filled : Filled slack size s) {th : T} {rest : List T}
    (head : s.threads.queue .put = th :: rest) : s.ticket th ∈ s.accepted.map Prod.fst := by
  obtain ⟨gone, kept, -, -, log⟩ := filled.log
  rw [log]
  simp [pending, head]

theorem Lossless.wakeupPutter (lossless : Lossless 1 size s) : Lossless 0 size (wakeupPutter size s) := by
  obtain ⟨parked, filled⟩ := lossless
  unfold Mbox.wakeupPutter
  split
  · next none =>
    exact ⟨parked, { filled with putters := fun waiting => absurd none waiting }⟩
  · next th rest head =>
    have queued : (s.threads.thread th).queue = some .put := (parked.wf.member th .put).mp (by simp [head])
    have room : s.count + 1 = size := filled.putters (by simp [head])
    rw [parked.wf.wakeHead_eq head]
    have left : (s.threads.rouse th .done).queue .put = rest := by
      rw [parked.wf.rouse_queue, head]
      simp
    have getters : (s.threads.rouse th .done).queue .get = s.threads.queue .get := by
      rw [parked.wf.rouse_queue, parked.wf.erase_absent (by simp [queued])]
    have others : Others th s ((store size s (s.message th)).withThreads (s.threads.rouse th .done)) :=
      ⟨fun u ne => rouse_thread_of_ne ne, fun _ _ => rfl, fun _ _ _ => rfl, fun _ _ _ => rfl,
        fun _ _ _ _ => Iff.rfl, le_rfl⟩
    refine ⟨parked.wakeDone queued rfl rfl others (filled.head_put head) rfl,
      ⟨filled.baseLt, room.le, fun waiting => ?_, fun _ => room, filled.fresh, filled.distinct, ?_⟩⟩
    · have nobody := (filled.getters (by rw [← getters]; exact waiting)).2
      rw [head] at nobody
      simp at nobody
    · obtain ⟨gone, kept, delivered, stored, log⟩ := filled.log
      refine ⟨gone, kept ++ [(s.ticket th, s.message th)], delivered, ?_, ?_⟩
      · rw [map_append, stored]
        exact (contents_push (by omega) _).symm
      · show s.accepted = gone ++ (kept ++ [(s.ticket th, s.message th)]) ++
          ((s.threads.rouse th .done).queue .put).map fun t => (s.ticket t, s.message t)
        rw [left, log, pending, head]
        simp

theorem pending_congr {s' : Mbox cfg T Item} (queue : s'.threads.queue .put = s.threads.queue .put)
    (same : ∀ t ∈ s.threads.queue .put, s'.ticket t = s.ticket t ∧ s'.message t = s.message t) :
    s'.pending = s.pending := by
  unfold pending
  rw [queue]
  refine map_congr_left fun t mem => ?_
  rw [(same t mem).1, (same t mem).2]

section
variable (lossless : Lossless 0 size s)
include lossless

theorem Lossless.take (some : 0 < s.count) (runs : (s.threads.thread t).Running)
    (outside : s.inside t = none) : Lossless 0 size (take size s t) := by
  obtain ⟨parked, filled⟩ := lossless
  have baseLt := filled.baseLt
  have countLe := filled.countLe
  refine Lossless.wakeupPutter ⟨?_, ?_⟩
  · refine parked.idle (t := t) ⟨fun _ _ => rfl, fun _ _ => rfl, fun u ne _ => ?_, fun _ _ _ => rfl,
      fun _ _ _ _ => Iff.rfl, le_rfl⟩ rfl outside outside
    simp [hand, setServed, setMessage, ne]
  · refine ⟨?_, ?_, fun waiting => ?_, fun waiting => ?_, filled.fresh, filled.distinct, ?_⟩
    · dsimp only
      split <;> omega
    · exact (sub_le ..).trans countLe
    · have empty := (filled.getters waiting).1
      omega
    · have full := filled.putters waiting
      dsimp only
      omega
    · obtain ⟨gone, kept, delivered, stored, log⟩ := filled.log
      have popped : contents size s.itemqueue s.base s.count =
          s.itemqueue s.base :: contents size s.itemqueue (if size ≤ s.base + 1 then 0 else s.base + 1) (s.count - 1) :=
        contents_pop baseLt some countLe
      rw [← items, ← stored] at popped
      obtain ⟨⟨n, item⟩, kept', rfl, first, rest⟩ := map_eq_cons_iff.mp popped
      have same : pending { s.hand t (s.itemqueue s.base) with
          count := s.count - 1, base := if size ≤ s.base + 1 then 0 else s.base + 1 } = s.pending := by
        refine pending_congr rfl fun u mem => ⟨rfl, ?_⟩
        have ne : u ≠ t := by
          rintro rfl
          exact parked.alone runs .put mem
        simp [hand, setServed, setMessage, ne]
      refine ⟨gone ++ [(n, item)], kept', ?_, rest, ?_⟩
      · simp only [hand, map_append, delivered, map_singleton, setServed, setMessage]
        rw [show item = s.itemqueue s.base from first]
      · rw [same]
        show s.accepted = _
        rw [log]
        simp

theorem Lossless.sleepGet (empty : s.count = 0) (runs : (s.threads.thread t).Running) (timed : Bool) :
    Lossless 0 size (((s.setServed t false).withThreads (s.threads.block t .get (Threads.waitReason timed))).setInside t
      (some (.get, timed))) := by
  obtain ⟨parked, filled⟩ := lossless
  have baseLt := filled.baseLt
  have putters : (s.threads.block t .get (waitReason timed)).queue .put = s.threads.queue .put :=
    block_queue_of_ne (by decide)
  have nobody : s.threads.queue .put = [] := by
    by_contra waiting
    have full := filled.putters waiting
    omega
  refine ⟨?_, ⟨filled.baseLt, filled.countLe, fun _ => ⟨empty, putters.trans nobody⟩, fun waiting => ?_, filled.fresh,
    filled.distinct, ?_⟩⟩
  · refine parked.block (t := t) (q := .get) runs rfl (by simp [setInside]) ?_ (fun _ => ?_) (by simp)
    · refine ⟨fun u ne => block_thread_of_ne ne, fun u ne => ?_, fun u ne _ => ?_, fun _ _ _ => rfl,
        fun _ _ _ _ => Iff.rfl, le_rfl⟩
      · simp [setInside, withThreads, setServed, ne]
      · simp [setInside, withThreads, setServed, ne]
    · simp [setInside, withThreads, setServed]
  · exact absurd (putters.trans nobody) waiting
  · obtain ⟨gone, kept, delivered, stored, log⟩ := filled.log
    exact ⟨gone, kept, delivered, stored, log.trans (congrArg _ (pending_congr putters fun _ _ => ⟨rfl, rfl⟩).symm)⟩

theorem Lossless.get (runs : (s.threads.thread t).Running) (outside : s.inside t = none) :
    Lossless 0 size (get size s t) := by
  unfold Mbox.get
  split
  · next some => exact lossless.take some runs outside
  · next empty => exact lossless.sleepGet (by omega) runs false

theorem Lossless.getTimed (runs : (s.threads.thread t).Running) (outside : s.inside t = none)
    (past : Bool) : Lossless 0 size (getTimed size s t past) := by
  unfold Mbox.getTimed
  split
  · next some => exact lossless.take some runs outside
  · next empty =>
    have reason : ((s.threads.setTimer t past).thread t).wakeReason = if past then .timeout else .none :=
      (setTimer_thread runs).2
    cases past with
    | false =>
      simp only [withThreads, setInside, reason, false_eq_true, if_false, if_true]
      exact lossless.sleepGet (by omega) runs true
    | true =>
      simp only [withThreads, setInside, reason, if_true, reduceCtorEq, if_false]
      obtain ⟨parked, filled⟩ := lossless
      refine ⟨parked.late (q := .get) runs rfl (by simp) ?_ (by simp [Succeeded, setServed]) (by simp),
        filled.congr (setTimer_queue runs) rfl rfl rfl rfl rfl le_rfl ?_⟩
      · refine ⟨fun u ne => ?_, fun u ne => ?_, fun u ne _ => ?_, fun _ _ _ => rfl, fun _ _ _ _ => Iff.rfl, le_rfl⟩
        · exact (Befalls.setTimer parked.wf (parked.queue_none runs)).others u ne
        · simp [setServed, ne]
        · simp [setServed, ne]
      · exact pending_congr (congrFun (setTimer_queue runs) .put) fun _ _ => ⟨rfl, rfl⟩

theorem Lossless.putNow (room : s.count ≠ size) (outside : s.inside t = none) (item : Item) :
    Lossless 0 size (putNow size s t item) := by
  obtain ⟨parked, filled⟩ := lossless
  have countLe := filled.countLe
  have nobody : s.threads.queue .put = [] := by
    by_contra waiting
    exact room (filled.putters waiting)
  obtain ⟨fresh, distinct⟩ := filled.issued item
  have issued := parked.issue outside item
  obtain ⟨gone, kept, delivered, stored, log⟩ := filled.log
  have logged : s.accepted = gone ++ kept := by simpa [pending, nobody] using log
  unfold Mbox.putNow
  dsimp only
  split
  · next waiting =>
    have empty : s.count = 0 := (filled.getters waiting).1
    have bare : kept = [] := by simpa [items, empty] using stored
    unfold wakeupWinner
    split
    · next none => exact absurd none waiting
    · next th rest head =>
      have head' : s.threads.queue .get = th :: rest := head
      have queued : (s.threads.thread th).queue = some .get := (parked.wf.member th .get).mp (by simp [head'])
      have woken : s.threads.wakeHead .get .done = s.threads.rouse th .done := parked.wf.wakeHead_eq head'
      have still : (s.threads.rouse th .done).queue .put = [] := by
        rw [parked.wf.rouse_queue, parked.wf.erase_absent (by simp [queued]), nobody]
      have result : ((s.issue t item).withThreads (s.threads.wakeHead .get .done)).hand th item =
          ((s.issue t item).withThreads (s.threads.rouse th .done)).hand th item := by rw [woken]
      refine Eq.symm result ▸ ⟨?_, ⟨filled.baseLt, countLe, fun _ => ⟨empty, still⟩, fun more => absurd still more, fresh,
        distinct, gone ++ [(s.tickets, item)], [], ?_, ?_, ?_⟩⟩
      · refine issued.wakeDone queued rfl rfl ⟨fun u ne => rouse_thread_of_ne ne, fun _ _ => rfl, fun u ne _ => ?_,
          fun _ _ _ => rfl, fun _ _ _ _ => Iff.rfl, le_rfl⟩ ?_ rfl
        · simp [hand, setServed, setMessage, withThreads, ne]
        · simp [Succeeded, hand, setServed]
      · simp [hand, setServed, setMessage, withThreads, issue, delivered]
      · simp [hand, setServed, setMessage, withThreads, issue, items, empty]
      · simp only [pending, hand, setServed, setMessage, withThreads, still]
        simp [issue, logged, bare]
  · next idle =>
    have sleepers : s.threads.queue .get = [] := not_not.mp idle
    have less : s.count < size := by omega
    refine ⟨issued.idle (t := t) ⟨fun _ _ => rfl, fun _ _ => rfl, fun _ _ _ => rfl, fun _ _ _ => rfl,
      fun _ _ _ _ => Iff.rfl, le_rfl⟩ rfl outside outside, ⟨filled.baseLt, less, fun waiting => absurd sleepers waiting,
      fun waiting => absurd nobody waiting, fresh, distinct, gone, kept ++ [(s.tickets, item)], delivered, ?_, ?_⟩⟩
    · rw [map_append, stored]
      exact (contents_push less _).symm
    · simp [store, issue, pending, nobody, logged]

end

theorem Lossless.sleepPut (fifo : cfg.sortedQueues = false) (lossless : Lossless 0 size s) (full : s.count = size)
    (runs : (s.threads.thread t).Running) (outside : s.inside t = none) (item : Item) (timed : Bool) :
    Lossless 0 size ((((s.issue t item).setMessage t item).withThreads
      (s.threads.block t .put (Threads.waitReason timed))).setInside t (some (.put, timed))) := by
  obtain ⟨parked, filled⟩ := lossless
  have baseLt := filled.baseLt
  have issued := parked.issue outside item
  have absent := parked.alone runs .put
  have putters : (s.threads.block t .put (waitReason timed)).queue .put = s.threads.queue .put ++ [t] := by
    rw [block_queue_self, placeQueued_last (by simp [fifo])]
  have getters : (s.threads.block t .put (waitReason timed)).queue .get = s.threads.queue .get :=
    block_queue_of_ne (by decide)
  obtain ⟨fresh, distinct⟩ := filled.issued item
  refine ⟨?_, ⟨baseLt, full.le, fun waiting => ?_, fun _ => full, fresh, distinct, ?_⟩⟩
  · refine issued.block (t := t) (q := .put) runs rfl (by simp [setInside]) ?_ (by simp) fun _ => ⟨?_, ?_⟩
    · refine ⟨fun u ne => block_thread_of_ne ne, fun u ne => ?_, fun _ _ _ => rfl, fun _ _ _ => rfl,
        fun _ _ _ _ => Iff.rfl, le_rfl⟩
      simp [setInside, withThreads, setMessage, ne]
    · simp [setInside, withThreads, setMessage, issue]
    · intro u c ne within
      have older := parked.old u c within
      simp [setInside, withThreads, setMessage, issue, ne]
      omega
  · have empty := (filled.getters (getters ▸ waiting)).1
    omega
  · obtain ⟨gone, kept, delivered, stored, log⟩ := filled.log
    refine ⟨gone, kept, delivered, stored, ?_⟩
    have others : (s.threads.queue .put).map (fun u => (Function.update s.ticket t s.tickets u, Function.update s.message t item u)) =
        s.pending := by
      refine map_congr_left fun u mem => ?_
      have ne : u ≠ t := fun same => absent (same ▸ mem)
      simp [ne]
    simp only [pending, setInside, withThreads, setMessage, putters, issue, map_append, others, log]
    simp

theorem Lossless.put (fifo : cfg.sortedQueues = false) (lossless : Lossless 0 size s)
    (runs : (s.threads.thread t).Running) (outside : s.inside t = none) (item : Item) :
    Lossless 0 size (put size s t item) := by
  unfold Mbox.put
  split
  · next full => exact lossless.sleepPut fifo full runs outside item false
  · next room => exact lossless.putNow room outside item

theorem filter_refused {l : List (Nat × Item)} {n : Nat} (fresh : ∀ p ∈ l, p.1 < n) :
    l.filter (fun p => decide (p.1 ≠ n)) = l := by
  refine filter_eq_self.mpr fun p mem => ?_
  simpa using (fresh p mem).ne

theorem Lossless.putTimed (fifo : cfg.sortedQueues = false) (lossless : Lossless 0 size s)
    (runs : (s.threads.thread t).Running) (outside : s.inside t = none) (item : Item) (past : Bool) :
    Lossless 0 size (putTimed size s t item past) := by
  unfold Mbox.putTimed
  split
  · next full =>
    have reason : ((s.threads.setTimer t past).thread t).wakeReason = if past then .timeout else .none :=
      (setTimer_thread runs).2
    cases past with
    | false =>
      simp only [withThreads, setInside, reason, false_eq_true, if_false, if_true]
      exact lossless.sleepPut fifo full runs outside item true
    | true =>
      simp only [withThreads, setInside, reason, if_true, reduceCtorEq, if_false]
      obtain ⟨parked, filled⟩ := lossless
      -- the put just issued is struck off again
      have accepted : (s.accepted ++ [(s.tickets, item)]).filter (fun p => decide (p.1 ≠ s.tickets)) = s.accepted := by
        rw [filter_append, filter_refused filled.fresh]
        simp
      have absent : s.tickets ∉ s.accepted.map Prod.fst := by
        intro mem
        obtain ⟨p, old, same⟩ := mem_map.mp mem
        exact (filled.fresh p old).ne same
      simp only [refuse, issue, setMessage, Function.update_self, accepted]
      refine ⟨parked.late (q := .put) runs rfl (by simp) ?_ (by simpa [Succeeded] using absent) fun _ => ⟨?_, ?_⟩,
        filled.congr (setTimer_queue runs) rfl rfl rfl rfl rfl (le_succ _) ?_⟩
      · refine ⟨fun u ne => ?_, fun u ne => ?_, fun _ _ _ => rfl, fun u ne _ => ?_, fun u b ne within => ?_, le_succ _⟩
        · exact (Befalls.setTimer parked.wf (parked.queue_none runs)).others u ne
        · simp [ne]
        · simp [ne]
        · simp [ne]
      · simp
      · intro u c ne within
        simpa using (parked.old u c within).ne
      · refine pending_congr (congrFun (setTimer_queue runs) .put) fun u mem => ?_
        have ne : u ≠ t := fun same => parked.alone runs .put (same ▸ mem)
        simp [ne]
  · next room => exact lossless.putNow room outside item

theorem Filled.refuse (filled : Filled slack size s) {threads : Threads cfg T MboxQueue}
    (own : ∀ u ∈ s.threads.queue .put, s.ticket u = s.ticket t → u = t) (nodup : (s.threads.queue .put).Nodup)
    (queued : t ∈ s.threads.queue .put) (get : threads.queue .get = s.threads.queue .get)
    (put : threads.queue .put = (s.threads.queue .put).erase t) :
    Filled slack size ((s.withThreads threads).refuse t) := by
  refine ⟨filled.baseLt, filled.countLe, fun waiting => ?_, fun waiting => ?_, fun p mem => ?_, ?_, ?_⟩
  · have nobody := (filled.getters (by rw [← get]; exact waiting)).2
    rw [nobody] at queued
    simp at queued
  · exact filled.putters (ne_nil_of_mem queued)
  · exact filled.fresh p (mem_of_mem_filter mem)
  · exact filled.distinct.sublist ((filter_sublist ..).map Prod.fst)
  · obtain ⟨gone, kept, delivered, stored, log⟩ := filled.log
    refine ⟨gone, kept, delivered, stored, ?_⟩
    have distinct := filled.distinct
    rw [log] at distinct
    have mine : s.ticket t ∈ s.pending.map Prod.fst := by
      simp only [pending, map_map]
      exact mem_map_of_mem queued
    have apart : ∀ p ∈ gone ++ kept, p.1 ≠ s.ticket t := by
      intro p mem same
      rw [map_append] at distinct
      exact disjoint_of_nodup_append distinct (mem_map_of_mem mem) (same ▸ mine)
    have first : (gone ++ kept).filter (fun p => decide (p.1 ≠ s.ticket t)) = gone ++ kept :=
      filter_eq_self.mpr fun p mem => by simpa using apart p mem
    have rest : s.pending.filter (fun p => decide (p.1 ≠ s.ticket t)) = ((s.withThreads threads).refuse t).pending := by
      show _ = (threads.queue .put).map fun u => (s.ticket u, s.message u)
      rw [put, pending, filter_map, nodup.erase_eq_filter]
      congr 1
      refine filter_congr fun u mem => ?_
      by_cases same : u = t
      · simp [same]
      · have other : s.ticket u ≠ s.ticket t := fun eq => same (own u mem eq)
        simp [same, other]
    show s.accepted.filter (fun p => decide (p.1 ≠ s.ticket t)) = _
    rw [log, filter_append, first, rest]

theorem mem_refused {l : List (Nat × Item)} {n m : Nat} :
    n ∈ (l.filter (fun p => decide (p.1 ≠ m))).map Prod.fst ↔ n ∈ l.map Prod.fst ∧ n ≠ m := by
  simp only [mem_map, mem_filter, decide_eq_true_eq]
  constructor
  · rintro ⟨p, ⟨mem, ne⟩, rfl⟩
    exact ⟨⟨p, mem, rfl⟩, ne⟩
  · rintro ⟨⟨p, mem, rfl⟩, ne⟩
    exact ⟨p, ⟨mem, ne⟩, rfl⟩

theorem outcome_early {timed : Bool} {r r' : Thread cfg MboxQueue} (reason : r.sleepReason = Threads.waitReason timed)
    (why : r'.wakeReason = .brk ∨ (r.sleepReason = .timeout ∧ r'.wakeReason = .timeout) ∨
      (r.sleepReason = .delay ∧ r'.wakeReason = .done)) :
    r'.wakeReason ≠ .exit ∧ outcome timed r'.wakeReason = false := by
  rw [reason] at why
  rcases why with broken | ⟨late, why⟩ | ⟨delayed, -⟩
  · rw [broken]
    exact ⟨by simp, rfl⟩
  · rw [why]
    cases timed with
    | true => exact ⟨by simp, rfl⟩
    | false => simp [waitReason] at late
  · cases timed <;> simp [waitReason] at delayed

theorem Lossless.suffer (lossless : Lossless 0 size s) (e : Outside T) : Lossless 0 size (s.suffer e) := by
  obtain ⟨parked, filled⟩ := lossless
  have befalls := Befalls.suffer parked.wf e
  have how := parked.wf.suffer_cases e
  rcases how with ⟨queue, sleeps, wakes⟩ | ⟨slept, off, free, why⟩
  · -- the thread stays where it is
    have stays : s.suffer e = s.withThreads (s.threads.suffer e) := by
      refine if_neg ?_
      rintro ⟨on, off⟩
      rw [show ((s.threads.suffer e).thread e.target).queue = none from off, on] at queue
      simp at queue
    rw [stays]
    have same : (s.threads.suffer e).queue = s.threads.queue := funext fun r => befalls.queue_eq parked.wf queue
    refine ⟨?_, filled.congr same rfl rfl rfl rfl rfl le_rfl (pending_congr (congrFun same .put) fun _ _ => ⟨rfl, rfl⟩)⟩
    refine parked.move ⟨befalls.others, fun _ _ => rfl, fun _ _ _ => rfl, fun _ _ _ => rfl, fun _ _ _ _ => Iff.rfl, le_rfl⟩
      befalls.wf (fun q on => ?_) (fun q timed within off => ?_) fun b within => ?_
    · obtain ⟨timed, within, reason, unserved⟩ := parked.waits e.target q (queue ▸ on)
      exact ⟨timed, within, sleeps.trans reason, unserved⟩
    · obtain ⟨free, live, result⟩ := parked.back e.target q timed within (queue ▸ off)
      exact ⟨sleeps.trans free, fun exits => live (wakes ▸ exits), wakes.symm ▸ result⟩
    · exact ⟨parked.old e.target b within, fun u c ne other same => ne (parked.own u e.target c b other within same)⟩
  · have gone : ∀ r, (s.threads.suffer e).queue r = (s.threads.queue r).erase e.target :=
      fun r => befalls.queue_erase parked.wf off
    cases on : (s.threads.thread e.target).queue with
    | none =>
      have outside : s.inside e.target = none := by
        rcases within : s.inside e.target with _ | ⟨q, timed⟩
        · rfl
        · exact absurd (parked.back e.target q timed within on).1 slept
      have stays : s.suffer e = s.withThreads (s.threads.suffer e) := if_neg (by simp [on])
      have same : (s.threads.suffer e).queue = s.threads.queue :=
        funext fun r => befalls.queue_eq parked.wf (off.trans on.symm)
      rw [stays]
      exact ⟨parked.befallOutside befalls outside,
        filled.congr same rfl rfl rfl rfl rfl le_rfl (pending_congr (congrFun same .put) fun _ _ => ⟨rfl, rfl⟩)⟩
    | some q =>
      obtain ⟨timed, within, reason, unserved⟩ := parked.waits e.target q on
      obtain ⟨live, early⟩ := outcome_early reason why
      have single : ∀ q' timed', s.inside e.target = some (q', timed') → q' = q ∧ timed' = timed := by
        intro q' timed' within'
        rw [within] at within'
        obtain ⟨rfl, rfl⟩ := Prod.mk.inj (Option.some.inj within')
        exact ⟨rfl, rfl⟩
      have waits : ∀ q', ((s.threads.suffer e).thread e.target).queue ≠ some q' := by
        intro q' still
        rw [off] at still
        simp at still
      cases q with
      | get =>
        have stays : s.suffer e = s.withThreads (s.threads.suffer e) := if_neg (by simp [on])
        have putters : (s.threads.suffer e).queue .put = s.threads.queue .put := by
          rw [gone, parked.wf.erase_absent (by simp [on])]
        rw [stays]
        refine ⟨?_, ⟨filled.baseLt, filled.countLe, fun waiting => ?_, fun waiting => ?_, filled.fresh, filled.distinct, ?_⟩⟩
        · refine parked.move ⟨befalls.others, fun _ _ => rfl, fun _ _ _ => rfl, fun _ _ _ => rfl, fun _ _ _ _ => Iff.rfl,
            le_rfl⟩ befalls.wf (fun q' still => absurd still (waits q')) (fun q' timed' within' _ => ?_) fun b within' => ?_
          · obtain ⟨rfl, rfl⟩ := single q' timed' within'
            refine ⟨free, live, iff_of_false ?_ ?_⟩
            · exact fun succeeds => false_ne_true (early.symm.trans succeeds)
            · exact fun served => by simp [show s.served e.target = true from served] at unserved
          · exact absurd (single _ b within').1 (by simp)
        · have nobody := filled.getters (fun none => waiting (by
            show (s.threads.suffer e).queue .get = []
            rw [gone, none]; rfl))
          exact ⟨nobody.1, putters.trans nobody.2⟩
        · exact filled.putters (fun none => waiting (putters.trans none))
        · obtain ⟨past, kept, delivered, stored, log⟩ := filled.log
          have same : (s.withThreads (s.threads.suffer e)).pending = s.pending :=
            pending_congr putters fun _ _ => ⟨rfl, rfl⟩
          exact ⟨past, kept, delivered, stored, log.trans (congrArg _ same.symm)⟩
      | put =>
        have fails : s.suffer e = (s.withThreads (s.threads.suffer e)).refuse e.target := if_pos ⟨on, off⟩
        have getters : (s.threads.suffer e).queue .get = s.threads.queue .get := by
          rw [gone, parked.wf.erase_absent (by simp [on])]
        rw [fails]
        refine ⟨?_, filled.refuse (fun u mem same => ?_) (parked.wf.nodup .put) ((parked.wf.member _ _).mpr on) getters
          (gone .put)⟩
        · refine parked.move ⟨befalls.others, fun _ _ => rfl, fun _ _ _ => rfl, fun _ _ _ => rfl, fun u b ne other => ?_,
            le_rfl⟩ befalls.wf (fun q' still => absurd still (waits q')) (fun q' timed' within' _ => ?_) fun b within' => ?_
          · refine mem_refused.trans (and_iff_left fun same => ?_)
            exact ne (parked.own u e.target b timed other within same)
          · obtain ⟨rfl, rfl⟩ := single q' timed' within'
            refine ⟨free, live, iff_of_false ?_ ?_⟩
            · exact fun succeeds => false_ne_true (early.symm.trans succeeds)
            · exact fun mem => (mem_refused.mp mem).2 rfl
          · exact ⟨parked.old e.target b within',
              fun u c ne other same => ne (parked.own u e.target c b other within' same)⟩
        · obtain ⟨timed', within', -⟩ := parked.waits u .put ((parked.wf.member u .put).mp mem)
          exact parked.own u e.target timed' timed within' within same

theorem Lossless.finish (lossless : Lossless 0 size s) (runs : (s.threads.thread t).Running) (within : s.inside t ≠ none) :
    Lossless 0 size (s.finish t) := by
  obtain ⟨parked, filled⟩ := lossless
  obtain ⟨⟨q, timed⟩, inside⟩ := Option.ne_none_iff_exists'.mp within
  have live := (parked.back t q timed inside (parked.queue_none runs)).2.1
  rw [Mbox.finish, if_neg live]
  exact ⟨parked.leave runs, filled.congr rfl rfl rfl rfl rfl rfl le_rfl rfl⟩

theorem Lossless.step (fifo : cfg.sortedQueues = false) (lossless : Lossless 0 size s) {e : MboxEvent T Item}
    (enabled : s.Enabled e) : Lossless 0 size (step size s e) := by
  cases e with
  | get t => exact lossless.get enabled.1 enabled.2
  | getTimed t past => exact lossless.getTimed enabled.1 enabled.2 past
  | tryget t =>
    simp only [Mbox.step, tryget]
    split
    · next some => exact lossless.take some enabled.1 enabled.2
    · exact lossless
  | peekItem t => exact lossless
  | put t item => exact lossless.put fifo enabled.1 enabled.2 item
  | putTimed t item past => exact lossless.putTimed fifo enabled.1 enabled.2 item past
  | tryput t item =>
    simp only [Mbox.step, tryput]
    split
    · exact lossless
    · next room => exact lossless.putNow room enabled.2 item
  | finish t => exact lossless.finish enabled.1 enabled.2
  | exit t =>
    obtain ⟨parked, filled⟩ := lossless
    have same : (s.threads.exit t).queue = s.threads.queue := by
      unfold exit
      split <;> rfl
    exact ⟨parked.befallOutside (Befalls.exit parked.wf (parked.queue_none enabled.1)) enabled.2,
      filled.congr same rfl rfl rfl rfl rfl le_rfl (pending_congr (congrFun same .put) fun _ _ => ⟨rfl, rfl⟩)⟩
  | delay t =>
    obtain ⟨parked, filled⟩ := lossless
    exact ⟨parked.befallOutside (Befalls.delay parked.wf (parked.queue_none enabled.1)) enabled.2,
      filled.congr rfl rfl rfl rfl rfl rfl le_rfl rfl⟩
  | suffer e => exact lossless.suffer e

/-- In every run of a box with FIFO wait queues the indices stay in range, threads
wait to get only while it is empty and to put only while it is full; the items
handed out, those in the box and those of the waiting putters are together those
of the accepted puts, in order; and a call that has slept returns true exactly if
its item was handed over, or its put accepted. -/
theorem mbox_lossless_fifo (fifo : cfg.sortedQueues = false) (pos : 0 < size) (reach : (machine cfg T Item size).Reach s) :
    s.base < size ∧ s.count ≤ size ∧
    (s.threads.queue .get ≠ [] → s.count = 0 ∧ s.threads.queue .put = []) ∧
    (s.threads.queue .put ≠ [] → s.count = size) ∧
    s.got.map Prod.snd ++ items size s ++ (s.threads.queue .put).map s.message = s.accepted.map Prod.snd ∧
    ∀ t q timed, s.inside t = some (q, timed) → (s.threads.thread t).queue = none →
      (outcome timed (s.threads.thread t).wakeReason = true ↔ s.Succeeded t q) := by
  have lossless : Lossless 0 size s := by
    refine reach.kept (P := Lossless 0 size) ?_ fun s e lossless enabled => lossless.step fifo enabled
    rintro _ ⟨pri, itemqueue, message, rfl⟩
    exact ⟨Parked.initial pri itemqueue message, Filled.initial pos pri itemqueue message⟩
  obtain ⟨parked, filled⟩ := lossless
  refine ⟨filled.baseLt, filled.countLe, filled.getters, filled.putters, ?_, fun t q timed within off => ?_⟩
  · obtain ⟨gone, kept, delivered, stored, log⟩ := filled.log
    rw [log, ← delivered, ← stored]
    simp [pending]
  · exact (parked.back t q timed within off).2.2

/-- Two items through a box of one slot: thread 0 puts them, thread 1 gets
the first, and the second moves up. -/
def relay : List (MboxEvent (Fin 2) Nat) :=
  [.suffer (.resume 0), .suffer (.resume 1), .tryput 0 10, .put 0 11, .get 1]

theorem mbox_lossless_fifo_relayed :
    (relay.foldl (step 1) (initial (fun _ => 0) (fun _ => 0) fun _ => 0 : Mbox .twoLevels (Fin 2) Nat)).got = [(1, 10)] ∧
      (relay.foldl (step 1) (initial (fun _ => 0) (fun _ => 0) fun _ => 0 : Mbox .twoLevels (Fin 2) Nat)).accepted.map
        Prod.snd = [10, 11] := by
  have run := mbox_lossless_fifo (s := relay.foldl (step 1) (initial (fun _ => 0) (fun _ => 0) fun _ => 0 : Mbox .twoLevels (Fin 2) Nat)) rfl
    Nat.one_pos (Machine.Reach.run (.start ⟨_, _, _, rfl⟩) (by decide))
  exact ⟨by decide, run.2.2.2.2.1.symm.trans (by decide)⟩

end Mbox

end Ecos
