import Ecos.Sync.Flag
import Ecos.Sync.Sorted

namespace Ecos
open List Threads

namespace Flag
variable {cfg : Config} {T : Type} {w : Nat} [DecidableEq T]

/-- What the first loop of `setbits` makes of the waiters `l`, by the scan `r`. -/
structure Offered (l : List T) (r : Scan T w) (s s' : Flag cfg T w) : Prop where
  wf : s'.threads.Wf
  empty : s'.threads.queue .queue = []
  kept : s'.threads.queue .holding = s.threads.queue .holding ++ r.left
  value : s'.value = r.value
  inside : s'.inside = s.inside
  woken : ∀ t v, (t, v) ∈ r.woken →
    s'.info t = { s.info t with valueOut := v } ∧ s'.threads.thread t = (s.threads.thread t).awakened .done
  left : ∀ t ∈ r.left, s'.info t = s.info t ∧ s'.threads.thread t = { s.threads.thread t with queue := some .holding }
  others : ∀ t, t ∉ l → s'.info t = s.info t ∧ s'.threads.thread t = s.threads.thread t

variable {s : Flag cfg T w} {t : T} {rest : List T}

theorem offer_met (wf : s.threads.Wf) (head : s.threads.queue .queue = t :: rest) (met : (s.info t).Met s.value) :
    s.offer t = { (s.withThreads (s.threads.rouse t .done)).setInfo t { s.info t with valueOut := s.value } with
      value := if (s.info t).doClear then 0 else s.value } := by
  have woken : s.threads.wakeHead .queue .done = s.threads.rouse t .done := wf.wakeHead_eq head
  simp only [wakeHead, head] at woken
  simp only [offer, if_pos met, woken]

theorem offer_unmet (unmet : ¬ (s.info t).Met s.value) :
    s.offer t = s.withThreads ((s.threads.dequeue .queue).enqueue .holding t) := by
  simp only [offer, if_neg unmet]

/-- One round of the loop leaves all threads but the first as they were. -/
structure Round (t : T) (s s' : Flag cfg T w) : Prop where
  wf : s'.threads.Wf
  inside : s'.inside = s.inside
  info : ∀ u, u ≠ t → s'.info u = s.info u
  others : ∀ u, u ≠ t → s'.threads.thread u = s.threads.thread u
  priority : (s'.threads.thread t).priority = (s.threads.thread t).priority
  queue : ∀ rest, s.threads.queue .queue = t :: rest → s'.threads.queue .queue = rest

theorem Round.inOrder {s' : Flag cfg T w} {l : List T} (round : Round t s s') (order : s.threads.InOrder l) :
    s'.threads.InOrder l := by
  refine order.congr fun u _ => ?_
  by_cases same : u = t
  · subst same; exact round.priority
  · rw [round.others u same]

theorem offer_met_round (wf : s.threads.Wf) (head : s.threads.queue .queue = t :: rest)
    (met : (s.info t).Met s.value) :
    Round t s (s.offer t) ∧ (s.offer t).threads.thread t = (s.threads.thread t).awakened .done ∧
      (s.offer t).threads.queue .holding = s.threads.queue .holding := by
  have queued : (s.threads.thread t).queue = some .queue := (wf.member t .queue).mp (by simp [head])
  have awakened : (s.threads.rouse t .done).thread t = (s.threads.thread t).awakened .done :=
    rouse_thread_self (wf.inSleepset queued)
  rw [offer_met wf head met]
  refine ⟨⟨wf.rouse, rfl, fun u ne => by simp [setInfo, withThreads, ne], fun u ne => rouse_thread_of_ne ne, ?_,
    fun rest' head' => ?_⟩, awakened, ?_⟩
  · show ((s.threads.rouse t .done).thread t).priority = _
    rw [awakened]
    rfl
  · refine wf.rouse_queue.trans ?_
    rw [head']
    simp
  · exact wf.rouse_queue.trans (wf.erase_absent (by simp [queued]))

theorem offer_unmet_round (wf : s.threads.Wf) (head : s.threads.queue .queue = t :: rest)
    (order : s.threads.InOrder (s.threads.queue .holding ++ [t])) (unmet : ¬ (s.info t).Met s.value) :
    Round t s (s.offer t) ∧ (s.offer t).threads.thread t = { s.threads.thread t with queue := some .holding } ∧
      (s.offer t).threads.queue .holding = s.threads.queue .holding ++ [t] := by
  have moved := wf.move (r := .holding) head (by decide) order
  rw [offer_unmet unmet]
  refine ⟨⟨moved.wf, rfl, fun _ _ => rfl, moved.others, ?_, moved.source⟩, moved.self, moved.target⟩
  show (((s.threads.dequeue .queue).enqueue .holding t).thread t).priority = _
  rw [moved.self]

theorem offerAll_offered (l : List T) (s : Flag cfg T w) (wf : s.threads.Wf) (waiters : s.threads.queue .queue = l)
    (order : s.threads.InOrder (s.threads.queue .holding ++ l)) :
    Offered l (scanWaiters s.info s.value l) s (s.offerAll l.length) := by
  induction l generalizing s with
  | nil =>
    exact ⟨wf, waiters, by simp [offerAll, scanWaiters], rfl, rfl, by simp [scanWaiters], by simp [scanWaiters],
      fun _ _ => ⟨rfl, rfl⟩⟩
  | cons t rest ih =>
    have once : (t :: rest).Nodup := waiters ▸ wf.nodup .queue
    have absent : t ∉ rest := (nodup_cons.mp once).1
    have apart : ∀ u ∈ rest, u ≠ t := fun u mem same => absent (same ▸ mem)
    have unroll : s.offerAll (t :: rest).length = (s.offer t).offerAll rest.length := by
      simp [offerAll, waiters]
    rw [unroll]
    by_cases met : (s.info t).Met s.value
    · obtain ⟨round, awakened, holding⟩ := offer_met_round wf waiters met
      have result := offer_met wf waiters met
      have scan : scanWaiters (s.offer t).info (s.offer t).value rest =
          scanWaiters s.info (if (s.info t).doClear then 0 else s.value) rest := by
        rw [scanWaiters_congr fun u mem => round.info u (apart u mem), result]
      have later := ih (s.offer t) round.wf (round.queue rest waiters) (by
        rw [holding]
        exact round.inOrder (order.sublist (.append (.refl _) (sublist_cons_self ..))))
      rw [scan] at later
      simp only [scanWaiters, if_pos met]
      refine ⟨later.wf, later.empty, later.kept.trans (by rw [holding]), later.value, later.inside.trans round.inside,
        fun u v woken => ?_, fun u mem => ?_, fun u outside => ?_⟩
      · rcases mem_cons.mp woken with same | further
        · obtain ⟨rfl, rfl⟩ := Prod.mk.inj same
          obtain ⟨info, thread⟩ := later.others u absent
          rw [info, thread, awakened, result]
          exact ⟨by simp [setInfo], rfl⟩
        · have ne := apart u (scanWaiters_mem further)
          rw [← round.info u ne, ← round.others u ne]
          exact later.woken u v further
      · have ne := apart u (scanWaiters_sublist.subset mem)
        rw [← round.info u ne, ← round.others u ne]
        exact later.left u mem
      · obtain ⟨ne, further⟩ := not_or.mp (fun both => outside (mem_cons.mpr both))
        rw [← round.info u ne, ← round.others u ne]
        exact later.others u further
    · have ordered : s.threads.InOrder ((s.threads.queue .holding ++ [t]) ++ rest) := by simpa using order
      obtain ⟨round, held, holding⟩ :=
        offer_unmet_round wf waiters (ordered.sublist (sublist_append_left ..)) met
      have same : (s.offer t).info = s.info ∧ (s.offer t).value = s.value := by
        rw [offer_unmet met]
        exact ⟨rfl, rfl⟩
      have later := ih (s.offer t) round.wf (round.queue rest waiters) (by
        rw [holding]
        exact round.inOrder ordered)
      rw [same.1, same.2] at later
      simp only [scanWaiters, if_neg met]
      refine ⟨later.wf, later.empty, later.kept.trans (by rw [holding]; simp), later.value,
        later.inside.trans round.inside, fun u v woken => ?_, fun u mem => ?_, fun u outside => ?_⟩
      · have ne := apart u (scanWaiters_mem woken)
        rw [← round.info u ne, ← round.others u ne]
        exact later.woken u v woken
      · rcases mem_cons.mp mem with rfl | further
        · obtain ⟨info, thread⟩ := later.others u absent
          rw [info, thread, held, same.1]
          exact ⟨rfl, rfl⟩
        · have ne := apart u (scanWaiters_sublist.subset further)
          rw [← round.info u ne, ← round.others u ne]
          exact later.left u further
      · obtain ⟨ne, further⟩ := not_or.mp (fun both => outside (mem_cons.mpr both))
        rw [← round.info u ne, ← round.others u ne]
        exact later.others u further

/-- The second loop. -/
structure PutBack (l : List T) (s s' : Threads cfg T FlagQueue) : Prop where
  wf : s'.Wf
  queue : s'.queue .queue = s.queue .queue ++ l
  empty : s'.queue .holding = []
  back : ∀ t ∈ l, s'.thread t = { s.thread t with queue := some .queue }
  others : ∀ t, t ∉ l → s'.thread t = s.thread t

theorem putBack_back (l : List T) (s : Threads cfg T FlagQueue) (wf : s.Wf) (held : s.queue .holding = l)
    (order : s.InOrder (s.queue .queue ++ l)) : PutBack l s (putBack s l.length) := by
  induction l generalizing s with
  | nil => exact ⟨wf, by simp [putBack], held, by simp, fun _ _ => rfl⟩
  | cons t rest ih =>
    have absent : t ∉ rest := (nodup_cons.mp (held ▸ wf.nodup .holding)).1
    have unroll : putBack s (t :: rest).length = putBack ((s.dequeue .holding).enqueue .queue t) rest.length := by
      simp [putBack, held]
    have ordered : s.InOrder ((s.queue .queue ++ [t]) ++ rest) := by simpa using order
    have moved := wf.move (r := .queue) held (by decide) (ordered.sublist (sublist_append_left ..))
    have priority : ∀ u, (((s.dequeue .holding).enqueue .queue t).thread u).priority = (s.thread u).priority := by
      intro u
      by_cases same : u = t
      · subst same; rw [moved.self]
      · rw [moved.others u same]
    have later := ih _ moved.wf (moved.source rest held) (by
      rw [moved.target]
      exact ordered.congr fun u _ => priority u)
    rw [unroll]
    refine ⟨later.wf, later.queue.trans (by rw [moved.target]; simp), later.empty, fun u mem => ?_, fun u outside => ?_⟩
    · rcases mem_cons.mp mem with rfl | further
      · rw [later.others u absent, moved.self]
      · rw [later.back u further, moved.others u fun same => absent (same ▸ further)]
    · obtain ⟨ne, further⟩ := not_or.mp (fun both => outside (mem_cons.mpr both))
      rw [later.others u further, moved.others u ne]

/-- What `setbits` makes of the waiters, by the scan `r` over them. -/
structure Scanned (r : Scan T w) (s s' : Flag cfg T w) : Prop where
  wf : s'.threads.Wf
  queue : s'.threads.queue .queue = r.left
  holding : s'.threads.queue .holding = []
  value : s'.value = r.value
  inside : s'.inside = s.inside
  woken : ∀ t v, (t, v) ∈ r.woken →
    s'.info t = { s.info t with valueOut := v } ∧ s'.threads.thread t = (s.threads.thread t).awakened .done
  others : ∀ t, t ∉ r.woken.map Prod.fst → s'.info t = s.info t ∧ s'.threads.thread t = s.threads.thread t

theorem setbits_scanned (wf : s.threads.Wf) (none : s.threads.queue .holding = [])
    (order : s.threads.InOrder (s.threads.queue .queue)) (arg : BitVec w) :
    Scanned (scanWaiters s.info (s.value ||| arg) (s.threads.queue .queue)) s (s.setbits arg) := by
  have offered := offerAll_offered (s.threads.queue .queue) { s with value := s.value ||| arg } wf rfl
    (by rw [show queue _ _ = _ from none]; exact order)
  have kept : (offerAll { s with value := s.value ||| arg } (s.threads.queue .queue).length).threads.queue .holding =
      (scanWaiters s.info (s.value ||| arg) (s.threads.queue .queue)).left := offered.kept.trans (by rw [none]; rfl)
  set scan := scanWaiters s.info (s.value ||| arg) (s.threads.queue .queue) with scan_eq
  set mid := offerAll { s with value := s.value ||| arg } (s.threads.queue .queue).length with mid_eq
  have onQueue : ∀ t ∈ scan.left, (s.threads.thread t).queue = some .queue :=
    fun t mem => (wf.member t .queue).mp (scanWaiters_sublist.subset mem)
  have back := putBack_back scan.left mid.threads offered.wf kept (by
    rw [offered.empty]
    refine (order.sublist scanWaiters_sublist).congr fun u mem => ?_
    rw [(offered.left u mem).2])
  have result : s.setbits arg = mid.withThreads (putBack mid.threads scan.left.length) := by
    rw [← kept]
    rfl
  rw [result]
  refine ⟨back.wf, back.queue.trans (by rw [offered.empty]; rfl), back.empty, offered.value, offered.inside,
    fun t v woken => ?_, fun t outside => ?_⟩
  · have once : (scan.woken.map Prod.fst ++ scan.left).Nodup := scanWaiters_perm.nodup_iff.mpr (wf.nodup .queue)
    have gone : t ∉ scan.left := fun mem =>
      disjoint_of_nodup_append once (mem_map_of_mem (f := Prod.fst) woken) mem
    obtain ⟨info, thread⟩ := offered.woken t v woken
    exact ⟨info, (back.others t gone).trans thread⟩
  · by_cases mem : t ∈ scan.left
    · obtain ⟨info, thread⟩ := offered.left t mem
      refine ⟨info, (back.back t mem).trans ?_⟩
      rw [thread]
      simp [← onQueue t mem]
    · have absent : t ∉ s.threads.queue .queue := by
        intro queued
        rcases mem_append.mp (scanWaiters_perm.mem_iff.mpr queued) with first | second
        · exact outside first
        · exact mem second
      obtain ⟨info, thread⟩ := offered.others t absent
      exact ⟨info, (back.others t mem).trans thread⟩

end Flag

end Ecos
