import Ecos.Sync.Withdraw

namespace Ecos
open List Option

section Place
variable {cfg : Config} {T : Type} {pri : T → Priority cfg} {t : T} {l : List T}

theorem placeQueued_last (last : cfg.sortedQueues = true → ∀ u ∈ l, pri u ≤ pri t) : placeQueued pri t l = l ++ [t] := by
  cases sorted : cfg.sortedQueues with
  | false => simp [placeQueued, sorted]
  | true =>
    have behind := last sorted
    rcases eq_nil_or_concat l with rfl | ⟨front, y, rfl⟩
    · simp [placeQueued, sorted]
    · rw [concat_eq_append] at behind ⊢
      have placed : placeQueued pri t (front ++ [y]) = front ++ y :: t :: [] :=
        placeQueued_behind pri sorted rfl (fun h head => not_lt.mpr (behind h (mem_of_mem_head? head)))
          (not_lt.mpr (behind y (by simp))) (by simp)
      simpa using placed

theorem placeQueued_sorted (sorted : cfg.sortedQueues = true) (ordered : l.Pairwise fun a b => pri a ≤ pri b) :
    (placeQueued pri t l).Pairwise fun a b => pri a ≤ pri b := by
  cases l with
  | nil => simp [placeQueued, sorted]
  | cons h rest =>
    by_cases first : pri t < pri h
    · have placed : placeQueued pri t (h :: rest) = t :: h :: rest := by simp [placeQueued, sorted, first]
      rw [placed, pairwise_cons]
      refine ⟨fun b mem => ?_, ordered⟩
      rcases mem_cons.mp mem with rfl | later
      · exact first.le
      · exact first.le.trans (rel_of_pairwise_cons ordered later)
    · obtain ⟨front, y, back, split, atLeast, less⟩ := exists_lastUrgent pri (mem_cons_self ..) first
      rw [placeQueued_behind pri sorted split (by simpa using first) atLeast less]
      rw [split, pairwise_append, pairwise_cons] at ordered
      obtain ⟨before, ⟨toBack, after⟩, across⟩ := ordered
      refine pairwise_append.mpr ⟨before, ?_, fun a inFront b mem => ?_⟩
      · refine pairwise_cons.mpr ⟨fun b mem => ?_, pairwise_cons.mpr ⟨fun b mem => (less b mem).le, after⟩⟩
        rcases mem_cons.mp mem with rfl | later
        · exact not_lt.mp atLeast
        · exact toBack b later
      · rcases mem_cons.mp mem with rfl | mem
        · exact across a inFront b (mem_cons_self ..)
        · rcases mem_cons.mp mem with rfl | later
          · exact (across a inFront y (mem_cons_self ..)).trans (not_lt.mp atLeast)
          · exact across a inFront b (mem_cons_of_mem _ later)

end Place

namespace Threads
variable {cfg : Config} {T Q : Type} [DecidableEq T] [DecidableEq Q]

/-- The order of a queue, where queues are sorted. -/
def InOrder (s : Threads cfg T Q) (l : List T) : Prop :=
  cfg.sortedQueues = true → l.Pairwise fun a b => (s.thread a).priority ≤ (s.thread b).priority

variable {s s' : Threads cfg T Q} {t u : T} {q r : Q} {l l' : List T}

theorem InOrder.sublist (order : s.InOrder l) (sub : l'.Sublist l) : s.InOrder l' :=
  fun sorted => (order sorted).sublist sub

theorem InOrder.congr (order : s.InOrder l) (same : ∀ u ∈ l, (s'.thread u).priority = (s.thread u).priority) :
    s'.InOrder l := by
  intro sorted
  refine (order sorted).imp_of_mem fun {a b} first second le => ?_
  rw [same a first, same b second]
  exact le

theorem InOrder.befall (order : s.InOrder (s.queue q)) (befalls : Befalls t s s') : s'.InOrder (s'.queue q) := by
  refine (order.sublist (befalls.subset q)).congr fun u _ => ?_
  by_cases same : u = t
  · subst same; exact befalls.rank.1
  · rw [befalls.others u same]

theorem InOrder.block {reason : Reason} (order : s.InOrder (s.queue q)) :
    (s.block t q reason).InOrder ((s.block t q reason).queue q) := by
  intro sorted
  rw [block_queue_self]
  refine (placeQueued_sorted sorted (order sorted)).imp_of_mem fun {a b} _ _ le => ?_
  have same : ∀ u, ((s.block t q reason).thread u).priority = (s.thread u).priority := by
    intro u
    by_cases self : u = t
    · subst self; rw [block_thread_self]; rfl
    · rw [block_thread_of_ne self]
  rw [same, same]
  exact le

theorem InOrder.setPriority (wf : s.Wf) (order : s.InOrder (s.queue q)) (new : Priority cfg) :
    (s.setPriority t new).InOrder ((s.setPriority t new).queue q) := by
  have others : ∀ u, u ≠ t → ((s.setPriority t new).thread u).priority = (s.thread u).priority :=
    fun u ne => congrArg Thread.priority (setPriority_thread_of_ne ne)
  by_cases queued : (s.thread t).queue = some q
  · intro sorted
    have asleep := wf.asleep t q queued
    have moved : (s.setPriority t new).queue q =
        placeQueued (fun u => ((s.setPriority t new).thread u).priority) t ((s.queue q).erase t) := by
      have same : (fun u => ((s.setPriority t new).thread u).priority) =
          fun u => (((s.remove t).modify t (·.withPriority new)).thread u).priority := by
        funext u
        by_cases self : u = t
        · subst self
          rw [setPriority_thread_self, modify_thread_self, remove_thread_self]
          unfold Thread.withPriority
          split <;> simp_all
        · rw [setPriority_thread_of_ne self, modify_thread_of_ne self, remove_thread_of_ne self]
      rw [same, ← wf.remove_queue]
      simp only [Threads.setPriority, asleep, queued, if_true, enqueue, modify_queue, setQueue_queue_self]
    rw [moved]
    refine placeQueued_sorted sorted ?_
    refine ((order sorted).sublist erase_sublist).imp_of_mem fun {a b} first second le => ?_
    have apart : ∀ u ∈ (s.queue q).erase t, u ≠ t := fun u mem => ((wf.nodup q).mem_erase_iff.mp mem).1
    rw [others a (apart a first), others b (apart b second)]
    exact le
  · have same : (s.setPriority t new).queue q = s.queue q := by
      unfold Threads.setPriority
      split
      · cases on : (s.thread t).queue with
        | none => rfl
        | some r =>
          have ne : q ≠ r := by
            rintro rfl
            exact queued on
          simp only [enqueue, modify_queue, setQueue_queue_of_ne ne]
          rw [remove_some on, modify_queue, setQueue_queue_of_ne ne]
      · rfl
    rw [same]
    refine order.congr fun u mem => others u ?_
    rintro rfl
    exact queued ((wf.member u q).mp mem)

/-- The head of one queue goes to the tail of another. -/
structure Moved (q r : Q) (t : T) (s s' : Threads cfg T Q) : Prop where
  wf : s'.Wf
  source : ∀ rest, s.queue q = t :: rest → s'.queue q = rest
  target : s'.queue r = s.queue r ++ [t]
  self : s'.thread t = { s.thread t with queue := some r }
  others : ∀ u, u ≠ t → s'.thread u = s.thread u

theorem Wf.move (wf : s.Wf) {rest : List T} (head : s.queue q = t :: rest) (ne : r ≠ q)
    (order : s.InOrder (s.queue r ++ [t])) : Moved q r t s ((s.dequeue q).enqueue r t) := by
  have queued : (s.thread t).queue = some q := (wf.member t q).mp (by simp [head])
  have pris : (fun u => ((s.dequeue q).thread u).priority) = fun u => (s.thread u).priority := by
    funext u
    rw [wf.dequeue_eq head]
    by_cases self : u = t
    · subst self; simp
    · rw [remove_thread_of_ne self]
  have still : (s.dequeue q).queue r = s.queue r := by
    rw [wf.dequeue_eq head, wf.remove_queue, wf.erase_absent]
    rw [queued]
    exact fun eq => ne (some.inj eq).symm
  have last : cfg.sortedQueues = true → ∀ u ∈ s.queue r, (s.thread u).priority ≤ (s.thread t).priority := by
    intro sorted u mem
    exact (pairwise_append.mp (order sorted)).2.2 u mem t (by simp)
  have target : ((s.dequeue q).enqueue r t).queue r = s.queue r ++ [t] := by
    rw [enqueue, modify_queue, setQueue_queue_self, pris, still, placeQueued_last last]
  have elsewhere : ∀ p, p ≠ r → ((s.dequeue q).enqueue r t).queue p = (s.queue p).erase t := by
    intro p other
    rw [enqueue, modify_queue, setQueue_queue_of_ne other, wf.dequeue_eq head, wf.remove_queue]
  have self : ((s.dequeue q).enqueue r t).thread t = { s.thread t with queue := some r } := by
    simp [enqueue, wf.dequeue_eq head]
  have others : ∀ u, u ≠ t → ((s.dequeue q).enqueue r t).thread u = s.thread u := by
    intro u other
    rw [enqueue, modify_thread_of_ne other, setQueue_thread, wf.dequeue_eq head, remove_thread_of_ne other]
  refine ⟨⟨fun u p => ?_, fun p => ?_, fun u p on => ?_, fun u p on => ?_⟩, fun rest' head' => ?_, target, self, others⟩
  · by_cases same : u = t
    · subst same
      rw [self]
      by_cases there : p = r
      · subst there; simp [target]
      · rw [elsewhere p there, (wf.nodup p).mem_erase_iff]
        simp [Ne.symm there]
    · rw [others u same, ← wf.member]
      by_cases there : p = r
      · subst there; simp [target, same]
      · rw [elsewhere p there, (wf.nodup p).mem_erase_iff]
        simp [same]
  · by_cases there : p = r
    · subst there
      rw [target, nodup_append]
      refine ⟨wf.nodup p, by simp, fun a mem b single => ?_⟩
      rintro rfl
      have on := (wf.member a p).mp mem
      rw [mem_singleton.mp single, queued] at on
      exact ne (some.inj on).symm
    · rw [elsewhere p there]
      exact (wf.nodup p).erase t
  · by_cases same : u = t
    · subst same; rw [self]; exact wf.asleep u q queued
    · rw [others u same] at on ⊢
      exact wf.asleep u p on
  · by_cases same : u = t
    · subst same; rw [self]; exact wf.blocking u q queued
    · rw [others u same] at on ⊢
      exact wf.blocking u p on
  · rw [elsewhere q (Ne.symm ne), head']
    simp

end Threads

end Ecos
