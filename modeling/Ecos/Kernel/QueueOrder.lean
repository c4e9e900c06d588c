import Ecos.Kernel.Enqueue
import Ecos.Lib.Machine

namespace Ecos
open Function (update update_of_ne update_self)
open List Thread Kernel Option

section Place
variable {cfg : Config} {T : Type} {pri : T → Priority cfg} {t : T} {l : List T} {R : T → T → Prop}

/-- The new thread goes behind those that are at least as urgent and in front of the others, so an order in which it
belongs there is kept. -/
theorem placeQueued_pairwise (sorted : cfg.sortedQueues = true) (ordered : l.Pairwise R)
    (rising : ∀ a b, R a b → pri a ≤ pri b) (ahead : ∀ b ∈ l, pri t < pri b → R t b)
    (behind : ∀ b ∈ l, ¬ pri t < pri b → R b t) : (placeQueued pri t l).Pairwise R := by
  cases l with
  | nil => simp [placeQueued, sorted]
  | cons h rest =>
    by_cases first : pri t < pri h
    · have placed : placeQueued pri t (h :: rest) = t :: h :: rest := by simp [placeQueued, sorted, first]
      rw [placed, pairwise_cons]
      refine ⟨fun b mem => ahead b mem ?_, ordered⟩
      rcases mem_cons.mp mem with rfl | later
      · exact first
      · exact first.trans_le (rising _ _ (rel_of_pairwise_cons ordered later))
    · obtain ⟨front, y, back, split, atLeast, less⟩ := exists_lastUrgent pri (mem_cons_self ..) first
      rw [placeQueued_behind pri sorted split (by simpa using first) atLeast less]
      rw [split] at ordered ahead behind
      obtain ⟨before, last, across⟩ := pairwise_append.mp ordered
      obtain ⟨toBack, after⟩ := pairwise_cons.mp last
      have toNew : ∀ a ∈ front, R a t := fun a mem => by
        have le := rising _ _ (across a mem y (mem_cons_self ..))
        exact behind a (by simp [mem]) fun less => atLeast (less.trans_le le)
      have fromNew : ∀ b ∈ back, R t b := fun b mem => ahead b (by simp [mem]) (less b mem)
      refine pairwise_append.mpr ⟨before, ?_, fun a inFront b mem => ?_⟩
      · refine pairwise_cons.mpr ⟨fun b mem => ?_, pairwise_cons.mpr ⟨fromNew, after⟩⟩
        rcases mem_cons.mp mem with rfl | later
        · exact behind y (by simp) atLeast
        · exact toBack b later
      · rcases mem_cons.mp mem with rfl | mem
        · exact across a inFront b (mem_cons_self ..)
        · rcases mem_cons.mp mem with rfl | later
          · exact toNew a inFront
          · exact across a inFront b (mem_cons_of_mem _ later)

end Place

/-- The kernel, and beside it the order in which the threads were queued. -/
structure QueueLog (cfg : Config) (T Q : Type) where
  kernel : Kernel cfg T Q
  clock : Nat
  stamp : T → Nat

/-- What happens to the wait queues. Between these calls a thread that is on none of them may change in any way. -/
inductive QueueAct (cfg : Config) (T Q : Type)
  | enqueue (q : Q) (t : T)
  | dequeue (q : Q)
  | remove (t : T)
  | setPriority (t : T) (new : Priority cfg)
  | outside (t : T) (r : Thread cfg Q)

namespace QueueLog
variable {cfg : Config} {T Q : Type} [DecidableEq T] [DecidableEq Q] [Fintype T]

def restamp (s : QueueLog cfg T Q) (t : T) (k : Kernel cfg T Q) : QueueLog cfg T Q :=
  ⟨k, s.clock + 1, Function.update s.stamp t s.clock⟩

def act (s : QueueLog cfg T Q) : QueueAct cfg T Q → QueueLog cfg T Q
  | .enqueue q t => s.restamp t (s.kernel.enqueue q t)
  | .dequeue q => { s with kernel := s.kernel.dequeue q }
  | .remove t => { s with kernel := s.kernel.remove t }
  | .setPriority t new => s.restamp t (s.kernel.setPriority t new)
  | .outside t r => { s with kernel := s.kernel.modify t fun _ => r }

/-- The thread's node is on no list. -/
def Unlinked (k : Kernel cfg T Q) (t : T) : Prop :=
  k.lists.nodes.next t = t ∧ (∀ q, k.lists.head (.wait q) ≠ some t) ∧ ∀ p, k.lists.head (.run p) ≠ some t

instance [Fintype Q] (k : Kernel cfg T Q) (t : T) : Decidable (Unlinked k t) := inferInstanceAs (Decidable (_ ∧ _ ∧ _))

/-- A thread is queued when it has gone to sleep, and is unlinked then. -/
def Enabled (s : QueueLog cfg T Q) : QueueAct cfg T Q → Prop
  | .enqueue _ t => Unlinked s.kernel t ∧ (s.kernel.thread t).state.sleeping = true
  | .dequeue _ => True
  | .remove t => (s.kernel.thread t).queue ≠ none
  | .setPriority t _ => (s.kernel.thread t).queue ≠ none
  | .outside t r => (s.kernel.thread t).queue = none ∧ r.queue = none

instance [Fintype Q] (s : QueueLog cfg T Q) : ∀ e, Decidable (Enabled s e)
  | .enqueue _ _ => inferInstanceAs (Decidable (_ ∧ _))
  | .dequeue _ => isTrue trivial
  | .remove _ => inferInstanceAs (Decidable (_ ≠ _))
  | .setPriority _ _ => inferInstanceAs (Decidable (_ ≠ _))
  | .outside _ _ => inferInstanceAs (Decidable (_ ∧ _))

/-- No thread is on a wait queue yet. -/
def Initial (s : QueueLog cfg T Q) : Prop :=
  (∃ L, s.kernel.lists.Represents L ∧ ∀ q, L (.wait q) = []) ∧ ∀ t, (s.kernel.thread t).queue = none

def machine (cfg : Config) (T Q : Type) [DecidableEq T] [DecidableEq Q] [Fintype T] : Machine (QueueLog cfg T Q) :=
  .guided Initial Enabled act

/-- One thread is more urgent than the other, or just as urgent and queued earlier. -/
def Before (s : QueueLog cfg T Q) (t u : T) : Prop :=
  (s.kernel.thread t).priority < (s.kernel.thread u).priority ∨
    (s.kernel.thread t).priority = (s.kernel.thread u).priority ∧ s.stamp t < s.stamp u

/-- The search of `enqueue` ends within `n` turns, where its condition is false. -/
def SearchEnds (k : Kernel cfg T Q) (pri : Priority cfg) (tail : T) (n : Nat) : Prop :=
  ∀ fuel, n ≤ fuel → k.searchBack pri fuel tail = k.searchBack pri n tail ∧
    ¬ pri < (k.thread (k.searchBack pri fuel tail)).priority

/-- The lists are `L`, those of the wait queues in order. -/
structure Ordered (s : QueueLog cfg T Q) (L : ListId cfg Q → List T) : Prop where
  rep : s.kernel.lists.Represents L
  queued : ∀ t q, (s.kernel.thread t).queue = some q ↔ t ∈ L (.wait q)
  asleep : ∀ t q, (s.kernel.thread t).queue = some q → (s.kernel.thread t).state.sleeping = true
  order : ∀ q, (L (.wait q)).Pairwise s.Before
  past : ∀ t q, (s.kernel.thread t).queue = some q → s.stamp t < s.clock

variable {s : QueueLog cfg T Q} {L : ListId cfg Q → List T} {k : Kernel cfg T Q} {t : T} {q : Q}

theorem Unlinked.fresh (unlinked : Unlinked k t) (rep : k.lists.Represents L) (i : ListId cfg Q) : t ∉ L i := by
  intro mem
  have notHead : k.lists.head i ≠ some t := by
    cases i with
    | run p => exact unlinked.2.2 p
    | wait q => exact unlinked.2.1 q
  have nodup := rep.nodup i
  have ring := rep.ring i
  rw [rep.heads] at notHead
  obtain ⟨front, back, split⟩ := append_of_mem mem
  rw [split] at nodup ring notHead
  cases front with
  | nil => exact notHead rfl
  | cons h front =>
    -- read from the thread on, the list has the head in it
    have turned := Ring.Nodes.isRing_append_comm.mp ring
    rw [cons_append] at turned
    have next := turned.next_head
    rw [unlinked.1] at next
    have other : t ∈ back ++ h :: front := by
      rw [head_append_of_ne_nil (by simp)] at next
      rw [next]
      exact head_mem _
    grind

section
variable (ordered : s.Ordered L)
include ordered

theorem Ordered.leave (on : (s.kernel.thread t).queue = some q) {k : Kernel cfg T Q}
    (rep : k.lists.Represents (update L (.wait q) ((L (.wait q)).erase t)))
    (threads : k.thread = update s.kernel.thread t { s.kernel.thread t with queue := none }) :
    Ordered { s with kernel := k } (update L (.wait q) ((L (.wait q)).erase t)) := by
  have others : ∀ u, u ≠ t → k.thread u = s.kernel.thread u := fun u ne => by rw [threads, update_of_ne ne]
  have left : (k.thread t).queue = none := by rw [threads, update_self]
  have priority : ∀ u, (k.thread u).priority = (s.kernel.thread u).priority := fun u => by
    by_cases same : u = t
    · rw [same, threads, update_self]
    · rw [others u same]
  refine ⟨rep, fun u r => ?_, fun u r on' => ?_, fun r => ?_, fun u r on' => ?_⟩
  · have nodup := ordered.rep.nodup (.wait q)
    by_cases same : u = t
    · subst same
      rw [left]
      by_cases here : r = q
      · subst here
        rw [update_self]
        simp [nodup.mem_erase_iff]
      · rw [update_of_ne (by simpa using here), ← ordered.queued u r, on]
        simpa using Ne.symm here
    · change (k.thread u).queue = some r ↔ _
      rw [others u same, ordered.queued]
      by_cases here : r = q
      · subst here
        rw [update_self, nodup.mem_erase_iff]
        simp [same]
      · rw [update_of_ne (by simpa using here)]
  · by_cases same : u = t
    · rw [same] at on'
      exact absurd (left.symm.trans on') (by simp)
    · change (k.thread u).queue = some r at on'
      rw [others u same] at on' ⊢
      exact ordered.asleep u r on'
  · have before : ∀ a b, s.Before a b → Before { s with kernel := k } a b := fun a b before => by
      unfold Before at before ⊢
      simp only [priority]
      exact before
    by_cases here : r = q
    · subst here
      rw [update_self]
      exact ((ordered.order r).sublist erase_sublist).imp (before _ _)
    · rw [update_of_ne (by simpa using here)]
      exact (ordered.order r).imp (before _ _)
  · by_cases same : u = t
    · rw [same] at on'
      exact absurd (left.symm.trans on') (by simp)
    · change (k.thread u).queue = some r at on'
      rw [others u same] at on'
      exact ordered.past u r on'

theorem Ordered.remove (on : (s.kernel.thread t).queue = some q) :
    Ordered { s with kernel := s.kernel.remove t } (update L (.wait q) ((L (.wait q)).erase t)) := by
  rw [remove_some _ _ on]
  exact ordered.leave on (ordered.rep.remove ((ordered.queued t q).mp on)) rfl

theorem Ordered.dequeue (q : Q) : ∃ L', Ordered { s with kernel := s.kernel.dequeue q } L' := by
  unfold Kernel.dequeue
  split
  · exact ⟨L, ordered⟩
  · next t head =>
    obtain ⟨rest, split⟩ := ordered.rep.head_some head
    have on := (ordered.queued t q).mpr (split ▸ mem_cons_self ..)
    refine ⟨_, ordered.leave on ?_ rfl⟩
    have tail : (L (.wait q)).erase t = (L (.wait q)).tail := by rw [split, erase_cons_head, tail_cons]
    rw [tail]
    exact ordered.rep.remHead

theorem Ordered.change (off : (s.kernel.thread t).queue = none) {r : Thread cfg Q}
    (off' : r.queue = none) : Ordered { s with kernel := s.kernel.modify t fun _ => r } L := by
  have others : ∀ u, u ≠ t → (s.kernel.modify t fun _ => r).thread u = s.kernel.thread u := fun u ne =>
    update_of_ne ne ..
  have self : (s.kernel.modify t fun _ => r).thread t = r := update_self ..
  have stays : ∀ u p, ((s.kernel.modify t fun _ => r).thread u).queue = some p → u ≠ t ∧ (s.kernel.thread u).queue = some p := by
    intro u p on
    by_cases same : u = t
    · rw [same, self, off'] at on
      exact absurd on (by simp)
    · rw [others u same] at on
      exact ⟨same, on⟩
  refine ⟨ordered.rep, fun u p => ?_, fun u p on => ?_, fun p => ?_, fun u p on => ordered.past u p (stays u p on).2⟩
  · rw [← ordered.queued]
    refine ⟨fun on => (stays u p on).2, fun on => ?_⟩
    have ne : u ≠ t := by
      rintro rfl
      exact absurd (off.symm.trans on) (by simp)
    exact (congrArg queue (others u ne)).trans on
  · obtain ⟨ne, on'⟩ := stays u p on
    exact (congrArg (·.state.sleeping) (others u ne)).trans (ordered.asleep u p on')
  · refine (ordered.order p).imp_of_mem fun {a b} inA inB before => ?_
    have apart : ∀ u ∈ L (.wait p), u ≠ t := by
      rintro u mem rfl
      exact absurd (off.symm.trans ((ordered.queued u p).mpr mem)) (by simp)
    unfold Before at before ⊢
    simp only [others a (apart a inA), others b (apart b inB)]
    exact before

/-- A sleeping thread joins a queue. -/
theorem Ordered.enqueue (sorted : cfg.sortedQueues = true) (fresh : ∀ i, t ∉ L i)
    (asleep : (s.kernel.thread t).state.sleeping = true) (q : Q) :
    Ordered (s.restamp t (s.kernel.enqueue q t))
      (update L (.wait q) (placeQueued (fun u => (s.kernel.thread u).priority) t (L (.wait q)))) := by
  have others : ∀ u, u ≠ t → (s.kernel.enqueue q t).thread u = s.kernel.thread u := fun u ne => by
    rw [enqueue_thread, update_of_ne ne]
  have self : (s.kernel.enqueue q t).thread t = { s.kernel.thread t with queue := some q } := by
    rw [enqueue_thread, update_self]
  have priority : ∀ u, ((s.kernel.enqueue q t).thread u).priority = (s.kernel.thread u).priority := fun u => by
    by_cases same : u = t
    · rw [same, self]
    · rw [others u same]
  have apart : ∀ p, ∀ u ∈ L (.wait p), u ≠ t := by
    rintro p u mem rfl
    exact fresh _ mem
  have before : ∀ p, ∀ a ∈ L (.wait p), ∀ b ∈ L (.wait p), s.Before a b →
      (s.restamp t (s.kernel.enqueue q t)).Before a b := by
    intro p a inA b inB before
    simp only [Before, restamp, priority, update_of_ne (apart p a inA), update_of_ne (apart p b inB)]
    exact before
  refine ⟨placeNode_represents ordered.rep fresh, fun u p => ?_, fun u p on => ?_, fun p => ?_, fun u p on => ?_⟩
  · change ((s.kernel.enqueue q t).thread u).queue = some p ↔ _
    by_cases same : u = t
    · subst same
      rw [self]
      by_cases here : p = q
      · subst here
        simp
      · rw [update_of_ne (by simpa using here)]
        simp [Ne.symm here, fresh]
    · rw [others u same, ordered.queued]
      by_cases here : p = q
      · subst here
        simp [same]
      · rw [update_of_ne (by simpa using here)]
  · change ((s.kernel.enqueue q t).thread u).state.sleeping = true
    change ((s.kernel.enqueue q t).thread u).queue = some p at on
    by_cases same : u = t
    · rw [same, self]
      exact asleep
    · rw [others u same] at on ⊢
      exact ordered.asleep u p on
  · by_cases here : p = q
    · subst here
      rw [update_self]
      have older : ∀ b ∈ L (.wait p), s.stamp b < s.clock := fun b mem =>
        ordered.past b p ((ordered.queued b p).mpr mem)
      refine placeQueued_pairwise sorted ((ordered.order p).imp_of_mem fun {a b} inA inB => before p a inA b inB) ?_ ?_ ?_
      · intro a b before
        simp only [Before, restamp, priority] at before
        exact before.elim le_of_lt fun same => le_of_eq same.1
      · intro b mem less
        simp only [Before, restamp, priority]
        exact .inl less
      · intro b mem notLess
        simp only [Before, restamp, priority, update_self, update_of_ne (apart p b mem)]
        rcases (not_lt.mp notLess).lt_or_eq with less | same
        · exact .inl less
        · exact .inr ⟨same, older b mem⟩
    · rw [update_of_ne (by simpa using here)]
      exact (ordered.order p).imp_of_mem fun {a b} inA inB => before p a inA b inB
  · change ((s.kernel.enqueue q t).thread u).queue = some p at on
    change update s.stamp t s.clock u < s.clock + 1
    by_cases same : u = t
    · rw [same, update_self]
      exact Nat.lt_succ_self _
    · rw [others u same] at on
      rw [update_of_ne same]
      exact Nat.lt_succ_of_lt (ordered.past u p on)

theorem Ordered.congr {k : Kernel cfg T Q} (lists : k.lists = s.kernel.lists)
    (thread : k.thread = s.kernel.thread) : Ordered { s with kernel := k } L := by
  obtain ⟨rep, queued, asleep, order, past⟩ := ordered
  have before : ∀ a b, Before { s with kernel := k } a b ↔ s.Before a b := fun a b => by
    unfold Before
    rw [thread]
  refine ⟨lists ▸ rep, ?_, ?_, fun q => (order q).imp (before _ _).mpr, ?_⟩
  · rw [thread]
    exact queued
  · rw [thread]
    exact asleep
  · rw [thread]
    exact past

end

theorem withPriority_queue (r : Thread cfg Q) (new : Priority cfg) : (r.withPriority new).queue = r.queue := by
  unfold withPriority
  split <;> rfl

theorem withPriority_state (r : Thread cfg Q) (new : Priority cfg) : (r.withPriority new).state = r.state := by
  unfold withPriority
  split <;> rfl

theorem Ordered.setPriority (ordered : s.Ordered L) (sorted : cfg.sortedQueues = true)
    (on : (s.kernel.thread t).queue = some q) (new : Priority cfg) :
    ∃ L', Ordered (s.restamp t (s.kernel.setPriority t new)) L' := by
  have asleep := ordered.asleep t q on
  have stopped : (s.kernel.thread t).state ≠ .running := by
    intro runs
    rw [runs] at asleep
    exact absurd asleep (by decide)
  have removed := ordered.remove on
  have absent : ∀ i, t ∉ update L (.wait q) ((L (.wait q)).erase t) i := by
    intro i
    by_cases here : i = .wait q
    · subst here
      rw [update_self]
      exact (ordered.rep.nodup _).not_mem_erase
    · rw [update_of_ne here]
      exact fun mem => here (ordered.rep.disjoint mem ((ordered.queued t q).mp on))
  have left : (s.kernel.remove t).thread t = { s.kernel.thread t with queue := none } := by
    rw [remove_some _ _ on]
    exact update_self ..
  have changed := removed.change (t := t) (r := ((s.kernel.remove t).thread t).withPriority new)
    (congrArg queue left) (by rw [withPriority_queue, left])
  have joined := changed.enqueue sorted absent (by
    simp only [modify_thread, update_self, withPriority_state, left]
    exact asleep) q
  refine ⟨_, joined.congr (k := s.kernel.setPriority t new) ?_ ?_⟩
  · simp only [Kernel.setPriority, asleep, on, if_neg stopped, if_true]
    split <;> rfl
  · simp only [Kernel.setPriority, asleep, on, if_neg stopped, if_true]
    split <;> rfl

theorem Initial.ordered (initial : s.Initial) : ∃ L, s.Ordered L := by
  obtain ⟨⟨L, rep, empty⟩, off⟩ := initial
  refine ⟨L, rep, fun t q => ?_, fun t q on => ?_, fun q => ?_, fun t q on => ?_⟩
  · rw [off, empty]
    simp
  · exact absurd ((off t).symm.trans on) (by simp)
  · rw [empty]
    exact Pairwise.nil
  · exact absurd ((off t).symm.trans on) (by simp)

theorem Ordered.act (sorted : cfg.sortedQueues = true) (ordered : s.Ordered L) {e : QueueAct cfg T Q} (ok : Enabled s e) :
    ∃ L', (s.act e).Ordered L' := by
  cases e with
  | enqueue q t => exact ⟨_, ordered.enqueue sorted (ok.1.fresh ordered.rep) ok.2 q⟩
  | dequeue q => exact ordered.dequeue q
  | remove t =>
    obtain ⟨q, on⟩ := ne_none_iff_exists'.mp ok
    exact ⟨_, ordered.remove on⟩
  | setPriority t new =>
    obtain ⟨q, on⟩ := ne_none_iff_exists'.mp ok
    exact ordered.setPriority sorted on new
  | outside t r => exact ⟨L, ordered.change ok.1 ok.2⟩

theorem Ordered.searchEnds (ordered : s.Ordered L) {h : T} (head : s.kernel.lists.head (.wait q) = some h)
    (urgent : ¬ (s.kernel.thread t).priority < (s.kernel.thread h).priority) :
    SearchEnds s.kernel (s.kernel.thread t).priority (s.kernel.lists.nodes.prev h) (L (.wait q)).length := by
  obtain ⟨rest, split⟩ := ordered.rep.head_some head
  have ring := ordered.rep.ring (.wait q)
  rw [split] at ring
  obtain ⟨front, y, back, cut, atLeast, less⟩ := exists_lastUrgent (fun u => (s.kernel.thread u).priority) (t := t)
    (split ▸ mem_cons_self .. : h ∈ L (.wait q)) urgent
  have tail : s.kernel.lists.nodes.prev h = (y :: back).getLast (by simp) := by
    rw [ring.prev_head]
    simp only [← split, cut]
    simp
  have whole : s.kernel.lists.nodes.IsRing (front ++ y :: (back ++ [])) := by
    rw [← split, cut] at ring
    simpa using ring
  have long : back.length < (L (.wait q)).length := by
    rw [cut]
    simp
    omega
  intro fuel enough
  rw [tail, searchBack_eq whole atLeast less long, searchBack_eq whole atLeast less (by omega)]
  exact ⟨rfl, atLeast⟩

/-- With sorted queues every wait queue, read from its head, is in the order of urgency and, among the equally urgent,
of arrival. `enqueue` finds the place of a new thread and adds it to the others, and the head, which `dequeue`
takes, is the longest waiting of the most urgent. -/
theorem sorted_queues (sorted : cfg.sortedQueues = true) (reach : (machine cfg T Q).Reach s) :
    ∃ L, s.kernel.lists.Represents L ∧ (∀ t q, (s.kernel.thread t).queue = some q ↔ t ∈ L (.wait q)) ∧
      (∀ q, (L (.wait q)).Pairwise s.Before) ∧
      (∀ q t, Enabled s (.enqueue q t) →
        (∀ h, s.kernel.lists.head (.wait q) = some h →
          ¬ (s.kernel.thread t).priority < (s.kernel.thread h).priority →
          SearchEnds s.kernel (s.kernel.thread t).priority (s.kernel.lists.nodes.prev h) (L (.wait q)).length ∧
            (L (.wait q)).length ≤ Fintype.card T) ∧
        ∃ l, (s.act (.enqueue q t)).kernel.lists.Represents (Function.update L (.wait q) l) ∧
          l.Perm (t :: L (.wait q)) ∧ l.Pairwise (s.act (.enqueue q t)).Before) ∧
      ∀ q h, s.kernel.lists.head (.wait q) = some h →
        (s.kernel.dequeue q).lists.Represents (Function.update L (.wait q) ((L (.wait q)).erase h)) ∧
          ∀ u ∈ L (.wait q), u ≠ h → s.Before h u := by
  obtain ⟨L, ordered⟩ : ∃ L, s.Ordered L := reach.kept (fun s initial => Initial.ordered initial)
    fun s e ⟨L, ordered⟩ ok => ordered.act sorted ok
  refine ⟨L, ordered.rep, ordered.queued, ordered.order, fun q t ok => ⟨fun h head urgent => ?_, ?_⟩, fun q h head => ?_⟩
  · exact ⟨ordered.searchEnds head urgent, (ordered.rep.nodup _).length_le_card⟩
  · have joined := ordered.enqueue sorted (ok.1.fresh ordered.rep) ok.2 q
    have order := joined.order q
    rw [update_self] at order
    exact ⟨_, joined.rep, placeQueued_perm, order⟩
  · obtain ⟨rest, split⟩ := ordered.rep.head_some head
    refine ⟨?_, fun u mem other => ?_⟩
    · have taken := ordered.rep.remHead (k := .wait q)
      have tail : (L (.wait q)).erase h = (L (.wait q)).tail := by rw [split, erase_cons_head, tail_cons]
      have lists : (s.kernel.dequeue q).lists = s.kernel.lists.remHead (.wait q) := by
        simp only [Kernel.dequeue, head]
        rfl
      rw [tail, lists]
      exact taken
    · have order := ordered.order q
      rw [split] at order mem
      exact rel_of_pairwise_cons order ((List.mem_cons.mp mem).resolve_left other)

/-- Two levels and sorted queues. -/
def sortedLevels : Config := { Config.twoLevels with sortedQueues := true }

/-- A thread that has gone to sleep. -/
def sleeper (pri : Priority sortedLevels) : Thread sortedLevels Unit :=
  { Thread.create pri with state := { sleeping := true } }

/-- Four sleeping threads on no queue, the second of them the most urgent. -/
def sleepers : QueueLog sortedLevels (Fin 4) Unit where
  kernel :=
    { thread := fun t => sleeper (if t = 1 then 0 else 1), lists := .empty, queueMap := 0, currentThread := 0,
      needReschedule := false, schedLock := 0, threadSwitches := 0, timesliceCount := 0, threadTimeslice := fun _ => 0,
      timesliceEnabled := fun _ => false, context := fun _ => none, assertsHeld := true }
  clock := 0
  stamp _ := 0

theorem sleepers_initial : sleepers.Initial := ⟨⟨fun _ => [], Ring.Store.represents_empty, fun _ => rfl⟩, fun _ => rfl⟩

/-- The run that queues the threads 3, 0 and 1 and makes the first of them wait again. -/
def queued : List (QueueAct sortedLevels (Fin 4) Unit) := [.enqueue () 3, .enqueue () 0, .enqueue () 1, .setPriority 3 1]

theorem sorted_queues_requeued : ∃ s : QueueLog sortedLevels (Fin 4) Unit, s.kernel.lists.head (.wait ()) = some 1 ∧
    s.kernel.lists.nodes.next 1 = 0 ∧ s.kernel.lists.nodes.next 0 = 3 ∧ s.Before 1 0 ∧ s.Before 1 3 := by
  have reach : (machine sortedLevels (Fin 4) Unit).Reach (queued.foldl act sleepers) :=
    Machine.Reach.run (.start sleepers_initial) (by decide)
  obtain ⟨L, -, places, -, -, first⟩ := sorted_queues rfl reach
  have foremost := (first () 1 (by decide)).2
  have joined : ∀ t : Fin 4, t = 0 ∨ t = 3 → t ∈ L (.wait ()) := by
    rintro t (rfl | rfl)
    · exact (places 0 ()).mp (by decide)
    · exact (places 3 ()).mp (by decide)
  exact ⟨_, by decide, by decide, by decide, foremost 0 (joined 0 (.inl rfl)) (by decide),
    foremost 3 (joined 3 (.inr rfl)) (by decide)⟩

end QueueLog

end Ecos
