import Ecos.Memalloc.Mempolt2
import Ecos.Memalloc.MvarSafety

namespace Ecos
open Function (update update_of_ne update_self)
open List Option Threads Thread Heap Befalls

namespace Heap
variable {g : Geometry} {h : Heap} {pieces : List Piece} {ptr n s : Nat} {e : HeapEvent}

theorem act_tryAlloc_live :
    (h.act (.tryAlloc n)).live = if h.tried n = null then h.live else (h.tried n, n) :: h.live := by
  cases result : h.pool.tryAlloc n with
  | none => simp [act, tried, result]
  | some q => simp [act, tried, result]

theorem Inv.tried_fresh (inv : Inv g h pieces) (sane : h.Sane n) (given : h.tried n ≠ null) :
    h.tried n ∉ h.live.map Prod.fst := by
  obtain ⟨_, inv', _⟩ := inv.tryAlloc sane
  have once := inv'.live_nodup
  rw [act_tryAlloc_live, if_neg given, map_cons] at once
  exact (nodup_cons.mp once).1

theorem Inv.sane_act (inv : Inv g h pieces) {h' : Heap} {pieces' : List Piece} (inv' : Inv g h' pieces') :
    h'.Sane s ↔ h.Sane s := by
  unfold Sane
  rw [inv'.alignment, inv.alignment]

end Heap

namespace Mempolt2
variable {cfg : Config} {T : Type} [DecidableEq T] {g : Geometry} {s : Mempolt2 cfg T} {t : T} {n ptr : Nat}
  {threads : Threads cfg T Mempolt2Queue}

/-- A thread off the queue but still in `alloc` has a reason to leave it, and if the
reason is an allocation then that is its own. Threads on the local queue of `free`
could not be served. -/
structure Mid (g : Geometry) (s : Mempolt2 cfg T) : Prop where
  wf : s.threads.Wf
  order : s.threads.InOrder (s.threads.queue .holding ++ s.threads.queue .queue)
  heap : ∃ pieces, Heap.Inv g s.heap pieces
  waits : ∀ t q, (s.threads.thread t).queue = some q → ∃ timed, s.inside t = some timed ∧
    (s.threads.thread t).sleepReason = Threads.waitReason timed ∧ s.heap.Sane (s.size t) ∧
    (q = .holding → s.heap.tried (s.size t) = null)
  back : ∀ t timed, s.inside t = some timed → (s.threads.thread t).queue = none →
    (s.threads.thread t).sleepReason = .none ∧
      ((s.threads.thread t).wakeReason = .brk ∨ ((s.threads.thread t).wakeReason = .timeout ∧ timed = true) ∨
        ((s.threads.thread t).wakeReason = .done ∧ s.addr t ∈ s.heap.live.map Prod.fst ∧ s.owner (s.addr t) = some t))

/-- Between the calls: nobody on the queue could be served. -/
structure Calm (g : Geometry) (s : Mempolt2 cfg T) : Prop extends Mid g s where
  holding : s.threads.queue .holding = []
  fails : ∀ t ∈ s.threads.queue .queue, s.heap.tried (s.size t) = null

theorem Mid.queue_none (mid : s.Mid g) (runs : (s.threads.thread t).Running) : (s.threads.thread t).queue = none := by
  refine mid.wf.queue_none ?_
  rw [show _ = ThreadState.running from runs]
  rfl

theorem Mid.alone (mid : s.Mid g) (outside : s.inside t = none) : (s.threads.thread t).queue = none := by
  cases queued : (s.threads.thread t).queue with
  | none => rfl
  | some q =>
    obtain ⟨timed, inside, _⟩ := mid.waits t q queued
    rw [outside] at inside
    simp at inside

theorem Mid.not_queued (mid : s.Mid g) (off : (s.threads.thread t).queue = none) (q : Mempolt2Queue) :
    t ∉ s.threads.queue q := fun mem => by
  have on := (mid.wf.member t q).mp mem
  rw [off] at on
  simp at on

theorem Mid.attempt (mid : s.Mid g) (sane : s.heap.Sane n) : (s.attempt t n).Mid g := by
  obtain ⟨pieces, inv⟩ := mid.heap
  obtain ⟨pieces', inv', _⟩ := inv.tryAlloc sane
  refine ⟨mid.wf, mid.order, ⟨pieces', inv'⟩, fun u q on => ?_, fun u timed inside off => ?_⟩
  · obtain ⟨timed, inside, reason, saneU, fails⟩ := mid.waits u q on
    exact ⟨timed, inside, reason, (inv.sane_act inv').mpr saneU, fun held => inv.fails_tryAlloc saneU sane (fails held)⟩
  · obtain ⟨free, why⟩ := mid.back u timed inside off
    refine ⟨free, why.imp_right (Or.imp_right ?_)⟩
    rintro ⟨done, live, own⟩
    refine ⟨done, ?_, ?_⟩
    · show s.addr u ∈ (s.heap.act (.tryAlloc n)).live.map Prod.fst
      rw [act_tryAlloc_live]
      split
      · exact live
      · exact mem_cons_of_mem _ live
    · show (if s.heap.tried n = null then s.owner else _) (s.addr u) = some u
      split
      · exact own
      · next given =>
        have other : s.addr u ≠ s.heap.tried n := fun same => inv.tried_fresh sane given (same ▸ live)
        rw [update_of_ne other]
        exact own

theorem Calm.attempt (calm : s.Calm g) (sane : s.heap.Sane n) : (s.attempt t n).Calm g where
  toMid := calm.toMid.attempt sane
  holding := calm.holding
  fails u mem := by
    obtain ⟨pieces, inv⟩ := calm.heap
    obtain ⟨timed, _, _, saneU, _⟩ := calm.waits u .queue ((calm.wf.member u .queue).mp mem)
    exact inv.fails_tryAlloc saneU sane (calm.fails u mem)

theorem Mid.fails_again (mid : s.Mid g) (sane : s.heap.Sane n) (fails : s.heap.tried n = null) :
    (s.attempt t n).heap.tried n = null := by
  obtain ⟨pieces, inv⟩ := mid.heap
  exact inv.fails_tryAlloc sane sane fails

section
variable (calm : s.Calm g)
include calm

theorem Calm.befallOutside (befalls : Threads.Befalls t s.threads threads) (outside : s.inside t = none) :
    (s.withThreads threads).Calm g := by
  have queued : ∀ u q, (threads.thread u).queue = some q → (s.threads.thread u).queue = some q :=
    fun u q on => (calm.wf.member u q).mp ((befalls.subset q).subset ((befalls.wf.member u q).mpr on))
  have empty : threads.queue .holding = [] := by
    have sub := befalls.subset .holding
    rw [calm.holding] at sub
    exact sublist_nil.mp sub
  have alone := calm.toMid.alone outside
  have order : threads.InOrder (threads.queue .queue) := by
    have before := calm.order
    rw [calm.holding, nil_append] at before
    exact before.befall befalls
  refine ⟨⟨befalls.wf, ?_, calm.heap, fun u q on => ?_, fun u timed inside off => ?_⟩, empty, fun u mem => ?_⟩
  · show threads.InOrder (threads.queue .holding ++ threads.queue .queue)
    rw [empty, nil_append]
    exact order
  · have before := queued u q on
    have ne : u ≠ t := by
      rintro rfl
      rw [alone] at before
      simp at before
    rw [show (s.withThreads threads).threads.thread u = s.threads.thread u from befalls.others u ne]
    exact calm.waits u q before
  · have ne : u ≠ t := by
      rintro rfl
      rw [show s.inside u = some timed from inside] at outside
      simp at outside
    have same : (s.withThreads threads).threads.thread u = s.threads.thread u := befalls.others u ne
    rw [same] at off ⊢
    exact calm.back u timed inside off
  · exact calm.fails u ((befalls.subset .queue).subset mem)

theorem Calm.suffer (e : Outside T) : (s.withThreads (s.threads.suffer e)).Calm g := by
  have befalls := Befalls.suffer calm.wf e
  have cases := calm.wf.suffer_cases e
  have empty : (s.threads.suffer e).queue .holding = [] := by
    have sub := befalls.subset .holding
    rw [calm.holding] at sub
    exact sublist_nil.mp sub
  have order : (s.threads.suffer e).InOrder ((s.threads.suffer e).queue .queue) := by
    have before := calm.order
    rw [calm.holding, nil_append] at before
    exact before.befall befalls
  refine ⟨⟨befalls.wf, ?_, calm.heap, fun u q on => ?_, fun u timed inside off => ?_⟩, empty, fun u mem => ?_⟩
  · show (s.threads.suffer e).InOrder ((s.threads.suffer e).queue .holding ++ (s.threads.suffer e).queue .queue)
    rw [empty, nil_append]
    exact order
  · by_cases same : u = e.target
    · subst same
      rcases cases with ⟨queue, sleeps, -⟩ | ⟨-, off, -⟩
      · obtain ⟨timed, inside, reason, rest⟩ := calm.waits e.target q (queue.symm.trans on)
        exact ⟨timed, inside, sleeps.trans reason, rest⟩
      · exact absurd (off.symm.trans on) (by simp)
    · have kept : (s.withThreads (s.threads.suffer e)).threads.thread u = s.threads.thread u := befalls.others u same
      rw [kept] at on ⊢
      exact calm.waits u q on
  · by_cases same : u = e.target
    · subst same
      rcases cases with ⟨queue, sleeps, wakes⟩ | ⟨slept, -, free, why⟩
      · obtain ⟨free, why⟩ := calm.back e.target timed inside (queue.symm.trans off)
        exact ⟨sleeps.trans free, wakes.symm ▸ why⟩
      · -- it was asleep, on the queue
        have on : (s.threads.thread e.target).queue ≠ none := by
          intro off
          exact slept (calm.back e.target timed inside off).1
        obtain ⟨q, at'⟩ := ne_none_iff_exists'.mp on
        obtain ⟨timed', inside', reason, -⟩ := calm.waits e.target q at'
        have timely : timed' = timed := some.inj (inside'.symm.trans inside)
        subst timely
        refine ⟨free, ?_⟩
        rcases why with broken | ⟨late, why⟩ | ⟨delayed, -⟩
        · exact .inl broken
        · refine .inr (.inl ⟨why, ?_⟩)
          rw [reason] at late
          cases timed' with
          | true => rfl
          | false => simp [waitReason] at late
        · rw [reason] at delayed
          cases timed' <;> simp [waitReason] at delayed
    · have kept : (s.withThreads (s.threads.suffer e)).threads.thread u = s.threads.thread u := befalls.others u same
      rw [kept] at off ⊢
      exact calm.back u timed inside off
  · exact calm.fails u ((befalls.subset .queue).subset mem)

theorem Calm.leave (runs : (s.threads.thread t).Running) : (s.setInside t none).Calm g where
  wf := calm.wf
  order := calm.order
  heap := calm.heap
  waits u q on := by
    have ne : u ≠ t := by
      rintro rfl
      have off := calm.toMid.queue_none runs
      rw [show (s.threads.thread u).queue = some q from on] at off
      simp at off
    simpa [setInside, ne] using calm.waits u q on
  back u timed inside off := by
    have ne : u ≠ t := by
      rintro rfl
      simp [setInside] at inside
    exact calm.back u timed (by simpa [setInside, ne] using inside) off
  holding := calm.holding
  fails := calm.fails

theorem Calm.block (runs : (s.threads.thread t).Running) (sane : s.heap.Sane n)
    (fails : s.heap.tried n = null) (timed : Bool) :
    (((s.setInfo t n).withThreads (s.threads.block t .queue (Threads.waitReason timed))).setInside t (some timed)).Calm g := by
  have off := calm.toMid.queue_none runs
  have apart : FlagQueue.holding ≠ .queue := by decide
  have empty : (s.threads.block t .queue (waitReason timed)).queue .holding = [] :=
    (block_queue_of_ne apart).trans calm.holding
  have order : (s.threads.block t .queue (waitReason timed)).InOrder
      ((s.threads.block t .queue (waitReason timed)).queue .queue) := by
    have before := calm.order
    rw [calm.holding, nil_append] at before
    exact before.block
  refine ⟨⟨calm.wf.block off (waitReason_blocking timed), ?_, calm.heap, fun u q on => ?_,
    fun u timed' inside free => ?_⟩, empty, fun u mem => ?_⟩
  · show (s.threads.block t .queue (waitReason timed)).InOrder
      ((s.threads.block t .queue (waitReason timed)).queue .holding ++
        (s.threads.block t .queue (waitReason timed)).queue .queue)
    rw [empty, nil_append]
    exact order
  · by_cases same : u = t
    · subst same
      refine ⟨timed, by simp [setInside], ?_, ?_, ?_⟩
      · simp [setInside, withThreads, block_thread_self, blocked]
      · simpa [setInside, withThreads, setInfo] using sane
      · intro _
        simpa [setInside, withThreads, setInfo] using fails
    · have kept : (s.threads.block t .queue (waitReason timed)).thread u = s.threads.thread u :=
        block_thread_of_ne same
      simp only [setInside, withThreads, kept] at on
      simpa [setInside, withThreads, setInfo, kept, same] using calm.waits u q on
  · have ne : u ≠ t := by
      rintro rfl
      simp [setInside, withThreads, block_thread_self, blocked] at free
    have kept : (s.threads.block t .queue (waitReason timed)).thread u = s.threads.thread u :=
      block_thread_of_ne ne
    simp only [setInside, withThreads, kept] at free
    have before : s.inside u = some timed' := by simpa [setInside, withThreads, setInfo, ne] using inside
    simpa [setInside, withThreads, setInfo, kept, ne] using calm.back u timed' before free
  · by_cases same : u = t
    · subst same
      simpa [setInside, withThreads, setInfo] using fails
    · have before : u ∈ s.threads.queue .queue := by
        rcases block_mem.mp mem with ⟨self, _⟩ | listed
        · exact absurd self same
        · exact listed
      simpa [setInside, withThreads, setInfo, same] using calm.fails u before

theorem Calm.late (off : (s.threads.thread t).queue = none)
    (free : (s.threads.thread t).sleepReason = .none) (late : (s.threads.thread t).wakeReason = .timeout) :
    ((s.setInfo t n).setInside t (some true)).Calm g where
  wf := calm.wf
  order := calm.order
  heap := calm.heap
  waits u q on := by
    have ne : u ≠ t := by
      rintro rfl
      rw [show (s.threads.thread u).queue = some q from on] at off
      simp at off
    simpa [setInside, setInfo, ne] using calm.waits u q on
  back u timed inside none := by
    by_cases same : u = t
    · subst same
      have value : timed = true := by simpa [setInside] using inside.symm
      exact ⟨free, .inr (.inl ⟨late, value⟩)⟩
    · have before : s.inside u = some timed := by simpa [setInside, setInfo, same] using inside
      simpa [setInside, setInfo, same] using calm.back u timed before none
  holding := calm.holding
  fails u mem := by
    have ne : u ≠ t := by
      rintro rfl
      exact calm.toMid.not_queued off .queue mem
    simpa [setInside, setInfo, ne] using calm.fails u mem

theorem Calm.alloc (runs : (s.threads.thread t).Running) (sane : s.heap.Sane n) : (s.alloc t n).Calm g := by
  unfold Mempolt2.alloc
  dsimp only
  split
  · exact calm.attempt sane
  · next failed =>
    obtain ⟨pieces, inv⟩ := calm.heap
    obtain ⟨pieces', inv', _⟩ := inv.tryAlloc sane
    exact (calm.attempt (t := t) sane).block runs ((inv.sane_act inv').mpr sane)
      (calm.toMid.fails_again sane (not_not.mp failed)) false

theorem Calm.allocTimed (runs : (s.threads.thread t).Running) (outside : s.inside t = none)
    (sane : s.heap.Sane n) (past : Bool) : (s.allocTimed t n past).Calm g := by
  unfold Mempolt2.allocTimed
  dsimp only
  split
  · exact calm.attempt sane
  · next failed =>
    have tried := calm.attempt (t := t) sane
    cases past with
    | false =>
      obtain ⟨pieces, inv⟩ := calm.heap
      obtain ⟨pieces', inv', _⟩ := inv.tryAlloc sane
      have awake : (((s.attempt t n).threads.setTimer t false).thread t).wakeReason = .none :=
        (setTimer_thread runs).2
      have blocked := tried.block runs ((inv.sane_act inv').mpr sane)
        (calm.toMid.fails_again sane (not_not.mp failed)) true
      simp only [setInside, withThreads, setInfo, awake, if_true]
      exact blocked
    | true =>
      have late := setTimer_past_thread (s := (s.attempt t n).threads) runs
      have awake : (((s.attempt t n).threads.setTimer t true).thread t).wakeReason ≠ .none := by
        rw [late]
        simp [Thread.setWakeReason]
      have armed : Befalls t (s.attempt t n).threads ((s.attempt t n).threads.setTimer t true) :=
        setTimer tried.wf (tried.toMid.queue_none runs)
      have timed := tried.befallOutside armed outside
      have result := timed.late (t := t) (n := n) (timed.toMid.alone outside) (by
        show (((s.attempt t n).threads.setTimer t true).thread t).sleepReason = .none
        rw [late]
        rfl) (by
        show (((s.attempt t n).threads.setTimer t true).thread t).wakeReason = .timeout
        rw [late]
        rfl)
      simp only [setInside, withThreads, setInfo, awake, if_false]
      exact result

theorem Calm.again (runs : (s.threads.thread t).Running) (inside : s.inside t ≠ none) : (s.again t).Calm g := by
  obtain ⟨timed, at'⟩ := ne_none_iff_exists'.mp inside
  have gone := calm.leave runs
  obtain ⟨-, why⟩ := calm.back t timed at' (calm.toMid.queue_none runs)
  rcases why with broken | ⟨late, -⟩ | ⟨done, -⟩
  · simpa [Mempolt2.again, broken] using gone
  · simpa [Mempolt2.again, late] using gone
  · simpa [Mempolt2.again, done] using gone

end

/-- One round of the first loop of `free`. -/
theorem Mid.offer {rest : List T} (mid : s.Mid g) (head : s.threads.queue .queue = t :: rest) :
    (s.offer t).Mid g ∧ (s.offer t).threads.queue .queue = rest := by
  have queued : (s.threads.thread t).queue = some .queue := (mid.wf.member t .queue).mp (by simp [head])
  obtain ⟨timed, inside, reason, sane, _⟩ := mid.waits t .queue queued
  have tried := mid.attempt (t := t) sane
  obtain ⟨pieces, inv⟩ := mid.heap
  obtain ⟨pieces', inv', _⟩ := inv.tryAlloc sane
  by_cases given : s.heap.tried (s.size t) = null
  · have ordered : s.threads.InOrder ((s.threads.queue .holding ++ [t]) ++ rest) := by
      have before := mid.order
      rw [head] at before
      simpa using before
    have moved := mid.wf.move (r := .holding) head (by decide) (ordered.sublist (sublist_append_left ..))
    have state : s.offer t = (s.attempt t (s.size t)).withThreads ((s.threads.dequeue .queue).enqueue .holding t) := by
      simp [Mempolt2.offer, given]
    rw [state]
    refine ⟨⟨moved.wf, ?_, tried.heap, fun u q on => ?_, fun u timed' at' off => ?_⟩, moved.source rest head⟩
    · show ((s.threads.dequeue .queue).enqueue .holding t).InOrder
        (((s.threads.dequeue .queue).enqueue .holding t).queue .holding ++
          ((s.threads.dequeue .queue).enqueue .holding t).queue .queue)
      rw [moved.target, moved.source rest head]
      refine ordered.congr fun u _ => ?_
      by_cases same : u = t
      · subst same
        rw [moved.self]
      · rw [moved.others u same]
    · by_cases same : u = t
      · subst same
        refine ⟨timed, inside, ?_, (inv.sane_act inv').mpr sane, fun _ => mid.fails_again (t := u) sane given⟩
        show (((s.threads.dequeue .queue).enqueue .holding u).thread u).sleepReason = _
        rw [moved.self]
        exact reason
      · have kept : ((s.attempt t (s.size t)).withThreads ((s.threads.dequeue .queue).enqueue .holding t)).threads.thread u =
            s.threads.thread u := moved.others u same
        rw [kept] at on ⊢
        exact tried.waits u q on
    · have ne : u ≠ t := by
        rintro rfl
        have on : (((s.threads.dequeue .queue).enqueue .holding u).thread u).queue = some .holding := by
          rw [moved.self]
        exact absurd (on.symm.trans off) (by simp)
      have kept : ((s.attempt t (s.size t)).withThreads ((s.threads.dequeue .queue).enqueue .holding t)).threads.thread u =
          s.threads.thread u := moved.others u ne
      rw [kept] at off ⊢
      exact tried.back u timed' at' off
  · have awakened : (s.threads.rouse t .done).thread t = (s.threads.thread t).awakened .done :=
      rouse_thread_self (mid.wf.inSleepset queued)
    have woken : s.threads.wakeHead .queue .done = s.threads.rouse t .done := mid.wf.wakeHead_eq head
    simp only [wakeHead, head] at woken
    have state : s.offer t = { s.attempt t (s.size t) with
        threads := s.threads.rouse t .done
        addr := update s.addr t (s.heap.tried (s.size t)) } := by
      simp [Mempolt2.offer, given, woken, Mempolt2.attempt]
    have queue : (s.threads.rouse t .done).queue .queue = rest := by
      rw [mid.wf.rouse_queue, head]
      simp
    have holding : (s.threads.rouse t .done).queue .holding = s.threads.queue .holding :=
      mid.wf.rouse_queue.trans (mid.wf.erase_absent (by simp [queued]))
    rw [state]
    refine ⟨⟨mid.wf.rouse, ?_, tried.heap, fun u q on => ?_, fun u timed' at' off => ?_⟩, queue⟩
    · show (s.threads.rouse t .done).InOrder ((s.threads.rouse t .done).queue .holding ++ (s.threads.rouse t .done).queue .queue)
      rw [queue, holding]
      have before := mid.order
      rw [head] at before
      refine (before.sublist (.append (.refl _) (sublist_cons_self ..))).congr fun u _ => ?_
      by_cases same : u = t
      · subst same
        rw [awakened]
        rfl
      · rw [rouse_thread_of_ne same]
    · have ne : u ≠ t := by
        rintro rfl
        simp only at on
        rw [awakened] at on
        simp [Thread.awakened] at on
      have kept : (s.threads.rouse t .done).thread u = s.threads.thread u := rouse_thread_of_ne ne
      simp only [kept] at on ⊢
      exact tried.waits u q on
    · by_cases same : u = t
      · subst same
        simp only [awakened, update_self]
        refine ⟨rfl, .inr (.inr ⟨rfl, ?_, ?_⟩)⟩
        · show s.heap.tried (s.size u) ∈ (s.heap.act (.tryAlloc (s.size u))).live.map Prod.fst
          rw [act_tryAlloc_live, if_neg given]
          exact mem_cons_self ..
        · show (if s.heap.tried (s.size u) = null then s.owner else _) (s.heap.tried (s.size u)) = some u
          rw [if_neg given, update_self]
      · have kept : (s.threads.rouse t .done).thread u = s.threads.thread u := rouse_thread_of_ne same
        simp only [kept, update_of_ne same] at off ⊢
        exact tried.back u timed' at' off

theorem Mid.offerAll (l : List T) (mid : s.Mid g) (waiters : s.threads.queue .queue = l) :
    (s.offerAll l.length).Mid g ∧ (s.offerAll l.length).threads.queue .queue = [] := by
  induction l generalizing s with
  | nil => exact ⟨mid, waiters⟩
  | cons t rest ih =>
    have unroll : s.offerAll (t :: rest).length = (s.offer t).offerAll rest.length := by
      simp [Mempolt2.offerAll, waiters]
    obtain ⟨mid', shorter⟩ := mid.offer waiters
    rw [unroll]
    exact ih mid' shorter

theorem Mid.putBack (mid : s.Mid g) (empty : s.threads.queue .queue = []) :
    (s.withThreads (Flag.putBack s.threads (s.threads.queue .holding).length)).Calm g := by
  have back := Flag.putBack_back (s.threads.queue .holding) s.threads mid.wf rfl (by
    have order := mid.order
    rw [empty, append_nil] at order
    rw [empty]
    exact order)
  have queue : (Flag.putBack s.threads (s.threads.queue .holding).length).queue .queue = s.threads.queue .holding := by
    rw [back.queue, empty, nil_append]
  have held : ∀ u q, ((Flag.putBack s.threads (s.threads.queue .holding).length).thread u).queue = some q →
      u ∈ s.threads.queue .holding := by
    intro u q on
    have mem := (back.wf.member u q).mpr on
    cases q with
    | queue => exact queue ▸ mem
    | holding =>
      rw [back.empty] at mem
      simp at mem
  refine ⟨⟨back.wf, ?_, mid.heap, fun u q on => ?_, fun u timed inside off => ?_⟩, back.empty, fun u mem => ?_⟩
  · show (Flag.putBack s.threads (s.threads.queue .holding).length).InOrder
      ((Flag.putBack s.threads (s.threads.queue .holding).length).queue .holding ++
        (Flag.putBack s.threads (s.threads.queue .holding).length).queue .queue)
    rw [back.empty, queue, nil_append]
    have order := mid.order
    rw [empty, append_nil] at order
    refine order.congr fun u mem => ?_
    rw [back.back u mem]
  · have mem := held u q on
    obtain ⟨timed, inside, reason, sane, fails⟩ := mid.waits u .holding ((mid.wf.member u .holding).mp mem)
    refine ⟨timed, inside, ?_, sane, fun _ => fails rfl⟩
    show ((Flag.putBack s.threads (s.threads.queue .holding).length).thread u).sleepReason = _
    rw [back.back u mem]
    exact reason
  · have absent : u ∉ s.threads.queue .holding := by
      intro mem
      have on : ((Flag.putBack s.threads (s.threads.queue .holding).length).thread u).queue = some .queue := by
        rw [back.back u mem]
      exact absurd (on.symm.trans off) (by simp)
    have kept : (s.withThreads (Flag.putBack s.threads (s.threads.queue .holding).length)).threads.thread u =
        s.threads.thread u := back.others u absent
    rw [kept] at off ⊢
    exact mid.back u timed inside off
  · have listed : u ∈ s.threads.queue .holding := queue ▸ mem
    obtain ⟨_, _, _, _, fails⟩ := mid.waits u .holding ((mid.wf.member u .holding).mp listed)
    exact fails rfl

section
variable (calm : s.Calm g)
include calm

theorem Calm.withHeap {h : Heap} {pieces : List Piece} (inv : Heap.Inv g h pieces)
    (live : ∀ t, s.Pending t → s.addr t ∈ s.heap.live.map Prod.fst → s.addr t ∈ h.live.map Prod.fst) :
    ({ s with heap := h } : Mempolt2 cfg T).Mid g where
  wf := calm.wf
  order := calm.order
  heap := ⟨pieces, inv⟩
  waits u q on := by
    obtain ⟨timed, inside, reason, sane, _⟩ := calm.waits u q on
    obtain ⟨_, before⟩ := calm.heap
    refine ⟨timed, inside, reason, (before.sane_act inv).mpr sane, ?_⟩
    rintro rfl
    have mem := (calm.wf.member u .holding).mpr on
    rw [calm.holding] at mem
    simp at mem
  back u timed inside off := by
    obtain ⟨free, why⟩ := calm.back u timed inside off
    refine ⟨free, why.imp_right (Or.imp_right ?_)⟩
    rintro ⟨done, held, own⟩
    have pending : s.Pending u := by
      refine ⟨?_, off, done⟩
      rw [show s.inside u = some timed from inside]
      simp
    exact ⟨done, live u pending held, own⟩

theorem Calm.free (ok : s.heap.Ok (.free ptr n)) (others : ∀ t, s.Pending t → s.addr t ≠ ptr) :
    (s.free ptr n).Calm g := by
  obtain ⟨pieces, inv⟩ := calm.heap
  obtain ⟨l, x, r, rfl, live, rfl⟩ := inv.held ok.2
  obtain ⟨pieces', inv', _⟩ := inv.free (s := n) live
  have freed := calm.withHeap inv' (fun t pending held => by
    simp only [act]
    split
    · exact held
    · split
      · obtain ⟨e, mem, same⟩ := mem_map.mp held
        refine mem_map.mpr ⟨e, mem_filter.mpr ⟨mem, ?_⟩, same⟩
        rw [same]
        simpa using others t pending
      · exact held)
  obtain ⟨mid, empty⟩ := freed.offerAll _ rfl
  exact mid.putBack empty

theorem Calm.resizeAlloc (ok : s.heap.Ok (.resizeAlloc ptr n)) (kind : s.Kind (.resizeAlloc ptr n))
    (others : ∀ t, s.Pending t → s.addr t ≠ ptr) : (s.resizeAlloc ptr n).Calm g := by
  obtain ⟨pieces, inv⟩ := calm.heap
  obtain ⟨l, x, r, rfl, live, rfl⟩ := inv.held ok.2
  obtain ⟨pieces', inv', _⟩ := inv.resizeAlloc live ok.1 kind.1
  refine ⟨calm.withHeap inv' fun t pending held => ?_, calm.holding, fun t mem => ?_⟩
  · simp only [act]
    split
    · exact held
    · split
      · exact held
      · obtain ⟨e, mem, same⟩ := mem_map.mp held
        refine mem_map.mpr ⟨e, mem_map.mpr ⟨e, mem, if_neg ?_⟩, same⟩
        rw [same]
        exact others t pending
  · obtain ⟨timed, _, _, sane, _⟩ := calm.waits t .queue ((calm.wf.member t .queue).mp mem)
    refine inv.fails_resizeAlloc live ok.1 kind.1 sane (calm.fails t mem) fun shrinks => ?_
    refine kind.2 ?_ t mem
    have header : MempoolVariable.alloc2memdq (x.addr + sizeofMemdq) = x.addr := Nat.add_sub_cancel ..
    rw [header, inv.holds.sizes x (by simp)]
    exact shrinks

theorem Calm.store {value a : Nat} (ok : s.heap.Ok (.store ptr a value)) :
    ({ s with heap := s.heap.act (.store ptr a value) } : Mempolt2 cfg T).Calm g := by
  obtain ⟨pieces, inv⟩ := calm.heap
  obtain ⟨_, held, mem, rfl, low, high⟩ := ok
  obtain ⟨l, x, r, rfl, live, pointer⟩ := inv.held (mem_map_of_mem mem)
  have room := inv.owns.room _ mem x (mem_usedPieces.mpr ⟨by simp, by simp [live]⟩) pointer
  rw [pointer] at low high
  obtain ⟨inv', _⟩ := @Inv.store _ _ _ _ _ held.1 _ inv value low (by omega)
  refine ⟨calm.withHeap inv' fun t _ held => held, calm.holding, fun t queued => ?_⟩
  obtain ⟨timed, _, _, sane, _⟩ := calm.waits t .queue ((calm.wf.member t .queue).mp queued)
  exact inv.fails_on inv' sane (calm.fails t queued) fun y inY free => .inr ⟨y, inY, free, le_rfl⟩

theorem Calm.setPriority (new : Priority cfg) : (s.withThreads (s.threads.setPriority t new)).Calm g := by
  have same := calm.wf.setPriority t new
  have empty : (s.threads.setPriority t new).queue .holding = [] := by
    have perm := same.perm .holding
    rw [calm.holding] at perm
    exact perm.eq_nil
  refine ⟨⟨same.wf calm.wf, ?_, calm.heap, fun u q on => ?_, fun u timed inside off => ?_⟩, empty, fun u mem => ?_⟩
  · show (s.threads.setPriority t new).InOrder
      ((s.threads.setPriority t new).queue .holding ++ (s.threads.setPriority t new).queue .queue)
    rw [empty, nil_append]
    have order := calm.order
    rw [calm.holding, nil_append] at order
    exact order.setPriority calm.wf new
  · obtain ⟨-, sleeps, -, queue⟩ := same.task u
    obtain ⟨timed, inside, reason, rest⟩ := calm.waits u q (queue ▸ on)
    exact ⟨timed, inside, sleeps.trans reason, rest⟩
  · obtain ⟨-, sleeps, wakes, queue⟩ := same.task u
    obtain ⟨free, why⟩ := calm.back u timed inside (queue ▸ off)
    exact ⟨sleeps.trans free, wakes.symm ▸ why⟩
  · exact calm.fails u ((same.perm .queue).mem_iff.mp mem)

theorem Calm.step {e : Mempolt2Event cfg T} (enabled : s.Enabled e) (kind : s.Kind e) : (s.step e).Calm g := by
  cases e with
  | alloc t size => exact calm.alloc enabled.1 enabled.2.2
  | allocTimed t size past => exact calm.allocTimed enabled.1 enabled.2.1 enabled.2.2 past
  | again t => exact calm.again enabled.1 enabled.2
  | tryAlloc t size => exact calm.attempt enabled.2.2
  | resizeAlloc ptr newsize => exact calm.resizeAlloc enabled.1 kind enabled.2
  | free ptr size => exact calm.free enabled.1 enabled.2
  | store ptr addr value => exact calm.store enabled
  | exit t => exact calm.befallOutside (exit calm.wf (calm.toMid.queue_none enabled.1)) enabled.2
  | delay t => exact calm.befallOutside (delay calm.wf (calm.toMid.queue_none enabled.1)) enabled.2
  | suffer e => exact calm.suffer e
  | setPriority t new => exact calm.setPriority new

end

variable {m : Memory} {head base size align : Nat}

theorem Calm.initial (accepts : Accepts head base size align) (pri : T → Priority cfg) :
    (initial pri (MempoolVariable.construct m head base size align) : Mempolt2 cfg T).Calm accepts.geometry where
  wf := ⟨fun t q => by simp [Mempolt2.initial, create], fun q => by simp [Mempolt2.initial],
    fun t q queued => by simp [Mempolt2.initial, create] at queued,
    fun t q queued => by simp [Mempolt2.initial, create] at queued⟩
  order _ := .nil
  heap := ⟨_, first_inv accepts⟩
  waits t q queued := by simp [Mempolt2.initial, create] at queued
  back t timed inside := by simp [Mempolt2.initial] at inside
  holding := rfl
  fails t mem := by simp [Mempolt2.initial] at mem

/-- In every run whose `resize_alloc`s do not wrap and leave no block for a waiter,
nobody waits for what `try_alloc` would give, and a thread that has been woken with
an allocation is the only one that it belongs to. -/
theorem waiters_cannot_be_served (accepts : Accepts head base size align)
    (reach : (machine m head base size align Kind).Reach s) :
    (∃ blocks free, s.heap.Sound blocks free) ∧ (∀ t ∈ s.threads.queue .queue, s.heap.tried (s.size t) = null) ∧
      ∀ t, s.Pending t → s.addr t ∈ s.heap.live.map Prod.fst ∧ s.owner (s.addr t) = some t ∧
        ∀ u, s.Pending u → s.addr u = s.addr t → u = t := by
  have calm : s.Calm accepts.geometry := by
    refine reach.kept (P := fun s => s.Calm accepts.geometry) ?_ fun s e calm ok => calm.step ok.1 ok.2
    rintro _ ⟨pri, rfl⟩
    exact Calm.initial accepts pri
  have woken : ∀ t, s.Pending t → s.addr t ∈ s.heap.live.map Prod.fst ∧ s.owner (s.addr t) = some t := by
    rintro t ⟨inside, off, done⟩
    obtain ⟨timed, at'⟩ := Option.ne_none_iff_exists'.mp inside
    obtain ⟨_, broken | ⟨late, _⟩ | ⟨_, given⟩⟩ := calm.back t timed at' off
    · exact absurd (done.symm.trans broken) (by simp)
    · exact absurd (done.symm.trans late) (by simp)
    · exact given
  obtain ⟨pieces, inv⟩ := calm.heap
  refine ⟨⟨_, _, inv.sound⟩, calm.fails, fun t pending => ⟨(woken t pending).1, (woken t pending).2, ?_⟩⟩
  intro u pendingU same
  have own := (woken u pendingU).2
  rw [same, (woken t pending).2] at own
  exact (Option.some.inj own).symm

/-- The two threads run, the first one has almost the whole page and the second one waits for more than is left. -/
def crowd : List (Mempolt2Event .twoLevels (Fin 2)) :=
  [.suffer (.resume 0), .suffer (.resume 1), .tryAlloc 0 4000, .alloc 1 100]

def crowded : Mempolt2 .twoLevels (Fin 2) := crowd.foldl step (initial (fun _ => 0) Heap.page.pool)

theorem crowd_admitted (Only : Mempolt2 .twoLevels (Fin 2) → Mempolt2Event .twoLevels (Fin 2) → Prop)
    (only : ∀ s, ∀ e ∈ crowd, Only s e) :
    (machine Heap.lookalike 0x1000 0x80100000 0x1000 8 Only).Reach crowded :=
  Machine.Reach.run (.start ⟨_, rfl⟩) ⟨⟨trivial, only _ _ (by simp [crowd])⟩, ⟨trivial, only _ _ (by simp [crowd])⟩,
    ⟨⟨rfl, rfl, by decide⟩, only _ _ (by simp [crowd])⟩,
    ⟨⟨rfl, rfl, by decide +kernel⟩, only _ _ (by simp [crowd])⟩, trivial⟩

theorem crowded_none_pending {ptr : Nat} : ∀ t, crowded.Pending t → crowded.addr t ≠ ptr := by
  have nobody : ∀ t, (crowded.threads.thread t).wakeReason ≠ .done := by decide +kernel
  exact fun t pending => absurd pending.2.2 (nobody t)

/-- When the first thread frees what it has, the second one is woken with an allocation of its own. -/
theorem waiters_cannot_be_served_crowded :
    crowded.threads.queue .queue = [1] ∧ (crowded.step (.free 0x80100050 0)).Pending 1 ∧
      (crowded.step (.free 0x80100050 0)).owner 0x80100f90 = some 1 := by
  have waits : crowded.threads.queue .queue = [1] := by decide +kernel
  have ready : (machine Heap.lookalike 0x1000 0x80100000 0x1000 8 Kind).Reach crowded :=
    crowd_admitted Kind fun s e mem => by
      simp only [crowd, mem_cons, not_mem_nil, or_false] at mem
      rcases mem with rfl | rfl | rfl | rfl <;> trivial
  have freed := ready.next ⟨.free 0x80100050 0, ⟨⟨⟨by decide +kernel, by decide +kernel⟩, crowded_none_pending⟩, trivial⟩, rfl⟩
  have pending : (crowded.step (.free 0x80100050 0)).Pending 1 := ⟨by decide +kernel, by decide +kernel, by decide +kernel⟩
  refine ⟨waits, pending, ?_⟩
  have own := ((waiters_cannot_be_served Heap.accepts_page freed).2.2 1 pending).2.1
  rw [show (crowded.step (.free 0x80100050 0)).addr 1 = 0x80100f90 by decide +kernel] at own
  exact own

/-- When it makes its allocation smaller instead, the second one is not woken
although the pool has room for it now. -/
theorem shrinking_wakes_nobody : ¬ ∀ (m : Memory) (head base size align : Nat) (s : Mempolt2 .twoLevels (Fin 2)),
    Accepts head base size align → (machine m head base size align fun _ _ => True).Reach s →
    ∀ t ∈ s.threads.queue .queue, s.heap.tried (s.size t) = null := by
  intro claim
  have ready := crowd_admitted (fun _ _ => True) fun _ _ _ => trivial
  have shrunk := ready.next ⟨.resizeAlloc 0x80100050 50,
    ⟨⟨⟨by decide +kernel, by decide +kernel⟩, crowded_none_pending⟩, trivial⟩, rfl⟩
  have fails := claim _ _ _ _ _ _ Heap.accepts_page shrunk 1 (by decide +kernel)
  exact absurd fails (by decide +kernel)

end Mempolt2

end Ecos
