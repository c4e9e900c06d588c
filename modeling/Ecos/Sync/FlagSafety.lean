import Ecos.Sync.FlagSetbits

namespace Ecos
open Threads Thread List Option BitVec Befalls

namespace Flag
variable {cfg : Config} {T : Type} {w : Nat} [DecidableEq T]

/-- No waiter has its condition met; a thread off the queue but still in the loop
of `wait` has a reason to leave it. -/
structure Quiet (s : Flag cfg T w) : Prop where
  wf : s.threads.Wf
  holding : s.threads.queue .holding = []
  order : s.threads.InOrder (s.threads.queue .queue)
  waits : ∀ t, (s.threads.thread t).queue ≠ none → ∃ timed, s.inside t = some timed ∧
    (s.threads.thread t).sleepReason = Threads.waitReason timed ∧ (s.info t).valueOut = 0 ∧ ¬ (s.info t).Met s.value
  back : ∀ t timed, s.inside t = some timed → (s.threads.thread t).queue = none →
    (s.threads.thread t).sleepReason = .none ∧
      ((s.threads.thread t).wakeReason = .brk ∨ ((s.threads.thread t).wakeReason = .timeout ∧ timed = true) ∨
        ((s.threads.thread t).wakeReason = .done ∧ (s.info t).valueOut ≠ 0))

variable {s : Flag cfg T w} {t : T} {threads : Threads cfg T FlagQueue}

theorem Quiet.initial (pri : T → Priority cfg) (init : BitVec w) : (initial pri init : Flag cfg T w).Quiet where
  wf := ⟨fun t q => by simp [Flag.initial, create], fun q => by simp [Flag.initial],
    fun t q queued => by simp [Flag.initial, create] at queued,
    fun t q queued => by simp [Flag.initial, create] at queued⟩
  holding := rfl
  order _ := .nil
  waits t queued := by simp [Flag.initial, create] at queued
  back t timed inside := by simp [Flag.initial] at inside

theorem Quiet.queue_none (quiet : s.Quiet) (runs : (s.threads.thread t).Running) :
    (s.threads.thread t).queue = none := by
  refine quiet.wf.queue_none ?_
  rw [show _ = ThreadState.running from runs]
  rfl

theorem Quiet.lower (quiet : s.Quiet) {value : BitVec w} (fewer : ∀ p : FlagWaitInfo w, p.Met value → p.Met s.value) :
    ({ s with value := value } : Flag cfg T w).Quiet where
  wf := quiet.wf
  holding := quiet.holding
  order := quiet.order
  waits t queued := by
    obtain ⟨timed, inside, reason, out, unmet⟩ := quiet.waits t queued
    exact ⟨timed, inside, reason, out, fun met => unmet (fewer _ met)⟩
  back := quiet.back

theorem polled_fst (value pattern : BitVec w) (mode : WaitMode) :
    (polled value pattern mode).1 = if (mode.info pattern).Met value then value else 0 := by
  rcases mode with ⟨any, clr⟩
  cases any with
  | true =>
    refine if_congr ?_ rfl rfl
    simp only [WaitMode.info, FlagWaitInfo.Met, if_true]
    rw [and_comm pattern value]
    simp
  | false =>
    refine if_congr ?_ rfl rfl
    simp only [WaitMode.info, FlagWaitInfo.Met, Bool.false_eq_true, if_false]
    rw [and_comm pattern value]
    constructor
    · rintro ⟨some, all⟩
      exact .inl ⟨some, all.symm⟩
    · rintro (⟨some, all⟩ | any)
      · exact ⟨some, all.symm⟩
      · simp at any

theorem polled_eq_zero {value pattern : BitVec w} {mode : WaitMode} (failed : ¬ (polled value pattern mode).1 ≠ 0) :
    ¬ (mode.info pattern).Met value ∧ (polled value pattern mode).2 = value := by
  refine ⟨fun met => failed ?_, ?_⟩
  · rw [polled_fst, if_pos met]
    rintro rfl
    exact FlagWaitInfo.not_met_zero _ met
  · exact if_neg fun both => failed both.1

section
variable (quiet : s.Quiet)
include quiet

theorem Quiet.poll (pattern : BitVec w) (mode : WaitMode) : (s.poll pattern mode).Quiet := by
  have cleared : (polled s.value pattern mode).2 = 0 ∨ (polled s.value pattern mode).2 = s.value := ite_eq_or_eq ..
  refine quiet.lower fun p met => ?_
  rcases cleared with zero | same
  · rw [zero] at met
    exact absurd met p.not_met_zero
  · rwa [same] at met

theorem Quiet.befallOutside (befalls : Threads.Befalls t s.threads threads) (outside : s.inside t = none) :
    (s.withThreads threads).Quiet := by
  have queued : ∀ u q, (threads.thread u).queue = some q → (s.threads.thread u).queue = some q :=
    fun u q on => (quiet.wf.member u q).mp ((befalls.subset q).subset ((befalls.wf.member u q).mpr on))
  have alone : (s.threads.thread t).queue = none := by
    by_contra on
    obtain ⟨timed, inside, -⟩ := quiet.waits t on
    rw [outside] at inside
    simp at inside
  refine ⟨befalls.wf, ?_, quiet.order.befall befalls, fun u on => ?_, fun u timed inside off => ?_⟩
  · have sub := befalls.subset .holding
    rw [quiet.holding] at sub
    exact sublist_nil.mp sub
  · obtain ⟨q, at'⟩ := ne_none_iff_exists'.mp on
    have before := queued u q at'
    have ne : u ≠ t := by
      rintro rfl
      rw [alone] at before
      simp at before
    rw [show (s.withThreads threads).threads.thread u = s.threads.thread u from befalls.others u ne]
    exact quiet.waits u (by simp [before])
  · have ne : u ≠ t := by
      rintro rfl
      rw [show s.inside u = some timed from inside] at outside
      simp at outside
    have same : (s.withThreads threads).threads.thread u = s.threads.thread u := befalls.others u ne
    rw [same] at off ⊢
    exact quiet.back u timed inside off

theorem Quiet.setInfo (outside : s.inside t = none) (p : FlagWaitInfo w) : (s.setInfo t p).Quiet where
  wf := quiet.wf
  holding := quiet.holding
  order := quiet.order
  waits u on := by
    have ne : u ≠ t := by
      rintro rfl
      obtain ⟨timed, inside, -⟩ := quiet.waits u on
      rw [outside] at inside
      simp at inside
    simpa [Flag.setInfo, ne] using quiet.waits u on
  back u timed inside off := by
    have ne : u ≠ t := by
      rintro rfl
      rw [show s.inside u = some timed from inside] at outside
      simp at outside
    simpa [Flag.setInfo, ne] using quiet.back u timed inside off

theorem Quiet.suffer (e : Outside T) : (s.withThreads (s.threads.suffer e)).Quiet := by
  have befalls := Befalls.suffer quiet.wf e
  have cases := quiet.wf.suffer_cases e
  refine ⟨befalls.wf, ?_, quiet.order.befall befalls, fun u on => ?_, fun u timed inside off => ?_⟩
  · have sub := befalls.subset .holding
    rw [quiet.holding] at sub
    exact sublist_nil.mp sub
  · by_cases same : u = e.target
    · subst same
      rcases cases with ⟨queue, sleeps, -⟩ | ⟨-, off, -⟩
      · obtain ⟨timed, inside, reason, rest⟩ := quiet.waits e.target (queue ▸ on)
        exact ⟨timed, inside, sleeps.trans reason, rest⟩
      · exact absurd off on
    · have kept : (s.withThreads (s.threads.suffer e)).threads.thread u = s.threads.thread u := befalls.others u same
      rw [kept] at on ⊢
      exact quiet.waits u on
  · by_cases same : u = e.target
    · subst same
      rcases cases with ⟨queue, sleeps, wakes⟩ | ⟨slept, -, free, why⟩
      · obtain ⟨free, why⟩ := quiet.back e.target timed inside (queue ▸ off)
        exact ⟨sleeps.trans free, wakes.symm ▸ why⟩
      · -- it was asleep, on the queue
        have on : (s.threads.thread e.target).queue ≠ none := by
          intro off
          exact slept (quiet.back e.target timed inside off).1
        obtain ⟨timed', inside', reason, -⟩ := quiet.waits e.target on
        have timely : timed' = timed := some.inj (inside'.symm.trans inside)
        subst timely
        refine ⟨free, ?_⟩
        rcases why with broken | ⟨late, why⟩ | ⟨delayed, -⟩
        · exact .inl broken
        · refine .inr (.inl ⟨why, ?_⟩)
          rw [reason] at late
          cases timed' with
          | true => rfl
          | false => simp [waitReason] at late
        · rw [reason] at delayed
          cases timed' <;> simp [waitReason] at delayed
    · have kept : (s.withThreads (s.threads.suffer e)).threads.thread u = s.threads.thread u := befalls.others u same
      rw [kept] at off ⊢
      exact quiet.back u timed inside off

theorem Quiet.leave (runs : (s.threads.thread t).Running) : (s.setInside t none).Quiet where
  wf := quiet.wf
  holding := quiet.holding
  order := quiet.order
  waits u queued := by
    have ne : u ≠ t := by
      rintro rfl
      exact queued (quiet.queue_none runs)
    simpa [setInside, ne] using quiet.waits u queued
  back u timed inside off := by
    have ne : u ≠ t := by
      rintro rfl
      simp [setInside] at inside
    exact quiet.back u timed (by simpa [setInside, ne] using inside) off

theorem Quiet.block (runs : (s.threads.thread t).Running) (p : FlagWaitInfo w) (out : p.valueOut = 0)
    (unmet : ¬ p.Met s.value) (timed : Bool) : ((s.setInfo t p).test t timed).Quiet := by
  have result : (s.setInfo t p).test t timed =
      ((s.setInfo t p).withThreads (s.threads.block t .queue (waitReason timed))).setInside t (some timed) := by
    simp [test, Flag.setInfo, out]
  rw [result]
  refine ⟨quiet.wf.block (quiet.queue_none runs) (waitReason_blocking timed), ?_, quiet.order.block,
    fun u on => ?_, fun u timed' inside off => ?_⟩
  · have apart : FlagQueue.holding ≠ .queue := by decide
    exact (block_queue_of_ne apart).trans quiet.holding
  · by_cases same : u = t
    · subst same
      refine ⟨timed, by simp [setInside], ?_, ?_, ?_⟩
      · simp [setInside, withThreads, block_thread_self, blocked]
      · simp [setInside, withThreads, Flag.setInfo, out]
      · simpa [setInside, withThreads, Flag.setInfo] using unmet
    · have kept : (s.threads.block t .queue (waitReason timed)).thread u = s.threads.thread u :=
        block_thread_of_ne same
      simp only [setInside, withThreads, kept] at on
      simpa [setInside, withThreads, Flag.setInfo, kept, same] using quiet.waits u on
  · have ne : u ≠ t := by
      rintro rfl
      simp [setInside, withThreads, block_thread_self, blocked] at off
    have kept : (s.threads.block t .queue (waitReason timed)).thread u = s.threads.thread u :=
      block_thread_of_ne ne
    simp only [setInside, withThreads, kept] at off
    have before : s.inside u = some timed' := by simpa [setInside, withThreads, Flag.setInfo, ne] using inside
    simpa [setInside, withThreads, Flag.setInfo, kept, ne] using quiet.back u timed' before off

end

theorem poll_eq {pattern : BitVec w} {mode : WaitMode} (failed : ¬ (polled s.value pattern mode).1 ≠ 0) :
    s.poll pattern mode = s := by
  simp only [Flag.poll, (polled_eq_zero failed).2]

section
variable (quiet : s.Quiet)
include quiet

theorem Quiet.wait (runs : (s.threads.thread t).Running) (pattern : BitVec w) (mode : WaitMode) :
    (s.wait t pattern mode).Quiet := by
  unfold Flag.wait
  split
  · exact quiet.poll pattern mode
  · next failed =>
    rw [poll_eq failed]
    exact quiet.block runs _ rfl (polled_eq_zero failed).1 false

theorem Quiet.waitTimed (runs : (s.threads.thread t).Running) (outside : s.inside t = none)
    (pattern : BitVec w) (mode : WaitMode) (past : Bool) : (s.waitTimed t pattern mode past).Quiet := by
  unfold Flag.waitTimed
  split
  · exact quiet.poll pattern mode
  · next failed =>
    have armed : Befalls t s.threads (s.threads.setTimer t past) :=
      setTimer quiet.wf (quiet.queue_none runs)
    have timed := quiet.befallOutside armed outside
    have set := timed.setInfo outside (mode.info pattern)
    rw [poll_eq failed]
    dsimp only
    split
    · exact set
    · exact timed.block (setTimer_thread runs).1 _ rfl (polled_eq_zero failed).1 true

theorem Quiet.again {timed : Bool} (runs : (s.threads.thread t).Running)
    (inside : s.inside t = some timed) : (s.again t timed).Quiet := by
  have gone := quiet.leave runs
  obtain ⟨-, why⟩ := quiet.back t timed inside (quiet.queue_none runs)
  rcases why with broken | ⟨late, rfl⟩ | ⟨done, out⟩
  · simpa [Flag.again, broken] using gone
  · simpa [Flag.again, late] using gone
  · have left : s.test t timed = s.setInside t none := if_neg out
    simpa [Flag.again, done, left] using gone

theorem Quiet.setbits (arg : BitVec w) : (s.setbits arg).Quiet := by
  have scanned := setbits_scanned quiet.wf quiet.holding quiet.order arg
  have asleep : ∀ t, ((s.setbits arg).threads.thread t).queue ≠ none →
      (s.setbits arg).info t = s.info t ∧ (s.setbits arg).threads.thread t = s.threads.thread t := by
    intro t on
    refine scanned.others t fun woken => on ?_
    obtain ⟨⟨u, v⟩, mem, rfl⟩ := mem_map.mp woken
    rw [(scanned.woken u v mem).2]
    rfl
  refine ⟨scanned.wf, scanned.holding, ?_, fun t on => ?_, fun t timed inside off => ?_⟩
  · rw [scanned.queue]
    refine (quiet.order.sublist scanWaiters_sublist).congr fun t left => ?_
    have queued := (scanned.wf.member t .queue).mp (scanned.queue ▸ left)
    rw [(asleep t (by simp [queued])).2]
  · obtain ⟨info, thread⟩ := asleep t on
    obtain ⟨timed, inside, reason, out, -⟩ := quiet.waits t (thread ▸ on)
    have left : t ∈ (scanWaiters s.info (s.value ||| arg) (s.threads.queue .queue)).left := by
      rw [← scanned.queue]
      obtain ⟨q, at'⟩ := ne_none_iff_exists'.mp on
      have mem := (scanned.wf.member t q).mpr at'
      cases q with
      | queue => exact mem
      | holding => rw [scanned.holding] at mem; simp at mem
    rw [info, thread, scanned.value, scanned.inside]
    exact ⟨timed, inside, reason, out, scanWaiters_unmet left⟩
  · rw [scanned.inside] at inside
    by_cases woken : t ∈ (scanWaiters s.info (s.value ||| arg) (s.threads.queue .queue)).woken.map Prod.fst
    · obtain ⟨⟨u, v⟩, mem, rfl⟩ := mem_map.mp woken
      obtain ⟨info, thread⟩ := scanned.woken u v mem
      rw [info, thread]
      refine ⟨rfl, .inr (.inr ⟨rfl, ?_⟩)⟩
      rintro rfl
      exact FlagWaitInfo.not_met_zero _ (scanWaiters_met mem)
    · obtain ⟨info, thread⟩ := scanned.others t woken
      rw [thread] at off ⊢
      rw [info]
      exact quiet.back t timed inside off

theorem Quiet.step {e : FlagEvent cfg T w} (enabled : s.Enabled e) : (s.step e).Quiet := by
  cases e with
  | setbits arg => exact quiet.setbits arg
  | maskbits arg => exact quiet.lower fun _ => FlagWaitInfo.met_mask
  | poll t pattern mode => exact quiet.poll pattern mode
  | wait t pattern mode => exact quiet.wait enabled.1 pattern mode
  | waitTimed t pattern mode past => exact quiet.waitTimed enabled.1 enabled.2 pattern mode past
  | again t timed => exact quiet.again enabled.1 enabled.2
  | exit t => exact quiet.befallOutside (exit quiet.wf (quiet.queue_none enabled.1)) enabled.2
  | delay t => exact quiet.befallOutside (delay quiet.wf (quiet.queue_none enabled.1)) enabled.2
  | suffer e => exact quiet.suffer e
  | setPriority t new =>
    have same := quiet.wf.setPriority t new
    refine ⟨same.wf quiet.wf, ?_, quiet.order.setPriority quiet.wf new, fun u on => ?_, fun u timed inside off => ?_⟩
    · have perm := same.perm .holding
      rw [quiet.holding] at perm
      exact perm.eq_nil
    · obtain ⟨-, sleeps, -, queue⟩ := same.task u
      obtain ⟨timed, inside, reason, rest⟩ := quiet.waits u (queue ▸ on)
      exact ⟨timed, inside, sleeps.trans reason, rest⟩
    · obtain ⟨-, sleeps, wakes, queue⟩ := same.task u
      obtain ⟨free, why⟩ := quiet.back u timed inside (queue ▸ off)
      exact ⟨sleeps.trans free, wakes.symm ▸ why⟩

end

/-- In every run no thread on the queue has its condition met, and `setbits` is the
scan of the waiters: it wakes those whose turn comes at a value that suits them,
with that value, and leaves the others queued in their order. -/
theorem flag_wakes_satisfied_waiters (reach : (machine cfg T w).Reach s) :
    (∀ t ∈ s.threads.queue .queue, ¬ (s.info t).Met s.value) ∧
    ∀ arg, Scanned (scanWaiters s.info (s.value ||| arg) (s.threads.queue .queue)) s (s.setbits arg) ∧
      (∀ t v, (t, v) ∈ (scanWaiters s.info (s.value ||| arg) (s.threads.queue .queue)).woken → v ≠ 0) ∧
      ((s.setbits arg).threads.queue .queue).Sublist (s.threads.queue .queue) ∧
      ((scanWaiters s.info (s.value ||| arg) (s.threads.queue .queue)).woken.map Prod.fst ++
        (s.setbits arg).threads.queue .queue).Perm (s.threads.queue .queue) := by
  have quiet : s.Quiet := by
    refine reach.kept (P := Quiet) ?_ fun s e quiet enabled => quiet.step enabled
    rintro _ ⟨pri, init, rfl⟩
    exact Quiet.initial pri init
  refine ⟨fun t mem => ?_, fun arg => ?_⟩
  · have queued := (quiet.wf.member t .queue).mp mem
    obtain ⟨-, -, -, -, unmet⟩ := quiet.waits t (by simp [queued])
    exact unmet
  · have scanned := setbits_scanned quiet.wf quiet.holding quiet.order arg
    refine ⟨scanned, fun t v woken => ?_, ?_, ?_⟩
    · rintro rfl
      exact FlagWaitInfo.not_met_zero _ (scanWaiters_met woken)
    · rw [scanned.queue]
      exact scanWaiters_sublist
    · rw [scanned.queue]
      exact scanWaiters_perm

/-- Thread 0 waits for bit 0 and clears, thread 1 for any of bits 0 and 1. -/
def gather : List (FlagEvent .twoLevels (Fin 2) 4) :=
  [.suffer (.resume 0), .suffer (.resume 1), .wait 0 1 ⟨false, true⟩, .waitTimed 1 3 ⟨true, false⟩ false]

theorem flag_wakes_satisfied_waiters_gathered :
    (gather.foldl step (initial (fun _ => 0) 0)).threads.queue .queue = [0, 1] ∧
      ((gather.foldl step (initial (fun _ => 0) 0)).setbits 1).threads.queue .queue = [1] ∧
      (((gather.foldl step (initial (fun _ => 0) 0)).setbits 1).info 0).valueOut = 1 := by
  have run := flag_wakes_satisfied_waiters (s := gather.foldl step (initial (fun _ => 0) 0))
    (Machine.Reach.run (.start ⟨_, _, rfl⟩) (by decide))
  refine ⟨by decide, (run.2 1).1.queue.trans (by decide), ?_⟩
  rw [((run.2 1).1.woken 0 1 (by decide)).1]

end Flag

end Ecos
