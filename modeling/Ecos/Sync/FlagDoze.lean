import Ecos.Sync.FlagSafety

namespace Ecos
open Threads Flag List Option

section Scan
variable {T : Type} {w : Nat} {info : T → FlagWaitInfo w} {value : BitVec w} {l : List T}

theorem scanWaiters_value_kept (kept : ∀ t ∈ l, (info t).doClear = false) : (scanWaiters info value l).value = value := by
  induction l with
  | nil => rfl
  | cons t l ih =>
    have rest := ih fun u mem => kept u (mem_cons_of_mem _ mem)
    unfold scanWaiters
    split
    · rw [kept t (mem_cons_self ..)]
      exact rest
    · exact rest

end Scan

namespace Flag
variable {cfg : Config} {T : Type} {w : Nat} [DecidableEq T] {s s' : Flag cfg T w} {t : T}

/-- A step by which nobody gets on the queue. -/
structure Eases (s s' : Flag cfg T w) : Prop where
  quiet : s'.Quiet
  value : s'.value = s.value
  stay : ∀ u, (s'.threads.thread u).queue ≠ none → (s.threads.thread u).queue ≠ none ∧ s'.info u = s.info u

theorem Eases.suffer (quiet : s.Quiet) (e : Outside T) : Eases s (s.withThreads (s.threads.suffer e)) := by
  refine ⟨quiet.suffer e, rfl, fun u on => ⟨?_, rfl⟩⟩
  obtain ⟨q, at'⟩ := ne_none_iff_exists'.mp on
  have befalls := Befalls.suffer quiet.wf e
  have before := (quiet.wf.member u q).mp ((befalls.subset q).subset ((befalls.wf.member u q).mpr at'))
  simp [before]

theorem Eases.setPriority (quiet : s.Quiet) (new : Priority cfg) : Eases s (s.withThreads (s.threads.setPriority t new)) := by
  have stepped : (s.withThreads (s.threads.setPriority t new)).Quiet := Quiet.step (e := .setPriority t new) quiet trivial
  refine ⟨stepped, rfl, fun u on => ⟨?_, rfl⟩⟩
  obtain ⟨-, -, -, queue⟩ := (quiet.wf.setPriority t new).task u
  exact queue ▸ on

theorem Eases.again (quiet : s.Quiet) {timed : Bool} (runs : (s.threads.thread t).Running)
    (inside : s.inside t = some timed) : Eases s (s.again t timed) := by
  have result : s.again t timed = s.setInside t none := by
    obtain ⟨-, why⟩ := quiet.back t timed inside (quiet.queue_none runs)
    rcases why with broken | ⟨late, rfl⟩ | ⟨done, out⟩
    · simp [Flag.again, broken]
    · simp [Flag.again, late]
    · have left : s.test t timed = s.setInside t none := if_neg out
      simpa [Flag.again, done] using left
  rw [result]
  exact ⟨quiet.leave runs, rfl, fun _ on => ⟨on, rfl⟩⟩

theorem setbits_maskbits (quiet : s.Quiet) (zero : s.value = 0) (arg : BitVec w)
    (kept : ∀ u, (s.threads.thread u).queue ≠ none → (s.info u).doClear = false) :
    Eases s ((s.setbits arg).maskbits 0) ∧
      ∀ u, (((s.setbits arg).maskbits 0).threads.thread u).queue ≠ none → ¬(s.info u).Met arg := by
  have after := quiet.setbits arg
  have scanned := setbits_scanned quiet.wf quiet.holding quiet.order arg
  have same : ∀ u, ((s.setbits arg).threads.thread u).queue ≠ none →
      (s.setbits arg).info u = s.info u ∧ (s.setbits arg).threads.thread u = s.threads.thread u := by
    intro u on
    refine scanned.others u fun mem => on ?_
    obtain ⟨⟨v, value⟩, among, rfl⟩ := mem_map.mp mem
    rw [(scanned.woken v value among).2]
    rfl
  have value : (s.setbits arg).value = arg := by
    rw [scanned.value, scanWaiters_value_kept, zero]
    · simp
    · intro u mem
      exact kept u (by simp [(quiet.wf.member u .queue).mp mem])
  refine ⟨⟨after.lower fun _ => FlagWaitInfo.met_mask, ?_, fun u on => ?_⟩, fun u on met => ?_⟩
  · rw [zero]
    simp [maskbits]
  · obtain ⟨info, thread⟩ := same u on
    exact ⟨thread ▸ on, info⟩
  · obtain ⟨_, _, _, _, unmet⟩ := after.waits u on
    rw [(same u on).1, value] at unmet
    exact unmet met

/-- After a call of either form of `wait` only the caller may be new on the queue. -/
structure Dozes (t : T) (p : FlagWaitInfo w) (s s' : Flag cfg T w) : Prop where
  quiet : s'.Quiet
  value : s'.value = s.value
  stay : ∀ u, u ≠ t → (s'.threads.thread u).queue ≠ none → (s.threads.thread u).queue ≠ none ∧ s'.info u = s.info u
  self : (s'.threads.thread t).queue ≠ none → s'.info t = p

theorem dozes_test {p : FlagWaitInfo w} (quiet : s.Quiet) (runs : (s.threads.thread t).Running) (out : p.valueOut = 0)
    (unmet : ¬p.Met s.value) (timed : Bool) : Dozes t p s ((s.setInfo t p).test t timed) := by
  have result : (s.setInfo t p).test t timed =
      ((s.setInfo t p).withThreads (s.threads.block t .queue (waitReason timed))).setInside t (some timed) := by
    simp [test, setInfo, out]
  refine ⟨quiet.block runs p out unmet timed, ?_, fun u ne on => ?_, fun _ => ?_⟩
  · rw [result]
    rfl
  · rw [result] at on ⊢
    have thread : (s.threads.block t .queue (waitReason timed)).thread u = s.threads.thread u :=
      block_thread_of_ne ne
    simp only [setInside, withThreads, thread] at on
    exact ⟨on, by simp [setInside, withThreads, setInfo, ne]⟩
  · rw [result]
    simp [setInside, withThreads, setInfo]

variable {pattern : BitVec w} {mode : WaitMode}

theorem polled_zero : (polled (0 : BitVec w) pattern mode).1 = 0 := by
  rw [polled_fst, if_neg (FlagWaitInfo.not_met_zero _)]

theorem dozes_wait (quiet : s.Quiet) (zero : s.value = 0) (runs : (s.threads.thread t).Running) :
    Dozes t (mode.info pattern) s (s.wait t pattern mode) := by
  have failed : ¬(polled s.value pattern mode).1 ≠ 0 := by rw [zero, polled_zero]; simp
  rw [wait, if_neg failed, poll_eq failed]
  exact dozes_test quiet runs rfl (polled_eq_zero failed).1 false

theorem dozes_waitTimed (quiet : s.Quiet) (zero : s.value = 0) (runs : (s.threads.thread t).Running)
    (outside : s.inside t = none) (past : Bool) : Dozes t (mode.info pattern) s (s.waitTimed t pattern mode past) := by
  have failed : ¬(polled s.value pattern mode).1 ≠ 0 := by rw [zero, polled_zero]; simp
  have armed : Befalls t s.threads (s.threads.setTimer t past) :=
    Befalls.setTimer quiet.wf (quiet.queue_none runs)
  have timed := quiet.befallOutside armed outside
  have back : ∀ u, ((s.threads.setTimer t past).thread u).queue ≠ none → (s.threads.thread u).queue ≠ none := by
    intro u on
    obtain ⟨q, at'⟩ := ne_none_iff_exists'.mp on
    have before := (quiet.wf.member u q).mp ((armed.subset q).subset ((armed.wf.member u q).mpr at'))
    simp [before]
  rw [waitTimed, if_neg failed, poll_eq failed]
  dsimp only
  split
  · refine ⟨timed.setInfo outside _, rfl, fun u ne on => ⟨back u on, ?_⟩, fun _ => ?_⟩
    · simp [setInfo, withThreads, ne]
    · simp [setInfo, withThreads]
  · have dozes := dozes_test timed (setTimer_thread runs).1 rfl (polled_eq_zero failed).1 true
    exact ⟨dozes.quiet, dozes.value, fun u ne on => ⟨back u (dozes.stay u ne on).1, (dozes.stay u ne on).2⟩, dozes.self⟩

end Flag

end Ecos
