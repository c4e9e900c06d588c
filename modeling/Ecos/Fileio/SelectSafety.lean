import Ecos.Sync.FlagDoze
import Ecos.Fileio.Select

namespace Ecos.Fileio
open Function (update update_of_ne update_self)
open List Option Select Flag Nat

variable {F : Type}

/-- What is left of a timeout, while a thread is not waiting. It may be negative, and scanning does not count. -/
def SelectCall.Remaining (now : Nat) (c : SelectCall F) (timeout : BitVec 64) : Prop :=
  ∃ rest : Int, c.ticks = BitVec.ofInt 64 rest ∧ rest ≤ timeout.toNat ∧ -now ≤ rest ∧
    c.start + timeout.toNat ≤ now + rest

/-- The deadline has not been set too early. -/
def SelectCall.Timely (now : Nat) (c : SelectCall F) (timeout : BitVec 64) : Prop :=
  match c.phase with
  | .head | .scan _ => c.Remaining now timeout
  | .wait _ => c.start + timeout.toNat ≤ c.ticks.toNat ∧ c.ticks.toNat ≤ timeout.toNat + now
  | .returned .zero => c.start + timeout.toNat ≤ now
  | .out | .returned _ => True

theorem SelectCall.Timely.later {now now' : Nat} {c : SelectCall F} {timeout : BitVec 64} (timely : c.Timely now timeout)
    (later : now ≤ now') : c.Timely now' timeout := by
  have remaining : c.Remaining now timeout → c.Remaining now' timeout := by
    rintro ⟨rest, ticks, most, least, due⟩
    exact ⟨rest, ticks, most, by omega, by omega⟩
  unfold Timely at timely ⊢
  split at timely
  · exact remaining timely
  · exact remaining timely
  · exact ⟨timely.1, by omega⟩
  · omega
  · trivial
  · trivial

theorem SelectCall.Remaining.due {c : SelectCall F} {now : Nat} {timeout : BitVec 64} (remaining : c.Remaining now timeout)
    (small : now + timeout.toNat < 2 ^ 64) :
    c.start + timeout.toNat ≤ (c.ticks + BitVec.ofNat 64 now).toNat ∧
      (c.ticks + BitVec.ofNat 64 now).toNat ≤ timeout.toNat + now := by
  obtain ⟨rest, ticks, most, least, due⟩ := remaining
  have value : ((c.ticks + BitVec.ofNat 64 now).toNat : Int) = rest + now := by
    rw [ticks, BitVec.toNat_add, BitVec.toNat_ofInt, BitVec.toNat_ofNat]
    omega
  omega

namespace Select
variable {cfg : Config} {T : Type} [DecidableEq T] [DecidableEq F] {s s' : Select cfg T F} {t u : T}
  {uniqueId : T → Nat} {fdSetsize : Nat}

/-- What is known of one call. A file that was recorded still has the bit of the thread, or it has been woken and
counted. -/
structure CallInv (uniqueId : T → Nat) (s : Select cfg T F) (t : T) (c : SelectCall F) : Prop where
  sampled : c.sampled ≤ s.wakes
  count : c.wakeCount = BitVec.ofNat 32 c.sampled
  marks : ∀ r ∈ c.recorded, if r.2 then c.sampled < s.wakes else waitFlagOf uniqueId t &&& s.waitFlag r.1 ≠ 0
  time : ∀ timeout, c.tv = some timeout → c.Timely s.now timeout

structure Inv (uniqueId : T → Nat) (s : Select cfg T F) : Prop where
  quiet : s.flag.Quiet
  value : s.flag.value = 0
  count : s.selwakeCount = BitVec.ofNat 32 s.wakes
  calls : ∀ t, CallInv uniqueId s t (s.call t)
  blocked : ∀ t, s.Blocked t → (∀ r ∈ (s.call t).recorded, r.2 = false) ∧
    s.flag.info t = WaitMode.info ⟨true, false⟩ (waitFlagOf uniqueId t)

theorem CallInv.mono {c : SelectCall F} (call : CallInv uniqueId s t c) (wakes : s.wakes ≤ s'.wakes) (now : s.now ≤ s'.now)
    (bits : ∀ f, waitFlagOf uniqueId t &&& s.waitFlag f ≠ 0 → waitFlagOf uniqueId t &&& s'.waitFlag f ≠ 0) :
    CallInv uniqueId s' t c where
  sampled := call.sampled.trans wakes
  count := call.count
  marks r mem := by
    have mark := call.marks r mem
    split at mark
    · next woken =>
      rw [if_pos woken]
      omega
    · next waiting =>
      rw [if_neg waiting]
      exact bits _ mark
  time timeout given := (call.time timeout given).later now

theorem Inv.setCall (inv : Inv uniqueId s) (runs : (s.flag.threads.thread t).Running) {c : SelectCall F}
    (call : CallInv uniqueId s t c) : Inv uniqueId (s.setCall t c) where
  quiet := inv.quiet
  value := inv.value
  count := inv.count
  calls u := by
    by_cases same : u = t
    · subst same
      simp only [setCall, update_self]
      exact call.mono le_rfl le_rfl fun _ on => on
    · simp only [Select.setCall, update_of_ne same]
      exact (inv.calls u).mono le_rfl le_rfl fun _ on => on
  blocked u on := by
    have ne : u ≠ t := by
      rintro rfl
      exact on (inv.quiet.queue_none runs)
    simp only [Select.setCall, update_of_ne ne]
    exact inv.blocked u on

theorem Inv.ease {flag : Flag cfg T 32} (inv : Inv uniqueId s) (eases : Flag.Eases s.flag flag) :
    Inv uniqueId { s with flag } where
  quiet := eases.quiet
  value := eases.value.trans inv.value
  count := inv.count
  calls u := (inv.calls u).mono le_rfl le_rfl fun _ on => on
  blocked u on := by
    obtain ⟨before, info⟩ := eases.stay u on
    obtain ⟨marks, is⟩ := inv.blocked u before
    exact ⟨marks, info.trans is⟩

theorem and_or_ne_zero {a b c : BitVec 32} (on : a &&& b ≠ 0) : a &&& (b ||| c) ≠ 0 := by
  intro none
  refine on (BitVec.eq_of_getLsbD_eq fun i inside => ?_)
  have bit : (a &&& (b ||| c)).getLsbD i = (0 : BitVec 32).getLsbD i := by rw [none]
  rw [BitVec.getLsbD_and, BitVec.getLsbD_or] at bit
  rw [BitVec.getLsbD_and]
  cases first : a.getLsbD i with
  | false => simp
  | true =>
    rw [first] at bit
    simp only [BitVec.ofNat_eq_ofNat, BitVec.getLsbD_zero, Bool.true_and, Bool.or_eq_false_iff] at bit
    simp [bit.1]

theorem waitFlagOf_ne_zero : waitFlagOf uniqueId t ≠ 0 := by
  intro zero
  have bit := congrArg (·.getLsbD (uniqueId t % 32)) zero
  simp [waitFlagOf, mod_lt] at bit

section
variable (inv : Inv uniqueId s)
include inv

theorem Inv.enter (runs : s.Runs t) (nfd : Nat) (sets : List (Option (Nat → Bool)))
    (tv : Option (BitVec 64)) : Inv uniqueId (s.enter fdSetsize t nfd sets tv) := by
  refine inv.setCall runs.1 ⟨(inv.calls t).sampled, (inv.calls t).count, by simp, ?_⟩
  rintro timeout rfl
  by_cases large : nfd > fdSetsize
  · simp [SelectCall.Timely, large]
  · simp only [SelectCall.Timely, large, if_false]
    exact ⟨timeout.toNat, by simp, Int.le_refl _, by omega, Int.le_refl _⟩

theorem Inv.sample (runs : s.Runs t) (head : (s.call t).phase = .head) : Inv uniqueId (s.sample t) := by
  refine inv.setCall runs.1 ⟨le_rfl, inv.count, by simp, fun timeout given => ?_⟩
  have time := (inv.calls t).time timeout given
  rw [SelectCall.Timely, head] at time
  exact time

theorem Inv.selrecord (sip : F) : Inv uniqueId (s.selrecord uniqueId t sip) where
  quiet := inv.quiet
  value := inv.value
  count := inv.count
  calls u := by
    refine (inv.calls u).mono le_rfl le_rfl fun f on => ?_
    rw [Select.selrecord]
    dsimp only
    by_cases same : f = sip
    · subst same
      rw [update_self]
      exact and_or_ne_zero on
    · rwa [update_of_ne same]
  blocked := inv.blocked

theorem Inv.look {todo : List (Nat × Nat)} {entry : Nat × Nat} (runs : s.Runs t)
    (scan : (s.call t).phase = .scan (entry :: todo)) (outcome : FoSelect F) :
    Inv uniqueId (s.look uniqueId t entry todo outcome) := by
  obtain ⟨sampled, count, marks, time⟩ := inv.calls t
  have time : ∀ timeout, (s.call t).tv = some timeout → (s.call t).Remaining s.now timeout := by
    intro timeout given
    have time := time timeout given
    rwa [SelectCall.Timely, scan] at time
  cases outcome with
  | ready => exact inv.setCall runs.1 ⟨sampled, count, marks, time⟩
  | record sip =>
    refine (inv.selrecord sip).setCall runs.1 ⟨sampled, count, fun r mem => ?_, time⟩
    rcases mem_append.mp mem with before | new
    · exact ((inv.selrecord sip).calls t).marks r before
    · obtain rfl := mem_singleton.mp new
      rw [if_neg (by simp), Select.selrecord]
      simp only [update_self]
      rw [BitVec.or_comm]
      refine and_or_ne_zero ?_
      rw [BitVec.and_self]
      exact waitFlagOf_ne_zero
  | notReady => exact inv.setCall runs.1 ⟨sampled, count, marks, time⟩
  | noFile => exact inv.setCall runs.1 ⟨sampled, count, marks, fun _ _ => trivial⟩

theorem Inv.doze {ticks : BitVec 64} (runs : s.Runs t) (unmarked : ∀ r ∈ (s.call t).recorded, r.2 = false)
    (time : ∀ timeout, (s.call t).tv = some timeout →
      (s.call t).start + timeout.toNat ≤ ticks.toNat ∧ ticks.toNat ≤ timeout.toNat + s.now) :
    Inv uniqueId (s.doze uniqueId t ticks) := by
  have dozes : Dozes t (WaitMode.info ⟨true, false⟩ (waitFlagOf uniqueId t)) s.flag
      (s.doze uniqueId t ticks).flag := by
    cases given : (s.call t).tv with
    | none => simpa [Select.doze, given, Select.setCall] using dozes_wait inv.quiet inv.value runs.1
    | some timeout =>
      simpa [Select.doze, given, Select.setCall] using dozes_waitTimed inv.quiet inv.value runs.1 runs.2 _
  have own : (s.doze uniqueId t ticks).call t = { s.call t with
      phase := .wait (polled s.flag.value (waitFlagOf uniqueId t) ⟨true, false⟩).1, ticks := ticks } := by
    simp [Select.doze, Select.setCall]
  have others : ∀ u, u ≠ t → (s.doze uniqueId t ticks).call u = s.call u := fun u ne => by
    simp [Select.doze, Select.setCall, ne]
  refine ⟨dozes.quiet, dozes.value.trans inv.value, inv.count, fun u => ?_, fun u on => ?_⟩
  · by_cases same : u = t
    · subst same
      rw [own]
      exact ⟨(inv.calls u).sampled, (inv.calls u).count, (inv.calls u).marks, time⟩
    · rw [others u same]
      exact (inv.calls u).mono le_rfl le_rfl fun _ on => on
  · by_cases same : u = t
    · subst same
      rw [own]
      exact ⟨unmarked, dozes.self on⟩
    · rw [others u same]
      obtain ⟨before, info⟩ := dozes.stay u same on
      obtain ⟨marks, is⟩ := inv.blocked u before
      exact ⟨marks, info.trans is⟩

end

/-- The counter has not come round since the sample, and the deadline does not wrap. -/
def Fine (s : Select cfg T F) : SelectEvent cfg T F → Prop
  | .finish t _ => s.wakes < (s.call t).sampled + 2 ^ 32 ∧
      ∀ timeout, (s.call t).tv = some timeout → s.now + timeout.toNat < 2 ^ 64
  | _ => True

theorem CallInv.unmarked {c : SelectCall F} (call : CallInv uniqueId s t c) (count : s.selwakeCount = BitVec.ofNat 32 s.wakes)
    (same : c.wakeCount = s.selwakeCount) (near : s.wakes < c.sampled + 2 ^ 32) : ∀ r ∈ c.recorded, r.2 = false := by
  intro r mem
  have mark := call.marks r mem
  split at mark
  · rw [call.count, count] at same
    have mod := congrArg BitVec.toNat same
    rw [BitVec.toNat_ofNat, BitVec.toNat_ofNat] at mod
    omega
  · simpa using ‹¬r.2 = true›

theorem Inv.finish (inv : Inv uniqueId s) (runs : s.Runs t) (scan : (s.call t).phase = .scan []) {signals : Bool}
    (fine : s.Fine (.finish t signals)) : Inv uniqueId (s.finish uniqueId t signals) := by
  obtain ⟨sampled, count, marks, time⟩ := inv.calls t
  have time : ∀ timeout, (s.call t).tv = some timeout → (s.call t).Remaining s.now timeout := by
    intro timeout given
    have time := time timeout given
    rwa [SelectCall.Timely, scan] at time
  rw [Select.finish]
  split
  · exact inv.setCall runs.1 ⟨sampled, count, marks, fun _ _ => trivial⟩
  split
  · exact inv.setCall runs.1 ⟨sampled, count, marks, fun _ _ => trivial⟩
  split
  · next same =>
    have unmarked := (inv.calls t).unmarked inv.count same fine.1
    split
    · split
      · next none =>
        refine inv.setCall runs.1 ⟨sampled, count, marks, fun timeout given => ?_⟩
        obtain ⟨rest, ticks, most, least, due⟩ := time timeout given
        rw [none] at ticks
        have zero := congrArg BitVec.toNat ticks
        rw [BitVec.toNat_ofInt] at zero
        simp only [BitVec.ofNat_eq_ofNat, BitVec.toNat_ofNat] at zero
        show (s.call t).start + timeout.toNat ≤ s.now
        omega
      · exact inv.doze runs unmarked fun timeout given => (time timeout given).due (fine.2 timeout given)
    · next forever =>
      refine inv.doze runs unmarked fun timeout given => ?_
      rw [given] at forever
      simp at forever
  · exact inv.setCall runs.1 ⟨sampled, count, marks, time⟩

theorem Inv.woken {early : BitVec 32} (inv : Inv uniqueId s) (runs : s.Runs t) (wait : (s.call t).phase = .wait early) :
    Inv uniqueId (s.woken t early) := by
  obtain ⟨sampled, count, marks, time⟩ := inv.calls t
  have time : ∀ timeout, (s.call t).tv = some timeout → (s.call t).start + timeout.toNat ≤ (s.call t).ticks.toNat ∧
      (s.call t).ticks.toNat ≤ timeout.toNat + s.now := by
    intro timeout given
    have time := time timeout given
    rwa [SelectCall.Timely, wait] at time
  have clock : s.clock.toNat = s.now % 2 ^ 64 := BitVec.toNat_ofNat ..
  rw [Select.woken]
  generalize (if early ≠ 0 then early else (s.flag.info t).valueOut) = value
  split
  · split
    · refine inv.setCall runs.1 ⟨sampled, count, marks, fun timeout given => ?_⟩
      by_cases past : s.clock ≥ (s.call t).ticks
      · have passed : (s.call t).start + timeout.toNat ≤ s.now := by
          have due := (time timeout given).1
          have reached : (s.call t).ticks.toNat ≤ s.clock.toNat := BitVec.le_def.mp past
          omega
        simpa only [SelectCall.Timely, past, if_true] using passed
      · simp only [SelectCall.Timely, past, if_false]
    · refine inv.setCall runs.1 ⟨sampled, count, marks, fun timeout given => ?_⟩
      obtain ⟨due, most⟩ := time timeout given
      refine ⟨(s.call t).ticks.toNat - s.now, ?_, by omega, by omega, by dsimp only; omega⟩
      refine BitVec.eq_of_toNat_eq ?_
      rw [BitVec.toNat_sub, BitVec.toNat_ofInt, clock]
      omega
  · next forever =>
    refine inv.setCall runs.1 ⟨sampled, count, marks, fun timeout given => ?_⟩
    rw [show (s.call t).tv = some timeout from given] at forever
    simp at forever

theorem met_any {bit value : BitVec 32} : (WaitMode.info ⟨true, false⟩ bit).Met value ↔ bit &&& value ≠ 0 := by
  simp [WaitMode.info, FlagWaitInfo.Met]

theorem CallInv.bit {c : SelectCall F} {r : F × Bool} (call : CallInv uniqueId s t c) (mem : r ∈ c.recorded)
    (unmarked : r.2 = false) : waitFlagOf uniqueId t &&& s.waitFlag r.1 ≠ 0 := by
  have mark := call.marks r mem
  rwa [if_neg (by simp [unmarked])] at mark

theorem Inv.selwakeup (inv : Inv uniqueId s) (sip : F) : Inv uniqueId (s.selwakeup sip) := by
  have marked : ∀ u r, r ∈ ((s.markCalls sip).call u).recorded →
      ∃ r₀ ∈ (s.call u).recorded, r = if r₀.1 = sip then (r₀.1, true) else r₀ := by
    intro u r mem
    obtain ⟨r₀, before, is⟩ := mem_map.mp mem
    exact ⟨r₀, before, is.symm⟩
  rw [Select.selwakeup]
  by_cases some : (s.markCalls sip).waitFlag sip ≠ 0
  · rw [if_pos some]
    obtain ⟨eases, unmet⟩ := setbits_maskbits inv.quiet inv.value (s.waitFlag sip)
      fun u on => by rw [(inv.blocked u on).2]; rfl
    refine ⟨eases.quiet, eases.value.trans inv.value, ?_, fun u => ?_, fun u on => ?_⟩
    · show s.selwakeCount + 1 = BitVec.ofNat 32 (s.wakes + 1)
      rw [inv.count, BitVec.ofNat_add]
      rfl
    · obtain ⟨sampled, count, marks, time⟩ := inv.calls u
      refine ⟨le_succ_of_le sampled, count, fun r mem => ?_, time⟩
      obtain ⟨r₀, before, rfl⟩ := marked u r mem
      by_cases same : r₀.1 = sip
      · rw [if_pos same]
        exact lt_succ_of_le sampled
      · rw [if_neg same]
        have mark := marks r₀ before
        show if r₀.2 = true then (s.call u).sampled < s.wakes + 1
          else waitFlagOf uniqueId u &&& update s.waitFlag sip 0 r₀.1 ≠ 0
        rw [update_of_ne same]
        split at mark
        · next woken =>
          rw [if_pos woken]
          omega
        · next waiting => rwa [if_neg waiting]
    · obtain ⟨queued, info⟩ := eases.stay u on
      obtain ⟨unmarked, is⟩ := inv.blocked u queued
      refine ⟨fun r mem => ?_, info.trans is⟩
      obtain ⟨r₀, before, rfl⟩ := marked u r mem
      have bit := (inv.calls u).bit before (unmarked r₀ before)
      have none := unmet u on
      rw [is, met_any, not_not] at none
      have other : r₀.1 ≠ sip := fun same => bit (same ▸ none)
      rw [if_neg other]
      exact unmarked r₀ before
  · rw [if_neg some]
    have zero : s.waitFlag sip = 0 := not_not.mp some
    have other : ∀ u r₀, r₀ ∈ (s.call u).recorded → r₀.2 = false → r₀.1 ≠ sip := by
      rintro u r₀ before unmarked rfl
      refine (inv.calls u).bit before unmarked ?_
      rw [zero]
      simp
    refine ⟨inv.quiet, inv.value, inv.count, fun u => ?_, fun u on => ?_⟩
    · obtain ⟨sampled, count, marks, time⟩ := inv.calls u
      refine ⟨sampled, count, fun r mem => ?_, time⟩
      obtain ⟨r₀, before, rfl⟩ := marked u r mem
      have mark := marks r₀ before
      by_cases same : r₀.1 = sip
      · have woken : r₀.2 = true := by
          by_contra waiting
          exact other u r₀ before (by simpa using waiting) same
        rw [if_pos woken] at mark
        rw [if_pos same]
        exact mark
      · rw [if_neg same]
        exact mark
    · obtain ⟨unmarked, is⟩ := inv.blocked u on
      refine ⟨fun r mem => ?_, is⟩
      obtain ⟨r₀, before, rfl⟩ := marked u r mem
      rw [if_neg (other u r₀ before (unmarked r₀ before))]
      exact unmarked r₀ before

theorem Inv.step {e : SelectEvent cfg T F} (inv : Inv uniqueId s) (fine : s.Fine e)
    (taken : s.step fdSetsize uniqueId e = some s') : Inv uniqueId s' := by
  cases e with
  | enter t nfd sets tv =>
    obtain ⟨⟨runs, _⟩, rfl⟩ : (s.Runs t ∧ _) ∧ _ = s' := by simpa [Select.step] using taken
    exact inv.enter runs nfd sets tv
  | sample t =>
    obtain ⟨⟨runs, head⟩, rfl⟩ : (s.Runs t ∧ _) ∧ _ = s' := by simpa [Select.step] using taken
    exact inv.sample runs head
  | look t outcome =>
    rw [Select.step] at taken
    split at taken
    · next runs =>
      split at taken
      · next scan =>
        obtain rfl := some.inj taken
        exact inv.look runs scan outcome
      · simp at taken
    · simp at taken
  | finish t signals =>
    obtain ⟨⟨runs, scan⟩, rfl⟩ : (s.Runs t ∧ _) ∧ _ = s' := by simpa [Select.step] using taken
    exact inv.finish runs scan fine
  | again t timed =>
    obtain ⟨⟨runs, inside⟩, rfl⟩ : (_ ∧ _) ∧ _ = s' := by simpa [Select.step] using taken
    exact inv.ease (.again inv.quiet runs inside)
  | woken t =>
    rw [Select.step] at taken
    split at taken
    · next runs =>
      split at taken
      · next wait =>
        obtain rfl := some.inj taken
        exact inv.woken runs wait
      · simp at taken
    · simp at taken
  | leave t =>
    rw [Select.step] at taken
    split at taken
    · obtain rfl := some.inj taken
      refine ⟨inv.quiet, inv.value, inv.count, fun u => ?_, fun u on => ?_⟩
      · obtain ⟨sampled, count, marks, time⟩ := inv.calls u
        by_cases same : u = t
        · subst same
          simp only [Select.setCall, update_self]
          exact ⟨sampled, count, marks, fun _ _ => trivial⟩
        · simp only [Select.setCall, update_of_ne same]
          exact ⟨sampled, count, marks, time⟩
      · have before := inv.blocked u on
        by_cases same : u = t
        · subst same
          simpa only [Select.setCall, update_self] using before
        · simpa only [Select.setCall, update_of_ne same] using before
    · simp at taken
  | selwakeup sip =>
    obtain rfl := some.inj taken
    exact inv.selwakeup sip
  | tick =>
    obtain rfl := some.inj taken
    exact ⟨inv.quiet, inv.value, inv.count, fun u => (inv.calls u).mono le_rfl (le_succ _) fun _ on => on,
      inv.blocked⟩
  | suffer e =>
    obtain rfl := some.inj taken
    exact inv.ease (.suffer inv.quiet e)
  | setPriority t new =>
    obtain rfl := some.inj taken
    exact inv.ease (.setPriority inv.quiet new)

theorem Inv.initial (pri : T → Priority cfg) : Inv uniqueId (initial pri : Select cfg T F) where
  quiet := Quiet.initial pri 0
  value := rfl
  count := rfl
  calls _ := ⟨le_rfl, rfl, fun _ mem => absurd mem (by simp [Select.initial]), by simp [Select.initial]⟩
  blocked t on := absurd rfl on

/-- In every run in which the counter does not come round within a scan and no deadline wraps: a blocked thread has
recorded no file that has been woken since, and a call with a timeout returns zero only when its time is over. -/
theorem select_awake (reach : (machine fdSetsize uniqueId Fine).Reach s) :
    (∀ t, s.Blocked t → ∀ f, (f, true) ∉ (s.call t).recorded) ∧
      ∀ t timeout, (s.call t).tv = some timeout → (s.call t).phase = .returned .zero →
        (s.call t).start + timeout.toNat ≤ s.now := by
  have inv : Inv uniqueId s := by
    refine reach.invariant ?_ ?_
    · rintro s ⟨pri, rfl⟩
      exact .initial pri
    · rintro s s' inv ⟨e, fine, taken⟩
      exact inv.step fine taken
  refine ⟨fun t on f mem => ?_, fun t timeout given zero => ?_⟩
  · exact absurd ((inv.blocked t on).1 (f, true) mem) (by simp)
  · have time := (inv.calls t).time timeout given
    rwa [SelectCall.Timely, zero] at time

theorem setbits_empty {flag : Flag cfg T 32} (queue : flag.threads.queue .queue = [])
    (holding : flag.threads.queue .holding = []) (arg : BitVec 32) :
    flag.setbits arg = { flag with value := flag.value ||| arg } := by
  simp [setbits, queue, offerAll, holding, putBack, withThreads]

theorem selwakeup_of {sip : F} (waits : s.waitFlag sip ≠ 0) : s.selwakeup sip = { s.markCalls sip with
    flag := (s.flag.setbits (s.waitFlag sip)).maskbits 0
    waitFlag := update s.waitFlag sip 0
    selwakeCount := s.selwakeCount + 1
    wakes := s.wakes + 1 } := if_pos waits

theorem reach_events {Ok : Select cfg T F → SelectEvent cfg T F → Prop} {es : List (SelectEvent cfg T F)}
    (reach : (machine fdSetsize uniqueId Ok).Reach s) (ok : ∀ e ∈ es, ∀ s, Ok s e)
    (run : es.foldlM (fun s e => s.step fdSetsize uniqueId e) s = some s') : (machine fdSetsize uniqueId Ok).Reach s' := by
  induction es generalizing s with
  | nil =>
    obtain rfl : s = s' := by simpa using run
    exact reach
  | cons e es ih =>
    obtain ⟨mid, taken, run⟩ := bind_eq_some_iff.mp (by simpa using run)
    exact ih (.next reach ⟨e, ok e (mem_cons_self ..) s, taken⟩)
      (fun e' mem => ok e' (mem_cons_of_mem _ mem)) run

section Runs

/-- A thread looks at one descriptor, for which the file `sip` is recorded. -/
def recording (t : Fin 2) (sip : Bool) : List (SelectEvent .twoLevels (Fin 2) Bool) :=
  [.suffer (.resume t), .enter t 1 [some (· = 0)] none, .sample t, .look t (.record sip)]

def recordingRun : Option (Select .twoLevels (Fin 2) Bool) :=
  (recording 0 false).foldlM (fun s e => s.step 256 Fin.val e) (initial fun _ => 0)

theorem select_awake_blocked : ∃ s : Select .twoLevels (Fin 2) Bool, s.Blocked 0 ∧
    (s.call 0).recorded = [(false, false)] ∧ ∀ f, (f, true) ∉ (s.call 0).recorded := by
  obtain ⟨s, run⟩ : ∃ s, recordingRun = some s := Option.isSome_iff_exists.mp (by decide +kernel)
  have facts : recordingRun.map (fun s => (s.wakes, (s.call 0).sampled, (s.call 0).tv)) = some (0, 0, none) := by
    decide +kernel
  rw [run, Option.map_some, Option.some.injEq] at facts
  obtain ⟨wakes, rest⟩ := Prod.mk.inj facts
  obtain ⟨sampled, tv⟩ := Prod.mk.inj rest
  have fine : s.Fine (.finish 0 false) := by
    refine ⟨by rw [wakes, sampled]; decide, fun timeout given => ?_⟩
    rw [tv] at given
    simp at given
  have result : recordingRun.bind (fun s => (s.step 256 Fin.val (.finish 0 false)).map fun s =>
      (decide (s.Blocked 0), (s.call 0).recorded)) = some (true, [(false, false)]) := by decide +kernel
  rw [run, Option.bind_some] at result
  obtain ⟨s', taken, result⟩ := Option.map_eq_some_iff.mp result
  obtain ⟨blocked, recorded⟩ := Prod.mk.inj result
  have reach : (machine 256 Fin.val Fine).Reach s := reach_events (.start ⟨_, rfl⟩) (by
    intro e mem s
    simp only [recording, List.mem_cons, List.not_mem_nil, or_false] at mem
    rcases mem with rfl | rfl | rfl | rfl <;> trivial) run
  have blocked := of_decide_eq_true blocked
  exact ⟨s', blocked, recorded, (select_awake (.next reach ⟨_, fine, taken⟩)).1 0 blocked⟩

/-- Any run at all. -/
abbrev anyRun : Machine (Select .twoLevels (Fin 2) Bool) := machine 256 Fin.val fun _ _ => True

/-- Thread 0 has recorded a file that has been woken, and thread 1 is about to scan. -/
structure Lap (s : Select .twoLevels (Fin 2) Bool) (n : Nat) : Prop where
  reach : anyRun.Reach s
  queue : s.flag.threads.queue .queue = []
  holding : s.flag.threads.queue .holding = []
  value : s.flag.value = 0
  runs : ∀ t, s.Runs t
  victim : (s.call 0).phase = .scan [] ∧ (s.call 0).num = 0 ∧ (s.call 0).tv = none ∧ (s.call 0).wakeCount = 0 ∧
    (s.call 0).recorded = [(false, true)]
  head : (s.call 1).phase = .head
  selection : (s.call 1).selection = [(0, 0)]
  count : s.selwakeCount = BitVec.ofNat 32 n

/-- Thread 1 records the other file, which is woken at once. -/
def lapRun (s : Select .twoLevels (Fin 2) Bool) : Select .twoLevels (Fin 2) Bool :=
  ((s.sample 1).look Fin.val 1 (0, 0) [] (.record true)).selwakeup true

theorem lapRun_waits (s : Select .twoLevels (Fin 2) Bool) :
    ((s.sample 1).look Fin.val 1 (0, 0) [] (.record true)).waitFlag true ≠ 0 := by
  simp only [look, setCall, selrecord, update_self]
  rw [BitVec.or_comm]
  intro none
  have both : waitFlagOf Fin.val (1 : Fin 2) &&& (waitFlagOf Fin.val (1 : Fin 2) ||| (s.sample 1).waitFlag true) ≠ 0 := by
    refine and_or_ne_zero ?_
    rw [BitVec.and_self]
    exact waitFlagOf_ne_zero
  rw [none] at both
  exact both (by simp)

theorem Lap.reachRun {s : Select .twoLevels (Fin 2) Bool} {n : Nat} (lap : Lap s n) : anyRun.Reach (lapRun s) := by
  have sampled : s.step 256 Fin.val (.sample 1) = some (s.sample 1) := if_pos ⟨lap.runs 1, lap.head⟩
  have runs : (s.sample 1).Runs 1 := lap.runs 1
  have scan : ((s.sample 1).call 1).phase = .scan [(0, 0)] := by
    simp [sample, setCall, lap.selection]
  have looked : (s.sample 1).step 256 Fin.val (.look 1 (.record true)) =
      some ((s.sample 1).look Fin.val 1 (0, 0) [] (.record true)) := by
    rw [step, if_pos runs, scan]
  exact .next (.next (.next lap.reach ⟨_, trivial, sampled⟩) ⟨_, trivial, looked⟩) ⟨.selwakeup true, trivial, rfl⟩

theorem Lap.flagRun {s : Select .twoLevels (Fin 2) Bool} {n : Nat} (lap : Lap s n) :
    (lapRun s).flag = s.flag ∧ (lapRun s).selwakeCount = s.selwakeCount + 1 := by
  rw [lapRun, selwakeup_of (lapRun_waits s)]
  refine ⟨?_, rfl⟩
  have set := setbits_empty lap.queue lap.holding
    (((s.sample 1).look Fin.val 1 (0, 0) [] (.record true)).waitFlag true)
  have zero : ∀ x : BitVec 32, (x &&& 0) = s.flag.value := fun x => by rw [lap.value]; simp
  show (s.flag.setbits _).maskbits 0 = s.flag
  rw [show _ = _ from set, maskbits]
  rw [zero]

theorem lapRun_call (s : Select .twoLevels (Fin 2) Bool) : (lapRun s).call 0 = { s.call 0 with
      recorded := (s.call 0).recorded.map fun r => if r.1 = true then (r.1, true) else r } ∧
      ((lapRun s).call 1).phase = .scan [] ∧ ((lapRun s).call 1).num = 0 ∧
      ((lapRun s).call 1).wakeCount = s.selwakeCount ∧ ((lapRun s).call 1).selection = (s.call 1).selection := by
  rw [lapRun, selwakeup_of (lapRun_waits s)]
  refine ⟨?_, ?_, ?_, ?_, ?_⟩
  all_goals simp [markCalls, look, setCall, selrecord, sample]

theorem Lap.next {s : Select .twoLevels (Fin 2) Bool} {n : Nat} (lap : Lap s n) : ∃ s', Lap s' (n + 1) := by
  obtain ⟨flag, count⟩ := lap.flagRun
  obtain ⟨zero, scan, num, sampled, selection⟩ := lapRun_call s
  have runs : ∀ t, (lapRun s).Runs t := fun t => by
    rw [Runs, flag]
    exact lap.runs t
  have moved : ((lapRun s).call 1).wakeCount ≠ (lapRun s).selwakeCount := by
    rw [sampled, count]
    intro same
    have value := congrArg BitVec.toNat same
    rw [BitVec.toNat_add] at value
    simp only [BitVec.ofNat_eq_ofNat, BitVec.toNat_ofNat] at value
    omega
  have finished : (lapRun s).finish Fin.val 1 false = (lapRun s).setCall 1 { (lapRun s).call 1 with phase := .head } := by
    rw [finish, if_neg (by simp [num]), if_neg (by simp), if_neg moved]
  refine ⟨(lapRun s).finish Fin.val 1 false, ?_⟩
  have taken : (lapRun s).step 256 Fin.val (.finish 1 false) = some ((lapRun s).finish Fin.val 1 false) :=
    if_pos ⟨runs 1, scan⟩
  have reach : anyRun.Reach ((lapRun s).finish Fin.val 1 false) := .next lap.reachRun ⟨_, trivial, taken⟩
  rw [finished] at reach ⊢
  have victim : ((lapRun s).setCall 1 { (lapRun s).call 1 with phase := .head }).call 0 = (lapRun s).call 0 := by
    simp [setCall]
  obtain ⟨phase, none, tv, wakeCount, recorded⟩ := lap.victim
  refine ⟨reach, ?_, ?_, ?_, runs, ?_, ?_, ?_, ?_⟩
  · show (lapRun s).flag.threads.queue .queue = []
    rw [flag, lap.queue]
  · show (lapRun s).flag.threads.queue .holding = []
    rw [flag, lap.holding]
  · show (lapRun s).flag.value = 0
    rw [flag, lap.value]
  · rw [victim, zero]
    refine ⟨phase, none, tv, wakeCount, ?_⟩
    rw [recorded]
    rfl
  · simp [setCall]
  · simpa [setCall, lap.selection] using selection
  · show (lapRun s).selwakeCount = _
    rw [count, lap.count, BitVec.ofNat_add]
    rfl

/-- Thread 0 records a file, which is woken, and thread 1 enters. -/
def lapEvents : List (SelectEvent .twoLevels (Fin 2) Bool) :=
  recording 0 false ++ [.selwakeup false, .suffer (.resume 1), .enter 1 1 [some (· = 0)] none]

def lapStart : Option (Select .twoLevels (Fin 2) Bool) :=
  lapEvents.foldlM (fun s e => s.step 256 Fin.val e) (initial fun _ => 0)

theorem lap_start : ∃ s, Lap s 1 := by
  obtain ⟨s, run⟩ : ∃ s, lapStart = some s := isSome_iff_exists.mp (by decide +kernel)
  have facts : lapStart.map (fun s => (s.flag.threads.queue .queue, s.flag.threads.queue .holding, s.flag.value)) =
      some ([], [], 0) := by decide +kernel
  have calls : lapStart.map (fun s => ((s.call 0).phase, (s.call 0).num, (s.call 0).recorded)) =
      some (.scan [], 0, [(false, true)]) := by decide +kernel
  have times : lapStart.map (fun s => ((s.call 0).tv, (s.call 0).wakeCount)) = some (none, 0) := by decide +kernel
  have others : lapStart.map (fun s => ((s.call 1).phase, (s.call 1).selection, s.selwakeCount, decide (s.Runs 0),
      decide (s.Runs 1))) = some (.head, [(0, 0)], 1, true, true) := by decide +kernel
  rw [run, map_some, some.injEq] at facts calls times others
  simp only [Prod.mk.injEq] at facts calls times others
  obtain ⟨queue, holding, value⟩ := facts
  obtain ⟨phase, num, recorded⟩ := calls
  obtain ⟨tv, wakeCount⟩ := times
  obtain ⟨head, selection, count, zero, one⟩ := others
  refine ⟨s, reach_events (.start ⟨_, rfl⟩) (fun _ _ _ => trivial) run, queue, holding, value, fun t => ?_,
    ⟨phase, num, tv, wakeCount, recorded⟩, head, selection, count⟩
  match t with
  | 0 => exact of_decide_eq_true zero
  | 1 => exact of_decide_eq_true one

theorem lap_many (n : Nat) : ∃ s, Lap s (n + 1) := by
  induction n with
  | zero => exact lap_start
  | succ n ih =>
    obtain ⟨s, lap⟩ := ih
    exact lap.next

/-- After as many wakeups as the counter has values, a thread goes to sleep on a file that has been woken. -/
theorem sleeps_through : ¬∀ s, anyRun.Reach s → ∀ t, s.Blocked t → ∀ f, (f, true) ∉ (s.call t).recorded := by
  intro always
  obtain ⟨s, lap⟩ := lap_many (2 ^ 32 - 1)
  obtain ⟨phase, num, tv, wakeCount, recorded⟩ := lap.victim
  have round : s.selwakeCount = 0 := by
    rw [lap.count]
    decide
  have finished : s.finish Fin.val 0 false = s.doze Fin.val 0 (s.call 0).ticks := by
    rw [Select.finish, if_neg (by simp [num]), if_neg (by simp), if_pos (by rw [wakeCount, round]), if_neg (by simp [tv])]
  have taken : s.step 256 Fin.val (.finish 0 false) = some (s.finish Fin.val 0 false) := if_pos ⟨lap.runs 0, phase⟩
  rw [finished] at taken
  refine always _ (.next lap.reach ⟨_, trivial, taken⟩) 0 ?_ false ?_
  · have failed : ¬(Flag.polled s.flag.value (waitFlagOf Fin.val (0 : Fin 2)) ⟨true, false⟩).1 ≠ 0 := by
      rw [lap.value, Flag.polled_zero]
      simp
    simp only [Blocked, Select.doze, tv, Select.setCall, Flag.wait, if_neg failed, Flag.poll_eq failed]
    simp [Flag.test, Flag.setInfo, WaitMode.info, Flag.setInside, Flag.withThreads, Threads.block_thread_self, Thread.blocked]
  · simp [Select.doze, Select.setCall, recorded]

end Runs

end Select

end Ecos.Fileio
