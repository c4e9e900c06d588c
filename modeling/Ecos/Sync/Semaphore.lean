import Ecos.Sync.Withdraw
import Ecos.Lib.Machine

namespace Ecos
open Threads Thread Finset ThreadState Befalls

/-- A `cyg_count32` after arithmetic on it. -/
def count32 (n : Int) : Int := n.bmod (2 ^ 32)

/-- Threads and one `Cyg_Counting_Semaphore`. `inside t` says that thread `t` is in
the loop of `wait`, and whether of the timed one. The other fields record the
history: `woken` the threads that a `post` has woken and that have not tested the
count since, `posts` and `taken` the posts made and the waits that succeeded. -/
structure Semaphore (cfg : Config) (T : Type) where
  threads : Threads cfg T Unit
  count : Int
  inside : T → Option Bool
  woken : Finset T
  posts : Nat
  taken : Nat

namespace Semaphore
variable {cfg : Config} {T : Type} [DecidableEq T]

def withThreads (s : Semaphore cfg T) (threads : Threads cfg T Unit) : Semaphore cfg T := { s with threads := threads }

def setInside (s : Semaphore cfg T) (t : T) (o : Option Bool) : Semaphore cfg T :=
  { s with inside := Function.update s.inside t o }

def arrive (s : Semaphore cfg T) (t : T) : Semaphore cfg T := { s with woken := s.woken.erase t }

/-- The decrement that a successful wait ends with. -/
def take (s : Semaphore cfg T) : Semaphore cfg T := { s with count := count32 (s.count - 1), taken := s.taken + 1 }

/-- The test at the head of the loop, and its body up to the `reschedule`. -/
def test (s : Semaphore cfg T) (t : T) (timed : Bool) : Semaphore cfg T :=
  if s.count = 0 then (s.withThreads (s.threads.block t () (Threads.waitReason timed))).setInside t (some timed)
  else s.take.setInside t none

def wait (s : Semaphore cfg T) (t : T) : Semaphore cfg T := s.test t false

/-- The timed `wait`; `past` says that the timeout has gone by already. -/
def waitTimed (s : Semaphore cfg T) (t : T) (past : Bool) : Semaphore cfg T :=
  let s := s.withThreads (s.threads.setTimer t past)
  if (s.threads.thread t).wakeReason ≠ .none ∧ s.count = 0 then s else s.test t true

/-- Either form of `wait` after its `reschedule` returns. -/
def again (s : Semaphore cfg T) (t : T) (timed : Bool) : Semaphore cfg T :=
  let s := s.arrive t
  match (s.threads.thread t).wakeReason with
  | .timeout => if timed then s.setInside t none else s.test t timed
  | .destruct | .brk => s.setInside t none
  | .exit => s.withThreads (s.threads.exit t)
  | .none | .wait | .delay | .done => s.test t timed

def trywait (s : Semaphore cfg T) : Semaphore cfg T := if 0 < s.count then s.take else s

def post (s : Semaphore cfg T) : Semaphore cfg T :=
  let s := { s with count := count32 (s.count + 1), posts := s.posts + 1 }
  match s.threads.queue () with
  | [] => s
  | thread :: _ => { s with threads := s.threads.wakeHead () .done, woken := insert thread s.woken }

end Semaphore

/-- What can happen. Nobody is killed. -/
inductive SemaphoreEvent (cfg : Config) (T : Type)
  | wait (t : T) | waitTimed (t : T) (past : Bool) | again (t : T) (timed : Bool) | trywait (t : T) | post
  | exit (t : T) | delay (t : T) | suffer (e : Outside T) | setPriority (t : T) (new : Priority cfg)

namespace Semaphore
variable {cfg : Config} {T : Type} [DecidableEq T]

def Enabled (s : Semaphore cfg T) : SemaphoreEvent cfg T → Prop
  | .wait t | .waitTimed t _ | .trywait t | .exit t | .delay t => (s.threads.thread t).Running ∧ s.inside t = none
  | .again t timed => (s.threads.thread t).Running ∧ s.inside t = some timed
  | .post | .suffer _ | .setPriority .. => True

instance (s : Semaphore cfg T) : ∀ e, Decidable (s.Enabled e)
  | .wait _ | .waitTimed .. | .trywait _ | .exit _ | .delay _ | .again .. => inferInstanceAs (Decidable (_ ∧ _))
  | .post | .suffer _ | .setPriority .. => inferInstanceAs (Decidable True)

def step (s : Semaphore cfg T) : SemaphoreEvent cfg T → Semaphore cfg T
  | .wait t => s.wait t
  | .waitTimed t past => s.waitTimed t past
  | .again t timed => s.again t timed
  | .trywait _ => s.trywait
  | .post => s.post
  | .exit t => s.withThreads (s.threads.exit t)
  | .delay t => s.withThreads ((s.threads.setSleepReason t .delay).sleep t)
  | .suffer e => s.withThreads (s.threads.suffer e)
  | .setPriority t new => s.withThreads (s.threads.setPriority t new)

def initial (pri : T → Priority cfg) (n : Int) : Semaphore cfg T where
  threads := ⟨fun t => Thread.create (pri t), fun _ => []⟩
  count := n
  inside _ := none
  woken := ∅
  posts := 0
  taken := 0

/-- The runs from a count of `n` in which every event meets `Ok`. -/
def machine (n : Int) (Ok : Semaphore cfg T → SemaphoreEvent cfg T → Prop) : Machine (Semaphore cfg T) :=
  .guided (fun s => ∃ pri, s = initial pri n) (fun s e => s.Enabled e ∧ Ok s e) step

end Semaphore

theorem count32_eq {n : Int} (low : -2 ^ 31 ≤ n) (high : n < 2 ^ 31) : count32 n = n := by
  unfold count32
  rw [Int.bmod_eq_iff (by decide)]
  omega

namespace Semaphore
variable {cfg : Config} {T : Type} [DecidableEq T]

/-- The permits are accounted for; and while threads are queued, all but `slack`
of them have somebody on the way. -/
structure FairBut (slack : Nat) (n : Int) (s : Semaphore cfg T) : Prop where
  wf : s.threads.Wf
  waits : ∀ t, (s.threads.thread t).queue ≠ none →
    s.inside t ≠ none ∧ (s.threads.thread t).state.exited = false
  onWay : ∀ t ∈ s.woken, s.inside t ≠ none ∧ (s.threads.thread t).Afoot ∧ (s.threads.thread t).wakeReason = .done
  count : s.count = n + s.posts - s.taken
  nonneg : 0 ≤ s.count
  fits : s.count < 2 ^ 31
  pass : s.threads.queue () ≠ [] → s.count ≤ s.woken.card + slack

abbrev Fair (n : Int) (s : Semaphore cfg T) : Prop := s.FairBut 0 n

variable {slack : Nat} {n : Int} {s : Semaphore cfg T} {t : T} {threads : Threads cfg T Unit}

theorem Fair.initial (pri : T → Priority cfg) (nonneg : 0 ≤ n) (fits : n < 2 ^ 31) :
    (initial pri n : Semaphore cfg T).Fair n where
  wf := ⟨fun t q => by simp [Semaphore.initial, create], fun q => by simp [Semaphore.initial],
    fun t q queued => by simp [Semaphore.initial, create] at queued,
    fun t q queued => by simp [Semaphore.initial, create] at queued⟩
  waits t queued := by simp [Semaphore.initial, create] at queued
  onWay t woken := by simp [Semaphore.initial] at woken
  count := by simp [Semaphore.initial]
  nonneg := nonneg
  fits := fits
  pass waiting := by simp [Semaphore.initial] at waiting

section
variable (fair : s.FairBut slack n)
include fair

theorem FairBut.befall (befalls : Threads.Befalls t s.threads threads)
    (calm : t ∈ s.woken → (threads.thread t).Afoot ∧
      (threads.thread t).wakeReason = (s.threads.thread t).wakeReason) :
    (s.withThreads threads).FairBut slack n where
  wf := befalls.wf
  waits u queued := by
    obtain ⟨q, on⟩ := Option.ne_none_iff_exists'.mp queued
    have before := (fair.wf.member u q).mp ((befalls.subset q).subset ((befalls.wf.member u q).mpr on))
    obtain ⟨inside, living⟩ := fair.waits u (by simp [before])
    refine ⟨inside, ?_⟩
    by_cases same : u = t
    · subst same
      exact (befalls.alive queued).trans living
    · exact (congrArg (fun r : Thread cfg Unit => r.state.exited) (befalls.others u same)).trans living
  onWay u woken := by
    obtain ⟨inside, afoot, reason⟩ := fair.onWay u woken
    by_cases same : u = t
    · subst same
      obtain ⟨still, kept⟩ := calm woken
      exact ⟨inside, still, kept.trans reason⟩
    · have others : (s.withThreads threads).threads.thread u = s.threads.thread u := befalls.others u same
      rw [others]
      exact ⟨inside, afoot, reason⟩
  count := fair.count
  nonneg := fair.nonneg
  fits := fair.fits
  pass waiting := by
    refine fair.pass fun none => ?_
    have sub := befalls.subset ()
    rw [none] at sub
    exact waiting (List.sublist_nil.mp sub)

theorem FairBut.reprioritize (same : Threads.Reprioritized s.threads threads) :
    (s.withThreads threads).FairBut slack n where
  wf := same.wf fair.wf
  waits u queued := by
    obtain ⟨inside, living⟩ := fair.waits u fun none => queued ((same.task u).2.2.2.trans none)
    exact ⟨inside, (congrArg exited (same.task u).1).trans living⟩
  onWay u woken := by
    obtain ⟨inside, ⟨awake, alive, reason⟩, done⟩ := fair.onWay u woken
    obtain ⟨state, sleep, wake, -⟩ := same.task u
    refine ⟨inside, ⟨?_, ?_, sleep.trans reason⟩, wake.trans done⟩
    · exact (congrArg inSleepset state).trans awake
    · exact (congrArg exited state).trans alive
  count := fair.count
  nonneg := fair.nonneg
  fits := fair.fits
  pass waiting := by
    refine fair.pass fun none => ?_
    have perm := same.perm ()
    rw [none] at perm
    exact waiting perm.eq_nil

theorem FairBut.queue_none (runs : (s.threads.thread t).Running) : (s.threads.thread t).queue = none := by
  refine fair.wf.queue_none ?_
  rw [show _ = running from runs]
  rfl

theorem FairBut.unwoken (outside : s.inside t = none) : t ∉ s.woken := by
  intro woken
  exact (fair.onWay t woken).1 outside

theorem FairBut.leave (runs : (s.threads.thread t).Running) (unwoken : t ∉ s.woken) :
    (s.setInside t none).FairBut slack n where
  wf := fair.wf
  waits u queued := by
    have other : u ≠ t := by
      rintro rfl
      exact queued (fair.queue_none runs)
    simpa [setInside, other] using fair.waits u queued
  onWay u woken := by
    have other : u ≠ t := by
      rintro rfl
      exact unwoken woken
    simpa [setInside, other] using fair.onWay u woken
  count := fair.count
  nonneg := fair.nonneg
  fits := fair.fits
  pass := fair.pass

end

theorem FairBut.take (fair : s.FairBut 1 n) (some : s.count ≠ 0) : s.take.Fair n := by
  have nonneg := fair.nonneg
  have fits := fair.fits
  have less : count32 (s.count - 1) = s.count - 1 := count32_eq (by omega) (by omega)
  refine ⟨fair.wf, fair.waits, fair.onWay, ?_, ?_, ?_, fun waiting => ?_⟩
  · have count := fair.count
    simp only [Semaphore.take, less]
    omega
  · simp only [Semaphore.take, less]
    omega
  · simp only [Semaphore.take, less]
    omega
  · have pass := fair.pass waiting
    simp only [Semaphore.take, less]
    omega

theorem FairBut.test (fair : s.FairBut 1 n) (runs : (s.threads.thread t).Running) (unwoken : t ∉ s.woken)
    (timed : Bool) : (s.test t timed).Fair n := by
  unfold Semaphore.test
  split
  · next empty =>
    refine ⟨fair.wf.block (fair.queue_none runs) (waitReason_blocking timed), fun u queued => ?_,
      fun u woken => ?_,
      fair.count, fair.nonneg, fair.fits, fun _ => ?_⟩
    · by_cases same : u = t
      · subst same
        refine ⟨by simp [setInside], ?_⟩
        simp only [setInside, withThreads, block_thread_self, blocked]
        rw [show (s.threads.thread u).state = .running from runs]
        rfl
      · simp only [setInside, withThreads, block_thread_of_ne same] at queued
        simpa [setInside, withThreads, same, block_thread_of_ne same] using fair.waits u queued
    · have other : u ≠ t := by
        rintro rfl
        exact unwoken woken
      simpa [setInside, withThreads, block_thread_of_ne other, other] using fair.onWay u woken
    · show s.count ≤ _
      rw [empty]
      exact Int.natCast_nonneg _
  · next some => exact (fair.take some).leave runs unwoken

section
variable (fair : s.Fair n)
include fair

theorem Fair.slacken : s.FairBut 1 n :=
  { fair with
    pass := fun waiting => by
      have pass := fair.pass waiting
      omega }

theorem Fair.arrive (t : T) : (s.arrive t).FairBut 1 n where
  wf := fair.wf
  waits := fair.waits
  onWay u woken := fair.onWay u (mem_of_mem_erase woken)
  count := fair.count
  nonneg := fair.nonneg
  fits := fair.fits
  pass waiting := by
    have pass := fair.pass waiting
    have card : s.woken.card - 1 ≤ (s.woken.erase t).card := pred_card_le_card_erase
    show s.count ≤ (s.woken.erase t).card + 1
    omega

theorem Fair.arrive_eq (other : (s.threads.thread t).wakeReason ≠ .done) : s.arrive t = s := by
  have absent : t ∉ s.woken := fun woken => other (fair.onWay t woken).2.2
  simp [Semaphore.arrive, erase_eq_of_notMem absent]

theorem Fair.again (runs : (s.threads.thread t).Running) (timed : Bool) : (s.again t timed).Fair n := by
  have gone : t ∉ (s.arrive t).woken := by simp [Semaphore.arrive]
  have tested : ((s.arrive t).test t timed).Fair n := (fair.arrive t).test runs gone timed
  have sameReason : ((s.arrive t).threads.thread t).wakeReason = (s.threads.thread t).wakeReason := rfl
  unfold Semaphore.again
  dsimp only
  rw [sameReason]
  cases reason : (s.threads.thread t).wakeReason with
  | timeout =>
    dsimp only
    split
    · rw [fair.arrive_eq (by simp [reason])] at gone ⊢
      exact fair.leave runs gone
    · exact tested
  | destruct | brk =>
    rw [fair.arrive_eq (by simp [reason])] at gone ⊢
    exact fair.leave runs gone
  | exit =>
    rw [fair.arrive_eq (by simp [reason])] at gone ⊢
    exact fair.befall (exit fair.wf (fair.queue_none runs)) fun woken => absurd woken gone
  | none | wait | delay | done => exact tested

theorem Fair.waitTimed (runs : (s.threads.thread t).Running) (outside : s.inside t = none)
    (past : Bool) : (s.waitTimed t past).Fair n := by
  have unwoken := fair.unwoken outside
  have timed : (s.withThreads (s.threads.setTimer t past)).Fair n :=
    fair.befall (setTimer fair.wf (fair.queue_none runs)) fun woken => absurd woken unwoken
  unfold Semaphore.waitTimed
  dsimp only
  split
  · exact timed
  · exact timed.slacken.test (setTimer_thread runs).1 unwoken true

theorem Fair.post (room : s.count + 1 < 2 ^ 31) : s.post.Fair n := by
  have nonneg := fair.nonneg
  have more : count32 (s.count + 1) = s.count + 1 := count32_eq (by omega) room
  have count : s.count + 1 = n + (s.posts + 1 : Nat) - s.taken := by
    have count := fair.count
    omega
  unfold Semaphore.post
  simp only [more]
  split
  · next none =>
    exact ⟨fair.wf, fair.waits, fair.onWay, count, by dsimp only; omega, room, fun waiting => absurd none waiting⟩
  · next th rest head =>
    have queued : (s.threads.thread th).queue = some () := (fair.wf.member th ()).mp (by simp [head])
    have asleep := fair.wf.inSleepset queued
    have absent : th ∉ s.woken := fun woken => not_afoot asleep (fair.onWay th woken).2.1
    rw [fair.wf.wakeHead_eq head]
    have roused : Befalls th s.threads (s.threads.rouse th .done) := rouse fair.wf
    have up := fair.befall roused fun woken => absurd woken absent
    have record : (s.threads.rouse th .done).thread th = (s.threads.thread th).awakened .done :=
      rouse_thread_self asleep
    refine ⟨up.wf, up.waits, fun u woken => ?_, count, by dsimp only; omega, room, fun waiting => ?_⟩
    · rcases mem_insert.mp woken with rfl | before
      · obtain ⟨inside, living⟩ := fair.waits u (by simp [queued])
        rw [record]
        exact ⟨inside, ⟨rfl, living, rfl⟩, rfl⟩
      · exact up.onWay u before
    · have pass := fair.pass (by rw [head]; simp)
      simp only [card_insert_of_notMem absent]
      omega

end

/-- The count has room for one more post. -/
def Room (s : Semaphore cfg T) : SemaphoreEvent cfg T → Prop
  | .post => s.count + 1 < 2 ^ 31
  | _ => True

theorem Fair.step (fair : s.Fair n) {e : SemaphoreEvent cfg T} (enabled : s.Enabled e) (room : s.Room e) :
    (s.step e).Fair n := by
  cases e with
  | wait t => exact fair.slacken.test enabled.1 (fair.unwoken enabled.2) false
  | waitTimed t past => exact fair.waitTimed enabled.1 enabled.2 past
  | again t timed => exact fair.again enabled.1 timed
  | trywait t =>
    simp only [Semaphore.step, trywait]
    split
    · next some => exact fair.slacken.take some.ne'
    · exact fair
  | post => exact fair.post room
  | exit t =>
    exact fair.befall (exit fair.wf (fair.queue_none enabled.1))
      fun woken => absurd woken (fair.unwoken enabled.2)
  | delay t =>
    exact fair.befall (delay fair.wf (fair.queue_none enabled.1))
      fun woken => absurd woken (fair.unwoken enabled.2)
  | suffer e =>
    exact fair.befall (suffer fair.wf e) fun woken => suffer_afoot (fair.onWay _ woken).2.1
  | setPriority t new => exact fair.reprioritize (fair.wf.setPriority t new)

/-- What a semaphore that started from `n` promises: permits are neither lost nor
made, and none is left over while a thread is queued with nobody on the way. -/
structure Accounts (n : Int) (s : Semaphore cfg T) : Prop where
  nonneg : 0 ≤ s.count
  count : s.count = n + s.posts - s.taken
  awaited : s.threads.queue () ≠ [] → s.count ≤ s.woken.card

/-- In every run in which no post finds the count at its largest value, the
semaphore keeps its promise. -/
theorem semaphore_accounts (nonneg : 0 ≤ n) (fits : n < 2 ^ 31) (reach : (machine n Room).Reach s) :
    s.Accounts n := by
  have fair : s.Fair n := by
    refine reach.kept (P := Fair n) ?_ ?_
    · rintro _ ⟨pri, rfl⟩
      exact Fair.initial pri nonneg fits
    · rintro s e fair ⟨enabled, room⟩
      exact fair.step enabled room
  exact ⟨fair.nonneg, fair.count, fun waiting => by simpa using fair.pass waiting⟩

/-- Thread 0 waits, thread 1 waits with a timeout, and a post wakes thread 0. -/
def crowd : List (SemaphoreEvent .twoLevels (Fin 2)) :=
  [.suffer (.resume 0), .suffer (.resume 1), .wait 0, .waitTimed 1 false, .post]

theorem semaphore_accounts_crowd :
    (crowd.foldl step (initial (fun _ => 0) 0)).Accounts 0 ∧
      (crowd.foldl step (initial (fun _ => 0) 0)).threads.queue () = [1] := by
  refine ⟨semaphore_accounts le_rfl (by decide) (Machine.Reach.run (.start ⟨_, rfl⟩) ?_), by decide⟩
  simp only [crowd, Machine.Admits, Room, and_true]
  decide

/-- A post at the largest value of a `cyg_count32` makes the count negative. -/
theorem post_overflows :
    ¬ ∀ s : Semaphore .twoLevels (Fin 1), (machine (2 ^ 31 - 1) fun _ _ => True).Reach s → s.Accounts (2 ^ 31 - 1) := by
  intro always
  have posted := always ((initial (fun _ => 0) (2 ^ 31 - 1)).step .post)
    (.next (.start ⟨_, rfl⟩) ⟨.post, ⟨trivial, trivial⟩, rfl⟩)
  exact absurd posted.nonneg (by decide)

end Semaphore

end Ecos
