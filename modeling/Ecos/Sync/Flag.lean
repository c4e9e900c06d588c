import Ecos.Sync.Withdraw
import Ecos.Lib.Machine

namespace Ecos
open List

/-- The queue of a flag, and the local queue on which `setbits` keeps threads. -/
inductive FlagQueue
  | queue | holding
  deriving DecidableEq, Repr

/-- `Cyg_Flag::WaitMode`: any bit or all of them, and whether the value is cleared. -/
structure WaitMode where
  any : Bool
  clr : Bool
  deriving DecidableEq, Repr

/-- `FlagWaitInfo`, on the stack of the waiting thread. -/
structure FlagWaitInfo (w : Nat) where
  allmask : BitVec w
  anymask : BitVec w
  valueOut : BitVec w
  doClear : Bool

/-- The wakeup condition as `setbits` writes it. -/
def FlagWaitInfo.Met {w : Nat} (p : FlagWaitInfo w) (value : BitVec w) : Prop :=
  (p.allmask ≠ 0 ∧ p.allmask &&& value = p.allmask) ∨ p.anymask &&& value ≠ 0

instance {w : Nat} (p : FlagWaitInfo w) (value : BitVec w) : Decidable (p.Met value) :=
  inferInstanceAs (Decidable (_ ∨ _))

/-- The initialization of `saveme` in `wait`. -/
def WaitMode.info {w : Nat} (mode : WaitMode) (pattern : BitVec w) : FlagWaitInfo w where
  allmask := if mode.any then 0 else pattern
  anymask := if mode.any then pattern else 0
  valueOut := 0
  doClear := mode.clr

/-- Threads and one `Cyg_Flag` of `w` bits. `info t` is the wait info of thread `t`;
`inside t` says that it is in the loop of `wait`, and whether of the timed one. -/
structure Flag (cfg : Config) (T : Type) (w : Nat) where
  threads : Threads cfg T FlagQueue
  value : BitVec w
  info : T → FlagWaitInfo w
  inside : T → Option Bool

namespace Flag
variable {cfg : Config} {T : Type} {w : Nat} [DecidableEq T]

def withThreads (s : Flag cfg T w) (threads : Threads cfg T FlagQueue) : Flag cfg T w := { s with threads := threads }

def setInside (s : Flag cfg T w) (t : T) (o : Option Bool) : Flag cfg T w :=
  { s with inside := Function.update s.inside t o }

def setInfo (s : Flag cfg T w) (t : T) (p : FlagWaitInfo w) : Flag cfg T w :=
  { s with info := Function.update s.info t p }

def maskbits (s : Flag cfg T w) (arg : BitVec w) : Flag cfg T w := { s with value := s.value &&& arg }

/-- The body of the first loop in `setbits`, for the thread at the head. -/
def offer (s : Flag cfg T w) (thread : T) : Flag cfg T w :=
  let p := s.info thread
  let threads := s.threads.dequeue .queue
  if p.Met s.value then
    { (s.withThreads ((threads.setWakeReason thread .done).wake thread)).setInfo thread { p with valueOut :=
      s.value } with
      value := if p.doClear then 0 else s.value }
  else s.withThreads (threads.enqueue .holding thread)

/-- The first loop; it ends when the queue is empty, after one round for each thread. -/
def offerAll (s : Flag cfg T w) : Nat → Flag cfg T w
  | 0 => s
  | n + 1 =>
    match s.threads.queue .queue with
    | [] => s
    | thread :: _ => (s.offer thread).offerAll n

/-- The second loop: the threads on the holding queue go back. -/
def putBack (s : Threads cfg T FlagQueue) : Nat → Threads cfg T FlagQueue
  | 0 => s
  | n + 1 =>
    match s.queue .holding with
    | [] => s
    | thread :: _ => putBack ((s.dequeue .holding).enqueue .queue thread) n

def setbits (s : Flag cfg T w) (arg : BitVec w) : Flag cfg T w :=
  let s := { s with value := s.value ||| arg }
  let s := s.offerAll (s.threads.queue .queue).length
  s.withThreads (putBack s.threads (s.threads.queue .holding).length)

/-- The result of `poll`, and the value it leaves. -/
def polled (value pattern : BitVec w) (mode : WaitMode) : BitVec w × BitVec w :=
  let result :=
    if mode.any then if value &&& pattern ≠ 0 then value else 0
    else if pattern ≠ 0 ∧ pattern = value &&& pattern then value else 0
  (result, if result ≠ 0 ∧ mode.clr = true then 0 else value)

def poll (s : Flag cfg T w) (pattern : BitVec w) (mode : WaitMode) : Flag cfg T w :=
  { s with value := (polled s.value pattern mode).2 }

/-- The loop of `wait` from its head to the `reschedule`. -/
def test (s : Flag cfg T w) (t : T) (timed : Bool) : Flag cfg T w :=
  if (s.info t).valueOut = 0 then
    (s.withThreads (s.threads.block t .queue (Threads.waitReason timed))).setInside t (some timed)
  else s.setInside t none

def wait (s : Flag cfg T w) (t : T) (pattern : BitVec w) (mode : WaitMode) : Flag cfg T w :=
  if (polled s.value pattern mode).1 ≠ 0 then s.poll pattern mode
  else ((s.poll pattern mode).setInfo t (mode.info pattern)).test t false

/-- The timed `wait`; `past` says that the timeout has gone by already. -/
def waitTimed (s : Flag cfg T w) (t : T) (pattern : BitVec w) (mode : WaitMode) (past : Bool) : Flag cfg T w :=
  if (polled s.value pattern mode).1 ≠ 0 then s.poll pattern mode
  else
    let s := ((s.poll pattern mode).setInfo t (mode.info pattern)).withThreads (s.threads.setTimer t past)
    if (s.threads.thread t).wakeReason ≠ .none then s else s.test t true

/-- Either form of `wait` after its `reschedule` returns. -/
def again (s : Flag cfg T w) (t : T) (timed : Bool) : Flag cfg T w :=
  match (s.threads.thread t).wakeReason with
  | .timeout => if timed then s.setInside t none else s.test t timed
  | .destruct | .brk => s.setInside t none
  | .exit => s.withThreads (s.threads.exit t)
  | .none | .wait | .delay | .done => s.test t timed

end Flag

/-- What can happen. Nobody is killed, and the flag is not destroyed. -/
inductive FlagEvent (cfg : Config) (T : Type) (w : Nat)
  | setbits (arg : BitVec w) | maskbits (arg : BitVec w) | poll (t : T) (pattern : BitVec w) (mode : WaitMode)
  | wait (t : T) (pattern : BitVec w) (mode : WaitMode)
  | waitTimed (t : T) (pattern : BitVec w) (mode : WaitMode) (past : Bool)
  | again (t : T) (timed : Bool)
  | exit (t : T) | delay (t : T) | suffer (e : Outside T) | setPriority (t : T) (new : Priority cfg)

namespace Flag
variable {cfg : Config} {T : Type} {w : Nat} [DecidableEq T]

def Enabled (s : Flag cfg T w) : FlagEvent cfg T w → Prop
  | .poll t .. | .wait t .. | .waitTimed t .. | .exit t | .delay t => (s.threads.thread t).Running ∧ s.inside t = none
  | .again t timed => (s.threads.thread t).Running ∧ s.inside t = some timed
  | .setbits _ | .maskbits _ | .suffer _ | .setPriority .. => True

instance (s : Flag cfg T w) : ∀ e, Decidable (s.Enabled e)
  | .poll .. | .wait .. | .waitTimed .. | .exit _ | .delay _ | .again .. => inferInstanceAs (Decidable (_ ∧ _))
  | .setbits _ | .maskbits _ | .suffer _ | .setPriority .. => inferInstanceAs (Decidable True)

def step (s : Flag cfg T w) : FlagEvent cfg T w → Flag cfg T w
  | .setbits arg => s.setbits arg
  | .maskbits arg => s.maskbits arg
  | .poll _ pattern mode => s.poll pattern mode
  | .wait t pattern mode => s.wait t pattern mode
  | .waitTimed t pattern mode past => s.waitTimed t pattern mode past
  | .again t timed => s.again t timed
  | .exit t => s.withThreads (s.threads.exit t)
  | .delay t => s.withThreads ((s.threads.setSleepReason t .delay).sleep t)
  | .suffer e => s.withThreads (s.threads.suffer e)
  | .setPriority t new => s.withThreads (s.threads.setPriority t new)

def initial (pri : T → Priority cfg) (init : BitVec w) : Flag cfg T w where
  threads := ⟨fun t => Thread.create (pri t), fun _ => []⟩
  value := init
  info _ := ⟨0, 0, 0, false⟩
  inside _ := none

def machine (cfg : Config) (T : Type) (w : Nat) [DecidableEq T] : Machine (Flag cfg T w) :=
  .guided (fun s => ∃ pri init, s = initial pri init) Enabled step

end Flag

/-! The scan that `setbits` is for, over the waiters in queue order. -/

/-- Its outcome: the threads woken, each with the value that met its condition, the
final value and the threads that keep waiting. -/
structure Scan (T : Type) (w : Nat) where
  woken : List (T × BitVec w)
  value : BitVec w
  left : List T

/-- Each waiter is tried on the value at its turn; a satisfied one that asks for it
leaves zero behind. -/
def scanWaiters {T : Type} {w : Nat} (info : T → FlagWaitInfo w) : BitVec w → List T → Scan T w
  | value, [] => ⟨[], value, []⟩
  | value, t :: l =>
    if (info t).Met value then
      let r := scanWaiters info (if (info t).doClear then 0 else value) l
      ⟨(t, value) :: r.woken, r.value, r.left⟩
    else
      let r := scanWaiters info value l
      ⟨r.woken, r.value, t :: r.left⟩

section Scan
variable {T : Type} {w : Nat} {info : T → FlagWaitInfo w} {value : BitVec w} {l : List T} {t : T}

attribute [local simp] scanWaiters FlagWaitInfo.Met in
theorem FlagWaitInfo.not_met_zero (p : FlagWaitInfo w) : ¬ p.Met 0 := by
  rintro (⟨some, all⟩ | any)
  · exact some (by simpa using all.symm)
  · exact any (by simp)

theorem FlagWaitInfo.met_mask {p : FlagWaitInfo w} {arg : BitVec w} (met : p.Met (value &&& arg)) : p.Met value := by
  rcases met with ⟨some, all⟩ | any
  · refine .inl ⟨some, ?_⟩
    calc p.allmask &&& value
      _ = p.allmask &&& (value &&& arg) &&& value := by rw [all]
      _ = p.allmask &&& (value &&& arg) := by
        ext i
        simp only [BitVec.getElem_and]
        cases value[i] <;> simp
      _ = p.allmask := all
  · refine .inr fun none => any ?_
    rw [← BitVec.and_assoc, none]
    simp

theorem scanWaiters_perm : (((scanWaiters info value l).woken.map Prod.fst) ++
    (scanWaiters info value l).left).Perm l := by
  induction l generalizing value with
  | nil => exact .refl _
  | cons t l ih =>
    unfold scanWaiters
    split
    · exact ih.cons t
    · exact perm_middle.trans (ih.cons t)

theorem scanWaiters_sublist : (scanWaiters info value l).left.Sublist l := by
  induction l generalizing value with
  | nil => exact .refl _
  | cons t l ih =>
    unfold scanWaiters
    split
    · exact ih.cons t
    · exact ih.cons_cons t

theorem scanWaiters_mem {v : BitVec w} (woken : (t, v) ∈ (scanWaiters info value l).woken) : t ∈ l :=
  scanWaiters_perm.mem_iff.mp (mem_append_left _ (mem_map_of_mem (f := Prod.fst) woken))

theorem scanWaiters_met {v : BitVec w} (woken : (t, v) ∈ (scanWaiters info value l).woken) : (info t).Met v := by
  induction l generalizing value with
  | nil => simp [scanWaiters] at woken
  | cons u l ih =>
    unfold scanWaiters at woken
    split at woken
    · next met =>
      rcases mem_cons.mp woken with same | later
      · obtain ⟨rfl, rfl⟩ := Prod.mk.inj same
        exact met
      · exact ih later
    · exact ih woken

theorem scanWaiters_value : (scanWaiters info value l).value = value ∨ (scanWaiters info value l).value = 0 := by
  induction l generalizing value with
  | nil => exact .inl rfl
  | cons t l ih =>
    unfold scanWaiters
    split
    · dsimp only
      split
      · have rest : (scanWaiters info 0 l).value = 0 ∨ (scanWaiters info 0 l).value = 0 := ih
        rcases rest with zero | zero <;> exact .inr zero
      · exact ih
    · exact ih

theorem scanWaiters_unmet (left : t ∈ (scanWaiters info value l).left) :
    ¬ (info t).Met (scanWaiters info value l).value := by
  induction l generalizing value with
  | nil => simp [scanWaiters] at left
  | cons u l ih =>
    unfold scanWaiters at left ⊢
    split at left
    · next met =>
      rw [if_pos met]
      exact ih left
    · next unmet =>
      rw [if_neg unmet]
      rcases mem_cons.mp left with rfl | later
      · dsimp only
        have kept : (scanWaiters info value l).value = value ∨ (scanWaiters info value l).value = 0 := scanWaiters_value
        rcases kept with same | zero
        · rw [same]; exact unmet
        · rw [zero]; exact FlagWaitInfo.not_met_zero _
      · exact ih later

theorem scanWaiters_congr {info' : T → FlagWaitInfo w} (same : ∀ t ∈ l, info' t = info t) :
    scanWaiters info' value l = scanWaiters info value l := by
  induction l generalizing value with
  | nil => rfl
  | cons t l ih =>
    have rest : ∀ u ∈ l, info' u = info u := fun u mem => same u (mem_cons_of_mem _ mem)
    simp only [scanWaiters, same t (mem_cons_self ..), ih rest]

end Scan

end Ecos
