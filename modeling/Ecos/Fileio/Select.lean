import Ecos.Sync.Flag

namespace Ecos.Fileio

/-- How `cyg_pselect` returns: the number of descriptors that were found ready, zero after a timeout, or an error. -/
inductive SelectReturn
  | found (num : Nat)
  | zero
  | einval
  | ebadf
  | eintr
  deriving DecidableEq

/-- Where a thread is in `cyg_pselect`. -/
inductive SelectPhase
  | out
  /-- At the head of `while (!error)`. -/
  | head
  /-- Between two calls of `fo_select`, with the sets and descriptors to come. -/
  | scan (todo : List (Nat × Nat))
  /-- In `select_flag.wait`, or just back from it. If the value was there at once, `early` is it. -/
  | wait (early : BitVec 32)
  | returned (r : SelectReturn)
  deriving DecidableEq

/-- The local variables of `cyg_pselect`. Beside them stands what the properties are about: the time of the call, the
number of wakeups at the last sample, and the files recorded in the last scan, with a mark on those that have been woken
since. -/
structure SelectCall (F : Type) where
  phase : SelectPhase
  selection : List (Nat × Nat)
  tv : Option (BitVec 64)
  ticks : BitVec 64
  wakeCount : BitVec 32
  num : Nat
  result : List (Nat × Nat)
  start : Nat
  sampled : Nat
  recorded : List (F × Bool)

/-- The flag, the counter, the words `si_waitFlag`, the clock and the threads. `wakes` is the counter without its
bounds. -/
structure Select (cfg : Config) (T F : Type) where
  flag : Flag cfg T 32
  selwakeCount : BitVec 32
  waitFlag : F → BitVec 32
  now : Nat
  call : T → SelectCall F
  wakes : Nat

/-- What a call of `fo_select` on one descriptor comes to. -/
inductive FoSelect (F : Type)
  | ready
  /-- Not ready, after `cyg_selrecord`. -/
  | record (sip : F)
  | notReady
  /-- There is no such file. -/
  | noFile

/-- The descriptors that are looked at, in their order. Whole words of the sets are scanned. -/
def selected (nfd : Nat) (sets : List (Option (Nat → Bool))) : List (Nat × Nat) :=
  sets.zipIdx.flatMap fun (set, mode) =>
    match set with
    | none => []
    | some bits => ((List.range ((nfd + 31) / 32 * 32)).filter bits).map (mode, ·)

namespace Select
variable {cfg : Config} {T F : Type} [DecidableEq T] [DecidableEq F]

/-- The value of the clock. -/
def clock (s : Select cfg T F) : BitVec 64 := BitVec.ofNat 64 s.now

def setCall (s : Select cfg T F) (t : T) (c : SelectCall F) : Select cfg T F :=
  { s with call := Function.update s.call t c }

/-- `cyg_pselect` up to its loop. -/
def enter (fdSetsize : Nat) (s : Select cfg T F) (t : T) (nfd : Nat) (sets : List (Option (Nat → Bool)))
    (tv : Option (BitVec 64)) : Select cfg T F :=
  s.setCall t { s.call t with
    phase := if nfd > fdSetsize then .returned .einval else .head
    selection := selected nfd sets
    tv
    ticks := tv.getD 0
    num := 0
    result := []
    start := s.now
    recorded := [] }

/-- The head of the loop. -/
def sample (s : Select cfg T F) (t : T) : Select cfg T F :=
  s.setCall t { s.call t with
    phase := .scan (s.call t).selection
    wakeCount := s.selwakeCount
    num := 0
    sampled := s.wakes
    recorded := [] }

section Bits
variable (uniqueId : T → Nat)

/-- `SELECT_WAIT_FLAG_GET`. -/
def waitFlagOf (t : T) : BitVec 32 := BitVec.twoPow 32 (uniqueId t % 32)

def selrecord (s : Select cfg T F) (t : T) (sip : F) : Select cfg T F :=
  { s with waitFlag := Function.update s.waitFlag sip (s.waitFlag sip ||| waitFlagOf uniqueId t) }

/-- One call of `fo_select` in the scan. -/
def look (s : Select cfg T F) (t : T) (entry : Nat × Nat) (todo : List (Nat × Nat)) : FoSelect F → Select cfg T F
  | .ready =>
    s.setCall t { s.call t with
      phase := .scan todo, num := (s.call t).num + 1, result := (s.call t).result ++ [entry] }
  | .record sip =>
    (s.selrecord uniqueId t sip).setCall t { s.call t with
      phase := .scan todo, recorded := (s.call t).recorded ++ [(sip, false)] }
  | .notReady => s.setCall t { s.call t with phase := .scan todo }
  | .noFile => s.setCall t { s.call t with phase := .returned .ebadf }

/-- The call of `select_flag.wait`, up to the `reschedule` if there is one. -/
def doze (s : Select cfg T F) (t : T) (ticks : BitVec 64) : Select cfg T F :=
  let pattern := waitFlagOf uniqueId t
  let flag :=
    match (s.call t).tv with
    | none => s.flag.wait t pattern ⟨true, false⟩
    | some _ => s.flag.waitTimed t pattern ⟨true, false⟩ (ticks ≤ s.clock)
  { s with flag }.setCall t { s.call t with
    phase := .wait (Flag.polled s.flag.value pattern ⟨true, false⟩).1
    ticks }

/-- The loop after the scan, from `lock` on. `signals` says that a signal is pending. -/
def finish (s : Select cfg T F) (t : T) (signals : Bool) : Select cfg T F :=
  let c := s.call t
  if c.num ≠ 0 then s.setCall t { c with phase := .returned (.found c.num) }
  else if signals then s.setCall t { c with phase := .returned .eintr }
  else if c.wakeCount = s.selwakeCount then
    if c.tv.isSome then
      if c.ticks = 0 then s.setCall t { c with phase := .returned .zero }
      else s.doze uniqueId t (c.ticks + s.clock)
    else s.doze uniqueId t c.ticks
  else s.setCall t { c with phase := .head }

end Bits

/-- What follows `select_flag.wait`. -/
def woken (s : Select cfg T F) (t : T) (early : BitVec 32) : Select cfg T F :=
  let c := s.call t
  let value := if early ≠ 0 then early else (s.flag.info t).valueOut
  if c.tv.isSome then
    if value = 0 then s.setCall t { c with phase := .returned (if s.clock ≥ c.ticks then .zero else .eintr) }
    else s.setCall t { c with phase := .head, ticks := c.ticks - s.clock }
  else s.setCall t { c with phase := if value = 0 then .returned .eintr else .head }

/-- A wakeup is noted with every thread that has recorded the file. -/
def markCalls (s : Select cfg T F) (sip : F) : Select cfg T F :=
  { s with call := fun t => { s.call t with
    recorded := (s.call t).recorded.map fun r => if r.1 = sip then (r.1, true) else r } }

/-- `cyg_selwakeup`. -/
def selwakeup (s : Select cfg T F) (sip : F) : Select cfg T F :=
  let s := s.markCalls sip
  if s.waitFlag sip ≠ 0 then
    { s with
      flag := (s.flag.setbits (s.waitFlag sip)).maskbits 0
      waitFlag := Function.update s.waitFlag sip 0
      selwakeCount := s.selwakeCount + 1
      wakes := s.wakes + 1 }
  else s

end Select

/-- What can happen. -/
inductive SelectEvent (cfg : Config) (T F : Type)
  | enter (t : T) (nfd : Nat) (sets : List (Option (Nat → Bool))) (tv : Option (BitVec 64))
  | sample (t : T)
  | look (t : T) (outcome : FoSelect F)
  | finish (t : T) (signals : Bool)
  | again (t : T) (timed : Bool)
  | woken (t : T)
  | leave (t : T)
  | selwakeup (sip : F)
  | tick
  | suffer (e : Outside T)
  | setPriority (t : T) (new : Priority cfg)

namespace Select
variable {cfg : Config} {T F : Type} [DecidableEq T] [DecidableEq F] (fdSetsize : Nat) (uniqueId : T → Nat)

/-- The thread runs outside of `Cyg_Flag::wait`. -/
def Runs (s : Select cfg T F) (t : T) : Prop := (s.flag.threads.thread t).Running ∧ s.flag.inside t = none

instance (s : Select cfg T F) (t : T) : Decidable (s.Runs t) := inferInstanceAs (Decidable (_ ∧ _))

/-- One event; `none` if it cannot happen now. -/
def step (s : Select cfg T F) : SelectEvent cfg T F → Option (Select cfg T F)
  | .enter t nfd sets tv =>
    if s.Runs t ∧ (s.call t).phase = .out then some (s.enter fdSetsize t nfd sets tv) else none
  | .sample t => if s.Runs t ∧ (s.call t).phase = .head then some (s.sample t) else none
  | .look t outcome =>
    if s.Runs t then
      match (s.call t).phase with
      | .scan (entry :: todo) => some (s.look uniqueId t entry todo outcome)
      | _ => none
    else none
  | .finish t signals =>
    if s.Runs t ∧ (s.call t).phase = .scan [] then some (s.finish uniqueId t signals) else none
  | .again t timed =>
    if (s.flag.threads.thread t).Running ∧ s.flag.inside t = some timed then some { s with flag := s.flag.again t timed }
    else none
  | .woken t =>
    if s.Runs t then
      match (s.call t).phase with
      | .wait early => some (s.woken t early)
      | _ => none
    else none
  | .leave t =>
    match (s.call t).phase with
    | .returned _ => some (s.setCall t { s.call t with phase := .out })
    | _ => none
  | .selwakeup sip => some (s.selwakeup sip)
  | .tick => some { s with now := s.now + 1 }
  | .suffer e => some { s with flag := s.flag.withThreads (s.flag.threads.suffer e) }
  | .setPriority t new => some { s with flag := s.flag.withThreads (s.flag.threads.setPriority t new) }

def initial (pri : T → Priority cfg) : Select cfg T F where
  flag := Flag.initial pri 0
  selwakeCount := 0
  waitFlag _ := 0
  now := 0
  call _ := ⟨.out, [], none, 0, 0, 0, [], 0, 0, []⟩
  wakes := 0

/-- The runs in which every event satisfies `Ok`. -/
def machine (Ok : Select cfg T F → SelectEvent cfg T F → Prop) : Machine (Select cfg T F) where
  init s := ∃ pri, s = initial pri
  step s s' := ∃ e, Ok s e ∧ s.step fdSetsize uniqueId e = some s'

/-- The thread is on the queue of `select_flag`. -/
def Blocked (s : Select cfg T F) (t : T) : Prop := (s.flag.threads.thread t).queue ≠ none

instance (s : Select cfg T F) (t : T) : Decidable (s.Blocked t) := inferInstanceAs (Decidable (¬_))

end Select

end Ecos.Fileio
