import Ecos.Serial.Fifo

namespace Ecos.Serial
open Nat Bool Cbuf
variable {T : Type*}

/-- What the waking of writers, drainers and selectors for output depends on. -/
structure OutSide (T : Type*) where
  buf : Cbuf
  throttled : Bool
  asleep : T → Bool

/-- What the waking of readers and selectors for input depends on. -/
structure InSide (T : Type*) where
  buf : Cbuf
  asleep : T → Bool

/-- `waiting` is set while someone sleeps, and whoever is recorded in `selinfo` has still to wait. -/
structure OutSide.Served (v : OutSide T) : Prop where
  waiting : ∀ t, v.asleep t = true → v.buf.waiting = true
  selected : v.buf.selected = true → ¬ (v.buf.lowWater ≤ v.buf.space ∧ v.throttled = false)

structure InSide.Served (v : InSide T) : Prop where
  waiting : ∀ t, v.asleep t = true → v.buf.waiting = true
  selected : v.buf.selected = true → ¬ 0 < v.buf.nb

theorem OutSide.Served.mono {v v' : OutSide T} (served : v.Served) (asleep : ∀ t, v'.asleep t = true → v.asleep t = true)
    (waiting : v.buf.waiting = true → v'.buf.waiting = true) (selected : v'.buf.selected = true → v.buf.selected = true)
    (room : v'.buf.lowWater ≤ v'.buf.space ∧ v'.throttled = false → v.buf.lowWater ≤ v.buf.space ∧ v.throttled = false) :
    v'.Served where
  waiting t sleeps := waiting (served.waiting t (asleep t sleeps))
  selected recorded possible := served.selected (selected recorded) (room possible)

theorem InSide.Served.mono {v v' : InSide T} (served : v.Served) (asleep : ∀ t, v'.asleep t = true → v.asleep t = true)
    (waiting : v.buf.waiting = true → v'.buf.waiting = true) (selected : v'.buf.selected = true → v.buf.selected = true)
    (filled : 0 < v'.buf.nb → 0 < v.buf.nb) : v'.Served where
  waiting t sleeps := waiting (served.waiting t (asleep t sleeps))
  selected recorded possible := served.selected (selected recorded) (filled possible)

namespace Point
variable (p : Point)

@[simp] theorem asleepOut_wakeOut : p.wakeOut.asleepOut = false := by cases p <;> rfl

@[simp] theorem asleepIn_wakeIn : p.wakeIn.asleepIn = false := by cases p <;> rfl

@[simp] theorem asleepOut_release : p.release.asleepOut = false := by cases p <;> rfl

@[simp] theorem asleepIn_release : p.release.asleepIn = false := by cases p <;> rfl

end Point

namespace Channel
variable [DecidableEq T] (ch : Channel T) (t : T)

def outSide : OutSide T := ⟨ch.out, ch.flow.outThrottled, fun t => (ch.thread t).asleepOut⟩

def inSide : InSide T := ⟨ch.inp, fun t => (ch.thread t).asleepIn⟩

/-- No one sleeps on the condition of the buffer. -/
def AwakeOut : Prop := ∀ t, (ch.thread t).asleepOut = false

def AwakeIn : Prop := ∀ t, (ch.thread t).asleepIn = false

/-- `serial_xmt_char` gets as far as its loop. -/
def Sends (first : Bool) : Prop :=
  ch.flow.outThrottled = false ∧ (ch.flow.xonxoffRx = true ∧ ch.flow.xchar ≠ 0 → first = true)

/-- The low water mark and the length of the output buffer. -/
def sizes : Nat × Nat := (ch.out.lowWater, ch.out.len)

/-- No thread and no selector is stranded. -/
def Served : Prop := ch.outSide.Served ∧ ch.inSide.Served

section Frames
variable {ch t} {ch' : Channel T}

theorem outSide_of (same : ch'.outState = ch.outState) : ch'.outSide = ch.outSide := by
  simp only [outState, Prod.mk.injEq] at same
  simp [outSide, same]

theorem inSide_of (same : ch'.inState = ch.inState) : ch'.inSide = ch.inSide := by
  simp only [inState, Prod.mk.injEq] at same
  simp [inSide, same]

@[simp] theorem inSide_checkHighWater : ch.checkHighWater.inSide = ch.inSide := by
  unfold checkHighWater
  split <;> rfl

end Frames

section Moves
variable {ch t} {p : Point} {r : Result} {c : UInt8}

theorem asleepOut_goto {u : T} (up : p.asleepOut = false) (sleeps : ((ch.goto t p).thread u).asleepOut = true) :
    (ch.thread u).asleepOut = true := by
  by_cases same : u = t
  · subst same
    simp [goto, up] at sleeps
  · simpa [goto, same] using sleeps

theorem asleepIn_goto {u : T} (up : p.asleepIn = false) (sleeps : ((ch.goto t p).thread u).asleepIn = true) :
    (ch.thread u).asleepIn = true := by
  by_cases same : u = t
  · subst same
    simp [goto, up] at sleeps
  · simpa [goto, same] using sleeps

theorem servedOut_goto (served : ch.outSide.Served) (up : p.asleepOut = false) : (ch.goto t p).outSide.Served :=
  served.mono (fun _ sleeps => asleepOut_goto up sleeps) id id id

theorem servedIn_goto (served : ch.inSide.Served) (up : p.asleepIn = false) : (ch.goto t p).inSide.Served :=
  served.mono (fun _ sleeps => asleepIn_goto up sleeps) id id id

theorem servedOut_sleep (served : ch.outSide.Served) (waiting : ch.out.waiting = true) : (ch.goto t p).outSide.Served :=
  ⟨fun _ _ => waiting, served.selected⟩

theorem servedIn_sleep (served : ch.inSide.Served) (waiting : ch.inp.waiting = true) : (ch.goto t p).inSide.Served :=
  ⟨fun _ _ => waiting, served.selected⟩

theorem awake_signalOut (waiting : ∀ t, (ch.thread t).asleepOut = true → ch.out.waiting = true) : ch.signalOut.AwakeOut := by
  intro u
  unfold signalOut
  split
  · simp
  · rename_i idle
    by_contra sleeps
    exact idle (waiting u (eq_true_of_ne_false sleeps))

theorem awake_signalIn (waiting : ∀ t, (ch.thread t).asleepIn = true → ch.inp.waiting = true) : ch.signalIn.AwakeIn := by
  intro u
  unfold signalIn
  split
  · simp
  · rename_i idle
    by_contra sleeps
    exact idle (waiting u (eq_true_of_ne_false sleeps))

theorem AwakeOut.waiting {b : Cbuf} (awake : ch.AwakeOut) : ∀ t, (ch.thread t).asleepOut = true → b.waiting = true := by
  intro u sleeps
  rw [awake u] at sleeps
  exact absurd sleeps (by simp)

theorem AwakeIn.waiting {b : Cbuf} (awake : ch.AwakeIn) : ∀ t, (ch.thread t).asleepIn = true → b.waiting = true := by
  intro u sleeps
  rw [awake u] at sleeps
  exact absurd sleeps (by simp)

theorem out_signalOut : ch.signalOut.out = { ch.out with waiting := ch.signalOut.out.waiting } := by
  unfold signalOut
  split <;> rfl

theorem inp_signalIn : ch.signalIn.inp = { ch.inp with waiting := ch.signalIn.inp.waiting } := by
  unfold signalIn
  split <;> rfl

theorem flow_signalOut : ch.signalOut.flow = ch.flow := by
  unfold signalOut
  split <;> rfl

section
variable (waiting : ∀ t, (ch.thread t).asleepOut = true → ch.out.waiting = true)
include waiting

theorem servedOut_announceRoom : ch.announceRoom.outSide.Served ∧ ch.announceRoom.AwakeOut :=
  ⟨⟨(awake_signalOut waiting).waiting, fun recorded => absurd recorded (by simp [announceRoom, outSide, selwakeup])⟩,
    awake_signalOut waiting⟩

theorem servedOut_sendLoop {room : Nat} : (sendLoop room ch).outSide.Served ∧
      ((sendLoop room ch).out.lowWater ≤ (sendLoop room ch).out.space ∨ (sendLoop room ch).out.nb = 0 →
        (sendLoop room ch).AwakeOut) := by
  induction room generalizing ch with
  | zero =>
    unfold sendLoop
    have told := servedOut_announceRoom waiting
    split
    · rename_i filled
      split
      · exact ⟨told.1, fun _ => told.2⟩
      · rename_i tight
        refine ⟨⟨waiting, fun _ possible => tight possible.1⟩, fun enough => ?_⟩
        rcases enough with enough | empty
        · exact absurd enough tight
        · omega
    · exact ⟨told.1, fun _ => told.2⟩
  | succ room ih =>
    unfold sendLoop
    split
    · exact ih waiting
    · have told := servedOut_announceRoom waiting
      exact ⟨told.1, fun _ => told.2⟩

end

theorem xmtChar_sends {first : Bool} (room : Nat) (sends : ch.Sends first) :
    ∃ sent : Channel T, ch.xmtChar first room = sendLoop room sent ∧ sent.outSide = ch.outSide := by
  have free : ¬ ch.flow.outThrottled = true := by simp [sends.1]
  unfold xmtChar
  by_cases flow : ch.flow.xonxoffRx = true ∧ ch.flow.xchar ≠ 0
  · rw [if_pos flow, if_pos (sends.2 flow)]
    exact ⟨_, if_neg free, rfl⟩
  · rw [if_neg flow]
    exact ⟨_, if_neg free, rfl⟩

theorem xmtChar_held {first : Bool} {room : Nat} (held : ¬ ch.Sends first) :
    (ch.xmtChar first room).outSide = ch.outSide := by
  unfold xmtChar xmtData
  by_cases flow : ch.flow.xonxoffRx = true ∧ ch.flow.xchar ≠ 0
  · rw [if_pos flow]
    split
    · rename_i taken
      have throttled : ch.flow.outThrottled = true := by
        by_contra free
        exact held ⟨by simpa using free, fun _ => taken⟩
      rw [if_pos throttled]
      rfl
    · rfl
  · have throttled : ch.flow.outThrottled = true := by
      by_contra free
      exact held ⟨by simpa using free, fun waits => absurd waits flow⟩
    rw [if_neg flow, if_pos throttled]

section
variable (served : ch.outSide.Served)
include served

theorem servedOut_xmtChar {first : Bool} {room : Nat} : (ch.xmtChar first room).outSide.Served := by
  by_cases sends : ch.Sends first
  · obtain ⟨sent, loop, same⟩ := xmtChar_sends room sends
    rw [loop]
    rw [← same] at served
    exact (servedOut_sendLoop served.waiting).1
  · rwa [xmtChar_held sends]

theorem awake_xmtChar {first : Bool} {room : Nat} (sends : ch.Sends first)
    (enough : (ch.xmtChar first room).out.lowWater ≤ (ch.xmtChar first room).out.space ∨
      (ch.xmtChar first room).out.nb = 0) : (ch.xmtChar first room).AwakeOut := by
  obtain ⟨sent, loop, same⟩ := xmtChar_sends room sends
  rw [loop] at enough ⊢
  rw [← same] at served
  exact (servedOut_sendLoop served.waiting).2 enough

theorem servedOut_restartTx : ch.restartTx.outSide.Served := by
  refine ⟨fun u sleeps => ?_, fun recorded possible => ?_⟩
  · have waiting : ch.out.waiting = true := served.waiting u sleeps
    simp only [restartTx, outSide]
    split <;> exact waiting
  · simp only [restartTx, outSide] at recorded possible
    split at recorded
    · simp [selwakeup] at recorded
    · rename_i tight
      rw [if_neg tight] at possible
      exact tight possible.1

theorem servedOut_throttleTx : ch.throttleTx.outSide.Served :=
  ⟨served.waiting, fun _ possible => absurd possible.2 (by simp [throttleTx, outSide])⟩

theorem servedOut_xmtReq {space : Nat} : (ch.xmtReq space).outSide.Served := by
  unfold xmtReq
  split
  · exact served
  · split
    · exact served
    · split
      · exact served
      · exact served.mono (fun _ => id) id id id

theorem servedOut_xmtDone {count : Nat} : (ch.xmtDone count).outSide.Served ∧
      ((ch.xmtDone count).out.lowWater ≤ (ch.xmtDone count).out.space → (ch.xmtDone count).AwakeOut) := by
  unfold xmtDone
  dsimp only
  split
  · have told := @servedOut_announceRoom T _ { ch with
      out := ch.out.setRing (ch.out.transmitted count)
      wire := ch.wire ++ (window ch.out.data ch.out.get count).map .data } served.waiting
    exact ⟨told.1.mono (fun _ => id) id id id, fun _ => told.2⟩
  · rename_i tight
    exact ⟨⟨served.waiting, fun _ possible => tight possible.1⟩, fun enough => absurd enough tight⟩

end

theorem dropOut_keeps : ch.dropOut.out.waiting = ch.out.waiting ∧ ch.dropOut.out.selected = ch.out.selected ∧
    ch.dropOut.out.nb = 0 ∧ ch.dropOut.out.lowWater = ch.out.lowWater ∧ ch.dropOut.out.len = ch.out.len := by
  unfold dropOut
  split
  · exact ⟨rfl, rfl, rfl, rfl, rfl⟩
  · rename_i empty
    exact ⟨rfl, rfl, Nat.eq_zero_of_not_pos empty, rfl, rfl⟩

theorem outputFlush_keeps : ch.outputFlush.out.selected = ch.out.selected ∧ ch.outputFlush.flow = ch.flow ∧
    ch.outputFlush.out.nb = 0 ∧ ch.outputFlush.out.lowWater = ch.out.lowWater ∧ ch.outputFlush.out.len = ch.out.len := by
  obtain ⟨-, selected, empty, water, len⟩ := @dropOut_keeps T _ ch
  unfold outputFlush abortOut
  split
  · rw [out_signalOut, flow_signalOut]
    exact ⟨selected, rfl, empty, water, len⟩
  · exact ⟨selected, rfl, empty, water, len⟩

theorem awake_outputFlush (served : ch.outSide.Served) : ch.outputFlush.AwakeOut := by
  unfold outputFlush abortOut
  split
  · rename_i waiting
    exact awake_signalOut fun _ _ => waiting
  · rename_i idle
    rw [dropOut_keeps.1] at idle
    intro u
    by_contra sleeps
    exact idle (served.waiting u (eq_true_of_ne_false sleeps))

theorem servedOut_outputFlush (sized : ch.out.lowWater ≤ ch.out.len) (served : ch.outSide.Served) :
    ch.outputFlush.outSide.Served ↔ (ch.out.selected = true → ch.flow.outThrottled = true) := by
  obtain ⟨selected, flow, empty, water, len⟩ := @outputFlush_keeps T _ ch
  constructor
  · intro after recorded
    by_contra free
    refine after.selected (selected.trans recorded) ⟨?_, ?_⟩
    · change ch.outputFlush.out.lowWater ≤ ch.outputFlush.out.len - ch.outputFlush.out.nb
      omega
    · change ch.outputFlush.flow.outThrottled = false
      rw [flow]
      simpa using free
  · refine fun told => ⟨(awake_outputFlush served).waiting, fun recorded possible => ?_⟩
    have throttled := told (selected ▸ recorded)
    have free : ch.outputFlush.flow.outThrottled = false := possible.2
    rw [flow, throttled] at free
    exact absurd free (by simp)

theorem inSide_announceFirst : ch.announceFirst.inSide.asleep = ch.inSide.asleep ∧
    ch.announceFirst.inp.waiting = ch.inp.waiting ∧ ch.announceFirst.inp.nb = ch.inp.nb ∧
    (ch.announceFirst.inp.selected = true → ch.inp.selected = true ∧ 0 < ch.inp.nb) := by
  unfold announceFirst
  split
  · exact ⟨rfl, rfl, rfl, fun recorded => absurd recorded (by simp [selwakeup])⟩
  · rename_i filled
    exact ⟨rfl, rfl, rfl, fun recorded => ⟨recorded, Nat.pos_of_ne_zero filled⟩⟩

theorem keep_keeps : (ch.keep c).thread = ch.thread ∧ (ch.keep c).inp.waiting = ch.inp.waiting ∧
    (ch.keep c).inp.selected = ch.inp.selected := by
  unfold keep
  split <;> exact ⟨rfl, rfl, rfl⟩

section
variable (served : ch.inSide.Served)
include served

theorem servedIn_rcvData : (ch.rcvData c).inSide.Served ∧ (ch.rcvData c).AwakeIn := by
  have high : ch.checkHighWater.inSide.Served := by rwa [inSide_checkHighWater]
  obtain ⟨asleep, waiting, -, selected⟩ := @inSide_announceFirst T _ ch.checkHighWater
  obtain ⟨thread, kept, recorded⟩ := @keep_keeps T _ ch.checkHighWater.announceFirst c
  have awake : (ch.rcvData c).AwakeIn := by
    refine awake_signalIn fun u sleeps => ?_
    rw [thread] at sleeps
    rw [kept, waiting]
    exact high.waiting u ((congrFun asleep u).symm.trans sleeps)
  refine ⟨⟨awake.waiting, fun told => ?_⟩, awake⟩
  change (ch.rcvData c).inp.selected = true at told
  unfold rcvData at told
  rw [inp_signalIn] at told
  have still := selected (recorded ▸ told)
  exact absurd still.2 (high.selected still.1)

theorem servedIn_rcvDone {bytes : List UInt8} {count : Nat} :
    (ch.rcvDone bytes count).inSide.Served ∧ (ch.rcvDone bytes count).AwakeIn := by
  let filled : Channel T :=
    { ch with inp := ch.inp.setRing (ch.inp.received bytes count), stored := ch.stored ++ bytes.take count }
  have side : filled.signalIn.checkHighWater.inSide = filled.signalIn.inSide := inSide_checkHighWater
  have buf : filled.signalIn.checkHighWater.inp = filled.signalIn.inp := congrArg InSide.buf side
  have asleep := congrArg InSide.asleep side
  have awake : filled.signalIn.AwakeIn := awake_signalIn served.waiting
  have same : (ch.rcvDone bytes count).thread = filled.signalIn.checkHighWater.thread := by
    unfold rcvDone
    dsimp only
    split <;> rfl
  have woken : (ch.rcvDone bytes count).AwakeIn := by
    intro u
    rw [same]
    exact (congrFun asleep u).trans (awake u)
  refine ⟨⟨woken.waiting, fun recorded => ?_⟩, woken⟩
  change (ch.rcvDone bytes count).inp.selected = true at recorded
  unfold rcvDone at recorded
  dsimp only at recorded
  split at recorded
  · simp [selwakeup] at recorded
  · rename_i more
    rw [buf, inp_signalIn] at more recorded
    have grown : ¬ count = ch.inp.nb + count := more
    exact absurd (show 0 < ch.inp.nb by omega) (served.selected recorded)

theorem servedIn_rcvReq {avail : Nat} : (ch.rcvReq avail).inSide.Served := by
  unfold rcvReq
  split
  · exact served
  · split
    · exact served
    · refine served.mono (fun _ => id) id id ?_
      intro filled
      unfold Ring.rewind at filled
      split at filled <;> exact filled

theorem servedIn_inputFlush : ch.inputFlush.inSide.Served := by
  have dropped : ch.abortIn.dropIn.inSide.Served := by
    refine ⟨?_, fun _ filled => absurd filled (lt_irrefl 0)⟩
    unfold abortIn
    split
    · rename_i waiting
      have awake : ({ ch with inp := { ch.inp with abort := true } } : Channel T).signalIn.AwakeIn :=
        awake_signalIn fun _ _ => waiting
      exact awake.waiting
    · exact served.waiting
  unfold inputFlush
  dsimp only
  split <;> exact dropped

theorem servedIn_takeOne : ch.takeOne.inSide.Served := by
  have fewer : ch.inp.pop.nb ≤ ch.inp.nb := sub_le _ _
  unfold takeOne
  split <;> exact served.mono (fun _ => id) id id fun filled => lt_of_lt_of_le filled fewer

end

end Moves

section Steps
variable {ch t}

/-- The steps after which no one is stranded: whoever clears `waiting` on the way out is the last one to wait, and no
selector for output is recorded when the buffer is flushed. -/
def SoundAt (ch : Channel T) : Point → Prop
  | .full _ _ => ch.out.waiting = true → ch.out.blocking = false → ch.AwakeOut
  | .writeWoken _ _ ok => ch.out.abort = true ∨ ok = false → ch.AwakeOut
  | .readWoken _ _ ok => ch.inp.abort = true ∨ ok = false → ch.AwakeIn
  | .enter .outputFlush => ch.out.selected = true → ch.flow.outThrottled = true
  | _ => True

def Sound (ch : Channel T) : Act T → Prop
  | .go t => ch.SoundAt (ch.thread t)
  | _ => True

theorem Served.goto {p : Point} (served : ch.Served) (out : p.asleepOut = false) (inp : p.asleepIn = false) :
    (ch.goto t p).Served := ⟨servedOut_goto served.1 out, servedIn_goto served.2 inp⟩

theorem AwakeOut.goto {p : Point} (awake : ch.AwakeOut) (up : p.asleepOut = false) : (ch.goto t p).AwakeOut := by
  intro u
  by_contra sleeps
  have before := asleepOut_goto up (eq_true_of_ne_false sleeps)
  rw [awake u] at before
  exact absurd before (by simp)

theorem AwakeIn.goto {p : Point} (awake : ch.AwakeIn) (up : p.asleepIn = false) : (ch.goto t p).AwakeIn := by
  intro u
  by_contra sleeps
  have before := asleepIn_goto up (eq_true_of_ne_false sleeps)
  rw [awake u] at before
  exact absurd before (by simp)

theorem AwakeOut.of_goto {p : Point} (awake : (ch.goto t p).AwakeOut) (here : (ch.thread t).asleepOut = false) :
    ch.AwakeOut := by
  intro u
  by_cases same : u = t
  · rw [same, here]
  · simpa [Channel.goto, same] using awake u

theorem AwakeIn.of_goto {p : Point} (awake : (ch.goto t p).AwakeIn) (here : (ch.thread t).asleepIn = false) :
    ch.AwakeIn := by
  intro u
  by_cases same : u = t
  · rw [same, here]
  · simpa [Channel.goto, same] using awake u

theorem served_leaveOut {r : Result} (served : ch.Served) (here : (ch.thread t).asleepOut = false) (abort : Bool) :
    ({ ch with out := { ch.out with abort := abort, waiting := false } }.leaveOut t r).Served ↔ ch.AwakeOut := by
  constructor
  · intro after
    refine AwakeOut.of_goto (p := .user r) (fun u => ?_) here
    by_contra sleeps
    exact absurd (after.1.waiting u (eq_true_of_ne_false sleeps)) (by simp [leaveOut, outSide, goto])
  · intro awake
    exact ⟨⟨(awake.goto rfl).waiting, served.1.selected⟩, servedIn_goto served.2 rfl⟩

theorem served_leaveIn {r : Result} (served : ch.Served) (here : (ch.thread t).asleepIn = false) :
    ({ ch with inp := { ch.inp with abort := false, waiting := false } }.leaveIn t r).Served ↔ ch.AwakeIn := by
  constructor
  · intro after
    refine AwakeIn.of_goto (p := .user r) (fun u => ?_) here
    by_contra sleeps
    exact absurd (after.2.waiting u (eq_true_of_ne_false sleeps)) (by simp [leaveIn, inSide, goto])
  · intro awake
    exact ⟨servedOut_goto served.1 rfl, ⟨(awake.goto rfl).waiting, served.2.selected⟩⟩

theorem served_writeChecked {rest : List UInt8} {len : Nat} (served : ch.Served) (here : (ch.thread t).asleepOut = false) :
    (ch.writeChecked t rest len).Served ↔ (ch.out.abort = true → ch.AwakeOut) := by
  unfold writeChecked
  split
  · rename_i aborted
    rw [served_leaveOut served here]
    exact ⟨fun awake _ => awake, fun awake => awake aborted⟩
  · rename_i goes
    exact ⟨fun _ aborted => absurd aborted goes, fun _ => served.goto rfl rfl⟩

theorem served_full {rest : List UInt8} {len : Nat} (served : ch.Served) (here : (ch.thread t).asleepOut = false) :
    (ch.full t rest len).Served ↔ (ch.out.waiting = true → ch.out.blocking = false → ch.AwakeOut) := by
  unfold full
  split
  · rename_i waiting
    split
    · rename_i blocking
      refine ⟨fun _ _ free => absurd blocking (by simp [free]), fun _ => ⟨?_, servedIn_goto served.2 rfl⟩⟩
      exact servedOut_sleep (served.1.mono (fun _ => id) id id id) waiting
    · rename_i free
      rw [served_leaveOut served here]
      exact ⟨fun awake _ _ => awake, fun awake => awake waiting (by simpa using free)⟩
  · rename_i idle
    have awake : ch.AwakeOut := by
      intro u
      by_contra sleeps
      exact idle (served.1.waiting u (eq_true_of_ne_false sleeps))
    rw [served_writeChecked served here]
    exact ⟨fun _ waiting => absurd waiting idle, fun _ _ => awake⟩

theorem served_writeWoken {rest : List UInt8} {len : Nat} {ok : Bool} (served : ch.Served)
    (here : (ch.thread t).asleepOut = false) :
    (ch.writeWoken t rest len ok).Served ↔ (ch.out.abort = true ∨ ok = false → ch.AwakeOut) := by
  have woken := @served_writeChecked T _ { ch with
    outLock := some t
    out := { ch.out with abort := ch.out.abort || !ok, pending := ch.out.pending - rest.length } } t rest len
    ⟨served.1.mono (fun _ => id) id id id, served.2⟩ here
  unfold writeWoken
  rw [woken]
  simp only [or_eq_true, not_eq_true']
  rfl

theorem served_readWoken {len : Nat} {got : List UInt8} {ok : Bool} (served : ch.Served)
    (here : (ch.thread t).asleepIn = false) :
    (ch.readWoken t len got ok).Served ↔ (ch.inp.abort = true ∨ ok = false → ch.AwakeIn) := by
  unfold readWoken
  dsimp only
  split
  · rename_i aborted
    simp only [or_eq_true, not_eq_true'] at aborted
    have left := @served_leaveIn T _ { ch with inLock := some t, inp := { ch.inp with abort := ch.inp.abort || !ok } } t
      ⟨.eintr, got.length, got⟩ ⟨served.1, served.2.mono (fun _ => id) id id id⟩ here
    rw [left]
    exact ⟨fun awake _ => awake, fun awake => awake aborted⟩
  · rename_i goes
    simp only [or_eq_true, not_eq_true'] at goes
    refine ⟨fun _ aborted => absurd aborted goes, fun _ => ?_⟩
    exact ⟨servedOut_goto served.1 rfl, servedIn_goto (served.2.mono (fun _ => id) id id id) rfl⟩

theorem served_writing {rest : List UInt8} {len : Nat} (served : ch.Served) : (ch.writing t len rest).Served := by
  cases rest with
  | nil => exact ⟨servedOut_goto served.1 rfl, servedIn_goto served.2 rfl⟩
  | cons c rest =>
    simp only [writing]
    split
    · exact ⟨servedOut_goto (served.1.mono (fun _ => id) (fun _ => rfl) id id) rfl, servedIn_goto served.2 rfl⟩
    · refine ⟨servedOut_goto (served.1.mono (fun _ => id) id id ?_) rfl, servedIn_goto served.2 rfl⟩
      rintro ⟨enough, free⟩
      change ch.out.lowWater ≤ ch.out.len - (ch.out.nb + 1) at enough
      refine ⟨?_, free⟩
      change ch.out.lowWater ≤ ch.out.len - ch.out.nb
      omega

theorem served_reading {len : Nat} {got : List UInt8} (served : ch.Served) : (ch.reading t len got).Served := by
  unfold reading
  split
  · split
    · refine ⟨servedOut_goto ?_ rfl, servedIn_goto (servedIn_takeOne served.2) rfl⟩
      rw [outSide_of outState_takeOne]
      exact served.1
    · split
      · refine ⟨servedOut_goto served.1 rfl, ?_⟩
        exact servedIn_sleep (served.2.mono (fun _ => id) (fun _ => rfl) id id) rfl
      · exact ⟨servedOut_goto served.1 rfl, servedIn_goto served.2 rfl⟩
  · exact ⟨servedOut_goto served.1 rfl, servedIn_goto served.2 rfl⟩

theorem served_draining {err : Err} (served : ch.Served) : (ch.draining t err).Served := by
  unfold draining
  split
  · refine ⟨?_, servedIn_goto served.2 rfl⟩
    exact servedOut_sleep (served.1.mono (fun _ => id) (fun _ => rfl) id id) rfl
  · exact ⟨servedOut_goto served.1 rfl, servedIn_goto served.2 rfl⟩

theorem served_enter {call : Call} (sized : ch.out.lowWater ≤ ch.out.len) (served : ch.Served) :
    (ch.enter t call).Served ↔ ch.SoundAt (.enter call) := by
  cases call with
  | write bytes =>
    exact iff_of_true ⟨servedOut_goto (served.1.mono (fun _ => id) id id id) rfl, servedIn_goto served.2 rfl⟩ trivial
  | read len =>
    exact iff_of_true ⟨servedOut_goto served.1 rfl, servedIn_goto (served.2.mono (fun _ => id) id id id) rfl⟩ trivial
  | drain => exact iff_of_true ⟨servedOut_goto served.1 rfl, servedIn_goto served.2 rfl⟩ trivial
  | inputFlush =>
    refine iff_of_true ⟨servedOut_goto ?_ rfl, servedIn_goto (servedIn_inputFlush served.2) rfl⟩ trivial
    rw [outSide_of outState_inputFlush]
    exact served.1
  | outputFlush =>
    have inp : ch.outputFlush.inSide.Served := by
      rw [inSide_of inState_outputFlush]
      exact served.2
    refine ⟨fun after => (servedOut_outputFlush sized served.1).1 ⟨?_, after.1.selected⟩, fun told => ?_⟩
    · exact (awake_outputFlush served.1).waiting
    · exact ⟨servedOut_goto ((servedOut_outputFlush sized served.1).2 told) rfl, servedIn_goto inp rfl⟩
  | selectRead =>
    refine iff_of_true (Served.goto ?_ rfl rfl) trivial
    unfold selectRead
    split
    · exact served
    · rename_i empty
      exact ⟨served.1, ⟨served.2.waiting, fun _ filled => empty filled⟩⟩
  | selectWrite =>
    refine iff_of_true (Served.goto ?_ rfl rfl) trivial
    unfold selectWrite
    split
    · exact served
    · rename_i tight
      exact ⟨⟨served.1.waiting, fun _ possible => tight possible⟩, served.2⟩

theorem served_advance (sized : ch.out.lowWater ≤ ch.out.len) (served : ch.Served) :
    (ch.advance t).Served ↔ ch.SoundAt (ch.thread t) := by
  unfold advance
  split
  case h_1 call here =>
    rw [here]
    exact served_enter sized served
  case h_2 rest len here =>
    rw [here]
    exact iff_of_true (served_writing served) trivial
  case h_3 rest len here =>
    rw [here]
    exact served_full served (by rw [here]; rfl)
  case h_4 rest len ok here =>
    rw [here]
    exact served_writeWoken served (by rw [here]; rfl)
  case h_5 len got here =>
    rw [here]
    exact iff_of_true (served_reading served) trivial
  case h_6 len got ok here =>
    rw [here]
    exact served_readWoken served (by rw [here]; rfl)
  case h_7 err here =>
    rw [here]
    exact iff_of_true (served_draining served) trivial
  case h_8 err ok here =>
    rw [here]
    exact iff_of_true ⟨servedOut_goto served.1 rfl, servedIn_goto served.2 rfl⟩ trivial
  case h_9 here =>
    rw [here]
    exact iff_of_true served trivial
  case h_10 here =>
    rw [here]
    exact iff_of_true served trivial
  case h_11 here =>
    rw [here]
    exact iff_of_true served trivial
  case h_12 here =>
    rw [here]
    exact iff_of_true served trivial

theorem served_rcvChar {c : UInt8} (served : ch.Served) : (ch.rcvChar c).Served := by
  have data : (ch.rcvData c).Served := ⟨by rw [outSide_of outState_rcvData]; exact served.1, (servedIn_rcvData served.2).1⟩
  unfold rcvChar
  split
  · split
    · exact ⟨servedOut_throttleTx served.1, served.2⟩
    · split
      · exact ⟨servedOut_restartTx served.1, served.2⟩
      · exact data
  · exact data

theorem served_abort (served : ch.Served) : ch.abort.Served := by
  refine ⟨⟨fun u sleeps => absurd sleeps ?_, served.1.selected⟩, ⟨fun u sleeps => absurd sleeps ?_, served.2.selected⟩⟩
  · simp [abort, outSide]
  · simp [abort, inSide]

theorem served_act {e : Act T} (sized : ch.out.lowWater ≤ ch.out.len) (served : ch.Served) :
    (ch.act e).Served ↔ ch.Sound e := by
  cases e with
  | go t => exact served_advance sized served
  | call t call => exact iff_of_true (served.goto rfl rfl) trivial
  | release t => exact iff_of_true (served.goto (by simp) (by simp)) trivial
  | xmtChar first room =>
    refine iff_of_true ⟨servedOut_xmtChar served.1, ?_⟩ trivial
    simp only [act, inSide_of inState_xmtChar]
    exact served.2
  | rcvChar c => exact iff_of_true (served_rcvChar served) trivial
  | rcvReq avail =>
    refine iff_of_true ⟨?_, servedIn_rcvReq served.2⟩ trivial
    simp only [act, outSide_of outState_rcvReq]
    exact served.1
  | rcvDone bytes count =>
    refine iff_of_true ⟨?_, (servedIn_rcvDone served.2).1⟩ trivial
    simp only [act, outSide_of outState_rcvDone]
    exact served.1
  | xmtReq space =>
    refine iff_of_true ⟨servedOut_xmtReq served.1, ?_⟩ trivial
    simp only [act, inSide_of inState_xmtReq]
    exact served.2
  | xmtDone count =>
    refine iff_of_true ⟨(servedOut_xmtDone served.1).1, ?_⟩ trivial
    simp only [act, inSide_of inState_xmtDone]
    exact served.2
  | abort => exact iff_of_true (served_abort served) trivial
  | throttleTx => exact iff_of_true ⟨servedOut_throttleTx served.1, served.2⟩ trivial
  | restartTx => exact iff_of_true ⟨servedOut_restartTx served.1, served.2⟩ trivial
  | forceRx throttle =>
    refine iff_of_true ?_ trivial
    cases throttle with
    | false => exact served
    | true => exact served
  | setFlow rx tx => exact iff_of_true served trivial
  | setBlocking read write =>
    exact iff_of_true ⟨served.1.mono (fun _ => id) id id id, served.2.mono (fun _ => id) id id id⟩ trivial

end Steps

section Sizes
variable {ch t}

theorem sizes_announceRoom : ch.announceRoom.sizes = ch.sizes := by
  simp only [sizes, announceRoom, selwakeup]
  rw [out_signalOut]

theorem sizes_sendLoop {room : Nat} : (sendLoop room ch).sizes = ch.sizes := by
  induction room generalizing ch with
  | zero =>
    unfold sendLoop
    repeat' split
    all_goals first | rfl | exact sizes_announceRoom
  | succ room ih =>
    unfold sendLoop
    split
    · exact ih
    · exact sizes_announceRoom

theorem sizes_of_outSide {ch' : Channel T} (same : ch'.outSide = ch.outSide) : ch'.sizes = ch.sizes :=
  congrArg (fun v => (v.buf.lowWater, v.buf.len)) same

theorem sizes_xmtChar {first : Bool} {room : Nat} : (ch.xmtChar first room).sizes = ch.sizes := by
  by_cases sends : ch.Sends first
  · obtain ⟨sent, loop, same⟩ := xmtChar_sends room sends
    rw [loop, sizes_sendLoop, sizes_of_outSide same]
  · exact sizes_of_outSide (xmtChar_held sends)

theorem sizes_xmtDone {count : Nat} : (ch.xmtDone count).sizes = ch.sizes := by
  have ring : (ch.out.transmitted count).len = ch.out.len := by
    unfold Ring.transmitted
    split <;> rfl
  have sent : sizes ({ ch with
      out := ch.out.setRing (ch.out.transmitted count)
      wire := ch.wire ++ (window ch.out.data ch.out.get count).map .data } : Channel T) = ch.sizes := by
    simp only [sizes, setRing, ring]
  unfold xmtDone
  dsimp only
  split
  · exact sizes_announceRoom.trans sent
  · exact sent

theorem sizes_advance : (ch.advance t).sizes = ch.sizes := by
  unfold advance
  split
  case h_1 call here =>
    cases call with
    | inputFlush =>
      change ch.inputFlush.sizes = ch.sizes
      exact sizes_of_outSide (outSide_of outState_inputFlush)
    | outputFlush =>
      obtain ⟨-, -, -, water, len⟩ := @outputFlush_keeps T _ ch
      exact Prod.ext water len
    | selectWrite =>
      change ch.selectWrite.sizes = ch.sizes
      unfold selectWrite
      split <;> rfl
    | selectRead =>
      change ch.selectRead.sizes = ch.sizes
      unfold selectRead
      split <;> rfl
    | _ => rfl
  case h_2 rest len here =>
    cases rest with
    | nil => rfl
    | cons c rest =>
      simp only [writing]
      split <;> rfl
  case h_3 rest len here =>
    unfold full writeChecked
    repeat' split
    all_goals rfl
  case h_4 rest len ok here =>
    unfold writeWoken writeChecked
    split <;> rfl
  case h_5 len got here =>
    unfold reading
    split
    · split
      · change ch.takeOne.sizes = ch.sizes
        exact sizes_of_outSide (outSide_of outState_takeOne)
      · split <;> rfl
    · rfl
  case h_6 len got ok here =>
    unfold readWoken
    dsimp only
    split <;> rfl
  case h_7 err here =>
    unfold draining
    split <;> rfl
  all_goals rfl

theorem sizes_act {e : Act T} : (ch.act e).sizes = ch.sizes := by
  cases e with
  | go t => exact sizes_advance
  | xmtChar first room => exact sizes_xmtChar
  | xmtDone count => exact sizes_xmtDone
  | rcvDone bytes count => exact sizes_of_outSide (outSide_of outState_rcvDone)
  | rcvReq avail => exact sizes_of_outSide (outSide_of outState_rcvReq)
  | xmtReq space =>
    simp only [act, xmtReq]
    repeat' split
    all_goals rfl
  | rcvChar c =>
    simp only [act, rcvChar]
    split
    · split
      · rfl
      · split
        · simp only [sizes, restartTx]
          split <;> rfl
        · exact sizes_of_outSide (outSide_of outState_rcvData)
    · exact sizes_of_outSide (outSide_of outState_rcvData)
  | restartTx =>
    simp only [act, sizes, restartTx]
    split <;> rfl
  | forceRx throttle => cases throttle <;> rfl
  | _ => rfl

end Sizes

variable {ch}

/-- A selector is woken when what it waits for comes true. -/
def Tells (ch ch' : Channel T) : Prop :=
  (¬ ch.writable → ch'.writable → ch'.out.selected = false) ∧ (¬ ch.readable → ch'.readable → ch'.inp.selected = false)

theorem Served.tells {ch' : Channel T} (served : ch'.Served) : ch.Tells ch' := by
  refine ⟨fun _ possible => ?_, fun _ possible => ?_⟩
  · by_contra recorded
    exact served.1.selected (eq_true_of_ne_false recorded) possible
  · by_contra recorded
    exact served.2.selected (eq_true_of_ne_false recorded) possible

theorem Start.served (start : ch.Start) : ch.Served := by
  have out : ch.AwakeOut := by
    intro u
    obtain ⟨r, outside⟩ := start.threads u
    rw [outside]
    rfl
  have inp : ch.AwakeIn := by
    intro u
    obtain ⟨r, outside⟩ := start.threads u
    rw [outside]
    rfl
  refine ⟨⟨out.waiting, fun recorded => ?_⟩, ⟨inp.waiting, fun recorded => ?_⟩⟩
  · exact absurd (start.selected.1.symm.trans recorded) (by simp)
  · exact absurd (start.selected.2.symm.trans recorded) (by simp)

theorem Start.sized (start : ch.Start) : ch.out.lowWater ≤ ch.out.len := by
  rw [start.water]
  exact div_le_self _ _

/-- The runs in which all steps are sound. -/
def soundSystem (T : Type*) [DecidableEq T] : Machine (Channel T) :=
  .guided Start (fun ch e => ch.Enabled e ∧ ch.Sound e) act

theorem Reach.served (reach : (soundSystem T).Reach ch) : ch.out.lowWater ≤ ch.out.len ∧ ch.Served := by
  refine reach.kept (P := fun ch => ch.out.lowWater ≤ ch.out.len ∧ ch.Served)
    (fun _ start => ⟨start.sized, start.served⟩) ?_
  rintro ch e ⟨sized, served⟩ ⟨-, sound⟩
  have sizes := @sizes_act T _ ch e
  exact ⟨(congrArg Prod.fst sizes).trans_le (sized.trans (congrArg Prod.snd sizes).ge), (served_act sized served).2 sound⟩

/-- In every run whose steps are sound `waiting` is set for all who sleep, so that the next byte from the line wakes the
readers, the next bytes that leave room in the output buffer wake those who wait for it, and a selector is woken by the
step that makes its operation possible. A step that is not sound strands someone at once. -/
theorem no_one_stranded (reach : (soundSystem T).Reach ch) :
    ch.Served ∧
      (∀ c, ¬ (ch.flow.xonxoffTx = true ∧ (c = ch.flow.xoff ∨ c = ch.flow.xon)) → (ch.rcvChar c).AwakeIn) ∧
      (∀ bytes count, (ch.rcvDone bytes count).AwakeIn) ∧
      (∀ first room, ch.Sends first → (ch.xmtChar first room).out.lowWater ≤ (ch.xmtChar first room).out.space ∨
        (ch.xmtChar first room).out.nb = 0 → (ch.xmtChar first room).AwakeOut) ∧
      (∀ count, (ch.xmtDone count).out.lowWater ≤ (ch.xmtDone count).out.space ∨ (ch.xmtDone count).out.nb = 0 →
        (ch.xmtDone count).AwakeOut) ∧
      ∀ e, ch.Enabled e → (ch.Sound e ↔ (ch.act e).Served) ∧ (ch.Sound e → ch.Tells (ch.act e)) := by
  obtain ⟨sized, served⟩ := Reach.served reach
  refine ⟨served, fun c data => ?_, fun bytes count => (servedIn_rcvDone served.2).2,
    fun first room sends => awake_xmtChar served.1 sends, fun count enough => ?_, fun e _ => ?_⟩
  · have awake := (servedIn_rcvData (c := c) served.2).2
    unfold rcvChar
    split
    · rename_i flow
      rw [if_neg fun same => data ⟨flow, .inl same⟩, if_neg fun same => data ⟨flow, .inr same⟩]
      exact awake
    · exact awake
  · refine (servedOut_xmtDone served.1).2 ?_
    have sizes := @sizes_xmtDone T _ ch count
    have water : (ch.xmtDone count).out.lowWater = ch.out.lowWater := congrArg Prod.fst sizes
    have len : (ch.xmtDone count).out.len = ch.out.len := congrArg Prod.snd sizes
    rcases enough with enough | empty
    · exact enough
    · unfold Cbuf.space
      omega
  · have step := served_act (e := e) sized served
    exact ⟨step.symm, fun sound => (step.2 sound).tells⟩

/-- A reader that finds nothing goes to sleep. -/
def oneReader : List (Act Unit) := [.call () (.read 1), .go (), .go ()]

theorem oneReader_admitted : Machine.Admits (fun ch e => Enabled ch e ∧ Sound ch e) act (fresh Unit) oneReader :=
  ⟨⟨⟨_, rfl⟩, trivial⟩, ⟨rfl, trivial⟩, ⟨trivial, trivial⟩, trivial⟩

theorem no_one_stranded_oneReader : ((oneReader.foldl act (fresh Unit)).thread ()).asleepIn = true ∧
    (oneReader.foldl act (fresh Unit)).Served :=
  ⟨rfl, (no_one_stranded (Machine.Reach.run (.start fresh_start) oneReader_admitted)).1⟩

/-- Two readers sleep; the first is released and clears `waiting` on its way out. -/
def twoReaders : List (Act Bool) :=
  [.call true (.read 1), .go true, .go true, .call false (.read 1), .go false, .go false, .release true, .go true]

theorem twoReaders_admitted : Machine.Admits Enabled act (fresh Bool) twoReaders :=
  ⟨⟨_, rfl⟩, rfl, trivial, ⟨_, rfl⟩, rfl, trivial, .inr rfl, rfl, trivial⟩

theorem reader_stranded : ¬ ∀ ch : Channel Bool, (system Bool).Reach ch → ch.Served := by
  intro claim
  have served := claim _ (Machine.Reach.run (.start fresh_start) twoReaders_admitted)
  exact absurd (served.2.waiting false rfl) (by decide)

end Channel

end Ecos.Serial
