import Ecos.Serial.Channel

namespace Ecos.Serial
open List Nat Ring Option

/-- What the stream from the writers to the line depends on. -/
structure OutView where
  ring : Ring
  offered : Option Nat
  accepted : List UInt8
  wire : List Wire

/-- What the stream from the line to the readers depends on. -/
structure InView where
  ring : Ring
  offered : Option Nat
  stored : List UInt8
  returned : List UInt8

/-- The bytes handed in are those that the driver has taken and those in the buffer; what it is offered is unsent. -/
structure OutView.Fifo (v : OutView) : Prop where
  sound : v.ring.Sound
  stream : v.accepted = v.wire.filterMap Wire.data? ++ v.ring.contents
  offer : ∀ n, v.offered = some n → v.ring.Chunk n

/-- The bytes kept are those that the readers have been given and those in the buffer; the space that the driver is
offered is free. -/
structure InView.Fifo (v : InView) : Prop where
  sound : v.ring.Sound
  stream : v.stored = v.returned ++ v.ring.contents
  offer : ∀ n, v.offered = some n → v.ring.Space n

namespace Point
variable (p : Point)

@[simp] theorem asleepOut_wakeIn : p.wakeIn.asleepOut = p.asleepOut := by cases p <;> rfl

@[simp] theorem asleepIn_wakeOut : p.wakeOut.asleepIn = p.asleepIn := by cases p <;> rfl

end Point

namespace Channel
variable {T : Type*} [DecidableEq T] (ch : Channel T) (t : T)

def outView : OutView := ⟨ch.out.toRing, ch.out.offered, ch.accepted, ch.wire⟩

def inView : InView := ⟨ch.inp.toRing, ch.inp.offered, ch.stored, ch.returned⟩

/-- The output side, which the steps of the input leave alone, and the input side. -/
def outState : Cbuf × Bool × List UInt8 × List Wire × (T → Bool) :=
  (ch.out, ch.flow.outThrottled, ch.accepted, ch.wire, fun t => (ch.thread t).asleepOut)

def inState : Cbuf × List UInt8 × List UInt8 × (T → Bool) :=
  (ch.inp, ch.stored, ch.returned, fun t => (ch.thread t).asleepIn)

section Frames
variable {ch t} {ch' : Channel T} {c : UInt8} {room : Nat}

theorem outView_of (same : ch'.outState = ch.outState) : ch'.outView = ch.outView := by
  simp only [outState, Prod.mk.injEq] at same
  simp [outView, same]

theorem inView_of (same : ch'.inState = ch.inState) : ch'.inView = ch.inView := by
  simp only [inState, Prod.mk.injEq] at same
  simp [inView, same]

@[simp] theorem outView_signalOut : ch.signalOut.outView = ch.outView := by
  unfold signalOut
  split <;> rfl

@[simp] theorem inState_signalOut : ch.signalOut.inState = ch.inState := by
  unfold signalOut
  split
  · simp [inState]
  · rfl

@[simp] theorem outState_signalIn : ch.signalIn.outState = ch.outState := by
  unfold signalIn
  split
  · simp [outState]
  · rfl

@[simp] theorem inView_signalIn : ch.signalIn.inView = ch.inView := by
  unfold signalIn
  split <;> rfl

@[simp] theorem outView_announceRoom : ch.announceRoom.outView = ch.outView := outView_signalOut

@[simp] theorem inState_announceRoom : ch.announceRoom.inState = ch.inState := inState_signalOut

@[simp] theorem outView_restartTx : ch.restartTx.outView = ch.outView := by
  unfold restartTx outView
  split <;> rfl

theorem inState_sendLoop : (sendLoop room ch).inState = ch.inState := by
  induction room generalizing ch with
  | zero =>
    unfold sendLoop
    repeat' split
    all_goals simp
  | succ room ih =>
    unfold sendLoop
    split
    · exact ih
    · simp

theorem inState_xmtChar {first : Bool} : (ch.xmtChar first room).inState = ch.inState := by
  unfold xmtChar xmtData
  repeat' split
  all_goals first | rfl | exact inState_sendLoop

@[simp] theorem inView_checkHighWater : ch.checkHighWater.inView = ch.inView := by
  unfold checkHighWater
  split <;> rfl

@[simp] theorem inView_announceFirst : ch.announceFirst.inView = ch.inView := by
  unfold announceFirst
  split <;> rfl

@[simp] theorem inView_abortIn : ch.abortIn.inView = ch.inView := by
  unfold abortIn
  split
  · rw [inView_signalIn]
    rfl
  · rfl

@[simp] theorem outView_abortOut : ch.abortOut.outView = ch.outView := by
  unfold abortOut
  split
  · rw [outView_signalOut]
    rfl
  · rfl

@[simp] theorem outState_checkHighWater : ch.checkHighWater.outState = ch.outState := by
  unfold checkHighWater
  split <;> rfl

@[simp] theorem outState_announceFirst : ch.announceFirst.outState = ch.outState := by
  unfold announceFirst
  split <;> rfl

@[simp] theorem outState_keep : (ch.keep c).outState = ch.outState := by
  unfold keep
  split <;> rfl

@[simp] theorem outState_rcvData : (ch.rcvData c).outState = ch.outState := by
  rw [rcvData, outState_signalIn, outState_keep, outState_announceFirst, outState_checkHighWater]

theorem outState_rcvReq {avail : Nat} : (ch.rcvReq avail).outState = ch.outState := by
  unfold rcvReq
  repeat' split
  all_goals rfl

theorem outState_rcvDone {bytes : List UInt8} {count : Nat} : (ch.rcvDone bytes count).outState = ch.outState := by
  have woken : ∀ ch : Channel T, outState (if count = ch.inp.nb then { ch with inp := ch.inp.selwakeup } else ch) =
      ch.outState := by
    intro ch
    split <;> rfl
  exact (woken _).trans (outState_checkHighWater.trans outState_signalIn)

theorem inState_xmtReq {space : Nat} : (ch.xmtReq space).inState = ch.inState := by
  unfold xmtReq
  repeat' split
  all_goals rfl

theorem inState_xmtDone {count : Nat} : (ch.xmtDone count).inState = ch.inState := by
  unfold xmtDone
  dsimp only
  split
  · exact inState_announceRoom
  · rfl

theorem outState_inputFlush : ch.inputFlush.outState = ch.outState := by
  have gone : ch.abortIn.dropIn.outState = ch.outState := by
    unfold abortIn
    split
    · exact outState_signalIn
    · rfl
  unfold inputFlush
  dsimp only
  split <;> exact gone

theorem inState_outputFlush : ch.outputFlush.inState = ch.inState := by
  unfold outputFlush abortOut
  split
  · rw [inState_signalOut]
    rfl
  · rfl

theorem outState_takeOne : ch.takeOne.outState = ch.outState := by
  unfold takeOne
  split <;> rfl

end Frames

variable {ch t}

section
variable (fifo : ch.outView.Fifo)
include fifo

theorem fifo_sendOne (free : ch.out.offered = none) (filled : 0 < ch.out.nb) : ch.sendOne.outView.Fifo := by
  obtain ⟨sound, stream, _⟩ := fifo
  refine ⟨sound.pop filled, ?_, ?_⟩
  · change ch.accepted = (ch.wire ++ [Wire.data (ch.out.data ch.out.get)]).filterMap Wire.data? ++ ch.out.pop.contents
    have whole := sound.contents_pop filled
    change ch.out.contents = _ :: ch.out.pop.contents at whole
    change ch.accepted = _ ++ ch.out.contents at stream
    rw [stream, whole]
    simp [outView, Wire.data?]
  · intro n offered
    change ch.out.offered = some n at offered
    rw [free] at offered
    cases offered

theorem fifo_sendLoop {room : Nat} (free : ch.out.offered = none) : (sendLoop room ch).outView.Fifo := by
  induction room generalizing ch with
  | zero =>
    unfold sendLoop
    repeat' split
    all_goals simpa using fifo
  | succ room ih =>
    unfold sendLoop
    split
    · rename_i filled
      exact ih (fifo_sendOne fifo free filled) free
    · simpa using fifo

theorem fifo_xmtChar {first : Bool} {room : Nat} (free : ch.out.offered = none) :
    (ch.xmtChar first room).outView.Fifo := by
  have control : ∀ f x, OutView.Fifo (outView { ch with flow := f, wire := ch.wire ++ [.flow x] }) := by
    intro f x
    obtain ⟨sound, stream, offer⟩ := fifo
    refine ⟨sound, ?_, offer⟩
    change ch.accepted = (ch.wire ++ [Wire.flow x]).filterMap Wire.data? ++ ch.out.contents
    have none : [Wire.flow x].filterMap Wire.data? = [] := rfl
    rw [filterMap_append, none, append_nil]
    exact stream
  unfold xmtChar xmtData
  split
  · split
    · split
      · exact control _ _
      · exact fifo_sendLoop (control _ _) free
    · exact fifo
  · split
    · exact fifo
    · exact fifo_sendLoop fifo free

theorem fifo_xmtReq {space : Nat} : (ch.xmtReq space).outView.Fifo := by
  unfold xmtReq
  repeat' split
  case isFalse filled =>
    obtain ⟨sound, stream, _⟩ := fifo
    refine ⟨sound, stream, ?_⟩
    intro n offered
    cases offered
    exact (sound.chunk_chunk (Nat.pos_of_ne_zero filled)).le (min_le_left _ _)
  all_goals exact fifo

theorem fifo_xmtDone {count n : Nat} (offered : ch.out.offered = some n) (within : count ≤ n) :
    (ch.xmtDone count).outView.Fifo := by
  obtain ⟨sound, stream, offer⟩ := fifo
  have chunk := offer n offered
  have done : OutView.Fifo ⟨ch.out.transmitted count, none, ch.accepted,
      ch.wire ++ (window ch.out.data ch.out.get count).map .data⟩ := by
    refine ⟨sound.transmitted chunk within, ?_, by simp⟩
    have whole := sound.contents_transmitted chunk within
    change ch.out.contents = _ at whole
    change ch.accepted = _ ++ ch.out.contents at stream
    rw [stream, whole]
    simp [outView, Wire.data?, filterMap_map, Function.comp_def]
  have settled : ∀ ch : Channel T,
      outView { ch with out := { ch.out with offered := none } } = { ch.outView with offered := none } := fun _ => rfl
  unfold xmtDone
  rw [settled]
  split
  · rw [outView_announceRoom]
    exact done
  · exact done

theorem fifo_accept {c : UInt8} (room : ch.out.nb ≠ ch.out.len) :
    OutView.Fifo (outView { ch with out := ch.out.setRing (ch.out.push c), accepted := ch.accepted ++ [c] }) := by
  obtain ⟨sound, stream, offer⟩ := fifo
  have less : ch.out.nb < ch.out.len := lt_of_le_of_ne sound.fits room
  refine ⟨sound.push less, ?_, ?_⟩
  · change ch.accepted ++ [c] = ch.wire.filterMap Wire.data? ++ (ch.out.push c).contents
    have whole := sound.contents_push (c := c) less
    change (ch.out.push c).contents = ch.out.contents ++ [c] at whole
    change ch.accepted = _ ++ ch.out.contents at stream
    rw [stream, whole, append_assoc]
    rfl
  · intro n offered
    obtain ⟨inside, unsent⟩ := offer n offered
    exact ⟨inside, unsent.trans (le_succ _)⟩

theorem fifo_outputFlush : ch.outputFlush.outView.Fifo := by
  obtain ⟨sound, _, _⟩ := fifo
  have none : ∀ (r : Ring) n, r.Sound → (ch.out.offered.map fun _ => 0) = some n → r.Chunk n := by
    intro r n sound offered
    obtain ⟨_, _, rfl⟩ := map_eq_some_iff.mp offered
    exact ⟨sound.get.le, zero_le _⟩
  rw [outputFlush, outView_abortOut]
  by_cases filled : 0 < ch.out.nb
  · have same : ch.dropOut.outView = ⟨ch.out.clear, ch.out.offered.map fun _ => 0, [], []⟩ := by
      rw [dropOut, if_pos filled]
      rfl
    rw [same]
    exact ⟨sound.clear, rfl, fun n => none _ n sound.clear⟩
  · have same : ch.dropOut.outView = ⟨ch.out.toRing, ch.out.offered.map fun _ => 0, [], []⟩ := by
      rw [dropOut, if_neg filled]
      rfl
    rw [same]
    refine ⟨sound, ?_, fun n => none _ n sound⟩
    have zero : ch.out.nb = 0 := by omega
    simp [contents, zero]

end

theorem fifo_takeOne (fifo : ch.inView.Fifo) (filled : 0 < ch.inp.nb) : ch.takeOne.inView.Fifo := by
  obtain ⟨sound, stream, offer⟩ := fifo
  have taken : InView.Fifo ⟨ch.inp.pop, ch.inp.offered, ch.stored, ch.returned ++ [ch.inp.data ch.inp.get]⟩ := by
    refine ⟨sound.pop filled, ?_, ?_⟩
    · have whole := sound.contents_pop filled
      change ch.inp.contents = ch.inp.data ch.inp.get :: ch.inp.pop.contents at whole
      change ch.stored = ch.returned ++ ch.inp.contents at stream
      rw [stream, whole, append_assoc]
      rfl
    · intro n offered
      obtain ⟨inside, free⟩ := offer n offered
      exact ⟨inside, le_trans (Nat.add_le_add_right (Nat.sub_le _ _) n) free⟩
  unfold takeOne
  split <;> exact taken

theorem inView_keep {c : UInt8} : (ch.keep c).inView = if ch.inView.ring.nb < ch.inView.ring.len then
    ⟨ch.inView.ring.push c, ch.inView.offered, ch.inView.stored ++ [c], ch.inView.returned⟩ else ch.inView := by
  change inView (if ch.inp.nb < ch.inp.len then _ else ch) = if ch.inp.nb < ch.inp.len then _ else _
  split <;> rfl

theorem inView_rcvData {c : UInt8} : (ch.rcvData c).inView =
    if ch.inp.nb < ch.inp.len then ⟨ch.inp.push c, ch.inp.offered, ch.stored ++ [c], ch.returned⟩ else ch.inView := by
  rw [rcvData, inView_signalIn, inView_keep, inView_announceFirst, inView_checkHighWater]
  rfl

theorem fifo_rcvData {c : UInt8} (fifo : ch.inView.Fifo) (free : ch.inp.offered = none) : (ch.rcvData c).inView.Fifo := by
  rw [inView_rcvData]
  split
  · rename_i room
    obtain ⟨sound, stream, _⟩ := fifo
    refine ⟨sound.push room, ?_, ?_⟩
    · have whole := sound.contents_push (c := c) room
      change (ch.inp.push c).contents = ch.inp.contents ++ [c] at whole
      change ch.stored = _ ++ ch.inp.contents at stream
      rw [stream, whole, append_assoc]
      rfl
    · intro n offered
      rw [free] at offered
      cases offered
  · exact fifo

theorem fifo_rcvReq {avail : Nat} (fifo : ch.inView.Fifo) : (ch.rcvReq avail).inView.Fifo := by
  unfold rcvReq
  repeat' split
  case isFalse room =>
    obtain ⟨sound, stream, _⟩ := fifo
    have less : ch.inp.nb < ch.inp.len := lt_of_le_of_ne sound.fits room
    refine ⟨sound.rewind, ?_, ?_⟩
    · change ch.stored = ch.returned ++ ch.inp.rewind.contents
      rw [contents_rewind]
      exact stream
    · intro n offered
      cases offered
      exact (sound.space_gap less).le (min_le_left _ _)
  all_goals exact fifo

theorem inView_rcvDone {bytes : List UInt8} {count : Nat} : (ch.rcvDone bytes count).inView =
    ⟨ch.inp.received bytes count, none, ch.stored ++ bytes.take count, ch.returned⟩ := by
  have settled : ∀ ch : Channel T,
      inView { ch with inp := { ch.inp with offered := none } } = { ch.inView with offered := none } := fun _ => rfl
  have woken : ∀ ch : Channel T, inView (if count = ch.inp.nb then { ch with inp := ch.inp.selwakeup } else ch) = ch.inView := by
    intro ch
    split <;> rfl
  unfold rcvDone
  rw [settled, woken, inView_checkHighWater, inView_signalIn]
  rfl

theorem fifo_rcvDone {bytes : List UInt8} {count n : Nat} (fifo : ch.inView.Fifo) (offered : ch.inp.offered = some n)
    (within : bytes.length ≤ n) (stored : count ≤ bytes.length) : (ch.rcvDone bytes count).inView.Fifo := by
  obtain ⟨sound, stream, offer⟩ := fifo
  have space := offer n offered
  rw [inView_rcvDone]
  refine ⟨sound.received space (stored.trans within), ?_, by simp⟩
  have whole := sound.contents_received space within stored
  change (ch.inp.received bytes count).contents = ch.inp.contents ++ _ at whole
  change ch.stored = _ ++ ch.inp.contents at stream
  rw [stream, whole, append_assoc]
  rfl

theorem fifo_inputFlush (fifo : ch.inView.Fifo) : ch.inputFlush.inView.Fifo := by
  obtain ⟨sound, _, _⟩ := fifo
  have ring : ch.abortIn.inp.toRing = ch.inp.toRing := congrArg InView.ring inView_abortIn
  have offered : ch.abortIn.inp.offered = ch.inp.offered := congrArg InView.offered inView_abortIn
  have dropped : ch.abortIn.dropIn.inView = ⟨ch.inp.clear, ch.inp.offered.map fun _ => 0, [], []⟩ := by
    change (⟨ch.abortIn.inp.clear, ch.abortIn.inp.offered.map fun _ => 0, [], []⟩ : InView) = _
    rw [ring, offered]
  have same : ch.inputFlush.inView = ch.abortIn.dropIn.inView := by
    unfold inputFlush
    dsimp only
    split <;> rfl
  rw [same, dropped]
  refine ⟨sound.clear, rfl, ?_⟩
  intro n cut
  obtain ⟨_, _, rfl⟩ := map_eq_some_iff.mp cut
  exact ⟨zero_le _, zero_le _⟩

/-- Both directions are queues. -/
def Fifo (ch : Channel T) : Prop := ch.outView.Fifo ∧ ch.inView.Fifo

section
variable (fifo : ch.Fifo)
include fifo

theorem Fifo.of_views {ch' : Channel T} (out : ch'.outView = ch.outView) (inp : ch'.inView = ch.inView) :
    ch'.Fifo := by
  rw [Fifo, out, inp]
  exact fifo

theorem Fifo.of_out {ch' : Channel T} (out : ch'.outView.Fifo) (inp : ch'.inView = ch.inView) : ch'.Fifo := by
  rw [Fifo, inp]
  exact ⟨out, fifo.2⟩

theorem Fifo.of_in {ch' : Channel T} (inp : ch'.inView.Fifo) (out : ch'.outView = ch.outView) : ch'.Fifo := by
  rw [Fifo, out]
  exact ⟨fifo.1, inp⟩

theorem Fifo.enter (call : Call) : (ch.enter t call).Fifo := by
  cases call with
  | write bytes => exact fifo.of_views rfl rfl
  | read len => exact fifo.of_views rfl rfl
  | drain => exact fifo.of_views rfl rfl
  | inputFlush =>
    have kept := outView_of (@outState_inputFlush T _ ch)
    exact fifo.of_in (fifo_inputFlush fifo.2) kept
  | outputFlush =>
    have kept := inView_of (@inState_outputFlush T _ ch)
    exact fifo.of_out (fifo_outputFlush fifo.1) kept
  | selectRead =>
    unfold Channel.enter selectRead
    dsimp only
    split <;> exact fifo.of_views rfl rfl
  | selectWrite =>
    unfold Channel.enter selectWrite
    dsimp only
    split <;> exact fifo.of_views rfl rfl

theorem Fifo.writing (len : Nat) (rest : List UInt8) : (ch.writing t len rest).Fifo := by
  cases rest with
  | nil => exact fifo.of_views rfl rfl
  | cons c rest =>
    by_cases full : ch.out.nb = ch.out.len
    · rw [Channel.writing, if_pos full]
      exact fifo.of_views rfl rfl
    · rw [Channel.writing, if_neg full]
      exact fifo.of_out (fifo_accept fifo.1 full) rfl

theorem Fifo.writeChecked (rest : List UInt8) (len : Nat) : (ch.writeChecked t rest len).Fifo := by
  unfold Channel.writeChecked
  split <;> exact fifo.of_views rfl rfl

theorem Fifo.writeWoken (rest : List UInt8) (len : Nat) (ok : Bool) : (ch.writeWoken t rest len ok).Fifo := by
  refine Fifo.writeChecked ?_ rest len
  exact fifo.of_views rfl rfl

theorem Fifo.full (rest : List UInt8) (len : Nat) : (ch.full t rest len).Fifo := by
  unfold Channel.full
  split
  · split <;> exact fifo.of_views rfl rfl
  · exact fifo.writeChecked rest len

theorem Fifo.reading (len : Nat) (got : List UInt8) : (ch.reading t len got).Fifo := by
  unfold Channel.reading
  split
  · split
    · rename_i filled
      have kept := outView_of (@outState_takeOne T _ ch)
      exact fifo.of_in (fifo_takeOne fifo.2 filled) kept
    · split <;> exact fifo.of_views rfl rfl
  · exact fifo.of_views rfl rfl

theorem Fifo.readWoken (len : Nat) (got : List UInt8) (ok : Bool) : (ch.readWoken t len got ok).Fifo := by
  unfold Channel.readWoken
  dsimp only
  split <;> exact fifo.of_views rfl rfl

theorem Fifo.draining (err : Err) : (ch.draining t err).Fifo := by
  unfold Channel.draining
  split <;> exact fifo.of_views rfl rfl

theorem Fifo.advance : (ch.advance t).Fifo := by
  unfold Channel.advance
  cases ch.thread t with
  | enter call => exact fifo.enter call
  | writing rest len => exact fifo.writing len rest
  | full rest len => exact fifo.full rest len
  | writeWoken rest len ok => exact fifo.writeWoken rest len ok
  | reading len got => exact fifo.reading len got
  | readWoken len got ok => exact fifo.readWoken len got ok
  | draining err => exact fifo.draining err
  | drainWoken err ok => exact fifo.of_views rfl rfl
  | user r => exact fifo
  | writeAsleep rest len => exact fifo
  | readAsleep len got => exact fifo
  | drainAsleep err => exact fifo

theorem Fifo.rcvChar (free : ch.inp.offered = none) (c : UInt8) : (ch.rcvChar c).Fifo := by
  have data : (ch.rcvData c).Fifo := fifo.of_in (fifo_rcvData fifo.2 free) (outView_of outState_rcvData)
  unfold Channel.rcvChar
  split
  · split
    · exact fifo.of_views rfl rfl
    · split
      · exact fifo.of_views outView_restartTx rfl
      · exact data
  · exact data

theorem Fifo.act {e : Act T} (enabled : ch.Enabled e) : (ch.act e).Fifo := by
  cases e with
  | call t call => exact fifo.of_views rfl rfl
  | go t => exact fifo.advance
  | release t => exact fifo.of_views rfl rfl
  | xmtChar first room => exact fifo.of_out (fifo_xmtChar fifo.1 enabled) (inView_of inState_xmtChar)
  | rcvChar c => exact fifo.rcvChar enabled c
  | rcvReq avail => exact fifo.of_in (fifo_rcvReq fifo.2) (outView_of outState_rcvReq)
  | rcvDone bytes count =>
    obtain ⟨n, offered, within, stored⟩ := enabled
    exact fifo.of_in (fifo_rcvDone fifo.2 offered within stored) (outView_of outState_rcvDone)
  | xmtReq space => exact fifo.of_out (fifo_xmtReq fifo.1) (inView_of inState_xmtReq)
  | xmtDone count =>
    obtain ⟨n, offered, within⟩ := enabled
    exact fifo.of_out (fifo_xmtDone fifo.1 offered within) (inView_of inState_xmtDone)
  | abort => exact fifo.of_views rfl rfl
  | throttleTx => exact fifo.of_views rfl rfl
  | restartTx => exact fifo.of_views outView_restartTx rfl
  | forceRx throttle =>
    unfold Channel.act
    dsimp only
    split <;> exact fifo.of_views rfl rfl
  | setFlow rx tx => exact fifo.of_views rfl rfl
  | setBlocking read write => exact fifo.of_views rfl rfl

end

theorem Start.fifo (start : ch.Start) : ch.Fifo := by
  obtain ⟨⟨outSome, outGet, outPut, outNb⟩, ⟨inSome, inGet, inPut, inNb⟩, _, offered, _, _, _, _, none⟩ := start
  have outSound : ch.out.Sound := ⟨by omega, by omega, by rw [outGet, outPut, outNb]; exact (zero_mod _).symm⟩
  have inSound : ch.inp.Sound := ⟨by omega, by omega, by rw [inGet, inPut, inNb]; exact (zero_mod _).symm⟩
  refine ⟨⟨outSound, ?_, ?_⟩, ⟨inSound, ?_, ?_⟩⟩
  · simp [outView, none, contents, outNb]
  · simp [outView, offered]
  · simp [inView, none, contents, inNb]
  · simp [inView, offered]

theorem Reach.fifo (reach : (system T).Reach ch) : ch.Fifo :=
  reach.kept (fun _ start => start.fifo) fun _ _ fifo enabled => fifo.act enabled

end Channel

/-- The indices of a buffer. -/
def Ring.Inside (r : Ring) : Prop := r.nb ≤ r.len ∧ r.get < r.len ∧ r.put < r.len ∧ r.put = (r.get + r.nb) % r.len

theorem Ring.Sound.inside {r : Ring} (sound : r.Sound) : r.Inside := ⟨sound.fits, sound.get, sound.put_lt, sound.put⟩

namespace Channel
variable {T : Type*} [DecidableEq T] {ch : Channel T}

/-- A buffer of eight bytes, empty. -/
def freshCbuf : Cbuf where
  data := fun _ => 0
  put := 0
  get := 0
  len := 8
  nb := 0
  lowWater := 2
  highWater := 6
  waiting := false
  blocking := true
  abort := false
  pending := 0
  selected := false
  offered := none

def fresh (T : Type*) : Channel T where
  out := freshCbuf
  inp := freshCbuf
  flow := ⟨false, false, false, false, 0, 17, 19⟩
  outLock := none
  inLock := none
  thread := fun _ => .user ⟨.enoerr, 0, []⟩
  accepted := []
  wire := []
  stored := []
  returned := []

theorem freshCbuf_empty : 0 < freshCbuf.len ∧ freshCbuf.get = 0 ∧ freshCbuf.put = 0 ∧ freshCbuf.nb = 0 := by decide

theorem freshCbuf_water : freshCbuf.lowWater = freshCbuf.len / 4 := by decide

theorem fresh_start : (fresh T).Start :=
  ⟨freshCbuf_empty, freshCbuf_empty, freshCbuf_water, ⟨rfl, rfl⟩, ⟨rfl, rfl⟩, ⟨rfl, rfl⟩, ⟨rfl, rfl⟩, fun _ => ⟨_, rfl⟩,
    rfl, rfl, rfl, rfl⟩

/-- A thread writes a byte, and the driver asks for it. -/
def oneByte : List (Act Unit) := [.call () (.write [7]), .go (), .go (), .xmtReq 16]

end Channel

end Ecos.Serial
