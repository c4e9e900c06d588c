import Ecos.Serial.Cbuf
import Ecos.Lib.Machine

namespace Ecos.Serial

/-- `cbuf_t`. `selected` tells whether a selector is recorded in `selinfo`, `offered` how much a `*_req` call has handed
to the driver, until the transfer is done. -/
structure Cbuf extends Ring where
  lowWater : Nat
  highWater : Nat
  waiting : Bool
  blocking : Bool
  abort : Bool
  pending : Nat
  selected : Bool
  offered : Option Nat

namespace Cbuf

def space (b : Cbuf) : Nat := b.len - b.nb

def setRing (b : Cbuf) (r : Ring) : Cbuf := { b with toRing := r }

/-- `cyg_selwakeup`. -/
def selwakeup (b : Cbuf) : Cbuf := { b with selected := false }

/-- A flush puts an end to the transfer that is under way: nothing of it can be reported any more. -/
def cutOff (b : Cbuf) : Cbuf := { b with offered := b.offered.map fun _ => 0 }

end Cbuf

/-- `flow_desc`, and the flags of the configuration for software flow control. -/
structure Flow where
  outThrottled : Bool
  inThrottled : Bool
  xonxoffRx : Bool
  xonxoffTx : Bool
  xchar : UInt8
  xon : UInt8
  xoff : UInt8

inductive Err
  | enoerr | eagain | eintr
  deriving DecidableEq, Repr

/-- What a call returns: the error, `*len`, and the bytes that were read. -/
structure Result where
  err : Err
  len : Nat
  bytes : List UInt8
  deriving DecidableEq, Repr

inductive Call
  | write (bytes : List UInt8)
  | read (len : Nat)
  | drain
  | inputFlush
  | outputFlush
  | selectRead
  | selectWrite
  deriving DecidableEq, Repr

/-- Where a thread is. In `writing`, `full` and `draining` it has the lock of the output buffer, in `reading` that of
the input buffer; in `full` it has called `start_xmit`. -/
inductive Point
  | user (r : Result)
  | enter (call : Call)
  | writing (rest : List UInt8) (len : Nat)
  | full (rest : List UInt8) (len : Nat)
  | writeAsleep (rest : List UInt8) (len : Nat)
  | writeWoken (rest : List UInt8) (len : Nat) (ok : Bool)
  | reading (len : Nat) (got : List UInt8)
  | readAsleep (len : Nat) (got : List UInt8)
  | readWoken (len : Nat) (got : List UInt8) (ok : Bool)
  | draining (err : Err)
  | drainAsleep (err : Err)
  | drainWoken (err : Err) (ok : Bool)
  deriving DecidableEq, Repr

namespace Point

/-- `cyg_drv_cond_broadcast` on the condition of the output buffer, and on that of the input buffer. -/
def wakeOut : Point → Point
  | .writeAsleep rest len => .writeWoken rest len true
  | .drainAsleep err => .drainWoken err true
  | p => p

def wakeIn : Point → Point
  | .readAsleep len got => .readWoken len got true
  | p => p

/-- `cyg_drv_cond_wait` returns false. -/
def release : Point → Point
  | .writeAsleep rest len => .writeWoken rest len false
  | .drainAsleep err => .drainWoken err false
  | .readAsleep len got => .readWoken len got false
  | p => p

def asleepOut : Point → Bool
  | .writeAsleep _ _ | .drainAsleep _ => true
  | _ => false

def asleepIn : Point → Bool
  | .readAsleep _ _ => true
  | _ => false

end Point

/-- A byte that the driver has taken: one of the buffer, or a character of the flow control. -/
inductive Wire
  | data (c : UInt8)
  | flow (c : UInt8)
  deriving DecidableEq, Repr

def Wire.data? : Wire → Option UInt8
  | .data c => some c
  | .flow _ => none

/-- A buffered channel and its threads. The last four fields tell, since the last flush of the buffer, which bytes
the writers have handed in, which bytes the driver has taken, which bytes have come in from the line and been kept,
and which bytes the readers have been given. -/
structure Channel (T : Type*) where
  out : Cbuf
  inp : Cbuf
  flow : Flow
  outLock : Option T
  inLock : Option T
  thread : T → Point
  accepted : List UInt8
  wire : List Wire
  stored : List UInt8
  returned : List UInt8

namespace Channel
variable {T : Type*} [DecidableEq T] (ch : Channel T) (t : T)

def goto (p : Point) : Channel T := { ch with thread := Function.update ch.thread t p }

/-- `if (cbuf->waiting)`: wake those who wait for room. -/
def signalOut : Channel T :=
  if ch.out.waiting then { ch with out := { ch.out with waiting := false }, thread := fun t => (ch.thread t).wakeOut } else ch

def signalIn : Channel T :=
  if ch.inp.waiting then { ch with inp := { ch.inp with waiting := false }, thread := fun t => (ch.thread t).wakeIn } else ch

/-- Signal the writers and the selectors. -/
def announceRoom : Channel T := let ch := ch.signalOut; { ch with out := ch.out.selwakeup }

def throttleTx : Channel T := { ch with flow := { ch.flow with outThrottled := true } }

def restartTx : Channel T :=
  { ch with
    flow := { ch.flow with outThrottled := false }
    out := if ch.out.lowWater ≤ ch.out.space then ch.out.selwakeup else ch.out }

def throttleRx (force : Bool) : Channel T :=
  { ch with flow := { ch.flow with
      inThrottled := true
      xchar := if force ∨ ch.flow.xonxoffRx ∧ ¬ ch.flow.inThrottled then ch.flow.xoff else ch.flow.xchar } }

def restartRx (force : Bool) : Channel T :=
  { ch with flow := { ch.flow with
      inThrottled := false
      xchar := if force ∨ ch.flow.xonxoffRx ∧ ch.flow.inThrottled then ch.flow.xon else ch.flow.xchar } }

/-- The byte at `get` goes to the driver. -/
def sendOne : Channel T :=
  { ch with out := ch.out.setRing ch.out.pop, wire := ch.wire ++ [.data (ch.out.data ch.out.get)] }

/-- The loop of `serial_xmt_char`; `room` is how often `putc` succeeds. -/
def sendLoop : Nat → Channel T → Channel T
  | 0, ch =>
    if 0 < ch.out.nb then
      -- enough room to restart writer?
      if ch.out.lowWater ≤ ch.out.space then ch.announceRoom else ch
    else ch.announceRoom
  | room + 1, ch => if 0 < ch.out.nb then sendLoop room ch.sendOne else ch.announceRoom

/-- After the character of the flow control, if any. -/
def xmtData (room : Nat) : Channel T := if ch.flow.outThrottled then ch else sendLoop room ch

/-- `serial_xmt_char`; `first` tells whether `putc` takes the character of the flow control. -/
def xmtChar (first : Bool) (room : Nat) : Channel T :=
  if ch.flow.xonxoffRx ∧ ch.flow.xchar ≠ 0 then
    if first then
      xmtData { ch with flow := { ch.flow with xchar := 0 }, wire := ch.wire ++ [.flow ch.flow.xchar] } room
    else ch
  else ch.xmtData room

/-- If we've hit the high water mark, tell the other side to stop. -/
def checkHighWater : Channel T := if ch.inp.highWater ≤ ch.inp.nb then ch.throttleRx false else ch

/-- Wake the selectors if the first byte is about to come. -/
def announceFirst : Channel T := if ch.inp.nb = 0 then { ch with inp := ch.inp.selwakeup } else ch

/-- If the buffer is full, just throw new characters away. -/
def keep (c : UInt8) : Channel T :=
  if ch.inp.nb < ch.inp.len then { ch with inp := ch.inp.setRing (ch.inp.push c), stored := ch.stored ++ [c] } else ch

/-- A byte from the line that is no character of the flow control. -/
def rcvData (c : UInt8) : Channel T := (ch.checkHighWater.announceFirst.keep c).signalIn

/-- `serial_rcv_char`. -/
def rcvChar (c : UInt8) : Channel T :=
  if ch.flow.xonxoffTx then
    if c = ch.flow.xoff then ch.throttleTx
    else if c = ch.flow.xon then ch.restartTx
    else ch.rcvData c
  else ch.rcvData c

/-- `serial_data_rcv_req`. The space offered begins at `put`. -/
def rcvReq (avail : Nat) : Channel T :=
  if ch.flow.xonxoffTx ∨ ch.flow.xonxoffRx then ch
  else if ch.inp.nb = ch.inp.len then ch
  else { ch with inp := { ch.inp.setRing ch.inp.rewind with offered := some (min ch.inp.gap avail) } }

/-- `serial_data_rcv_done`, after the driver has written `bytes` into the space. -/
def rcvDone (bytes : List UInt8) (count : Nat) : Channel T :=
  let ch : Channel T :=
    { ch with inp := ch.inp.setRing (ch.inp.received bytes count), stored := ch.stored ++ bytes.take count }
  let ch := ch.signalIn.checkHighWater
  let ch := if count = ch.inp.nb then { ch with inp := ch.inp.selwakeup } else ch
  { ch with inp := { ch.inp with offered := none } }

/-- `serial_data_xmt_req`. The bytes offered begin at `get`. -/
def xmtReq (space : Nat) : Channel T :=
  if ch.flow.xonxoffTx ∨ ch.flow.xonxoffRx then ch
  else if ch.flow.outThrottled then ch
  else if ch.out.nb = 0 then ch
  else { ch with out := { ch.out with offered := some (min ch.out.chunk space) } }

/-- `serial_data_xmt_done`. -/
def xmtDone (count : Nat) : Channel T :=
  let ch : Channel T :=
    { ch with
      out := ch.out.setRing (ch.out.transmitted count)
      wire := ch.wire ++ (window ch.out.data ch.out.get count).map .data }
  let ch := if ch.out.lowWater ≤ ch.out.space then ch.announceRoom else ch
  { ch with out := { ch.out with offered := none } }

/-- `CYG_IO_GET_CONFIG_SERIAL_ABORT`. -/
def abort : Channel T :=
  { ch with
    inp := { ch.inp with abort := true }
    out := { ch.out with abort := true }
    thread := fun t => (ch.thread t).wakeIn.wakeOut }

/-- Both flushes: those who wait give up. -/
def abortIn : Channel T := if ch.inp.waiting then { ch with inp := { ch.inp with abort := true } }.signalIn else ch

def abortOut : Channel T := if ch.out.waiting then { ch with out := { ch.out with abort := true } }.signalOut else ch

/-- Flush buffered input. -/
def dropIn : Channel T := { ch with inp := (ch.inp.setRing ch.inp.clear).cutOff, stored := [], returned := [] }

def dropOut : Channel T :=
  { ch with
    out := (if 0 < ch.out.nb then ch.out.setRing ch.out.clear else ch.out).cutOff
    accepted := []
    wire := [] }

/-- `CYG_IO_GET_CONFIG_SERIAL_INPUT_FLUSH`. -/
def inputFlush : Channel T :=
  let ch := ch.abortIn.dropIn
  if ch.flow.inThrottled then ch.restartRx false else ch

/-- `CYG_IO_GET_CONFIG_SERIAL_OUTPUT_FLUSH`. -/
def outputFlush : Channel T := ch.dropOut.abortOut

/-- `serial_select` for `CYG_FREAD` and for `CYG_FWRITE`: record the selector, unless the operation is possible. -/
def readable : Prop := 0 < ch.inp.nb

def writable : Prop := ch.out.lowWater ≤ ch.out.space ∧ ch.flow.outThrottled = false

instance : Decidable ch.readable := inferInstanceAs (Decidable (0 < _))

instance : Decidable ch.writable := inferInstanceAs (Decidable (_ ∧ _))

def selectRead : Channel T := if ch.readable then ch else { ch with inp := { ch.inp with selected := true } }

def selectWrite : Channel T := if ch.writable then ch else { ch with out := { ch.out with selected := true } }

def enter : Call → Channel T
  | .write bytes => { ch with outLock := some t, out := { ch.out with abort := false } }.goto t (.writing bytes bytes.length)
  | .read len => { ch with inLock := some t, inp := { ch.inp with abort := false } }.goto t (.reading len [])
  | .drain => { ch with outLock := some t }.goto t (.draining .enoerr)
  | .inputFlush => ch.inputFlush.goto t (.user ⟨.enoerr, 0, []⟩)
  | .outputFlush => ch.outputFlush.goto t (.user ⟨.enoerr, 0, []⟩)
  | .selectRead => ch.selectRead.goto t (.user ⟨.enoerr, if ch.readable then 1 else 0, []⟩)
  | .selectWrite => ch.selectWrite.goto t (.user ⟨.enoerr, if ch.writable then 1 else 0, []⟩)

def leaveOut (r : Result) : Channel T := { ch with outLock := none }.goto t (.user r)

def leaveIn (r : Result) : Channel T := { ch with inLock := none }.goto t (.user r)

/-- One round of the loop of `serial_write`. -/
def writing (len : Nat) : List UInt8 → Channel T
  | [] => ch.leaveOut t ⟨.enoerr, len, []⟩
  | c :: rest =>
    if ch.out.nb = ch.out.len then { ch with out := { ch.out with waiting := true } }.goto t (.full (c :: rest) len)
    else { ch with out := ch.out.setRing (ch.out.push c), accepted := ch.accepted ++ [c] }.goto t (.writing rest len)

/-- `if (cbuf->abort)` in `serial_write`: give up, or go on. -/
def writeChecked (rest : List UInt8) (len : Nat) : Channel T :=
  if ch.out.abort then
    { ch with out := { ch.out with abort := false, waiting := false } }.leaveOut t ⟨.eintr, len - rest.length, []⟩
  else ch.goto t (.writing rest len)

/-- After `start_xmit`, which may have made room. -/
def full (rest : List UInt8) (len : Nat) : Channel T :=
  if ch.out.waiting then
    if ch.out.blocking then
      { ch with outLock := none, out := { ch.out with pending := ch.out.pending + rest.length } }.goto t (.writeAsleep rest len)
    else
      { ch with out := { ch.out with waiting := false } }.leaveOut t
        ⟨if len - rest.length = 0 then .eagain else .enoerr, len - rest.length, []⟩
  else ch.writeChecked t rest len

def writeWoken (rest : List UInt8) (len : Nat) (ok : Bool) : Channel T :=
  { ch with
    outLock := some t
    out := { ch.out with abort := ch.out.abort || !ok, pending := ch.out.pending - rest.length } }.writeChecked t rest len

/-- The byte at `get` goes to the reader. -/
def takeOne : Channel T :=
  let ch := if ch.inp.nb ≤ ch.inp.lowWater ∧ ch.flow.inThrottled then ch.restartRx false else ch
  { ch with inp := ch.inp.setRing ch.inp.pop, returned := ch.returned ++ [ch.inp.data ch.inp.get] }

/-- One round of the loop of `serial_read`. -/
def reading (len : Nat) (got : List UInt8) : Channel T :=
  if got.length < len then
    if 0 < ch.inp.nb then ch.takeOne.goto t (.reading len (got ++ [ch.inp.data ch.inp.get]))
    else if ch.inp.blocking then
      { ch with inLock := none, inp := { ch.inp with waiting := true } }.goto t (.readAsleep len got)
    else ch.leaveIn t ⟨if got.length = 0 then .eagain else .enoerr, got.length, got⟩
  else ch.leaveIn t ⟨.enoerr, len, got⟩

def readWoken (len : Nat) (got : List UInt8) (ok : Bool) : Channel T :=
  let ch : Channel T := { ch with inLock := some t, inp := { ch.inp with abort := ch.inp.abort || !ok } }
  if ch.inp.abort then
    { ch with inp := { ch.inp with abort := false, waiting := false } }.leaveIn t ⟨.eintr, got.length, got⟩
  else ch.goto t (.reading len got)

/-- One round of `CYG_IO_GET_CONFIG_SERIAL_OUTPUT_DRAIN`. -/
def draining (err : Err) : Channel T :=
  if ch.out.pending ≠ 0 ∨ 0 < ch.out.nb then
    { ch with outLock := none, out := { ch.out with waiting := true } }.goto t (.drainAsleep err)
  else ch.leaveOut t ⟨err, 0, []⟩

def drainWoken (err : Err) (ok : Bool) : Channel T :=
  { ch with outLock := some t }.goto t (.draining (if ok then err else .eintr))

/-- The next step of a thread. -/
def advance : Channel T :=
  match ch.thread t with
  | .enter call => ch.enter t call
  | .writing rest len => ch.writing t len rest
  | .full rest len => ch.full t rest len
  | .writeWoken rest len ok => ch.writeWoken t rest len ok
  | .reading len got => ch.reading t len got
  | .readWoken len got ok => ch.readWoken t len got ok
  | .draining err => ch.draining t err
  | .drainWoken err ok => ch.drainWoken t err ok
  | .user _ | .writeAsleep _ _ | .readAsleep _ _ | .drainAsleep _ => ch

end Channel

/-- A step of a thread, a callback of the driver, or a change of the configuration. -/
inductive Act (T : Type*)
  | call (t : T) (call : Call)
  | go (t : T)
  | release (t : T)
  | xmtChar (first : Bool) (room : Nat)
  | rcvChar (c : UInt8)
  | rcvReq (avail : Nat)
  | rcvDone (bytes : List UInt8) (count : Nat)
  | xmtReq (space : Nat)
  | xmtDone (count : Nat)
  | abort
  | throttleTx
  | restartTx
  | forceRx (throttle : Bool)
  | setFlow (rx tx : Bool)
  | setBlocking (read write : Bool)

namespace Channel
variable {T : Type*} [DecidableEq T]

def act (ch : Channel T) : Act T → Channel T
  | .call t call => ch.goto t (.enter call)
  | .go t => ch.advance t
  | .release t => ch.goto t (ch.thread t).release
  | .xmtChar first room => ch.xmtChar first room
  | .rcvChar c => ch.rcvChar c
  | .rcvReq avail => ch.rcvReq avail
  | .rcvDone bytes count => ch.rcvDone bytes count
  | .xmtReq space => ch.xmtReq space
  | .xmtDone count => ch.xmtDone count
  | .abort => ch.abort
  | .throttleTx => ch.throttleTx
  | .restartTx => ch.restartTx
  | .forceRx throttle => if throttle then ch.throttleRx true else ch.restartRx true
  | .setFlow rx tx => { ch with flow := { ch.flow with xonxoffRx := rx, xonxoffTx := tx } }
  | .setBlocking read write =>
    { ch with inp := { ch.inp with blocking := read }, out := { ch.out with blocking := write } }

/-- The locks that the next step of a thread has to take are free. -/
def Unlocked (ch : Channel T) : Point → Prop
  | .enter (.write _) | .enter .drain | .enter .outputFlush | .enter .selectWrite | .writeWoken .. | .drainWoken .. =>
    ch.outLock = none
  | .enter (.read _) | .enter .inputFlush | .enter .selectRead | .readWoken .. => ch.inLock = none
  | .writing .. | .full .. | .reading .. | .draining _ => True
  | .user _ | .writeAsleep .. | .readAsleep .. | .drainAsleep _ => False

/-- A thread outside may call, one inside may go on unless it sleeps or another has the lock. The driver makes no other
call while a transfer is under way, and reports no more of it than it was offered. -/
def Enabled (ch : Channel T) : Act T → Prop
  | .call t _ => ∃ r, ch.thread t = .user r
  | .go t => ch.Unlocked (ch.thread t)
  | .release t => (ch.thread t).asleepOut = true ∨ (ch.thread t).asleepIn = true
  | .xmtChar _ _ | .xmtReq _ => ch.out.offered = none
  | .rcvChar _ | .rcvReq _ => ch.inp.offered = none
  | .xmtDone count => ∃ n, ch.out.offered = some n ∧ count ≤ n
  | .rcvDone bytes count => ∃ n, ch.inp.offered = some n ∧ bytes.length ≤ n ∧ count ≤ bytes.length
  | .abort | .throttleTx | .restartTx | .forceRx _ | .setFlow _ _ | .setBlocking _ _ => True

/-- After `serial_init`: both buffers are there and empty, and no one waits. -/
structure Start (ch : Channel T) : Prop where
  out : 0 < ch.out.len ∧ ch.out.get = 0 ∧ ch.out.put = 0 ∧ ch.out.nb = 0
  inp : 0 < ch.inp.len ∧ ch.inp.get = 0 ∧ ch.inp.put = 0 ∧ ch.inp.nb = 0
  water : ch.out.lowWater = ch.out.len / 4
  offered : ch.out.offered = none ∧ ch.inp.offered = none
  waiting : ch.out.waiting = false ∧ ch.inp.waiting = false
  selected : ch.out.selected = false ∧ ch.inp.selected = false
  locks : ch.outLock = none ∧ ch.inLock = none
  threads : ∀ t, ∃ r, ch.thread t = .user r
  none : ch.accepted = [] ∧ ch.wire = [] ∧ ch.stored = [] ∧ ch.returned = []

/-- All runs of a channel. -/
def system (T : Type*) [DecidableEq T] : Machine (Channel T) := .guided Start Enabled act

end Channel

end Ecos.Serial
