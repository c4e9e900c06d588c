import Ecos.Lib.Machine
import Ecos.Lib.Serial

namespace Ecos.Redboot
open BitVec List Nat

def tcpFlagFin : BitVec 8 := 1

def tcpFlagSyn : BitVec 8 := 2

def tcpFlagRst : BitVec 8 := 4

def tcpFlagPsh : BitVec 8 := 8

def tcpFlagAck : BitVec 8 := 16

/-- `MAX_TCP_DATA`: the longest frame less the Ethernet, IP and TCP headers. -/
def maxTcpData : Nat := 1540 - 14 - (14 + 20) - 20

def seqLt (a b : BitVec 32) : Bool := (a - b).toInt < 0

def seqLe (a b : BitVec 32) : Bool := (a - b).toInt ≤ 0

def seqGt (a b : BitVec 32) : Bool := 0 < (a - b).toInt

/-- A received packet: the header fields that are read and the bytes after the header. Its length is a 16-bit
`pkt_bytes`. -/
structure Segment where
  seqnum : BitVec 32
  acknum : BitVec 32
  flags : BitVec 8
  data : List UInt8
  fits : data.length < 2 ^ 16
  deriving DecidableEq

namespace Segment

def fin (seg : Segment) : Bool := seg.flags &&& tcpFlagFin ≠ 0

def syn (seg : Segment) : Bool := seg.flags &&& tcpFlagSyn ≠ 0

def rst (seg : Segment) : Bool := seg.flags &&& tcpFlagRst ≠ 0

def ack (seg : Segment) : Bool := seg.flags &&& tcpFlagAck ≠ 0

end Segment

inductive TcpState
  | closed
  | listen
  | synRcvd
  | synSent
  | established
  | closeWait
  | lastAck
  | finWait1
  | finWait2
  | closing
  | timeWait
  deriving DecidableEq

/-- What the socket's timer calls when it runs out. -/
inductive TcpTimer
  | doRetrans
  | doClose
  deriving DecidableEq

/-- `tcp_socket_t`. `rxptr` is the place in the data of the first packet of `rxlist`; `out` are the `data_bytes` bytes
of the transmit packet. The last two fields count what the code does: the bytes it has queued, and how often it has
advanced `ack` for a FIN. -/
structure Socket where
  state : TcpState
  timer : Option TcpTimer
  pktFlags : BitVec 8
  seq : BitVec 32
  ack : BitVec 32
  out : List UInt8
  rxlist : List Segment
  rxptr : Nat
  rxcnt : Nat
  accepted : Nat
  accounted : Nat
  deriving DecidableEq

namespace Socket

/-- What `tcp_send` leaves in the socket. The flags of a packet that is sent again are those in its header. -/
def tcpSend (s : Socket) (flags : BitVec 8) (resend : Bool) : Socket :=
  let out := if flags &&& tcpFlagSyn ≠ 0 then [] else s.out
  let flags := if resend then s.pktFlags else if out ≠ [] then flags ||| tcpFlagPsh else flags
  let timer := if s.state = .timeWait then some .doClose
    else if flags &&& (tcpFlagFin ||| tcpFlagSyn) ≠ 0 ∨ out ≠ [] then some .doRetrans else s.timer
  { s with out, pktFlags := flags, timer }

def tcpListen : Socket where
  state := .listen
  timer := none
  pktFlags := 0
  seq := 0
  ack := 0
  out := []
  rxlist := []
  rxptr := 0
  rxcnt := 0
  accepted := 0
  accounted := 0

/-- `__tcp_open` up to where it waits for the connection. -/
def tcpOpen (port : BitVec 16) : Socket :=
  tcpSend { tcpListen with state := .synSent, seq := port.setWidth 32 <<< 16 ||| 0xDE77 } tcpFlagSyn false

def freeRxlist (s : Socket) : Socket := { s with rxlist := [] }

def doReset (s : Socket) : Socket := freeRxlist { s with state := .closed, timer := none }

def doClose (s : Socket) : Socket := { s with state := .closed }

def doAbort (s : Socket) : Socket :=
  freeRxlist { tcpSend s (tcpFlagAck ||| tcpFlagRst) false with state := .closed }

/-- `handle_data`: only the first packet of the list is read from `rxptr` on. -/
def handleData (s : Socket) (seg : Segment) : Socket :=
  if seqLe seg.seqnum s.ack then
    let diff := s.ack - seg.seqnum
    let dataLen := BitVec.ofNat 32 seg.data.length - diff
    if 0 < dataLen.toInt then
      let s := { s with ack := s.ack + dataLen, accepted := s.accepted + dataLen.toNat }
      if s.rxlist ≠ [] then { s with rxlist := s.rxlist ++ [seg] }
      else { s with rxlist := [seg], rxcnt := dataLen.toNat, rxptr := diff.toNat }
    else s
  else s

def handleAck (s : Socket) (seg : Segment) : Socket :=
  if seqGt seg.acknum s.seq then
    let advance := min (seg.acknum - s.seq).toNat s.out.length
    { s with timer := none, seq := s.seq + BitVec.ofNat 32 advance, out := s.out.drop advance }
  else s

/-- `s->ack++` for a FIN, and the new state. -/
def finTo (s : Socket) (state : TcpState) : Socket :=
  { s with ack := s.ack + 1, accounted := s.accounted + 1, state }

/-- `__tcp_handler` for the socket the segment belongs to. A closed socket is no longer in the list. -/
def tcpHandler (s : Socket) (seg : Segment) : Socket :=
  if s.state ≠ .synRcvd ∧ seg.rst then if s.state = .closed then s else doReset s
  else match s.state with
    | .synSent =>
      if seg.flags ≠ tcpFlagSyn ||| tcpFlagAck then doReset s
      else { s with state := .established, ack := seg.seqnum + 1, seq := seg.acknum, timer := none }
    | .listen =>
      if seg.syn then
        tcpSend { s with state := .synRcvd, ack := seg.seqnum + 1, out := [] } (tcpFlagSyn ||| tcpFlagAck) false
      else s
    | .synRcvd =>
      let s := { s with timer := none }
      if seg.rst then { s with state := .listen }
      else if seg.syn then tcpSend s 0 true
      else if seg.ack ∧ seg.acknum = s.seq + 1 then { s with state := .established, seq := s.seq + 1 }
      else s
    | .established | .closeWait =>
      let s := if seg.ack then handleAck s seg else s
      let s := handleData s seg
      if seg.fin ∧ seg.seqnum = s.ack then finTo s .closeWait else s
    | .lastAck =>
      if seg.ack then
        let s := handleAck s seg
        if seg.acknum = s.seq + 1 then { s with state := .closed } else s
      else s
    | .finWait1 =>
      let s := if seg.ack then handleAck s seg else s
      if seg.ack ∧ seg.acknum = s.seq + 1 then
        let s := { s with seq := s.seq + 1 }
        if seg.fin then finTo s .timeWait else { s with state := .finWait2 }
      else if seg.fin then tcpSend (finTo { s with timer := none } .closing) (tcpFlagFin ||| tcpFlagAck) false
      else s
    | .finWait2 =>
      let s := handleData s seg
      if seg.fin then finTo s .timeWait else s
    | .closing =>
      if seg.ack then
        let s := handleAck s seg
        if seg.acknum = s.seq + 1 then { s with state := .timeWait, timer := none } else s
      else s
    | .timeWait => if seg.fin then tcpSend s 0 true else s
    | .closed => s

/-- The loop of `__tcp_read`: the bytes copied and what is left of the list, `rxptr` and `rxcnt`. It takes a packet
off the list that must be there. -/
def readLoop : List Segment → Nat → Nat → Nat → Option (List UInt8 × List Segment × Nat × Nat)
  | rxlist, rxptr, rxcnt, 0 => some ([], rxlist, rxptr, rxcnt)
  | [], _, _, _ + 1 => none
  | pkt :: rxlist, rxptr, rxcnt, len + 1 =>
    if len + 1 < rxcnt then
      some ((pkt.data.drop rxptr).take (len + 1), pkt :: rxlist, rxptr + (len + 1), rxcnt - (len + 1))
    else
      let copied := (pkt.data.drop rxptr).take rxcnt
      match rxlist with
      | [] => some (copied, [], rxptr, 0)
      | next :: rest => (readLoop (next :: rest) 0 next.data.length (len + 1 - rxcnt)).map fun r => (copied ++ r.1, r.2)

/-- `__tcp_read`: the bytes returned; it fails where it follows a packet that has been freed. -/
def tcpRead (s : Socket) (len : Int) : Option (List UInt8 × Socket) :=
  if len ≤ 0 ∨ s.rxcnt = 0 then some ([], s)
  else (readLoop s.rxlist s.rxptr s.rxcnt len.toNat).map fun r =>
    (r.1, { s with rxlist := r.2.1, rxptr := r.2.2.1, rxcnt := r.2.2.2 })

def tcpWrite (s : Socket) (buf : List UInt8) : Socket :=
  if buf = [] then s
  else if s.state ≠ .established ∧ s.state ≠ .closeWait then s
  else if s.out ≠ [] then s
  else tcpSend { s with out := buf.take maxTcpData } tcpFlagAck false

/-- `__tcp_close` after `__tcp_drain`. -/
def tcpClose (s : Socket) : Socket :=
  let s := if s.state = .established ∨ s.state = .synRcvd then
      tcpSend { s with state := .finWait1 } (tcpFlagAck ||| tcpFlagFin) false
    else if s.state = .closeWait then tcpSend { s with state := .lastAck } (tcpFlagAck ||| tcpFlagFin) false
    else s
  freeRxlist s

/-- The timer runs out and calls its function. -/
def timerPoll (s : Socket) : Socket :=
  match s.timer with
  | none => s
  | some .doRetrans => tcpSend { s with timer := none } 0 true
  | some .doClose => doClose { s with timer := none }

/-- The bytes in the list that are not yet read, as `__tcp_read` counts them. -/
def unread (s : Socket) : Nat := s.rxcnt + (s.rxlist.tail.map fun pkt => pkt.data.length).sum

end Socket

/-- A connection: the socket and all that its readers have been given. -/
structure Conn where
  sock : Socket
  returned : List UInt8

/-- What happens to a connection: a segment comes in, a local call is made or a timer runs out. -/
inductive TcpEvent
  | segment (seg : Segment)
  | read (len : Int)
  | write (buf : List UInt8)
  | close
  | timer
  | abort

namespace Conn

def act (c : Conn) : TcpEvent → Conn
  | .segment seg => { c with sock := c.sock.tcpHandler seg }
  | .read len =>
    match c.sock.tcpRead len with
    | some (bytes, sock) => { sock, returned := c.returned ++ bytes }
    | none => c
  | .write buf => { c with sock := c.sock.tcpWrite buf }
  | .close => { c with sock := c.sock.tcpClose }
  | .timer => { c with sock := c.sock.timerPoll }
  | .abort => { c with sock := c.sock.doAbort }

end Conn

section Numbers
variable {initial : BitVec 32} {p q : Nat}

theorem seqLe_at (above : p < q + 2 ^ 31) (below : q < p + 2 ^ 31) :
    seqLe (initial + BitVec.ofNat 32 p) (initial + BitVec.ofNat 32 q) = decide (p ≤ q) := by
  rw [seqLe, serial_toInt (by omega) (by omega) (by omega)]
  exact decide_eq_decide.mpr (by omega)

theorem seqLt_at (above : p < q + 2 ^ 31) (below : q < p + 2 ^ 31) :
    seqLt (initial + BitVec.ofNat 32 p) (initial + BitVec.ofNat 32 q) = decide (p < q) := by
  rw [seqLt, serial_toInt (by omega) (by omega) (by omega)]
  exact decide_eq_decide.mpr (by omega)

end Numbers

/-- The segment holds the bytes of the stream at its number, the stream's first byte having the number `initial`. A
FIN stands at the end of the stream. -/
structure Piece (stream : List UInt8) (initial : BitVec 32) (offset : Nat) (seg : Segment) : Prop where
  seqnum : seg.seqnum = initial + BitVec.ofNat 32 offset
  data : seg.data <+: stream.drop offset
  within : offset ≤ stream.length
  fin : seg.fin → offset + seg.data.length = stream.length
  syn : seg.syn = false

/-- The SYN before the first byte. -/
structure IsSyn (initial : BitVec 32) (seg : Segment) : Prop where
  seqnum : seg.seqnum + 1 = initial
  data : seg.data = []
  fin : seg.fin = false
  syn : seg.syn

namespace Socket
variable {stream : List UInt8} {initial : BitVec 32} {offset : Nat} {seg : Segment} {s : Socket} {flags : BitVec 8}
  {resend : Bool}

/-- The place in the stream, a counted FIN included, up to which everything has been taken. -/
def taken (s : Socket) : Nat := s.accepted + s.accounted

/-- A place less than 2^31 bytes away from what is expected next. -/
def Near (s : Socket) (offset : Nat) : Prop := offset < s.taken + 2 ^ 31 ∧ s.taken < offset + 2 ^ 31

@[simp] theorem tcpSend_state : (s.tcpSend flags resend).state = s.state := rfl

theorem handleAck_frame : ∃ timer seq out, s.handleAck seg = { s with timer, seq, out } := by
  unfold handleAck
  split
  · exact ⟨_, _, _, rfl⟩
  · exact ⟨s.timer, s.seq, s.out, rfl⟩

/-- The packet at the end of the list, its first `skip` bytes being known already. -/
def queue (s : Socket) (seg : Segment) (skip : Nat) : Socket :=
  { s with
    ack := s.ack + BitVec.ofNat 32 (seg.data.length - skip)
    accepted := s.accepted + (seg.data.length - skip)
    rxlist := s.rxlist ++ [seg]
    rxcnt := if s.rxlist = [] then seg.data.length - skip else s.rxcnt
    rxptr := if s.rxlist = [] then skip else s.rxptr }

theorem handleData_piece (piece : Piece stream initial offset seg) (near : s.Near offset)
    (ack : s.ack = initial + BitVec.ofNat 32 s.taken) : s.handleData seg =
      if offset ≤ s.taken ∧ s.taken < offset + seg.data.length then s.queue seg (s.taken - offset) else s := by
  obtain ⟨above, below⟩ := near
  have short := seg.fits
  have order : seqLe seg.seqnum s.ack = decide (offset ≤ s.taken) := by rw [piece.seqnum, ack, seqLe_at above below]
  unfold handleData
  by_cases early : offset ≤ s.taken
  · rw [if_pos (by rw [order, decide_eq_true early])]
    have diff : s.ack - seg.seqnum = BitVec.ofNat 32 (s.taken - offset) := by
      rw [piece.seqnum, ack, serial_sub, ← Int.ofNat_sub early, ofInt_natCast]
    have length : BitVec.ofNat 32 seg.data.length - BitVec.ofNat 32 (s.taken - offset)
        = 0#32 + BitVec.ofNat 32 seg.data.length - (0#32 + BitVec.ofNat 32 (s.taken - offset)) := by
      rw [BitVec.zero_add, BitVec.zero_add]
    have signed : (BitVec.ofNat 32 seg.data.length - BitVec.ofNat 32 (s.taken - offset)).toInt
        = (seg.data.length : Int) - (s.taken - offset : Nat) := by
      rw [length]
      exact serial_toInt (by omega) (by omega) (by omega)
    dsimp only
    rw [diff, signed]
    by_cases news : s.taken < offset + seg.data.length
    · have size : (BitVec.ofNat 32 seg.data.length - BitVec.ofNat 32 (s.taken - offset)).toNat
          = seg.data.length - (s.taken - offset) := by
        rw [length]
        exact serial_toNat (by omega) (by omega)
      have whole : BitVec.ofNat 32 seg.data.length - BitVec.ofNat 32 (s.taken - offset)
          = BitVec.ofNat 32 (seg.data.length - (s.taken - offset)) := by
        rw [← size, ofNat_toNat, setWidth_eq]
      have skipped : (BitVec.ofNat 32 (s.taken - offset)).toNat = s.taken - offset := by
        rw [toNat_ofNat, mod_eq_of_lt (by omega)]
      have both : offset ≤ s.taken ∧ s.taken < offset + seg.data.length := ⟨early, news⟩
      rw [if_pos (by omega), if_pos both, size, whole, skipped, queue]
      by_cases empty : s.rxlist = []
      · rw [if_neg (by simpa using empty), if_pos empty, if_pos empty, empty, nil_append]
      · rw [if_pos empty, if_neg empty, if_neg empty]
    · rw [if_neg (by omega), if_neg fun both => news both.2]
  · rw [if_neg (by rw [order, decide_eq_false early]; exact Bool.false_ne_true), if_neg fun both => early both.1]

theorem handleData_syn (syn : IsSyn initial seg) (near : s.taken + 1 < 2 ^ 31)
    (ack : s.ack = initial + BitVec.ofNat 32 s.taken) : s.handleData seg = s := by
  have later : s.ack = seg.seqnum + BitVec.ofNat 32 (s.taken + 1) := by
    rw [ack, ← syn.seqnum, ofNat_add]
    grind
  have diff : s.ack - seg.seqnum = BitVec.ofNat 32 (s.taken + 1) := by
    rw [later]
    grind
  unfold handleData
  split
  · dsimp only
    rw [diff, syn.data]
    have negative : (BitVec.ofNat 32 (List.length ([] : List UInt8)) - BitVec.ofNat 32 (s.taken + 1)).toInt
        = ((0 : Nat) : Int) - (s.taken + 1 : Nat) := by
      have zero := @serial_toInt 32 0#32 0 (s.taken + 1) (by omega) (by omega) (by omega)
      rwa [BitVec.zero_add, BitVec.zero_add] at zero
    rw [negative, if_neg (by omega)]
  · rfl

/-- Before the FIN is counted. -/
structure Before (stream : List UInt8) (initial : BitVec 32) (s : Socket) : Prop where
  none : s.accounted = 0
  within : s.accepted ≤ stream.length
  ack : s.ack = initial + BitVec.ofNat 32 s.taken

/-- After it: the whole stream has been taken. -/
structure After (stream : List UInt8) (initial : BitVec 32) (s : Socket) : Prop where
  once : s.accounted = 1
  all : s.accepted = stream.length
  ack : s.ack = initial + BitVec.ofNat 32 s.taken

theorem queue_taken (news : s.taken < offset + seg.data.length) (early : offset ≤ s.taken) :
    (s.queue seg (s.taken - offset)).taken = offset + seg.data.length := by
  unfold taken at *
  simp only [queue]
  omega

theorem queue_ack (ack : s.ack = initial + BitVec.ofNat 32 s.taken) (news : s.taken < offset + seg.data.length)
    (early : offset ≤ s.taken) :
    (s.queue seg (s.taken - offset)).ack = initial + BitVec.ofNat 32 (s.queue seg (s.taken - offset)).taken := by
  rw [queue_taken news early]
  simp only [queue]
  rw [ack, serial_add]
  congr 2
  omega

theorem Before.queue (before : Before stream initial s) (piece : Piece stream initial offset seg)
    (early : offset ≤ s.taken) (news : s.taken < offset + seg.data.length) :
    Before stream initial (s.queue seg (s.taken - offset)) := by
  have inside := piece.data.length_le
  rw [length_drop] at inside
  have place := @queue_taken offset seg s news early
  have none : (s.queue seg (s.taken - offset)).accounted = 0 := before.none
  refine ⟨none, ?_, queue_ack before.ack news early⟩
  rw [taken, none] at place
  omega

theorem Before.handleData (before : Before stream initial s) (piece : Piece stream initial offset seg)
    (near : s.Near offset) : Before stream initial (s.handleData seg) := by
  rw [handleData_piece piece near before.ack]
  split
  · next both => exact before.queue piece both.1 both.2
  · exact before

theorem handleData_taken (ack : s.ack = initial + BitVec.ofNat 32 s.taken) (piece : Piece stream initial offset seg)
    (near : s.Near offset) (early : offset ≤ s.taken) :
    (s.handleData seg).taken = max s.taken (offset + seg.data.length) := by
  rw [handleData_piece piece near ack]
  split
  · next both => rw [queue_taken both.2 both.1, max_eq_right (le_of_lt both.2)]
  · next neither => exact (max_eq_left (by omega)).symm

theorem After.handleData (after : After stream initial s) (piece : Piece stream initial offset seg)
    (near : s.Near offset) : s.handleData seg = s := by
  have inside := piece.data.length_le
  rw [length_drop] at inside
  have place : s.taken = stream.length + 1 := by rw [taken, after.once, after.all]
  rw [handleData_piece piece near after.ack, if_neg]
  omega

theorem Before.finTo {state : TcpState} (before : Before stream initial s) (all : s.accepted = stream.length) :
    After stream initial (s.finTo state) := by
  have one : (s.finTo state).accounted = 1 := by simp [Socket.finTo, before.none]
  refine ⟨one, all, ?_⟩
  have place : (s.finTo state).taken = s.taken + 1 := rfl
  rw [place, BitVec.ofNat_add, ← BitVec.add_assoc, ← before.ack]
  rfl

/-- A FIN whose own number is the next one expected, after the data of its segment: it has no data, and nothing is
missing before it. -/
theorem Before.fin_all (before : Before stream initial s) (piece : Piece stream initial offset seg)
    (near : s.Near offset) (fin : seg.fin) (same : seg.seqnum = (s.handleData seg).ack) :
    (s.handleData seg).accepted = stream.length := by
  have after := before.handleData piece near
  have short := seg.fits
  have ends := piece.fin fin
  have place : (s.handleData seg).taken = (s.handleData seg).accepted := by rw [taken, after.none, add_zero]
  rw [after.ack, piece.seqnum] at same
  have bound : (s.handleData seg).taken = s.taken ∨ offset ≤ s.taken ∧ s.taken < offset + seg.data.length
      ∧ (s.handleData seg).taken = offset + seg.data.length := by
    rw [handleData_piece piece near before.ack]
    split
    · next both => exact .inr ⟨both.1, both.2, queue_taken both.2 both.1⟩
    · exact .inl rfl
  obtain ⟨above, below⟩ := near
  have here : offset = (s.handleData seg).taken := serial_eq (by omega) (by omega) same
  rcases bound with unchanged | ⟨early, news, moved⟩
  · have whole := handleData_taken before.ack piece ⟨above, below⟩ (by omega)
    omega
  · omega

theorem After.fin_not (after : After stream initial s) (piece : Piece stream initial offset seg)
    (near : s.Near offset) : seg.seqnum ≠ s.ack := by
  intro same
  rw [after.ack, piece.seqnum] at same
  obtain ⟨above, below⟩ := near
  have here : offset = s.taken := serial_eq (by omega) (by omega) same
  have place : s.taken = stream.length + 1 := by rw [taken, after.once, after.all]
  have within := piece.within
  omega

theorem tcpHandler_open (state : s.state = .established ∨ s.state = .closeWait) (rst : seg.rst = false) :
    ∃ timer seq out, s.tcpHandler seg =
      let t := handleData { s with timer, seq, out } seg
      if seg.fin ∧ seg.seqnum = t.ack then t.finTo .closeWait else t := by
  obtain ⟨timer, seq, out, moved⟩ :
      ∃ timer seq out, (if seg.ack then s.handleAck seg else s) = { s with timer, seq, out } := by
    split
    · exact handleAck_frame
    · exact ⟨s.timer, s.seq, s.out, rfl⟩
  refine ⟨timer, seq, out, ?_⟩
  rw [← moved]
  unfold tcpHandler
  rw [if_neg (by simp [rst])]
  rcases state with here | here <;> rw [here]

end Socket

end Ecos.Redboot
