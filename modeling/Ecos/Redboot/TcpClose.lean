import Ecos.Redboot.Tcp

namespace Ecos.Redboot

namespace TcpState

/-- The FIN of the peer has not been counted. -/
def waits : TcpState → Bool
  | .established | .finWait1 | .finWait2 => true
  | _ => false

/-- It has been. -/
def shut : TcpState → Bool
  | .closeWait | .lastAck | .closing | .timeWait => true
  | _ => false

end TcpState

namespace Socket
variable {stream : List UInt8} {initial : BitVec 32} {offset : Nat} {seg : Segment} {s t : Socket}

/-- Where the numbers stand in each state. -/
def Phase (stream : List UInt8) (initial : BitVec 32) (s : Socket) : Prop :=
  match s.state with
  | .closed => s.accounted = 0 ∨ s.accounted = 1 ∧ s.accepted = stream.length
  | .listen | .synSent => s.accounted = 0 ∧ s.accepted = 0
  | .synRcvd => s.accounted = 0 ∧ s.accepted = 0 ∧ s.ack = initial
  | .established | .finWait1 | .finWait2 => Before stream initial s
  | .closeWait | .lastAck | .closing | .timeWait => After stream initial s

theorem Before.phase (before : Before stream initial s) (state : s.state.waits) : Phase stream initial s := by
  unfold Phase
  cases here : s.state <;> rw [here] at state <;> first | exact before | exact absurd state Bool.false_ne_true

theorem After.phase (after : After stream initial s) (state : s.state.shut) : Phase stream initial s := by
  unfold Phase
  cases here : s.state <;> rw [here] at state <;> first | exact after | exact absurd state Bool.false_ne_true

theorem Phase.before (phase : Phase stream initial s) (state : s.state.waits) : Before stream initial s := by
  unfold Phase at phase
  cases here : s.state <;> rw [here] at state phase <;> first | exact phase | exact absurd state Bool.false_ne_true

theorem Phase.after (phase : Phase stream initial s) (state : s.state.shut) : After stream initial s := by
  unfold Phase at phase
  cases here : s.state <;> rw [here] at state phase <;> first | exact phase | exact absurd state Bool.false_ne_true

/-- The same numbers. -/
structure Alike (s t : Socket) : Prop where
  ack : s.ack = t.ack
  accepted : s.accepted = t.accepted
  accounted : s.accounted = t.accounted

theorem Before.alike (before : Before stream initial s) (alike : Alike s t) : Before stream initial t := by
  obtain ⟨none, within, ack⟩ := before
  refine ⟨alike.accounted ▸ none, alike.accepted ▸ within, ?_⟩
  rw [← alike.ack, ack, taken, taken, alike.accepted, alike.accounted]

theorem After.alike (after : After stream initial s) (alike : Alike s t) : After stream initial t := by
  obtain ⟨once, all, ack⟩ := after
  refine ⟨alike.accounted ▸ once, alike.accepted ▸ all, ?_⟩
  rw [← alike.ack, ack, taken, taken, alike.accepted, alike.accounted]

theorem Before.onward (before : Before stream initial s) (alike : Alike s t) (state : t.state.waits) :
    Phase stream initial t := (before.alike alike).phase state

theorem After.onward (after : After stream initial s) (alike : Alike s t) (state : t.state.shut) :
    Phase stream initial t := (after.alike alike).phase state

theorem Phase.alike (phase : Phase stream initial s) (alike : Alike s t) (state : s.state = t.state) :
    Phase stream initial t := by
  unfold Phase at *
  rw [← state]
  have accepted := alike.accepted
  have accounted := alike.accounted
  have ack := alike.ack
  split at phase
  · rwa [← accounted, ← accepted]
  · rwa [← accounted, ← accepted]
  · rwa [← accounted, ← accepted]
  · rwa [← accounted, ← accepted, ← ack]
  all_goals first | exact Before.alike phase alike | exact After.alike phase alike

theorem Phase.fin_bound (phase : Phase stream initial s) :
    s.accounted = 0 ∨ s.accounted = 1 ∧ s.accepted = stream.length := by
  unfold Phase at phase
  split at phase
  · exact phase
  · exact .inl phase.1
  · exact .inl phase.1
  · exact .inl phase.1
  all_goals first | exact .inl phase.none | exact .inr ⟨phase.once, phase.all⟩

theorem Phase.closed (phase : Phase stream initial s) (alike : Alike s t) (state : t.state = .closed) :
    Phase stream initial t := by
  have bound := phase.fin_bound
  rw [alike.accounted, alike.accepted] at bound
  unfold Phase
  rw [state]
  exact bound

/-- A FIN in its turn: in `_FIN_WAIT_1` its segment ends where the next byte is expected, in `_FIN_WAIT_2` it does not
start beyond; no segment brings both new data and the FIN in `_ESTABLISHED`. -/
def InTurn (s : Socket) (seg : Segment) : Prop :=
  seg.fin → match s.state with
    | .established => ¬ (seg.data ≠ [] ∧ seg.seqnum = s.ack)
    | .finWait1 => seg.seqnum + BitVec.ofNat 32 seg.data.length = s.ack
    | .finWait2 => seqLe seg.seqnum s.ack
    | _ => True

/-- What a correct peer sends besides resets: its SYN and pieces of its stream, less than 2^31 bytes away from what is
expected. -/
def Coming (stream : List UInt8) (initial : BitVec 32) (s : Socket) (seg : Segment) : Prop :=
  IsSyn initial seg ∧ s.taken + 1 < 2 ^ 31 ∨ ∃ offset, Piece stream initial offset seg ∧ s.Near offset

theorem Coming.alike (coming : Coming stream initial s seg) (alike : Alike s t) : Coming stream initial t seg := by
  have same : s.taken = t.taken := by rw [taken, taken, alike.accepted, alike.accounted]
  unfold Coming Near at *
  rwa [← same]

theorem Before.incoming (before : Before stream initial s) (coming : Coming stream initial s seg) :
    Before stream initial (s.handleData seg) := by
  rcases coming with ⟨syn, near⟩ | ⟨offset, piece, near⟩
  · rwa [handleData_syn syn near before.ack]
  · exact before.handleData piece near

theorem After.incoming (after : After stream initial s) (coming : Coming stream initial s seg) :
    s.handleData seg = s := by
  rcases coming with ⟨syn, near⟩ | ⟨offset, piece, near⟩
  · exact handleData_syn syn near after.ack
  · exact after.handleData piece near

theorem Coming.fin (coming : Coming stream initial s seg) (fin : seg.fin) :
    ∃ offset, Piece stream initial offset seg ∧ s.Near offset := by
  rcases coming with ⟨syn, -⟩ | piece
  · rw [syn.fin] at fin
    exact absurd fin Bool.false_ne_true
  · exact piece

theorem handleData_state : (s.handleData seg).state = s.state := by
  unfold handleData
  split
  · dsimp only
    split
    · split <;> rfl
    · rfl
  · rfl

theorem Phase.opened (state : s.state = .established ∨ s.state = .closeWait) (phase : Phase stream initial s)
    (rst : seg.rst = false) (coming : Coming stream initial s seg) : Phase stream initial (s.tcpHandler seg) := by
  obtain ⟨timer, seq, out, run⟩ := tcpHandler_open state rst
  obtain ⟨u, moved⟩ : ∃ u : Socket, u = { s with timer, seq, out } := ⟨_, rfl⟩
  have alike : Alike s u := by
    rw [moved]
    exact ⟨rfl, rfl, rfl⟩
  have same : s.state = u.state := by rw [moved]
  rw [← moved] at run
  rw [run]
  dsimp only
  have phase' := phase.alike alike same
  have coming' := coming.alike alike
  rcases state with here | here
  · have before : Before stream initial u := phase'.before (by rw [← same, here]; rfl)
    split
    · next fin =>
      obtain ⟨offset, piece, near⟩ := coming'.fin fin.1
      exact ((before.handleData piece near).finTo (before.fin_all piece near fin.1 fin.2)).phase rfl
    · exact (before.incoming coming').phase (by rw [handleData_state, ← same, here]; rfl)
  · have after : After stream initial u := phase'.after (by rw [← same, here]; rfl)
    rw [after.incoming coming', if_neg]
    · exact phase'
    · intro fin
      obtain ⟨offset, piece, near⟩ := coming'.fin fin.1
      exact after.fin_not piece near fin.2

theorem Before.ends (before : Before stream initial s) (coming : Coming stream initial s seg) (fin : seg.fin)
    (turn : seg.seqnum + BitVec.ofNat 32 seg.data.length = s.ack) : s.accepted = stream.length := by
  obtain ⟨offset, piece, above, below⟩ := coming.fin fin
  have short := seg.fits
  rw [piece.seqnum, before.ack, serial_add] at turn
  have here : offset + seg.data.length = s.taken := serial_eq (by omega) (by omega) turn
  rw [taken, before.none] at here
  have last := piece.fin fin
  omega

theorem Before.completes (before : Before stream initial s) (coming : Coming stream initial s seg) (fin : seg.fin)
    (turn : seqLe seg.seqnum s.ack) : (s.handleData seg).accepted = stream.length := by
  obtain ⟨offset, piece, near⟩ := coming.fin fin
  have later := before.handleData piece near
  have early : offset ≤ s.taken := by
    obtain ⟨above, below⟩ := near
    rw [piece.seqnum, before.ack, seqLe_at above below] at turn
    exact of_decide_eq_true turn
  have whole := handleData_taken before.ack piece near early
  have last := piece.fin fin
  have within := before.within
  rw [taken, taken, later.none, before.none] at whole
  omega

theorem handleAck_moved : ∃ timer seq out, (if seg.ack then s.handleAck seg else s) = { s with timer, seq, out } := by
  split
  · exact handleAck_frame
  · exact ⟨s.timer, s.seq, s.out, rfl⟩

theorem Phase.finWait1 (here : s.state = .finWait1) (phase : Phase stream initial s) (rst : seg.rst = false)
    (coming : Coming stream initial s seg)
    (turn : seg.fin → seg.seqnum + BitVec.ofNat 32 seg.data.length = s.ack) :
    Phase stream initial (s.tcpHandler seg) := by
  have before : Before stream initial s := phase.before (by rw [here]; rfl)
  obtain ⟨timer, seq, out, moved⟩ := @handleAck_moved seg s
  have counted (t : Socket) (state : TcpState) (shut : state.shut) (alike : Alike s t) (fin : seg.fin) :
      Phase stream initial (t.finTo state) :=
    ((before.alike alike).finTo (alike.accepted ▸ before.ends coming fin (turn fin))).phase shut
  unfold tcpHandler
  rw [if_neg (by simp [rst]), here]
  dsimp only
  rw [moved]
  split
  · split
    · next fin => exact counted _ _ rfl ⟨rfl, rfl, rfl⟩ fin
    · exact before.onward ⟨rfl, rfl, rfl⟩ rfl
  · split
    · next fin => exact (counted _ .closing rfl ⟨rfl, rfl, rfl⟩ fin).alike ⟨rfl, rfl, rfl⟩ rfl
    · exact before.onward ⟨rfl, rfl, rfl⟩ (by dsimp only; rw [here]; rfl)

theorem tcpHandler_finWait2 (here : s.state = .finWait2) (rst : seg.rst = false) : s.tcpHandler seg =
    if seg.fin then (s.handleData seg).finTo .timeWait else s.handleData seg := by
  unfold tcpHandler
  rw [if_neg (by simp [rst]), here]

theorem Phase.finWait2 (here : s.state = .finWait2) (phase : Phase stream initial s) (rst : seg.rst = false)
    (coming : Coming stream initial s seg) (turn : seg.fin → seqLe seg.seqnum s.ack) :
    Phase stream initial (s.tcpHandler seg) := by
  have before : Before stream initial s := phase.before (by rw [here]; rfl)
  rw [tcpHandler_finWait2 here rst]
  split
  · next fin => exact ((before.incoming coming).finTo (before.completes coming fin (turn fin))).phase rfl
  · exact (before.incoming coming).phase (by rw [handleData_state, here]; rfl)

theorem Phase.opening (state : s.state = .synSent ∨ s.state = .listen ∨ s.state = .synRcvd)
    (phase : Phase stream initial s) (coming : seg.rst ∨ Coming stream initial s seg) :
    Phase stream initial (s.tcpHandler seg) := by
  have first (syn : seg.syn) (plain : ¬ seg.rst) : seg.seqnum + 1 = initial := by
    rcases coming with rst | ⟨is, -⟩ | ⟨offset, piece, -⟩
    · exact absurd rst plain
    · exact is.seqnum
    · rw [piece.syn] at syn
      exact absurd syn Bool.false_ne_true
  unfold tcpHandler
  rcases state with here | here | here
  · by_cases rst : seg.rst
    · rw [if_pos ⟨by rw [here]; decide, rst⟩, if_neg (by rw [here]; decide)]
      exact phase.closed ⟨rfl, rfl, rfl⟩ rfl
    · rw [if_neg fun both => rst both.2, here]
      dsimp only
      split
      · exact phase.closed ⟨rfl, rfl, rfl⟩ rfl
      · next both =>
        have syn : seg.syn := by simp [Segment.syn, not_not.mp both, tcpFlagSyn, tcpFlagAck]
        unfold Phase at phase
        rw [here] at phase
        refine Before.phase ⟨phase.1, by rw [phase.2]; omega, ?_⟩ rfl
        simp only [taken, phase.1, phase.2]
        rw [first syn rst]
        exact (BitVec.add_zero initial).symm
  · by_cases rst : seg.rst
    · rw [if_pos ⟨by rw [here]; decide, rst⟩, if_neg (by rw [here]; decide)]
      exact phase.closed ⟨rfl, rfl, rfl⟩ rfl
    · rw [if_neg fun both => rst both.2, here]
      dsimp only
      split
      · next syn =>
        unfold Phase at phase
        rw [here] at phase
        exact ⟨phase.1, phase.2, first syn rst⟩
      · exact phase
  · rw [if_neg fun both => both.1 here, here]
    dsimp only
    unfold Phase at phase
    rw [here] at phase
    split
    · exact ⟨phase.1, phase.2.1⟩
    · split
      · unfold Phase
        rw [tcpSend_state]
        exact phase
      · split
        · refine Before.phase ⟨phase.1, by rw [phase.2.1]; omega, ?_⟩ rfl
          simp only [taken, phase.1, phase.2.1, phase.2.2]
          exact (BitVec.add_zero initial).symm
        · unfold Phase
          exact phase

theorem Phase.ending (state : s.state = .lastAck ∨ s.state = .closing ∨ s.state = .timeWait)
    (phase : Phase stream initial s) (rst : seg.rst = false) : Phase stream initial (s.tcpHandler seg) := by
  obtain ⟨timer, seq, out, moved⟩ := @handleAck_frame seg s
  have after : After stream initial s := phase.after (by rcases state with here | here | here <;> rw [here] <;> rfl)
  unfold tcpHandler
  rw [if_neg (by simp [rst])]
  rcases state with here | here | here
  · rw [here]
    dsimp only
    rw [moved]
    split
    · split
      · exact phase.closed ⟨rfl, rfl, rfl⟩ rfl
      · exact phase.alike ⟨rfl, rfl, rfl⟩ rfl
    · exact phase
  · rw [here]
    dsimp only
    rw [moved]
    split
    · split
      · exact after.onward ⟨rfl, rfl, rfl⟩ rfl
      · exact phase.alike ⟨rfl, rfl, rfl⟩ rfl
    · exact phase
  · rw [here]
    dsimp only
    split
    · exact phase.alike ⟨rfl, rfl, rfl⟩ rfl
    · exact phase

section
variable (phase : Phase stream initial s)
include phase

theorem Phase.tcpHandler (coming : seg.rst ∨ Coming stream initial s seg)
    (turn : s.InTurn seg) : Phase stream initial (s.tcpHandler seg) := by
  by_cases opening : s.state = .synSent ∨ s.state = .listen ∨ s.state = .synRcvd
  · exact phase.opening opening coming
  by_cases rst : seg.rst
  · unfold Socket.tcpHandler
    rw [if_pos ⟨fun here => opening (.inr (.inr here)), rst⟩]
    split
    · exact phase
    · exact phase.closed ⟨rfl, rfl, rfl⟩ rfl
  have plain : seg.rst = false := Bool.eq_false_iff.mpr rst
  have coming := coming.resolve_left rst
  unfold InTurn at turn
  cases here : s.state with
  | synSent => exact absurd (.inl here) opening
  | listen => exact absurd (.inr (.inl here)) opening
  | synRcvd => exact absurd (.inr (.inr here)) opening
  | established => exact phase.opened (.inl here) plain coming
  | closeWait => exact phase.opened (.inr here) plain coming
  | lastAck => exact phase.ending (.inl here) plain
  | closing => exact phase.ending (.inr (.inl here)) plain
  | timeWait => exact phase.ending (.inr (.inr here)) plain
  | finWait1 =>
    rw [here] at turn
    exact phase.finWait1 here plain coming turn
  | finWait2 =>
    rw [here] at turn
    exact phase.finWait2 here plain coming turn
  | closed =>
    unfold Socket.tcpHandler
    rw [if_neg fun both => rst both.2, here]
    exact phase

theorem Phase.tcpClose : Phase stream initial s.tcpClose := by
  unfold Socket.tcpClose
  split
  · next state =>
    rcases state with here | here
    · exact (phase.before (by rw [here]; rfl)).onward ⟨rfl, rfl, rfl⟩ rfl
    · unfold Phase at phase
      rw [here] at phase
      refine Before.phase ⟨phase.1, ?_, ?_⟩ rfl
      · change s.accepted ≤ stream.length
        rw [phase.2.1]
        omega
      · change s.ack = initial + BitVec.ofNat 32 (s.accepted + s.accounted)
        rw [phase.1, phase.2.1, phase.2.2]
        exact (BitVec.add_zero initial).symm
  · split
    · next here => exact (phase.after (by rw [here]; rfl)).onward ⟨rfl, rfl, rfl⟩ rfl
    · exact phase.alike ⟨rfl, rfl, rfl⟩ rfl

theorem Phase.tcpWrite (buf : List UInt8) : Phase stream initial (s.tcpWrite buf) := by
  unfold Socket.tcpWrite
  split
  · exact phase
  · split
    · exact phase
    · split
      · exact phase
      · exact phase.alike ⟨rfl, rfl, rfl⟩ rfl

theorem Phase.timerPoll : Phase stream initial s.timerPoll := by
  unfold Socket.timerPoll
  split
  · exact phase
  · exact phase.alike ⟨rfl, rfl, rfl⟩ rfl
  · exact phase.closed ⟨rfl, rfl, rfl⟩ rfl

theorem Phase.tcpRead {len : Int} {bytes : List UInt8} (run : s.tcpRead len = some (bytes, t)) : Phase stream initial t := by
  unfold Socket.tcpRead at run
  split at run
  · cases run
    exact phase
  · obtain ⟨r, -, same⟩ := Option.map_eq_some_iff.mp run
    cases same
    exact phase.alike ⟨rfl, rfl, rfl⟩ rfl

theorem Phase.counted (state : s.state.waits ∨ s.state = .closeWait)
    (rst : seg.rst = false) (coming : Coming stream initial s seg) (turn : s.InTurn seg) (fin : seg.fin)
    (full : seg.data ≠ []) (next : seg.seqnum = s.ack) : (s.tcpHandler seg).accounted = 1 := by
  have turn := turn fin
  cases here : s.state with
  | established =>
    rw [here] at turn
    exact absurd ⟨full, next⟩ turn
  | closeWait =>
    obtain ⟨offset, piece, near⟩ := coming.fin fin
    exact absurd next ((phase.after (by rw [here]; rfl)).fin_not piece near)
  | finWait1 =>
    rw [here] at turn
    rw [← next] at turn
    have short := seg.fits
    have places : seg.seqnum + BitVec.ofNat 32 seg.data.length = seg.seqnum + BitVec.ofNat 32 0 := by
      rw [turn]
      exact (BitVec.add_zero _).symm
    have none : seg.data.length = 0 := serial_eq (by omega) (by omega) places
    exact absurd (List.length_eq_zero_iff.mp none) full
  | finWait2 =>
    have before : Before stream initial s := phase.before (by rw [here]; rfl)
    rw [tcpHandler_finWait2 here rst, if_pos fin]
    change (s.handleData seg).accounted + 1 = 1
    rw [(before.incoming coming).none]
  | _ => simp [here, TcpState.waits] at state

end

end Socket

open Socket

namespace Conn
variable {stream : List UInt8} {initial : BitVec 32} {seg : Segment} {c : Conn} {e : TcpEvent}

/-- A socket that listens or has sent its SYN. -/
def Begins (c : Conn) : Prop := (c.sock = tcpListen ∨ ∃ port, c.sock = tcpOpen port) ∧ c.returned = []

/-- A correct peer and any local calls. `__tcp_close` goes on when everything has been sent or the connection is
gone. -/
def Talks (stream : List UInt8) (initial : BitVec 32) (c : Conn) : TcpEvent → Prop
  | .segment seg => seg.rst ∨ Coming stream initial c.sock seg
  | .close => c.sock.state = .closed ∨ c.sock.out = []
  | _ => True

def Turned (c : Conn) : TcpEvent → Prop
  | .segment seg => c.sock.InTurn seg
  | _ => True

theorem Begins.phase (begins : Begins c) : Phase stream initial c.sock := by
  rcases begins.1 with here | ⟨port, here⟩
  · rw [here]
    exact ⟨rfl, rfl⟩
  · rw [here]
    exact ⟨rfl, rfl⟩

theorem phase_act (phase : Phase stream initial c.sock) (talks : Talks stream initial c e) (turned : Turned c e) :
    Phase stream initial (c.act e).sock := by
  cases e with
  | segment seg => exact phase.tcpHandler talks turned
  | read len =>
    dsimp only [act]
    split
    · next run => exact phase.tcpRead run
    · exact phase
  | write buf => exact phase.tcpWrite buf
  | close => exact phase.tcpClose
  | timer => exact phase.timerPoll
  | abort => exact phase.closed ⟨rfl, rfl, rfl⟩ rfl

/-- Every run in which each FIN comes in its turn: the FIN is counted at most once, only when the whole stream has
been taken, `ack` and the state follow the count, and data and FIN in one segment are counted as they come. -/
theorem fin_accounted (reach : (Machine.guided Begins
      (fun c e => Talks stream initial c e ∧ Turned c e) Conn.act).Reach c) :
    c.sock.accounted ≤ 1 ∧ (c.sock.accounted = 1 → c.sock.accepted = stream.length) ∧
      (c.sock.state.waits → c.sock.accounted = 0 ∧ c.sock.ack = initial + BitVec.ofNat 32 c.sock.accepted) ∧
      (c.sock.state.shut → c.sock.accounted = 1 ∧ c.sock.ack = initial + BitVec.ofNat 32 c.sock.accepted + 1) ∧
      ∀ seg, c.sock.state.waits ∨ c.sock.state = .closeWait → seg.rst = false → Coming stream initial c.sock seg →
        c.sock.InTurn seg → seg.fin → seg.data ≠ [] → seg.seqnum = c.sock.ack →
        (c.act (.segment seg)).sock.accounted = 1 ∧ (c.act (.segment seg)).sock.accepted = stream.length := by
  have phase : Phase stream initial c.sock :=
    reach.kept (fun _ begins => begins.phase) fun c e phase ok => phase_act phase ok.1 ok.2
  have bound := phase.fin_bound
  refine ⟨by omega, by omega, fun waits => ?_, fun shut => ?_, fun seg state rst coming turn fin full next => ?_⟩
  · have before := phase.before waits
    exact ⟨before.none, by rw [before.ack, taken, before.none, add_zero]⟩
  · have after := phase.after shut
    refine ⟨after.once, ?_⟩
    rw [after.ack, taken, after.once, BitVec.ofNat_add, ← BitVec.add_assoc]
    rfl
  · have counted := phase.counted state rst coming turn fin full next
    refine ⟨counted, ?_⟩
    have bound' := (phase.tcpHandler (.inr coming) turn).fin_bound
    change (c.sock.tcpHandler seg).accepted = stream.length
    omega

def synSegment : Segment := ⟨99, 0, tcpFlagSyn, [], by decide⟩

def ackSegment (n : BitVec 32) : Segment := ⟨100, n, tcpFlagAck, [], by decide⟩

/-- All of the stream and the FIN. -/
def lastSegment : Segment := ⟨100, 2, tcpFlagAck ||| tcpFlagFin, [7], by decide⟩

/-- The FIN alone. -/
def finSegment : Segment := ⟨101, 2, tcpFlagAck ||| tcpFlagFin, [], by decide⟩

theorem synSegment_is : IsSyn 100 synSegment := ⟨by decide, by decide, by decide, by decide⟩

theorem ackSegment_piece {n : BitVec 32} : Piece [7] 100 0 (ackSegment n) :=
  ⟨rfl, by exact List.nil_prefix, by decide, fun fin => absurd fin (by simp [ackSegment, Segment.fin, tcpFlagAck, tcpFlagFin]),
    by simp [ackSegment, Segment.syn, tcpFlagAck, tcpFlagSyn]⟩

theorem lastSegment_piece : Piece [7] 100 0 lastSegment :=
  ⟨by decide, by decide, by decide, by decide, by decide⟩

theorem finSegment_piece : Piece [7] 100 1 finSegment :=
  ⟨by decide, by decide, by decide, by decide, by decide⟩

/-- The handshake of a listening socket. -/
def handshake : List TcpEvent := [.segment synSegment, .segment (ackSegment 1)]

/-- The handshake, a local close that the peer acknowledges, and one more segment. -/
def closing (seg : Segment) : List TcpEvent := handshake ++ [.close, .segment (ackSegment 2), .segment seg]

theorem fin_accounted_finWait2 :
    let c := (closing lastSegment).foldl Conn.act ⟨tcpListen, []⟩
    c.sock.state = .timeWait ∧ c.sock.accounted = 1 ∧ c.sock.accepted = [7].length := by
  have once : ((closing lastSegment).foldl Conn.act
      ⟨tcpListen, []⟩).sock.accounted = 1 := by decide +kernel
  refine ⟨by decide +kernel, once, (@fin_accounted [7] 100 _ ?_).2.1 once⟩
  refine .run (.start ⟨.inl rfl, rfl⟩) ⟨⟨.inr (.inl ⟨synSegment_is, by decide⟩), ?_⟩,
    ⟨.inr (.inr ⟨0, ackSegment_piece, ?_⟩), ?_⟩, ⟨.inr (by decide +kernel), trivial⟩,
    ⟨.inr (.inr ⟨0, ackSegment_piece, ?_⟩), ?_⟩, ⟨.inr (.inr ⟨0, lastSegment_piece, ?_⟩), ?_⟩, trivial⟩
  · exact fun fin => absurd fin (by decide)
  · exact ⟨by decide +kernel, by decide +kernel⟩
  · exact fun fin => absurd fin (by decide)
  · exact ⟨by decide +kernel, by decide +kernel⟩
  · exact fun fin => absurd fin (by decide)
  · exact ⟨by decide +kernel, by decide +kernel⟩
  · intro _
    change seqLe lastSegment.seqnum ((((⟨tcpListen, []⟩ : Conn).act (.segment synSegment)).act
      (.segment (ackSegment 1))).act .close |>.act (.segment (ackSegment 2))).sock.ack = true
    decide +kernel

/-- Data and FIN in one segment are never counted in `_ESTABLISHED`, not even when the segment comes again; and a FIN
that overtakes the data is counted in `_FIN_WAIT_2`. -/
theorem fin_lost_or_early :
    (∃ c, (Machine.guided Begins (Talks [7] 100) Conn.act).Reach c ∧ c.sock.state = .established ∧
      lastSegment.seqnum = c.sock.ack ∧ ((c.act (.segment lastSegment)).act (.segment lastSegment)).sock.accounted = 0) ∧
    ∃ c, (Machine.guided Begins (Talks [7] 100) Conn.act).Reach c ∧ c.sock.accounted = 1 ∧ c.sock.accepted = 0 := by
  refine ⟨⟨handshake.foldl Conn.act ⟨tcpListen, []⟩, .run (.start ⟨.inl rfl, rfl⟩)
    ⟨.inr (.inl ⟨synSegment_is, by decide⟩), .inr (.inr ⟨0, ackSegment_piece, ?_⟩), trivial⟩, by decide +kernel,
      by decide +kernel, by decide +kernel⟩,
    ⟨(closing finSegment).foldl Conn.act ⟨tcpListen, []⟩,
      .run (.start ⟨.inl rfl, rfl⟩) ⟨.inr (.inl ⟨synSegment_is, by decide⟩), .inr (.inr ⟨0, ackSegment_piece, ?_⟩),
        .inr (by decide +kernel), .inr (.inr ⟨0, ackSegment_piece, ?_⟩), .inr (.inr ⟨1, finSegment_piece, ?_⟩),
        trivial⟩, by decide +kernel, by decide +kernel⟩⟩
  · exact ⟨by decide +kernel, by decide +kernel⟩
  · exact ⟨by decide +kernel, by decide +kernel⟩
  · exact ⟨by decide +kernel, by decide +kernel⟩
  · exact ⟨by decide +kernel, by decide +kernel⟩

end Conn

end Ecos.Redboot
