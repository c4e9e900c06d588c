import Mathlib.Data.List.Infix
import Ecos.Redboot.Tcp

namespace Ecos.Redboot
open List Option

namespace Socket
variable {stream : List UInt8} {initial : BitVec 32} {offset ptr cnt len : Nat} {seg pkt : Segment} {s : Socket}
  {rxlist : List Segment}

/-- The bytes `__tcp_read` would copy if it were asked for all. -/
def remaining : List Segment → Nat → Nat → List UInt8
  | [], _, _ => []
  | pkt :: rest, ptr, cnt => (pkt.data.drop ptr).take cnt ++ rest.flatMap Segment.data

/-- The first packet is read from `ptr` to its end; no packet is empty. -/
def Lined : List Segment → Nat → Nat → Prop
  | [], _, cnt => cnt = 0
  | pkt :: rest, ptr, cnt => 0 < cnt ∧ ptr + cnt = pkt.data.length ∧ ∀ next ∈ rest, next.data ≠ []

theorem Lined.length (lined : Lined rxlist ptr cnt) :
    (remaining rxlist ptr cnt).length = cnt + (rxlist.tail.map fun pkt => pkt.data.length).sum := by
  cases rxlist with
  | nil => simpa [remaining, Lined] using lined.symm
  | cons pkt rest =>
    obtain ⟨-, whole, -⟩ := lined
    rw [remaining, length_append, length_take, length_drop, length_flatMap, tail_cons,
      Nat.min_eq_left (by omega)]

theorem Lined.next {rest : List Segment} (lined : Lined (pkt :: seg :: rest) ptr cnt) :
    Lined (seg :: rest) 0 seg.data.length := by
  obtain ⟨-, -, full⟩ := lined
  exact ⟨length_pos_iff.mpr (full seg mem_cons_self), by omega,
    fun next mem => full next (mem_cons_of_mem _ mem)⟩

theorem readLoop_spec (lined : Lined rxlist ptr cnt) (filled : rxlist ≠ []) :
    ∃ r, readLoop rxlist ptr cnt len = some r ∧ Lined r.2.1 r.2.2.1 r.2.2.2 ∧
      r.1 ++ remaining r.2.1 r.2.2.1 r.2.2.2 = remaining rxlist ptr cnt := by
  induction rxlist generalizing ptr cnt len with
  | nil => exact absurd rfl filled
  | cons pkt rest ih =>
    cases len with
    | zero => exact ⟨_, rfl, lined, rfl⟩
    | succ len =>
      rw [readLoop]
      obtain ⟨positive, whole, full⟩ := lined
      by_cases short : len + 1 < cnt
      · rw [if_pos short]
        refine ⟨_, rfl, ⟨?_, ?_, full⟩, ?_⟩
        · dsimp only
          omega
        · dsimp only
          omega
        dsimp only [remaining]
        rw [← append_assoc]
        congr 1
        have parts : cnt = (len + 1) + (cnt - (len + 1)) := by omega
        conv_rhs => rw [parts, take_add, drop_drop]
      · rw [if_neg short]
        cases rest with
        | nil => exact ⟨_, rfl, rfl, by simp [remaining]⟩
        | cons next rest =>
          have onward := Lined.next ⟨positive, whole, full⟩
          obtain ⟨r, run, lined', bytes⟩ := @ih 0 next.data.length (len + 1 - cnt) onward (cons_ne_nil _ _)
          refine ⟨((pkt.data.drop ptr).take cnt ++ r.1, r.2), ?_, lined', ?_⟩
          · dsimp only
            rw [run, map_some]
          have all : remaining (next :: rest) 0 next.data.length = (next :: rest).flatMap Segment.data := by
            simp [remaining]
          rw [append_assoc, bytes, all]
          rfl

theorem remaining_append (filled : rxlist ≠ []) : remaining (rxlist ++ [seg]) ptr cnt = remaining rxlist ptr cnt ++ seg.data := by
  cases rxlist with
  | nil => exact absurd rfl filled
  | cons pkt rest => simp [remaining, flatMap_append]

theorem Lined.append (lined : Lined rxlist ptr cnt) (filled : rxlist ≠ []) (full : seg.data ≠ []) :
    Lined (rxlist ++ [seg]) ptr cnt := by
  cases rxlist with
  | nil => exact absurd rfl filled
  | cons pkt rest =>
    obtain ⟨positive, whole, others⟩ := lined
    refine ⟨positive, whole, fun next mem => ?_⟩
    rcases mem_append.mp mem with old | new
    · exact others next old
    · rw [mem_singleton.mp new]
      exact full

theorem take_piece (piece : Piece stream initial offset seg) {place : Nat} (early : offset ≤ place) :
    stream.take (place + (seg.data.length - (place - offset))) = stream.take place ++ seg.data.drop (place - offset) := by
  have fits : seg.data.drop (place - offset) <+: stream.drop place := by
    have cut := piece.data.drop (place - offset)
    rwa [drop_drop, show offset + (place - offset) = place by omega] at cut
  rw [take_add]
  congr 1
  have exact := List.prefix_iff_eq_take.mp fits
  rw [length_drop] at exact
  exact exact.symm

/-- The segment holds bytes that are expected, after some that have been taken. -/
def Straddles (s : Socket) (seg : Segment) : Prop :=
  seqLt seg.seqnum s.ack ∧ seqLt s.ack (seg.seqnum + BitVec.ofNat 32 seg.data.length)

instance : Decidable (s.Straddles seg) := inferInstanceAs (Decidable (_ ∧ _))

theorem Before.starts (before : Before stream initial s) (piece : Piece stream initial offset seg)
    (near : s.Near offset) (early : offset ≤ s.taken) (news : s.taken < offset + seg.data.length)
    (clear : ¬ s.Straddles seg) : s.taken - offset = 0 := by
  by_contra later
  obtain ⟨above, below⟩ := near
  have short := seg.fits
  refine clear ⟨?_, ?_⟩
  · rw [piece.seqnum, before.ack, seqLt_at above below]
    exact decide_eq_true (by omega)
  · rw [piece.seqnum, before.ack, serial_add, seqLt_at (by omega) (by omega)]
    exact decide_eq_true (by omega)

end Socket

open Socket

namespace Conn
variable {stream : List UInt8} {initial : BitVec 32} {offset : Nat} {seg : Segment} {c : Conn} {e : TcpEvent}

/-- A connection that has just been established. -/
def Opened (initial : BitVec 32) (c : Conn) : Prop :=
  c.sock.state = .established ∧ c.sock.ack = initial ∧ c.sock.rxlist = [] ∧ c.sock.rxcnt = 0 ∧
    c.sock.accepted = 0 ∧ c.sock.accounted = 0 ∧ c.returned = []

/-- The peer sends pieces of the stream, with less than 2^31 bytes outstanding; the other calls are reads. -/
def Streams (stream : List UInt8) (initial : BitVec 32) (c : Conn) : TcpEvent → Prop
  | .segment seg => seg.rst = false ∧ ∃ offset, Piece stream initial offset seg ∧ c.sock.Near offset
  | .read _ => True
  | _ => False

/-- No segment straddles what is expected next while others wait to be read. -/
def Clear (c : Conn) : TcpEvent → Prop
  | .segment seg => c.sock.rxlist ≠ [] → ¬ c.sock.Straddles seg
  | _ => True

/-- What has been read and what waits is the stream as far as it has been accepted. -/
structure Flow (stream : List UInt8) (initial : BitVec 32) (c : Conn) : Prop where
  phase : c.sock.state = .established ∧ Before stream initial c.sock ∨
    c.sock.state = .closeWait ∧ After stream initial c.sock
  lined : Lined c.sock.rxlist c.sock.rxptr c.sock.rxcnt
  bytes : c.returned ++ remaining c.sock.rxlist c.sock.rxptr c.sock.rxcnt = stream.take c.sock.accepted

theorem Opened.flow (opened : Opened initial c) : Flow stream initial c := by
  obtain ⟨state, ack, rxlist, rxcnt, accepted, accounted, returned⟩ := opened
  refine ⟨.inl ⟨state, accounted, by omega, ?_⟩, ?_, ?_⟩
  · rw [taken, accepted, accounted, ack]
    exact (BitVec.add_zero initial).symm
  · rw [rxlist]
    exact rxcnt
  · rw [rxlist, accepted, returned]
    rfl

section
variable (flow : Flow stream initial c)
include flow

theorem Flow.queue (before : Before stream initial c.sock)
    (piece : Piece stream initial offset seg) (early : offset ≤ c.sock.taken)
    (news : c.sock.taken < offset + seg.data.length) (aligned : c.sock.rxlist ≠ [] → c.sock.taken - offset = 0) :
    Lined (c.sock.queue seg (c.sock.taken - offset)).rxlist (c.sock.queue seg (c.sock.taken - offset)).rxptr
        (c.sock.queue seg (c.sock.taken - offset)).rxcnt ∧
      c.returned ++ remaining (c.sock.queue seg (c.sock.taken - offset)).rxlist
        (c.sock.queue seg (c.sock.taken - offset)).rxptr (c.sock.queue seg (c.sock.taken - offset)).rxcnt =
          stream.take (c.sock.queue seg (c.sock.taken - offset)).accepted := by
  have place : c.sock.taken = c.sock.accepted := by rw [taken, before.none, add_zero]
  have grown := @take_piece stream initial offset seg piece c.sock.taken early
  have bytes := flow.bytes
  have lined := flow.lined
  simp only [Socket.queue]
  rw [← place, grown]
  rw [← place] at bytes
  by_cases empty : c.sock.rxlist = []
  · rw [empty] at bytes lined ⊢
    rw [if_pos rfl, if_pos rfl, nil_append]
    refine ⟨⟨by omega, by omega, by simp⟩, ?_⟩
    rw [remaining, append_nil] at bytes
    have waited : (seg.data.drop (c.sock.taken - offset)).take (seg.data.length - (c.sock.taken - offset)) =
        seg.data.drop (c.sock.taken - offset) := take_of_length_le (by rw [length_drop])
    rw [bytes, remaining, flatMap_nil, append_nil, waited]
  · rw [if_neg empty, if_neg empty, remaining_append empty, aligned empty, ← append_assoc, bytes, drop_zero]
    refine ⟨lined.append empty ?_, rfl⟩
    intro none
    rw [none, length_nil] at news
    omega

theorem Flow.segment (rst : seg.rst = false) (piece : Piece stream initial offset seg)
    (near : c.sock.Near offset) (clear : c.sock.rxlist ≠ [] → ¬ c.sock.Straddles seg) :
    Flow stream initial (c.act (.segment seg)) := by
  have state : c.sock.state = .established ∨ c.sock.state = .closeWait := by
    rcases flow.phase with ⟨here, -⟩ | ⟨here, -⟩
    · exact .inl here
    · exact .inr here
  obtain ⟨timer, seq, out, run⟩ := tcpHandler_open state rst
  -- acknowledging only touches what the invariant does not read
  obtain ⟨d, moved, same⟩ : ∃ d : Conn, d.sock = { c.sock with timer, seq, out } ∧ d.returned = c.returned :=
    ⟨⟨_, _⟩, rfl, rfl⟩
  have flow' : Flow stream initial d := by
    obtain ⟨phase, lined, bytes⟩ := flow
    refine ⟨?_, ?_, ?_⟩
    · rw [moved]
      rcases phase with ⟨here, before⟩ | ⟨here, after⟩
      · exact .inl ⟨here, before.none, before.within, before.ack⟩
      · exact .inr ⟨here, after.once, after.all, after.ack⟩
    · rw [moved]
      exact lined
    · rw [moved, same]
      exact bytes
  have near' : d.sock.Near offset := by
    rw [moved]
    exact near
  have clear' : d.sock.rxlist ≠ [] → ¬ d.sock.Straddles seg := by
    rw [moved]
    exact clear
  rw [← moved] at run
  dsimp only [act]
  rw [run, ← same]
  dsimp only
  obtain ⟨phase, lined, bytes⟩ := flow'
  rcases phase with ⟨here, before⟩ | ⟨here, after⟩
  · have kept : Flow stream initial { d with sock := d.sock.handleData seg } := by
      have later := before.handleData piece near'
      have stays : (d.sock.handleData seg).state = .established := by
        rw [handleData_piece piece near' before.ack]
        split <;> exact here
      rw [handleData_piece piece near' before.ack] at later stays ⊢
      split
      · next both =>
        rw [if_pos both] at later stays
        obtain ⟨lined', bytes'⟩ := Flow.queue ⟨.inl ⟨here, before⟩, lined, bytes⟩ before piece both.1 both.2
          fun some => before.starts piece near' both.1 both.2 (clear' some)
        exact ⟨.inl ⟨stays, later⟩, lined', bytes'⟩
      · exact ⟨.inl ⟨here, before⟩, lined, bytes⟩
    split
    · next fin =>
      have all := before.fin_all piece near' fin.1 fin.2
      exact ⟨.inr ⟨rfl, (before.handleData piece near').finTo all⟩, kept.lined, kept.bytes⟩
    · exact kept
  · rw [after.handleData piece near', if_neg fun fin => after.fin_not piece near' fin.2]
    exact ⟨.inr ⟨here, after⟩, lined, bytes⟩

theorem Flow.tcpRead_some (len : Int) : ∃ bytes rxlist rxptr rxcnt,
    c.sock.tcpRead len = some (bytes, { c.sock with rxlist, rxptr, rxcnt }) ∧ Lined rxlist rxptr rxcnt ∧
      bytes ++ remaining rxlist rxptr rxcnt = remaining c.sock.rxlist c.sock.rxptr c.sock.rxcnt := by
  unfold tcpRead
  by_cases nothing : len ≤ 0 ∨ c.sock.rxcnt = 0
  · rw [if_pos nothing]
    exact ⟨[], _, _, _, rfl, flow.lined, rfl⟩
  · rw [if_neg nothing]
    have filled : c.sock.rxlist ≠ [] := by
      intro none
      have empty := flow.lined
      rw [none] at empty
      exact nothing (.inr empty)
    obtain ⟨r, run, lined, bytes⟩ := @readLoop_spec _ _ len.toNat _ flow.lined filled
    refine ⟨r.1, r.2.1, r.2.2.1, r.2.2.2, ?_, lined, bytes⟩
    rw [run, map_some]

theorem Flow.read (len : Int) : Flow stream initial (c.act (.read len)) := by
  obtain ⟨bytes, rxlist, rxptr, rxcnt, run, lined, split⟩ := flow.tcpRead_some len
  dsimp only [act]
  rw [run]
  obtain ⟨phase, -, whole⟩ := flow
  refine ⟨?_, lined, ?_⟩
  · rcases phase with ⟨here, before⟩ | ⟨here, after⟩
    · exact .inl ⟨here, before.none, before.within, before.ack⟩
    · exact .inr ⟨here, after.once, after.all, after.ack⟩
  · dsimp only
    rw [append_assoc, split, whole]

theorem Flow.act (sent : Streams stream initial c e) (clear : Clear c e) : Flow stream initial (c.act e) := by
  cases e with
  | segment seg =>
    obtain ⟨rst, offset, piece, near⟩ := sent
    exact flow.segment rst piece near clear
  | read len => exact flow.read len
  | write buf => exact sent.elim
  | close => exact sent.elim
  | timer => exact sent.elim
  | abort => exact sent.elim

end

/-- Every run in which no segment straddles the expected number while packets are waiting: the readers get the stream
from its start, `ack` counts what has been accepted, and the list holds what is accepted and not yet read. -/
theorem stream_delivered (reach : (Machine.guided (Opened initial)
      (fun c e => Streams stream initial c e ∧ Clear c e) Conn.act).Reach c) :
    c.returned <+: stream ∧
      (c.sock.state = .established → c.sock.ack = initial + BitVec.ofNat 32 c.sock.accepted) ∧
      c.sock.unread = c.sock.accepted - c.returned.length ∧ c.returned.length ≤ c.sock.accepted ∧
      c.sock.accepted ≤ stream.length ∧ ∀ len, (c.sock.tcpRead len).isSome := by
  have flow : Flow stream initial c :=
    reach.kept (fun _ opened => opened.flow) fun c e flow ok => flow.act ok.1 ok.2
  have within : c.sock.accepted ≤ stream.length := by
    rcases flow.phase with ⟨-, before⟩ | ⟨-, after⟩
    · exact before.within
    · exact Nat.le_of_eq after.all
  have counted := congrArg List.length flow.bytes
  rw [length_append, flow.lined.length, length_take, Nat.min_eq_left within] at counted
  have unread : c.sock.unread = c.sock.rxcnt + (c.sock.rxlist.tail.map fun pkt => pkt.data.length).sum := rfl
  refine ⟨?_, ?_, by omega, by omega, within, fun len => ?_⟩
  · exact (prefix_append _ _).trans (flow.bytes ▸ take_prefix _ _)
  · intro here
    rcases flow.phase with ⟨-, before⟩ | ⟨there, -⟩
    · rw [before.ack, taken, before.none, add_zero]
    · rw [here] at there
      exact absurd there (by decide)
  · obtain ⟨bytes, rxlist, rxptr, rxcnt, run, -, -⟩ := flow.tcpRead_some len
    rw [run]
    rfl

/-- A connection whose first byte has the number 2^32 - 1. -/
def fresh : Conn := ⟨{ tcpListen with state := .established, ack := 0xFFFFFFFF }, []⟩

def firstTwo : Segment := ⟨0xFFFFFFFF, 0, tcpFlagAck, [1, 2], by decide⟩

def third : Segment := ⟨1, 0, tcpFlagAck, [3], by decide⟩

/-- The second and the third byte in one segment. -/
def lastTwo : Segment := ⟨0, 0, tcpFlagAck, [2, 3], by decide⟩

theorem fresh_opened : Opened 0xFFFFFFFF fresh := by
  refine ⟨rfl, rfl, rfl, rfl, rfl, rfl, rfl⟩

theorem firstTwo_piece : Piece [1, 2, 3] 0xFFFFFFFF 0 firstTwo :=
  ⟨by decide, by decide, by decide, by decide, by decide⟩

theorem third_piece : Piece [1, 2, 3] 0xFFFFFFFF 2 third :=
  ⟨by decide, by decide, by decide, by decide, by decide⟩

theorem lastTwo_piece : Piece [1, 2, 3] 0xFFFFFFFF 1 lastTwo :=
  ⟨by decide, by decide, by decide, by decide, by decide⟩

theorem stream_delivered_wrapped :
    let c := [TcpEvent.segment firstTwo, .segment third, .read 2, .segment lastTwo, .read 9].foldl Conn.act fresh
    c.returned = [1, 2, 3] ∧ c.sock.ack = 2 ∧ c.sock.unread = c.sock.accepted - c.returned.length := by
  refine ⟨by decide +kernel, by decide +kernel, ?_⟩
  refine (@stream_delivered [1, 2, 3] 0xFFFFFFFF _ ?_).2.2.1
  refine .run (.start fresh_opened) ⟨⟨⟨by decide, 0, firstTwo_piece, ?_⟩, ?_⟩,
    ⟨⟨by decide, 2, third_piece, ?_⟩, ?_⟩, ⟨trivial, trivial⟩, ⟨⟨by decide, 1, lastTwo_piece, ?_⟩, ?_⟩,
    ⟨trivial, trivial⟩, trivial⟩
  · exact ⟨by decide +kernel, by decide +kernel⟩
  · exact fun filled => absurd rfl filled
  · exact ⟨by decide +kernel, by decide +kernel⟩
  · exact fun _ => by decide +kernel
  · exact ⟨by decide +kernel, by decide +kernel⟩
  · exact fun _ => by decide +kernel

/-- A retransmission that starts inside the packet before it: its known byte is read again. -/
theorem byte_read_twice : ∃ c, (Machine.guided (Opened 0xFFFFFFFF) (Streams [1, 2, 3] 0xFFFFFFFF) Conn.act).Reach c ∧
    c.returned = [1, 2, 2, 3] ∧ ¬ c.returned <+: [1, 2, 3] ∧ c.sock.accepted < c.returned.length := by
  refine ⟨[TcpEvent.segment firstTwo, .segment lastTwo, .read 9].foldl Conn.act fresh,
    .run (.start fresh_opened) ⟨⟨by decide, 0, firstTwo_piece, ?_⟩, ⟨by decide, 1, lastTwo_piece, ?_⟩, trivial,
      trivial⟩, by decide +kernel, by decide +kernel, by decide +kernel⟩
  · exact ⟨by decide +kernel, by decide +kernel⟩
  · exact ⟨by decide +kernel, by decide +kernel⟩

end Conn

end Ecos.Redboot
