import Ecos.Lib.Machine
import Ecos.Lib.Window

namespace Ecos.Redboot

def segsize : Nat := 512

def opData : Nat := 3

def opAck : Nat := 4

def opError : Nat := 5

def timeoutMax : Int := 15

def errTimeout : Nat := 8

def errNeterr : Nat := 9

def errProtocol : Nat := 11

/-- A datagram with a whole header and at most `SEGSIZE` bytes of data, which fills the buffer at most. -/
structure Datagram where
  bytes : List UInt8
  header : 4 ≤ bytes.length
  fits : bytes.length ≤ segsize + 4

/-- `ntohs` of the two bytes at a position. -/
def ntohs (data : Nat → UInt8) (p : Nat) : Nat := (data p).toNat * 256 + (data (p + 1)).toNat

def htons (n : Nat) : List UInt8 := [UInt8.ofNat (n / 256 % 256), UInt8.ofNat (n % 256)]

/-- What `__udp_recvfrom` returns. -/
inductive Recv
  | timeout
  | datagram (d : Datagram)

/-- What a call returns: the number of bytes, or -1 and a code in `*err`. -/
inductive Ret
  | total (n : Nat)
  | error (err : Nat)
  deriving DecidableEq

/-- `tftp_stream`, and beside it what has been received and acknowledged, and the bytes that have been
copied to the callers. An acknowledgement is recorded with the number of datagrams received before. -/
structure Tftp where
  totalTimeouts : Int
  packetsReceived : Int
  lastGoodBlock : Nat
  avail : Nat
  actualLen : Int
  data : Nat → UInt8
  bufp : Nat
  seen : List Datagram
  acks : List (Nat × Nat)
  out : List UInt8

namespace Tftp
variable (send : Nat → Bool)

/-- The bytes of the last block that have not been delivered yet. -/
def pending (s : Tftp) : List UInt8 := window s.data s.bufp s.avail

/-- `tftp_ack`. Whether `__udp_sendto` succeeds may differ from one time to the next. -/
def tftpAck (s : Tftp) : Tftp × Bool :=
  if s.packetsReceived > 0 then
    ({ s with
      data := overwrite s.data 0 (htons opAck ++ htons (s.lastGoodBlock % 2 ^ 16))
      acks := s.acks ++ [(s.lastGoodBlock % 2 ^ 16, s.seen.length)] }, send s.acks.length)
  else (s, true)

/-- The part of the loop that moves the bytes that have been read before. -/
def move (s : Tftp) (size : Nat) : Tftp :=
  { s with bufp := s.bufp + size, avail := s.avail - size, out := s.out ++ window s.data s.bufp size }

/-- `int` on the target. -/
def int32 (n : Int) : Int := n.bmod (2 ^ 32)

/-- The loop of `tftp_stream_read` up to where it receives: it returns, or goes on to receive. -/
def serve (s : Tftp) (len total : Nat) : (Ret × Tftp) ⊕ (Tftp × Nat) :=
  let size := min s.avail (len - total)
  let s := s.move size
  let total := total + size
  if len ≤ total then .inl (.total total, s)
  else
    let (s, sent) := s.tftpAck send
    if sent = false then .inl (.error errNeterr, s)
    else if 0 ≤ s.actualLen ∧ s.actualLen < segsize then .inl (.total total, s)
    else .inr (s, total)

/-- What is done with what has been received. The loop goes on unless there is an error. -/
def receive (s : Tftp) : Recv → Tftp × Option Nat
  | .timeout =>
    let s := { s with totalTimeouts := int32 (s.totalTimeouts + 1) }
    if s.totalTimeouts > timeoutMax ∨ s.lastGoodBlock = 0 then (s, some errTimeout)
    else
      let (s, sent) := s.tftpAck send
      (s, if sent then none else some errNeterr)
  | .datagram d =>
    let s := { s with
      data := overwrite s.data 0 d.bytes
      packetsReceived := int32 (s.packetsReceived + 1)
      seen := s.seen ++ [d] }
    if ntohs s.data 0 = opData then
      if ntohs s.data 2 = (s.lastGoodBlock + 1) % 2 ^ 16 then
        ({ s with
          avail := d.bytes.length - 4
          actualLen := d.bytes.length - 4
          bufp := 4
          lastGoodBlock := (s.lastGoodBlock + 1) % 2 ^ 32 }, none)
      else (s, none)
    else if ntohs s.data 0 = opError then (s, some (ntohs s.data 2))
    else (s, some errProtocol)

/-- `tftp_stream_read`, with what will be received; the rest of it is returned. `none` means that it still waits. -/
def readLoop (len : Nat) : List Recv → Tftp → Nat → Option (Ret × Tftp × List Recv)
  | net, s, total =>
    match s.serve send len total with
    | .inl (ret, s) => some (ret, s, net)
    | .inr (s, total) =>
      match net with
      | [] => none
      | r :: net =>
        match s.receive send r with
        | (s, none) => readLoop len net s total
        | (s, some err) => some (.error err, s, net)

def tftpStreamRead (s : Tftp) (len : Nat) (net : List Recv) : Option
    (Ret × Tftp × List Recv) := readLoop send len net s 0

/-- `tftp_stream_open`, once the request in `data` has been sent. The byte that is read first is put back. -/
def tftpStreamOpen (data : Nat → UInt8) (bufp : Nat) (net : List Recv) : Option Tftp :=
  match tftpStreamRead send ⟨0, 0, 0, 0, -1, data, bufp, [], [], []⟩ 1 net with
  | some (.total 1, s, _) => some { s with bufp := s.bufp - 1, avail := s.avail + 1, out := [] }
  | _ => none

/-- Reads of any length, and the acknowledgement of `tftp_stream_close`. -/
inductive Step : Tftp → Tftp → Prop
  | read {s s' : Tftp} {ret : Ret} {rest : List Recv} (len : Nat) (net : List Recv)
      (run : s.tftpStreamRead send len net = some (ret, s', rest)) : Step s s'
  | close {s : Tftp} : Step s (s.tftpAck send).1

def machine : Machine Tftp where
  init s := ∃ data bufp net, tftpStreamOpen send data bufp net = some s
  step := Step send

end Tftp

namespace Datagram

def opcode (d : Datagram) : Nat := ntohs (fun i => d.bytes.getD i 0) 0

def block (d : Datagram) : Nat := ntohs (fun i => d.bytes.getD i 0) 2

def payload (d : Datagram) : List UInt8 := d.bytes.drop 4

/-- The blocks whose numbers successively follow on the last one, up to the first short one. -/
def accepted : Nat → List Datagram → List Datagram
  | _, [] => []
  | last, d :: ds =>
    if d.opcode = opData ∧ d.block = (last + 1) % 2 ^ 16 then
      d :: if d.payload.length < segsize then [] else accepted (last + 1) ds
    else accepted last ds

/-- The number of the last of the accepted blocks. -/
def lastBlock (ds : List Datagram) : Nat := ((accepted 0 ds).getLast?.map block).getD 0

end Datagram

open List Option Nat

namespace Datagram
variable {d : Datagram} {ds : List Datagram} {last : Nat}

/-- The last accepted block is a short one. -/
def Ended (ds : List Datagram) : Prop := ∃ d ∈ accepted 0 ds, d.payload.length < segsize

theorem accepted_snoc (more : ∀ e ∈ accepted last ds, ¬ e.payload.length < segsize) :
    accepted last (ds ++ [d]) = accepted last ds ++
      if d.opcode = opData ∧ d.block = (last + (accepted last ds).length + 1) % 2 ^ 16 then [d] else [] := by
  induction ds generalizing last with
  | nil =>
    simp only [nil_append, accepted, length_nil, Nat.add_zero, ite_self]
    rfl
  | cons e ds ih =>
    rw [cons_append, accepted]
    rw [accepted] at more ⊢
    split
    · next taken =>
      rw [if_pos taken] at more
      have long : ¬ e.payload.length < segsize := more e mem_cons_self
      rw [if_neg long] at more ⊢
      rw [if_neg long, ih fun x mem => more x (mem_cons_of_mem e mem), cons_append, length_cons,
        show last + 1 + (accepted (last + 1) ds).length + 1 = last + ((accepted (last + 1) ds).length + 1) + 1 by omega]
    · next left =>
      rw [if_neg left] at more
      exact ih more

theorem accepted_block {i : Nat} (here : (accepted last ds)[i]? = some d) : d.block = (last + i + 1) % 2 ^ 16 := by
  induction ds generalizing last i with
  | nil => simp [accepted] at here
  | cons e ds ih =>
    rw [accepted] at here
    split at here
    · next taken =>
      cases i with
      | zero =>
        obtain rfl : e = d := by simpa using here
        exact taken.2
      | succ i =>
        rw [getElem?_cons_succ] at here
        split at here
        · simp at here
        · rw [ih here, show last + 1 + i + 1 = last + (i + 1) + 1 by omega]
    · exact ih here

theorem lastBlock_eq (ds : List Datagram) : lastBlock ds = (accepted 0 ds).length % 2 ^ 16 := by
  rw [lastBlock]
  cases last : (accepted 0 ds).getLast? with
  | none =>
    rw [getLast?_eq_none_iff.mp last]
    rfl
  | some d =>
    have here := last
    rw [getLast?_eq_getElem?] at here
    have some : accepted 0 ds ≠ [] := fun none => by simp [none] at last
    have positive := length_pos_iff.mpr some
    rw [map_some, getD_some, accepted_block here]
    congr 1
    omega

end Datagram

namespace Tftp
variable {send : Nat → Bool} {s s' : Tftp} {len total : Nat} {net rest : List Recv} {ret : Ret}

open Datagram

/-- What holds between all steps of the transfer. -/
structure Inv (s : Tftp) : Prop where
  bytes : s.out ++ s.pending = (accepted 0 s.seen).flatMap payload
  behind : s.avail ≠ 0 → 4 ≤ s.bufp
  block : s.lastGoodBlock = (accepted 0 s.seen).length % 2 ^ 32
  ended : 0 ≤ s.actualLen ∧ s.actualLen < segsize ↔ Ended s.seen
  acks : ∀ a ∈ s.acks, a.2 ≤ s.seen.length ∧ a.1 = lastBlock (s.seen.take a.2)

theorem pending_ack (behind : s.avail ≠ 0 → 4 ≤ s.bufp) : (s.tftpAck send).1.pending = s.pending := by
  rw [tftpAck]
  split
  · by_cases none : s.avail = 0
    · simp [pending, none]
    · have far := behind none
      refine window_congr fun i low _ => ?_
      dsimp only at low ⊢
      exact overwrite_of_ge (by change 0 + 4 ≤ i; omega)
  · rfl

theorem Inv.ack (inv : s.Inv) : (s.tftpAck send).1.Inv := by
  have kept : (s.tftpAck send).1.pending = s.pending := pending_ack inv.behind
  rw [tftpAck] at kept ⊢
  split
  · next some =>
    rw [if_pos some] at kept
    refine ⟨?_, inv.behind, inv.block, inv.ended, fun a mem => ?_⟩
    · rw [kept]
      exact inv.bytes
    · rcases mem_append.mp mem with old | new
      · exact inv.acks a old
      · obtain rfl := mem_singleton.mp new
        rw [take_length, lastBlock_eq, inv.block]
        exact ⟨le_rfl, mod_mod_of_dvd _ (by decide)⟩
  · exact inv

theorem Inv.move (inv : s.Inv) (le : total ≤ s.avail) : (s.move total).Inv := by
  refine ⟨?_, fun some => ?_, inv.block, inv.ended, inv.acks⟩
  · obtain ⟨k, split⟩ := Nat.exists_eq_add_of_le le
    have parts : s.pending = window s.data s.bufp total ++ window s.data (s.bufp + total) k := by
      rw [pending, split, window_append]
    change (s.out ++ window s.data s.bufp total) ++ window s.data (s.bufp + total) (s.avail - total) = _
    rw [split, Nat.add_sub_cancel_left, append_assoc, ← parts]
    exact inv.bytes
  · have far := inv.behind fun none => some (by rw [Tftp.move]; dsimp only; omega)
    rw [Tftp.move]
    dsimp only
    omega

theorem ack_avail : (s.tftpAck send).1.avail = s.avail := by
  rw [tftpAck]
  split <;> rfl

theorem Inv.serve (inv : s.Inv) :
    (∀ ret s', s.serve send len total = .inl (ret, s') → s'.Inv ∧ ∀ n, ret = .total n → n < len →
      s'.pending = [] ∧ Ended s'.seen) ∧
    ∀ s' total', s.serve send len total = .inr (s', total') → s'.Inv ∧ s'.avail = 0 ∧ ¬ Ended s'.seen := by
  have moved : (s.move (min s.avail (len - total))).Inv := inv.move (min_le_left ..)
  have acked : ((s.move (min s.avail (len - total))).tftpAck send).1.Inv := moved.ack
  have empty : ¬ len ≤ total + min s.avail (len - total) →
      ((s.move (min s.avail (len - total))).tftpAck send).1.avail = 0 := by
    intro more
    rw [ack_avail, Tftp.move]
    dsimp only
    omega
  rw [Tftp.serve]
  dsimp only
  split
  · next all =>
    refine ⟨fun ret s' same => ?_, by simp⟩
    obtain ⟨rfl, rfl⟩ := Prod.mk.inj (Sum.inl.inj same)
    exact ⟨moved, fun n isN less => absurd (Ret.total.inj isN) (by omega)⟩
  next more =>
  split
  · refine ⟨fun ret s' same => ?_, by simp⟩
    obtain ⟨rfl, rfl⟩ := Prod.mk.inj (Sum.inl.inj same)
    exact ⟨acked, by simp⟩
  split
  · next ended =>
    refine ⟨fun ret s' same => ?_, by simp⟩
    obtain ⟨rfl, rfl⟩ := Prod.mk.inj (Sum.inl.inj same)
    refine ⟨acked, fun n _ _ => ⟨?_, acked.ended.mp ended⟩⟩
    rw [pending, empty more, window_zero]
  · next going =>
    refine ⟨by simp, fun s' total' same => ?_⟩
    obtain ⟨rfl, rfl⟩ := Prod.mk.inj (Sum.inr.inj same)
    exact ⟨acked, empty more, fun ended => going (acked.ended.mpr ended)⟩

theorem ntohs_overwrite {f : Nat → UInt8} {l : List UInt8} {p : Nat} (inside : p + 1 < l.length) :
    ntohs (overwrite f 0 l) p = ntohs (fun i => l.getD i 0) p := by
  rw [ntohs, ntohs, overwrite_inside (g := fun _ => 0) (Nat.zero_le _) (by omega),
    overwrite_inside (g := fun _ => 0) (Nat.zero_le _) (by omega)]
  rfl

theorem window_payload {f : Nat → UInt8} (d : Datagram) : window (overwrite f 0 d.bytes) 4
    (d.bytes.length - 4) = d.payload := by
  have long := d.header
  have whole := @window_overwrite _ f d.bytes 0
  have split : d.bytes.length = 4 + (d.bytes.length - 4) := by omega
  rw [split, window_append, Nat.zero_add] at whole
  have dropped := congrArg (drop 4) whole
  rw [drop_left' (by simp)] at dropped
  exact dropped

/-- A datagram, or the end of the time. -/
theorem Inv.receive (inv : s.Inv) (empty : s.avail = 0) (more : ¬ Ended s.seen) (r : Recv) :
    (s.receive send r).1.Inv := by
  have long : ∀ e ∈ accepted 0 s.seen, ¬ e.payload.length < segsize := fun e mem short => more ⟨e, mem, short⟩
  cases r with
  | timeout =>
    have inv' : Inv { s with totalTimeouts := int32 (s.totalTimeouts + 1) } :=
      ⟨inv.bytes, inv.behind, inv.block, inv.ended, inv.acks⟩
    rw [Tftp.receive]
    split
    · exact inv'
    · exact inv'.ack
  | datagram d =>
    have header := d.header
    have delivered : s.out = (accepted 0 s.seen).flatMap payload := by
      have all := inv.bytes
      rwa [pending, empty, window_zero, append_nil] at all
    have acks : ∀ a ∈ s.acks, a.2 ≤ (s.seen ++ [d]).length ∧ a.1 = lastBlock ((s.seen ++ [d]).take a.2) := by
      intro a mem
      obtain ⟨le, same⟩ := inv.acks a mem
      rw [take_append_of_le_length le, length_append]
      exact ⟨le_add_right_of_le le, same⟩
    have opcode : ntohs (overwrite s.data 0 d.bytes) 0 = d.opcode := ntohs_overwrite (by omega)
    have block : ntohs (overwrite s.data 0 d.bytes) 2 = d.block := ntohs_overwrite (by omega)
    have next : (s.lastGoodBlock + 1) % 2 ^ 16 = (0 + (accepted 0 s.seen).length + 1) % 2 ^ 16 := by
      rw [inv.block]
      omega
    have snoc := accepted_snoc (d := d) long
    -- nothing else than the next block is accepted
    have ignored : ¬ (d.opcode = opData ∧ d.block = (s.lastGoodBlock + 1) % 2 ^ 16) → Inv { s with
        data := overwrite s.data 0 d.bytes
        packetsReceived := int32 (s.packetsReceived + 1)
        seen := s.seen ++ [d] } := by
      intro other
      rw [next] at other
      rw [if_neg other, append_nil] at snoc
      refine ⟨?_, fun some => absurd empty some, ?_, ?_, acks⟩
      · dsimp only [pending]
        rw [snoc, empty, window_zero, append_nil, delivered]
      · dsimp only
        rw [snoc, inv.block]
      · dsimp only
        rw [inv.ended, Ended, Ended, snoc]
    rw [Tftp.receive]
    rw [opcode, block]
    split
    · next isData =>
      split
      · next isNext =>
        rw [← next, if_pos ⟨isData, isNext⟩] at snoc
        refine ⟨?_, fun _ => le_refl 4, ?_, ?_, acks⟩
        · dsimp only [pending]
          rw [window_payload, snoc, delivered, flatMap_append]
          simp
        · dsimp only
          rw [snoc, inv.block, length_append, length_singleton]
          omega
        · dsimp only
          rw [Ended, snoc]
          have size : d.payload.length = d.bytes.length - 4 := length_drop
          constructor
          · intro short
            exact ⟨d, by simp, by omega⟩
          · rintro ⟨e, mem, short⟩
            rcases mem_append.mp mem with old | new
            · exact absurd short (long e old)
            · obtain rfl := mem_singleton.mp new
              omega
      · next other => exact ignored fun both => other both.2
    · next other =>
      split <;> exact ignored fun both => other both.1

theorem Inv.readLoop (inv : s.Inv) (run : readLoop send len net s total = some (ret, s', rest)) :
    s'.Inv ∧ ∀ n, ret = .total n → n < len → s'.pending = [] ∧ Ended s'.seen := by
  induction net generalizing s total with
  | nil =>
    rw [Tftp.readLoop] at run
    split at run
    · next ret s₁ served =>
      obtain ⟨rfl, rfl, _⟩ : ret = _ ∧ s₁ = s' ∧ _ := by simpa using run
      exact (inv.serve).1 _ _ served
    · simp at run
  | cons r net ih =>
    rw [Tftp.readLoop] at run
    split at run
    · next ret s₁ served =>
      obtain ⟨rfl, rfl, _⟩ : ret = _ ∧ s₁ = s' ∧ _ := by simpa using run
      exact (inv.serve).1 _ _ served
    · next s₁ total₁ served =>
      obtain ⟨inv₁, empty, more⟩ := (inv.serve).2 _ _ served
      have inv₂ : (s₁.receive send r).1.Inv := inv₁.receive empty more r
      dsimp only at run
      split at run
      · next s₂ got =>
        rw [got] at inv₂
        exact ih inv₂ run
      · next s₂ err got =>
        rw [got] at inv₂
        obtain ⟨rfl, rfl, _⟩ : Ret.error err = ret ∧ s₂ = s' ∧ _ := by simpa using run
        exact ⟨inv₂, by simp⟩

theorem ack_out : (s.tftpAck send).1.out = s.out := by
  rw [tftpAck]
  split <;> rfl

theorem receive_out (r : Recv) : (s.receive send r).1.out = s.out := by
  cases r with
  | timeout =>
    rw [receive]
    split
    · rfl
    · exact ack_out
  | datagram d =>
    rw [receive]
    split <;> (split <;> rfl)

theorem move_zero : s.move 0 = s := by
  rw [move, window_zero, append_nil]
  rfl

theorem serve_first (send : Nat → Bool) (none : s.out = []) :
    (1 ≤ s.avail ∧ s.serve send 1 0 = .inl (.total 1, s.move 1)) ∨ (s.serve send 1 0).isRight = true ∧
      (∀ s' total, s.serve send 1 0 = .inr (s', total) → s'.out = [] ∧ total = 0) ∨
      ∃ ret s', s.serve send 1 0 = .inl (ret, s') ∧ ret ≠ .total 1 := by
  rw [serve]
  dsimp only
  by_cases some : 1 ≤ s.avail
  · left
    rw [min_eq_right (by omega), if_pos (by omega)]
    exact ⟨some, rfl⟩
  · right
    obtain empty : s.avail = 0 := by omega
    rw [empty, Nat.zero_min, move_zero, if_neg (by omega)]
    split
    · exact .inr ⟨_, _, rfl, by simp⟩
    split
    · exact .inr ⟨_, _, rfl, by simp⟩
    · refine .inl ⟨rfl, fun s' total same => ?_⟩
      obtain ⟨rfl, rfl⟩ := Prod.mk.inj (Sum.inr.inj same)
      exact ⟨ack_out.trans none, rfl⟩

theorem Inv.readFirst (inv : s.Inv) (none : s.out = [])
    (run : Tftp.readLoop send 1 net s 0 = some (.total 1, s', rest)) :
    ∃ t : Tftp, t.Inv ∧ t.out = [] ∧ 1 ≤ t.avail ∧ s' = t.move 1 := by
  induction net generalizing s with
  | nil =>
    rw [Tftp.readLoop] at run
    rcases serve_first send none with ⟨some, first⟩ | ⟨right, _⟩ | ⟨ret, t, other, bad⟩
    · rw [first] at run
      obtain ⟨rfl, _⟩ : s.move 1 = s' ∧ _ := by simpa using run
      exact ⟨s, inv, none, some, rfl⟩
    · obtain ⟨x, isRight⟩ := Sum.isRight_iff.mp right
      rw [isRight] at run
      simp at run
    · rw [other] at run
      exact absurd (by simpa using run : ret = _ ∧ _).1 bad
  | cons r net ih =>
    rw [Tftp.readLoop] at run
    rcases serve_first send none with ⟨some, first⟩ | ⟨right, waits⟩ | ⟨ret, t, other, bad⟩
    · rw [first] at run
      obtain ⟨rfl, _⟩ : s.move 1 = s' ∧ _ := by simpa using run
      exact ⟨s, inv, none, some, rfl⟩
    · obtain ⟨⟨t, total⟩, isRight⟩ := Sum.isRight_iff.mp right
      obtain ⟨none', rfl⟩ := waits t total isRight
      obtain ⟨inv', empty, more⟩ := (inv.serve).2 _ _ isRight
      have inv'' : (t.receive send r).1.Inv := inv'.receive empty more r
      have none'' : (t.receive send r).1.out = [] := (receive_out r).trans none'
      rw [isRight] at run
      dsimp only at run
      split at run
      · next u got =>
        rw [got] at inv'' none''
        exact ih inv'' none'' run
      · simp at run
    · rw [other] at run
      exact absurd (by simpa using run : ret = _ ∧ _).1 bad

theorem Inv.opened {data : Nat → UInt8} {bufp : Nat} (run : tftpStreamOpen send data bufp net = some s) : s.Inv := by
  rw [tftpStreamOpen] at run
  split at run
  swap
  · simp at run
  next t rest first =>
  obtain rfl := some.inj run
  have begins : Inv ⟨0, 0, 0, 0, -1, data, bufp, [], [], []⟩ :=
    ⟨rfl, by simp, rfl, by simp [Ended, accepted], by simp⟩
  obtain ⟨u, inv, none, some, rfl⟩ := begins.readFirst rfl first
  have same : { u.move 1 with bufp := (u.move 1).bufp - 1, avail := (u.move 1).avail + 1, out := [] } = u := by
    obtain ⟨_, _, _, avail, _, _, _, _, _, out⟩ := u
    subst none
    simp [Tftp.move, Nat.sub_add_cancel some]
  rw [same]
  exact inv

/-- In every run of reads: the bytes copied and those still in the buffer are the data of the accepted blocks in
order; a read that returns fewer bytes than it was asked for has delivered all of them, up to a short block; each
acknowledgement has the number of the last block accepted before it, and building one leaves the undelivered bytes
alone. -/
theorem tftp_delivers (reach : (machine send).Reach s) :
    s.out ++ s.pending = (accepted 0 s.seen).flatMap payload ∧
      (∀ len net ret s' rest, s.tftpStreamRead send len net = some (ret, s', rest) → ∀ n, ret = .total n → n < len →
        s'.out = (accepted 0 s'.seen).flatMap payload ∧ Ended s'.seen) ∧
      (∀ a ∈ s.acks, a.1 = lastBlock (s.seen.take a.2)) ∧ (s.tftpAck send).1.pending = s.pending := by
  have inv : s.Inv := by
    refine reach.invariant ?_ ?_
    · rintro s ⟨data, bufp, net, run⟩
      exact Inv.opened run
    · intro s s' inv taken
      cases taken with
      | read len net run => exact (inv.readLoop run).1
      | close => exact inv.ack
  refine ⟨inv.bytes, fun len net ret s' rest run n isN less => ?_, fun a mem => (inv.acks a mem).2,
    pending_ack inv.behind⟩
  obtain ⟨inv', ends⟩ := inv.readLoop run
  obtain ⟨none, ended⟩ := ends n isN less
  have bytes := inv'.bytes
  rw [none, append_nil] at bytes
  exact ⟨bytes, ended⟩

/-- A file of three bytes. -/
def threeBytes : Datagram := ⟨[0, 3, 0, 1, 7, 8, 9], by decide, by decide⟩

theorem tftp_delivers_three : ∃ s, tftpStreamOpen (fun _ => true) (fun _ => 0) 0
    [.timeout, .datagram threeBytes] = none ∧
    tftpStreamOpen (fun _ => true) (fun _ => 0) 0 [.datagram threeBytes] = some s ∧ s.out = [] ∧
      s.pending = [7, 8, 9] := by
  obtain ⟨s, run⟩ : ∃ s, tftpStreamOpen (fun _ => true) (fun _ => 0) 0 [.datagram threeBytes] = some s :=
    Option.isSome_iff_exists.mp (by decide +kernel)
  have facts : (tftpStreamOpen (fun _ => true) (fun _ => 0) 0 [.datagram threeBytes]).map (fun s =>
      (s.out, (accepted 0 s.seen).flatMap payload)) = some ([], [7, 8, 9]) := by decide +kernel
  rw [run, Option.map_some, Option.some.injEq] at facts
  obtain ⟨none, all⟩ := Prod.mk.inj facts
  have bytes := (tftp_delivers (.start ⟨_, _, _, run⟩)).1
  rw [none, nil_append, all] at bytes
  exact ⟨s, rfl, run, none, bytes⟩

end Tftp

end Ecos.Redboot
