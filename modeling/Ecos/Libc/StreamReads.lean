import Ecos.Libc.StreamWrites

namespace Ecos.Libc.Stdio.Stream
open Function Nat StreamBuffer Stream Reference List
variable {s s' : Stream} {user : Nat → UInt8} {out : List UInt8} {ptr left count len n p : Nat}

/-- `out` has been read. -/
structure Took (s s' : Stream) (out : List UInt8) : Prop where
  coherent : s'.Coherent
  view : s'.view = s.view.advance out.length
  bytes : out = s.view.rest.take out.length
  position : s'.position = s.position + out.length

theorem Took.none (coherent : s.Coherent) : s.Took s [] := ⟨coherent, rfl, rfl, rfl⟩

theorem rest_advance {r : Reference} {m : Nat} : (r.advance m).rest = r.rest.drop m := by
  cases back : r.ungot with
  | none =>
    rw [advance_of_none back, rest_of_none back, SeekFile.rest_drop]
    rfl
  | some c =>
    cases m with
    | zero => rfl
    | succ m =>
      rw [advance_of_ungot back, rest_of_ungot back, drop_succ_cons, SeekFile.rest_drop]
      rfl

theorem advance_advance {r : Reference} {m : Nat} : (r.advance m).advance n = r.advance (m + n) := by
  cases back : r.ungot with
  | none =>
    rw [advance_of_none back, advance_of_none back, advance_of_none rfl, Nat.add_assoc]
  | some c =>
    cases m with
    | zero => rw [Nat.zero_add]; rfl
    | succ m =>
      have sum : m + 1 + n = m + n + 1 := by omega
      rw [advance_of_ungot back, advance_of_none rfl, sum, advance_of_ungot back, Nat.add_assoc]

theorem Took.append {s'' : Stream} {more : List UInt8} (first : s.Took s' out) (second : s'.Took s'' more) :
    s.Took s'' (out ++ more) := by
  refine ⟨second.coherent, ?_, ?_, ?_⟩
  · rw [second.view, first.view, advance_advance, length_append]
  · have rest := second.bytes
    rw [first.view, rest_advance] at rest
    rw [length_append, take_add, ← first.bytes, ← rest]
  · rw [second.position, first.position, length_append, Nat.add_assoc]

theorem Coherent.tookUnread {c : UInt8} (coherent : s.Coherent) (back : s.unread = some c) :
    s.Took { s with unread := none, position := s.position + 1 } [c] := by
  obtain ⟨passed, view⟩ := coherent.passUnread back
  exact ⟨passed, view, (view_ungot back).1.symm, rfl⟩

theorem Coherent.tookBuffered (user : Nat → UInt8) (ptr left count p : Nat) (coherent : s.Coherent)
    (none : s.unread = none) (buffering : s.buffering = true) :
    ∃ s' out, Transfer.takeBuffered ⟨{ s with position := p }, user, ptr, left, count⟩ =
        ⟨{ s' with position := p }, overwrite user ptr out, ptr, left, count + out.length⟩ ∧
      s.Took s' out ∧ out.length = min s.ahead.length left := by
  obtain ⟨flushed, same, clean, ahead⟩ := coherent.flush
  obtain ⟨position, unread, -, -, keeps, -⟩ := flush_keeps (s := s)
  rw [none] at unread
  rw [buffering] at keeps
  have filled := toRead_ahead flushed.toSane keeps clean
  have used : s.flush.buf.spaceUsed = s.ahead.length := by rw [← toRead_length, filled, ahead]
  have moved : ({ s with position := p } : Stream).flush = { s.flush with position := p } := by
    unfold Stream.flush
    split
    · rfl
    · split <;> rfl
  have still : s.Took s.flush [] := ⟨flushed, same, rfl, position⟩
  unfold Transfer.takeBuffered
  rw [flush_unless, moved]
  dsimp only
  rw [used]
  split
  · rename_i zero
    refine ⟨s.flush, [], ?_, still, zero.symm⟩
    rw [overwrite_nil]
    rfl
  · have within : min s.ahead.length left ≤ s.flush.buf.spaceUsed := by omega
    obtain ⟨taken, view⟩ := refines_takeBuffer flushed clean unread keeps within
    have length : (s.flush.buf.toRead.take (min s.ahead.length left)).length = min s.ahead.length left := by
      rw [length_take, toRead_length]
      omega
    refine ⟨{ s.flush with
      buf := s.flush.buf.setBytesRead (min s.ahead.length left)
      position := s.flush.position + min s.ahead.length left }, s.flush.buf.toRead.take (min s.ahead.length left), ?_, ?_, length⟩
    · rw [length]
    · refine ⟨taken, ?_, ?_, ?_⟩
      · rw [length, ← same]
        exact view
      · rw [length, ← same, filled]
        exact (view_ahead flushed unread (by rw [ahead]; omega)).1.symm
      · rw [length, ← position]

theorem Coherent.tookReadbuf {c : UInt8} (coherent : s.Coherent) (none : s.unread = none) (direct : s.buffering = false)
    (held : s.readbuf = some c) : s.Took { s with readbuf := .none, position := s.position + 1 } [c] := by
  obtain ⟨taken, view, first⟩ := refines_takeReadbuf coherent none direct held
  exact ⟨taken, view, first.symm, rfl⟩

theorem Coherent.tookDirect (coherent : s.Coherent) (none : s.unread = none) (direct : s.buffering = false)
    (held : s.readbuf = .none) :
    s.Took { s with device := (s.device.read n).2, position := s.position + (s.device.read n).1.length } (s.device.read n).1 ∧
      (s.device.read n).1.length = min n s.view.rest.length := by
  obtain ⟨clean, ahead⟩ := coherent.toSane.direct_buffers direct
  have empty : s.ahead = [] := by rw [ahead, held]; rfl
  have next : s.next = s.position := by rw [next, none]; rfl
  have offset : s.device.offset = s.next := by
    have balance := coherent.offset
    rwa [clean, empty] at balance
  have rest : s.view.rest = s.device.file.rest s.device.offset := by
    rw [view_of_clean clean, rest_of_none none, offset]
  have length : (s.device.read n).1.length = min n s.view.rest.length := by
    rw [rest, SeekFile.rest_length]
    exact SeekFile.readAt_length
  have bytes : (s.device.read n).1 = s.view.rest.take (s.device.read n).1.length := by
    rw [length, rest, ← take_eq_take_min]
    rfl
  let s' : Stream := { s with
    device := (s.device.read n).2
    position := s.position + (s.device.read n).1.length }
  have sane : s'.Sane := coherent.toSane.congr rfl rfl rfl
  obtain ⟨clean', ahead'⟩ := sane.direct_buffers direct
  have empty' : s'.ahead = [] := ahead'.trans (by change s.readbuf.toList = _; rw [held]; rfl)
  have next' : s'.next = s.next + (s.device.read n).1.length := by
    change s.position + (s.device.read n).1.length + s.unread.toList.length = _
    rw [none, next]
    rfl
  refine ⟨⟨⟨sane, ?_, ?_⟩, ?_, bytes, rfl⟩, length⟩
  · rw [clean', empty', next', ← offset]
    rfl
  · rw [empty']
    exact nil_prefix
  · rw [advance_of_none none, view_of_clean clean']
    change (⟨s.device.file, s'.next, s.unread⟩ : Reference) = ⟨s.view.file, s.next + (s.device.read n).1.length, .none⟩
    rw [next', none, view_of_clean clean]

/-- Without a buffer, a byte that was put back or the byte of `readbuf` is miscounted in a longer read. -/
def SoundRead (s : Stream) (len : Nat) : Prop :=
  s.buffering = true ∨ s.unread = none ∨ len ≤ 1 ∨ len = 2 ∧ s.readbuf = none

/-- How many bytes are read: with a buffer what is at hand, without one what is left of the file, or the byte that was
put back. -/
def readCount (s : Stream) (len : Nat) : Nat :=
  if s.buffering then min len s.bytesAvailable
  else if s.unread = none then min len s.view.rest.length
  else min len 1

theorem read_of_transfer (user' : Nat → UInt8) (ptr' left' : Nat) (took : s.Took s' out)
    (transfer : s.transfer user len = ⟨{ s' with position := s.position }, user', ptr', left', out.length⟩)
    (memory : window user' 0 out.length = out) : s.read user len = (⟨.enoerr, out, 0⟩, s') := by
  unfold read
  rw [transfer]
  dsimp only
  rw [memory, ← took.position]

theorem window_one {c : UInt8} : window (update user 0 c) 0 1 = [c] := by
  have grown := window_grow (f := user) (p := 0) (l := [c])
  rw [update_eq_overwrite]
  exact grown

theorem takeUnread_some {c : UInt8} (back : s.unread = some c) : Transfer.takeUnread ⟨s, user, 0, len + 1, 0⟩ =
    ⟨{ s with unread := none }, update user 0 c, 1, len, 1⟩ := by
  simp only [Transfer.takeUnread, back]
  rfl

theorem takeUnread_none (back : s.unread = none) : Transfer.takeUnread ⟨s, user, 0, len, 0⟩ = ⟨s, user, 0, len, 0⟩ := by
  simp only [Transfer.takeUnread, back]

theorem takeUnread_zero : Transfer.takeUnread ⟨s, user, 0, 0, 0⟩ = ⟨s, user, 0, 0, 0⟩ := by
  unfold Transfer.takeUnread
  split <;> rfl

section
variable (coherent : s.Coherent)
include coherent

theorem read_buffered (buffering : s.buffering = true) :
    ∃ s' out, s.read user len = (⟨.enoerr, out, 0⟩, s') ∧ s.Took s' out ∧ out.length = s.readCount len := by
  have expected : s.readCount len = min len (s.unread.toList.length + s.ahead.length) := by
    rw [readCount, if_pos buffering, bytesAvailable_eq coherent, length_append]
  cases back : s.unread with
  | none =>
    obtain ⟨s', out, step, took, length⟩ :=
      Coherent.tookBuffered user 0 len 0 s.position coherent back buffering
    rw [Nat.zero_add] at step
    refine ⟨s', out, read_of_transfer (overwrite user 0 out) 0 len took ?_ ?_, took, ?_⟩
    · simp only [transfer, takeUnread_none back]
      rw [if_pos buffering]
      exact step
    · have grown := window_grow (f := user) (p := 0) (l := out)
      rwa [Nat.zero_add] at grown
    · rw [expected, back, length, min_comm]
      simp
  | some c =>
    cases len with
    | zero =>
      obtain ⟨flushed, same, -⟩ := coherent.flush
      have position := (flush_keeps (s := s)).1
      have took : s.Took s.flush [] := ⟨flushed, same, rfl, position⟩
      refine ⟨s.flush, [], read_of_transfer user 0 0 took ?_ rfl, took, ?_⟩
      · simp only [transfer, takeUnread_zero, Transfer.takeBuffered, flush_unless, Nat.min_zero, if_true, ← position]
        rw [if_pos buffering]
        rfl
      · rw [expected]
        simp
    | succ len =>
      have first := coherent.tookUnread back
      obtain ⟨s', out, step, took, length⟩ :=
        Coherent.tookBuffered (update user 0 c) 1 len 1 s.position first.coherent rfl buffering
      have total : 1 + out.length = (c :: out).length := Nat.add_comm _ _
      refine ⟨s', c :: out, read_of_transfer (overwrite (update user 0 c) 1 out) 1 len (first.append took) ?_ ?_,
        first.append took, ?_⟩
      · simp only [transfer, takeUnread_some back]
        rw [if_pos buffering, ← total]
        exact step
      · have grown := window_grow (f := update user 0 c) (p := 1) (l := out)
        rw [window_one, total] at grown
        exact grown
      · have same : ({ s with unread := none, position := s.position + 1 } : Stream).ahead = s.ahead := rfl
        rw [expected, back, length_cons, length, same]
        simp only [Option.toList_some, length_singleton]
        omega

theorem read_nothing (direct : s.buffering = false) :
    ∃ s' out, s.read user 0 = (⟨.enoerr, out, 0⟩, s') ∧ s.Took s' out ∧ out.length = s.readCount 0 := by
  have took := Took.none coherent
  have nothing : Transfer.takeReadbuf ⟨s, user, 0, 0, 0⟩ = ⟨s, user, 0, 0, 0⟩ := by
    unfold Transfer.takeReadbuf
    split <;> rfl
  refine ⟨s, [], read_of_transfer user 0 0 took ?_ rfl, took, ?_⟩
  · simp only [transfer, takeUnread_zero]
    rw [if_neg (by simp [direct]), nothing]
    rfl
  · rw [readCount]
    simp

theorem read_file (direct : s.buffering = false) (none : s.unread = none) :
    ∃ s' out, s.read user (len + 1) = (⟨.enoerr, out, 0⟩, s') ∧ s.Took s' out ∧
      out.length = min (len + 1) s.view.rest.length := by
  have unbuffered : ¬ s.buffering = true := by simp [direct]
  cases held : s.readbuf with
  | none =>
    obtain ⟨took, length⟩ := coherent.tookDirect (n := len + 1) none direct held
    refine ⟨_, _, read_of_transfer (overwrite user 0 (s.device.read (len + 1)).1) 0 (len + 1) took ?_ ?_, took, length⟩
    · simp only [transfer, takeUnread_none none]
      rw [if_neg unbuffered]
      simp only [Transfer.takeReadbuf, held, Transfer.takeDirect, Nat.succ_pos, if_true, Nat.sub_zero, Nat.zero_add]
    · have grown := window_grow (f := user) (p := 0) (l := (s.device.read (len + 1)).1)
      rwa [Nat.zero_add] at grown
  | some c =>
    have first := coherent.tookReadbuf none direct held
    let s' : Stream := { s with readbuf := .none, position := s.position + 1 }
    have view : s'.view.rest = s.view.rest.drop 1 := by
      have advanced : s'.view = s.view.advance 1 := first.view
      rw [advanced, rest_advance]
    have one : 1 ≤ s.view.rest.length := by
      have bytes := congrArg List.length first.bytes
      rw [length_take] at bytes
      simp only [length_singleton] at bytes
      omega
    obtain ⟨took, length⟩ := first.coherent.tookDirect (n := len) none direct rfl
    rw [view, length_drop] at length
    have total : 1 + (s.device.read len).1.length = (c :: (s.device.read len).1).length := Nat.add_comm _ _
    refine ⟨_, c :: (s.device.read len).1,
      read_of_transfer (overwrite (update user 0 c) 1 (s.device.read len).1) 0 (len + 1) (first.append took) ?_ ?_,
      first.append took, ?_⟩
    · simp only [transfer, takeUnread_none none]
      rw [if_neg unbuffered, ← total]
      simp only [Transfer.takeReadbuf, held, succ_pos, if_true, Transfer.takeDirect]
      cases len with
      | zero =>
        have nothing : s.device.read 0 = ([], s.device) := by
          rw [Device.read, SeekFile.readAt_zero]
          rfl
        rw [nothing, overwrite_nil]
        rfl
      | succ len => rw [if_pos (by omega)]; rfl
    · have grown := window_grow (f := update user 0 c) (p := 1) (l := (s.device.read len).1)
      rw [window_one, total] at grown
      exact grown
    · rw [length_cons]
      have same : (s.device.read len).1.length = min len (s.view.rest.length - 1) := length
      omega

theorem read_back {c : UInt8} (direct : s.buffering = false) (back : s.unread = some c)
    (short : len = 0 ∨ len = 1 ∧ s.readbuf = none) :
    ∃ s' out, s.read user (len + 1) = (⟨.enoerr, out, 0⟩, s') ∧ s.Took s' out ∧ out.length = 1 := by
  have unbuffered : ¬ s.buffering = true := by simp [direct]
  have first := coherent.tookUnread back
  refine ⟨_, [c], read_of_transfer (update user 0 c) 1 len first ?_ window_one,
    first, rfl⟩
  simp only [transfer, takeUnread_some back]
  rw [if_neg unbuffered]
  rcases short with rfl | ⟨rfl, held⟩
  · cases s.readbuf with
    | none => rfl
    | some d => rfl
  · simp only [Transfer.takeReadbuf, held]
    rfl

theorem read_direct (direct : s.buffering = false) (sound : s.unread = none ∨ len ≤ 1 ∨ len = 2 ∧ s.readbuf = none) :
    ∃ s' out, s.read user len = (⟨.enoerr, out, 0⟩, s') ∧ s.Took s' out ∧ out.length = s.readCount len := by
  have unbuffered : ¬ s.buffering = true := by simp [direct]
  cases len with
  | zero => exact read_nothing coherent direct
  | succ len =>
    cases back : s.unread with
    | none =>
      have expected : s.readCount (len + 1) = min (len + 1) s.view.rest.length := by
        rw [readCount, if_neg unbuffered, if_pos back]
      rw [expected]
      exact read_file coherent direct back
    | some c =>
      have expected : s.readCount (len + 1) = 1 := by
        rw [readCount, if_neg unbuffered, if_neg (by simp [back])]
        omega
      rw [expected]
      refine read_back coherent direct back ?_
      rcases sound with none | short | ⟨two, held⟩
      · rw [back] at none
        exact absurd none (by simp)
      · exact .inl (by omega)
      · exact .inr ⟨by omega, held⟩

theorem refines_read (sound : s.SoundRead len) :
    s.Refines (.read user len) ∧ (s.read user len).1.bytes.length = s.readCount len := by
  have spec : ∃ s' out, s.read user len = (⟨.enoerr, out, 0⟩, s') ∧ s.Took s' out ∧ out.length = s.readCount len := by
    by_cases buffering : s.buffering = true
    · exact read_buffered coherent buffering
    · exact read_direct coherent (by simpa using buffering) (sound.resolve_left buffering)
  obtain ⟨s', out, result, took, length⟩ := spec
  refine ⟨⟨?_, ?_, ?_⟩, ?_⟩
  · simp only [perform, result]
    exact took.coherent
  · simp only [perform, result]
    exact took.bytes
  · simp only [perform, result]
    exact took.view
  · rw [result]
    exact length

end

end Ecos.Libc.Stdio.Stream

namespace Ecos.Libc.Stdio.Stream
variable {s : Stream} {r : Reference} {op : Op}

/-- How many bytes a call hands out. -/
def count (s : Stream) : Op → Nat
  | .read _ len => s.readCount len
  | .readByte | .peek => min 1 s.bytesAvailable
  | _ => 0

theorem count_readByte (coherent : s.Coherent) : s.readByte.1.bytes.length = min 1 s.bytesAvailable := by
  rw [readByte_reply coherent, oneByte_length, bytesAvailable_eq coherent]

theorem count_peek (coherent : s.Coherent) : s.peekByte.1.bytes.length = min 1 s.bytesAvailable := by
  rw [peekByte_eq coherent, oneByte_length, bytesAvailable_eq coherent]

theorem reply_refines (refines : s.Refines op) (silent : ∀ k, (s.view.perform k op).1 = []) :
    (s.perform op).1.bytes.length = 0 := by
  rw [refines.reply, silent]
  rfl

/-- The calls that do to the stream what they do to the reference: a byte is not put back at the start of the file,
nor written over; without a buffer nothing is written; reads and seeks are sound. -/
def Sound (s : Stream) : Op → Prop
  | .read _ len => s.SoundRead len
  | .unread _ => s.unread = none → 0 < s.position
  | .write bytes => s.unread = none ∧ (s.buffering = false → bytes = [])
  | .seek pos whence => s.SoundSeek pos whence
  | _ => True

theorem Coherent.refines (coherent : s.Coherent) (sound : s.Sound op)
    (inside : ∀ pos whence, op = .seek pos whence → 0 ≤ s.view.target pos whence) :
    s.Refines op ∧ (s.perform op).1.bytes.length = s.count op := by
  cases op with
  | read user len => exact refines_read coherent sound
  | readByte => exact ⟨refines_readByte coherent, count_readByte coherent⟩
  | refill => exact ⟨refines_refill coherent, congrArg List.length (refill_spec coherent).silent⟩
  | peek => exact ⟨refines_peek coherent, count_peek coherent⟩
  | unread c =>
    have refines := refines_unread (c := c) coherent sound
    exact ⟨refines, reply_refines refines fun _ => rfl⟩
  | write bytes =>
    have refines := refines_write coherent sound.1 sound.2
    exact ⟨refines, reply_refines refines fun _ => rfl⟩
  | seek pos whence =>
    have refines := refines_seek coherent sound (inside pos whence rfl)
    exact ⟨refines, reply_refines refines fun _ => rfl⟩
  | flush => exact ⟨refines_flush coherent, rfl⟩

theorem Opened.coherent (opened : s.Opened) : s.Coherent := by
  have empty : s.buf.spaceUsed = 0 := by rw [StreamBuffer.spaceUsed, opened.buf.1, opened.buf.2]
  have clean := pending_of_read opened.lastRead
  have ahead : s.ahead = [] := by
    rw [ahead, StreamBuffer.toRead_eq_nil empty, opened.readbuf]
    split <;> rfl
  refine ⟨⟨⟨?_, ?_⟩, fun buffering _ => ?_, fun _ => empty, fun _ => opened.readbuf⟩, ?_, ?_⟩
  · rw [opened.buf.1, opened.buf.2]
  · rw [opened.buf.1]
    exact Nat.zero_le _
  · rw [StreamBuffer.room, opened.buf.1]
    exact opened.size buffering
  · rw [clean, ahead, opened.offset, next, opened.position, opened.unread]
    rfl
  · rw [ahead]
    exact List.nil_prefix

/-- A stream and the reference, on the same file. -/
structure Pair where
  stream : Stream
  reference : Reference

namespace Pair

def Start (p : Pair) : Prop := p.stream.Opened ∧ p.reference = ⟨p.stream.device.file, 0, none⟩

/-- One byte is put back at most, and the device does not seek to before the start of the file. -/
def Succeeds (p : Pair) : Op → Prop
  | .unread _ => p.reference.ungot = none
  | .seek pos whence => 0 ≤ p.reference.target pos whence
  | _ => True

/-- The reference is told how many bytes the stream has handed out. -/
def act (p : Pair) (op : Op) : Pair where
  stream := (p.stream.perform op).2
  reference := (p.reference.perform (p.stream.perform op).1.bytes.length op).2

/-- All runs, and those of sound calls. -/
def system : Machine Pair := .guided Start Succeeds act

def soundSystem : Machine Pair := .guided Start (fun p op => p.Succeeds op ∧ p.stream.Sound op) act

/-- What can be seen of a stream: the position, and the file after a flush. -/
def Agree (p : Pair) : Prop :=
  p.stream.position = p.reference.position ∧ p.stream.flush.device.file = p.reference.file

variable {p : Pair}

theorem Reach.coherent (reach : soundSystem.Reach p) : p.stream.Coherent ∧ p.stream.view = p.reference := by
  refine Machine.Reach.kept (P := fun p => p.stream.Coherent ∧ p.stream.view = p.reference) reach ?_ ?_
  · rintro p ⟨opened, reference⟩
    refine ⟨opened.coherent, ?_⟩
    rw [view_of_clean (pending_of_read opened.lastRead), reference, next, opened.position, opened.unread]
    rfl
  · rintro p op ⟨coherent, view⟩ ⟨succeeds, sound⟩
    have refines := (coherent.refines sound (by rintro pos whence rfl; rw [view]; exact succeeds)).1
    refine ⟨refines.coherent, ?_⟩
    rw [act, ← view]
    exact refines.view

theorem agree_of_view (coherent : p.stream.Coherent) (view : p.stream.view = p.reference) : p.Agree := by
  obtain ⟨-, same, clean, -⟩ := coherent.flush
  refine ⟨?_, ?_⟩
  · rw [← view, view_position]
  · rw [← view, ← same, view_of_clean clean]

/-- In every run of sound calls, in each of the three modes of buffering, a stream is where the reference is, a flush
leaves the file of the reference, each call hands out the bytes that come next, as many as are at hand or, for a long
read without a buffer, as there are; and a refill brings input unless the file has been read to its end. -/
theorem stream_refines (reach : soundSystem.Reach p) :
    p.Agree ∧
      (∀ op, p.Succeeds op → p.stream.Sound op →
        (p.stream.perform op).1.bytes = (p.reference.perform (p.stream.count op) op).1 ∧ (p.act op).Agree) ∧
      (p.stream.refillReadBuffer.1.err = .enoerr → 0 < p.stream.refillReadBuffer.2.bytesAvailable) ∧
      (p.stream.refillReadBuffer.1.err = .eagain → p.reference.rest.length = p.stream.refillReadBuffer.2.bytesAvailable) := by
  obtain ⟨coherent, view⟩ := Reach.coherent reach
  have refill := refill_spec coherent
  refine ⟨agree_of_view coherent view, fun op succeeds sound => ?_, refill.some, fun ended => ?_⟩
  · obtain ⟨refines, count⟩ := coherent.refines sound (by rintro pos whence rfl; rw [view]; exact succeeds)
    have reply := refines.reply
    have after := refines.view
    rw [count, view] at reply
    rw [view] at after
    exact ⟨reply, agree_of_view refines.coherent after⟩
  · rw [← refill.all ended, refill.view, view]

/-- A stream on an empty file, with a buffer of four bytes or without one. -/
def opened (buffering : Bool) : Stream where
  device := ⟨⟨fun _ => 0, 0, fun _ _ => rfl⟩, 0⟩
  buf := ⟨fun _ => 0, 4, 0, 0⟩
  readbuf := none
  unread := none
  atEof := false
  buffering := buffering
  lineBuffering := false
  lastRead := true
  position := 0

def start (buffering : Bool) : Pair := ⟨opened buffering, (opened buffering).view⟩

theorem start_start (buffering : Bool) : (start buffering).Start := by
  refine ⟨⟨rfl, ⟨rfl, rfl⟩, fun _ => ?_, rfl, rfl, rfl, rfl⟩, ?_⟩
  · change 0 < 4
    omega
  · exact view_of_clean (pending_of_read rfl)

/-- Two bytes are written, and the first is read back. -/
def writeRead : List Op := [.write [7, 9], .seek 0 .set, .refill]

theorem writeRead_admitted :
    Machine.Admits (fun p op => p.Succeeds op ∧ p.stream.Sound op) act (start true) writeRead := by
  refine ⟨⟨trivial, rfl, fun direct => absurd direct (by decide)⟩, ⟨?_, ⟨?_, fun _ => rfl⟩⟩, ⟨trivial, trivial⟩, trivial⟩
  · exact Int.le_refl 0
  · exact fun _ => .inl rfl

theorem stream_refines_writeRead : (writeRead.foldl act (start true)).Agree ∧
    ((writeRead.foldl act (start true)).stream.perform .readByte).1.bytes = [7] := by
  have refines := stream_refines (Machine.Reach.run (.start (start_start true)) writeRead_admitted)
  exact ⟨refines.1, rfl⟩

/-- Without a buffer a byte is written, and the position stays where it was. -/
theorem write_keeps_position : ¬ ∀ p, system.Reach p → p.Agree := by
  intro claim
  have agree := claim _ (Machine.Reach.next (.start (start_start false)) ⟨.write [7], trivial, rfl⟩)
  exact absurd agree.1 (by decide)

end Pair

end Ecos.Libc.Stdio.Stream
