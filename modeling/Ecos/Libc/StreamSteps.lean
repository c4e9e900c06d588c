import Ecos.Libc.StreamViews

namespace Ecos.Libc.Stdio.Stream
open List Nat StreamBuffer Stream Reference
variable {s s' : Stream} {op : Op} {n : Nat}

/-- An operation does to the stream what it does to the reference, which is told how many bytes the stream has read. -/
structure Refines (s : Stream) (op : Op) : Prop where
  coherent : (s.perform op).2.Coherent
  reply : (s.perform op).1.bytes = (s.view.perform (s.perform op).1.bytes.length op).1
  view : (s.perform op).2.view = (s.view.perform (s.perform op).1.bytes.length op).2

theorem Sane.congr (sane : s.Sane) (buf : s'.buf = s.buf) (buffering : s'.buffering = s.buffering)
    (readbuf : s'.readbuf = s.readbuf) : s'.Sane := by
  obtain ⟨fits, space, direct, buffered⟩ := sane
  refine ⟨?_, ?_, ?_, ?_⟩
  · rwa [buf]
  · rwa [buf, buffering]
  · rwa [buf, buffering]
  · rwa [buffering, readbuf]

theorem Coherent.congr (coherent : s.Coherent) (sane : s'.Sane) (device : s'.device = s.device)
    (pending : s'.pending = s.pending) (ahead : s'.ahead = s.ahead) (next : s'.next = s.next) : s'.Coherent := by
  refine ⟨sane, ?_, ?_⟩
  · rw [device, pending, ahead, next]
    exact coherent.offset
  · rw [device, ahead, next]
    exact coherent.ahead

theorem Coherent.consume (coherent : s.Coherent) (sane : s'.Sane) (device : s'.device = s.device)
    (pending : s'.pending = s.pending) (within : n ≤ s.ahead.length) (ahead : s'.ahead = s.ahead.drop n)
    (next : s'.next = s.next + n) : s'.Coherent := by
  refine ⟨sane, ?_, ?_⟩
  · rw [device, pending, ahead, next, length_drop, coherent.offset]
    omega
  · rw [device, ahead, next, ← SeekFile.rest_drop]
    obtain ⟨later, split⟩ := coherent.ahead
    exact ⟨later, by rw [← split, drop_append_of_le_length within]⟩

theorem view_congr (device : s'.device = s.device) (pending : s'.pending = s.pending) :
    s'.view = ⟨s.view.file, s'.next, s'.unread⟩ := by
  rw [view, view, device, pending]

theorem flush_unless : (if s.lastRead then s else s.flush) = s.flush := by
  split
  · rename_i reading
    rw [flush, if_pos reading]
  · rfl

theorem toRead_ahead (sane : s.Sane) (buffering : s.buffering = true) (clean : s.pending = []) : s.buf.toRead = s.ahead := by
  rw [ahead, sane.buffered buffering]
  split
  · simp
  · rename_i writes
    have writing : s.lastRead = false := by simpa using writes
    rw [← pending_of_write writing, clean]
    rfl

theorem Sane.size (sane : s.Sane) (buffering : s.buffering = true) : 0 < s.buf.size := by
  by_contra empty
  have top := sane.fits.top
  have room := sane.space buffering (by unfold spaceUsed; omega)
  unfold StreamBuffer.room at room
  omega

theorem Sane.setBytesRead (sane : s.Sane) (within : n ≤ s.buf.spaceUsed) :
    ({ s with buf := s.buf.setBytesRead n } : Stream).Sane := by
  have used : (s.buf.setBytesRead n).spaceUsed = s.buf.spaceUsed - n := by
    have same := congrArg List.length (toRead_setBytesRead sane.fits within)
    simpa using same
  refine ⟨fits_setBytesRead sane.fits within, fun buffering empty => ?_, fun direct => ?_, sane.buffered⟩
  · change (s.buf.setBytesRead n).spaceUsed = 0 at empty
    have size := sane.size buffering
    have cur := sane.fits.cur
    have top := sane.fits.top
    rw [used] at empty
    unfold spaceUsed at empty within
    unfold StreamBuffer.setBytesRead StreamBuffer.room
    split
    · exact size
    · change 0 < s.buf.size - s.buf.top
      omega
  · change (s.buf.setBytesRead n).spaceUsed = 0
    rw [used, sane.direct direct, Nat.zero_sub]

theorem Sane.direct_buffers (sane : s.Sane) (direct : s.buffering = false) :
    s.pending = [] ∧ s.ahead = s.readbuf.toList := by
  have empty : s.buf.toRead = [] := toRead_eq_nil (sane.direct direct)
  refine ⟨?_, ?_⟩
  · rw [pending, empty]
    split <;> rfl
  · rw [ahead, empty]
    split <;> rfl

theorem view_ungot {c : UInt8} (back : s.unread = some c) : s.view.rest.take 1 = [c] ∧
    s.view.advance 1 = ⟨s.view.file, s.position + 1, none⟩ := by
  have next : s.next = s.position + 1 := by rw [next, back]; rfl
  refine ⟨?_, ?_⟩
  · rw [rest_of_ungot back, take_succ_cons, take_zero]
  · rw [advance_of_ungot back, Nat.add_zero, ← next]
    rfl

section
variable (coherent : s.Coherent)
include coherent

theorem view_ahead (none : s.unread = none) (within : n ≤ s.ahead.length) :
    s.view.rest.take n = s.ahead.take n ∧ s.view.advance n = ⟨s.view.file, s.position + n, .none⟩ := by
  have next : s.next = s.position := by rw [next, none]; rfl
  refine ⟨?_, ?_⟩
  · obtain ⟨later, split⟩ := coherent.ahead_view
    rw [none] at split
    rw [← split]
    exact take_append_of_le_length within
  · rw [advance_of_none none, ← next]
    rfl

theorem refines_takeBuffer (clean : s.pending = []) (none : s.unread = none)
    (buffering : s.buffering = true) (within : n ≤ s.buf.spaceUsed) :
    ({ s with buf := s.buf.setBytesRead n, position := s.position + n } : Stream).Coherent ∧
      ({ s with buf := s.buf.setBytesRead n, position := s.position + n } : Stream).view = s.view.advance n := by
  have filled := toRead_ahead coherent.toSane buffering clean
  have length : s.ahead.length = s.buf.spaceUsed := by rw [← filled, toRead_length]
  have left := toRead_setBytesRead coherent.fits within
  let s' : Stream := { s with buf := s.buf.setBytesRead n, position := s.position + n }
  have sane : s'.Sane := (coherent.toSane.setBytesRead within).congr rfl rfl rfl
  have pending : s'.pending = s.pending := by
    rw [clean]
    by_cases reading : s.lastRead = true
    · exact pending_of_read reading
    · have writing : s.lastRead = false := by simpa using reading
      rw [pending_of_write writing] at clean
      rw [pending_of_write (show s'.lastRead = false from writing)]
      exact left.trans (by rw [clean, drop_nil])
  have ahead : s'.ahead = s.ahead.drop n := by
    rw [← toRead_ahead sane buffering (pending.trans clean), ← filled]
    exact left
  have next : s'.next = s.next + n := by
    change s.position + n + s.unread.toList.length = s.position + s.unread.toList.length + n
    omega
  refine ⟨coherent.consume sane rfl pending (by omega) ahead next, ?_⟩
  have view : s'.view = ⟨s.view.file, s'.next, s'.unread⟩ := view_congr rfl pending
  refine view.trans ?_
  rw [(view_ahead coherent none (by omega)).2, next, Stream.next, none]
  rfl

theorem refines_takeReadbuf {c : UInt8} (none : s.unread = none) (direct : s.buffering = false)
    (held : s.readbuf = some c) :
    ({ s with readbuf := .none, position := s.position + 1 } : Stream).Coherent ∧
      ({ s with readbuf := .none, position := s.position + 1 } : Stream).view = s.view.advance 1 ∧
      s.view.rest.take 1 = [c] := by
  obtain ⟨clean, ahead⟩ := coherent.toSane.direct_buffers direct
  have one : s.ahead = [c] := by rw [ahead, held]; rfl
  let s' : Stream := { s with readbuf := .none, position := s.position + 1 }
  have sane : s'.Sane :=
    ⟨coherent.fits, coherent.space, coherent.direct, fun buffering => absurd (direct.symm.trans buffering) (by simp)⟩
  obtain ⟨clean', ahead'⟩ := sane.direct_buffers direct
  have next : s'.next = s.next + 1 := by
    change s.position + 1 + s.unread.toList.length = s.position + s.unread.toList.length + 1
    omega
  obtain ⟨first, after⟩ := view_ahead (n := 1) coherent none (by rw [one]; exact le_refl 1)
  refine ⟨coherent.consume sane rfl (clean'.trans clean.symm) (n := 1) (by rw [one]; exact le_refl 1) ?_ next, ?_, ?_⟩
  · rw [ahead', one]
    rfl
  · have view : s'.view = ⟨s.view.file, s'.next, s'.unread⟩ := view_congr rfl (clean'.trans clean.symm)
    refine view.trans ?_
    rw [after, next, Stream.next, none]
    rfl
  · rw [first, one]
    rfl

theorem refines_readByte : s.Refines .readByte := by
  cases back : s.unread with
  | some c =>
    have result : s.readByte = (⟨.enoerr, [c], 0⟩, { s with unread := none, position := s.position + 1 }) := by
      simp only [readByte, back]
    obtain ⟨first, after⟩ := view_ungot back
    refine ⟨?_, ?_, ?_⟩
    · simp only [perform, result]
      refine coherent.congr (coherent.toSane.congr rfl rfl rfl) rfl rfl rfl ?_
      rw [next, next, back]
      rfl
    · simp only [perform, result]
      exact first.symm
    · simp only [perform, result]
      exact after.symm
  | none =>
    by_cases buffering : s.buffering = true
    · obtain ⟨flushed, same, clean, -⟩ := coherent.flush
      obtain ⟨position, unread, -, -, keeps, -⟩ := flush_keeps (s := s)
      rw [back] at unread
      rw [buffering] at keeps
      have filled := toRead_ahead flushed.toSane keeps clean
      cases content : s.flush.buf.toRead with
      | nil =>
        have result : s.readByte = (⟨.eagain, [], 0⟩, s.flush) := by
          simp only [readByte, back, if_pos buffering, flush_unless, content]
        refine ⟨?_, ?_, ?_⟩
        · simp only [perform, result]
          exact flushed
        · simp only [perform, result]
          rfl
        · simp only [perform, result]
          exact same
      | cons c later =>
        have result : s.readByte = (⟨.enoerr, [c], 0⟩,
            { s.flush with buf := s.flush.buf.setBytesRead 1, position := s.flush.position + 1 }) := by
          simp only [readByte, back, if_pos buffering, flush_unless, content]
        have within : 1 ≤ s.flush.buf.spaceUsed := by
          rw [← toRead_length, content]
          simp
        obtain ⟨taken, after⟩ := refines_takeBuffer flushed clean unread keeps within
        refine ⟨?_, ?_, ?_⟩
        · simp only [perform, result]
          exact taken
        · simp only [perform, result]
          rw [← same]
          refine ((view_ahead flushed unread (n := 1) ?_).1.trans ?_).symm
          · rw [← filled, content]
            simp
          · rw [← filled, content]
            rfl
        · simp only [perform, result]
          rw [← same]
          exact after
    · have direct : s.buffering = false := by simpa using buffering
      cases held : s.readbuf with
      | none =>
        have result : s.readByte = (⟨.eagain, [], 0⟩, s) := by simp only [readByte, back, if_neg buffering, held]
        refine ⟨?_, ?_, ?_⟩
        · simp only [perform, result]
          exact coherent
        · simp only [perform, result]
          rfl
        · simp only [perform, result]
          rfl
      | some c =>
        have result : s.readByte = (⟨.enoerr, [c], 0⟩, { s with readbuf := none, position := s.position + 1 }) := by
          simp only [readByte, back, if_neg buffering, held]
        obtain ⟨taken, after, first⟩ := refines_takeReadbuf coherent back direct held
        refine ⟨?_, ?_, ?_⟩
        · simp only [perform, result]
          exact taken
        · simp only [perform, result]
          exact first.symm
        · simp only [perform, result]
          exact after

end

/-- The reply of a call for one byte. -/
def oneByte : List UInt8 → Reply
  | c :: _ => ⟨.enoerr, [c], 0⟩
  | [] => ⟨.eagain, [], 0⟩

theorem oneByte_length {l : List UInt8} : (oneByte l).bytes.length = min 1 l.length := by
  cases l with
  | nil => rfl
  | cons c l =>
    simp only [oneByte, length_cons, length_nil]
    omega

theorem readByte_reply (coherent : s.Coherent) : s.readByte.1 = oneByte (s.unread.toList ++ s.ahead) := by
  obtain ⟨flushed, -, clean, ahead⟩ := coherent.flush
  have buffering := (flush_keeps (s := s)).2.2.2.2.1
  unfold readByte
  cases s.unread with
  | some c => rfl
  | none =>
    dsimp only
    split
    · rename_i keeps
      rw [flush_unless, toRead_ahead flushed.toSane (buffering.trans keeps) clean, ahead]
      cases s.ahead <;> rfl
    · rename_i direct
      rw [(coherent.toSane.direct_buffers (by simpa using direct)).2]
      cases s.readbuf <;> rfl

theorem Coherent.reader (coherent : s.Coherent) (clean : s.pending = []) :
    ({ s with lastRead := true } : Stream).Coherent ∧ ({ s with lastRead := true } : Stream).view = s.view ∧
      ({ s with lastRead := true } : Stream).ahead = s.ahead := by
  let s' : Stream := { s with lastRead := true }
  have sane : s'.Sane := coherent.toSane.congr rfl rfl rfl
  have clean' : s'.pending = [] := pending_of_read rfl
  have ahead : s'.ahead = s.ahead := by
    by_cases buffering : s.buffering = true
    · rw [← toRead_ahead coherent.toSane buffering clean]
      exact (toRead_ahead sane buffering clean').symm
    · have direct : s.buffering = false := by simpa using buffering
      rw [(coherent.toSane.direct_buffers direct).2]
      exact (sane.direct_buffers direct).2
  exact ⟨coherent.congr sane rfl (clean'.trans clean.symm) ahead rfl, view_congr rfl (clean'.trans clean.symm), ahead⟩

/-- The stream that `peek_byte` and `refill_read_buffer` go on with. -/
def reader (s : Stream) : Stream := { (if s.buffering then s.flush else s) with lastRead := true }

theorem Coherent.readerOf (coherent : s.Coherent) :
    s.reader.Coherent ∧ s.reader.view = s.view ∧ s.reader.ahead = s.ahead := by
  unfold Stream.reader
  split
  · obtain ⟨flushed, same, clean, ahead⟩ := coherent.flush
    obtain ⟨reads, view, still⟩ := flushed.reader clean
    exact ⟨reads, view.trans same, still.trans ahead⟩
  · rename_i direct
    exact coherent.reader (coherent.toSane.direct_buffers (by simpa using direct)).1

theorem reader_keeps : s.reader.unread = s.unread ∧ s.reader.readbuf = s.readbuf ∧ s.reader.buffering = s.buffering ∧
    s.reader.position = s.position := by
  obtain ⟨position, unread, readbuf, -, buffering, -⟩ := flush_keeps (s := s)
  unfold reader
  split
  · exact ⟨unread, readbuf, buffering, position⟩
  · exact ⟨rfl, rfl, rfl, rfl⟩

section
variable (coherent : s.Coherent)
include coherent

theorem peekByte_eq : s.peekByte = (oneByte (s.unread.toList ++ s.ahead), s.reader) := by
  obtain ⟨reads, -, ahead⟩ := coherent.readerOf
  obtain ⟨unread, -, keeps, -⟩ := reader_keeps (s := s)
  have atHand : (if s.reader.buffering = true then s.reader.buf.toRead.head? else s.reader.readbuf) = s.ahead.head? := by
    rw [← ahead]
    split
    · rename_i buffering
      rw [toRead_ahead reads.toSane buffering (pending_of_read rfl)]
    · rename_i direct
      rw [(reads.toSane.direct_buffers (by simpa using direct)).2]
      cases s.reader.readbuf <;> rfl
  rw [peekByte]
  split
  · rename_i c held
    rw [unread.symm.trans held]
    rfl
  · rename_i held
    rw [unread.symm.trans held]
    split
    · rename_i c first
      obtain ⟨rest, isAhead⟩ := head?_eq_some_iff.mp (atHand.symm.trans first)
      rw [isAhead]
      rfl
    · rename_i none
      rw [head?_eq_none_iff.mp (atHand.symm.trans none)]
      rfl

theorem refines_peek : s.Refines .peek := by
  obtain ⟨reads, same, ahead⟩ := coherent.readerOf
  have result := peekByte_eq coherent
  refine ⟨?_, ?_, ?_⟩
  · simp only [perform, result]
    exact reads
  · simp only [perform, result, Reference.perform]
    obtain ⟨later, split⟩ := coherent.ahead_view
    rw [← split]
    cases s.unread.toList ++ s.ahead with
    | nil => rfl
    | cons c l => rfl
  · simp only [perform, result]
    exact same

theorem refines_unread {c : UInt8} (behind : s.unread = none → 0 < s.position) : s.Refines (.unread c) := by
  cases back : s.unread with
  | some d =>
    have result : s.unreadByte c = (⟨.enomem, [], 0⟩, s) := by simp only [unreadByte, back]
    refine ⟨?_, ?_, ?_⟩
    · simp only [perform, result]
      exact coherent
    · simp only [perform, result]
      rfl
    · simp only [perform, result, Reference.perform, Reference.unread]
      rw [show s.view.ungot = some d from back]
  | none =>
    have positive := behind back
    have result : s.unreadByte c =
        (⟨.enoerr, [], 0⟩, { s with unread := some c, atEof := false, position := s.position - 1 }) := by
      simp only [unreadByte, back]
    let s' : Stream := { s with unread := some c, atEof := false, position := s.position - 1 }
    have next : s'.next = s.next := by
      rw [next, next, back]
      change s.position - 1 + 1 = s.position + 0
      omega
    refine ⟨?_, ?_, ?_⟩
    · simp only [perform, result]
      exact coherent.congr (coherent.toSane.congr rfl rfl rfl) rfl rfl rfl next
    · simp only [perform, result]
      rfl
    · simp only [perform, result, Reference.perform, Reference.unread]
      rw [show s.view.ungot = none from back]
      have view : s'.view = ⟨s.view.file, s'.next, s'.unread⟩ := view_congr rfl rfl
      exact view.trans (by rw [next]; rfl)

theorem refines_flush : s.Refines .flush := by
  obtain ⟨flushed, same, -⟩ := coherent.flush
  exact ⟨flushed, rfl, same⟩

theorem Coherent.fetch (sane : s'.Sane) (clean : s.pending = []) (clean' : s'.pending = [])
    (device : s'.device = (s.device.read n).2) (ahead : s'.ahead = s.ahead ++ (s.device.read n).1)
    (next : s'.next = s.next) : s'.Coherent := by
  have offset : s.device.offset = s.next + s.ahead.length := by
    have balance := coherent.offset
    rwa [clean, length_nil, Nat.add_zero] at balance
  refine ⟨sane, ?_, ?_⟩
  · rw [clean', device, ahead, next, length_append]
    change s.device.offset + (s.device.read n).1.length + 0 = _
    omega
  · obtain ⟨later, split⟩ := coherent.ahead
    have rest : s.device.file.rest s.device.offset = later := by
      rw [offset, ← SeekFile.rest_drop, ← split, drop_left' rfl]
    have fetched : (s.device.read n).1 <+: later := by
      rw [← rest]
      exact SeekFile.readAt_prefix
    rw [ahead, next, show s'.device.file = s.device.file by rw [device]; rfl, ← split]
    exact (prefix_append_right_inj _).mpr fetched

end

theorem Sane.put {bytes : List UInt8} (sane : s.Sane) (buffering : s.buffering = true)
    (within : bytes.length ≤ s.buf.room) : ({ s with buf := s.buf.put bytes } : Stream).Sane := by
  have used : (s.buf.put bytes).spaceUsed = s.buf.spaceUsed + bytes.length := by
    have same := congrArg List.length (@toRead_put s.buf bytes sane.fits)
    simpa using same
  refine ⟨fits_put sane.fits within, fun _ empty => ?_, fun direct => ?_, sane.buffered⟩
  · change (s.buf.put bytes).spaceUsed = 0 at empty
    change 0 < s.buf.size - (s.buf.top + bytes.length)
    rw [used] at empty
    have room := sane.space buffering (by omega)
    unfold StreamBuffer.room at room
    omega
  · exact absurd (direct.symm.trans buffering) (by simp)

/-- What `refill_read_buffer` reports: there is input at hand, or the file has been read to its end. -/
structure Refilled (s : Stream) (r : Reply × Stream) : Prop where
  coherent : r.2.Coherent
  silent : r.1.bytes = []
  view : r.2.view = s.view
  some : r.1.err = .enoerr → 0 < r.2.bytesAvailable
  all : r.1.err = .eagain → r.2.view.rest.length = r.2.bytesAvailable

theorem refilled_spec {bytes : List UInt8} (coherent : s'.Coherent) (same : s'.view = s.view)
    (some : bytes ≠ [] → s'.ahead ≠ []) (all : bytes = [] → s'.view.rest.length = (s'.unread.toList ++ s'.ahead).length) :
    s.Refilled (s'.refilled bytes) := by
  unfold refilled
  split
  · rename_i none
    have ended : ({ s' with atEof := true } : Stream).Coherent :=
      coherent.congr (coherent.toSane.congr rfl rfl rfl) rfl rfl rfl rfl
    refine ⟨ended, rfl, same, fun fine => absurd fine (by simp), fun _ => ?_⟩
    rw [bytesAvailable_eq ended]
    exact all none
  · rename_i more
    have going : ({ s' with atEof := false } : Stream).Coherent :=
      coherent.congr (coherent.toSane.congr rfl rfl rfl) rfl rfl rfl rfl
    refine ⟨going, rfl, same, fun _ => ?_, fun ended => absurd ended (by simp)⟩
    rw [bytesAvailable_eq going, length_append]
    have filled : 0 < s'.ahead.length := length_pos_of_ne_nil (some more)
    exact lt_of_lt_of_le filled (le_add_left _ _)

theorem Coherent.exhausted (coherent : s.Coherent) (clean : s.pending = []) (wanted : 0 < n)
    (none : (s.device.read n).1 = []) : s.view.rest = s.unread.toList ++ s.ahead := by
  obtain ⟨later, split⟩ := coherent.ahead
  have offset : s.device.offset = s.next + s.ahead.length := by
    have balance := coherent.offset
    rwa [clean, length_nil, Nat.add_zero] at balance
  have rest : s.device.file.rest s.device.offset = later := by
    rw [offset, ← SeekFile.rest_drop, ← split, drop_left' rfl]
  have nothing : later.take n = [] := by
    rw [← rest]
    exact none
  have empty : later = [] := by
    cases later with
    | nil => rfl
    | cons c later =>
      obtain ⟨m, rfl⟩ := Nat.exists_eq_succ_of_ne_zero (Nat.pos_iff_ne_zero.mp wanted)
      simp at nothing
  rw [view_of_clean clean, Reference.rest]
  rw [← split, empty, append_nil]

theorem refill_buffered (buffering : s.buffering = true) : s.refillReadBuffer =
    if s.reader.buf.room = 0 then (⟨.enoerr, [], 0⟩, s.reader)
    else
      Stream.refilled { s.reader with
        device := (s.reader.device.read s.reader.buf.room).2
        buf := s.reader.buf.put (s.reader.device.read s.reader.buf.room).1 } (s.reader.device.read s.reader.buf.room).1 := by
  simp only [refillReadBuffer, reader, buffering, if_true]

theorem refill_spec (coherent : s.Coherent) : s.Refilled s.refillReadBuffer := by
  obtain ⟨reads, same, -⟩ := coherent.readerOf
  by_cases buffering : s.buffering = true
  · rw [refill_buffered buffering]
    have keeps : s.reader.buffering = true := (reader_keeps (s := s)).2.2.1.trans buffering
    have clean : s.reader.pending = [] := pending_of_read rfl
    split
    · rename_i full
      refine ⟨reads, rfl, same, fun _ => ?_, fun ended => absurd ended (by simp)⟩
      rw [bytesAvailable_eq reads, length_append, ← toRead_ahead reads.toSane keeps clean, toRead_length]
      by_contra empty
      exact absurd (reads.space keeps (by omega)) (by omega)
    · rename_i room
      have within : (s.reader.device.read s.reader.buf.room).1.length ≤ s.reader.buf.room := by
        change (s.reader.device.file.readAt _ _).length ≤ _
        rw [SeekFile.readAt_length]
        exact min_le_left _ _
      let s' : Stream := { s.reader with
        device := (s.reader.device.read s.reader.buf.room).2
        buf := s.reader.buf.put (s.reader.device.read s.reader.buf.room).1 }
      have sane : s'.Sane := (reads.toSane.put keeps within).congr rfl rfl rfl
      have clean' : s'.pending = [] := pending_of_read rfl
      have ahead : s'.ahead = s.reader.ahead ++ (s.reader.device.read s.reader.buf.room).1 := by
        rw [← toRead_ahead sane keeps clean', ← toRead_ahead reads.toSane keeps clean]
        exact toRead_put reads.fits
      have fetched : s'.Coherent := reads.fetch sane clean clean' rfl ahead rfl
      have view : s'.view = s.reader.view := by
        rw [view_of_clean clean, view_of_clean clean']
        rfl
      refine refilled_spec fetched (view.trans same) (fun more none => ?_) fun none => ?_
      · rw [ahead] at none
        exact more (append_eq_nil_iff.mp none).2
      · have all := reads.exhausted clean (Nat.pos_of_ne_zero room) none
        rw [view, all, ahead, none, append_nil]
  · have direct : s.buffering = false := by simpa using buffering
    obtain ⟨clean, ahead⟩ := coherent.toSane.direct_buffers direct
    rw [refillReadBuffer, if_neg buffering]
    split
    · rename_i empty
      dsimp only
      let s' : Stream := { s with device := (s.device.read 1).2, readbuf := (s.device.read 1).1.head? }
      have sane : s'.Sane :=
        ⟨coherent.fits, coherent.space, coherent.direct, fun buffering => absurd (direct.symm.trans buffering) (by simp)⟩
      obtain ⟨clean', ahead'⟩ := sane.direct_buffers direct
      have one : (s.device.read 1).1.head?.toList = (s.device.read 1).1 := by
        have short : (s.device.read 1).1.length ≤ 1 := by
          change (s.device.file.readAt _ _).length ≤ _
          rw [SeekFile.readAt_length]
          exact min_le_left _ _
        match all : (s.device.read 1).1 with
        | [] => rfl
        | [c] => rfl
        | c :: d :: l =>
          rw [all] at short
          simp at short
      have grown : s'.ahead = s.ahead ++ (s.device.read 1).1 := by
        rw [ahead', ahead, empty]
        exact one
      have fetched : s'.Coherent := coherent.fetch sane clean clean' rfl grown rfl
      have view : s'.view = s.view := by
        rw [view_of_clean clean, view_of_clean clean']
        rfl
      refine refilled_spec fetched view (fun more none => ?_) fun none => ?_
      · rw [grown] at none
        exact more (append_eq_nil_iff.mp none).2
      · have all := coherent.exhausted clean Nat.one_pos none
        rw [view, all, grown, none, append_nil]
    · rename_i held
      refine ⟨coherent, rfl, rfl, fun _ => ?_, fun ended => absurd ended (by simp)⟩
      rw [bytesAvailable_eq coherent, ahead, length_append]
      cases one : s.readbuf with
      | none => exact absurd one held
      | some c => exact succ_pos _

theorem refines_refill (coherent : s.Coherent) : s.Refines .refill := by
  have filled := refill_spec coherent
  refine ⟨filled.coherent, ?_, filled.view⟩
  exact filled.silent

end Ecos.Libc.Stdio.Stream
