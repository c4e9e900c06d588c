import Ecos.Libc.Stream

namespace Ecos.Libc.Stdio
open List Nat StreamBuffer

/-- The stream that performs each operation at once: the file, the offset of the next byte in it, and a byte that has
been put back. -/
structure Reference where
  file : SeekFile UInt8
  offset : Nat
  ungot : Option UInt8

namespace Reference
variable (r : Reference)

/-- A byte that has been put back moves the position back by one. -/
def position : Nat := r.offset - r.ungot.toList.length

/-- The bytes to come. -/
def rest : List UInt8 := r.ungot.toList ++ r.file.rest r.offset

/-- After `k` bytes have been read. -/
def advance (k : Nat) : Reference := if k = 0 then r else ⟨r.file, r.offset + (k - r.ungot.toList.length), none⟩

def unread (c : UInt8) : Reference :=
  match r.ungot with
  | some _ => r
  | none => { r with ungot := some c }

def write (bytes : List UInt8) : Reference := ⟨r.file.writeAt r.position bytes, r.position + bytes.length, none⟩

def target (pos : Int) : Whence → Int
  | .set => pos
  | .cur => r.position + pos
  | .ending => r.file.size + pos

def seek (pos : Int) (whence : Whence) : Reference := ⟨r.file, (r.target pos whence).toNat, none⟩

/-- An operation that reads is told how many bytes to read. -/
def perform (k : Nat) : Op → List UInt8 × Reference
  | .read _ _ | .readByte => (r.rest.take k, r.advance k)
  | .peek => (r.rest.take k, r)
  | .refill | .flush => ([], r)
  | .unread c => ([], r.unread c)
  | .write bytes => ([], r.write bytes)
  | .seek pos whence => ([], r.seek pos whence)

variable {r} {c : UInt8} {n : Nat}

theorem rest_of_ungot (ungot : r.ungot = some c) : r.rest = c :: r.file.rest r.offset := by
  rw [rest, ungot]
  rfl

theorem rest_of_none (none : r.ungot = none) : r.rest = r.file.rest r.offset := by
  rw [rest, none]
  rfl

theorem advance_of_ungot (ungot : r.ungot = some c) : r.advance (n + 1) = ⟨r.file, r.offset + n, none⟩ := by
  rw [advance, if_neg (succ_ne_zero n), ungot]
  rfl

theorem advance_of_none (none : r.ungot = none) : r.advance n = ⟨r.file, r.offset + n, .none⟩ := by
  unfold advance
  split
  · rename_i still
    subst still
    rw [Nat.add_zero, ← none]
  · rw [none]
    rfl

end Reference

theorem window_grow {f : Nat → UInt8} {p : Nat} {l : List UInt8} :
    window (overwrite f p l) 0 (p + l.length) = window f 0 p ++ l := by
  rw [window_append, Nat.zero_add, window_overwrite]
  congr 1
  exact window_congr fun i _ inside => overwrite_of_lt (by omega)

theorem update_eq_overwrite {f : Nat → UInt8} {p : Nat} {c : UInt8} : Function.update f p c = overwrite f p [c] := by
  funext i
  by_cases same : i = p
  · subst same
    simp [overwrite]
  · rw [Function.update_of_ne same]
    by_cases before : i < p
    · rw [overwrite_of_lt before]
    · rw [overwrite_of_ge (by simp; omega)]

namespace StreamBuffer
variable {b : StreamBuffer} {n : Nat} {bytes : List UInt8}

@[simp] theorem toRead_length : b.toRead.length = b.spaceUsed := window_length

theorem toRead_eq_nil (empty : b.spaceUsed = 0) : b.toRead = [] := by rw [toRead, empty, window_zero]

/-- The positions are inside, and a buffer that has been read to its end begins anew. -/
structure Fits (b : StreamBuffer) : Prop where
  cur : b.cur ≤ b.top
  top : b.top ≤ b.size

theorem toRead_setBytesRead (fits : b.Fits) (within : n ≤ b.spaceUsed) : (b.setBytesRead n).toRead = b.toRead.drop n := by
  have top := fits.top
  unfold spaceUsed at within
  unfold setBytesRead
  split
  · rename_i wraps
    rw [drop_eq_nil_of_le (by simp only [toRead_length, spaceUsed]; omega)]
    rfl
  · have split : b.top - b.cur = n + (b.top - (b.cur + n)) := by omega
    simp only [toRead, spaceUsed]
    rw [split, window_append, drop_left' (by simp)]

theorem fits_setBytesRead (fits : b.Fits) (within : n ≤ b.spaceUsed) : (b.setBytesRead n).Fits := by
  have cur := fits.cur
  have top := fits.top
  unfold spaceUsed at within
  unfold setBytesRead
  split
  · exact ⟨le_refl 0, zero_le _⟩
  · refine ⟨?_, top⟩
    change b.cur + n ≤ b.top
    omega

theorem toRead_put (fits : b.Fits) : (b.put bytes).toRead = b.toRead ++ bytes := by
  have cur := fits.cur
  have split : b.top + bytes.length - b.cur = (b.top - b.cur) + bytes.length := by omega
  have start : b.cur + (b.top - b.cur) = b.top := by omega
  simp only [toRead, spaceUsed, put]
  rw [split, window_append, start, window_overwrite]
  congr 1
  exact window_congr fun i _ inside => overwrite_of_lt (by omega)

theorem fits_put (fits : b.Fits) (within : bytes.length ≤ b.room) : (b.put bytes).Fits := by
  have cur := fits.cur
  have top := fits.top
  unfold room at within
  refine ⟨?_, ?_⟩
  · change b.cur ≤ b.top + bytes.length
    omega
  · change b.top + bytes.length ≤ b.size
    omega

theorem fits_drain : b.drain.Fits := ⟨le_refl 0, zero_le _⟩

end StreamBuffer

namespace Stream
variable (s : Stream)

/-- Output that is still in the buffer. -/
def pending : List UInt8 := if s.lastRead then [] else s.buf.toRead

/-- Input that has been read from the file and not yet from the stream. -/
def ahead : List UInt8 := (if s.lastRead then s.buf.toRead else []) ++ s.readbuf.toList

/-- Where in the file the stream goes on after a byte that has been put back. -/
def next : Nat := s.position + s.unread.toList.length

/-- What the stream stands for. -/
def view : Reference := ⟨s.device.file.writeAt s.device.offset s.pending, s.next, s.unread⟩

/-- The buffer is used with buffering only, `readbuf` without it only, and an empty buffer has room. -/
structure Sane (s : Stream) : Prop where
  fits : s.buf.Fits
  space : s.buffering = true → s.buf.spaceUsed = 0 → 0 < s.buf.room
  direct : s.buffering = false → s.buf.spaceUsed = 0
  buffered : s.buffering = true → s.readbuf = none

/-- The offset of the file, the buffers and the position agree. -/
structure Coherent (s : Stream) : Prop extends s.Sane where
  offset : s.device.offset + s.pending.length = s.next + s.ahead.length
  ahead : s.ahead <+: s.device.file.rest s.next

variable {s}

theorem pending_of_read (reading : s.lastRead = true) : s.pending = [] := if_pos reading

theorem pending_of_write (writing : s.lastRead = false) : s.pending = s.buf.toRead := by
  rw [pending, if_neg (by simp [writing])]

theorem view_of_clean (clean : s.pending = []) : s.view = ⟨s.device.file, s.next, s.unread⟩ := by
  rw [view, clean, SeekFile.writeAt_nil]

theorem Coherent.clean (coherent : s.Coherent) : s.pending = [] ∨ s.ahead = [] := by
  by_cases reading : s.lastRead = true
  · exact .inl (pending_of_read reading)
  · have writing : s.lastRead = false := by simpa using reading
    by_cases buffering : s.buffering = true
    · right
      rw [Stream.ahead, if_neg reading, coherent.buffered buffering]
      rfl
    · left
      rw [pending_of_write writing]
      exact toRead_eq_nil (coherent.direct (by simpa using buffering))

theorem view_position : s.view.position = s.position := by simp [view, Reference.position, next]

theorem Coherent.ahead_view (coherent : s.Coherent) : s.unread.toList ++ s.ahead <+: s.view.rest := by
  rcases coherent.clean with clean | none
  · rw [view_of_clean clean]
    exact (prefix_append_right_inj _).mpr coherent.ahead
  · rw [none, append_nil]
    exact prefix_append _ _

theorem bytesAvailable_eq (coherent : s.Coherent) : s.bytesAvailable = (s.unread.toList ++ s.ahead).length := by
  have back : (if s.unread.isSome then 1 else 0) = s.unread.toList.length := by cases s.unread <;> rfl
  have emergency : (if s.readbuf.isSome then 1 else 0) = s.readbuf.toList.length := by cases s.readbuf <;> rfl
  rw [bytesAvailable, length_append, back, emergency, ahead, length_append]
  split
  · rename_i buffering
    rw [coherent.buffered buffering]
    split
    · simp
    · rfl
  · rename_i direct
    have none : s.buf.toRead = [] := toRead_eq_nil (coherent.direct (by simpa using direct))
    rw [none]
    simp

section Flush

theorem Coherent.flush (coherent : s.Coherent) : s.flush.Coherent ∧ s.flush.view = s.view ∧ s.flush.pending = [] ∧
    s.flush.ahead = s.ahead := by
  unfold Stream.flush
  split
  · rename_i reading
    exact ⟨coherent, rfl, pending_of_read reading, rfl⟩
  · rename_i writes
    have writing : s.lastRead = false := by simpa using writes
    split
    · rename_i empty
      refine ⟨coherent, rfl, ?_, rfl⟩
      rw [pending_of_write writing, toRead_eq_nil empty]
    · rename_i filled
      have pending := pending_of_write writing
      have none : s.ahead = [] := by
        refine coherent.clean.resolve_left fun clean => filled ?_
        rw [← toRead_length, ← pending, clean]
        rfl
      have clean : ({ s with device := s.device.write s.buf.toRead, buf := s.buf.drain } : Stream).pending = [] :=
        pending_of_write writing
      have same : ({ s with device := s.device.write s.buf.toRead, buf := s.buf.drain } : Stream).ahead = s.ahead := by
        rw [Stream.ahead, Stream.ahead, if_neg writes, if_neg writes]
      refine ⟨⟨⟨fits_drain, ?_, fun _ => rfl, coherent.buffered⟩, ?_, ?_⟩, ?_, clean, same⟩
      · intro _ _
        have top := coherent.fits.top
        unfold spaceUsed at filled
        change 0 < s.buf.size - 0
        omega
      · have offset := coherent.offset
        rw [pending] at offset
        rw [clean, same]
        exact offset
      · rw [same, none]
        exact nil_prefix
      · rw [view_of_clean clean, view, pending]
        rfl

theorem flush_keeps : s.flush.position = s.position ∧ s.flush.unread = s.unread ∧ s.flush.readbuf = s.readbuf ∧
    s.flush.lastRead = s.lastRead ∧ s.flush.buffering = s.buffering ∧ s.flush.lineBuffering = s.lineBuffering ∧
    s.flush.buf.size = s.buf.size := by
  unfold Stream.flush
  split
  · exact ⟨rfl, rfl, rfl, rfl, rfl, rfl, rfl⟩
  · split <;> exact ⟨rfl, rfl, rfl, rfl, rfl, rfl, rfl⟩

end Flush

end Stream

end Ecos.Libc.Stdio
