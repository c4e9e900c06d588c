import Mathlib.Data.UInt
import Ecos.Lib.Machine
import Ecos.Lib.SeekFile

namespace Ecos.Libc.Stdio

/-- `SEEK_SET`, `SEEK_CUR` and `SEEK_END`. -/
inductive Whence
  | set | cur | ending
  deriving DecidableEq, Repr

inductive Err
  | enoerr | eagain | einval | enomem
  deriving DecidableEq, Repr

/-- An open file, whose calls succeed and transfer all there is. -/
structure Device where
  file : SeekFile UInt8
  offset : Nat

namespace Device
variable (d : Device)

/-- `cyg_stdio_read`. -/
def read (n : Nat) : List UInt8 × Device :=
  let bytes := d.file.readAt d.offset n
  (bytes, { d with offset := d.offset + bytes.length })

/-- `cyg_stdio_write`. -/
def write (bytes : List UInt8) : Device := ⟨d.file.writeAt d.offset bytes, d.offset + bytes.length⟩

/-- Where a seek leads. -/
def target (pos : Int) : Whence → Int
  | .set => pos
  | .cur => d.offset + pos
  | .ending => d.file.size + pos

/-- `cyg_stdio_lseek`. -/
def lseek (pos : Int) (whence : Whence) : Option Device :=
  if d.target pos whence < 0 then none else some { d with offset := (d.target pos whence).toNat }

end Device

/-- `Cyg_StdioStreamBuffer`. -/
structure StreamBuffer where
  data : Nat → UInt8
  size : Nat
  top : Nat
  cur : Nat

namespace StreamBuffer
variable (b : StreamBuffer)

def spaceUsed : Nat := b.top - b.cur

/-- What `get_buffer_addr_to_read` offers. -/
def toRead : List UInt8 := window b.data b.cur b.spaceUsed

def setBytesRead (n : Nat) : StreamBuffer :=
  if b.cur + n = b.size then { b with cur := 0, top := 0 } else { b with cur := b.cur + n }

/-- How much `get_buffer_addr_to_write` offers. -/
def room : Nat := b.size - b.top

/-- Bytes copied to where `get_buffer_addr_to_write` says, and `set_bytes_written`. -/
def put (bytes : List UInt8) : StreamBuffer :=
  { b with data := overwrite b.data b.top bytes, top := b.top + bytes.length }

def drain : StreamBuffer := { b with top := 0, cur := 0 }

end StreamBuffer

/-- `Cyg_StdioStream`, opened for reading and writing. `readbuf` and `unread` hold the one byte each while it is in use. -/
structure Stream where
  device : Device
  buf : StreamBuffer
  readbuf : Option UInt8
  unread : Option UInt8
  atEof : Bool
  buffering : Bool
  lineBuffering : Bool
  lastRead : Bool
  position : Nat

/-- What a call hands back: the error, the bytes that were read, and how many were taken for writing. -/
structure Reply where
  err : Err
  bytes : List UInt8
  written : Nat
  deriving DecidableEq, Repr

namespace Stream
variable (s : Stream)

/-- `flush_output_unlocked`. -/
def flush : Stream :=
  if s.lastRead then s
  else if s.buf.spaceUsed = 0 then s
  else { s with device := s.device.write s.buf.toRead, buf := s.buf.drain }

/-- The end of `refill_read_buffer`: nothing more means the end of the file. -/
def refilled (bytes : List UInt8) : Reply × Stream :=
  if bytes = [] then (⟨.eagain, [], 0⟩, { s with atEof := true }) else (⟨.enoerr, [], 0⟩, { s with atEof := false })

def refillReadBuffer : Reply × Stream :=
  if s.buffering then
    let s := { s.flush with lastRead := true }
    if s.buf.room = 0 then (⟨.enoerr, [], 0⟩, s)
    else
      let (bytes, device) := s.device.read s.buf.room
      { s with device := device, buf := s.buf.put bytes }.refilled bytes
  else if s.readbuf = none then
    let (bytes, device) := s.device.read 1
    { s with device := device, readbuf := bytes.head? }.refilled bytes
  else (⟨.enoerr, [], 0⟩, s)

end Stream

/-- The variables of `Cyg_StdioStream::read`: the caller's memory, `user_buffer`, `buffer_length` and `*bytes_read`. -/
structure Transfer where
  stream : Stream
  user : Nat → UInt8
  ptr : Nat
  left : Nat
  count : Nat

namespace Transfer
variable (t : Transfer)

/-- The byte that was put back comes first. -/
def takeUnread : Transfer :=
  match t.stream.unread with
  | some c =>
    if 0 < t.left then
      { t with
        stream := { t.stream with unread := none }
        user := Function.update t.user t.ptr c
        ptr := t.ptr + 1
        left := t.left - 1
        count := t.count + 1 }
    else t
  | none => t

/-- From the buffer. -/
def takeBuffered : Transfer :=
  let s := if t.stream.lastRead then t.stream else t.stream.flush
  let count := min s.buf.spaceUsed t.left
  if count = 0 then { t with stream := s }
  else
    { t with
      stream := { s with buf := s.buf.setBytesRead count }
      user := overwrite t.user t.ptr (s.buf.toRead.take count)
      count := t.count + count }

/-- The byte of `readbuf_char`: the count is set to one. -/
def takeReadbuf : Transfer :=
  match t.stream.readbuf with
  | some c =>
    if 0 < t.left then
      { t with stream := { t.stream with readbuf := none }, user := Function.update t.user t.ptr c, count := 1 }
    else t
  | none => t

/-- Without a buffer the rest is read from the file at once. -/
def takeDirect : Transfer :=
  if t.count < t.left then
    let (bytes, device) := t.stream.device.read (t.left - t.count)
    { t with
      stream := { t.stream with device := device }
      user := overwrite t.user (t.ptr + t.count) bytes
      count := t.count + bytes.length }
  else t

end Transfer

namespace Stream
variable (s : Stream)

def transfer (user : Nat → UInt8) (len : Nat) : Transfer :=
  let t := Transfer.takeUnread ⟨s, user, 0, len, 0⟩
  if s.buffering then t.takeBuffered else t.takeReadbuf.takeDirect

def read (user : Nat → UInt8) (len : Nat) : Reply × Stream :=
  let t := s.transfer user len
  (⟨.enoerr, window t.user 0 t.count, 0⟩, { t.stream with position := t.stream.position + t.count })

def readByte : Reply × Stream :=
  match s.unread with
  | some c => (⟨.enoerr, [c], 0⟩, { s with unread := none, position := s.position + 1 })
  | none =>
    if s.buffering then
      let s := if s.lastRead then s else s.flush
      match s.buf.toRead with
      | c :: _ => (⟨.enoerr, [c], 0⟩, { s with buf := s.buf.setBytesRead 1, position := s.position + 1 })
      | [] => (⟨.eagain, [], 0⟩, s)
    else
      match s.readbuf with
      | some c => (⟨.enoerr, [c], 0⟩, { s with readbuf := none, position := s.position + 1 })
      | none => (⟨.eagain, [], 0⟩, s)

def peekByte : Reply × Stream :=
  let s := { (if s.buffering then s.flush else s) with lastRead := true }
  match s.unread with
  | some c => (⟨.enoerr, [c], 0⟩, s)
  | none =>
    match if s.buffering then s.buf.toRead.head? else s.readbuf with
    | some c => (⟨.enoerr, [c], 0⟩, s)
    | none => (⟨.eagain, [], 0⟩, s)

/-- `unread_byte`: at most one byte can be put back. -/
def unreadByte (c : UInt8) : Reply × Stream :=
  match s.unread with
  | some _ => (⟨.enomem, [], 0⟩, s)
  | none => (⟨.enoerr, [], 0⟩, { s with unread := some c, atEof := false, position := s.position - 1 })

/-- `memcpy`, `set_bytes_written` and the new position. -/
def putChunk (chunk : List UInt8) : Stream :=
  { s with buf := s.buf.put chunk, position := s.position + chunk.length }

/-- What one round of the loop of `write` takes, and whether the buffer must be flushed after it: with line buffering
no more than up to the first newline. -/
def chunkOf (bytes : List UInt8) : List UInt8 × Bool :=
  let chunk := bytes.take (min s.buf.room bytes.length)
  let line := chunk.takeWhile (· ≠ 10)
  if s.lineBuffering ∧ line.length ≠ chunk.length then (chunk.take (line.length + 1), true) else (chunk, false)

/-- The loop of `write`; `fuel` bounds its rounds, of which each takes at least one byte. -/
def writeLoop : Nat → Stream → List UInt8 → Bool → Stream × Bool
  | 0, s, _, mustFlush => (s, mustFlush)
  | fuel + 1, s, bytes, mustFlush =>
    if bytes = [] then (s, mustFlush)
    else
      let s := if s.buf.room = 0 ∨ mustFlush then s.flush else s
      let (chunk, line) := s.chunkOf bytes
      writeLoop fuel (s.putChunk chunk) (bytes.drop chunk.length) (mustFlush || line)

/-- In `write`: unread input is given up, and the file goes back to where the reader is. -/
def dropInput : Stream :=
  let s :=
    if s.lastRead ∧ s.buf.spaceUsed ≠ 0 then
      { s with buf := s.buf.drain, device := { s.device with offset := s.position } }
    else s
  { s with lastRead := false }

def write (bytes : List UInt8) : Reply × Stream :=
  let s := s.dropInput
  if s.buffering then
    let (s, mustFlush) := writeLoop bytes.length s bytes false
    (⟨.enoerr, [], bytes.length⟩, if mustFlush then s.flush else s)
  else (⟨.enoerr, [], bytes.length⟩, { s with device := s.device.write bytes })

def bytesAvailable : Nat :=
  (if s.unread.isSome then 1 else 0) +
    if s.buffering then (if s.lastRead then s.buf.spaceUsed else 0) else if s.readbuf.isSome then 1 else 0

/-- The seek inside what is there already. -/
def skip (n : Nat) : Stream :=
  let (n, s) := if 0 < n ∧ s.unread.isSome then (n - 1, { s with unread := none }) else (n, s)
  if 0 < n ∧ s.buffering then { s with buf := s.buf.setBytesRead n }
  else if 0 < n ∧ s.readbuf.isSome then { s with readbuf := none }
  else s

/-- The seek of the file. -/
def seekDevice (pos : Int) (whence : Whence) : Reply × Stream :=
  let s := s.flush
  let s := { s with buf := s.buf.drain, unread := none, atEof := false }
  match s.device.lseek pos whence with
  | some device => (⟨.enoerr, [], 0⟩, { s with device := device, position := device.offset })
  | none => (⟨.einval, [], 0⟩, s)

/-- `posdiff`, for `SEEK_SET` and `SEEK_CUR`. -/
def posdiff (pos : Int) : Whence → Int
  | .cur => pos
  | _ => pos - s.position

/-- The target is among the bytes at hand. -/
def AtHand (pos : Int) (whence : Whence) : Prop :=
  whence ≠ .ending ∧ 0 ≤ s.posdiff pos whence ∧ s.posdiff pos whence < s.bytesAvailable

instance (pos : Int) (whence : Whence) : Decidable (s.AtHand pos whence) := inferInstanceAs (Decidable (_ ∧ _ ∧ _))

def setPosition (pos : Int) (whence : Whence) : Reply × Stream :=
  if s.AtHand pos whence then
    let n := (s.posdiff pos whence).toNat
    (⟨.enoerr, [], 0⟩, { s.skip n with position := s.position + n })
  else if whence = .cur then
    { s with position := s.position + s.bytesAvailable }.seekDevice (pos - s.bytesAvailable) whence
  else s.seekDevice pos whence

end Stream

/-- The calls of a stream. `read` says where the caller's memory stood before. -/
inductive Op
  | read (user : Nat → UInt8) (len : Nat)
  | readByte
  | refill
  | peek
  | unread (c : UInt8)
  | write (bytes : List UInt8)
  | seek (pos : Int) (whence : Whence)
  | flush

namespace Stream

def perform (s : Stream) : Op → Reply × Stream
  | .read user len => s.read user len
  | .readByte => s.readByte
  | .refill => s.refillReadBuffer
  | .peek => s.peekByte
  | .unread c => s.unreadByte c
  | .write bytes => s.write bytes
  | .seek pos whence => s.setPosition pos whence
  | .flush => (⟨.enoerr, [], 0⟩, s.flush)

/-- A stream that has just been opened on a file. -/
structure Opened (s : Stream) : Prop where
  offset : s.device.offset = 0
  buf : s.buf.top = 0 ∧ s.buf.cur = 0
  size : s.buffering = true → 0 < s.buf.size
  readbuf : s.readbuf = none
  unread : s.unread = none
  lastRead : s.lastRead = true
  position : s.position = 0

end Stream

end Ecos.Libc.Stdio
