import Ecos.Lib.Machine
import Ecos.Lib.Window

namespace Ecos.Redboot

/-- What `xyzModem_get_hdr` returns. All but `ok` are negative numbers in the source. -/
inductive Stat
  | ok | timeout | eof | cancel | frame | cksum | sequence
  deriving DecidableEq

/-- What comes over the line: characters, and times without any. -/
abbrev Line := List (Option UInt8)

def soh : UInt8 := 0x01

def stx : UInt8 := 0x02

def eotChar : UInt8 := 0x04

def ackChar : UInt8 := 0x06

def nakChar : UInt8 := 0x15

def canChar : UInt8 := 0x18

def eofChar : UInt8 := 0x1A

def maxRetries : Nat := 20

def canCount : Nat := 3

/-- The state `xyz`, without the counters that are only printed, and beside it what has been sent, the blocks that have
been accepted with their numbers, the bytes that have been copied to the callers, and the arguments of each `memcpy`. -/
structure Xyz where
  pkt : Nat → UInt8
  bufp : Nat
  blk : UInt8
  cblk : UInt8
  crc1 : UInt8
  crc2 : UInt8
  nextBlk : UInt8
  len : Int
  ymodem : Bool
  crcMode : Bool
  atEof : Bool
  txAck : Bool
  fileLength : Nat
  readLength : Nat
  sent : List UInt8
  blocks : List (UInt8 × List UInt8)
  out : List UInt8
  copies : List (Nat × Int)

/-- What the search for a header ends with. -/
inductive Start
  | packet (size : Nat)
  | cancel
  | eof
  | timeout

/-- The first loop of `xyzModem_get_hdr`. `none` means that it still waits. -/
def findHdr (canTotal hdrChars : Nat) : Line → Option (Start × Line)
  | [] => none
  | none :: line => some (.timeout, line)
  | some c :: line =>
    if c = soh then some (.packet 128, line)
    else if c = stx then some (.packet 1024, line)
    else if c = canChar then
      if canTotal + 1 = canCount then some (.cancel, line) else findHdr (canTotal + 1) (hdrChars + 1) line
    else if c = eotChar ∧ hdrChars + 1 = 1 then some (.eof, line)
    else findHdr canTotal (hdrChars + 1) line

/-- `xyzModem_flush`. -/
def flush : Line → Option Line
  | [] => none
  | none :: line => some line
  | some _ :: line => flush line

/-- Up to `n` characters; the flag is set if there was no timeout. -/
def getBytes : Nat → Line → Option (List UInt8 × Bool × Line)
  | 0, line => some ([], true, line)
  | _ + 1, [] => none
  | _ + 1, none :: line => some ([], false, line)
  | n + 1, some c :: line => (getBytes n line).map fun (bytes, whole, line) => (c :: bytes, whole, line)

/-- An entry of the table `crc16_tab`, which the source writes out. -/
def crc16Tab (i : UInt16) : UInt16 :=
  (List.range 8).foldl (fun c _ => if c &&& 0x8000 ≠ 0 then (c <<< 1) ^^^ 0x1021 else c <<< 1) (i <<< 8)

def cygCrc16 (buf : List UInt8) : Nat :=
  (buf.foldl (fun (crc16val : UInt16) c => crc16Tab (((crc16val >>> 8) ^^^ c.toUInt16) &&& 0xFF) ^^^ (crc16val <<< 8)) 0).toNat

def fromHex (c : UInt8) : Option Nat :=
  if 48 ≤ c ∧ c ≤ 57 then some (c.toNat - 48)
  else if 65 ≤ c ∧ c ≤ 70 then some (c.toNat - 55)
  else if 97 ≤ c ∧ c ≤ 102 then some (c.toNat - 87)
  else none

/-- The digits of a number, which end at a null or at a blank. -/
def parseDigits (radix result : Nat) : List UInt8 → Option Nat
  | [] => none
  | c :: s =>
    if c = 0 then some result
    else
      match (fromHex c).filter (· < radix) with
      | some digit => parseDigits radix ((result * radix + digit) % 2 ^ 32) s
      | none => if c = 32 then some result else none

/-- `parse_num`, with a blank as the delimiter. -/
def parseNum (s : List UInt8) : Option Nat :=
  match s.dropWhile (· = 32) with
  | 48 :: 120 :: 0 :: _ => none
  | 48 :: 88 :: 0 :: _ => none
  | 48 :: 120 :: s => parseDigits 16 0 s
  | 48 :: 88 :: s => parseDigits 16 0 s
  | s => parseDigits 10 0 s

namespace Xyz
variable (crc16 : List UInt8 → Nat)

def put (s : Xyz) (c : UInt8) : Xyz := { s with sent := s.sent ++ [c] }

def nak (s : Xyz) : Xyz := s.put (if s.crcMode then 67 else nakChar)

/-- The last part of `xyzModem_get_hdr`, which checks the packet. -/
def validate (s : Xyz) (line : Line) : Option (Stat × Xyz × Line) :=
  let bytes := window s.pkt 0 s.len.toNat
  if s.blk ^^^ s.cblk ≠ 0xFF then (flush line).map fun line => (.frame, s, line)
  else if s.crcMode then
    some (if crc16 bytes % 2 ^ 16 ≠ s.crc1.toNat * 256 + s.crc2.toNat then .cksum else .ok, s, line)
  else some (if s.crc1.toNat ≠ (bytes.map UInt8.toNat).sum % 256 then .cksum else .ok, s, line)

/-- The rest of a packet behind its first character. -/
def getPacket (s : Xyz) (size : Nat) (line : Line) : Option (Stat × Xyz × Line) :=
  (getBytes 2 line).bind fun (num, whole, line) =>
    let s := { s with blk := num.getD 0 s.blk, cblk := num.getD 1 s.cblk }
    if whole = false then some (.timeout, s, line)
    else (getBytes size line).bind fun (bytes, whole, line) =>
      let s := { s with len := size, bufp := 0, pkt := overwrite s.pkt 0 bytes }
      if whole = false then some (.timeout, s, line)
      else (getBytes (if s.crcMode then 2 else 1) line).bind fun (crc, whole, line) =>
        let s := { s with crc1 := crc.getD 0 s.crc1, crc2 := crc.getD 1 s.crc2 }
        if whole = false then some (.timeout, s, line) else s.validate crc16 line

/-- `xyzModem_get_hdr`. -/
def getHdr (s : Xyz) (line : Line) : Option (Stat × Xyz × Line) :=
  let s := if s.txAck then { s.put ackChar with txAck := false } else s
  (findHdr 0 0 line).bind fun (start, line) =>
    match start with
    | .timeout => (flush line).map fun line => (.timeout, s, line)
    | .cancel => some (.cancel, s, line)
    | .eof => some (.eof, s.put ackChar, line)
    | .packet size => s.getPacket crc16 size line

/-- The length without the padding at the end. -/
def unpadded (pkt : Nat → UInt8) : Nat → Nat
  | 0 => 0
  | n + 1 => if pkt n = eofChar then unpadded pkt n else n + 1

/-- A length has been announced. -/
def Known (s : Xyz) : Prop := s.ymodem = true ∧ s.fileLength ≠ 0

instance (s : Xyz) : Decidable s.Known := inferInstanceAs (Decidable (_ ∧ _))

/-- Padding is only removed if there are three characters of it. -/
def unpad (s : Xyz) : Xyz :=
  let n := s.len.toNat
  if s.pkt (s.bufp + (n - 1)) = eofChar ∧ s.pkt (s.bufp + (n - 2)) = eofChar ∧ s.pkt (s.bufp + (n - 3)) = eofChar then
    { s with len := unpadded (fun i => s.pkt (s.bufp + i)) n }
  else s

/-- What is behind the announced length is cut off. -/
def cut (s : Xyz) : Xyz :=
  let readLength := (s.readLength + s.len.toNat) % 2 ^ 32
  { s with
    readLength
    len := if readLength > s.fileLength then (s.len - (readLength - s.fileLength : Nat)).bmod (2 ^ 32) else s.len }

/-- The expected block. -/
def accept (s : Xyz) : Xyz :=
  let s := { s with
    txAck := true
    nextBlk := s.nextBlk + 1
    blocks := s.blocks ++ [(s.blk, window s.pkt s.bufp s.len.toNat)] }
  if s.Known then s.cut else s.unpad

/-- How one round of the retry loop ends. -/
inductive Attempt
  | done (stat : Stat) (s : Xyz) (line : Line)
  | again (stat : Stat) (s : Xyz) (line : Line)

/-- The body of the retry loop. -/
def attempt (s : Xyz) (line : Line) : Option Attempt :=
  (s.getHdr crc16 line).bind fun (stat, s, line) =>
    match stat with
    | .ok =>
      if s.blk = s.nextBlk then some (.done .ok s.accept line)
      else if s.blk = s.nextBlk - 1 then some (.again .ok (s.put ackChar) line)
      else some (.again .sequence s.nak line)
    | .cancel => some (.done .cancel s line)
    | .eof =>
      let s := s.put ackChar
      if s.ymodem then (s.nak.getHdr crc16 line).map fun (stat, s, line) =>
        .done stat { s.put ackChar with atEof := true } line
      else some (.done .eof { s with atEof := true } line)
    | stat => some (.again stat s.nak line)

/-- The retry loop, with the value of `stat` so far. -/
def retry : Nat → Xyz → Stat → Line → Option (Stat × Xyz × Line)
  | 0, s, stat, line => some (stat, s, line)
  | retries + 1, s, _, line =>
    match s.attempt crc16 line with
    | none => none
    | some (.done stat s line) => some (stat, s, line)
    | some (.again stat s line) => retry retries s stat line

/-- `memcpy` to the caller, with the length chosen for it. -/
def copy (s : Xyz) (len : Int) : Xyz :=
  { s with
    len := s.len - len
    bufp := s.bufp + len.toNat
    out := s.out ++ window s.pkt s.bufp len.toNat
    copies := s.copies ++ [(s.bufp, len)] }

/-- How a call of `xyzModem_stream_read` ends: with the number of bytes and a value for `*err`, or in a `memcpy` with
a negative length. -/
inductive Result
  | returned (total : Nat) (err : Option Stat)
  | fault

/-- The body of the loop of `xyzModem_stream_read`: the end of the call, or what is left to be read. -/
def body (s : Xyz) (size total : Nat) (line : Line) : Option ((Result × Xyz × Line) ⊕ (Xyz × Nat × Nat × Line)) :=
  (if s.len = 0 then s.retry crc16 maxRetries .cancel line else some (.ok, s, line)).map fun (stat, s, line) =>
    if stat ≠ .ok then .inl (.returned total (some stat), { s with len := -1 }, line)
    else if s.atEof = true then .inr (s, size, total, line)
    else
      let len := if (size : Int) < s.len then (size : Int) else s.len
      if len < 0 then .inl (.fault, s.copy len, line)
      else .inr (s.copy len, size - len.toNat, total + len.toNat, line)

/-- `xyzModem_stream_read`. -/
def streamRead : Nat → Xyz → Nat → Nat → Line → Option (Result × Xyz × Line)
  | 0, _, _, _, _ => none
  | fuel + 1, s, size, total, line =>
    if s.atEof = true ∨ size = 0 then some (.returned total none, s, line)
    else
      match s.body crc16 size total line with
      | none => none
      | some (.inl r) => some r
      | some (.inr (s, size, total, line)) => streamRead fuel s size total line

/-- Where a string ends that begins in the packet, if it ends there. -/
def skipName (pkt : Nat → UInt8) : Nat → Nat → Option Nat
  | 0, _ => none
  | n + 1, p => if pkt p = 0 then some (p + 1) else skipName pkt n (p + 1)

/-- The loop of `xyzModem_stream_open` that waits for the header of a file. -/
def openLoop (parse : List UInt8 → Option Nat) : Nat → Xyz → Nat → Line → Option (Option Xyz × Line)
  | 0, _, _, line => some (none, line)
  | retries + 1, s, crcRetries, line =>
    match s.getHdr crc16 line with
    | none => none
    | some (.ok, s, line) =>
      if s.blk = 0 then
        (skipName s.pkt 1024 s.bufp).map fun p =>
          (some { s with
            bufp := p
            fileLength := ((parse (window s.pkt p (1024 - p))).getD s.fileLength) % 2 ^ 32
            txAck := true
            nextBlk := 1
            len := 0 }, line)
      else some (some { s with nextBlk := 1, len := 0 }, line)
    | some (.timeout, s, line) =>
      let s := { s with crcMode := if crcRetries ≤ 1 then false else s.crcMode }
      openLoop parse retries s.nak (crcRetries - 1) line
    | some (.cancel, _, line) => some (none, line)
    | some (_, s, line) => openLoop parse retries s crcRetries line

/-- `xyzModem_stream_open`; `s` is what was left from before. -/
def streamOpen (parse : List UInt8 → Option Nat) (s : Xyz) (ymodem : Bool) (line : Line) : Option (Option Xyz × Line) :=
  let s := { s with
    len := 0
    crcMode := true
    atEof := false
    txAck := false
    ymodem
    readLength := 0
    fileLength := 0
    sent := []
    blocks := []
    out := []
    copies := [] }
  let s := s.nak
  if ymodem then openLoop crc16 parse maxRetries s 10 line else some (some { s with nextBlk := 1 }, line)

/-- Calls of `xyzModem_stream_read` after `xyzModem_stream_open`. -/
def machine (parse : List UInt8 → Option Nat) (Ok : Nat → Xyz → Nat → Line → Prop) : Machine Xyz where
  init s := ∃ before ymodem line rest, streamOpen crc16 parse before ymodem line = some (some s, rest)
  step s s' := ∃ fuel size line result rest, Ok fuel s size line ∧
    s.streamRead crc16 fuel size 0 line = some (result, s', rest)

end Xyz

end Ecos.Redboot
