import Ecos.Lib.Machine
import Mathlib.Data.List.Chain
import Mathlib.Data.ZMod.Defs

namespace Ecos.Shell

/-- `COM_BUF_LEN`; the buffers have one byte more. -/
def comBufLen : ℕ := 256

instance neZeroTen : NeZero 10 := ⟨nofun⟩

/-- The entries of `argv`. -/
def argvLen : ℕ := 10

/-- `strncpy`: the text before the first NUL, padded with NULs up to `n`. -/
def strncpy (n : ℕ) (dst src : List UInt8) : List UInt8 :=
  let text := (src.take n).takeWhile (· ≠ 0)
  text ++ List.replicate (n - text.length) 0 ++ dst.drop n

/-- The string an array holds, if it ends inside the array. -/
def cstring (array : List UInt8) : Option (List UInt8) :=
  if 0 ∈ array then some (array.takeWhile (· ≠ 0)) else none

/-- The locals of `shelltask`: `i` is an unsigned char, `history` the ring of
`build_hist_list` in the order of its `next` pointers. -/
structure State where
  commandBuf : List UInt8
  i : ℕ
  history : Fin 10 → List UInt8
  sh : Fin 10

/-- What Enter did: the name looked up, and the handler called with its arguments. -/
structure Call (κ : Type*) where
  name : List UInt8
  func : Option (κ × List (Option (List UInt8)))
  deriving DecidableEq

/-- The second loop of `count_argc`: `argv` holds the first `argc` entries, as
indices into the buffer. A read or a write out of range gives `none`. -/
def splitArgs : ℕ → List UInt8 → ℕ → List ℕ → Option (List UInt8 × List ℕ)
  | 0, _, _, _ => none
  | fuel + 1, buf, pointer, argv =>
    match buf[pointer]? with
    | none => none
    | some c =>
      if c = 0 then some (buf, argv)
      else if c = 32 then
        if argv.length < argvLen then
          splitArgs fuel (if 0 < argv.length then buf.set pointer 0 else buf) ((pointer + 1) % 256)
            (argv ++ [(pointer + 1) % 256])
        else none
      else splitArgs fuel buf ((pointer + 1) % 256) argv

/-- The first loop of `count_argc`. -/
def commandName (buf : List UInt8) : List UInt8 := (buf.take 20).takeWhile fun c => c ≠ 32 ∧ c ≠ 0

variable {κ : Type*} (tab : List (List UInt8 × κ))

/-- The search of the command table. -/
def findCmd (name : List UInt8) : Option κ := (tab.find? fun cmd => cmd.1 = name).map Prod.snd

/-- `count_argc` and the call of the handler, which sees the words in `buf`. -/
def countArgc (buf : List UInt8) : Option (List UInt8 × Call κ) :=
  let name := commandName buf
  match findCmd tab name with
  | none => some (buf, ⟨name, none⟩)
  | some func => (splitArgs 256 buf name.length []).map fun (after, argv) =>
      (after, ⟨name, some (func, argv.map fun pointer => cstring (after.drop pointer))⟩)

def isprint (ch : UInt8) : Prop := 0x20 ≤ ch ∧ ch ≤ 0x7E
  deriving Decidable

/-- The keys that go into the line; Ctrl-F is let through with the printing ones. -/
def Typed (ch : UInt8) : Prop := isprint ch ∨ ch = 0x06
  deriving Decidable

namespace State
variable (s : State)

/-- Stores a character and steps the position, an unsigned char. -/
def put (ch : UInt8) : State := { s with commandBuf := s.commandBuf.set s.i ch, i := (s.i + 1) % 256 }

/-- Ctrl-P and Ctrl-N: the line becomes the entry's. -/
def recallEntry (sh : Fin 10) : Option State :=
  let buf := strncpy comBufLen s.commandBuf (s.history sh)
  (cstring buf).map fun text => { s with commandBuf := buf, i := text.length % 256, sh := sh }

/-- CR and LF. -/
def enter : Option (State × Option (Call κ)) :=
  if s.i = 0 then some (s, none)
  else
    let i := if s.commandBuf[s.i - 1]? = some 32 then s.i - 1 else s.i
    let buf := s.commandBuf.set i 0
    (countArgc tab buf).map fun (after, call) =>
      ({ commandBuf := after.set 0 0, i := 0, sh := s.sh + 1,
         history := Function.update s.history s.sh (strncpy comBufLen (s.history s.sh) buf) }, some call)

/-- One turn of the loop of `shelltask`; other keys than those listed are read over. -/
def key (ch : UInt8) : Option (State × Option (Call κ)) :=
  match ch with
  | 0x01 => some (s, none)
  | 0x10 => (s.recallEntry (s.sh - 1)).map (·, none)
  | 0x0E => (s.recallEntry (s.sh + 1)).map (·, none)
  | 0x02 => some ({ s with i := s.i - 1 }, none)
  | 0x0A | 0x0D => s.enter tab
  | 0x15 => some ({ s with i := 0 }, none)
  | 0x7F | 0x08 => some ({ s with i := s.i - 1 }, none)
  | 0x20 => some (if s.i = 0 ∨ comBufLen < s.i ∨ s.commandBuf[s.i - 1]? = some 32 then s else s.put ch, none)
  | _ => some (if Typed ch ∧ s.i < comBufLen then s.put ch else s, none)

/-- A whole run of keys, `none` where an index goes out of range. -/
def keys (s : State) (chs : List UInt8) : Option State := chs.foldlM (fun s ch => (s.key tab ch).map Prod.fst) s

/-- The line as typed so far, up to the position. -/
def line : List UInt8 := s.commandBuf.take s.i

/-- The line Enter runs: a space at its end is dropped. -/
def entered : List UInt8 := if s.line.getLast? = some 32 then s.line.dropLast else s.line

def words : List (List UInt8) := s.entered.splitOn 32

/-- The first word of the line. -/
def command : List UInt8 := s.words.headD []

/-- The buffer is not set up beyond its first byte. -/
structure Init : Prop where
  buffer : s.commandBuf.length = comBufLen + 1
  start : s.i = 0
  history : ∀ k, s.history k = List.replicate (comBufLen + 1) 0

end State

def Enter (ch : UInt8) : Prop := ch = 0x0A ∨ ch = 0x0D
  deriving Decidable

/-- The keys that stay clear of the overruns. -/
structure Fine (s : State) (ch : UInt8) : Prop where
  /-- the 256th character is refused only where it is a second space -/
  room : Typed ch → s.i = 255 → ch = 32 ∧ s.line.getLast? = some 32
  /-- the name fits its buffer -/
  name : Enter ch → s.i ≠ 0 → s.command.length ≤ 20
  /-- the arguments of a command fit `argv` -/
  args : Enter ch → s.i ≠ 0 → (findCmd tab s.command).isSome → s.words.tail.length ≤ argvLen

/-- What the key is to do. -/
structure Right (s : State) (ch : UInt8) (s' : State) (out : Option (Call κ)) : Prop where
  typed : Typed ch → s'.line = s.line ++ [ch] ∨ s'.line = s.line
  runs : Enter ch → s.line ≠ [] → [] ∉ s.words ∧
    out = some ⟨s.command, (findCmd tab s.command).map fun func => (func, s.words.tail.map some)⟩

end Ecos.Shell
