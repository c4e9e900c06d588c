import Ecos.Lib.Machine
import Ecos.Lib.Window

namespace Ecos.Redboot

/-- The types of configuration values, `CONFIG_BOOL` and so on. -/
inductive CfgType
  | bool
  | int
  | string
  | script
  | ip
  | esa
  | netport
  deriving DecidableEq

namespace CfgType

def code : CfgType → UInt8
  | .bool => 1
  | .int => 2
  | .string => 3
  | .script => 4
  | .ip => 5
  | .esa => 6
  | .netport => 7

def ofCode (code : UInt8) : Option CfgType :=
  [bool, int, string, script, ip, esa, netport].find? fun t => t.code = code

end CfgType

/-- The bytes of a string before the one that ends it. -/
structure CString where
  bytes : List UInt8
  plain : 0 ∉ bytes
  deriving DecidableEq

/-- How RedBoot is configured, and what the functions of other files find in a line: `parse_bool`, `parse_num`,
`_gethostbyname` and the parsing of an Ethernet address, `net_devname`, the checksum, and how a value is shown. -/
structure Build where
  maxString : Nat
  maxScript : Nat
  size : Nat
  ports : List CString
  crc : (Nat → UInt8) → List UInt8
  shown : CfgType → List UInt8 → List UInt8
  parseBool : List UInt8 → Option Bool
  parseNum : List UInt8 → Option (BitVec 32)
  hostname : List UInt8 → Option (BitVec 32)
  parseEsa : List UInt8 → Option (List UInt8)
  string_pos : 0 < maxString
  script_pos : 0 < maxScript
  esa_length : ∀ line bytes, parseEsa line = some bytes → bytes.length = 6
  ports_some : ports ≠ []
  ports_fit : ∀ port ∈ ports, port.bytes.length < maxString

/-- An option to be added. `dflt` are the bytes its value is copied from. -/
structure ConfigOption where
  key : CString
  enable : Option CString
  enableSense : Bool
  type : CfgType
  dflt : Nat → UInt8

/-- The configuration in memory: `config_ok` and the bytes from `config_data[0]` on. `key2` and `cksum` come right after
the data. -/
structure Config where
  ok : Bool
  mem : Nat → UInt8

/-- What `flash_get_config` finds: a value of another type, the bytes of a value or a pointer to a string. -/
inductive Got
  | wrongType
  | bytes (value : List UInt8)
  | pointer (p : Nat)
  deriving DecidableEq

/-- What `get_config` returns. -/
inductive CfgRet
  | done
  | abort
  | changed
  | ok
  | back
  | bad
  deriving DecidableEq

/-- What `_rb_gets` returns. -/
inductive Typed
  | abort
  | line (text : CString)

/-- One entry to be edited: its key, what an enabling value that is not there happens to be, the byte before the line
buffer, and what is typed. -/
structure Edit where
  key : CString
  enable : Bool
  before : UInt8
  lines : List Typed

def schar (b : UInt8) : Int := b.toInt8.toInt

/-- `strcmp` finds the string at the place. -/
def strEq (mem : Nat → UInt8) (p : Nat) : List UInt8 → Bool
  | [] => mem p = 0
  | c :: cs => mem p = c && strEq mem (p + 1) cs

/-- The bytes of an `unsigned long`, the lowest first. -/
def longBytes (n : BitVec 32) : List UInt8 :=
  (List.range 4).map fun i => UInt8.ofNat (n.toNat / 256 ^ i)

def configKey2 : BitVec 32 := 0xDEADDEAD

namespace Build
variable (b : Build)

def configLength : CfgType → Nat
  | .bool | .int | .ip => 4
  | .esa => 8
  | .string | .netport => b.maxString
  | .script => b.maxScript

/-- `config_length` of the type byte of an object. -/
def lengthOf (code : UInt8) : Nat := (CfgType.ofCode code).elim 0 b.configLength

/-- The length of the object at `p`, from its signed length bytes. -/
def objectLen (mem : Nat → UInt8) (p : Nat) : Int :=
  4 + schar (mem (p + 1)) + schar (mem (p + 3)) + b.lengthOf (mem p)

def lookupFrom (mem : Nat → UInt8) (key : List UInt8) : Nat → Nat → Option Nat
  | 0, _ => none
  | fuel + 1, p =>
    if p < b.size then
      if strEq mem (p + 4) key then some p
      else if b.objectLen mem p ≤ 0 then none
      else lookupFrom mem key fuel (p + (b.objectLen mem p).toNat)
    else none

/-- `flash_lookup_config`: each round moves forward, so that `size` of them are enough. -/
def flashLookupConfig (c : Config) (key : CString) : Option Nat :=
  if c.ok then b.lookupFrom c.mem key.bytes b.size 0 else none

/-- `flash_write_config` sets the second key and the checksum. -/
def flashWriteConfig (mem : Nat → UInt8) : Nat → UInt8 :=
  let mem := overwrite mem b.size (longBytes configKey2)
  overwrite mem (b.size + 4) (b.crc mem)

end Build

/-- `CONFIG_OBJECT_VALUE`. -/
def objectValue (mem : Nat → UInt8) (p : Nat) : Nat := ((p : Int) + 4 + schar (mem (p + 1)) + schar (mem (p + 3))).toNat

namespace Build
variable (b : Build)

/-- `flash_get_config`; `none` is `false`. -/
def flashGetConfig (c : Config) (key : CString) (type : CfgType) : Option Got :=
  if c.ok then
    (b.flashLookupConfig c key).map fun p =>
      if c.mem p = type.code then
        match type with
        | .bool | .int | .ip => .bytes (window c.mem (objectValue c.mem p) 4)
        | .esa => .bytes (window c.mem (objectValue c.mem p) 6)
        | .netport | .string | .script => .pointer (objectValue c.mem p)
      else .wrongType
  else none

/-- How many bytes `flash_set_config` copies. -/
def setLength : CfgType → Nat
  | .bool | .int | .ip => 4
  | .esa => 6
  | .netport | .string | .script => b.maxString

def flashSetConfig (c : Config) (key : CString) (val : Nat → UInt8) (type : CfgType) : Config × Bool :=
  if c.ok then
    match b.flashLookupConfig c key with
    | some p =>
      if c.mem p = type.code then
        let mem := overwrite c.mem (objectValue c.mem p) (window val 0 (b.setLength type))
        ({ c with mem := b.flashWriteConfig mem }, true)
      else (c, false)
    | none => (c, false)
  else (c, false)

/-- The name of the port whose name is at `dflt`, or of the first one. -/
def portName (dflt : Nat → UInt8) : List UInt8 :=
  match b.ports.find? fun port => strEq dflt 0 port.bytes with
  | some port => port.bytes
  | none => (b.ports.head b.ports_some).bytes

/-- What `flash_config_insert_value` copies. A script has no default. -/
def insertedValue (opt : ConfigOption) : List UInt8 :=
  match opt.type with
  | .bool | .int | .ip => window opt.dflt 0 4
  | .esa => window opt.dflt 0 6
  | .netport => b.portName opt.dflt ++ [0]
  | .string => window opt.dflt 0 b.maxString
  | .script => []

def flashConfigInsertValue (mem : Nat → UInt8) (p : Nat) (opt : ConfigOption) : Nat → UInt8 :=
  overwrite mem p (b.insertedValue opt)

/-- The walk of `flash_add_config` to the first empty object; it does not end where the fuel runs out. -/
def findEmpty (mem : Nat → UInt8) : Nat → Nat → Option (Option Nat)
  | 0, _ => none
  | fuel + 1, p =>
    if p < b.size then
      if mem p = 0 then some (some p)
      else if (p : Int) + b.objectLen mem p < 0 then some none
      else findEmpty mem fuel ((p : Int) + b.objectLen mem p).toNat
    else some none

end Build

/-- `*dp++ += *kp++` for each byte. -/
def addBytes (mem : Nat → UInt8) (p : Nat) (l : List UInt8) : Nat → UInt8 :=
  overwrite mem p (List.zipWith (· + ·) (window mem p l.length) l)

/-- A string added to the bytes that are there, and the byte that ends it. -/
def addString (mem : Nat → UInt8) (p : Nat) (l : List UInt8) : Nat → UInt8 :=
  overwrite (addBytes mem p l) (p + l.length) [0]

namespace ConfigOption

/-- The length of the enable key with its end; none without an enable key. -/
def elen (opt : ConfigOption) : Nat := opt.enable.elim 0 fun enable => enable.bytes.length + 1

def len (opt : ConfigOption) : Nat := opt.key.bytes.length + 1

def header (opt : ConfigOption) : List UInt8 :=
  [opt.type.code, UInt8.ofNat opt.len, if opt.enableSense then 1 else 0, UInt8.ofNat opt.elen]

end ConfigOption

namespace Build
variable (b : Build)

/-- The new object at `p`. -/
def putObject (mem : Nat → UInt8) (p : Nat) (opt : ConfigOption) : Nat → UInt8 :=
  let mem := overwrite mem p opt.header
  let mem := addString mem (p + 4) opt.key.bytes
  let mem := match opt.enable with
    | some enable => addString mem (p + 4 + opt.len) enable.bytes
    | none => mem
  b.flashConfigInsertValue mem (p + 4 + opt.len + opt.elen) opt

def updated (mem : Nat → UInt8) (update : Bool) : Nat → UInt8 := if update then b.flashWriteConfig mem else mem

/-- `flash_add_config`; `none` where its walk does not end. -/
def flashAddConfig (c : Config) (opt : ConfigOption) (update : Bool) : Option (Config × Bool) :=
  match b.flashLookupConfig c opt.key with
  | some p => some ({ c with mem := b.updated (b.flashConfigInsertValue c.mem (objectValue c.mem p) opt) update }, true)
  | none => (b.findEmpty c.mem (b.size + 1) 0).map fun
    | some p =>
      if p + opt.len + 4 + b.configLength opt.type + opt.elen > b.size then (c, false)
      else ({ c with mem := b.updated (b.putObject c.mem p opt) update }, true)
    | none => (c, false)

/-- `config_init`: the options of the table until one does not fit. -/
def initOptions (c : Config) : List ConfigOption → Option Config
  | [] => some { c with ok := true }
  | opt :: rest =>
    (b.flashAddConfig c opt false).bind fun
      | (c, true) => initOptions c rest
      | (c, false) => some c

/-- `config_init` for the bytes of the data, `key2` and `cksum`. -/
def configInit (c : Config) (table : List ConfigOption) : Option Config :=
  b.initOptions { c with mem := overwrite c.mem 0 (List.replicate (b.size + 8) 0) } table

/-- The entry of a key as `do_flash_config` finds it. -/
def findEntry (mem : Nat → UInt8) (key : List UInt8) : Nat → Nat → Option Nat
  | 0, _ => none
  | fuel + 1, p =>
    if p < b.size ∧ mem p ≠ 0 then
      if strEq mem (p + 4) key then some p
      else if (p : Int) + b.objectLen mem p < 0 then none
      else findEntry mem key fuel ((p : Int) + b.objectLen mem p).toNat
    else none

/-- The string at a place. -/
def stringAt (mem : Nat → UInt8) (p : Nat) : List UInt8 := (window mem p b.size).takeWhile (· ≠ 0)

/-- Whether the enable key lets the entry be edited. -/
def enabled (c : Config) (p : Nat) (enable : Bool) : Bool :=
  if c.mem (p + 3) = 0 then true
  else
    let key := b.stringAt c.mem ((p : Int) + 4 + schar (c.mem (p + 1))).toNat
    let enable := match if c.ok then b.lookupFrom c.mem key b.size 0 else none with
      | some q => if c.mem q = CfgType.bool.code then window c.mem (objectValue c.mem q) 4 != [0, 0, 0, 0] else enable
      | none => enable
    (c.mem (p + 2) != 0) == enable

/-- The script loop of `get_config`: `n` bytes have been written. -/
def editScript (start : Nat) : (Nat → UInt8) → Nat → List Typed → (Nat → UInt8) × CfgRet
  | mem, n, .line text :: rest =>
    let mem := overwrite mem (start + n) [0]
    if text.bytes = [] then (mem, .changed)
    else if n + (text.bytes.length + 1) > b.maxScript then (mem, .abort)
    else editScript start (overwrite mem (start + n) (text.bytes ++ [10])) (n + (text.bytes.length + 1)) rest
  | mem, n, _ => (overwrite mem (start + n) [0], .abort)

/-- What a line means for a value of the type: the bytes to be stored. -/
def parseLine (type : CfgType) (line : List UInt8) : Option (List UInt8) :=
  match type with
  | .bool => (b.parseBool line).map fun v => longBytes (if v then 1 else 0)
  | .int => (b.parseNum line).map longBytes
  | .ip => (b.hostname line).map longBytes
  | .esa => b.parseEsa line
  | .netport => if line.length ≥ b.maxString ∨ ∀ port ∈ b.ports, port.bytes ≠ line then none else some (line ++ [0])
  | .string => if line.length ≥ b.maxString then none else some (line ++ [0])
  | .script => none

/-- The text of a value before it is edited. -/
def holdLine (mem : Nat → UInt8) (start : Nat) : Option CfgType → List UInt8
  | none | some .script => []
  | some .string | some .netport => b.stringAt mem start
  | some type => b.shown type (window mem start (b.configLength type))

/-- `get_config` for the entry at `p`. A value that is typed as it is shown is left alone. -/
def getConfig (c : Config) (p : Nat) (edit : Edit) : (Nat → UInt8) × CfgRet :=
  let start := objectValue c.mem p
  let type := CfgType.ofCode (c.mem p)
  if b.enabled c p edit.enable = false then (c.mem, .ok)
  else if type = some .script then b.editScript start c.mem 0 edit.lines
  else match edit.lines with
    | .line text :: _ =>
      let line := text.bytes
      let last := line.getLastD edit.before
      if line = [] ∧ type ≠ some .string then (c.mem, .ok)
      else if line = b.holdLine c.mem start type then (c.mem, .ok)
      else if last = 46 then (c.mem, .done)
      else if last = 94 then (c.mem, .back)
      else match type with
        | none => (c.mem, .changed)
        | some type => match b.parseLine type line with
          | none => (c.mem, .bad)
          | some value =>
            if type ∈ [.bool, .int, .ip] ∧ window c.mem start 4 = value then (c.mem, .ok)
            else (overwrite c.mem start value, .changed)
    | _ => (c.mem, .abort)

/-- The entries that `do_flash_config` offers one after the other, with what `get_config` returns for each; `none` when
one is aborted. -/
def editAll (c : Config) : List Edit → Option (Config × List (Edit × CfgRet))
  | [] => some (c, [])
  | edit :: edits =>
    match b.findEntry c.mem edit.key.bytes (b.size + 1) 0 with
    | none => editAll c edits
    | some p =>
      let (mem, ret) := b.getConfig c p edit
      match ret with
      | .abort => none
      | .done => some ({ c with mem }, [(edit, .done)])
      | ret => (editAll { c with mem } edits).map fun r => (r.1, (edit, ret) :: r.2)

/-- `do_flash_config`: an abort brings back the copy made at the start. -/
def doFlashConfig (c : Config) (edits : List Edit) : Config × List (Edit × CfgRet) :=
  match b.editAll c edits with
  | none => (c, [])
  | some (c, log) => (if log.any fun r => r.2 = .changed then { c with mem := b.flashWriteConfig c.mem } else c, log)

/-- The walk over the objects from `p`: the places of all, if it ends at an empty one or at the end of the area. -/
def walk (mem : Nat → UInt8) : Nat → Nat → Option (List Nat)
  | 0, _ => none
  | fuel + 1, p =>
    if p = b.size ∨ p < b.size ∧ mem p = 0 then some []
    else if p < b.size ∧ 0 < b.objectLen mem p then (walk mem fuel (p + (b.objectLen mem p).toNat)).map (p :: ·)
    else none

end Build

end Ecos.Redboot
