import Ecos.Ramfs.BlocksFind
import Ecos.Ramfs.Simple

namespace Ecos.Ramfs

/-- Which of the two versions of `findbuffer_node` is configured. -/
inductive Paging
  | simple (cfg : SimpleConfig)
  | blocks (cfg : BlocksConfig)

namespace Paging

/-- What `findbuffer_node` with `alloc` makes of `datasize`; blocks need no such number. -/
def extend : Paging → Nat → Nat → Nat
  | simple cfg, datasize, pos => if pos ≥ datasize ∨ datasize = 0 then pos + cfg.increment else datasize
  | blocks _, datasize, _ => datasize

/-- The size that `findbuffer_node` returns for a position. -/
def room : Paging → Nat → Nat → Nat
  | simple _, datasize, pos => if pos > datasize then 0 else datasize - pos
  | blocks cfg, _, pos => cfg.blockSize - pos % cfg.blockSize

/-- The most that it is sure to return for a new position. -/
def most : Paging → Nat
  | simple cfg => cfg.increment
  | blocks cfg => cfg.blockSize

end Paging

/-- `CYGNUM_RAMFS_DIRENT_SIZE`. An entry has to fit in what `findbuffer_node` allocates. -/
structure DirentConfig where
  paging : Paging
  direntSize : Nat
  legal : 16 ≤ direntSize
  fits : (direntSize + 3) / 4 * 4 ≤ paging.most

namespace DirentConfig

/-- `sizeof(ramfs_dirent)`: the size, padded to a word. -/
def sizeofDirent (cfg : DirentConfig) : Nat := (cfg.direntSize + 3) / 4 * 4

/-- `sizeof(d->name)`: behind a pointer, the bit fields and an offset. -/
def nameSize (cfg : DirentConfig) : Nat := cfg.direntSize - 12

theorem nameSize_pos (cfg : DirentConfig) : 0 < cfg.nameSize := by
  have legal := cfg.legal
  unfold nameSize
  omega

theorem sizeofDirent_pos (cfg : DirentConfig) : 0 < cfg.sizeofDirent := by
  have legal := cfg.legal
  unfold sizeofDirent
  omega

end DirentConfig

/-- `ramfs_dirent`: a fragment of a name. -/
structure Dirent (N : Type) where
  node : Option N
  inuse : Bool
  first : Bool
  last : Bool
  namelen : Nat
  fraglen : Nat
  next : Nat
  name : Nat → UInt8

/-- The data of a directory, with the entry at each position. -/
structure Dir (N : Type) where
  size : Nat
  datasize : Nat
  slot : Nat → Dirent N

namespace Dir
variable {N : Type} (cfg : DirentConfig)

def empty : Dir N := ⟨0, 0, fun _ => ⟨none, false, false, false, 0, 0, 0, fun _ => 0⟩⟩

def room (d : Dir N) (pos : Nat) : Nat := cfg.paging.room d.datasize pos

/-- The loop of `add_direntry` that finds a free fragment. It need not end, so it has fuel. -/
def findFree : Nat → Dir N → Nat → Option (Dir N × Nat)
  | 0, _, _ => none
  | fuel + 1, d, pos =>
    let d := { d with datasize := cfg.paging.extend d.datasize pos }
    if d.room cfg pos < cfg.sizeofDirent ∨ (d.slot pos).inuse = true then findFree fuel d (pos + cfg.sizeofDirent)
    else some (d, pos)

/-- A fragment of `name` put into the entry at `pos`. The field `last` is not written. -/
def fill (d : Dir N) (pos : Nat) (isfirst : Bool) (name : List UInt8) (node : N) : Dir N :=
  let entry := d.slot pos
  let frag := name.take cfg.nameSize
  let entry := { entry with
    node := some node
    inuse := true
    first := isfirst
    namelen := name.length % 256
    fraglen := frag.length % 256
    name := overwrite entry.name 0 frag }
  { d with slot := Function.update d.slot pos entry }

def setNext (d : Dir N) (pos next : Nat) : Dir N :=
  { d with slot := Function.update d.slot pos { d.slot pos with next := next } }

def setLast (d : Dir N) (pos : Nat) : Dir N :=
  { d with slot := Function.update d.slot pos { d.slot pos with last := true } }

/-- The loop of `add_direntry` over the fragments; `dp` is the one before. -/
def addFragments (fuel : Nat) (node : N) : Nat → Dir N → Nat → Option Nat → List UInt8 → Option (Dir N)
  | 0, _, _, _, _ => none
  | n + 1, d, pos, dp, name =>
    (findFree cfg fuel d pos).bind fun (d, pos) =>
      let d := d.fill cfg pos dp.isNone name node
      let d := match dp with
        | none => d
        | some dp => d.setNext dp pos
      let name := name.drop cfg.nameSize
      if name = [] then
        let d := d.setLast pos
        some { d with size := max d.size (pos + cfg.sizeofDirent) }
      else addFragments fuel node n d (pos + cfg.sizeofDirent) (some pos) name

/-- `add_direntry`, as far as the directory goes. An empty name would set `last` through a null pointer. -/
def addDirentry (fuel : Nat) (d : Dir N) (name : List UInt8) (node : N) : Option (Dir N) :=
  if name = [] then none else addFragments cfg fuel node name.length d 0 none name

/-- The loop of `find_direntry` over the fragments of an entry; `frag` is what is left to compare. -/
def compare (d : Dir N) : Nat → Nat → List UInt8 → Option Bool
  | 0, _, _ => none
  | fuel + 1, pos, frag =>
    let entry := d.slot pos
    let fraglen := min frag.length entry.fraglen
    if frag.take fraglen ≠ window entry.name 0 fraglen then some false
    else if entry.last = true then some true
    else compare d fuel entry.next (frag.drop fraglen)

/-- The loop of `find_direntry` over the entries: where the first fragment is. -/
def findFrom (d : Dir N) (name : List UInt8) : Nat → Nat → Option (Option Nat)
  | 0, _ => none
  | fuel + 1, pos =>
    if pos < d.size then
      let entry := d.slot pos
      if d.room cfg pos = 0 then some none
      else if d.room cfg pos < cfg.sizeofDirent ∨ entry.inuse = false ∨ entry.first = false then
        findFrom d name fuel (pos + cfg.sizeofDirent)
      else if entry.namelen = name.length then
        match d.compare fuel pos name with
        | none => none
        | some true => some (some pos)
        | some false => findFrom d name fuel (pos + cfg.sizeofDirent)
      else findFrom d name fuel (pos + cfg.sizeofDirent)
    else some none

def findDirentry (fuel : Nat) (d : Dir N) (name : List UInt8) : Option (Option Nat) := d.findFrom cfg name fuel 0

/-- The loop of `del_direntry`. -/
def clear (d : Dir N) : Nat → Nat → Option (Dir N)
  | 0, _ => none
  | fuel + 1, pos =>
    let entry := d.slot pos
    let d := { d with slot := Function.update d.slot pos { entry with inuse := false } }
    if entry.last = true then some d else clear d fuel entry.next

/-- `del_direntry`, as far as the directory goes: `none` inside is `ENOENT`. -/
def delDirentry (fuel : Nat) (d : Dir N) (name : List UInt8) : Option (Option (Dir N)) :=
  match findDirentry cfg fuel d name with
  | none => none
  | some none => some none
  | some (some pos) => (d.clear fuel pos).map some

/-- `NAME_MAX`, the size of `d_name` less one. -/
def nameMax : Nat := 64

/-- The loop of `ramfs_fo_dirread` that looks for a first fragment: its position, or the end. -/
def nextFirst (d : Dir N) : Nat → Nat → Option (Option Nat)
  | 0, _ => none
  | fuel + 1, pos =>
    if pos < d.size then
      let entry := d.slot pos
      if d.room cfg pos = 0 then none
      else if d.room cfg pos < cfg.sizeofDirent ∨ entry.inuse = false ∨ entry.first = false then
        nextFirst d fuel (pos + cfg.sizeofDirent)
      else some (some pos)
    else if pos = d.size then some none
    else none

/-- The loop of `ramfs_fo_dirread` that copies the name, of which `nlen` bytes still fit. -/
def copyName (d : Dir N) : Nat → Nat → Nat → Option (List UInt8)
  | 0, _, _ => none
  | fuel + 1, pos, nlen =>
    let entry := d.slot pos
    let fraglen := min entry.fraglen nlen
    let bytes := window entry.name 0 fraglen
    if entry.last = true ∨ nlen - fraglen = 0 then some bytes
    else (copyName d fuel entry.next (nlen - fraglen)).map fun more => bytes ++ more

/-- `ramfs_fo_dirread` from an offset: the name and the new offset, or the end. -/
def dirread (fuel : Nat) (d : Dir N) (offset : Nat) : Option (Option (List UInt8 × Nat)) :=
  match d.nextFirst cfg fuel offset with
  | none => none
  | some none => some none
  | some (some pos) => (d.copyName fuel pos nameMax).map fun name => some (name, pos + cfg.sizeofDirent)

/-- The calls of `ramfs_fo_dirread` from an offset until it returns no entry. -/
def readAll (fuel : Nat) (d : Dir N) : Nat → Nat → Option (List (List UInt8))
  | 0, _ => none
  | n + 1, offset =>
    match dirread cfg fuel d offset with
    | none => none
    | some none => some []
    | some (some (name, offset)) => (readAll fuel d n offset).map fun more => name :: more

/-- The free entries that the next `k` fragments from `pos` on would take have `last` clear. -/
def Clean (d : Dir N) : Nat → Nat → Prop
  | 0, _ => True
  | k + 1, pos => ∀ fuel d' p, findFree cfg fuel d pos = some (d', p) →
      (d.slot p).last = false ∧ Clean { d with datasize := d'.datasize } k (p + cfg.sizeofDirent)

/-- None of the fragments of a name but the last one takes an entry that was a last one. -/
def CleanFor (d : Dir N) (name : List UInt8) : Prop := d.Clean cfg ((name.length - 1) / cfg.nameSize) 0

end Dir

/-- A directory and what it should hold. -/
structure Directory (N : Type) where
  dir : Dir N
  map : List (List UInt8 × N)

namespace Directory
variable {N : Type} (cfg : DirentConfig)

/-- Names have 1 to 255 bytes, and only an absent one is added. -/
inductive Step (Only : Dir N → List UInt8 → Prop) : Directory N → Directory N → Prop
  | add {s : Directory N} (d' : Dir N) (fuel : Nat) (name : List UInt8) (node : N) (nonempty : name ≠ [])
      (short : name.length ≤ 255) (absent : name ∉ s.map.map Prod.fst) (only : Only s.dir name)
      (run : s.dir.addDirentry cfg fuel name node = some d') : Step Only s ⟨d', (name, node) :: s.map⟩
  | del {s : Directory N} (d' : Dir N) (fuel : Nat) (name : List UInt8)
      (run : s.dir.delDirentry cfg fuel name = some (some d')) :
      Step Only s ⟨d', s.map.filter fun e => e.1 ≠ name⟩

def machine (Only : Dir N → List UInt8 → Prop) : Machine (Directory N) where
  init s := s = ⟨.empty, []⟩
  step := Step cfg Only

end Directory

end Ecos.Ramfs
