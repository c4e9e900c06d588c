import Ecos.Ramfs.File

namespace Ecos.Ramfs

/-- `CYGNUM_RAMFS_BLOCK_SIZE` and the numbers of pointers in a node, with their legal values. -/
structure BlocksConfig where
  blockSize : Nat
  direct : Nat
  indirect1 : Nat
  indirect2 : Nat
  legal : 64 ≤ blockSize ∧ blockSize ≤ 32768 ∧ direct ≤ 32 ∧ indirect1 ≤ 32 ∧ indirect2 ≤ 32

namespace BlocksConfig
variable (cfg : BlocksConfig)

/-- `RAMFS_INDIRECT_PER_BLOCK`; a pointer has four bytes. -/
def indirectPerBlock : Nat := cfg.blockSize / 4

-- `sizeof` makes the extents and the limits behind them unsigned 32-bit numbers.

def indirect1BlockExtent : Nat := cfg.indirectPerBlock * cfg.blockSize % 2 ^ 32

def indirect2BlockExtent : Nat := cfg.indirectPerBlock * cfg.indirectPerBlock * cfg.blockSize % 2 ^ 32

def directMax : Nat := cfg.direct * cfg.blockSize

def indirect1Max : Nat := (cfg.directMax + cfg.indirect1 * cfg.indirect1BlockExtent) % 2 ^ 32

def indirect2Max : Nat := (cfg.indirect1Max + cfg.indirect2 * cfg.indirect2BlockExtent) % 2 ^ 32

end BlocksConfig

/-- What a block holds. A new block is zero, which is no bytes but zeros and no pointers but `NULL`. -/
inductive Block (B : Type)
  | zero
  | bytes (byte : Nat → UInt8)
  | table (entry : Nat → Option B)

namespace Block
variable {B : Type}

def entries : Block B → Option (Nat → Option B)
  | .zero => some fun _ => none
  | .bytes _ => none
  | .table entry => some entry

def data : Block B → Option (Nat → UInt8)
  | .zero => some fun _ => 0
  | .bytes byte => some byte
  | .table _ => none

@[simp] theorem entries_zero : (zero : Block B).entries = some fun _ => none := rfl

@[simp] theorem entries_bytes (byte : Nat → UInt8) : (bytes byte : Block B).entries = none := rfl

@[simp] theorem entries_table (entry : Nat → Option B) : (table entry).entries = some entry := rfl

@[simp] theorem data_zero : (zero : Block B).data = some fun _ => 0 := rfl

@[simp] theorem data_bytes (byte : Nat → UInt8) : (bytes byte : Block B).data = some byte := rfl

@[simp] theorem data_table (entry : Nat → Option B) : (table entry).data = none := rfl

end Block

/-- The arrays of pointers in a node. -/
inductive Root
  | direct | indirect1 | indirect2
  deriving DecidableEq, Repr

/-- An array of pointers, in the node or in a block. -/
inductive Table (B : Type)
  | node (r : Root)
  | block (b : B)

/-- The data of one node without `CYGPKG_FS_RAM_SIMPLE`, all blocks, and those that are free. -/
structure BlocksData (B : Type) where
  root : Root → Nat → Option B
  blocks : B → Block B
  free : List B

namespace BlocksData
variable {B : Type} [DecidableEq B] (cfg : BlocksConfig)

def rootLength : Root → Nat
  | .direct => cfg.direct
  | .indirect1 => cfg.indirect1
  | .indirect2 => cfg.indirect2

def tableLength : Table B → Nat
  | .node r => rootLength cfg r
  | .block _ => cfg.indirectPerBlock

/-- `blocks[i]`; `none` if there is no such pointer. -/
def entry (s : BlocksData B) (t : Table B) (i : Nat) : Option (Option B) :=
  if i < tableLength cfg t then
    match t with
    | .node r => some (s.root r i)
    | .block b => (s.blocks b).entries.map fun entries => entries i
  else none

def setEntry (s : BlocksData B) (t : Table B) (i : Nat) (b : B) : Option (BlocksData B) :=
  match t with
  | .node r => some { s with root := Function.update s.root r (Function.update (s.root r) i (some b)) }
  | .block c => (s.blocks c).entries.map fun entries =>
      { s with blocks := Function.update s.blocks c (.table (Function.update entries i (some b))) }

def blockAlloc (s : BlocksData B) : Option (B × BlocksData B) :=
  match s.free with
  | [] => none
  | b :: free => some (b, { s with free, blocks := Function.update s.blocks b .zero })

/-- A buffer is a block and an offset in it. -/
def findbufferDirect (s : BlocksData B) (pos : Nat) (blocks : Option (Table B)) (nblocks : Nat) (alloc : Bool) :
    Option (BlocksData B × Found (B × Nat)) :=
  let bi := pos / cfg.blockSize
  let bpos := pos % cfg.blockSize
  let size := cfg.blockSize - bpos
  if bi ≥ nblocks then some (s, .buffer none size)
  else
    match blocks.bind fun t => s.entry cfg t bi with
    | none => none
    | some (some b) => some (s, .buffer (some (b, bpos)) size)
    | some none =>
      if alloc then
        match s.blockAlloc with
        | none => some (s, .noSpace)
        | some (b, s) => (blocks.bind fun t => s.setEntry t bi b).map fun s => (s, .buffer (some (b, bpos)) size)
      else some (s, .buffer none size)

def findbufferIndirect1 (s : BlocksData B) (pos : Nat) (blocks : Option (Table B)) (nblocks : Nat) (alloc : Bool) :
    Option (BlocksData B × Found (B × Nat)) :=
  let bi := pos / cfg.indirect1BlockExtent
  let bpos := pos % cfg.indirect1BlockExtent
  match s.findbufferDirect cfg (bi * cfg.blockSize) blocks nblocks alloc with
  | none => none
  | some (s, .noSpace) => some (s, .noSpace)
  | some (s, .buffer _ sz) =>
    if sz = 0 then some (s, .buffer none 0)
    else (blocks.bind fun t => s.entry cfg t bi).bind fun b =>
      s.findbufferDirect cfg bpos (b.map .block) cfg.indirectPerBlock alloc

def findbufferIndirect2 (s : BlocksData B) (pos : Nat) (blocks : Option (Table B)) (nblocks : Nat) (alloc : Bool) :
    Option (BlocksData B × Found (B × Nat)) :=
  let bi := pos / cfg.indirect2BlockExtent
  let bpos := pos % cfg.indirect2BlockExtent
  match s.findbufferDirect cfg (bi * cfg.blockSize) blocks nblocks alloc with
  | none => none
  | some (s, .noSpace) => some (s, .noSpace)
  | some (s, .buffer _ sz) =>
    if sz = 0 then some (s, .buffer none 0)
    else (blocks.bind fun t => s.entry cfg t bi).bind fun b =>
      s.findbufferIndirect1 cfg bpos (b.map .block) cfg.indirectPerBlock alloc

def findbufferNode (s : BlocksData B) (pos : Nat) (alloc : Bool) : Option (BlocksData B × Found (B × Nat)) :=
  if pos < cfg.directMax then s.findbufferDirect cfg pos (some (.node .direct)) cfg.direct alloc
  else if pos < cfg.indirect1Max then
    s.findbufferIndirect1 cfg (pos - cfg.directMax) (some (.node .indirect1)) cfg.indirect1 alloc
  else if pos < cfg.indirect2Max then
    s.findbufferIndirect2 cfg (pos - cfg.indirect1Max) (some (.node .indirect2)) cfg.indirect2 alloc
  else some (s, .noSpace)

def load (s : BlocksData B) (fbuf : B × Nat) (l : Nat) : Option (List UInt8) :=
  if fbuf.2 + l ≤ cfg.blockSize then (s.blocks fbuf.1).data.map fun byte => window byte fbuf.2 l else none

def store (s : BlocksData B) (fbuf : B × Nat) (l : List UInt8) : Option (BlocksData B) :=
  if fbuf.2 + l.length ≤ cfg.blockSize then
    (s.blocks fbuf.1).data.map fun byte =>
      { s with blocks := Function.update s.blocks fbuf.1 (.bytes (overwrite byte fbuf.2 l)) }
  else none

/-- A new node. -/
def empty (blocks : B → Block B) (free : List B) : BlocksData B := ⟨fun _ _ => none, blocks, free⟩

end BlocksData

def blockwise {B : Type} [DecidableEq B] (cfg : BlocksConfig) : Storage (BlocksData B) (B × Nat) where
  findbuffer := BlocksData.findbufferNode cfg
  load := BlocksData.load cfg
  store := BlocksData.store cfg

end Ecos.Ramfs
