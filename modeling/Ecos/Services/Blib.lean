import Mathlib.Algebra.Group.Nat.Defs
import Mathlib.Logic.Function.Basic

namespace Ecos.Services

inductive Err
  | ENOERR
  | EIO
  | EINVAL
  deriving DecidableEq, Repr

/-- The loop of `get_val_log2`, for so many turns. -/
def shiftOut : Nat → Nat → Nat → Option (Nat × Nat)
  | 0, _, _ => none
  | fuel + 1, i, log2 => if 0 = i &&& 1 then shiftOut fuel (i >>> 1) (log2 + 1) else some (i, log2)

/-- `get_val_log2`. It is `none` while the loop still runs. -/
def getValLog2 (fuel val : Nat) : Option Nat :=
  match shiftOut fuel val 0 with
  | none => none
  | some (i, log2) => if i ≠ 1 then some 0 else some log2

/-- The device below the cache, and how many calls it has served. -/
structure Device where
  bytes : Nat → Nat → UInt8
  calls : Nat

namespace Device
variable (fails : Nat → Bool)

/-- `bread_fn` for one block. Which calls fail is up to the device. -/
def bread (d : Device) (num : Nat) : Option (Nat → UInt8) × Device :=
  (if fails d.calls then none else some (d.bytes num), { d with calls := d.calls + 1 })

/-- `bwrite_fn` for one block. -/
def bwrite (d : Device) (num : Nat) (data : Nat → UInt8) : Err × Device :=
  if fails d.calls then ( Err.EIO, { d with calls := d.calls + 1 })
  else (.ENOERR, ⟨Function.update d.bytes num data, d.calls + 1⟩)

end Device

/-- `cyg_blib_t` with the blocks of its memory pool, which are numbered. The red-black tree is an ordered map. -/
structure Blib where
  list : List Nat
  tree : Nat → Option Nat
  free : List Nat
  num : Nat → Nat
  modified : Nat → Bool
  data : Nat → Nat → UInt8
  blockSize : Nat
  blockSizeLog2 : Nat
  memSize : Nat
  dev : Device

/-- `sizeof(blib_block_t)`. -/
def sizeofBlock : Nat := 32

/-- `block_mem_size`: the header and the data, on a multiple of `CYGARC_ALIGNMENT`. -/
def blockMemSize (blockSize : Nat) : Nat := (sizeofBlock + blockSize + 7) / 8 * 8 % 2 ^ 32

/-- The loop of `init_block_mem_pool`: each new block goes to the head of the free list. -/
def carve (blockMemSize : Nat) : Nat → Nat → Nat → List Nat → List Nat
  | 0, _, _, free => free
  | fuel + 1, avail, block, free =>
    if blockMemSize ≤ avail then carve blockMemSize fuel (avail - blockMemSize) (block + 1) (block :: free) else free

namespace Blib
variable (fails : Nat → Bool)

/-- `blib_sync_block`. -/
def syncBlock (bl : Blib) (block : Nat) : Err × Blib :=
  if bl.modified block then
    match bl.dev.bwrite fails (bl.num block) (bl.data block) with
    | (.ENOERR, dev) => (.ENOERR, { bl with dev := dev, modified := Function.update bl.modified block false })
    | (ret, dev) => (ret, { bl with dev := dev })
  else (.ENOERR, bl)

/-- The loop of `blib_sync`. -/
def syncFrom : List Nat → Blib → Err × Blib
  | [], bl => (.ENOERR, bl)
  | block :: rest, bl =>
    match bl.syncBlock fails block with
    | (.ENOERR, bl) => syncFrom rest bl
    | (ret, bl) => (ret, bl)

/-- `blib_sync`. -/
def sync (bl : Blib) : Err × Blib := syncFrom fails bl.list bl

def rbDelBlock (bl : Blib) (block : Nat) : Blib := { bl with tree := Function.update bl.tree (bl.num block) none }

def rbAddBlock (bl : Blib) (block : Nat) : Blib :=
  { bl with tree := Function.update bl.tree (bl.num block) (some block) }

/-- The rest of `blib_get_block` once it has a block for `num`. -/
def fill (bl : Blib) (num : Nat) (readData : Bool) (block : Nat) : Err × Nat × Blib :=
  let bl := { bl with
    num := Function.update bl.num block num
    modified := Function.update bl.modified block false }
  if readData then
    match bl.dev.bread fails num with
    | (some data, dev) =>
      let bl := { bl with data := Function.update bl.data block data, dev := dev }.rbAddBlock block
      (.ENOERR, block, { bl with list := block :: bl.list })
    | (none, dev) => ( Err.EIO, block, { bl with free := block :: bl.free, dev := dev })
  else
    let bl := bl.rbAddBlock block
    (.ENOERR, block, { bl with list := block :: bl.list })

/-- The lookup in `blib_get_block`: the most recently used block first, then the tree. -/
def lookup (bl : Blib) (num : Nat) : Option Nat :=
  match bl.list with
  | [] => none
  | first :: _ => if bl.num first = num then some first else bl.tree num

/-- `blib_get_block`. It is `none` where the last block of an empty list is used. -/
def getBlock (bl : Blib) (num : Nat) (readData : Bool) : Option (Err × Nat × Blib) :=
  match bl.lookup num with
  | some block => some (.ENOERR, block, { bl with list := block :: bl.list.erase block })
  | none =>
    match bl.free with
    | block :: free => some ({ bl with free := free }.fill fails num readData block)
    | [] =>
      -- nothing checks that the list has a block to take
      match bl.list.getLast? with
      | none => none
      | some block =>
        match bl.syncBlock fails block with
        | (.ENOERR, bl) => some (({ bl with list := bl.list.erase block }.rbDelBlock block).fill fails num readData
          block)
        | (ret, bl) => some (ret, block, bl)

/-- How much of the block is left for `size` bytes from `pos` on. -/
def chunk (bl : Blib) (size pos : Nat) : Nat :=
  if (size + pos) % 2 ^ 32 > bl.blockSize then bl.blockSize - pos else size

/-- The block and the position in it at which `cyg_blib_read` and `cyg_blib_write` begin. -/
def normalise (bl : Blib) (bnum pos : Nat) : Nat × Nat :=
  if pos ≥ bl.blockSize then ((bnum + pos >>> bl.blockSizeLog2) % 2 ^ 32, pos &&& (bl.blockSize - 1)) else (bnum, pos)

/-- The loop of `cyg_blib_read` for so many turns, and the bytes read so far. -/
def readFrom : Nat → Blib → (size bnum pos : Nat) → List UInt8 → Option (Err × List UInt8 × Blib)
  | 0, _, _, _, _, _ => none
  | fuel + 1, bl, size, bnum, pos, buf =>
    if 0 < size then
      let csize := bl.chunk size pos
      match bl.getBlock fails bnum true with
      | none => none
      | some (.ENOERR, block, bl) =>
        readFrom fuel bl (size - csize) ((bnum + 1) % 2 ^ 32) 0
          (buf ++ (List.range csize).map fun i => bl.data block (pos + i))
      | some (ret, _, bl) => some (ret, buf, bl)
    else some (.ENOERR, buf, bl)

/-- `cyg_blib_read`. A length from `2 ^ 31` on is negative and reads nothing. -/
def read (bl : Blib) (len bnum pos : Nat) : Option (Err × List UInt8 × Blib) :=
  readFrom fails (len + 1) bl (if len < 2 ^ 31 then len else 0) (bl.normalise bnum pos).1 (bl.normalise bnum pos).2 []

/-- The `memcpy` of `csize` bytes into a block at `pos`, which modifies it. -/
def patch (bl : Blib) (block pos csize : Nat) (bytes : Nat → UInt8) : Blib :=
  { bl with
    data := Function.update bl.data block fun i => if pos ≤ i ∧ i < pos + csize then bytes
      (i - pos) else bl.data block i
    modified := Function.update bl.modified block true }

/-- The loop of `cyg_blib_write` for so many turns, and how many bytes it has written. -/
def writeFrom (buf : Nat → UInt8) : Nat → Blib → (size bnum pos done : Nat) → Option (Err × Nat × Blib)
  | 0, _, _, _, _, _ => none
  | fuel + 1, bl, size, bnum, pos, done =>
    if 0 < size then
      let csize := bl.chunk size pos
      match bl.getBlock fails bnum (if 0 = pos ∧ csize = bl.blockSize then false else true) with
      | none => none
      | some (.ENOERR, block, bl) =>
        writeFrom buf fuel (bl.patch block pos csize fun i => buf (done + i)) (size - csize) ((bnum + 1) % 2 ^ 32) 0
          (done + csize)
      | some (ret, _, bl) => some (ret, done, bl)
    else some (.ENOERR, done, bl)

/-- `cyg_blib_write`. -/
def write (bl : Blib) (buf : Nat → UInt8) (len bnum pos : Nat) : Option (Err × Nat × Blib) :=
  writeFrom fails buf (len + 1) bl (if len < 2 ^ 31 then len else 0) (bl.normalise bnum pos).1
    (bl.normalise bnum pos).2 0

/-- The loop of `cyg_blib_bread`. -/
def breadFrom : Nat → Blib → (bnum : Nat) → List UInt8 → Option (Err × List UInt8 × Blib)
  | 0, bl, _, buf => some (.ENOERR, buf, bl)
  | size + 1, bl, bnum, buf =>
    match bl.getBlock fails bnum true with
    | none => none
    | some (.ENOERR, block, bl) =>
      breadFrom size bl ((bnum + 1) % 2 ^ 32) (buf ++ (List.range bl.blockSize).map fun i => bl.data block i)
    | some (ret, _, bl) => some (ret, buf, bl)

/-- `cyg_blib_bread`. -/
def bread (bl : Blib) (len pos : Nat) : Option (Err × List UInt8 × Blib) :=
  breadFrom fails (if len < 2 ^ 31 then len else 0) bl pos []

/-- The loop of `cyg_blib_bwrite`, and how many blocks it has written. -/
def bwriteFrom (buf : Nat → UInt8) : Nat → Blib → (bnum done : Nat) → Option (Err × Nat × Blib)
  | 0, bl, _, done => some (.ENOERR, done, bl)
  | size + 1, bl, bnum, done =>
    match bl.getBlock fails bnum false with
    | none => none
    | some (.ENOERR, block, bl) =>
      bwriteFrom buf size (bl.patch block 0 bl.blockSize fun i => buf (done * bl.blockSize + i)) ((bnum + 1) % 2 ^ 32)
        (done + 1)
    | some (ret, _, bl) => some (ret, done, bl)

/-- `cyg_blib_bwrite`. -/
def bwrite (bl : Blib) (buf : Nat → UInt8) (len pos : Nat) : Option (Err × Nat × Blib) :=
  bwriteFrom fails buf (if len < 2 ^ 31 then len else 0) bl pos 0

/-- `cyg_blib_sync_block`. -/
def syncNum (bl : Blib) (num : Nat) : Err × Blib :=
  match bl.tree num with
  | some block => bl.syncBlock fails block
  | none => (.EINVAL, bl)

/-- `blib_init_cache` after the blocks have been written back: `none` while `get_val_log2` runs. -/
def start (fuel : Nat) (bl : Blib) (memSize blockSize : Nat) : Option (Err × Blib) :=
  let bl := { bl with tree := fun _ => none, list := [], memSize := memSize, blockSize := blockSize }
  match getValLog2 fuel blockSize with
  | none => none
  | some log2 =>
    let bl := { bl with blockSizeLog2 := log2 }
    if 0 = log2 then some (.EINVAL, bl)
    else some (.ENOERR, { bl with free := carve (blockMemSize blockSize) memSize memSize 0 [] })

/-- `cyg_blib_create`. -/
def create (fuel : Nat) (bl : Blib) (memSize blockSize : Nat) : Option (Err × Blib) := bl.start fuel memSize blockSize

/-- `cyg_blib_set_block_size`. -/
def setBlockSize (fuel : Nat) (bl : Blib) (blockSize : Nat) : Option (Err × Blib) :=
  match bl.sync fails with
  | (.ENOERR, bl) => bl.start fuel bl.memSize blockSize
  | (ret, bl) => some (ret, bl)

/-- `cyg_blib_flush`. -/
def flush (fuel : Nat) (bl : Blib) : Option (Err × Blib) := bl.setBlockSize fails fuel bl.blockSize

end Blib
end Ecos.Services
