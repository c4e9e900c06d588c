import Mathlib.Data.Nat.ModEq
import Mathlib.Tactic.Linarith
import Ecos.Lib.Tiling
import Ecos.Lib.Window

namespace Ecos.Flash

/-- The blocks of one size from an address on, each with its first address and its size. -/
def run (size : Nat) : Nat → Nat → List (Nat × Nat)
  | 0, _ => []
  | blocks + 1, at' => (at', size) :: run size blocks (at' + size)

/-- The blocks that `block_info` describes. -/
def blocksOf : Nat → List (Nat × Nat) → List (Nat × Nat)
  | _, [] => []
  | at', (size, blocks) :: rest => run size blocks at' ++ blocksOf (at' + blocks * size) rest

/-- The number of bytes that `block_info` describes. -/
def totalOf (blockInfo : List (Nat × Nat)) : Nat := (blockInfo.map fun r => r.2 * r.1).sum

/-- `struct cyg_flash_dev`. The pairs in `blockInfo` are the size and the number of blocks; `indirect` says that
  there is a
function `flash_read`. A device does not fill the address space. -/
structure Dev where
  start : Nat
  last : Nat
  blockInfo : List (Nat × Nat)
  indirect : Bool
  sizes : ∀ r ∈ blockInfo, 0 < r.1
  sized : last + 1 = start + totalOf blockInfo
  proper : start ≤ last
  top : last < 2 ^ 32
  part : last + 1 - start < 2 ^ 32

inductive Stat
  | ok
  | invalid
  deriving DecidableEq

/-- The contents at each address. -/
abbrev Mem := Nat → UInt8

/-- Subtraction of addresses. -/
def sub32 (a b : Nat) : Nat := (a + 2 ^ 32 - b) % 2 ^ 32

/-- `flash_block_size`, from an offset. -/
def flashBlockSize : List (Nat × Nat) → Nat → Nat
  | [], _ => 0
  | (size, blocks) :: rest, offset =>
    if offset < blocks * size then size else flashBlockSize rest (offset - blocks * size)

/-- `find_dev`, on the list of the devices. -/
def findDev (devs : List Dev) (addr : Nat) : Option Dev := devs.find? fun d => d.start ≤ addr ∧ addr ≤ d.last

namespace Dev

/-- The blocks of a device. -/
def blocks (d : Dev) : List (Nat × Nat) := blocksOf d.start d.blockInfo

def blockSize (d : Dev) (addr : Nat) : Nat := flashBlockSize d.blockInfo (addr - d.start)

/-- `flash_block_begin`. -/
def blockBegin (d : Dev) (addr : Nat) : Nat := (addr - d.start) / d.blockSize addr * d.blockSize addr + d.start

/-- The last address to be dealt with in this device. -/
def endAddr (d : Dev) (base len : Nat) : Nat :=
  if len > sub32 (d.last + 1) base then d.last else sub32 (base + len) 1

/-- What `flash_erase_block` of a driver does to the block in which an address is. -/
def eraseBlock (d : Dev) (mem : Mem) (addr : Nat) : Mem := fun a =>
  if d.blocks.any fun b => decide (b.1 ≤ addr ∧ addr < b.1 + b.2 ∧ b.1 ≤ a ∧ a < b.1 + b.2) then 0xFF else mem a

/-- The loop of `cyg_flash_erase`: the addresses at which a block has been found blank or been erased, and the
contents. -/
def eraseLoop (d : Dev) : Nat → Mem → Nat → Nat → List Nat × Mem
  | 0, mem, _, _ => ([], mem)
  | fuel + 1, mem, block, eraseCount =>
    if eraseCount = 0 then ([], mem)
    else
      let size := d.blockSize block
      let eraseCount := if eraseCount < size then size else eraseCount
      let erased := !d.indirect && (window mem block size).all (· == 0xFF)
      let rest := d.eraseLoop fuel (if erased then mem else d.eraseBlock mem block) (block + size) (eraseCount - size)
      (block :: rest.1, rest.2)

/-- The loop of `cyg_flash_program` and `cyg_flash_read`: an address and a length for each call of the driver. -/
def chunkLoop (d : Dev) : Nat → Nat → Nat → Nat → List (Nat × Nat)
  | 0, _, _, _ => []
  | fuel + 1, addr, count, offset =>
    if count = 0 then []
    else
      let size := d.blockSize addr
      let this := if count > size - offset then size - offset else count
      (addr, this) :: d.chunkLoop fuel (addr + this) (count - this) 0

/-- The calls of the driver for one device. -/
def chunks (d : Dev) (base count : Nat) : List (Nat × Nat) :=
  let block := d.blockBegin base
  d.chunkLoop count base count (if base = block then 0 else base - block)

end Dev

/-- `cyg_flash_erase`; `none` if there is not enough fuel. -/
def cygFlashErase (devs : List Dev) : Nat → Mem → Nat → Nat → Option (Stat × List Nat × Mem)
  | 0, _, _, _ => none
  | fuel + 1, mem, base, len =>
    match findDev devs base with
    | none => some (.invalid, [], mem)
    | some d =>
      let block := d.blockBegin base
      let eraseCount := sub32 (d.endAddr base len + 1) block
      let seen := d.eraseLoop eraseCount mem block eraseCount
      if len > sub32 (d.last + 1) base then
        (cygFlashErase devs fuel seen.2 ((d.last + 1) % 2 ^ 32) (len - sub32 (d.last + 1) base)).map
          fun (stat, rest, mem) => (stat, seen.1 ++ rest, mem)
      else some (.ok, seen.1, seen.2)

/-- The buffer is cut into the pieces for the calls. -/
def pieces : List (Nat × Nat) → List UInt8 → List (Nat × List UInt8)
  | [], _ => []
  | (addr, n) :: rest, ram => (addr, ram.take n) :: pieces rest (ram.drop n)

/-- `cyg_flash_program`: the arguments of the calls of the drivers. -/
def cygFlashProgram (devs : List Dev) : Nat → Nat → List UInt8 → Option (Stat × List (Nat × List UInt8))
  | 0, _, _ => none
  | fuel + 1, base, ram =>
    match findDev devs base with
    | none => some (.invalid, [])
    | some d =>
      let writeCount := sub32 (d.endAddr base ram.length + 1) base
      let calls := pieces (d.chunks base writeCount) ram
      if ram.length > sub32 (d.last + 1) base then
        (cygFlashProgram devs fuel ((d.last + 1) % 2 ^ 32) (ram.drop writeCount)).map fun (stat, rest) =>
          (stat, calls ++ rest)
      else some (.ok, calls)

/-- `cyg_flash_read`: the calls of the drivers, and the bytes that end up in the buffer. -/
def cygFlashRead (devs : List Dev) (mem : Mem) : Nat → Nat → Nat → Option (Stat × List (Nat × Nat) × List UInt8)
  | 0, _, _ => none
  | fuel + 1, base, len =>
    match findDev devs base with
    | none => some (.invalid, [], [])
    | some d =>
      let readCount := sub32 (d.endAddr base len + 1) base
      let calls := if d.indirect then d.chunks base readCount else []
      let bytes := if d.indirect then calls.flatMap fun c => window mem c.1 c.2 else window mem base readCount
      if len > sub32 (d.last + 1) base then
        (cygFlashRead devs mem fuel ((d.last + 1) % 2 ^ 32) (len - sub32 (d.last + 1) base)).map
          fun (stat, more, rest) => (stat, calls ++ more, bytes ++ rest)
      else some (.ok, calls, bytes)

/-- A block of one of the devices that contains a byte of the range. -/
def Touched (devs : List Dev) (base len : Nat) (b : Nat × Nat) : Prop :=
  ∃ d ∈ devs, b ∈ d.blocks ∧ ∃ a, b.1 ≤ a ∧ a < b.1 + b.2 ∧ base ≤ a ∧ a < base + len

/-- The bytes of some blocks are erased, and all others are as before. -/
def Wiped (blocks : Nat × Nat → Prop) (mem mem' : Mem) : Prop :=
  ∀ x, ((∃ b, blocks b ∧ b.1 ≤ x ∧ x < b.1 + b.2) → mem' x = 0xFF) ∧
    (¬(∃ b, blocks b ∧ b.1 ≤ x ∧ x < b.1 + b.2) → mem' x = mem x)

/-- The range from an address lies within one block of a device. -/
def InBlock (devs : List Dev) (addr len : Nat) : Prop :=
  ∃ d ∈ devs, ∃ b ∈ d.blocks, b.1 ≤ addr ∧ addr + len ≤ b.1 + b.2

/-- Exactly the blocks that contain a byte of the range are erased, each once. -/
def Erases (devs : List Dev) (mem : Mem) (base len : Nat) : Prop :=
  ∃ seen mem', cygFlashErase devs (len + 1) mem base len = some (.ok, seen, mem') ∧ seen.Nodup ∧
    (∀ a, a ∈ seen ↔ ∃ b, Touched devs base len b ∧ b.1 = a) ∧ Wiped (Touched devs base len) mem mem'

/-- The drivers get each byte of the buffer with its address, and no call is across the boundary of a block. -/
def Programs (devs : List Dev) (base : Nat) (ram : List UInt8) : Prop :=
  ∃ calls, cygFlashProgram devs (ram.length + 1) base ram = some (.ok, calls) ∧
    calls.flatMap (fun c => c.2.zipIdx c.1) = ram.zipIdx base ∧ ∀ c ∈ calls, InBlock devs c.1 c.2.length

def Reads (devs : List Dev) (mem : Mem) (base len : Nat) : Prop :=
  ∃ calls, cygFlashRead devs mem (len + 1) base len = some (.ok, calls, window mem base len) ∧
    ∀ c ∈ calls, InBlock devs c.1 c.2

/-- Where the run of blocks of one size begins in which an offset is. -/
def regionBegin : List (Nat × Nat) → Nat → Nat
  | [], _ => 0
  | (size, blocks) :: rest, offset =>
    if offset < blocks * size then 0 else blocks * size + regionBegin rest (offset - blocks * size)

variable {info : List (Nat × Nat)} {b : Nat × Nat} {at' size n addr off : Nat} {d : Dev}

open List Nat

theorem run_tiles (positive : 0 < size) : Tiles Prod.fst Prod.snd at' (run size n at') (at' + n * size) := by
  induction n generalizing at' with
  | zero => simp [run, Tiles]
  | succ n ih =>
    have rest : Tiles Prod.fst Prod.snd (at' + size) (run size n (at' + size)) (at' + size + n * size) := ih
    rw [succ_mul, add_comm (n * size), ← add_assoc]
    exact ⟨rfl, positive, rest⟩

theorem blocksOf_tiles (sizes : ∀ r ∈ info, 0 < r.1) :
    Tiles Prod.fst Prod.snd at' (blocksOf at' info) (at' + totalOf info) := by
  induction info generalizing at' with
  | nil => simp [blocksOf, totalOf, Tiles]
  | cons r info ih =>
    have first := @run_tiles at' _ r.2 (sizes r (mem_cons_self ..))
    have rest : Tiles Prod.fst Prod.snd (at' + r.2 * r.1) (blocksOf (at' + r.2 * r.1) info)
        (at' + r.2 * r.1 + totalOf info) := ih fun r' member => sizes r' (mem_cons_of_mem _ member)
    have total : totalOf (r :: info) = r.2 * r.1 + totalOf info := by simp [totalOf]
    rw [total, ← add_assoc]
    exact first.append rest

theorem Dev.tiles (d : Dev) : Tiles Prod.fst Prod.snd d.start d.blocks (d.last + 1) := by
  rw [d.sized]
  exact blocksOf_tiles d.sizes

theorem mem_run (member : b ∈ run size n at') : b.2 = size ∧ ∃ k < n, b.1 = at' + k * size := by
  induction n generalizing at' with
  | zero => simp [run] at member
  | succ n ih =>
    rcases mem_cons.mp member with rfl | later
    · exact ⟨rfl, 0, by omega, by simp⟩
    · obtain ⟨same, k, less, is⟩ := ih later
      refine ⟨same, k + 1, by omega, ?_⟩
      rw [is, succ_mul]
      omega

theorem blocksOf_region (sizes : ∀ r ∈ info, 0 < r.1) (member : b ∈ blocksOf at' info) (low : b.1 ≤ at' + off)
    (high : at' + off < b.1 + b.2) : flashBlockSize info off = b.2 ∧
      ∃ k, b.1 = at' + regionBegin info off + k * b.2 := by
  induction info generalizing at' off with
  | nil => simp [blocksOf] at member
  | cons r info ih =>
    obtain ⟨size, blocks⟩ := r
    have rest := @blocksOf_tiles _ (at' + blocks * size) fun r member => sizes r (mem_cons_of_mem _ member)
    rcases mem_append.mp member with here | later
    · obtain ⟨same, k, less, is⟩ := mem_run here
      have inside : off < blocks * size := by
        have most : (k + 1) * size ≤ blocks * size := mul_le_mul_right _ less
        rw [succ_mul] at most
        omega
      rw [flashBlockSize, regionBegin, if_pos inside, if_pos inside]
      exact ⟨same.symm, k, by rw [is, same]; omega⟩
    · have after := (rest.within later).1
      have outside : ¬off < blocks * size := by omega
      rw [flashBlockSize, regionBegin, if_neg outside, if_neg outside]
      have low' : b.1 ≤ at' + blocks * size + (off - blocks * size) := by omega
      obtain ⟨same, k, is⟩ := ih (fun r member => sizes r (mem_cons_of_mem _ member)) later low' (by omega)
      exact ⟨same, k, by omega⟩

theorem Dev.block_of (low : d.start ≤ addr) (high : addr ≤ d.last) :
    ∃ b ∈ d.blocks, b.1 ≤ addr ∧ addr < b.1 + b.2 := d.tiles.covers low (by omega)

theorem Dev.blockSize_eq (member : b ∈ d.blocks) (low : b.1 ≤ addr) (high : addr < b.1 + b.2) :
    d.blockSize addr = b.2 := by
  have within := d.tiles.within member
  exact (@blocksOf_region _ _ _ (addr - d.start) d.sizes member (by omega) (by omega)).1

theorem Dev.blockBegin_le (low : d.start ≤ addr) : d.blockBegin addr ≤ addr := by
  have most := div_mul_le_self (addr - d.start) (d.blockSize addr)
  rw [blockBegin]
  omega

theorem Dev.blockBegin_near (member : b ∈ d.blocks) (low : b.1 ≤ addr) (high : addr < b.1 + b.2) :
    addr < d.blockBegin addr + b.2 := by
  have within := d.tiles.within member
  have split := div_add_mod' (addr - d.start) b.2
  have less := mod_lt (addr - d.start) within.2.1
  rw [blockBegin, d.blockSize_eq member low high]
  omega

theorem Dev.blockBegin_eq_iff (member : b ∈ d.blocks) (low : b.1 ≤ addr) (high : addr < b.1 + b.2) :
    d.blockBegin addr = b.1 ↔ regionBegin d.blockInfo (addr - d.start) % b.2 = 0 := by
  obtain ⟨start, positive, _⟩ := d.tiles.within member
  obtain ⟨_, k, is⟩ := @blocksOf_region _ _ _ (addr - d.start) d.sizes member (by omega) (by omega)
  set begins := regionBegin d.blockInfo (addr - d.start)
  rw [blockBegin, d.blockSize_eq member low high]
  have split := div_add_mod' (addr - d.start) b.2
  -- the rest behind the block's own beginning
  obtain ⟨x, inside⟩ : ∃ x, addr - d.start = begins + k * b.2 + x := ⟨addr - b.1, by omega⟩
  have small : x < b.2 := by omega
  have rest : (addr - d.start) % b.2 = (begins + x) % b.2 := by
    rw [inside, add_right_comm, add_mul_mod_self_right]
  constructor
  · intro same
    have whole : (addr - d.start) % b.2 = x := by omega
    have mod : (begins + x) ≡ 0 + x [MOD b.2] := by
      rw [ModEq, ← rest, whole, zero_add, mod_eq_of_lt small]
    have cancelled := ModEq.add_right_cancel' x mod
    rwa [ModEq, zero_mod] at cancelled
  · intro aligned
    have whole : (addr - d.start) % b.2 = x := by
      rw [rest, add_mod, aligned, zero_add, mod_mod, mod_eq_of_lt small]
    omega

theorem Dev.blockBegin_start (d : Dev) : d.blockBegin d.start = d.start := by
  rw [blockBegin, Nat.sub_self, Nat.zero_div, zero_mul, zero_add]

theorem Dev.blockBegin_ge (d : Dev) : d.start ≤ d.blockBegin addr := Nat.le_add_left ..

theorem sub32_eq {a b : Nat} (le : b ≤ a) (small : a - b < 2 ^ 32) : sub32 a b = a - b := by
  have split : a + 2 ^ 32 - b = (a - b) + 2 ^ 32 := by omega
  rw [sub32, split, add_mod_right, mod_eq_of_lt small]

theorem Dev.count_eq {base len block : Nat} (low : d.start ≤ base) (high : base ≤ d.last) (before : block ≤ base)
    (inside : d.start ≤ block) : sub32 (d.endAddr base len + 1) block = min (base + len) (d.last + 1) - block := by
  have part := d.part
  have top := d.top
  have room : sub32 (d.last + 1) base = d.last + 1 - base := sub32_eq (by omega) (by omega)
  rw [endAddr, room]
  split
  · rw [sub32_eq (by omega) (by omega), min_eq_right (by omega)]
  · rw [min_eq_left (by omega)]
    by_cases nothing : base + len = 0
    · have zero : block = 0 := by omega
      rw [nothing, zero]
      rfl
    · rw [sub32, sub32]
      omega

end Ecos.Flash
