import Ecos.Lib.Gaps

namespace Ecos.Redboot.FisChunks

/-- What `cyg_flash_get_info` says about a device. -/
structure Info where
  start : Nat
  last : Nat
  proper : start ≤ last
  top : last < 2 ^ 32

/-- The flash devices in ascending order and the configuration: `flash_reserved` of a start address,
`CYGNUM_REDBOOT_FLASH_BASE` if it is set, `CYGNUM_REDBOOT_FLASH_RESERVED_BASE`, the size of an area in the device that
has the flash base, and `CYGDAT_REDBOOT_FIS_MAX_FREE_CHUNKS`. -/
structure Layout where
  devs : List Info
  reserved : Nat → Bool
  flashBase : Option Nat
  reservedBase : Nat
  maxChunks : Nat
  ascending : devs.Pairwise fun d e => d.last < e.start
  within : ∀ x ∈ devs.zipIdx, flashBase = some x.1.start ∨ flashBase = none ∧ x.2 = 0 →
    x.1.start + reservedBase ≤ x.1.last

/-- The device that has the reserved area. -/
def Layout.IsBase (l : Layout) (x : Info × Nat) : Prop := l.flashBase = some x.1.start ∨ l.flashBase = none ∧ x.2 = 0

instance (l : Layout) (x : Info × Nat) : Decidable (l.IsBase x) := inferInstanceAs (Decidable (_ ∨ _))

/-- The first loop of `find_free`, over the devices. The table is kept with its last chunk first; `none` if a place
outside the table is read or written. -/
def Layout.collect (l : Layout) : List (Info × Nat) → List Span → Option (List Span)
  | [], chunks => some chunks
  | x :: rest, chunks =>
    if l.reserved x.1.start then l.collect rest chunks
    else if l.IsBase x then
      if chunks.length < l.maxChunks then l.collect rest (⟨x.1.start + l.reservedBase, x.1.last⟩ :: chunks) else none
    else
      match chunks with
      | [] => none
      | c :: before =>
        if c.last = (x.1.start + 2 ^ 32 - 1) % 2 ^ 32 then l.collect rest (⟨c.start, x.1.last⟩ :: before)
        else if chunks.length < l.maxChunks then l.collect rest (⟨x.1.start, x.1.last⟩ :: chunks)
        else none

/-- `flash_base` and `size` of an image. -/
structure Image where
  base : Nat
  size : Nat

/-- What an image that starts in a chunk leaves of it. -/
def trim (img : Image) (c : Span) : List Span :=
  if img.base = c.start then
    let start := (c.start + img.size) % 2 ^ 32
    if start ≥ c.last then [] else [⟨start, c.last⟩]
  else if (img.base + img.size + 2 ^ 32 - 1) % 2 ^ 32 ≥ c.last then [⟨c.start, img.base - 1⟩]
  else [⟨c.start, img.base - 1⟩, ⟨(img.base + img.size) % 2 ^ 32, c.last⟩]

/-- "Figure out which chunk this is in and split it". -/
def process (img : Image) : List Span → List Span
  | [] => []
  | c :: rest => if c.start ≤ img.base ∧ img.base ≤ c.last then trim img c ++ rest else c :: process img rest

/-- The table, and whether the function has returned because it is full. -/
structure State where
  chunks : List Span
  full : Bool

/-- The body of the second loop, for an image; only a split makes the table longer. -/
def Layout.step (l : Layout) (s : State) (img : Image) : Option State :=
  if s.full then some s
  else
    let chunks := process img s.chunks
    if s.chunks.length < chunks.length then
      if s.chunks.length < l.maxChunks then some ⟨chunks, chunks.length = l.maxChunks⟩ else none
    else some ⟨chunks, false⟩

def Layout.run (l : Layout) (images : List Image) : Option State := do
  let chunks ← l.collect l.devs.zipIdx []
  images.foldlM l.step ⟨chunks.reverse, false⟩

/-- `find_free`, for the images of the directory: the descriptors whose name does not start with 0xFF. -/
def Layout.findFree (l : Layout) (images : List Image) : Option (List Span) := (l.run images).map State.chunks

/-- `fis_find_free` with the table of chunks. -/
def fisFindFree (chunks : List Span) (length : Nat) : Option Nat :=
  (chunks.find? fun c => (c.last + 2 ^ 32 - c.start + 1) % 2 ^ 32 ≥ length).map Span.start

/-- The test of `fis_create` that an address is truly free. -/
def isFree (chunks : List Span) (addr length : Nat) : Bool :=
  chunks.any fun c => addr ≥ c.start ∧ (addr + length + 2 ^ 32 - 1) % 2 ^ 32 ≤ c.last

/-- The flash driver, by `cyg_flash_block_size` and `cyg_flash_verify_addr` of an address. -/
structure Driver where
  blockSize : Nat → Nat
  verify : Nat → Bool

/-- Where `fis_create` places an image that has no place yet, and the length of its area: `-n` is `noCopy`, `-f` is
`flashAddr`. -/
def place (d : Driver) (flashStart : Nat) (chunks : List Span) (noCopy : Bool) (flashAddr : Option Nat)
    (length imgSize : Nat) : Option (Nat × Nat) := do
  guard (flashAddr.all fun addr => d.verify addr && d.verify ((addr + length + 2 ^ 32 - 1) % 2 ^ 32))
  let addr ← flashAddr.or (fisFindFree chunks length)
  let block := d.blockSize ((addr + length) % 2 ^ 32)
  let length := (length + block + 2 ^ 32 - 1) % 2 ^ 32 / block * block % 2 ^ 32
  guard (length ≥ imgSize)
  guard (d.verify addr && d.verify ((addr + length + 2 ^ 32 - 1) % 2 ^ 32))
  let offset := (addr + 2 ^ 32 - flashStart) % 2 ^ 32 / d.blockSize addr
  guard ((flashStart + offset * d.blockSize addr) % 2 ^ 32 = addr)
  guard (noCopy || isFree chunks addr length)
  some (addr, length)

/-- An address of a device that is not reserved. -/
def Layout.Flash (l : Layout) (a : Nat) : Prop :=
  ∃ x ∈ l.devs.zipIdx, l.reserved x.1.start = false ∧ x.1.start ≤ a ∧ a ≤ x.1.last

/-- An address of the area for systems before RedBoot. -/
def Layout.BaseArea (l : Layout) (a : Nat) : Prop :=
  ∃ x ∈ l.devs.zipIdx, l.reserved x.1.start = false ∧ l.IsBase x ∧ x.1.start ≤ a ∧ a < x.1.start + l.reservedBase

def Image.Has (i : Image) (a : Nat) : Prop := i.base ≤ a ∧ a < i.base + i.size

/-- What is free according to the directory. -/
def Layout.Free (l : Layout) (images : List Image) (a : Nat) : Prop :=
  l.Flash a ∧ ¬l.BaseArea a ∧ ∀ i ∈ images, ¬i.Has a

/-- The images of a directory do not overlap, are not empty and lie in the flash. -/
structure Proper (l : Layout) (images : List Image) : Prop where
  apart : images.Pairwise fun i j => i.base + i.size ≤ j.base ∨ j.base + j.size ≤ i.base
  some' : ∀ i ∈ images, 0 < i.size
  inside : ∀ i ∈ images, ∀ a, i.Has a → l.Flash a

/-- The chunks are disjoint and not empty, nothing in them belongs to an image or the reserved area, with fewer gaps
than the table has places they are all that is free, and `fis_create` does not place an image over another: without
`-n`, and without `-f` if the length has not been rounded up. -/
structure Meets (l : Layout) (images : List Image) (chunks : List Span) : Prop where
  proper : ∀ c ∈ chunks, c.start ≤ c.last
  apart : chunks.Pairwise fun c d => ∀ a, c.Has a → ¬d.Has a
  safe : ∀ c ∈ chunks, ∀ a, c.Has a → ¬l.BaseArea a ∧ ∀ i ∈ images, ¬i.Has a
  whole : pieces (l.Free images) < l.maxChunks →
    ∀ a, l.Flash a ↔ (∃ c ∈ chunks, c.Has a) ∨ (∃ i ∈ images, i.Has a) ∨ l.BaseArea a
  create : ∀ d flashStart noCopy flashAddr length imgSize addr size,
    place d flashStart chunks noCopy flashAddr length imgSize = some (addr, size) → addr + size ≤ 2 ^ 32 →
    noCopy = false ∨ flashAddr = none ∧ size ≤ length → ∀ a, (Image.mk addr size).Has a → ∀ i ∈ images, ¬i.Has a

/-- After each part of the directory the table holds exactly what is free. -/
def Right (l : Layout) (images : List Image) : Prop :=
  ∀ before after, images = before ++ after → ∃ chunks, l.findFree before = some chunks ∧ Spans (l.Free before) chunks

/-- Where an image may lie, when others have been taken out before: it does not reach out of the reserved area, does
not fill a gap up to the end of the address space, does not leave a single byte of a gap behind it, and makes two gaps
of one only if there is place in the table, and nothing is to be taken out any more when the table is full. -/
structure Fits (l : Layout) (before : List Image) (img : Image) (after : List Image) : Prop where
  reach : l.Free before img.base ∨ ∀ a, img.Has a → ¬l.Free before a
  top : l.Free before img.base → ¬Inner (l.Free before) img.base → img.base + img.size ≠ 2 ^ 32
  rest : l.Free before img.base → ¬Inner (l.Free before) img.base → l.Free before (img.base + img.size) →
    l.Free before (img.base + img.size + 1)
  split : l.Free before img.base → Inner (l.Free before) img.base → l.Free before (img.base + img.size) →
    pieces (l.Free before) + 1 < l.maxChunks ∨
      pieces (l.Free before) + 1 = l.maxChunks ∧ ∀ i ∈ after, ∀ a, i.Has a → ¬l.Free before a

/-- The first device that is not reserved has the reserved area, the gaps without images have place in the table, and
all images fit. -/
structure Sound (l : Layout) (images : List Image) : Prop where
  first : ∀ x ∈ (l.devs.zipIdx.filter fun x => !l.reserved x.1.start).head?, l.IsBase x
  room : pieces (l.Free []) ≤ l.maxChunks
  fits : ∀ before img after, images = before ++ img :: after → Fits l before img after

end Ecos.Redboot.FisChunks
