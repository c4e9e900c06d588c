import Mathlib.Data.List.Range
import Ecos.Lib.Image

namespace Ecos.Redboot.Elf

/-- The byte order of the target, and `valid_address` (constantly true if loads are not validated). -/
structure Target where
  bigEndian : Bool
  valid : Nat → Bool

/-- `sizeof(ehdr)`. -/
def ehdrSize : Nat := 52

/-- `sizeof(phdr[0])`. -/
def phdrSize : Nat := 32

def maxPhdr : Nat := 8

def etExec : Nat := 2

def ptLoad : Nat := 1

/-- The number in some bytes of a header. -/
def Target.number (t : Target) (bytes : List UInt8) (at' size : Nat) : Nat :=
  let digits := (bytes.drop at').take size
  (if t.bigEndian then digits else digits.reverse).foldl (fun n b => n * 256 + b.toNat) 0

structure Ehdr where
  type : Nat
  entry : Nat
  phoff : Nat
  phentsize : Nat
  phnum : Nat

structure Phdr where
  type : Nat
  offset : Nat
  paddr : Nat
  filesz : Nat
  deriving DecidableEq

def Target.ehdr (t : Target) (bytes : List UInt8) : Ehdr :=
  ⟨t.number bytes 16 2, t.number bytes 24 4, t.number bytes 28 4, t.number bytes 42 2, t.number bytes 44 2⟩

def Target.phdr (t : Target) (bytes : List UInt8) : Phdr :=
  ⟨t.number bytes 0 4, t.number bytes 4 4, t.number bytes 12 4, t.number bytes 16 4⟩

/-- `_read` of all the bytes that are asked for, from what is left of the stream. -/
def read (rest : List UInt8) (len : Nat) : Option (List UInt8 × List UInt8) :=
  if len ≤ rest.length then some (rest.take len, rest.drop len) else none

/-- The loops that read up to an offset. -/
def skipTo (target offset : Nat) (rest : List UInt8) : Option (List UInt8) :=
  if target - offset ≤ rest.length then some (rest.drop (target - offset)) else none

def readPhdrs (t : Target) : Nat → List UInt8 → Option (List Phdr × List UInt8)
  | 0, rest => some ([], rest)
  | n + 1, rest => do
    let (bytes, rest) ← read rest phdrSize
    let (phdrs, rest) ← readPhdrs t n rest
    some (t.phdr bytes :: phdrs, rest)

/-- The lowest address of a loadable segment, at most `0xFFFFFFFF`. -/
def lowestOf : List Phdr → Nat → Nat
  | [], low => low
  | h :: l, low => lowestOf l (if h.type = ptLoad ∧ h.paddr < low then h.paddr else low)

def addrOffset (base : UInt32) (phdrs : List Phdr) : Nat :=
  if base ≠ 0 then (base.toNat + 2 ^ 32 - lowestOf phdrs (2 ^ 32 - 1)) % 2 ^ 32 else 0

/-- What is left of the stream, the position in it, the range of addresses, and the bytes that have been written. -/
structure State where
  rest : List UInt8
  offset : Nat
  lowest : Nat
  highest : Nat
  written : List (Nat × UInt8)

/-- "Copy data into memory". -/
def copy (t : Target) (addrOffset : Nat) : Nat → Nat → State → Option State
  | 0, _, s => some s
  | len + 1, addr, s =>
    if t.valid addr then
      match s.rest with
      | [] => none
      | ch :: rest =>
        let next := (addr + 1) % 2 ^ 32
        copy t addrOffset len next { s with
          rest := rest
          offset := (s.offset + 1) % 2 ^ 32
          highest := max s.highest ((next + 2 ^ 32 - addrOffset) % 2 ^ 32)
          written := s.written ++ [(addr, ch)] }
    else none

/-- `len = phdr[phx].p_filesz` is an `int`: from 2^31 on it is negative and nothing is copied. -/
def Phdr.copied (h : Phdr) : Nat := if h.filesz < 2 ^ 31 then h.filesz else 0

/-- The loop over the program headers, for one of them. -/
def loadSegment (t : Target) (addrOffset : Nat) (s : State) (h : Phdr) : Option State :=
  if h.type = ptLoad then
    let s := { s with lowest := if h.paddr < s.lowest then h.paddr else s.lowest }
    let addr := (h.paddr + addrOffset) % 2 ^ 32
    if h.offset < s.offset then
      if (h.offset + h.filesz) % 2 ^ 32 < s.offset then none
      else copy t addrOffset h.copied ((addr + (s.offset - h.offset)) % 2 ^ 32) s
    else do
      let rest ← skipTo h.offset s.offset s.rest
      copy t addrOffset h.copied addr { s with rest := rest, offset := h.offset }
  else some s

/-- What a successful load has done. -/
structure Loaded where
  loadAddress : Nat
  loadAddressEnd : Nat
  entryAddress : Nat
  written : List (Nat × UInt8)
  deriving DecidableEq

/-- `load_elf_image`, from a stream with the bytes of a file; `none` if it returns 0. -/
def loadElfImage (t : Target) (base : UInt32) (file : List UInt8) : Option Loaded := do
  let (bytes, rest) ← read file ehdrSize
  let e := t.ehdr bytes
  if e.type ≠ etExec then none
  else if maxPhdr < e.phnum then none
  else
    let rest ← skipTo e.phoff ehdrSize rest
    let (phdrs, rest) ← readPhdrs t e.phnum rest
    let offset := (max ehdrSize e.phoff + phdrSize * e.phnum) % 2 ^ 32
    let s ← phdrs.foldlM (loadSegment t (addrOffset base phdrs)) ⟨rest, offset, 2 ^ 32 - 1, 0, []⟩
    some (if base ≠ 0 then
      ⟨base.toNat, (base.toNat + (s.highest + 2 ^ 32 - s.lowest)) % 2 ^ 32,
        (base.toNat + (e.entry + 2 ^ 32 - s.lowest)) % 2 ^ 32, s.written⟩
    else ⟨s.lowest, s.highest, e.entry, s.written⟩)

/-- The header of a file. -/
def header (t : Target) (file : List UInt8) : Ehdr := t.ehdr (file.take ehdrSize)

/-- The program header table of a file, by the format. -/
def table (t : Target) (file : List UInt8) : List Phdr :=
  (List.range (header t file).phnum).map fun k =>
    t.phdr ((file.drop ((header t file).phoff + k * (header t file).phentsize)).take phdrSize)

def segments (l : List Phdr) : List Phdr := l.filter fun h => h.type = ptLoad

/-- The program header table lies behind the header, and the loadable segments have ascending places in the file and
places apart from each other in the memory. -/
structure WellFormed (t : Target) (file : List UInt8) : Prop where
  behind : (header t file).phnum ≠ 0 → ehdrSize ≤ (header t file).phoff ∧ (header t file).phentsize = phdrSize ∧
    (header t file).phoff + phdrSize * (header t file).phnum < 2 ^ 32
  ascending : (segments (table t file)).Pairwise fun h k => h.offset + h.filesz ≤ k.offset
  apart : (segments (table t file)).Pairwise fun h k =>
    0 < h.filesz → 0 < k.filesz → h.paddr + h.filesz ≤ k.paddr ∨ k.paddr + k.filesz ≤ h.paddr
  inside : ∀ h ∈ segments (table t file), h.paddr + h.filesz ≤ 2 ^ 32

/-- Where a byte of a segment belongs. -/
def Phdr.place (h : Phdr) (addrOffset i : Nat) : Nat := (h.paddr + i + addrOffset) % 2 ^ 32

/-- The bytes of the segments, and no others, have been written to their places, and the addresses are their bounds.
-/
structure LoadsImage (t : Target) (base : UInt32) (file : List UInt8) (r : Loaded) : Prop where
  contents : ∀ h ∈ segments (table t file), ∀ i < h.filesz, ∀ m : Nat → UInt8,
    file[h.offset + i]? = some (store m r.written (h.place (addrOffset base (table t file)) i))
  others : ∀ x ∈ r.written, ∃ h ∈ segments (table t file), ∃ i < h.filesz,
    x.1 = h.place (addrOffset base (table t file)) i
  bounds : r.written ≠ [] → (∃ x ∈ r.written, x.1 = r.loadAddress) ∧
    (∀ x ∈ r.written, r.loadAddress ≤ x.1 ∧ x.1 < r.loadAddressEnd) ∧ ∃ x ∈ r.written, x.1 + 1 = r.loadAddressEnd

/-- All segments start behind the program headers, are shorter than 2^31 bytes, and end where an end address can say
it. No empty segment is the lowest. -/
structure Simple (t : Target) (base : UInt32) (file : List UInt8) : Prop where
  behind : ∀ h ∈ segments (table t file), (header t file).phoff + phdrSize * (header t file).phnum ≤ h.offset
  short : ∀ h ∈ segments (table t file), h.filesz < 2 ^ 31
  lowest : (∃ h ∈ segments (table t file), 0 < h.filesz) →
    ∃ h ∈ segments (table t file), 0 < h.filesz ∧ h.paddr = lowestOf (table t file) (2 ^ 32 - 1)
  ends : ∀ h ∈ segments (table t file), 0 < h.filesz →
    if base = 0 then h.paddr + h.filesz < 2 ^ 32
    else base.toNat + (h.paddr + h.filesz - lowestOf (table t file) (2 ^ 32 - 1)) < 2 ^ 32 ∧
      (h.paddr + h.filesz = 2 ^ 32 → h.paddr = lowestOf (table t file) (2 ^ 32 - 1) ∧ h.filesz = 1)

open List Nat
variable {t : Target} {base : UInt32} {file rest bytes : List UInt8} {ao addr p n len : Nat} {s s' : State} {h :
  Phdr} {l l' : List Phdr}

theorem digits_lt (digits : List UInt8) :
    digits.foldl (fun n b => n * 256 + b.toNat) n < (n + 1) * 256 ^ digits.length := by
  induction digits generalizing n with
  | nil => simp
  | cons b digits ih =>
    refine lt_of_lt_of_le ih ?_
    have small := b.toNat_lt
    rw [length_cons, Nat.pow_succ, Nat.mul_comm (256 ^ _), ← Nat.mul_assoc]
    refine mul_le_mul_right _ ?_
    dsimp only
    omega

theorem number_lt {at' size : Nat} : t.number bytes at' size < 256 ^ size := by
  have bound : ∀ digits : List UInt8, digits.length ≤ size →
    digits.foldl (fun n b => n * 256 + b.toNat) 0 < 256 ^ size :=
    fun digits short => by
      have := @digits_lt 0 digits
      rw [Nat.zero_add, Nat.one_mul] at this
      exact Nat.lt_of_lt_of_le this (Nat.pow_le_pow_right (by omega) short)
  have short : ((bytes.drop at').take size).length ≤ size := length_take_le ..
  rw [Target.number]
  split
  · exact bound _ short
  · exact bound _ (by rwa [length_reverse])

theorem table_lt (mem : h ∈ table t file) : h.offset < 2 ^ 32 ∧ h.paddr < 2 ^ 32 ∧ h.filesz < 2 ^ 32 := by
  obtain ⟨_, _, rfl⟩ := mem_map.mp mem
  exact ⟨number_lt, number_lt, number_lt⟩

theorem readPhdrs_spec (reads : readPhdrs t n (file.drop p) = some (l, rest)) :
    l = (List.range n).map (fun k => t.phdr ((file.drop (p + k * phdrSize)).take phdrSize)) ∧
      rest = file.drop (p + phdrSize * n) := by
  induction n generalizing p l rest with
  | zero =>
    obtain ⟨rfl, rfl⟩ := Prod.mk.inj (Option.some.inj reads)
    exact ⟨rfl, rfl⟩
  | succ n ih =>
    rw [readPhdrs, read] at reads
    obtain ⟨⟨bytes, rest₁⟩, first, reads⟩ := Option.bind_eq_some_iff.mp reads
    obtain ⟨⟨phdrs, rest₂⟩, others, same⟩ := Option.bind_eq_some_iff.mp reads
    obtain ⟨rfl, rfl⟩ := Prod.mk.inj (Option.some.inj same)
    split at first
    · obtain ⟨rfl, rfl⟩ := Prod.mk.inj (Option.some.inj first)
      rw [drop_drop] at others
      obtain ⟨rfl, rfl⟩ := ih others
      refine ⟨?_, ?_⟩
      · rw [range_succ_eq_map, map_cons, map_map]
        refine congrArg₂ _ (by simp) (map_congr_left fun k _ => ?_)
        rw [Function.comp, Nat.succ_mul, Nat.add_assoc, Nat.add_comm phdrSize]
      · rw [Nat.mul_succ, Nat.add_assoc, Nat.add_comm phdrSize]
    · cases first

theorem lowestOf_spec (low : Nat) : lowestOf l low ≤ low ∧ (∀ h ∈ segments l, lowestOf l low ≤ h.paddr) ∧
    (lowestOf l low = low ∨ ∃ h ∈ segments l, h.paddr = lowestOf l low) := by
  induction l generalizing low with
  | nil => simp [lowestOf, segments]
  | cons h l ih =>
    rw [lowestOf]
    obtain ⟨le, least, found⟩ := ih (if h.type = ptLoad ∧ h.paddr < low then h.paddr else low)
    generalize lowestOf l _ = m at *
    by_cases isLoad : h.type = ptLoad
    · have split : segments (h :: l) = h :: segments l := filter_cons_of_pos (by simpa using isLoad)
      simp only [split, mem_cons, forall_eq_or_imp, exists_eq_or_imp]
      split at le
      · next lower =>
        rw [if_pos lower] at found
        refine ⟨by omega, ⟨le, least⟩, ?_⟩
        rcases found with same | found
        · exact .inr (.inl same.symm)
        · exact .inr (.inr found)
      · next notLower =>
        rw [if_neg notLower] at found
        exact ⟨le, ⟨by simp only [isLoad, true_and] at notLower; omega, least⟩, found.imp_right .inr⟩
    · have split : segments (h :: l) = segments l := filter_cons_of_neg (by simpa using isLoad)
      rw [if_neg fun both => isLoad both.1] at le found
      rw [split]
      exact ⟨le, least, found⟩

/-- `highest_address` is one past the highest address that was written, without the offset. -/
def Highest (ao : Nat) (s : State) : Prop :=
  (∀ x ∈ s.written, ((x.1 + 1) % 2 ^ 32 + 2 ^ 32 - ao) % 2 ^ 32 ≤ s.highest) ∧
    (s.highest = 0 ∨ ∃ x ∈ s.written, ((x.1 + 1) % 2 ^ 32 + 2 ^ 32 - ao) % 2 ^ 32 = s.highest)

/-- What copying does. -/
structure Copied (ao n addr : Nat) (s s' : State) : Prop where
  enough : n ≤ s.rest.length
  rest : s'.rest = s.rest.drop n
  offset : s'.offset = (s.offset + n) % 2 ^ 32
  lowest : s'.lowest = s.lowest
  written : s'.written = s.written ++ piece (2 ^ 32) addr (s.rest.take n)
  highest : Highest ao s → Highest ao s'

theorem copy_spec (small : s.offset < 2 ^ 32) (run : copy t ao n addr s = some s') : Copied ao n addr s s' := by
  induction n generalizing addr s with
  | zero =>
    obtain rfl := Option.some.inj run
    refine ⟨zero_le _, rfl, (mod_eq_of_lt small).symm, rfl, ?_, id⟩
    simp [piece]
  | succ n ih =>
    rw [copy] at run
    split at run
    · split at run
      · cases run
      · next ch rest reads =>
        obtain ⟨enough, left, offset, lowest, written, highest⟩ := ih (mod_lt _ (by decide)) run
        dsimp only at enough left offset lowest written
        refine ⟨by rw [reads]; simpa using enough, by rw [left, reads]; rfl, ?_, lowest, ?_, fun before =>
          highest ⟨fun x mem => ?_, ?_⟩⟩
        · rw [offset]
          omega
        · rw [written, append_assoc, reads]
          rfl
        · rcases mem_append.mp mem with old | new
          · exact le_trans (before.1 x old) (le_max_left ..)
          · obtain rfl := mem_singleton.mp new
            exact le_max_right ..
        · dsimp only
          rcases le_total s.highest (((addr + 1) % 2 ^ 32 + 2 ^ 32 - ao) % 2 ^ 32) with le | le
          · rw [max_eq_right le]
            exact .inr ⟨_, mem_append_right _ (mem_singleton_self _), rfl⟩
          · rw [max_eq_left le]
            refine before.2.imp_right ?_
            rintro ⟨x, old, same⟩
            exact ⟨x, mem_append_left _ old, same⟩
    · cases run

theorem loadSegment_spec (small : s.offset < 2 ^ 32) (typed : h.offset < 2 ^ 32) (isLoad : h.type = ptLoad)
    (run : loadSegment t ao s h = some s') : s.offset - h.offset ≤ h.filesz ∧ h.offset - s.offset ≤ s.rest.length ∧
      Copied ao h.copied (h.place ao (s.offset - h.offset)) { s with
        rest := s.rest.drop (h.offset - s.offset)
        offset := max s.offset h.offset
        lowest := if h.paddr < s.lowest then h.paddr else s.lowest } s' := by
  rw [loadSegment, if_pos isLoad] at run
  dsimp only at run
  split at run
  · next overlap =>
    split at run
    · cases run
    · rw [Nat.sub_eq_zero_of_le (le_of_lt overlap), max_eq_left (le_of_lt overlap), Phdr.place,
        show (h.paddr + (s.offset - h.offset) + ao) % 2 ^ 32 =
          ((h.paddr + ao) % 2 ^ 32 + (s.offset - h.offset)) % 2 ^ 32 by omega]
      exact ⟨by omega, zero_le _, copy_spec (by exact small) run⟩
  · next ahead =>
    obtain ⟨rest, skips, run⟩ := Option.bind_eq_some_iff.mp run
    rw [skipTo] at skips
    split at skips
    · next enough =>
      obtain rfl := Option.some.inj skips
      rw [Nat.sub_eq_zero_of_le (Nat.le_of_not_lt ahead), max_eq_right (Nat.le_of_not_lt ahead)]
      exact ⟨zero_le _, enough, copy_spec (by exact typed) run⟩
    · cases skips

theorem copied_le (h : Phdr) : h.copied ≤ h.filesz := by
  rw [Phdr.copied]
  split
  · exact le_rfl
  · exact zero_le _

theorem segments_load (isLoad : h.type = ptLoad) : segments (h :: l) = h :: segments l :=
  filter_cons_of_pos (by simpa using isLoad)

theorem segments_other (other : h.type ≠ ptLoad) : segments (h :: l) = segments l :=
  filter_cons_of_neg (by simpa using other)

theorem place_lt {i : Nat} : h.place ao i < 2 ^ 32 := mod_lt _ (by decide)

theorem place_add {i d : Nat} : (h.place ao d + i) % 2 ^ 32 = h.place ao (d + i) := by
  rw [Phdr.place, Phdr.place]
  omega

/-- Where the bytes of the segments have gone, each segment moved up by some bytes. -/
structure Trace (ao : Nat) (l : List Phdr) (ds : List (Phdr × Nat)) (s s' : State) : Prop where
  each : ds.map Prod.fst = segments l
  moved : ∀ y ∈ ds, y.2 ≤ y.1.filesz
  places : ∀ a, (∃ x ∈ s'.written, x.1 = a) ↔
    (∃ x ∈ s.written, x.1 = a) ∨ ∃ y ∈ ds, ∃ i < y.1.copied, a = y.1.place ao (y.2 + i)
  highest : Highest ao s → Highest ao s'
  lowest : s'.lowest = lowestOf l s.lowest
  first : ∀ y ∈ ds.head?, y.2 = 0 → s.offset ≤ y.1.offset

theorem trace (small : s.offset < 2 ^ 32) (typed : ∀ h ∈ l, h.offset < 2 ^ 32)
    (run : l.foldlM (loadSegment t ao) s = some s') : ∃ ds, Trace ao l ds s s' := by
  induction l generalizing s with
  | nil =>
    obtain rfl := Option.some.inj run
    exact ⟨[], rfl, by simp, by simp, id, rfl, by simp⟩
  | cons h l ih =>
    rw [foldlM_cons] at run
    obtain ⟨s₁, one, run⟩ := Option.bind_eq_some_iff.mp run
    have typed' := fun k mem => typed k (mem_cons_of_mem _ mem)
    by_cases isLoad : h.type = ptLoad
    · obtain ⟨moved, _, copied⟩ := loadSegment_spec small (typed h (mem_cons_self ..)) isLoad one
      have small₁ : s₁.offset < 2 ^ 32 := by
        rw [copied.offset]
        exact mod_lt _ (by decide)
      obtain ⟨ds, tail⟩ := ih small₁ typed' run
      refine ⟨(h, s.offset - h.offset) :: ds, ?_, ?_, fun a => ?_, fun before => ?_, ?_, ?_⟩
      · rw [map_cons, tail.each, segments_load isLoad]
      · simpa only [mem_cons, forall_eq_or_imp] using ⟨moved, tail.moved⟩
      · have enough := copied.enough
        dsimp only at enough
        have new : (∃ x ∈ s₁.written, x.1 = a) ↔ (∃ x ∈ s.written, x.1 = a) ∨
            ∃ i < h.copied, a = h.place ao (s.offset - h.offset + i) := by
          rw [copied.written]
          simp only [mem_append, or_and_right, exists_or, mem_piece place_lt, place_add]
          refine or_congr_right ⟨?_, ?_⟩
          · rintro ⟨x, ⟨i, get, at'⟩, rfl⟩
            refine ⟨i, ?_, at'⟩
            have := (List.getElem?_eq_some_iff.mp get).1
            rw [length_take] at this
            omega
          · rintro ⟨i, less, rfl⟩
            exact ⟨(_, _), ⟨i, getElem?_eq_getElem (by rw [length_take]; omega), rfl⟩, rfl⟩
        rw [tail.places, new, or_assoc]
        simp only [mem_cons, exists_eq_or_imp]
      · exact tail.highest (copied.highest before)
      · rw [tail.lowest, copied.lowest, lowestOf]
        simp only [isLoad, true_and]
      · intro y first zero
        obtain rfl := Option.some.inj first
        dsimp only at zero ⊢
        omega
    · rw [loadSegment, if_neg isLoad] at one
      obtain rfl := Option.some.inj one
      obtain ⟨ds, tail⟩ := ih small typed' run
      refine ⟨ds, ?_, tail.moved, tail.places, tail.highest, ?_, tail.first⟩
      · rw [tail.each, segments_other isLoad]
      · rw [tail.lowest, lowestOf, if_neg fun both => isLoad both.1]

theorem run_written (rest : s.rest = file.drop p) (offset : s.offset = p % 2 ^ 32) (typed : ∀ h ∈ l, h.offset < 2 ^ 32)
    (ahead : ∀ h ∈ segments l, p ≤ h.offset) (ascending : (segments l).Pairwise fun h k =>
      h.offset + h.filesz ≤ k.offset)
    (short : ∀ h ∈ segments l, h.filesz < 2 ^ 31) (run : l.foldlM (loadSegment t ao) s = some s') :
    s'.written = s.written ++ (segments l).flatMap (fun h =>
      piece (2 ^ 32) (h.place ao 0) ((file.drop h.offset).take h.filesz)) ∧
      ∀ h ∈ segments l, h.filesz ≤ (file.drop h.offset).length := by
  induction l generalizing s p with
  | nil =>
    obtain rfl := Option.some.inj run
    simp [segments]
  | cons h l ih =>
    rw [foldlM_cons] at run
    obtain ⟨s₁, one, run⟩ := Option.bind_eq_some_iff.mp run
    have typed' := fun k mem => typed k (mem_cons_of_mem _ mem)
    by_cases isLoad : h.type = ptLoad
    · rw [segments_load isLoad] at ahead ascending short ⊢
      obtain ⟨after, ascending⟩ := pairwise_cons.mp ascending
      simp only [mem_cons, forall_eq_or_imp] at ahead short ⊢
      have hereSmall := typed h (mem_cons_self ..)
      have here : s.offset = p := by
        rw [offset, mod_eq_of_lt (by omega)]
      obtain ⟨_, _, copied⟩ := loadSegment_spec (by omega) hereSmall isLoad one
      rw [here, Nat.sub_eq_zero_of_le ahead.1, max_eq_right ahead.1, Phdr.copied, if_pos short.1] at copied
      have from' : (s.rest.drop (h.offset - p)) = file.drop h.offset := by
        rw [rest, drop_drop, Nat.add_sub_cancel' ahead.1]
      obtain ⟨enough, rest₁, offset₁, _, written, _⟩ := copied
      rw [from'] at enough rest₁ written
      rw [drop_drop] at rest₁
      obtain ⟨others, enough'⟩ := ih rest₁ offset₁ typed' after ascending short.2 run
      refine ⟨?_, enough, enough'⟩
      rw [others, written, flatMap_cons, append_assoc]
    · rw [segments_other isLoad] at ahead ascending short ⊢
      rw [loadSegment, if_neg isLoad] at one
      obtain rfl := Option.some.inj one
      exact ih rest offset typed' ahead ascending short run

variable {U A : Nat → Prop} {L M : Nat} {r : Loaded}

/-- The addresses bound the places that have been written. -/
def Bounds (A : Nat → Prop) (first last : Nat) : Prop :=
  A first ∧ (∀ a, A a → first ≤ a ∧ a < last) ∧ ∃ a, A a ∧ a + 1 = last

/-- Without a base, the bounds are right unless the lowest address belongs to an empty segment or the last byte of the
address space is one of the image. -/
theorem bounds_absolute (some' : ∃ u, U u) (inside : ∀ u, U u → L ≤ u ∧ u < 2 ^ 32)
    (high : ∀ u, U u → (u + 1) % 2 ^ 32 ≤ M)
    (attained : M = 0 ∨ ∃ u, U u ∧ (u + 1) % 2 ^ 32 = M) : Bounds U L M ↔ U L ∧ ∀ u, U u → u + 1 < 2 ^ 32 := by
  constructor
  · rintro ⟨first, within, _⟩
    refine ⟨first, fun u mem => ?_⟩
    have below := (within u mem).2
    rcases attained with rfl | ⟨v, _, rfl⟩ <;> omega
  · rintro ⟨first, ends⟩
    have above : ∀ u, U u → u + 1 ≤ M := fun u mem => by
      have := high u mem
      have := ends u mem
      omega
    refine ⟨first, fun u mem => ⟨(inside u mem).1, above u mem⟩, ?_⟩
    rcases attained with rfl | ⟨v, mem, rfl⟩
    · obtain ⟨u, mem⟩ := some'
      have := above u mem
      omega
    · have := ends v mem
      exact ⟨v, mem, by omega⟩

/-- With a base, the image has to end below the end of the address space where it is loaded; where it comes from, it
may have the last byte only if it has no other. -/
theorem bounds_based (positive : 0 < n) (small : n < 2 ^ 32) (low : L < 2 ^ 32)
    (inside : ∀ u, U u → L ≤ u ∧ u < 2 ^ 32) (high : ∀ u, U u → (u + 1) % 2 ^ 32 ≤ M)
    (attained : M = 0 ∨ ∃ u, U u ∧ (u + 1) % 2 ^ 32 = M)
    (places : ∀ a, A a ↔ ∃ u, U u ∧ a = (u + (n + 2 ^ 32 - L) % 2 ^ 32) % 2 ^ 32) :
    Bounds A n ((n + (M + 2 ^ 32 - L)) % 2 ^ 32) ↔
      U L ∧ ∀ u, U u → n + (u - L) + 1 < 2 ^ 32 ∧ (u + 1 = 2 ^ 32 → u = L) := by
  have moved : ∀ u, U u → (u + (n + 2 ^ 32 - L) % 2 ^ 32) % 2 ^ 32 = (n + (u - L)) % 2 ^ 32 := fun u mem => by
    have := (inside u mem).1
    omega
  constructor
  · rintro ⟨first, within, last⟩
    have below : ∀ u, U u → n ≤ (n + (u - L)) % 2 ^ 32 ∧ (n + (u - L)) % 2 ^ 32 < (n + (M + 2 ^ 32 - L)) % 2 ^ 32 :=
      fun u mem => by
        have := within _ ((places _).mpr ⟨u, mem, rfl⟩)
        rwa [moved u mem] at this
    obtain ⟨v, lowest, at'⟩ := (places _).mp first
    rw [moved v lowest] at at'
    have isLow : v = L := by
      have := inside v lowest
      omega
    subst isLow
    have above := high v lowest
    refine ⟨lowest, fun u mem => ?_⟩
    have within' := inside u mem
    have below' := below u mem
    have ends : n + (u - v) + 1 < 2 ^ 32 := by omega
    refine ⟨ends, fun top => ?_⟩
    by_contra other
    omega
  · rintro ⟨first, ends⟩
    have above : ∀ u, U u → n + (u - L) + 1 ≤ (n + (M + 2 ^ 32 - L)) % 2 ^ 32 := fun u mem => by
      have := inside u mem
      have := ends u mem
      have := high u mem
      rcases attained with rfl | ⟨w, mem', rfl⟩
      · omega
      · have := inside w mem'
        have := ends w mem'
        omega
    refine ⟨(places _).mpr ⟨L, first, by omega⟩, fun a found => ?_, ?_⟩
    · obtain ⟨u, mem, rfl⟩ := (places a).mp found
      have := ends u mem
      have := above u mem
      rw [moved u mem]
      omega
    · rcases attained with rfl | ⟨w, mem, rfl⟩
      · have := ends L first
        have := high L first
        exact ⟨_, (places _).mpr ⟨L, first, rfl⟩, by omega⟩
      · have := inside w mem
        have := ends w mem
        have := high L first
        have := ends L first
        refine ⟨_, (places _).mpr ⟨w, mem, rfl⟩, ?_⟩
        rw [moved w mem]
        omega

/-- The addresses of the image, as the file gives them. -/
def InImage (l : List Phdr) (u : Nat) : Prop := ∃ h ∈ segments l, ∃ i < h.filesz, u = h.paddr + i

theorem load_spec (formed : WellFormed t file) (loads : loadElfImage t base file = some r) : ∃ s s' : State,
    s.offset < 2 ^ 32 ∧ s.lowest = 2 ^ 32 - 1 ∧ s.highest = 0 ∧ s.written = [] ∧
      ((header t file).phnum ≠ 0 → s.offset = (header t file).phoff + phdrSize * (header t file).phnum ∧
        s.rest = file.drop s.offset) ∧
      (table t file).foldlM (loadSegment t (addrOffset base (table t file))) s = some s' ∧ r.written = s'.written ∧
      if base = 0 then r.loadAddress = s'.lowest ∧ r.loadAddressEnd = s'.highest
      else r.loadAddress = base.toNat ∧
        r.loadAddressEnd = (base.toNat + (s'.highest + 2 ^ 32 - s'.lowest)) % 2 ^ 32 := by
  rw [loadElfImage] at loads
  obtain ⟨⟨bytes, rest⟩, first, loads⟩ := Option.bind_eq_some_iff.mp loads
  rw [read] at first
  split at first
  swap
  · cases first
  obtain ⟨rfl, rfl⟩ := Prod.mk.inj (Option.some.inj first)
  change (if (header t file).type ≠ etExec then none else _) = _ at loads
  split at loads
  · cases loads
  split at loads
  · cases loads
  obtain ⟨rest, skips, loads⟩ := Option.bind_eq_some_iff.mp loads
  obtain ⟨⟨phdrs, rest'⟩, reads, loads⟩ := Option.bind_eq_some_iff.mp loads
  obtain ⟨s', run, same⟩ := Option.bind_eq_some_iff.mp loads
  change skipTo (header t file).phoff ehdrSize _ = _ at skips
  rw [skipTo, drop_drop] at skips
  split at skips
  swap
  · cases skips
  obtain rfl := Option.some.inj skips
  change readPhdrs t (header t file).phnum _ = _ at reads
  have tables : phdrs = table t file ∧ ((header t file).phnum ≠ 0 →
      rest' = file.drop ((header t file).phoff + phdrSize * (header t file).phnum)) := by
    by_cases empty : (header t file).phnum = 0
    · rw [empty] at reads
      obtain ⟨rfl, _⟩ := Prod.mk.inj (Option.some.inj reads)
      refine ⟨?_, fun some' => absurd empty some'⟩
      rw [table, empty]
      rfl
    · obtain ⟨behind, entries, _⟩ := formed.behind empty
      rw [Nat.add_sub_cancel' behind] at reads
      obtain ⟨rfl, rfl⟩ := readPhdrs_spec reads
      rw [table, entries]
      exact ⟨rfl, fun _ => rfl⟩
  obtain ⟨rfl, left⟩ := tables
  refine ⟨_, s', mod_lt _ (by decide), rfl, rfl, rfl, fun some' => ?_, run, ?_, ?_⟩
  · obtain ⟨behind, _, small⟩ := formed.behind some'
    have here : (max ehdrSize (t.ehdr (file.take ehdrSize)).phoff + phdrSize *
      (t.ehdr (file.take ehdrSize)).phnum) % 2 ^ 32 =
        (header t file).phoff + phdrSize * (header t file).phnum := by
      change (max ehdrSize (header t file).phoff + phdrSize * (header t file).phnum) % 2 ^ 32 = _
      rw [max_eq_right behind, mod_eq_of_lt small]
    rw [here]
    exact ⟨rfl, left some'⟩
  · obtain rfl := Option.some.inj same
    split <;> rfl
  · obtain rfl := Option.some.inj same
    by_cases absolute : base = 0 <;> simp [absolute]

theorem addrOffset_lt : addrOffset base l < 2 ^ 32 := by
  rw [addrOffset]
  split
  · exact mod_lt _ (by decide)
  · decide

/-- Exactly the places of the image have been written. -/
def SamePlaces (ao : Nat) (l : List Phdr) (written : List (Nat × UInt8)) : Prop :=
  ∀ a, (∃ x ∈ written, x.1 = a) ↔ ∃ u, InImage l u ∧ a = (u + ao) % 2 ^ 32

theorem LoadsImage.places (loads : LoadsImage t base file r) :
    SamePlaces (addrOffset base (table t file)) (table t file) r.written := by
  intro a
  constructor
  · rintro ⟨x, mem, rfl⟩
    obtain ⟨h, mem, i, less, at'⟩ := loads.others x mem
    exact ⟨_, ⟨h, mem, i, less, rfl⟩, at'⟩
  · rintro ⟨_, ⟨h, mem, i, less, rfl⟩, rfl⟩
    have stored := loads.contents h mem i less
    obtain ⟨b, get⟩ : ∃ b, file[h.offset + i]? = some b := ⟨_, stored fun _ => 0⟩
    have : Nontrivial UInt8 := ⟨0, 1, by decide⟩
    exact exists_of_store fun m => (Option.some.inj (get.symm.trans (stored m))).symm

theorem bounds_iff (inside : ∀ h ∈ segments (table t file), h.paddr + h.filesz ≤ 2 ^ 32)
    (lowest : s'.lowest = lowestOf (table t file) (2 ^ 32 - 1))
    (highest : Highest (addrOffset base (table t file)) s')
    (places : SamePlaces (addrOffset base (table t file)) (table t file) s'.written)
    (results : if base = 0 then r.loadAddress = s'.lowest ∧ r.loadAddressEnd = s'.highest
      else r.loadAddress = base.toNat ∧ r.loadAddressEnd = (base.toNat + (s'.highest + 2 ^ 32 - s'.lowest)) % 2 ^ 32)
    (some' : ∃ u, InImage (table t file) u) :
    Bounds (fun a => ∃ x ∈ s'.written, x.1 = a) r.loadAddress r.loadAddressEnd ↔
      InImage (table t file) s'.lowest ∧ ∀ u, InImage (table t file) u →
        if base = 0 then u + 1 < 2 ^ 32
        else base.toNat + (u - s'.lowest) + 1 < 2 ^ 32 ∧ (u + 1 = 2 ^ 32 → u = s'.lowest) := by
  obtain ⟨low, least, _⟩ := @lowestOf_spec (table t file) (2 ^ 32 - 1)
  rw [← lowest] at low least
  have within : ∀ u, InImage (table t file) u → s'.lowest ≤ u ∧ u < 2 ^ 32 := by
    rintro u ⟨h, mem, i, less, rfl⟩
    have := least h mem
    have := inside h mem
    omega
  have shifted : ∀ u, (((u + addrOffset base (table t file)) % 2 ^ 32 + 1) % 2 ^ 32 + 2 ^ 32 -
      addrOffset base (table t file)) % 2 ^ 32 = (u + 1) % 2 ^ 32 := fun u => by
    have := @addrOffset_lt base (table t file)
    omega
  have high : ∀ u, InImage (table t file) u → (u + 1) % 2 ^ 32 ≤ s'.highest := fun u mem => by
    obtain ⟨x, written, at'⟩ := (places _).mpr ⟨u, mem, rfl⟩
    have := highest.1 x written
    rwa [at', shifted] at this
  have attained : s'.highest = 0 ∨ ∃ u, InImage (table t file) u ∧ (u + 1) % 2 ^ 32 = s'.highest := by
    refine highest.2.imp_right ?_
    rintro ⟨x, written, same⟩
    obtain ⟨u, mem, at'⟩ := (places _).mp ⟨x, written, rfl⟩
    rw [at', shifted] at same
    exact ⟨u, mem, same⟩
  by_cases absolute : base = 0
  · simp only [if_pos absolute] at results ⊢
    have same : (fun a => ∃ x ∈ s'.written, x.1 = a) = InImage (table t file) := by
      funext a
      refine propext ((places a).trans ?_)
      rw [addrOffset, if_neg (by simpa using absolute)]
      constructor
      · rintro ⟨u, mem, rfl⟩
        rwa [Nat.add_zero, Nat.mod_eq_of_lt (within u mem).2]
      · intro mem
        exact ⟨a, mem, by rw [Nat.add_zero, Nat.mod_eq_of_lt (within a mem).2]⟩
    rw [results.1, results.2, same]
    exact bounds_absolute some' within high attained
  · simp only [if_neg absolute] at results ⊢
    rw [results.1, results.2]
    have positive : 0 < base.toNat := by
      refine Nat.pos_of_ne_zero fun zero => absolute (UInt32.toNat_inj.mp ?_)
      simpa using zero
    refine bounds_based positive base.toNat_lt (by omega) within high attained fun a => ?_
    rw [places a, addrOffset, if_pos absolute, ← lowest]

theorem ends_iff (inside : ∀ h ∈ segments l, h.paddr + h.filesz ≤ 2 ^ 32) (least : ∀ h ∈ segments l, L ≤ h.paddr) :
    (∀ u, InImage l u → if base = 0 then u + 1 < 2 ^ 32
      else base.toNat + (u - L) + 1 < 2 ^ 32 ∧ (u + 1 = 2 ^ 32 → u = L)) ↔
    ∀ h ∈ segments l, 0 < h.filesz → if base = 0 then h.paddr + h.filesz < 2 ^ 32
      else base.toNat + (h.paddr + h.filesz - L) < 2 ^ 32 ∧
        (h.paddr + h.filesz = 2 ^ 32 → h.paddr = L ∧ h.filesz = 1) := by
  constructor
  · intro ends h mem some'
    have last := ends (h.paddr + (h.filesz - 1)) ⟨h, mem, h.filesz - 1, by omega, rfl⟩
    have := inside h mem
    have := least h mem
    split at last
    · next absolute =>
      rw [if_pos absolute]
      omega
    · next based =>
      rw [if_neg based]
      omega
  · rintro ends u ⟨h, mem, i, less, rfl⟩
    have last := ends h mem (by omega)
    have := inside h mem
    have := least h mem
    split at last
    · next absolute =>
      rw [if_pos absolute]
      omega
    · next based =>
      rw [if_neg based]
      omega

/-- Nothing was moved or left out when the right places have been written and the image does not end at the end of the
address space, or is a single byte there. -/
theorem Trace.unmoved {ds : List (Phdr × Nat)} (steps : Trace ao l ds s s') (none' : s.written = [])
    (apart : (segments l).Pairwise fun h k =>
      0 < h.filesz → 0 < k.filesz → h.paddr + h.filesz ≤ k.paddr ∨ k.paddr + k.filesz ≤ h.paddr)
    (places : SamePlaces ao l s'.written)
    (ends : (∀ h ∈ segments l, 0 < h.filesz → h.paddr + h.filesz < 2 ^ 32) ∨
      ∀ h ∈ segments l, 0 < h.filesz → h.paddr + h.filesz = 2 ^ 32 ∧ h.filesz = 1) :
    ∀ y ∈ ds, 0 < y.1.filesz → y.2 = 0 ∧ 0 < y.1.copied := by
  have mem : ∀ y ∈ ds, y.1 ∈ segments l := fun y found => by
    rw [← steps.each]
    exact mem_map_of_mem found
  have went : ∀ y ∈ ds, ∀ i < y.1.copied, ∃ u, InImage l u ∧ y.1.place ao (y.2 + i) = (u + ao) % 2 ^ 32 :=
    fun y found i less => (places _).mp ((steps.places _).mpr (.inr ⟨y, found, i, less, rfl⟩))
  rcases ends with ends | ends
  · -- nothing has gone over the end of the address space, for its last byte is not of the image
    have below : ∀ y ∈ ds, 0 < y.1.copied → y.1.paddr + y.2 + y.1.copied < 2 ^ 32 := fun y found some' => by
      by_contra beyond
      have moved := steps.moved y found
      have shorter := copied_le y.1
      have end' := ends y.1 (mem y found) (by omega)
      obtain ⟨_, ⟨h, isSegment, i, less, rfl⟩, at'⟩ := went y found (2 ^ 32 - 1 - (y.1.paddr + y.2)) (by omega)
      have := ends h isSegment (by omega)
      rw [Phdr.place] at at'
      omega
    have apart' : ∀ i j : Fin ds.length, i ≠ j → 0 < ds[i].1.filesz → 0 < ds[j].1.filesz →
        ds[i].1.paddr + ds[i].1.filesz ≤ ds[j].1.paddr ∨ ds[j].1.paddr + ds[j].1.filesz ≤ ds[i].1.paddr := by
      rw [← steps.each, pairwise_map] at apart
      intro i j other some' some''
      rcases lt_or_gt_of_ne (fun same => other (Fin.ext same)) with less | less
      · exact pairwise_iff_getElem.mp apart i j i.2 j.2 less some' some''
      · exact (pairwise_iff_getElem.mp apart j i j.2 i.2 less some'' some').symm
    have kept : ∀ i : Fin ds.length, 0 < ds[i].1.filesz → ds[i].2 = 0 ∧ 0 < ds[i].1.copied :=
      Ecos.unmoved apart' (fun i => copied_le ds[i].1) (fun i some' => by
      have isSegment := mem ds[i] (getElem_mem i.2)
      obtain ⟨x, written, at'⟩ := (places _).mpr ⟨_, ⟨ds[i].1, isSegment, 0, some', rfl⟩, rfl⟩
      rcases (steps.places _).mp ⟨x, written, rfl⟩ with ⟨_, old, _⟩ | ⟨y, found, k, less, goes⟩
      · rw [none'] at old
        cases old
      · obtain ⟨j, bound, rfl⟩ := getElem_of_mem found
        have := below _ found (by omega)
        have := ends _ isSegment some'
        rw [at', Phdr.place] at goes
        exact ⟨⟨j, bound⟩, by simp only [Fin.getElem_fin] at *; omega, by simp only [Fin.getElem_fin] at *; omega⟩)
    intro y found some'
    obtain ⟨i, bound, rfl⟩ := getElem_of_mem found
    exact kept ⟨i, bound⟩ some'
  · intro y found some'
    obtain ⟨top, one⟩ := ends y.1 (mem y found) some'
    have copied : y.1.copied = 1 := by
      rw [Phdr.copied, if_pos (by omega), one]
    have moved := steps.moved y found
    obtain ⟨_, ⟨h, isSegment, i, less, rfl⟩, at'⟩ := went y found 0 (by omega)
    have := ends h isSegment (by omega)
    rw [Phdr.place] at at'
    omega

/-- A simple image is written to its places. -/
theorem Simple.contents (simple : Simple t base file) (formed : WellFormed t file)
    (start : (header t file).phnum ≠ 0 → s.offset = (header t file).phoff + phdrSize * (header t file).phnum ∧
      s.rest = file.drop s.offset) (none' : s.written = []) (small : s.offset < 2 ^ 32)
    (run : (table t file).foldlM (loadSegment t ao) s = some s') :
    (∀ h ∈ segments (table t file), ∀ i < h.filesz, ∀ m : Nat → UInt8,
      file[h.offset + i]? = some (store m s'.written (h.place ao i))) ∧ SamePlaces ao (table t file) s'.written := by
  have typed : ∀ h ∈ table t file, h.offset < 2 ^ 32 := fun h mem => (table_lt mem).1
  obtain ⟨written, enough⟩ : s'.written = (segments (table t file)).flatMap (fun h =>
      piece (2 ^ 32) (h.place ao 0) ((file.drop h.offset).take h.filesz)) ∧
        ∀ h ∈ segments (table t file), h.filesz ≤ (file.drop h.offset).length := by
    by_cases empty : (header t file).phnum = 0
    · have none'' : table t file = [] := by
        rw [table, empty]
        rfl
      rw [none''] at run ⊢
      obtain rfl := Option.some.inj run
      simp [segments, none']
    · obtain ⟨offset, rest⟩ := start empty
      have ahead : ∀ h ∈ segments (table t file), s.offset ≤ h.offset := fun h mem => by
        rw [offset]
        exact simple.behind h mem
      have := run_written rest (Nat.mod_eq_of_lt small).symm typed ahead formed.ascending simple.short run
      rwa [none', nil_append] at this
  have entries : ∀ x, x ∈ s'.written ↔ ∃ h ∈ segments (table t file), ∃ i < h.filesz,
      file[h.offset + i]? = some x.2 ∧ x.1 = h.place ao i := fun x => by
    rw [written, mem_flatMap]
    refine exists_congr fun h => and_congr_right fun mem => ?_
    rw [mem_piece place_lt]
    simp only [place_add, Nat.zero_add]
    constructor
    · rintro ⟨i, get, at'⟩
      have less := (List.getElem?_eq_some_iff.mp get).1
      rw [length_take] at less
      rw [getElem?_take_of_lt (by omega), getElem?_drop] at get
      exact ⟨i, by omega, get, at'⟩
    · rintro ⟨i, less, get, at'⟩
      exact ⟨i, by rw [getElem?_take_of_lt less, List.getElem?_drop, get], at'⟩
  have reads : ∀ h ∈ segments (table t file), ∀ i < h.filesz, ∃ b, file[h.offset + i]? = some b :=
    fun h mem i less => by
    have := enough h mem
    rw [length_drop] at this
    exact ⟨_, List.getElem?_eq_getElem (by omega)⟩
  constructor
  · intro h mem i less m
    obtain ⟨b, get⟩ := reads h mem i less
    rw [get]
    refine congrArg some (store_of_agree ⟨(_, b), (entries _).mpr ⟨h, mem, i, less, get, rfl⟩, rfl⟩ ?_).symm
    intro x found same
    obtain ⟨k, mem', j, less', get', at'⟩ := (entries x).mp found
    rw [at'] at same
    simp only [Phdr.place] at same
    have := formed.inside h mem
    have := formed.inside k mem'
    have equal : k = h := by
      by_contra other
      have : Std.Symm fun h k : Phdr =>
          0 < h.filesz → 0 < k.filesz → h.paddr + h.filesz ≤ k.paddr ∨ k.paddr + k.filesz ≤ h.paddr :=
        ⟨fun _ _ apart some' some'' => (apart some'' some').symm⟩
      have := formed.apart.forall mem' mem other (by omega) (by omega)
      omega
    subst equal
    have index : j = i := by omega
    rw [index, get] at get'
    exact (Option.some.inj get').symm
  · intro a
    constructor
    · rintro ⟨x, found, rfl⟩
      obtain ⟨h, mem, i, less, _, at'⟩ := (entries x).mp found
      exact ⟨_, ⟨h, mem, i, less, rfl⟩, at'⟩
    · rintro ⟨_, ⟨h, mem, i, less, rfl⟩, rfl⟩
      obtain ⟨b, get⟩ := reads h mem i less
      exact ⟨(_, b), (entries _).mpr ⟨h, mem, i, less, get, rfl⟩, rfl⟩

theorem Trace.behind {ds : List (Phdr × Nat)} (steps : Trace ao l ds s s')
    (kept : ∀ y ∈ ds, 0 < y.1.filesz → y.2 = 0 ∧ 0 < y.1.copied)
    (ascending : (segments l).Pairwise fun h k => h.offset + h.filesz ≤ k.offset) : ∀ h ∈ segments l,
      s.offset ≤ h.offset := by
  intro h mem
  have each := steps.each
  cases ds with
  | nil =>
    rw [← each] at mem
    cases mem
  | cons y ds =>
    have moved := steps.moved y (mem_cons_self ..)
    have zero : y.2 = 0 := by
      by_cases some' : 0 < y.1.filesz
      · exact (kept y (mem_cons_self ..) some').1
      · omega
    have first := steps.first y rfl zero
    rw [← each, map_cons] at mem ascending
    rcases mem_cons.mp mem with rfl | later
    · exact first
    · have := (pairwise_cons.mp ascending).1 h later
      omega

/-- A successful load has written the image to its places, nothing else, and found its bounds, if and only if the
image is simple. -/
theorem load_elf_image (formed : WellFormed t file) (loads : loadElfImage t base file = some r) :
    LoadsImage t base file r ↔ Simple t base file := by
  obtain ⟨s, s', small, low, high, none', start, run, written, results⟩ := load_spec formed loads
  obtain ⟨ds, steps⟩ := trace small (fun h mem => (table_lt mem).1) run
  have lowest : s'.lowest = lowestOf (table t file) (2 ^ 32 - 1) := by
    rw [steps.lowest, low]
  have highest : Highest (addrOffset base (table t file)) s' :=
    steps.highest ⟨by simp [none'], .inl high⟩
  have least : ∀ h ∈ segments (table t file), s'.lowest ≤ h.paddr := by
    rw [lowest]
    exact (lowestOf_spec _).2.1
  have ends : (∀ u, InImage (table t file) u → _) ↔ _ := @ends_iff base (table t file) s'.lowest formed.inside least
  have someIff : (∃ h ∈ segments (table t file), 0 < h.filesz) ↔ ∃ u, InImage (table t file) u :=
    ⟨fun ⟨h, mem, some'⟩ => ⟨_, h, mem, 0, some', rfl⟩, fun ⟨_, h, mem, i, less, _⟩ => ⟨h, mem, by omega⟩⟩
  constructor
  · intro image
    have places := image.places
    rw [written] at places
    have bounded : (∃ u, InImage (table t file) u) → InImage (table t file) s'.lowest ∧
        ∀ h ∈ segments (table t file), 0 < h.filesz → if base = 0 then h.paddr + h.filesz < 2 ^ 32
          else base.toNat + (h.paddr + h.filesz - s'.lowest) < 2 ^ 32 ∧
            (h.paddr + h.filesz = 2 ^ 32 → h.paddr = s'.lowest ∧ h.filesz = 1) := fun some' => by
      rw [← ends, ← bounds_iff formed.inside lowest highest places results some']
      obtain ⟨u, mem⟩ := some'
      obtain ⟨x, found, _⟩ := (places _).mpr ⟨u, mem, rfl⟩
      have bounds := image.bounds
      rw [written] at bounds
      obtain ⟨first, within, y, last, at'⟩ := bounds (ne_nil_of_mem found)
      exact ⟨first, by rintro a ⟨z, mem, rfl⟩; exact within z mem, _, ⟨y, last, rfl⟩, at'⟩
    have single : (∀ h ∈ segments (table t file), 0 < h.filesz → h.paddr + h.filesz < 2 ^ 32) ∨
        ∀ h ∈ segments (table t file), 0 < h.filesz → h.paddr + h.filesz = 2 ^ 32 ∧ h.filesz = 1 := by
      by_cases all : ∀ h ∈ segments (table t file), 0 < h.filesz → h.paddr + h.filesz < 2 ^ 32
      · exact .inl all
      · simp only [not_forall] at all
        obtain ⟨h, mem, some', top⟩ := all
        have bound := (bounded (someIff.mp ⟨h, mem, some'⟩)).2 h mem some'
        have := formed.inside h mem
        split at bound
        · omega
        · refine .inr fun k mem' some'' => ?_
          have := least k mem'
          have := formed.inside k mem'
          omega
    have kept := steps.unmoved none' formed.apart places single
    refine ⟨fun h mem => ?_, fun h mem => ?_, fun some' => ?_, fun h mem some' => ?_⟩
    · have filled : (header t file).phnum ≠ 0 := fun empty => by
        rw [segments, table, empty] at mem
        cases mem
      rw [← (start filled).1]
      exact steps.behind kept formed.ascending h mem
    · by_cases some' : 0 < h.filesz
      · rw [← steps.each] at mem
        obtain ⟨y, found, rfl⟩ := List.mem_map.mp mem
        have copied := (kept y found some').2
        rw [Phdr.copied] at copied
        split at copied
        · next short => exact short
        · omega
      · omega
    · obtain ⟨⟨h, mem, i, less, at'⟩, _⟩ := bounded (someIff.mp some')
      have := least h mem
      exact ⟨h, mem, by omega, by omega⟩
    · rw [← lowest]
      exact (bounded (someIff.mp ⟨h, mem, some'⟩)).2 h mem some'
  · intro simple
    obtain ⟨contents, places⟩ := simple.contents formed start none' small run
    refine ⟨by rwa [written], ?_, ?_⟩
    · rw [written]
      intro x mem
      obtain ⟨_, ⟨h, isSegment, i, less, rfl⟩, at'⟩ := (places _).mp ⟨x, mem, rfl⟩
      exact ⟨h, isSegment, i, less, at'⟩
    · rw [written]
      intro filled
      obtain ⟨x, mem⟩ := exists_mem_of_ne_nil _ filled
      obtain ⟨u, inImage, _⟩ := (places _).mp ⟨x, mem, rfl⟩
      have lowestIn : InImage (table t file) s'.lowest := by
        obtain ⟨h, isSegment, some', at'⟩ := simple.lowest (someIff.mpr ⟨u, inImage⟩)
        exact ⟨h, isSegment, 0, some', by rw [lowest, at', Nat.add_zero]⟩
      have simpleEnds := simple.ends
      rw [← lowest] at simpleEnds
      obtain ⟨first, within, a, ⟨y, found, rfl⟩, last⟩ := (bounds_iff formed.inside lowest highest places results
        ⟨u, inImage⟩).mpr ⟨lowestIn, ends.mpr simpleEnds⟩
      exact ⟨first, fun z mem => within _ ⟨z, mem, rfl⟩, y, found, last⟩

def arm : Target := ⟨false, fun _ => true⟩

/-- A file with one loadable segment, for the address 0x1000, and some bytes behind the program header. -/
def oneSegment (offset filesz : UInt8) (behind : Nat) : List UInt8 :=
  [0x7F, 0x45, 0x4C, 0x46, 1, 1, 1, 0, 0, 0, 0, 0, 0, 0, 0, 0] ++ [2, 0, 40, 0, 1, 0, 0, 0] ++
    [0, 16, 0, 0, 52, 0, 0, 0, 0, 0, 0, 0, 0, 0, 0, 0] ++ [52, 0, 32, 0, 1, 0, 0, 0, 0, 0, 0, 0] ++
    [1, 0, 0, 0, offset, 0, 0, 0, 0, 16, 0, 0, 0, 16, 0, 0] ++
    [filesz, 0, 0, 0, filesz, 0, 0, 0, 5, 0, 0, 0, 1, 0, 0, 0] ++ List.replicate behind 9

theorem wellFormed_of_one (one : table t file = [h]) (behind : (header t file).phoff = ehdrSize ∧
    (header t file).phentsize = phdrSize ∧ (header t file).phnum = 1) (inside : h.paddr + h.filesz ≤ 2 ^ 32) :
    WellFormed t file := by
  obtain ⟨phoff, entries, single⟩ := behind
  have atMost : segments [h] = [h] ∨ segments [h] = [] := by
    by_cases isLoad : h.type = ptLoad
    · exact .inl (segments_load isLoad)
    · exact .inr (segments_other isLoad)
  refine ⟨fun _ => ?_, ?_, ?_, ?_⟩
  · rw [phoff, entries, single]
    decide
  · rw [one]
    rcases atMost with is | is <;> simp [is]
  · rw [one]
    rcases atMost with is | is <;> simp [is]
  · rw [one]
    intro k mem
    obtain rfl := mem_singleton.mp (mem_of_mem_filter mem)
    exact inside

theorem load_elf_image_behind : LoadsImage arm 0 (oneSegment 84 2 2)
    ⟨0x1000, 0x1002, 0x1000, [(0x1000, 9), (0x1001, 9)]⟩ ↔ Simple arm 0 (oneSegment 84 2 2) :=
  load_elf_image (@wellFormed_of_one arm _ ⟨1, 84, 0x1000, 2⟩ (by decide +kernel) (by decide +kernel) (by decide))
    (by decide +kernel)

/-- A segment that includes the headers: its first 84 bytes are not loaded to its address, and what is behind it in
the file is loaded instead. -/
theorem headers_not_loaded : WellFormed arm (oneSegment 0 84 84) ∧
    ∃ r, loadElfImage arm 0 (oneSegment 0 84 84) = some r ∧ ¬LoadsImage arm 0 (oneSegment 0 84 84) r := by
  have one : table arm (oneSegment 0 84 84) = [⟨1, 0, 0x1000, 84⟩] := by
    decide +kernel
  refine ⟨wellFormed_of_one one (by decide +kernel) (by decide), ⟨0x1000, 0x10A8, 0x1000,
    (List.range 84).map fun i => (0x1054 + i, 9)⟩, by decide +kernel, fun image => ?_⟩
  obtain ⟨x, mem, at'⟩ := (image.places _).mpr ⟨_, ⟨⟨1, 0, 0x1000, 84⟩, by rw [one]; decide, 0, by decide, rfl⟩, rfl⟩
  obtain ⟨i, _, rfl⟩ := List.mem_map.mp mem
  rw [one, show addrOffset 0 [⟨1, 0, 0x1000, 84⟩] = 0 from rfl] at at'
  dsimp only at at'
  omega

end Ecos.Redboot.Elf
