import Mathlib.Data.List.Pairwise
import Ecos.Lib.Image

namespace Ecos.Redboot.Srec

def newline : UInt8 := 10

/-- The letter S. -/
def start : UInt8 := 83

def isHex (c : UInt8) : Bool :=
  48 ≤ c.toNat ∧ c.toNat ≤ 57 ∨ 65 ≤ c.toNat ∧ c.toNat ≤ 70 ∨ 97 ≤ c.toNat ∧ c.toNat ≤ 102

def fromHex (c : UInt8) : Nat :=
  if 48 ≤ c.toNat ∧ c.toNat ≤ 57 then c.toNat - 48
  else if 97 ≤ c.toNat ∧ c.toNat ≤ 102 then c.toNat - 97 + 10
  else if 65 ≤ c.toNat ∧ c.toNat ≤ 70 then c.toNat - 65 + 10
  else 0

/-- The value -1 of `_hex2`, as a word. -/
def bad : Nat := 2 ^ 32 - 1

/-- `_hex2`, from the value so far: the value, the sum, and what is left of the stream. -/
def hex2 : Nat → Nat → Nat → List UInt8 → Nat × Nat × List UInt8
  | 0, val, sum, rest => (val, sum, rest)
  | len + 1, val, sum, c1 :: c2 :: rest =>
    if isHex c1 && isHex c2 then
      let byte := 16 * fromHex c1 + fromHex c2
      hex2 len ((val * 256 + byte) % 2 ^ 32) (sum + byte) rest
    else (bad, sum, rest)
  | _ + 1, _, sum, _ => (bad, sum, [])

/-- The loop over the data of a record, which is given the number of bytes, the address and the sum so far. -/
def dataLoop (valid : Nat → Bool) : Nat → Nat → Nat → List UInt8 → List (Nat × UInt8) →
    Nat × Nat × List UInt8 × List (Nat × UInt8)
  | 0, addr, sum, rest, written => (addr, sum, rest, written)
  | count + 1, addr, sum, rest, written =>
    let (val, sum, rest) := hex2 1 0 sum rest
    if valid addr then dataLoop valid count ((addr + 1) % 2 ^ 32) sum rest (written ++ [(addr, UInt8.ofNat val)])
    else dataLoop valid count addr sum rest written

/-- The variables of `load_srec_image`, and the bytes that have been written. -/
structure State where
  rest : List UInt8
  firstAddr : Bool
  addrOffset : Nat
  highest : Nat
  lowest : Nat
  written : List (Nat × UInt8)

/-- What a load has done when it has come to the last record. -/
structure Loaded where
  loadAddress : Nat
  loadAddressEnd : Nat
  entryAddress : Nat
  written : List (Nat × UInt8)

/-- A record is the cause for the function to return, with success or not, or the rest of its line is skipped. -/
inductive Outcome
  | failed
  | loaded (r : Loaded)
  | passed (s : State)

/-- The bytes of the address of a record of a type: `type-'1'+2` and `'9'-type+2`. -/
def width (type : UInt8) : Nat :=
  if 49 ≤ type.toNat ∧ type.toNat ≤ 51 then type.toNat - 49 + 2
  else if 55 ≤ type.toNat ∧ type.toNat ≤ 57 then 57 - type.toNat + 2
  else 2

/-- `addr_offset`, once the first address is known. -/
def State.offsetFrom (s : State) (base : UInt32) (addr : Nat) : Nat :=
  if s.firstAddr then (if base ≠ 0 then (base.toNat + 2 ^ 32 - addr) % 2 ^ 32 else 0) else s.addrOffset

/-- The `case` of the types 1 to 3. -/
def dataRecord (valid : Nat → Bool) (base : UInt32) (type : UInt8) (count sum : Nat) (rest : List UInt8) (s : State) :
    Outcome :=
  let (addr, sum, rest) := hex2 (width type) 0 sum rest
  let addrOffset := s.offsetFrom base addr
  let lowest := min s.lowest addr
  if valid ((addr + addrOffset) % 2 ^ 32) then
    let (addr, sum, rest, written) :=
      dataLoop valid (count - (width type + 1)) ((addr + addrOffset) % 2 ^ 32) sum rest s.written
    let (cksum, _, rest) := hex2 1 0 0 rest
    if 255 - cksum % 256 ≠ sum % 256 then .failed
    else .passed ⟨rest, false, addrOffset, max s.highest ((addr + 2 ^ 32 - addrOffset) % 2 ^ 32), lowest, written⟩
  else .failed

/-- The `case` of the types 7 to 9. -/
def lastRecord (base : UInt32) (type : UInt8) (rest : List UInt8) (s : State) : Outcome :=
  let (addr, _, _) := hex2 (width type) 0 0 rest
  .loaded (if base ≠ 0 then
    ⟨base.toNat, (base.toNat + (s.highest + 2 ^ 32 - s.lowest)) % 2 ^ 32,
      (base.toNat + (addr + 2 ^ 32 - s.lowest)) % 2 ^ 32, s.written⟩
  else ⟨s.lowest, s.highest, addr, s.written⟩)

/-- The body of the loop of `load_srec_image`, without the skipping of the rest of the line. -/
def record (valid : Nat → Bool) (base : UInt32) (s : State) : Outcome :=
  match s.rest with
  | [] => .failed
  | c :: rest =>
    if c = 0 then .failed
    else if c ≠ start then .failed
    else
      let type := rest.headD 255
      let (count, sum, rest) := hex2 1 0 0 rest.tail
      if count = bad then .failed
      else if type = 48 then .passed { s with rest := rest }
      else if 49 ≤ type.toNat ∧ type.toNat ≤ 51 then dataRecord valid base type count sum rest s
      else if 55 ≤ type.toNat ∧ type.toNat ≤ 57 then lastRecord base type rest s
      else .failed

/-- `while ((c = (*getc)()) != '\\n')`; at its end the stream gives -1 again and again. -/
def skipLine : Nat → List UInt8 → Option (List UInt8)
  | 0, _ => none
  | fuel + 1, [] => skipLine fuel []
  | fuel + 1, c :: rest => if c = newline then some rest else skipLine fuel rest

/-- `load_srec_image`; `none` if there is not enough fuel, `some none` if it fails. -/
def load (valid : Nat → Bool) (base : UInt32) : Nat → State → Option (Option Loaded)
  | 0, _ => none
  | fuel + 1, s =>
    match record valid base s with
    | .failed => some none
    | .loaded r => some (some r)
    | .passed s => do
      let rest ← skipLine fuel s.rest
      load valid base fuel { s with rest := rest }

def initial (input : List UInt8) : State := ⟨input, true, 0, 0, 2 ^ 32 - 1, []⟩

/-- `load_srec_image` comes to an end on a stream. -/
def Terminates (valid : Nat → Bool) (base : UInt32) (input : List UInt8) : Prop :=
  ∃ fuel, (load valid base fuel (initial input)).isSome = true

def Loads (valid : Nat → Bool) (base : UInt32) (input : List UInt8) (r : Loaded) : Prop :=
  ∃ fuel, load valid base fuel (initial input) = some (some r)

/-- The bytes that pairs of hexadecimal digits spell. -/
def bytesOf : List UInt8 → Option (List Nat)
  | [] => some []
  | [_] => none
  | c1 :: c2 :: rest => if isHex c1 && isHex c2 then (bytesOf rest).map ((16 * fromHex c1 + fromHex c2) :: ·) else none

def numberOf (bytes : List Nat) : Nat := bytes.foldl (fun n b => n * 256 + b) 0

/-- A line is a record of a type, but for the checksum: the digits behind the type spell the count of what follows, the
address, the data and the checksum. -/
def Counted (type : UInt8) (address data : List Nat) (cksum : Nat) (line : List UInt8) : Prop :=
  ∃ digits behind, line = start :: type :: (digits ++ behind) ∧ (∀ c ∈ behind.head?, isHex c = false) ∧
    address.length = width type ∧
    bytesOf digits = some ((width type + data.length + 1) :: (address ++ data ++ [cksum]))

/-- The checksum of a record is right. -/
def Summed (type : UInt8) (address data : List Nat) (cksum : Nat) : Prop :=
  (width type + data.length + 1 + address.sum + data.sum + cksum) % 256 = 255

def ValidRecord (line : List UInt8) : Prop :=
  ∃ type address data cksum, Counted type address data cksum line ∧ Summed type address data cksum

/-- A line has one of the types 7 to 9. -/
def isLast : List UInt8 → Bool
  | c :: type :: _ => c = start ∧ 55 ≤ type.toNat ∧ type.toNat ≤ 57
  | _ => false

/-- The lines before the one that ends the records. -/
def recordsOf (input : List UInt8) : List (List UInt8) := (input.splitOn newline).takeWhile fun line => !isLast line

/-- A record with a part of a memory image. -/
structure Piece where
  type : UInt8
  address : List Nat
  data : List Nat
  cksum : Nat
  line : List UInt8

def Piece.addr (p : Piece) : Nat := numberOf p.address

structure Piece.Proper (p : Piece) : Prop where
  type : 49 ≤ p.type.toNat ∧ p.type.toNat ≤ 51
  counted : Counted p.type p.address p.data p.cksum p.line
  summed : Summed p.type p.address p.data p.cksum
  line : newline ∉ p.line
  inside : p.addr + p.data.length ≤ 2 ^ 32

/-- The stream is a memory image in records: the pieces, which do not overlap, and a last record. -/
structure IsImage (input : List UInt8) (pieces : List Piece) (entry : Nat) : Prop where
  proper : ∀ p ∈ pieces, p.Proper
  apart : pieces.Pairwise fun p q => 0 < p.data.length → 0 < q.data.length →
    p.addr + p.data.length ≤ q.addr ∨ q.addr + q.data.length ≤ p.addr
  text : ∃ type address cksum last rest, input = pieces.flatMap (fun p => p.line ++ [newline]) ++ (last ++ rest) ∧
    55 ≤ type.toNat ∧ type.toNat ≤ 57 ∧ Counted type address [] cksum last ∧ Summed type address [] cksum ∧
    entry = numberOf address

/-- Exactly the image has been written to its addresses, and they are bounded by the ones that have been saved. -/
structure LoadsImage (pieces : List Piece) (entry : Nat) (r : Loaded) : Prop where
  contents : ∀ p ∈ pieces, ∀ i b, p.data[i]? = some b → ∀ m : Nat → UInt8, (store m r.written (p.addr + i)).toNat = b
  others : ∀ x ∈ r.written, ∃ p ∈ pieces, ∃ i < p.data.length, x.1 = p.addr + i
  bounds : r.written ≠ [] → (∃ x ∈ r.written, x.1 = r.loadAddress) ∧
    (∀ x ∈ r.written, r.loadAddress ≤ x.1 ∧ x.1 < r.loadAddressEnd) ∧ ∃ x ∈ r.written, x.1 + 1 = r.loadAddressEnd
  entryAddress : r.entryAddress = entry

/-- The three things that are said about loading. -/
structure Meets (valid : Nat → Bool) (base : UInt32) (input : List UInt8) : Prop where
  terminates : Terminates valid base input
  validates : ∀ r, Loads valid base input r → ∀ line ∈ recordsOf input, ValidRecord line
  loads : base = 0 → ∀ pieces entry, IsImage input pieces entry →
    ∃ r, Loads valid base input r ∧ LoadsImage pieces entry r

/-- What is behind the next end of a line. -/
def behindLine : List UInt8 → Option (List UInt8)
  | [] => none
  | c :: rest => if c = newline then some rest else behindLine rest

/-- The lines that the loader comes to, from one on. -/
inductive Comes (valid : Nat → Bool) (base : UInt32) : State → State → Prop
  | here {s : State} : Comes valid base s s
  | next {s s₁ s₂ : State} {rest : List UInt8} : record valid base s = .passed s₁ → behindLine s₁.rest = some rest →
      Comes valid base { s₁ with rest := rest } s₂ → Comes valid base s s₂

/-- What `load_srec_image` does not look at: a record without the type 1 to 3 has to be valid, one with it has to have
the digits that its count says. -/
def Checked (line : List UInt8) : Prop :=
  ∀ type rest, line = start :: type :: rest →
    (type = 48 → ValidRecord line) ∧
    (49 ≤ type.toNat ∧ type.toNat ≤ 51 → ∃ address data cksum, Counted type address data cksum line)

/-- An image in valid memory, that does not go up to the last address, and whose empty pieces lie between the others.
-/
structure Plain (valid : Nat → Bool) (pieces : List Piece) : Prop where
  starts : ∀ p ∈ pieces, valid p.addr
  bytes : ∀ p ∈ pieces, ∀ i < p.data.length, valid (p.addr + i)
  ends : ∀ p ∈ pieces, 0 < p.data.length → p.addr + p.data.length < 2 ^ 32
  empty : (∃ p ∈ pieces, 0 < p.data.length) → ∀ q ∈ pieces,
    (∃ p ∈ pieces, 0 < p.data.length ∧ p.addr ≤ q.addr) ∧
      ∃ p ∈ pieces, 0 < p.data.length ∧ q.addr ≤ p.addr + p.data.length

/-- Every record that passes has an end of line behind it, and if the stream is loaded, what is not looked at is
right. -/
structure Sound (valid : Nat → Bool) (base : UInt32) (input : List UInt8) : Prop where
  ended : ∀ s, Comes valid base (initial input) s → ∀ s', record valid base s = .passed s' → newline ∈ s'.rest
  checked : ∀ r, Loads valid base input r → ∀ line ∈ recordsOf input, Checked line
  plain : base = 0 → ∀ pieces entry, IsImage input pieces entry → Plain valid pieces

open List Option Nat UInt8
variable {valid : Nat → Bool} {base : UInt32} {input rest digits more behind line : List UInt8} {s s' s₁ s₂ :
  State} {bytes xs ys address data : List Nat} {fuel fuel' n len v sum addr cksum : Nat} {x : Option Loaded} {r :
  Loaded} {type : UInt8} {written : List (Nat × UInt8)}

theorem behindLine_append (line' : newline ∉ line) : behindLine (line ++ newline :: rest) = some rest := by
  induction line with
  | nil => simp [behindLine]
  | cons c line ih =>
    rw [mem_cons, not_or] at line'
    rw [cons_append, behindLine, if_neg fun same => line'.1 same.symm, ih line'.2]

theorem behindLine_none (line' : newline ∉ line) : behindLine line = none := by
  induction line with
  | nil => rfl
  | cons c line ih =>
    rw [mem_cons, not_or] at line'
    rw [behindLine, if_neg fun same => line'.1 same.symm, ih line'.2]

theorem behindLine_length (found : behindLine line = some rest) : rest.length < line.length := by
  induction line with
  | nil => cases found
  | cons c line ih =>
    rw [behindLine] at found
    split at found
    · obtain rfl := some.inj found
      simp
    · have := ih found
      rw [length_cons]
      omega

theorem newline_mem_iff : newline ∈ line ↔ ∃ rest, behindLine line = some rest := by
  constructor
  · intro mem
    obtain ⟨a, b, rfl, absent⟩ := eq_append_cons_of_mem mem
    exact ⟨b, behindLine_append absent⟩
  · rintro ⟨rest, found⟩
    by_contra absent
    rw [behindLine_none absent] at found
    cases found

theorem recordsOf_typed (rest : List UInt8) (typed : newline ≠ type) : ∃ line, newline ∉ start :: type :: line ∧
    (rest = line ∧ recordsOf (start :: type :: rest) = (if isLast (start :: type :: line) then [] else
        [start :: type :: line]) ∨
      ∃ more, rest = line ++ newline :: more ∧ recordsOf (start :: type :: rest) =
        if isLast (start :: type :: line) then [] else (start :: type :: line) :: recordsOf more) := by
  have absent : ∀ {line}, newline ∉ line → newline ∉ start :: type :: line := fun absent => by
    simp only [mem_cons, not_or]
    exact ⟨by decide, typed, absent⟩
  by_cases mem : newline ∈ rest
  · obtain ⟨line, more, rfl, absent'⟩ := eq_append_cons_of_mem mem
    refine ⟨line, absent absent', .inr ⟨more, rfl, ?_⟩⟩
    have split := splitOn_append_cons_self_of_not_mem (absent absent') more
    rw [cons_append, cons_append] at split
    rw [recordsOf, split, takeWhile_cons]
    cases isLast (start :: type :: line) <;> rfl
  · refine ⟨rest, absent mem, .inl ⟨rfl, ?_⟩⟩
    rw [recordsOf, splitOn_eq_singleton (absent mem), takeWhile_cons]
    cases isLast (start :: type :: rest) <;> rfl

theorem skipLine_iff : (∃ fuel, skipLine fuel line = some rest) ↔ behindLine line = some rest := by
  constructor
  · rintro ⟨fuel, skips⟩
    induction fuel generalizing line with
    | zero => cases skips
    | succ fuel ih =>
      cases line with
      | nil => exact ih skips
      | cons c line =>
        rw [skipLine] at skips
        rw [behindLine]
        split at skips
        · next is => rw [if_pos is, skips]
        · next other => rw [if_neg other, ih skips]
  · intro found
    refine ⟨line.length, ?_⟩
    induction line with
    | nil => cases found
    | cons c line ih =>
      rw [behindLine] at found
      rw [length_cons, skipLine]
      split at found
      · next is => rw [if_pos is, found]
      · next other => rw [if_neg other, ih found]

theorem skipLine_mono (skips : skipLine fuel line = some rest)
    (le : fuel ≤ fuel') : skipLine fuel' line = some rest := by
  induction fuel generalizing fuel' line with
  | zero => cases skips
  | succ fuel ih =>
    obtain ⟨more, rfl⟩ : ∃ more, fuel' = more + 1 := ⟨fuel' - 1, by omega⟩
    cases line with
    | nil => exact ih skips (by omega)
    | cons c line =>
      rw [skipLine] at skips ⊢
      split at skips
      · next is => rw [if_pos is, skips]
      · next other => rw [if_neg other, ih skips (by omega)]

theorem load_mono (loads : load valid base fuel s = some x) (le : fuel ≤ fuel') : load valid base fuel' s = some x := by
  induction fuel generalizing fuel' s with
  | zero => cases loads
  | succ fuel ih =>
    obtain ⟨more, rfl⟩ : ∃ more, fuel' = more + 1 := ⟨fuel' - 1, by omega⟩
    rw [load] at loads ⊢
    split at loads
    · exact loads
    · exact loads
    · obtain ⟨rest, skips, goesOn⟩ := bind_eq_some_iff.mp loads
      simp only [bind_eq_bind, skipLine_mono skips (show fuel ≤ more by omega), bind_some]
      exact ih goesOn (by omega)

/-- How a load ends. -/
inductive Ends (valid : Nat → Bool) (base : UInt32) : State → Option Loaded → Prop
  | failed {s : State} : record valid base s = .failed → Ends valid base s none
  | loaded {s : State} {r : Loaded} : record valid base s = .loaded r → Ends valid base s (some r)
  | passed {s s₁ : State} {rest : List UInt8} {x : Option Loaded} : record valid base s = .passed s₁ →
      behindLine s₁.rest = some rest → Ends valid base { s₁ with rest := rest } x → Ends valid base s x

theorem ends_iff : Ends valid base s x ↔ ∃ fuel, load valid base fuel s = some x := by
  constructor
  · intro ends
    induction ends with
    | failed is => exact ⟨1, by rw [load, is]⟩
    | loaded is => exact ⟨1, by rw [load, is]⟩
    | passed is behind _ ih =>
      obtain ⟨fuel, loads⟩ := ih
      obtain ⟨fuel', skips⟩ := skipLine_iff.mpr behind
      refine ⟨max fuel fuel' + 1, ?_⟩
      rw [load, is]
      simp only [bind_eq_bind, skipLine_mono skips (Nat.le_max_right ..), bind_some]
      exact load_mono loads (Nat.le_max_left ..)
  · rintro ⟨fuel, loads⟩
    induction fuel generalizing s with
    | zero => cases loads
    | succ fuel ih =>
      rw [load] at loads
      split at loads
      · next is =>
        obtain rfl := some.inj loads
        exact .failed is
      · next is =>
        obtain rfl := some.inj loads
        exact .loaded is
      · next is =>
        obtain ⟨rest, skips, goesOn⟩ := bind_eq_some_iff.mp loads
        exact .passed is (skipLine_iff.mp ⟨fuel, skips⟩) (ih goesOn)

theorem loads_iff : Loads valid base input r ↔ Ends valid base (initial input) (some r) := ends_iff.symm

theorem hex2_length : (hex2 n v sum rest).2.2.length ≤ rest.length := by
  induction n generalizing v sum rest with
  | zero => exact Nat.le_refl _
  | succ n ih =>
    match rest with
    | [] => exact Nat.le_refl _
    | [_] => exact Nat.zero_le _
    | c1 :: c2 :: rest =>
      rw [hex2]
      simp only [length_cons]
      split
      · exact Nat.le_trans ih (by omega)
      · dsimp only
        omega

theorem dataLoop_length : (dataLoop valid n addr sum rest written).2.2.1.length ≤ rest.length := by
  induction n generalizing addr sum rest written with
  | zero => exact Nat.le_refl _
  | succ n ih =>
    rw [dataLoop]
    dsimp only
    split <;> exact Nat.le_trans ih hex2_length

theorem ends_unique {y : Option Loaded} (ends : Ends valid base s x) (ends' : Ends valid base s y) : x = y := by
  obtain ⟨fuel, loads⟩ := ends_iff.mp ends
  obtain ⟨fuel', loads'⟩ := ends_iff.mp ends'
  have one := load_mono loads (Nat.le_max_left fuel fuel')
  have other := load_mono loads' (Nat.le_max_right fuel fuel')
  exact some.inj (one.symm.trans other)

theorem record_length (is : record valid base s = .passed s₁) : s₁.rest.length < s.rest.length := by
  rw [record] at is
  split at is
  · cases is
  · next c rest at' =>
    rw [at', length_cons]
    have tail : rest.tail.length ≤ rest.length := by simp
    have count : (hex2 1 0 0 rest.tail).2.2.length ≤ rest.tail.length := hex2_length
    dsimp only at is
    split at is
    · cases is
    split at is
    · cases is
    split at is
    · cases is
    split at is
    · obtain rfl := Outcome.passed.inj is
      exact Nat.lt_succ_of_le (Nat.le_trans count tail)
    split at is
    · rw [dataRecord] at is
      dsimp only at is
      split at is
      · split at is
        · cases is
        · obtain rfl := Outcome.passed.inj is
          exact Nat.lt_succ_of_le (Nat.le_trans hex2_length (Nat.le_trans dataLoop_length
            (Nat.le_trans hex2_length (Nat.le_trans count tail))))
      · cases is
    split at is <;> cases is

theorem terminates_iff : Terminates valid base input ↔
    ∀ s, Comes valid base (initial input) s → ∀ s', record valid base s = .passed s' → newline ∈ s'.rest := by
  have ends : Terminates valid base input ↔ ∃ x, Ends valid base (initial input) x := by
    simp only [Terminates, isSome_iff_exists, ends_iff]
    exact exists_comm
  rw [ends]
  generalize initial input = s
  constructor
  · rintro ⟨x, ends⟩ s₁ comes s₂ is
    induction comes with
    | here =>
      cases ends with
      | failed is' => rw [is] at is'; cases is'
      | loaded is' => rw [is] at is'; cases is'
      | passed is' behind _ =>
        rw [is] at is'
        obtain rfl := Outcome.passed.inj is'
        exact newline_mem_iff.mpr ⟨_, behind⟩
    | next was behind _ ih =>
      cases ends with
      | failed is' => rw [was] at is'; cases is'
      | loaded is' => rw [was] at is'; cases is'
      | passed is' behind' later =>
        rw [was] at is'
        obtain rfl := Outcome.passed.inj is'
        rw [behind] at behind'
        obtain rfl := some.inj behind'
        exact ih later is
  · intro ended
    induction measure : s.rest.length using Nat.strongRecOn generalizing s with
    | ind n ih =>
      cases is : record valid base s with
      | failed => exact ⟨_, .failed is⟩
      | loaded r => exact ⟨_, .loaded is⟩
      | passed s₁ =>
        obtain ⟨rest, behind⟩ := newline_mem_iff.mp (ended s .here s₁ is)
        have shorter := record_length is
        have shorter' := behindLine_length behind
        obtain ⟨x, later⟩ := ih rest.length (by omega) { s₁ with rest := rest }
          (fun s₂ comes => ended s₂ (.next is behind comes)) rfl
        exact ⟨x, .passed is behind later⟩

theorem fromHex_lt (c : UInt8) : fromHex c < 16 := by
  rw [fromHex]
  split
  · omega
  split
  · omega
  split <;> omega

theorem bytesOf_cons (spelt : bytesOf digits = some (v :: bytes)) : ∃ c1 c2 rest, digits = c1 :: c2 :: rest ∧
    (isHex c1 && isHex c2) = true ∧ v = 16 * fromHex c1 + fromHex c2 ∧ bytesOf rest = some bytes := by
  match digits with
  | [] => cases spelt
  | [_] => cases spelt
  | c1 :: c2 :: rest =>
    rw [bytesOf] at spelt
    split at spelt
    · next hex =>
      obtain ⟨tail, later, same⟩ := map_eq_some_iff.mp spelt
      obtain ⟨rfl, rfl⟩ := cons.inj same
      exact ⟨c1, c2, rest, rfl, hex, rfl, later⟩
    · cases spelt

theorem bytesOf_nil (spelt : bytesOf digits = some []) : digits = [] := by
  match digits with
  | [] => rfl
  | [_] => cases spelt
  | c1 :: c2 :: rest =>
    rw [bytesOf] at spelt
    split at spelt
    · obtain ⟨_, _, same⟩ := map_eq_some_iff.mp spelt
      cases same
    · cases spelt

theorem bytesOf_split (spelt : bytesOf digits = some (xs ++ ys)) :
    ∃ front back, digits = front ++ back ∧ bytesOf front = some xs ∧ bytesOf back = some ys := by
  induction xs generalizing digits with
  | nil => exact ⟨[], digits, rfl, rfl, spelt⟩
  | cons b xs ih =>
    obtain ⟨c1, c2, rest, rfl, hex, rfl, later⟩ := bytesOf_cons spelt
    obtain ⟨front, back, rfl, first, second⟩ := ih later
    exact ⟨c1 :: c2 :: front, back, rfl, by rw [bytesOf, if_pos hex, first]; rfl, second⟩

theorem bytesOf_lt (spelt : bytesOf digits = some bytes) : ∀ b ∈ bytes, b < 256 := by
  induction bytes generalizing digits with
  | nil => simp
  | cons b bytes ih =>
    obtain ⟨c1, c2, rest, rfl, _, rfl, later⟩ := bytesOf_cons spelt
    have := fromHex_lt c1
    have := fromHex_lt c2
    simpa only [mem_cons, forall_eq_or_imp] using ⟨by omega, ih later⟩

theorem hex2_spec (v sum : Nat) (more : List UInt8) (spelt : bytesOf digits = some bytes) : hex2 bytes.length
    (v % 2 ^ 32) sum (digits ++ more) =
    (bytes.foldl (fun n b => n * 256 + b) v % 2 ^ 32, sum + bytes.sum, more) := by
  induction bytes generalizing digits v sum with
  | nil =>
    rw [bytesOf_nil spelt]
    rfl
  | cons b bytes ih =>
    obtain ⟨c1, c2, rest, rfl, hex, rfl, later⟩ := bytesOf_cons spelt
    rw [length_cons, cons_append, cons_append, hex2, if_pos hex]
    dsimp only
    rw [show (v % 2 ^ 32 * 256 + (16 * fromHex c1 + fromHex c2)) % 2 ^ 32 =
      (v * 256 + (16 * fromHex c1 + fromHex c2)) % 2 ^ 32 by omega, ih _ _ later, foldl_cons, sum_cons,
        Nat.add_assoc]

theorem foldl_lt (small : ∀ b ∈ bytes, b < 256) :
    bytes.foldl (fun n b => n * 256 + b) v < (v + 1) * 256 ^ bytes.length := by
  induction bytes generalizing v with
  | nil => simp
  | cons b bytes ih =>
    have first := small b (mem_cons_self ..)
    refine Nat.lt_of_lt_of_le (ih fun c mem => small c (mem_cons_of_mem _ mem)) ?_
    rw [length_cons, Nat.pow_succ, Nat.mul_comm (256 ^ _), ← Nat.mul_assoc]
    refine mul_le_mul_right _ ?_
    dsimp only
    omega

theorem width_le : width type ≤ 4 := by
  rw [width]
  split
  · omega
  split <;> omega

theorem numberOf_lt (spelt : bytesOf digits = some address)
    (short : address.length ≤ 4) : numberOf address < 2 ^ 32 := by
  have bound := foldl_lt (v := 0) (bytesOf_lt spelt)
  rw [Nat.zero_add, Nat.one_mul] at bound
  exact Nat.lt_of_lt_of_le bound (Nat.pow_le_pow_right (by omega) short)

theorem hex2_number (spelt : bytesOf digits = some address) (short : address.length ≤ 4) :
    hex2 address.length 0 sum (digits ++ more) = (numberOf address, sum + address.sum, more) := by
  have spec := hex2_spec 0 sum more spelt
  rw [zero_mod] at spec
  rw [spec, ← numberOf, mod_eq_of_lt (numberOf_lt spelt short)]

theorem hex2_one (spelt : bytesOf digits = some (v :: bytes)) : ∃ rest, bytesOf rest = some bytes ∧
    ∀ sum more, hex2 1 0 sum (digits ++ more) = (v, sum + v, rest ++ more) := by
  obtain ⟨c1, c2, rest, rfl, hex, rfl, later⟩ := bytesOf_cons spelt
  have := fromHex_lt c1
  have := fromHex_lt c2
  refine ⟨rest, later, fun sum more => ?_⟩
  rw [cons_append, cons_append, hex2, if_pos hex]
  rw [hex2, Nat.zero_mul, Nat.zero_add, Nat.mod_eq_of_lt (by omega)]

theorem dataLoop_spec (spelt : bytesOf digits = some data) (small : addr < 2 ^ 32) : ∃ addr' new,
    dataLoop valid data.length addr sum (digits ++ more) written = (addr', sum + data.sum, more, written ++ new) ∧
      (∀ x ∈ new, valid x.1) ∧ ((∀ i < data.length, valid ((addr + i) % 2 ^ 32)) →
        addr' = (addr + data.length) % 2 ^ 32 ∧ new = piece (2 ^ 32) addr (data.map UInt8.ofNat)) := by
  induction data generalizing digits addr sum written with
  | nil =>
    rw [bytesOf_nil spelt]
    refine ⟨addr, [], ?_, by simp, fun _ => ⟨(mod_eq_of_lt small).symm, rfl⟩⟩
    rw [append_nil]
    rfl
  | cons b data ih =>
    obtain ⟨rest, later, reads⟩ := hex2_one spelt
    rw [length_cons, dataLoop, reads]
    dsimp only
    rw [sum_cons, ← Nat.add_assoc]
    by_cases isValid : valid addr = true
    · rw [if_pos isValid]
      obtain ⟨addr', new, loop, all, exact'⟩ := @ih rest (sum + b) ((addr + 1) % 2 ^ 32)
        (written ++ [(addr, ofNat b)]) later (mod_lt _ (by decide))
      refine ⟨addr', (addr, ofNat b) :: new, ?_, ?_, fun every => ?_⟩
      · rw [loop, append_assoc]
        rfl
      · simpa only [mem_cons, forall_eq_or_imp] using ⟨isValid, all⟩
      · obtain ⟨rfl, rfl⟩ := exact' fun i less => by
          have := every (i + 1) (by omega)
          rwa [show (addr + (i + 1)) % 2 ^ 32 = ((addr + 1) % 2 ^ 32 + i) % 2 ^ 32 by omega] at this
        refine ⟨by omega, rfl⟩
    · rw [if_neg isValid]
      obtain ⟨addr', new, loop, all, _⟩ := @ih rest (sum + b) addr written later small
      refine ⟨addr', new, loop, all, fun every => absurd ?_ isValid⟩
      have := every 0 (by omega)
      rwa [Nat.add_zero, Nat.mod_eq_of_lt small] at this

theorem dataRecord_spec (spelt : bytesOf digits = some (address ++ data ++ [cksum]))
    (wide : address.length = width type) :
    ∃ addr' new, (∀ x ∈ new, valid x.1) ∧
      ((∀ i < data.length, valid ((numberOf address + s.offsetFrom base (numberOf address) + i) % 2 ^ 32)) →
        addr' = (numberOf address + s.offsetFrom base (numberOf address) + data.length) % 2 ^ 32 ∧
        new = piece (2 ^ 32) ((numberOf address + s.offsetFrom base (numberOf address)) % 2 ^ 32)
          (data.map UInt8.ofNat)) ∧
      dataRecord valid base type (width type + data.length + 1) sum (digits ++ more) s =
        if valid ((numberOf address + s.offsetFrom base (numberOf address)) % 2 ^ 32) then
          if 255 - cksum % 256 ≠ (sum + address.sum + data.sum) % 256 then .failed
          else .passed ⟨more, false, s.offsetFrom base (numberOf address),
            max s.highest ((addr' + 2 ^ 32 - s.offsetFrom base (numberOf address)) % 2 ^ 32),
            min s.lowest (numberOf address), s.written ++ new⟩
        else .failed := by
  obtain ⟨front, back, rfl, first, last⟩ := bytesOf_split spelt
  obtain ⟨front, middle, rfl, first, second⟩ := bytesOf_split first
  have short : address.length ≤ 4 := by
    rw [wide]
    exact width_le
  obtain ⟨rest, spelt', reads⟩ := hex2_one last
  obtain rfl := bytesOf_nil spelt'
  obtain ⟨addr', new, loop, all, exact'⟩ := @dataLoop_spec valid middle (back ++ more) data
    (sum + address.sum) ((numberOf address + s.offsetFrom base (numberOf address)) % 2 ^ 32) s.written second
    (mod_lt _ (by decide))
  refine ⟨addr', new, all, fun every => ?_, ?_⟩
  · obtain ⟨rfl, rfl⟩ := exact' fun i less => by
      have := every i less
      rwa [← mod_add_mod] at this
    exact ⟨mod_add_mod .., rfl⟩
  · rw [dataRecord, append_assoc, append_assoc, ← wide, hex2_number first short]
    dsimp only
    rw [show address.length + data.length + 1 - (address.length + 1) = data.length by omega, loop]
    rw [reads]
    rfl

theorem record_counted (counted : Counted type address data cksum line) (at' : s.rest = line ++ more) :
    ∃ front digits behind, line = front ++ (digits ++ behind) ∧
      bytesOf digits = some (address ++ data ++ [cksum]) ∧ address.length = width type ∧
      record valid base s = if type = 48 then .passed { s with rest := digits ++ (behind ++ more) }
        else if 49 ≤ type.toNat ∧ type.toNat ≤ 51 then dataRecord valid base type (width type + data.length + 1)
          (width type + data.length + 1) (digits ++ (behind ++ more)) s
        else if 55 ≤ type.toNat ∧ type.toNat ≤ 57 then lastRecord base type (digits ++ (behind ++ more)) s
        else .failed := by
  obtain ⟨digits, behind, rfl, _, wide, spelt⟩ := counted
  have small := bytesOf_lt spelt _ (mem_cons_self ..)
  obtain ⟨c1, c2, rest, rfl, hex, count, later⟩ := bytesOf_cons spelt
  refine ⟨[start, type, c1, c2], rest, behind, rfl, later, wide, ?_⟩
  have reads : hex2 1 0 0 (c1 :: c2 :: (rest ++ (behind ++ more))) =
      (width type + data.length + 1, width type + data.length + 1, rest ++ (behind ++ more)) := by
    rw [hex2, if_pos hex, ← count]
    rw [hex2, Nat.zero_mul, Nat.zero_add, Nat.mod_eq_of_lt (by omega)]
  rw [record, at']
  simp only [cons_append, append_assoc, headD_cons, tail_cons, reads]
  rw [if_neg (by decide), if_neg (by simp), if_neg (by rw [bad]; omega)]

theorem record_passed (is : record valid base s = .passed s₁) :
    ∃ type rest, s.rest = start :: type :: rest ∧ (type = 48 ∨ 49 ≤ type.toNat ∧ type.toNat ≤ 51) := by
  rw [record] at is
  split at is
  · cases is
  · next c rest at' =>
    dsimp only at is
    split at is
    · cases is
    split at is
    · cases is
    · next isStart =>
      have isStart : c = start := by simpa using isStart
      cases rest with
      | nil => simp [hex2, bad] at is
      | cons type rest =>
        refine ⟨type, rest, by rw [at', isStart], ?_⟩
        rw [headD_cons] at is
        split at is
        · cases is
        split at is
        · next zero => exact .inl zero
        split at is
        · next within => exact .inr within
        split at is <;> cases is

theorem record_loaded (is : record valid base s = .loaded r) :
    ∃ type rest, s.rest = start :: type :: rest ∧ 55 ≤ type.toNat ∧ type.toNat ≤ 57 := by
  rw [record] at is
  split at is
  · cases is
  · next c rest at' =>
    dsimp only at is
    split at is
    · cases is
    split at is
    · cases is
    · next isStart =>
      have isStart : c = start := by simpa using isStart
      cases rest with
      | nil => simp [hex2, bad] at is
      | cons type rest =>
        refine ⟨type, rest, by rw [at', isStart], ?_⟩
        rw [headD_cons] at is
        split at is
        · cases is
        split at is
        · cases is
        split at is
        · rw [dataRecord] at is
          dsimp only at is
          split at is
          · split at is <;> cases is
          · cases is
        split at is
        · next within => exact within
        · cases is

theorem isLast_typed : isLast (start :: type :: rest) = true ↔ 55 ≤ type.toNat ∧ type.toNat ≤ 57 := by
  simp [isLast]

theorem passed_spec (is : record valid base s = .passed s₁) (at' : s.rest = start :: type :: line ++ more)
    (absent : newline ∉ start :: type :: line) (checked : Checked (start :: type :: line)) :
    ValidRecord (start :: type :: line) ∧ ∃ behind, newline ∉ behind ∧ s₁.rest = behind ++ more := by
  obtain ⟨_, _, same, types⟩ := record_passed is
  rw [at'] at same
  obtain ⟨rfl, _⟩ := cons.inj (cons.inj same).2
  obtain ⟨zero, data⟩ := checked type line rfl
  have kept : ∀ {front digits behind : List UInt8}, start :: type :: line = front ++ (digits ++ behind) →
      newline ∉ digits ++ behind := fun split => by
    rw [split, mem_append, not_or] at absent
    exact absent.2
  rcases types with rfl | types
  · obtain ⟨type, address, data, cksum, counted, summed⟩ := zero rfl
    refine ⟨⟨type, address, data, cksum, counted, summed⟩, ?_⟩
    obtain ⟨_, _, split, _⟩ := id counted
    obtain ⟨rfl, _⟩ := cons.inj (cons.inj split).2
    obtain ⟨front, digits, behind, split, _, _, run⟩ :=
      @record_counted valid base more _ s address data cksum _ counted at'
    rw [is, if_pos rfl] at run
    obtain rfl := Outcome.passed.inj run
    exact ⟨digits ++ behind, kept split, (append_assoc ..).symm⟩
  · obtain ⟨address, data, cksum, counted⟩ := data types
    obtain ⟨front, digits, behind, split, spelt, wide, run⟩ :=
      @record_counted valid base more _ s address data cksum _ counted at'
    have other : type ≠ 48 := by
      rintro rfl
      exact absurd types (by decide)
    rw [is, if_neg other, if_pos types] at run
    obtain ⟨addr', new, _, _, runs⟩ := @dataRecord_spec valid base digits (behind ++ more) s address data
      (width type + data.length + 1) cksum type spelt wide
    rw [runs] at run
    split at run
    · split at run
      · cases run
      · next right =>
        obtain rfl := Outcome.passed.inj run
        refine ⟨⟨type, address, data, cksum, counted, ?_⟩, behind, fun mem =>
          kept split (mem_append_right _ mem), rfl⟩
        rw [Summed]
        omega
    · cases run

/-- If the stream is loaded and what the loader does not look at is right, the records before the last one are valid.
-/
theorem valid_of_checked (ends : Ends valid base s (some r)) (checked : ∀ line ∈ recordsOf s.rest, Checked line) :
    ∀ line ∈ recordsOf s.rest, ValidRecord line := by
  generalize result : some r = x at ends
  induction ends with
  | failed => cases result
  | loaded is =>
    obtain ⟨type, rest, at', last⟩ := record_loaded is
    have typed : newline ≠ type := by
      rintro rfl
      exact absurd last (by decide)
    rw [at']
    obtain ⟨line, _, ⟨_, records⟩ | ⟨more, _, records⟩⟩ := recordsOf_typed rest typed
    · rw [records, if_pos (isLast_typed.mpr last)]
      simp
    · rw [records, if_pos (isLast_typed.mpr last)]
      simp
  | passed is behind _ ih =>
    obtain ⟨type, rest, at', types⟩ := record_passed is
    have typed : newline ≠ type := by
      rintro rfl
      exact absurd types (by decide)
    have notLast : ∀ {rest}, ¬isLast (start :: type :: rest) = true := fun last => by
      have := isLast_typed.mp last
      rcases types with rfl | types
      · exact absurd this (by decide)
      · omega
    rw [at'] at checked ⊢
    obtain ⟨line, absent, ⟨rfl, records⟩ | ⟨more, rfl, records⟩⟩ := recordsOf_typed rest typed
    · rw [records, if_neg notLast] at checked
      obtain ⟨_, junk, absent', left⟩ := passed_spec is (at'.trans (append_nil _).symm) absent
        (checked _ (mem_singleton_self _))
      rw [left, append_nil, behindLine_none absent'] at behind
      cases behind
    · rw [records, if_neg notLast] at checked ⊢
      obtain ⟨isValid, junk, absent', left⟩ := passed_spec is at' absent (checked _ (mem_cons_self ..))
      rw [left, behindLine_append absent'] at behind
      obtain rfl := some.inj behind
      have later := ih (fun line mem => checked line (mem_cons_of_mem _ mem)) result
      simpa only [mem_cons, forall_eq_or_imp] using ⟨isValid, later⟩

theorem checked_of_valid (isValid : ValidRecord line) : Checked line := by
  rintro type rest rfl
  refine ⟨fun _ => isValid, fun _ => ?_⟩
  obtain ⟨type', address, data, cksum, counted, _⟩ := isValid
  obtain ⟨_, _, split, _⟩ := id counted
  obtain ⟨rfl, _⟩ := cons.inj (cons.inj split).2
  exact ⟨address, data, cksum, counted⟩

variable {tail : List UInt8} {entry L M : Nat} {p : Piece} {pieces : List Piece}

/-- The addresses are not moved. -/
def Absolute (s : State) : Prop := ∀ a, s.offsetFrom 0 a = 0

theorem Piece.Proper.addr_lt (proper : p.Proper) : p.addr < 2 ^ 32 := by
  obtain ⟨digits, _, _, _, wide, spelt⟩ := proper.counted
  obtain ⟨_, back, _, _, later⟩ :=
    @bytesOf_split digits [width p.type + p.data.length + 1] (p.address ++ p.data ++ [p.cksum])
    spelt
  rw [append_assoc] at later
  obtain ⟨_, _, _, first, _⟩ := bytesOf_split later
  exact numberOf_lt first (wide ▸ width_le)

theorem record_piece (proper : p.Proper) (absolute : Absolute s) (at' : s.rest = p.line ++ more) :
    ∃ addr' new behind, newline ∉ behind ∧ (∀ x ∈ new, valid x.1) ∧
      ((∀ i < p.data.length, valid (p.addr + i)) → addr' = (p.addr + p.data.length) % 2 ^ 32 ∧
        new = piece (2 ^ 32) p.addr (p.data.map UInt8.ofNat)) ∧
      record valid 0 s = if valid p.addr then .passed ⟨behind ++ more, false, 0, max s.highest (addr' % 2 ^ 32),
          min s.lowest p.addr, s.written ++ new⟩ else .failed := by
  obtain ⟨front, digits, behind, split, spelt, wide, run⟩ :=
    @record_counted valid 0 more _ s p.address p.data p.cksum p.type proper.counted at'
  obtain ⟨addr', new, all, exact', runs⟩ := @dataRecord_spec valid 0 digits (behind ++ more) s p.address p.data
    (width p.type + p.data.length + 1) p.cksum p.type spelt wide
  have small := proper.addr_lt
  have inside := proper.inside
  have right : ¬255 - p.cksum % 256 ≠ (width p.type + p.data.length + 1 + p.address.sum + p.data.sum) % 256 := by
    have summed := proper.summed
    rw [Summed] at summed
    omega
  rw [absolute, if_neg right, ← Piece.addr] at runs
  rw [absolute, ← Piece.addr] at exact'
  simp only [Nat.add_zero, Nat.mod_eq_of_lt small, Nat.sub_zero, Nat.add_mod_right] at runs exact'
  refine ⟨addr', new, behind, fun mem => ?_, all, fun every => exact' fun i less => ?_, ?_⟩
  · have line := proper.line
    rw [split] at line
    exact line (mem_append_right _ (mem_append_right _ mem))
  · rw [mod_eq_of_lt (by omega)]
    exact every i less
  · have other : p.type ≠ 48 := fun same => by
      have := proper.type
      rw [same] at this
      exact absurd this (by decide)
    rw [run, if_neg other, if_pos proper.type, runs]

/-- The text of some pieces, with something behind it. -/
def textOf (pieces : List Piece) (tail : List UInt8) : List UInt8 :=
  pieces.flatMap (fun p => p.line ++ [newline]) ++ tail

theorem textOf_cons : textOf (p :: pieces) tail = p.line ++ newline :: textOf pieces tail := by
  simp [textOf]

theorem valid_of_loaded (proper : ∀ p ∈ pieces, p.Proper) (absolute : Absolute s) (at' : s.rest = textOf pieces tail)
    (ends : Ends valid 0 s (some r)) : (∀ p ∈ pieces, valid p.addr) ∧ ∃ s', s'.rest = tail ∧ Absolute s' ∧
      Ends valid 0 s' (some r) ∧ ∀ x ∈ s'.written, x ∈ s.written ∨ valid x.1 := by
  induction pieces generalizing s with
  | nil => exact ⟨by simp, s, at', absolute, ends, fun x mem => .inl mem⟩
  | cons p pieces ih =>
    rw [textOf_cons] at at'
    obtain ⟨addr', new, behind, absent, all, _, run⟩ :=
      @record_piece valid _ s p (proper p (mem_cons_self ..)) absolute at'
    split at run
    · next isValid =>
      cases ends with
      | loaded is => rw [run] at is; cases is
      | passed is found later =>
        rw [run] at is
        obtain rfl := Outcome.passed.inj is
        rw [behindLine_append absent] at found
        obtain rfl := some.inj found
        obtain ⟨others, s', at'', absolute', ends', written⟩ :=
          ih (fun p mem => proper p (mem_cons_of_mem _ mem)) (fun _ => rfl) rfl later
        refine ⟨by simpa only [mem_cons, forall_eq_or_imp] using ⟨isValid, others⟩, s', at'', absolute', ends',
          fun x mem => ?_⟩
        rcases written x mem with old | isValid
        · exact (mem_append.mp old).imp_right (all x)
        · exact .inr isValid
    · cases ends with
      | loaded is => rw [run] at is; cases is
      | passed is => rw [run] at is; cases is

/-- What has happened when some pieces have been loaded. -/
structure Ran (pieces : List Piece) (tail : List UInt8) (s s' : State) : Prop where
  rest : s'.rest = tail
  absolute : Absolute s'
  written : s'.written = s.written ++ pieces.flatMap fun p => piece (2 ^ 32) p.addr (p.data.map UInt8.ofNat)
  least : s'.lowest ≤ s.lowest ∧ ∀ p ∈ pieces, s'.lowest ≤ p.addr
  lowest : s'.lowest = s.lowest ∨ ∃ p ∈ pieces, p.addr = s'.lowest
  most : s.highest ≤ s'.highest ∧ ∀ p ∈ pieces, (p.addr + p.data.length) % 2 ^ 32 ≤ s'.highest
  highest : s'.highest = s.highest ∨ ∃ p ∈ pieces, (p.addr + p.data.length) % 2 ^ 32 = s'.highest

theorem run_pieces (proper : ∀ p ∈ pieces, p.Proper) (absolute : Absolute s) (at' : s.rest = textOf pieces tail)
    (starts : ∀ p ∈ pieces, valid p.addr) (bytes : ∀ p ∈ pieces, ∀ i < p.data.length, valid (p.addr + i)) :
    ∃ s', Ran pieces tail s s' ∧ ∀ x, Ends valid 0 s' x → Ends valid 0 s x := by
  induction pieces generalizing s with
  | nil => exact ⟨s, ⟨at', absolute, by simp, by simp, .inl rfl, by simp, .inl rfl⟩, fun x ends => ends⟩
  | cons p pieces ih =>
    rw [textOf_cons] at at'
    obtain ⟨addr', new, behind, absent, _, exact', run⟩ :=
      @record_piece valid _ s p (proper p (mem_cons_self ..)) absolute at'
    obtain ⟨rfl, rfl⟩ := exact' (bytes p (mem_cons_self ..))
    rw [if_pos (starts p (mem_cons_self ..)), mod_mod] at run
    obtain ⟨s', ran, goesOn⟩ := @ih ⟨textOf pieces tail, false, 0, max s.highest ((p.addr + p.data.length) % 2 ^ 32),
      min s.lowest p.addr, s.written ++ piece (2 ^ 32) p.addr (p.data.map ofNat)⟩
      (fun q mem => proper q (mem_cons_of_mem _ mem)) (fun _ => rfl) rfl
      (fun q mem => starts q (mem_cons_of_mem _ mem)) (fun q mem =>
        bytes q (mem_cons_of_mem _ mem))
    refine ⟨s', ⟨ran.rest, ran.absolute, ?_, ?_, ?_, ?_, ?_⟩, fun x ends =>
      .passed run (behindLine_append absent) (goesOn x ends)⟩
    · rw [ran.written, append_assoc, flatMap_cons]
    · have least := ran.least
      dsimp only at least
      simp only [mem_cons, forall_eq_or_imp]
      exact ⟨by omega, by omega, least.2⟩
    · simp only [mem_cons, exists_eq_or_imp]
      rcases ran.lowest with same | found
      · dsimp only at same
        rcases Nat.le_total s.lowest p.addr with le | le
        · exact .inl (by omega)
        · exact .inr (.inl (by omega))
      · exact .inr (.inr found)
    · have most := ran.most
      dsimp only at most
      simp only [mem_cons, forall_eq_or_imp]
      exact ⟨by omega, by omega, most.2⟩
    · simp only [mem_cons, exists_eq_or_imp]
      rcases ran.highest with same | found
      · dsimp only at same
        rcases Nat.le_total s.highest ((p.addr + p.data.length) % 2 ^ 32) with le | le
        · exact .inr (.inl (by omega))
        · exact .inl (by omega)
      · exact .inr (.inr found)

theorem record_last (last : 55 ≤ type.toNat ∧ type.toNat ≤ 57) (counted : Counted type address [] cksum line)
    (at' : s.rest = line ++ more) :
    record valid 0 s = .loaded ⟨s.lowest, s.highest, numberOf address, s.written⟩ := by
  obtain ⟨front, digits, behind, split, spelt, wide, run⟩ :=
    @record_counted valid 0 more _ s address [] cksum type counted at'
  obtain ⟨front, back, rfl, first, _⟩ := bytesOf_split spelt
  rw [append_nil] at first
  have other : type ≠ 48 := by
    rintro rfl
    exact absurd last (by decide)
  rw [run, if_neg other, if_neg (by omega), if_pos last, lastRecord, append_assoc, ← wide,
    hex2_number first (wide ▸ width_le)]
  rfl

/-- An address of an image. -/
def InPieces (pieces : List Piece) (a : Nat) : Prop := ∃ p ∈ pieces, ∃ i < p.data.length, a = p.addr + i

/-- The lowest and the highest address of all the pieces bound the bytes if and only if none ends at the end of the
address space and the empty ones lie between the others. -/
theorem bounds_iff (inside : ∀ p ∈ pieces, p.addr + p.data.length ≤ 2 ^ 32) (small : ∀ p ∈ pieces, p.addr < 2 ^ 32)
    (least : L ≤ 2 ^ 32 - 1 ∧ ∀ p ∈ pieces, L ≤ p.addr) (lowest : L = 2 ^ 32 - 1 ∨ ∃ p ∈ pieces, p.addr = L)
    (most : 0 ≤ M ∧ ∀ p ∈ pieces, (p.addr + p.data.length) % 2 ^ 32 ≤ M)
    (highest : M = 0 ∨ ∃ p ∈ pieces, (p.addr + p.data.length) % 2 ^ 32 = M) (some' : ∃ p ∈ pieces, 0 < p.data.length) :
    (InPieces pieces L ∧ (∀ a, InPieces pieces a → L ≤ a ∧ a < M) ∧ ∃ a, InPieces pieces a ∧ a + 1 = M) ↔
      (∀ p ∈ pieces, 0 < p.data.length → p.addr + p.data.length < 2 ^ 32) ∧
        ∀ q ∈ pieces, (∃ p ∈ pieces, 0 < p.data.length ∧ p.addr ≤ q.addr) ∧
          ∃ p ∈ pieces, 0 < p.data.length ∧ q.addr ≤ p.addr + p.data.length := by
  constructor
  · rintro ⟨⟨p, mem, i, less, at'⟩, within, _, ⟨q, mem', j, less', rfl⟩, at''⟩
    refine ⟨fun k isPiece some'' => ?_, fun k isPiece => ⟨⟨p, mem, by omega, ?_⟩, q, mem', by omega, ?_⟩⟩
    · have := (within _ ⟨k, isPiece, k.data.length - 1, by omega, rfl⟩).2
      have := inside k isPiece
      omega
    · have := least.2 p mem
      have := least.2 k isPiece
      omega
    · by_cases empty : k.data.length = 0
      · have := most.2 k isPiece
        have := small k isPiece
        rw [empty, Nat.add_zero, Nat.mod_eq_of_lt this] at *
        omega
      · have := (within _ ⟨k, isPiece, 0, by omega, rfl⟩).2
        omega
  · rintro ⟨ends, between⟩
    have above : ∀ p ∈ pieces, 0 < p.data.length → p.addr + p.data.length ≤ M := fun p mem some'' => by
      have := most.2 p mem
      have := ends p mem some''
      omega
    refine ⟨?_, ?_, ?_⟩
    · obtain ⟨q, isPiece, at'⟩ : ∃ p ∈ pieces, p.addr = L := by
        rcases lowest with top | found
        · obtain ⟨q, mem, some''⟩ := some'
          have := least.2 q mem
          have := small q mem
          exact ⟨q, mem, by omega⟩
        · exact found
      obtain ⟨⟨p, mem, some'', le⟩, _⟩ := between q isPiece
      have := least.2 p mem
      exact ⟨p, mem, 0, some'', by omega⟩
    · rintro a ⟨p, mem, i, less, rfl⟩
      have := least.2 p mem
      have := above p mem (by omega)
      omega
    · obtain ⟨q, isPiece, at'⟩ : ∃ p ∈ pieces, (p.addr + p.data.length) % 2 ^ 32 = M := by
        rcases highest with rfl | found
        · obtain ⟨q, mem, some''⟩ := some'
          have := above q mem some''
          omega
        · exact found
      by_cases empty : q.data.length = 0
      · have := small q isPiece
        rw [empty, Nat.add_zero, Nat.mod_eq_of_lt this] at at'
        obtain ⟨_, p, mem, some'', le⟩ := between q isPiece
        have := above p mem some''
        exact ⟨_, ⟨p, mem, p.data.length - 1, by omega, rfl⟩, by omega⟩
      · have := ends q isPiece (by omega)
        exact ⟨_, ⟨q, isPiece, q.data.length - 1, by omega, rfl⟩, by omega⟩

theorem Piece.Proper.data_lt (proper : p.Proper) : ∀ b ∈ p.data, b < 256 := by
  obtain ⟨_, _, _, _, _, spelt⟩ := proper.counted
  intro b mem
  exact bytesOf_lt spelt b (by simp [mem])

theorem Ran.entries (ran : Ran pieces tail s s') (proper : ∀ p ∈ pieces, p.Proper) (none' : s.written = [])
    (x : Nat × UInt8) : x ∈ s'.written ↔
      ∃ p ∈ pieces, ∃ i b, p.data[i]? = some b ∧ x = (p.addr + i, UInt8.ofNat b) := by
  rw [ran.written, none', nil_append, mem_flatMap]
  refine exists_congr fun p => and_congr_right fun mem => ?_
  rw [mem_piece (proper p mem).addr_lt]
  have inside := (proper p mem).inside
  constructor
  · rintro ⟨i, get, at'⟩
    rw [getElem?_map] at get
    obtain ⟨b, get, same⟩ := map_eq_some_iff.mp get
    have less := (List.getElem?_eq_some_iff.mp get).1
    rw [mod_eq_of_lt (by omega)] at at'
    exact ⟨i, b, get, Prod.ext at' same.symm⟩
  · rintro ⟨i, b, get, rfl⟩
    have less := (List.getElem?_eq_some_iff.mp get).1
    exact ⟨i, by rw [getElem?_map, get]; rfl, (mod_eq_of_lt (by omega)).symm⟩

theorem Ran.inPieces (ran : Ran pieces tail s s') (proper : ∀ p ∈ pieces, p.Proper) (none' : s.written = []) (a : Nat) :
    (∃ x ∈ s'.written, x.1 = a) ↔ InPieces pieces a := by
  constructor
  · rintro ⟨x, found, rfl⟩
    obtain ⟨p, mem, i, b, get, rfl⟩ := (ran.entries proper none' x).mp found
    exact ⟨p, mem, i, (List.getElem?_eq_some_iff.mp get).1, rfl⟩
  · rintro ⟨p, mem, i, less, rfl⟩
    exact ⟨_, (ran.entries proper none' _).mpr ⟨p, mem, i, _, getElem?_eq_getElem less, rfl⟩, rfl⟩

/-- An image in records is loaded if and only if it is plain. -/
theorem loads_image_iff (image : IsImage input pieces entry) :
    (∃ r, Loads valid 0 input r ∧ LoadsImage pieces entry r) ↔ Plain valid pieces := by
  obtain ⟨type, address, cksum, last, rest, text, low, high, counted, summed, rfl⟩ := image.text
  have proper := image.proper
  have at' : (initial input).rest = textOf pieces (last ++ rest) := text
  have absolute : Absolute (initial input) := fun _ => rfl
  have inside := fun p mem => (proper p mem).inside
  have small := fun p mem => (proper p mem).addr_lt
  -- where all addresses are valid, the load is known
  have known : (∀ p ∈ pieces, valid p.addr) → (∀ p ∈ pieces, ∀ i < p.data.length, valid (p.addr + i)) →
      ∃ s', Ran pieces (last ++ rest) (initial input) s' ∧
        Loads valid 0 input ⟨s'.lowest, s'.highest, numberOf address, s'.written⟩ := fun starts bytes => by
    obtain ⟨s', ran, goesOn⟩ := run_pieces proper absolute at' starts bytes
    exact ⟨s', ran, loads_iff.mpr (goesOn _ (.loaded (record_last ⟨low, high⟩ counted ran.rest)))⟩
  have bounds : ∀ {s'}, Ran pieces (last ++ rest) (initial input) s' → (∃ p ∈ pieces, 0 < p.data.length) → _ :=
    fun ran => bounds_iff inside small ran.least ran.lowest ran.most ran.highest
  constructor
  · rintro ⟨r, loads, loaded⟩
    have ends := loads_iff.mp loads
    obtain ⟨starts, s', left, _, ends', written⟩ := valid_of_loaded proper absolute at' ends
    have sameWritten : r.written = s'.written := by
      have := ends_unique ends' (.loaded (record_last ⟨low, high⟩ counted left))
      rw [some.inj this]
    have bytes : ∀ p ∈ pieces, ∀ i < p.data.length, valid (p.addr + i) := fun p mem i less => by
      have stored := loaded.contents p mem i _ (getElem?_eq_getElem less)
      have : Nontrivial UInt8 := ⟨0, 1, by decide⟩
      obtain ⟨x, found, same⟩ := exists_of_store fun m =>
        UInt8.toNat_inj.mp ((stored m).trans (stored fun _ => 0).symm)
      rw [sameWritten] at found
      rcases written x found with old | isValid
      · cases old
      · rwa [same] at isValid
    obtain ⟨s', ran, loads'⟩ := known starts bytes
    obtain rfl := some.inj (ends_unique ends (loads_iff.mp loads'))
    have bounded : (∃ p ∈ pieces, 0 < p.data.length) → _ := fun some' => (bounds ran some').mp (by
      obtain ⟨p, mem, some''⟩ := some'
      obtain ⟨x, found, _⟩ := (ran.inPieces proper rfl _).mpr ⟨p, mem, 0, some'', rfl⟩
      obtain ⟨first, within, y, last', after⟩ := loaded.bounds (ne_nil_of_mem found)
      refine ⟨(ran.inPieces proper rfl _).mp first, fun a isIn => ?_, y.1,
        (ran.inPieces proper rfl _).mp ⟨y, last', rfl⟩, after⟩
      obtain ⟨z, mem, rfl⟩ := (ran.inPieces proper rfl _).mpr isIn
      exact within z mem)
    exact ⟨starts, bytes, fun p mem some' => (bounded ⟨p, mem, some'⟩).1 p mem some',
      fun some' => (bounded some').2⟩
  · intro plain
    obtain ⟨s', ran, loads⟩ := known plain.starts plain.bytes
    refine ⟨_, loads, fun p mem i b get m => ?_, fun x found => ?_, fun filled => ?_, rfl⟩
    · have value : (ofNat b).toNat = b := by
        have := (proper p mem).data_lt b (mem_of_getElem? get)
        simpa using this
      rw [← value]
      refine congrArg toNat (store_of_agree ⟨(_, ofNat b),
        (ran.entries proper rfl _).mpr ⟨p, mem, i, b, get, rfl⟩, rfl⟩ fun x found same => ?_)
      obtain ⟨q, mem', j, b', get', rfl⟩ := (ran.entries proper rfl x).mp found
      have less := (List.getElem?_eq_some_iff.mp get).1
      have less' := (List.getElem?_eq_some_iff.mp get').1
      have equal : q = p := by
        by_contra other
        have : Std.Symm fun p q : Piece => 0 < p.data.length → 0 < q.data.length →
            p.addr + p.data.length ≤ q.addr ∨ q.addr + q.data.length ≤ p.addr :=
          ⟨fun _ _ apart some' some'' => (apart some'' some').symm⟩
        have := image.apart.forall mem' mem other (by omega) (by omega)
        omega
      subst equal
      have index : j = i := by omega
      rw [index, get] at get'
      rw [some.inj get']
    · obtain ⟨p, mem, i, less, same⟩ := (ran.inPieces proper rfl _).mp ⟨x, found, rfl⟩
      exact ⟨p, mem, i, less, same⟩
    · obtain ⟨x, found⟩ := exists_mem_of_ne_nil _ filled
      obtain ⟨p, mem, i, less, _⟩ := (ran.inPieces proper rfl _).mp ⟨x, found, rfl⟩
      have some' : ∃ p ∈ pieces, 0 < p.data.length := ⟨p, mem, by omega⟩
      obtain ⟨first, within, a, isIn, after⟩ := (bounds ran some').mpr ⟨plain.ends, plain.empty some'⟩
      obtain ⟨y, last', rfl⟩ := (ran.inPieces proper rfl _).mpr isIn
      exact ⟨(ran.inPieces proper rfl _).mpr first, fun z isWritten =>
        within _ ((ran.inPieces proper rfl _).mp ⟨z, isWritten, rfl⟩), y, last', after⟩

/-- `load_srec_image` comes to an end, accepts valid records only and loads an image in records, if and only if every
record that passes has an end of line, what is not looked at is right, and such an image is plain. -/
theorem load_srec_image (valid : Nat → Bool) (base : UInt32) (input : List UInt8) :
    Meets valid base input ↔ Sound valid base input := by
  have plain : base = 0 → ∀ pieces entry, IsImage input pieces entry →
      ((∃ r, Loads valid base input r ∧ LoadsImage pieces entry r) ↔ Plain valid pieces) := by
    rintro rfl pieces entry image
    exact loads_image_iff image
  constructor
  · rintro ⟨terminates, validates, loads⟩
    exact ⟨terminates_iff.mp terminates, fun r loaded line mem => checked_of_valid (validates r loaded line mem),
      fun zero pieces entry image => (plain zero pieces entry image).mp (loads zero pieces entry image)⟩
  · rintro ⟨ended, checked, simple⟩
    exact ⟨terminates_iff.mpr ended, fun r loaded => valid_of_checked (loads_iff.mp loaded) (checked r loaded),
      fun zero pieces entry image => (plain zero pieces entry image).mpr (simple zero pieces entry image)⟩

/-- A first record "S0030000FC" with nothing behind it. -/
def unended : List UInt8 := [83, 48, 48, 51, 48, 48, 48, 48, 70, 67]

/-- The loader looks for the end of the line for ever. -/
theorem unended_endless : ¬Meets (fun _ => true) 0 unended := by
  intro meets
  have ended := terminates_iff.mp meets.terminates _ .here ⟨[48, 48, 48, 48, 70, 67], true, 0, 0, 2 ^ 32 - 1, []⟩ rfl
  exact absurd ended (by decide)

end Ecos.Redboot.Srec
