import Ecos.Lib.Fuel
import Ecos.Flash.RangesSafety

namespace Ecos.Flash.Errors

inductive Op
  | erase
  | program
  | read
  | lock
  | unlock
  deriving DecidableEq

/-- The drivers: what a function returns for an address, whether the block at an address reads as blank, and whether
  a device
has the functions `flash_block_lock` and `flash_block_unlock`. -/
structure Driver where
  outcome : Op → Nat → Int
  blank : Nat → Bool
  canLock : Dev → Bool
  canUnlock : Dev → Bool

/-- One turn of a loop: the address, the number of bytes, whether the driver has been called, and `stat`. -/
structure Turn where
  op : Op
  addr : Nat
  size : Nat
  called : Bool
  stat : Int

/-- The end of a loop: `stat`, what has been stored at `err_address`, and the turns. -/
structure Loop where
  stat : Int
  err : Option Nat
  turns : List Turn

/-- The return from a function, with the mutexes that are held, by the start of the device. -/
structure Done extends Loop where
  held : Nat → Bool

def cygFlashErrOk : Int := 0
def cygFlashErrInvalid : Int := 1

/-- `LOCK`; a mutex that is held is waited for. -/
def lock (held : Nat → Bool) (d : Dev) : Option (Nat → Bool) :=
  if held d.start then none else some (Function.update held d.start true)

def unlock (held : Nat → Bool) (d : Dev) : Nat → Bool := Function.update held d.start false

namespace Driver

def can (drv : Driver) : Op → Dev → Bool
  | .lock, d => drv.canLock d
  | .unlock, d => drv.canUnlock d
  | _, _ => true

/-- The loop of `cyg_flash_erase`, `cyg_flash_lock` and `cyg_flash_unlock`. The first leaves it at every failure, the
  others
only with an `err_address`. -/
def blockLoop (drv : Driver) (d : Dev) (op : Op) (given : Bool) : Nat → Nat → Nat → Int → Loop
  | 0, _, _, stat => ⟨stat, none, []⟩
  | fuel + 1, block, count, stat =>
    if count = 0 then ⟨stat, none, []⟩
    else
      let size := d.blockSize block
      let count := if count < size then size else count
      let erased := decide (op = .erase) && !d.indirect && drv.blank block
      let stat := if erased then stat else drv.outcome op block
      let turn : Turn := ⟨op, block, size, !erased, stat⟩
      if stat ≠ cygFlashErrOk ∧ (op = .erase ∨ given) then ⟨stat, if given then some block else none, [turn]⟩
      else
        let rest := drv.blockLoop d op given fuel (block + size) (count - size) stat
        ⟨rest.stat, rest.err, turn :: rest.turns⟩

/-- The loop of `cyg_flash_program` and `cyg_flash_read`. The first leaves it at every failure, the other only with an
`err_address`. -/
def chunkLoop (drv : Driver) (d : Dev) (op : Op) (given : Bool) : Nat → Nat → Nat → Nat → Int → Loop
  | 0, _, _, _, stat => ⟨stat, none, []⟩
  | fuel + 1, addr, count, offset, stat =>
    if count = 0 then ⟨stat, none, []⟩
    else
      let size := d.blockSize addr
      let this := if count > size - offset then size - offset else count
      let stat := drv.outcome op addr
      let turn : Turn := ⟨op, addr, this, true, stat⟩
      if stat ≠ cygFlashErrOk ∧ (op = .program ∨ given) then ⟨stat, if given then some addr else none, [turn]⟩
      else
        let rest := drv.chunkLoop d op given fuel (addr + this) (count - this) 0 stat
        ⟨rest.stat, rest.err, turn :: rest.turns⟩

/-- What is done to one device. A device that can be read directly is copied at once. -/
def loop (drv : Driver) (d : Dev) (op : Op) (given : Bool) (base len : Nat) : Loop :=
  let block := d.blockBegin base
  let fromBlock := sub32 (d.endAddr base len + 1) block
  let count := sub32 (d.endAddr base len + 1) base
  let offset := if base = block then 0 else base - block
  match op with
  | .erase | .lock | .unlock => drv.blockLoop d op given fromBlock block fromBlock cygFlashErrOk
  | .program => drv.chunkLoop d op given count base count offset cygFlashErrOk
  | .read =>
    if d.indirect then drv.chunkLoop d op given count base count offset cygFlashErrOk
    else ⟨cygFlashErrOk, none, [⟨.read, base, count, false, cygFlashErrOk⟩]⟩

end Driver

/-- The function that deals with the devices behind the first. -/
def following : Op → Op
  | .unlock => .lock
  | op => op

/-- The five functions; `given` tells whether there is an `err_address`. `none` if a mutex is waited for for ever, or
  the fuel
is used up. -/
def operate (devs : List Dev) (drv : Driver) (given : Bool) : Nat → Op → (Nat → Bool) → Nat → Nat → Option Done
  | 0, _, _, _, _ => none
  | fuel + 1, op, held, base, len =>
    match findDev devs base with
    | none => some ⟨⟨cygFlashErrInvalid, none, []⟩, held⟩
    | some d =>
      if drv.can op d then do
        let locked ← lock held d
        let loop := drv.loop d op given base len
        let held := unlock locked d
        if loop.stat ≠ cygFlashErrOk then some ⟨loop, held⟩
        else if len > sub32 (d.last + 1) base then do
          let rest ← operate devs drv given fuel (following op) held ((d.last + 1) % 2 ^ 32) (len - sub32
            (d.last + 1) base)
          some ⟨⟨rest.stat, rest.err, loop.turns ++ rest.turns⟩, rest.held⟩
        else some ⟨⟨cygFlashErrOk, none, loop.turns⟩, held⟩
      else some ⟨⟨cygFlashErrInvalid, none, []⟩, held⟩

section
variable (devs : List Dev) (drv : Driver) (given : Bool) (fuel : Nat) (held : Nat → Bool) (base len : Nat)

def cygFlashErase : Option Done := operate devs drv given fuel .erase held base len
def cygFlashProgram : Option Done := operate devs drv given fuel .program held base len
def cygFlashRead : Option Done := operate devs drv given fuel .read held base len
def cygFlashLock : Option Done := operate devs drv given fuel .lock held base len
def cygFlashUnlock : Option Done := operate devs drv given fuel .unlock held base len

end

/-- A turn deals with an address: with the bytes from its own address on, or with the whole block. -/
def Turn.Covers (devs : List Dev) (t : Turn) (a : Nat) : Prop :=
  match t.op with
  | .program | .read => t.addr ≤ a ∧ a < t.addr + t.size
  | _ => ∃ d ∈ devs, ∃ b ∈ d.blocks, (b.1 ≤ t.addr ∧ t.addr < b.1 + b.2) ∧ b.1 ≤ a ∧ a < b.1 + b.2

/-- Each address of the range has been dealt with. -/
def Processed (devs : List Dev) (op : Op) (base len : Nat) (turns : List Turn) : Prop :=
  ∀ a, base ≤ a → a < base + len → ∃ t ∈ turns, t.op = op ∧ t.stat = cygFlashErrOk ∧ t.Covers devs a

/-- The first failure is the last turn; its status and its address are reported. -/
def Reported (given : Bool) (l : Loop) : Prop :=
  ∀ before t after, l.turns = before ++ t :: after → (∀ u ∈ before, u.stat = cygFlashErrOk) → t.stat ≠ cygFlashErrOk →
    l.stat = t.stat ∧ l.err = (if given then some t.addr else none) ∧ after = []

/-- The function returns with the mutexes released, and without an error if and only if nothing has failed and all of
  the
range has been dealt with; an error is that of the first failure, and nothing is done after it. -/
def Honest (devs : List Dev) (drv : Driver) (given : Bool) (op : Op) (base len : Nat) : Prop :=
  ∃ fuel r, operate devs drv given fuel op (fun _ => false) base len = some r ∧ r.held = (fun _ => false) ∧
    (r.stat = cygFlashErrOk ↔ (∀ t ∈ r.turns, t.stat = cygFlashErrOk) ∧ Processed devs op base len r.turns) ∧
    (r.stat ≠ cygFlashErrOk → Reported given r.toLoop)

/-- The beginnings of blocks, as the loop over the blocks finds them. -/
def walk (d : Dev) : Nat → Nat → Nat → List Nat
  | 0, _, _ => []
  | fuel + 1, block, count =>
    if count = 0 then []
    else
      let size := d.blockSize block
      block :: walk d fuel (block + size) ((if count < size then size else count) - size)

/-- The part of an operation that is about one device. -/
structure Part where
  op : Op
  dev : Dev
  base : Nat
  len : Nat

/-- The parts of an operation on a range, and whether they reach the end of the range. -/
def parts (devs : List Dev) : Nat → Op → Nat → Nat → List Part × Bool
  | 0, _, _, _ => ([], false)
  | fuel + 1, op, base, len =>
    match findDev devs base with
    | none => ([], false)
    | some d =>
      if len > d.last + 1 - base then
        let rest := parts devs fuel (following op) (d.last + 1) (len - (d.last + 1 - base))
        (⟨op, d, base, len⟩ :: rest.1, rest.2)
      else ([⟨op, d, base, len⟩], true)

namespace Part

/-- The addresses for which turns are made, with the numbers of bytes, as long as nothing fails. -/
def places (p : Part) : List (Nat × Nat) :=
  let block := p.dev.blockBegin p.base
  let count := min (p.base + p.len) (p.dev.last + 1)
  match p.op with
  | .erase | .lock | .unlock => (walk p.dev (count - block) block (count - block)).map fun a => (a, p.dev.blockSize a)
  | .program => p.dev.chunks p.base (count - p.base)
  | .read => if p.dev.indirect then p.dev.chunks p.base (count - p.base) else [(p.base, count - p.base)]

/-- Whether the driver is called at an address. -/
def calls (p : Part) (drv : Driver) (a : Nat) : Bool :=
  match p.op with
  | .erase => p.dev.indirect || !drv.blank a
  | .read => p.dev.indirect
  | _ => true

def turns (p : Part) (drv : Driver) : List Turn :=
  p.places.map fun x => ⟨p.op, x.1, x.2, p.calls drv x.1, if p.calls drv x.1 then drv.outcome p.op x.1 else
    cygFlashErrOk⟩

/-- The functions are there and nothing fails. -/
def Clean (p : Part) (drv : Driver) : Prop := drv.can p.op p.dev = true ∧ ∀ t ∈ p.turns drv, t.stat = cygFlashErrOk

/-- A failure is not overwritten: the loop is left at every failure, or nothing but the last call can fail. -/
def Keeps (p : Part) (drv : Driver) (given : Bool) : Prop :=
  p.op = .erase ∨ p.op = .program ∨ given = true ∨ ∀ t ∈ (p.turns drv).dropLast, t.stat = cygFlashErrOk

/-- The turns meet each block in which there is an address of the range. -/
def Meets (p : Part) : Prop :=
  p.op = .program ∨ p.op = .read ∨ ∀ a, p.base ≤ a → a < p.base + p.len → a ≤ p.dev.last →
    ∃ b ∈ p.dev.blocks, (b.1 ≤ a ∧ a < b.1 + b.2) ∧ ∃ x ∈ p.places, b.1 ≤ x.1 ∧ x.1 < b.1 + b.2

end Part

/-- An operation goes well in every part that it comes to; where nothing fails, `cyg_flash_unlock` is about one
  device, and
all blocks of the first device are met; and an empty range is at an address of a device with the functions. -/
structure Careful (devs : List Dev) (drv : Driver) (given : Bool) (op : Op) (base len : Nat) : Prop where
  keeps : ∀ before p after, (parts devs (len + 1) op base len).1 = before ++ p :: after → (∀ q ∈ before, q.Clean drv) →
    drv.can p.op p.dev = true → p.Keeps drv given
  meets : (∀ p ∈ (parts devs (len + 1) op base len).1, p.Clean drv) → (parts devs (len + 1) op base len).2 = true →
    (op = .unlock → (parts devs (len + 1) op base len).1.length = 1) ∧ ∀ p ∈ (parts devs
      (len + 1) op base len).1.head?, p.Meets
  empty : len = 0 → ∃ d, findDev devs base = some d ∧ drv.can op d = true

open Function List Nat
variable {devs : List Dev} {drv : Driver} {given : Bool} {d e : Dev} {op :
  Op} {base len addr count block offset fuel fuel' : Nat} {stat : Int} {turns : List Turn} {ps before after :
  List Part} {p q : Part} {fits : Bool} {held : Nat → Bool}

/-- Turns one after the other, until one fails if the loop stops there. -/
def attempt (given stops : Bool) : List Turn → Int → Loop
  | [], stat => ⟨stat, none, []⟩
  | t :: rest, _ =>
    if t.stat ≠ cygFlashErrOk ∧ stops then ⟨t.stat, if given then some t.addr else none, [t]⟩
    else
      let r := attempt given stops rest t.stat
      ⟨r.stat, r.err, t :: r.turns⟩

/-- Whether a loop is left at a failure. -/
def Op.stops (op : Op) (given : Bool) : Bool := decide (op = .erase) || decide (op = .program) || given

/-- Whether an operation goes through blocks, and not through bytes. -/
def Op.byBlocks (op : Op) : Prop := op = .erase ∨ op = .lock ∨ op = .unlock

def turnAt (drv : Driver) (p : Part) (x : Nat × Nat) : Turn :=
  ⟨p.op, x.1, x.2, p.calls drv x.1, if p.calls drv x.1 then drv.outcome p.op x.1 else cygFlashErrOk⟩

theorem turns_eq : p.turns drv = p.places.map (turnAt drv p) := rfl

theorem blockLoop_eq (kind : op.byBlocks) (start : op = .erase → stat = cygFlashErrOk) :
    drv.blockLoop d op given fuel block count stat = attempt given (op.stops given)
      ((walk d fuel block count).map fun a => turnAt drv ⟨op, d, base, len⟩ (a, d.blockSize a)) stat := by
  induction fuel generalizing block count stat with
  | zero => rfl
  | succ fuel ih =>
    rw [Driver.blockLoop, walk]
    by_cases nothing : count = 0
    · rw [if_pos nothing, if_pos nothing]
      rfl
    rw [if_neg nothing, if_neg nothing, map_cons, attempt]
    -- a block found blank leaves `stat` as it is, and for `cyg_flash_erase` that is OK
    have same : (if (decide (op = .erase) && !d.indirect && drv.blank block) = true then stat else drv.outcome op
      block) =
        (turnAt drv ⟨op, d, base, len⟩ (block, d.blockSize block)).stat := by
      rcases kind with rfl | rfl | rfl
      · cases indirect : d.indirect <;> cases blank : drv.blank block <;>
          simp [turnAt, Part.calls, indirect, blank, start rfl]
      · simp [turnAt, Part.calls]
      · simp [turnAt, Part.calls]
    have called : (!(decide (op = .erase) && !d.indirect && drv.blank block)) =
        (turnAt drv ⟨op, d, base, len⟩ (block, d.blockSize block)).called := by
      rcases kind with rfl | rfl | rfl
      · cases indirect : d.indirect <;> cases blank : drv.blank block <;> simp [turnAt, Part.calls, indirect, blank]
      · rfl
      · rfl
    have stop : (op = .erase ∨ given = true) ↔ op.stops given = true := by
      rcases kind with rfl | rfl | rfl <;> simp [Op.stops]
    have turn : (⟨op, block, d.blockSize block, !(decide (op = .erase) && !d.indirect && drv.blank block),
        if (decide (op = .erase) && !d.indirect && drv.blank block) = true then stat else drv.outcome op block⟩ :
          Turn) =
        turnAt drv ⟨op, d, base, len⟩ (block, d.blockSize block) := by
      rw [same, called]
      rfl
    simp only [turn, stop]
    rw [same]
    split
    · rfl
    · next more =>
      rw [ih fun isErase => ?_]
      by_contra failed
      exact more ⟨failed, by simp [Op.stops, isErase]⟩

theorem chunkLoop_eq (kind : op = .program ∨ op = .read ∧ d.indirect = true) :
    drv.chunkLoop d op given fuel addr count offset stat = attempt given (op.stops given)
      ((d.chunkLoop fuel addr count offset).map (turnAt drv ⟨op, d, base, len⟩)) stat := by
  induction fuel generalizing addr count offset stat with
  | zero => rfl
  | succ fuel ih =>
    rw [Driver.chunkLoop, Dev.chunkLoop]
    by_cases nothing : count = 0
    · rw [if_pos nothing, if_pos nothing]
      rfl
    rw [if_neg nothing, if_neg nothing, map_cons, attempt]
    have called : ∀ n, turnAt drv ⟨op, d, base, len⟩ (addr, n) = ⟨op, addr, n, true, drv.outcome op addr⟩ := fun n => by
      rcases kind with rfl | ⟨rfl, indirect⟩ <;> simp [turnAt, Part.calls, *]
    have stop : (op = .program ∨ given = true) ↔ op.stops given = true := by
      rcases kind with rfl | ⟨rfl, _⟩ <;> simp [Op.stops]
    simp only [called, stop]
    split
    · rfl
    · rw [ih]

theorem loop_eq (low : d.start ≤ base) (high : base ≤ d.last) :
    drv.loop d op given base len = attempt given (op.stops given)
      ((⟨op, d, base, len⟩ : Part).turns drv) cygFlashErrOk := by
  have fromBlock := @Dev.count_eq d base len _ low high (d.blockBegin_le low) d.blockBegin_ge
  have fromBase := @Dev.count_eq d base len base low high le_rfl low
  rw [turns_eq]
  cases op with
  | erase | lock | unlock =>
    simp only [Driver.loop, fromBlock, Part.places, map_map]
    rw [@blockLoop_eq drv given d _ base len _ _ _ _ (by simp [Op.byBlocks]) fun _ => rfl]
    rfl
  | program =>
    simp only [Driver.loop, fromBase, Part.places, Dev.chunks]
    exact chunkLoop_eq (.inl rfl)
  | read =>
    simp only [Driver.loop, fromBase, Part.places, Dev.chunks]
    by_cases indirect : d.indirect = true
    · rw [if_pos indirect, if_pos indirect]
      exact chunkLoop_eq (.inr ⟨rfl, indirect⟩)
    · rw [if_neg indirect, if_neg indirect]
      simp [attempt, turnAt, Part.calls, indirect]

/-- The operation on the parts of a range. -/
def go (drv : Driver) (given : Bool) : List Part → Bool → Loop
  | [], fits => ⟨if fits then cygFlashErrOk else cygFlashErrInvalid, none, []⟩
  | p :: ps, fits =>
    if drv.can p.op p.dev then
      let l := attempt given (p.op.stops given) (p.turns drv) cygFlashErrOk
      if l.stat ≠ cygFlashErrOk then l
      else
        let r := go drv given ps fits
        ⟨r.stat, r.err, l.turns ++ r.turns⟩
    else ⟨cygFlashErrInvalid, none, []⟩

theorem lock_free : lock (fun _ => false) d = some (update (fun _ => false) d.start true) := by simp [lock]

theorem unlock_locked : unlock (update (fun _ => false) d.start true) d = fun _ => false := by
  rw [unlock, update_idem]
  exact update_eq_self ..

theorem operate_eq (enough : len < fuel) (inside : base + len ≤ 2 ^ 32) :
    operate devs drv given fuel op (fun _ => false) base len =
      some ⟨go drv given (parts devs fuel op base len).1 (parts devs fuel op base len).2, fun _ => false⟩ := by
  induction fuel generalizing op base len with
  | zero => omega
  | succ fuel ih =>
    rw [operate, parts]
    cases found : findDev devs base with
    | none => rfl
    | some d =>
      obtain ⟨_, low, high⟩ := findDev_some found
      have room := @Dev.room_eq d base low high
      dsimp only
      by_cases can : drv.can op d = true
      · rw [if_pos can, lock_free]
        simp only [Option.bind_eq_bind, Option.bind_some, unlock_locked, room]
        rw [@loop_eq drv given d op base len low high]
        by_cases more : len > d.last + 1 - base
        · rw [if_pos more, if_pos more, mod_eq_of_lt (by omega), ih (by omega) (by omega)]
          simp only [go, can, if_true, Option.bind_some]
          split <;> rfl
        · rw [if_neg more, if_neg more]
          simp only [go, can, if_true, append_nil]
          split <;> rfl
      · rw [if_neg can]
        split <;> simp only [go, can, Bool.false_eq_true, if_false]

theorem operate_mono (le : fuel ≤ fuel') {r : Done} (ends : operate devs drv given fuel op held base len = some r) :
    operate devs drv given fuel' op held base len = some r := by
  refine fuel_mono (F := fun n x => operate devs drv given n x.1 x.2.1 x.2.2.1 x.2.2.2) (fun _ => rfl)
    (fun n m _ ih x => ?_) le (op, held, base, len) r ends
  rw [operate, operate]
  cases findDev devs x.2.2.1 with
  | none => exact .refl
  | some d =>
    exact .ite (fun can => .bind .refl fun locked _ => .ite (fun failed => .refl) fun _ =>
      .ite (fun more => .bind (ih (_, _, _, _)) fun later _ => .refl) fun _ => .refl) fun _ => .refl

theorem honest_iff (inside : base + len ≤ 2 ^ 32) : Honest devs drv given op base len ↔
    let l := go drv given (parts devs (len + 1) op base len).1 (parts devs (len + 1) op base len).2
    (l.stat = cygFlashErrOk ↔ (∀ t ∈ l.turns, t.stat = cygFlashErrOk) ∧ Processed devs op base len l.turns) ∧
      (l.stat ≠ cygFlashErrOk → Reported given l) := by
  have runs := @operate_eq devs drv given op base len (len + 1) (by omega) inside
  constructor
  · rintro ⟨fuel, r, ends, _, honest⟩
    have longer := operate_mono (le_max_left fuel (len + 1)) ends
    rw [operate_mono (le_max_right fuel (len + 1)) runs] at longer
    obtain rfl := Option.some.inj longer
    exact honest
  · intro honest
    exact ⟨len + 1, _, runs, rfl, honest⟩

end Ecos.Flash.Errors
