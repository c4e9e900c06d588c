import Mathlib.Tactic.Ring
import Ecos.Services.BlibLoops
import Mathlib.Data.Nat.Factorization.Basic

namespace Ecos.Services
open List Option Nat
variable {fuel k m n val log2 blockSize memSize block : Nat}

section Log2

theorem shiftOut_pow (odd : m % 2 = 1) (enough : k < fuel) : shiftOut fuel (2 ^ k * m) log2 = some (m, log2 + k) := by
  induction k generalizing fuel log2 with
  | zero =>
    obtain ⟨fuel, rfl⟩ : ∃ f, fuel = f + 1 := ⟨fuel - 1, by omega⟩
    simp [shiftOut, and_one_is_mod, odd]
  | succ k ih =>
    obtain ⟨fuel, rfl⟩ : ∃ f, fuel = f + 1 := ⟨fuel - 1, by omega⟩
    have half : 2 ^ (k + 1) * m = 2 * (2 ^ k * m) := by ring
    rw [shiftOut, and_one_is_mod, shiftRight_one, half, if_pos (by omega),
      Nat.mul_div_cancel_left _ (by decide), ih (by omega)]
    congr 2
    omega

theorem shiftOut_zero : shiftOut fuel 0 log2 = none := by
  induction fuel generalizing log2 with
  | zero => rfl
  | succ fuel ih => exact ih

theorem shiftOut_sound {odd last : Nat} (ends : shiftOut fuel val log2 = some (odd, last)) :
    ∃ k, last = log2 + k ∧ val = 2 ^ k * odd ∧ odd % 2 = 1 := by
  induction fuel generalizing val log2 with
  | zero => exact nomatch ends
  | succ fuel ih =>
    rw [shiftOut, and_one_is_mod, shiftRight_one] at ends
    split at ends
    · rename_i even
      obtain ⟨k, rfl, same, one⟩ := ih ends
      refine ⟨k + 1, by omega, ?_, one⟩
      have double : 2 ^ (k + 1) * odd = 2 * (2 ^ k * odd) := by ring
      omega
    · cases ends
      exact ⟨0, rfl, by omega, by omega⟩

theorem shiftOut_more {more : Nat} {r : Nat × Nat} (ends : shiftOut fuel val log2 = some r) (later : fuel ≤ more) :
    shiftOut more val log2 = some r := by
  induction fuel generalizing val log2 more with
  | zero => exact nomatch ends
  | succ fuel ih =>
    obtain ⟨more, rfl⟩ : ∃ m, more = m + 1 := ⟨more - 1, by omega⟩
    rw [shiftOut] at ends ⊢
    split at ends
    · rename_i even
      rw [if_pos even]
      exact ih ends (by omega)
    · rename_i odd
      rw [if_neg odd]
      exact ends

theorem getValLog2_zero : getValLog2 fuel 0 = none := by
  rw [getValLog2, shiftOut_zero]

theorem getValLog2_two_pow (enough : k < fuel) : getValLog2 fuel (2 ^ k) = some k := by
  have ends : shiftOut fuel (2 ^ k * 1) 0 = _ := shiftOut_pow rfl enough
  rw [mul_one, zero_add] at ends
  simp [getValLog2, ends]

theorem getValLog2_unique {more other : Nat} (ends : getValLog2 fuel val = some log2)
    (again : getValLog2 more val = some other) : log2 = other := by
  rw [getValLog2] at ends again
  split at ends
  · exact nomatch ends
  · rename_i first run
    split at again
    · exact nomatch again
    · rename_i second run'
      have longer := shiftOut_more run (le_max_left fuel more)
      rw [shiftOut_more run' (le_max_right fuel more)] at longer
      cases longer
      exact some.inj (ends.symm.trans again)

theorem getValLog2_sound (ends : getValLog2 fuel val = some log2) (some : 0 < log2) : val = 2 ^ log2 := by
  rw [getValLog2] at ends
  split at ends
  · exact nomatch ends
  · rename_i odd last run
    obtain ⟨k, rfl, rfl, _⟩ := shiftOut_sound run
    split at ends
    · exact absurd (Option.some.inj ends) (by omega)
    · rename_i one
      rw [Decidable.not_not.mp one, mul_one, ← Option.some.inj ends, zero_add]

theorem getValLog2_ends (positive : 0 < val) : ∃ fuel log2, getValLog2 fuel val = some log2 := by
  obtain ⟨k, odd, one, rfl⟩ := exists_eq_two_pow_mul_odd positive.ne'
  refine ⟨k + 1, ?_⟩
  rw [getValLog2, shiftOut_pow (odd_iff.mp one) (lt_succ_self k)]
  dsimp only
  split <;> exact ⟨_, rfl⟩

end Log2

section Start

theorem carve_eq (positive : 0 < m) (enough : n ≤ fuel) {free : List Nat} : carve m fuel n k free =
    (List.range' k (n / m)).reverse ++ free := by
  induction fuel generalizing n k free with
  | zero =>
    have empty : n = 0 := by omega
    simp [carve, empty]
  | succ fuel ih =>
    rw [carve]
    by_cases fits : m ≤ n
    · have count : n / m = (n - m) / m + 1 := by
        rw [div_eq_sub_div positive fits]
      rw [if_pos fits, ih (by omega), count, range'_succ]
      simp
    · rw [if_neg fits, div_eq_of_lt (by omega)]
      rfl

theorem blockMemSize_pos (narrow : blockSize ≤ 2 ^ 31) : 0 < blockMemSize blockSize := by
  rw [blockMemSize, sizeofBlock]
  omega

namespace Blib
variable {fails : Nat → Bool} {bl : Blib}

theorem start_spec (bl : Blib) (memSize : Nat) (positive : 0 < k) (narrow : k ≤ 31) (ends : getValLog2 fuel
    (2 ^ k) = some k) : ∃ bl',
    bl.start fuel memSize (2 ^ k) = some (.ENOERR, bl') ∧ bl'.Sound ∧ bl'.blockSize = 2 ^ k ∧ bl'.memSize = memSize ∧
      bl'.dev = bl.dev ∧ ∀ n, bl'.view n = bl.dev.bytes n := by
  rw [start, ends]
  dsimp only
  rw [if_neg (by omega)]
  refine ⟨_, rfl, ⟨rfl, positive, fun n b => ⟨nofun, nofun⟩, ?_, nofun⟩, rfl, rfl, rfl, fun _ => rfl⟩
  have small := blockMemSize_pos (Nat.pow_le_pow_right (by decide) narrow : 2 ^ k ≤ 2 ^ 31)
  rw [nil_append, carve_eq small le_rfl, append_nil, range_eq_range']
  exact reverse_perm _

theorem start_refused {ret : Err} {last : Blib} (starts : bl.start fuel memSize blockSize = some (ret, last))
    (other : ∀ k, 0 < k → blockSize ≠ 2 ^ k) : ret = .EINVAL ∧ last.blockSize = blockSize := by
  rw [start] at starts
  split at starts
  · cases starts
  · rename_i log2 ends
    split at starts
    · obtain ⟨rfl, rfl⟩ := Prod.mk.inj (some.inj starts)
      exact ⟨rfl, rfl⟩
    · rename_i accepted
      have positive : 0 < log2 := by omega
      exact absurd (getValLog2_sound ends positive) (other log2 positive)

end Blib
end Start

/-- The calls that keep the block size, with their 32-bit arguments. -/
inductive Act
  | read (len bnum pos : UInt32)
  | write (buf : Nat → UInt8) (len bnum pos : UInt32)
  | bread (len pos : UInt32)
  | bwrite (buf : Nat → UInt8) (len pos : UInt32)
  | sync
  | syncBlock (num : UInt32)
  | flush

/-- What a call returns: the bytes that it read, and `*len`. -/
structure Outcome where
  ret : Err
  bytes : List UInt8
  count : Nat

namespace Blib
variable (fails : Nat → Bool)

def act (bl : Blib) : Act → Option (Outcome × Blib)
  | .read len bnum pos =>
    (bl.read fails len.toNat bnum.toNat pos.toNat).map fun r => (⟨r.1, r.2.1, r.2.1.length⟩, r.2.2)
  | .write buf len bnum pos =>
    (bl.write fails buf len.toNat bnum.toNat pos.toNat).map fun r => (⟨r.1, [], r.2.1⟩, r.2.2)
  | .bread len pos =>
    (bl.bread fails len.toNat pos.toNat).map fun r => (⟨r.1, r.2.1, r.2.1.length / bl.blockSize⟩, r.2.2)
  | .bwrite buf len pos => (bl.bwrite fails buf len.toNat pos.toNat).map fun r => (⟨r.1, [], r.2.1⟩, r.2.2)
  | .sync => some (⟨(bl.sync fails).1, [], 0⟩, (bl.sync fails).2)
  | .syncBlock num => some (⟨(bl.syncNum fails num.toNat).1, [], 0⟩, (bl.syncNum fails num.toNat).2)
  | .flush => (bl.flush fails 32).map fun r => (⟨r.1, [], 0⟩, r.2)

/-- One call after another, with what each returned. -/
def run : List Act → Blib → Option (List (Act × Outcome) × Blib)
  | [], bl => some ([], bl)
  | a :: acts, bl =>
    match bl.act fails a with
    | none => none
    | some (out, bl) => (run acts bl).map fun r => ((a, out) :: r.1, r.2)

end Blib

/-- The contents after a call, from those before it and how much it has written. -/
def Act.record (blockSize : Nat) (contents : Nat → Nat → UInt8) (a : Act) (out : Outcome) : Nat → Nat → UInt8 :=
  match a with
  | .write buf _ bnum pos => Blib.store contents (Blib.locate blockSize bnum.toNat pos.toNat) buf out.count
  | .bwrite buf _ pos => Blib.store contents (Blib.locate blockSize pos.toNat 0) buf (out.count * blockSize)
  | _ => contents

/-- How much of a length counts: it is a signed number. -/
def signedLen (len : UInt32) : Nat := if len.toNat < 2 ^ 31 then len.toNat else 0

theorem signedLen_lt (len : UInt32) : signedLen len < 2 ^ 31 := by
  rw [signedLen]
  split <;> omega

theorem signedLen_le (len : UInt32) : signedLen len < len.toNat + 1 := by
  rw [signedLen]
  split <;> omega

/-- What a call owes its caller over the contents before it: a read returns them, and a call that succeeds did all. -/
def Act.Faithful (blockSize : Nat) (contents : Nat → Nat → UInt8) (out : Outcome) (dev : Device) : Act → Prop
  | .read len bnum pos =>
    out.bytes = (List.range out.count).map (fun j =>
      let place := Blib.locate blockSize bnum.toNat pos.toNat j
      contents place.1 place.2) ∧ (out.ret = .ENOERR → out.count = signedLen len)
  | .bread len pos =>
    out.bytes = (List.range (out.count * blockSize)).map (fun j =>
      let place := Blib.locate blockSize pos.toNat 0 j
      contents place.1 place.2) ∧ (out.ret = .ENOERR → out.count = signedLen len)
  | .write _ len _ _ | .bwrite _ len _ => out.ret = .ENOERR → out.count = signedLen len
  | .sync | .flush => out.ret = .ENOERR → ∀ n, ∀ i < blockSize, dev.bytes n i = contents n i
  | .syncBlock _ => True

namespace Blib
variable {fails : Nat → Bool} {bl : Blib} {contents : Nat → Nat → UInt8} {a : Act}

/-- What a cache that has blocks does for a call. -/
structure Done (bl : Blib) (contents : Nat → Nat → UInt8) (a : Act) (out : Outcome) (bl' : Blib) : Prop where
  sizes : SameSizes bl bl'
  sound : bl'.Sound
  shows : ∀ n, ∀ i < bl.blockSize, bl'.view n i = a.record bl.blockSize contents out n i
  faithful : a.Faithful bl.blockSize contents out bl'.dev

theorem locate_snd (sound : bl.Sound) {bnum pos j : Nat} : (locate bl.blockSize bnum pos j).2 < bl.blockSize :=
  Nat.mod_lt _ (by rw [sound.size]; exact Nat.two_pow_pos _)

theorem flush_spec (fails : Nat → Bool) (sound : bl.Sound) (narrow : bl.blockSize ≤ 2 ^ 31) :
    ∃ ret bl', bl.flush fails 32 = some (ret, bl') ∧
    SameSizes bl bl' ∧ bl'.Sound ∧ (∀ n, bl'.view n = bl.view n) ∧
      (ret = .ENOERR → ∀ n, bl'.dev.bytes n = bl.view n) := by
  obtain ⟨synced, _⟩ := sync_spec fails sound
  have device (n : Nat) := @sync_device fails _ n sound
  rw [flush, setBlockSize]
  rcases result : bl.sync fails with ⟨ret, mid⟩
  rw [result] at synced device
  cases ret with
  | ENOERR =>
    have log2 : bl.blockSizeLog2 ≤ 31 := (Nat.pow_le_pow_iff_right (by decide : 1 < 2)).mp (sound.size ▸ narrow)
    obtain ⟨last, starts, sound', size, mem, dev, shows⟩ := start_spec mid mid.memSize sound.wide log2
      (getValLog2_two_pow (by omega : _ < 32))
    rw [← sound.size] at starts size
    have same : last.blockSizeLog2 = bl.blockSizeLog2 :=
      Nat.pow_right_injective (le_refl 2) (sound'.size.symm.trans (size.trans sound.size))
    exact ⟨.ENOERR, last, starts, ⟨size, same, mem.trans synced.sizes.memSize⟩, sound',
      fun n => (shows n).trans (device n rfl), fun _ n => dev ▸ device n rfl⟩
  | EIO => exact ⟨ Err.EIO, mid, rfl, synced.sizes, synced.sound sound, synced.view, nofun⟩
  | EINVAL => exact ⟨.EINVAL, mid, rfl, synced.sizes, synced.sound sound, synced.view, nofun⟩

theorem syncNum_spec (fails : Nat → Bool) (num : Nat) (sound : bl.Sound) : Synced bl (bl.syncNum fails num).2 := by
  rw [syncNum]
  split
  · rename_i block held
    exact (syncBlock_spec fails sound.tracked sound.clean ((sound.tracked _ _).mp held).1).1
  · exact .rfl sound.clean

theorem act_spec (fails : Nat → Bool) (a : Act) (sound : bl.Sound) (usable : 0 < bl.poolSize)
    (narrow : bl.blockSize ≤ 2 ^ 31)
    (shows : ∀ n, ∀ i < bl.blockSize, bl.view n i = contents n i) :
    ∃ out bl', bl.act fails a = some (out, bl') ∧ Done bl contents a out bl' := by
  have read {k bnum pos : Nat} : (List.range k).map (fun j => bl.shown (locate bl.blockSize bnum pos j)) =
      (List.range k).map fun j =>
        let place := locate bl.blockSize bnum pos j
        contents place.1 place.2 := by
    exact map_congr_left fun j _ => shows _ _ (locate_snd sound)
  have still {bl' : Blib} (view : ∀ n, bl'.view n = bl.view n) (n i : Nat) (inside : i < bl.blockSize) :
      bl'.view n i = contents n i := by rw [view, shows n i inside]
  cases a with
  | read len bnum pos =>
    obtain ⟨ret, k, last, run, within, all, missed⟩ := readFrom_spec fails [] sound usable narrow (signedLen_lt len)
      (normalise_inside bnum.toNat pos.toNat sound.size) (normalise_narrow bl pos.toNat bnum.toNat_lt)
        (signedLen_le len)
    simp only [locate_normalise sound.size] at run
    refine ⟨⟨ret, _, _⟩, last, congrArg (Option.map _) run, missed.sizes, missed.sound, still missed.view, ?_, ?_⟩
    · rw [nil_append, length_map, length_range, read]
    · intro done
      rw [nil_append, length_map, length_range, all done]
  | write buf len bnum pos =>
    obtain ⟨ret, k, last, run, within, all, sizes, sound', view⟩ := writeFrom_spec fails buf 0 sound usable narrow
      (signedLen_lt len) (normalise_inside bnum.toNat pos.toNat sound.size)
        (normalise_narrow bl pos.toNat bnum.toNat_lt)
      (signedLen_le len)
    rw [zero_add] at run
    refine ⟨⟨ret, [], k⟩, last, congrArg (Option.map _) run, sizes, sound', fun n i inside => ?_, all⟩
    simp only [zero_add] at view
    rw [view n i inside]
    exact store_congr (shows n i inside) fun j _ => locate_normalise sound.size
  | bread len pos =>
    obtain ⟨ret, k, last, run, within, all, missed⟩ := breadFrom_spec fails [] (signedLen len) sound usable
      pos.toNat_lt
    have positive : 0 < bl.blockSize := by rw [sound.size]; exact Nat.two_pow_pos _
    refine ⟨⟨ret, _, _⟩, last, congrArg (Option.map _) run, missed.sizes, missed.sound, still missed.view, ?_, ?_⟩
    · rw [nil_append, length_map, length_range, Nat.mul_div_cancel _ positive, read]
    · intro done
      rw [nil_append, length_map, length_range, Nat.mul_div_cancel _ positive, all done]
  | bwrite buf len pos =>
    obtain ⟨ret, k, last, run, within, all, sizes, sound', view⟩ := bwriteFrom_spec fails buf (signedLen len) 0 sound
      usable pos.toNat_lt
    rw [zero_add] at run
    refine ⟨⟨ret, [], k⟩, last, congrArg (Option.map _) run, sizes, sound', fun n i inside => ?_, all⟩
    simp only [zero_mul, zero_add] at view
    rw [view n i inside]
    exact store_congr (shows n i inside) fun _ _ => rfl
  | sync =>
    obtain ⟨synced, _⟩ := sync_spec fails sound
    refine ⟨_, _, rfl, synced.sizes, synced.sound sound, still synced.view, fun done n i inside => ?_⟩
    rw [sync_device sound done, shows n i inside]
  | syncBlock num =>
    have synced := syncNum_spec fails num.toNat sound
    exact ⟨_, _, rfl, synced.sizes, synced.sound sound, still synced.view, trivial⟩
  | flush =>
    obtain ⟨ret, last, run, sizes, sound', view, device⟩ := flush_spec fails sound narrow
    refine ⟨⟨ret, [], 0⟩, last, congrArg (Option.map _) run, sizes, sound', still view, fun done n i inside => ?_⟩
    rw [device done, shows n i inside]

theorem run_spec (fails : Nat → Bool) (acts : List Act) (sound : bl.Sound) (usable : 0 < bl.poolSize)
    (narrow : bl.blockSize ≤ 2 ^ 31)
    (shows : ∀ n, ∀ i < bl.blockSize, bl.view n i = contents n i) :
    ∃ calls bl', bl.run fails acts = some (calls, bl') ∧ SameSizes bl bl' ∧ bl'.Sound ∧ ∀ n, ∀ i < bl.blockSize,
      bl'.view n i = calls.foldl (fun contents call => call.1.record bl.blockSize contents call.2) contents n i := by
  induction acts generalizing bl contents with
  | nil => exact ⟨[], bl, rfl, .rfl, sound, shows⟩
  | cons a acts ih =>
    obtain ⟨out, mid, act, done⟩ := act_spec fails a sound usable narrow shows
    have size := done.sizes.blockSize
    obtain ⟨calls, last, run, sizes, sound', view⟩ := @ih mid (a.record bl.blockSize contents out) done.sound
      (done.sizes.poolSize ▸ usable) (size ▸ narrow) fun n i inside => done.shows n i (size ▸ inside)
    refine ⟨(a, out) :: calls, last, ?_, done.sizes.trans sizes, sound', fun n i inside => ?_⟩
    · rw [Blib.run, act]
      exact congrArg (Option.map _) run
    · rw [view n i (size ▸ inside), size]
      rfl

end Blib
end Ecos.Services

namespace Ecos.Services.Blib
variable {fails : Nat → Bool} {blank bl : Blib} {fuel memSize blockSize : Nat}

theorem start_accepted {ret : Err} (narrow : blockSize < 2 ^ 32)
    (starts : blank.start fuel memSize blockSize = some (ret, bl)) (done : ret = .ENOERR) :
    bl.Sound ∧ bl.blockSize = blockSize ∧ bl.blockSize ≤ 2 ^ 31 ∧ bl.memSize = memSize ∧
      ∀ n, bl.view n = blank.dev.bytes n := by
  have run := starts
  rw [start] at run
  split at run
  · cases run
  · rename_i log2 ends
    split at run
    · cases (Prod.mk.inj (Option.some.inj run)).1.trans done
    · have positive : 0 < log2 := by omega
      obtain rfl := getValLog2_sound ends positive
      have short : log2 ≤ 31 := Nat.le_of_lt_succ ((Nat.pow_lt_pow_iff_right (by decide : 1 < 2)).mp narrow)
      obtain ⟨last, started, sound, size, mem, -, shows⟩ := start_spec blank memSize positive short ends
      obtain rfl := (Prod.mk.inj (Option.some.inj (started.symm.trans starts))).2
      exact ⟨sound, size, size ▸ Nat.pow_le_pow_right (by decide) short, mem, shows⟩

/-- The block cache refines its device: over any run, whatever calls of the device fail, reads return the device's
first contents with the bytes written since, and after a sync or a flush the device holds them. -/
theorem cache_refines_device {blockSize : UInt32} {acts : List Act}
    (created : blank.create fuel memSize blockSize.toNat = some (.ENOERR, bl)) (usable : 0 < bl.poolSize) :
    ∃ calls bl', bl.run fails acts = some (calls, bl') ∧
      (bl'.list ++ bl'.free).Perm (List.range bl.poolSize) ∧
      (∀ n block, bl'.tree n = some block ↔ block ∈ bl'.list ∧ bl'.num block = n) ∧
      (∀ block ∈ bl'.list, bl'.modified block = false → bl'.data block = bl'.dev.bytes (bl'.num block)) ∧
      ∀ a, ∃ out bl'', bl'.act fails a = some (out, bl'') ∧ a.Faithful blockSize.toNat
        (calls.foldl (fun contents call => call.1.record blockSize.toNat contents call.2) blank.dev.bytes) out
          bl''.dev := by
  obtain ⟨sound, size, narrow, -, shows⟩ := start_accepted blockSize.toNat_lt created rfl
  obtain ⟨calls, last, run, sizes, sound', view⟩ := run_spec fails acts sound usable narrow
    fun n i _ => congrFun (shows n) i
  refine ⟨calls, last, run, sizes.poolSize ▸ sound'.pool, sound'.tracked, sound'.clean, fun a => ?_⟩
  obtain ⟨out, next, act, done⟩ := act_spec fails a sound' (sizes.poolSize ▸ usable)
    (sizes.blockSize ▸ narrow) fun n i inside => view n i (sizes.blockSize ▸ inside)
  have same : last.blockSize = blockSize.toNat := sizes.blockSize.trans size
  have faithful := done.faithful
  rw [same, size] at faithful
  exact ⟨out, next, act, faithful⟩

/-- A device of zeros under a cache that is not set up. -/
def zeros : Blib where
  list := []
  tree _ := none
  free := []
  num _ := 0
  modified _ := false
  data _ _ := 0
  blockSize := 0
  blockSizeLog2 := 0
  memSize := 0
  dev := ⟨fun _ _ => 0, 0⟩

theorem cache_refines_device_two : ∃ bl calls bl', zeros.create 32 1200 (512 : UInt32).toNat = some (.ENOERR, bl) ∧
    bl.run (fun call => call == 2) [.write (fun _ => 7) 600 0 100, .sync] = some (calls, bl') ∧
    (bl'.list ++ bl'.free).Perm (List.range bl.poolSize) := by
  have created : zeros.create 32 1200 (512 : UInt32).toNat = some (.ENOERR, _) := rfl
  obtain ⟨calls, last, run, pool, _⟩ := cache_refines_device created (by decide)
  exact ⟨_, calls, last, created, run, pool⟩

end Ecos.Services.Blib
