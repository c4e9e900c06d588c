import Ecos.Services.BlibRuns

namespace Ecos.Services.Blib
open List Option Nat Function
/-- The device fails while the modified blocks are written back. -/
def WriteFails (fails : Nat → Bool) (bl : Blib) : Prop :=
  ∃ i < bl.list.countP bl.modified, fails (bl.dev.calls + i) = true

/-- A power of two other than one. -/
def Acceptable (blockSize : UInt32) : Prop := ∃ k, 0 < k ∧ blockSize.toNat = 2 ^ k

/-- The states of a cache that was created, and whose size has only been set to an acceptable one. -/
inductive Reach (fails : Nat → Bool) : Blib → Prop
  | create {blank bl : Blib} {memSize blockSize : UInt32} {fuel : Nat}
      (created : blank.create fuel memSize.toNat blockSize.toNat = some (.ENOERR, bl)) : Reach fails bl
  | act {bl bl' : Blib} {a : Act} {out : Outcome} (reach : Reach fails bl)
      (taken : bl.act fails a = some (out, bl')) : Reach fails bl'
  | setBlockSize {bl bl' : Blib} {blockSize : UInt32} {fuel : Nat} {ret : Err} (reach : Reach fails bl)
    (allowed : WriteFails fails bl ∨ Acceptable blockSize)
      (set : bl.setBlockSize fails fuel blockSize.toNat = some (ret, bl')) : Reach fails bl'

/-- No later calls use the last block of an empty list. -/
def Serviceable (fails : Nat → Bool) (bl : Blib) : Prop := ∀ acts : List Act, (bl.run fails acts).isSome

/-- What a change of the block size owes the cache. -/
structure SafeChange (fails : Nat → Bool) (bl : Blib) (blockSize : UInt32) : Prop where
  ends : ∃ fuel, (bl.setBlockSize fails fuel blockSize.toNat).isSome
  failed : ∀ fuel ret bl', bl.setBlockSize fails fuel blockSize.toNat = some (ret, bl') → ret ≠ .ENOERR →
    bl'.blockSize = bl.blockSize ∧ bl'.blockSizeLog2 = bl.blockSizeLog2 ∧ bl'.list = bl.list ∧ bl'.tree = bl.tree ∧
      bl'.data = bl.data ∧ (∀ n, bl'.view n = bl.view n) ∧ (Serviceable fails bl → Serviceable fails bl')
  succeeded : ∀ fuel bl', bl.setBlockSize fails fuel blockSize.toNat = some (.ENOERR, bl') → Serviceable fails bl'

variable {fails : Nat → Bool} {bl bl' : Blib} {fuel : Nat} {blockSize : UInt32}

theorem Sound.serviceable (sound : bl.Sound) (narrow : bl.blockSize ≤ 2 ^ 31) (usable : 0 < bl.poolSize) :
    Serviceable fails bl := by
  intro acts
  obtain ⟨calls, last, run, _⟩ := run_spec fails acts sound usable narrow fun _ _ _ => rfl
  rw [run]
  rfl

theorem getBlock_empty (sound : bl.Sound) (empty : bl.poolSize = 0) {num : Nat} {readData : Bool} :
    bl.getBlock fails num readData = none := by
  have pool := sound.pool
  rw [empty] at pool
  obtain ⟨list, free⟩ := append_eq_nil_iff.mp pool.eq_nil
  rw [getBlock, lookup, list, free]
  rfl

theorem not_serviceable (sound : bl.Sound) (empty : bl.poolSize = 0) : ¬ Serviceable fails bl := by
  intro serviceable
  have run := serviceable [.bread 1 0]
  have stuck : bl.bread fails 1 0 = none := by
    rw [bread, if_pos (by decide), breadFrom, getBlock_empty sound empty]
  have act : bl.act fails (.bread 1 0) = none := congrArg (Option.map _) stuck
  rw [Blib.run, act] at run
  cases run

section Empty
variable {size bnum pos done : Nat} (sound : bl.Sound) (empty : bl.poolSize = 0)
include sound empty

theorem readFrom_empty {buf : List UInt8} {r : Err × List UInt8 × Blib}
    (run : readFrom fails fuel bl size bnum pos buf = some r) : r.2.2 = bl := by
  cases fuel with
  | zero => exact nomatch run
  | succ fuel =>
    rw [readFrom] at run
    split at run
    · simp only [getBlock_empty sound empty, reduceCtorEq] at run
    · exact (some.inj run).symm ▸ rfl

theorem writeFrom_empty {buf : Nat → UInt8} {r : Err × Nat × Blib}
    (run : writeFrom fails buf fuel bl size bnum pos done = some r) : r.2.2 = bl := by
  cases fuel with
  | zero => exact nomatch run
  | succ fuel =>
    rw [writeFrom] at run
    split at run
    · simp only [getBlock_empty sound empty, reduceCtorEq] at run
    · exact (some.inj run).symm ▸ rfl

theorem breadFrom_empty {buf : List UInt8} {r : Err × List UInt8 × Blib}
    (run : breadFrom fails size bl bnum buf = some r) : r.2.2 = bl := by
  cases size with
  | zero => exact (some.inj run).symm ▸ rfl
  | succ size => simp only [breadFrom, getBlock_empty sound empty, reduceCtorEq] at run

theorem bwriteFrom_empty {buf : Nat → UInt8} {r : Err × Nat × Blib}
    (run : bwriteFrom fails buf size bl bnum done = some r) : r.2.2 = bl := by
  cases size with
  | zero => exact (some.inj run).symm ▸ rfl
  | succ size => simp only [bwriteFrom, getBlock_empty sound empty, reduceCtorEq] at run

theorem act_empty {a : Act} {out : Outcome} (narrow : bl.blockSize ≤ 2 ^ 31)
    (taken : bl.act fails a = some (out, bl')) : bl'.Sound ∧ SameSizes bl bl' := by
  cases a with
  | read | write | bread | bwrite =>
    obtain ⟨r, run, same⟩ := map_eq_some_iff.mp taken
    obtain ⟨-, rfl⟩ := Prod.mk.inj same
    first
      | rw [readFrom_empty sound empty run]
      | rw [writeFrom_empty sound empty run]
      | rw [breadFrom_empty sound empty run]
      | rw [bwriteFrom_empty sound empty run]
    exact ⟨sound, .rfl⟩
  | sync =>
    obtain ⟨-, rfl⟩ := Prod.mk.inj (some.inj taken)
    obtain ⟨synced, _⟩ := sync_spec fails sound
    exact ⟨synced.sound sound, synced.sizes⟩
  | syncBlock num =>
    obtain ⟨-, rfl⟩ := Prod.mk.inj (some.inj taken)
    have synced := syncNum_spec fails num.toNat sound
    exact ⟨synced.sound sound, synced.sizes⟩
  | flush =>
    obtain ⟨r, run, same⟩ := map_eq_some_iff.mp taken
    obtain ⟨-, rfl⟩ := Prod.mk.inj same
    obtain ⟨ret, last, flushed, sizes, sound', _⟩ := flush_spec fails sound narrow
    obtain rfl := some.inj (flushed.symm.trans run)
    exact ⟨sound', sizes⟩

end Empty

theorem syncFrom_failed {blocks : List Nat} (nodup : blocks.Nodup) : (syncFrom fails blocks bl).1 ≠ .ENOERR ↔
    ∃ i < blocks.countP bl.modified, fails (bl.dev.calls + i) = true := by
  induction blocks generalizing bl with
  | nil => simp [syncFrom]
  | cons block rest ih =>
    obtain ⟨fresh, distinct⟩ := nodup_cons.mp nodup
    rw [syncFrom, syncBlock, countP_cons]
    by_cases dirty : bl.modified block = true
    · rw [if_pos dirty, if_pos dirty, Device.bwrite]
      by_cases broken : fails bl.dev.calls = true
      · rw [if_pos broken]
        exact ⟨fun _ => ⟨0, by omega, broken⟩, fun _ => Err.noConfusion⟩
      · rw [if_neg broken]
        refine ih distinct |>.trans ?_
        have count : rest.countP (update bl.modified block false) = rest.countP bl.modified :=
          countP_congr fun b mem => by rw [update_of_ne fun same : b = block => fresh (same ▸ mem)]
        rw [count]
        constructor
        · rintro ⟨i, below, fail⟩
          have next : bl.dev.calls + (i + 1) = bl.dev.calls + 1 + i := by omega
          exact ⟨i + 1, by omega, next ▸ fail⟩
        · rintro ⟨i, below, fail⟩
          rcases i with _ | i
          · exact absurd fail broken
          · exact ⟨i, by omega, by rwa [add_assoc, add_comm 1]⟩
    · rw [if_neg dirty, if_neg dirty]
      exact ih distinct

theorem sync_failed (sound : bl.Sound) : (bl.sync fails).1 ≠ .ENOERR ↔ WriteFails fails bl :=
  syncFrom_failed (nodup_append.mp sound.nodup).1

theorem Sound.usable (sound : bl.Sound) (mem : bl.list ≠ []) : 0 < bl.poolSize := by
  have count := sound.pool.length_eq
  have some := length_pos_iff.mpr mem
  rw [length_append, length_range] at count
  omega

theorem WriteFails.usable (broken : WriteFails fails bl) (sound : bl.Sound) : 0 < bl.poolSize := by
  obtain ⟨i, below, _⟩ := broken
  refine sound.usable fun empty => ?_
  rw [empty] at below
  exact absurd below (not_lt_zero i)

theorem setBlockSize_failing (blockSize : UInt32) (sound : bl.Sound)
    (broken : WriteFails fails bl) : ∃ ret, ret ≠ .ENOERR ∧
    ∃ mid, Synced bl mid ∧ ∀ fuel, bl.setBlockSize fails fuel blockSize.toNat = some (ret, mid) := by
  have failed := (sync_failed sound).mpr broken
  obtain ⟨synced, _⟩ := sync_spec fails sound
  rcases result : bl.sync fails with ⟨ret, mid⟩
  rw [result] at failed synced
  refine ⟨ret, failed, mid, synced, fun fuel => ?_⟩
  rw [setBlockSize, result]
  cases ret with
  | ENOERR => exact absurd rfl failed
  | EIO | EINVAL => rfl

theorem setBlockSize_written (blockSize : UInt32) (sound : bl.Sound)
    (written : ¬ WriteFails fails bl) : ∃ mid, Synced bl mid ∧
    ∀ fuel, bl.setBlockSize fails fuel blockSize.toNat = mid.start fuel bl.memSize blockSize.toNat := by
  have done := Decidable.not_not.mp (mt (sync_failed sound).mp written)
  obtain ⟨synced, _⟩ := sync_spec fails sound
  rcases result : bl.sync fails with ⟨ret, mid⟩
  rw [result] at done synced
  cases done
  refine ⟨mid, synced, fun fuel => ?_⟩
  rw [setBlockSize, result, ← synced.sizes.memSize]

theorem start_allowed {ret : Err} {mid : Blib} {memSize : Nat} (allowed : Acceptable blockSize)
    (starts : mid.start fuel memSize blockSize.toNat = some (ret, bl)) : ret = .ENOERR := by
  obtain ⟨k, positive, same⟩ := allowed
  rw [start] at starts
  split at starts
  · exact nomatch starts
  · rename_i log2 ends
    rw [same] at ends
    have log := getValLog2_unique ends (getValLog2_two_pow (lt_succ_self k))
    rw [if_neg (by omega)] at starts
    exact (Prod.mk.inj (some.inj starts)).1.symm

theorem Reach.working (reach : Reach fails bl) : bl.Sound ∧ bl.blockSize ≤ 2 ^ 31 := by
  induction reach with
  | create created =>
    obtain ⟨sound, _, narrow, _⟩ := start_accepted (UInt32.toNat_lt _) created rfl
    exact ⟨sound, narrow⟩
  | @act bl bl' a out reach taken ih =>
    obtain ⟨sound, narrow⟩ := ih
    rcases Nat.eq_zero_or_pos bl.poolSize with empty | usable
    · obtain ⟨sound', sizes⟩ := act_empty sound empty narrow taken
      exact ⟨sound', sizes.blockSize ▸ narrow⟩
    · obtain ⟨out, next, act, done⟩ := act_spec fails a sound usable narrow fun _ _ _ => rfl
      obtain ⟨-, rfl⟩ := Prod.mk.inj (some.inj (act.symm.trans taken))
      exact ⟨done.sound, done.sizes.blockSize ▸ narrow⟩
  | @setBlockSize bl bl' blockSize fuel ret reach allowed set ih =>
    obtain ⟨sound, narrow⟩ := ih
    by_cases broken : WriteFails fails bl
    · obtain ⟨ret, -, mid, synced, failing⟩ := setBlockSize_failing blockSize sound broken
      obtain ⟨-, rfl⟩ := Prod.mk.inj (some.inj ((failing fuel).symm.trans set))
      exact ⟨synced.sound sound, synced.sizes.blockSize ▸ narrow⟩
    · obtain ⟨mid, -, written⟩ := setBlockSize_written blockSize sound broken
      rw [written] at set
      have accepted := allowed.resolve_left broken
      obtain ⟨sound', _, narrow', _⟩ := start_accepted blockSize.toNat_lt set (start_allowed accepted set)
      exact ⟨sound', narrow'⟩

theorem SafeChange.of_failing (sound : bl.Sound) (narrow : bl.blockSize ≤ 2 ^ 31) (broken : WriteFails fails bl) :
    SafeChange fails bl blockSize := by
  obtain ⟨ret, failed, mid, synced, sets⟩ := setBlockSize_failing blockSize sound broken
  refine ⟨⟨0, by rw [sets]; rfl⟩, fun fuel ret' last set _ => ?_, fun fuel last set => ?_⟩
  · obtain ⟨-, rfl⟩ := Prod.mk.inj (some.inj ((sets fuel).symm.trans set))
    exact ⟨synced.sizes.blockSize, synced.sizes.log2, synced.list, synced.tree, synced.data, synced.view, fun _ =>
      (synced.sound sound).serviceable (synced.sizes.blockSize ▸ narrow) (synced.sizes.poolSize ▸ broken.usable sound)⟩
  · exact absurd (Prod.mk.inj (some.inj ((sets fuel).symm.trans set))).1 failed

theorem SafeChange.of_accepted (sound : bl.Sound) (written : ¬ WriteFails fails bl) (accepted : Acceptable blockSize)
    (fits : blockMemSize blockSize.toNat ≤ bl.memSize) : SafeChange fails bl blockSize := by
  obtain ⟨mid, synced, sets⟩ := setBlockSize_written blockSize sound written
  have positive : 0 < blockSize.toNat := by
    obtain ⟨k, -, same⟩ := accepted
    rw [same]
    exact Nat.two_pow_pos k
  obtain ⟨fuel, log2, ends⟩ := getValLog2_ends positive
  refine ⟨⟨fuel, ?_⟩, fun fuel ret last set failed => ?_, fun fuel last set => ?_⟩
  · rw [sets, start, ends]
    dsimp only
    split <;> rfl
  · rw [sets] at set
    exact absurd (start_allowed accepted set) failed
  · rw [sets] at set
    obtain ⟨sound', size, narrow, mem, _⟩ := start_accepted blockSize.toNat_lt set rfl
    refine sound'.serviceable narrow (div_pos (by rw [mem, size]; exact fits) ?_)
    exact blockMemSize_pos narrow

theorem SafeChange.accepted (sound : bl.Sound) (written : ¬ WriteFails fails bl)
    (safe : SafeChange fails bl blockSize) :
    Acceptable blockSize := by
  obtain ⟨mid, synced, sets⟩ := setBlockSize_written blockSize sound written
  obtain ⟨fuel, ends⟩ := safe.ends
  obtain ⟨⟨ret, last⟩, set⟩ := isSome_iff_exists.mp ends
  by_contra refused
  have starts := set
  rw [sets] at starts
  obtain ⟨rfl, size⟩ := start_refused starts fun k positive same => refused ⟨k, positive, same⟩
  have kept := (safe.failed fuel .EINVAL last set nofun).1
  exact refused ⟨bl.blockSizeLog2, sound.wide, by rw [← size, kept, sound.size]⟩

theorem SafeChange.fits (sound : bl.Sound) (written : ¬ WriteFails fails bl) (safe : SafeChange fails bl blockSize) :
    blockMemSize blockSize.toNat ≤ bl.memSize := by
  have accepted := safe.accepted sound written
  obtain ⟨mid, synced, sets⟩ := setBlockSize_written blockSize sound written
  obtain ⟨fuel, ends⟩ := safe.ends
  obtain ⟨⟨ret, last⟩, set⟩ := isSome_iff_exists.mp ends
  have starts := set
  rw [sets] at starts
  obtain rfl := start_allowed accepted starts
  obtain ⟨sound', size, _, mem, _⟩ := start_accepted blockSize.toNat_lt starts rfl
  by_contra tight
  refine not_serviceable sound' ?_ (safe.succeeded fuel last set)
  rw [poolSize, mem, size, div_eq_of_lt (by omega)]

/-- A change of the block size is safe exactly if the write-back fails, or the size is acceptable and one block of it
fits the memory of the cache. -/
theorem block_size_changes_safely (reach : Reach fails bl) : SafeChange fails bl blockSize ↔
    WriteFails fails bl ∨ Acceptable blockSize ∧ blockMemSize blockSize.toNat ≤ bl.memSize := by
  obtain ⟨sound, narrow⟩ := reach.working
  by_cases broken : WriteFails fails bl
  · exact ⟨fun _ => .inl broken, fun _ => .of_failing sound narrow broken⟩
  · refine ⟨fun safe => .inr ⟨safe.accepted sound broken, safe.fits sound broken⟩, ?_⟩
    rintro (fails | ⟨accepted, fits⟩)
    · exact absurd fails broken
    · exact .of_accepted sound broken accepted fits

/-- A cache of two blocks of 512 bytes. -/
def small : Blib :=
  { zeros with
    free := [1, 0]
    blockSize := 512
    blockSizeLog2 := 9
    memSize := 1200 }

theorem small_reach : Reach fails small :=
  .create (show zeros.create 32 (1200 : UInt32).toNat (512 : UInt32).toNat = some (.ENOERR, small) from rfl)

theorem block_size_changes_safely_larger : SafeChange (fun _ => false) small 1024 ↔
    WriteFails (fun _ => false) small ∨ Acceptable 1024 ∧ blockMemSize (1024 : UInt32).toNat ≤ small.memSize :=
  block_size_changes_safely small_reach

/-- A size of zero is never done with, and one that is no power of two leaves the cache with it. -/
theorem block_size_changes_unsafely : Reach (fun _ => false) small ∧
    (∀ fuel, small.setBlockSize (fun _ => false) fuel (0 : UInt32).toNat = none) ∧
    (∃ last, small.setBlockSize (fun _ => false) 32 (1000 : UInt32).toNat = some (.EINVAL, last) ∧
      last.blockSize = 1000) ∧
    ¬ SafeChange (fun _ => false) small 1000 := by
  have set : small.setBlockSize (fun _ => false) 32 (1000 : UInt32).toNat = some (.EINVAL, _) := rfl
  refine ⟨small_reach, fun fuel => ?_, ⟨_, set, rfl⟩, fun safe => ?_⟩
  · change small.start fuel small.memSize 0 = none
    rw [start, getValLog2_zero]
  · exact absurd (safe.failed 32 .EINVAL _ set (by decide)).1 (by decide)

end Ecos.Services.Blib
