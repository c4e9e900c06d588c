import Ecos.Services.BlibSteps

namespace Ecos.Services.Blib
open List Nat
variable {fails : Nat → Bool} {bl : Blib} {blockSize bnum pos size fuel done : Nat} {buf : List UInt8}

/-- The block and the offset of a byte so many places after `pos` in the block `bnum`. -/
def locate (blockSize bnum pos j : Nat) : Nat × Nat := ((bnum + (pos + j) / blockSize) % 2 ^ 32, (pos + j) % blockSize)

/-- The byte that the cache shows at a place. -/
def shown (bl : Blib) (place : Nat × Nat) : UInt8 := bl.view place.1 place.2

/-- Contents after bytes have been written to one place after the other. -/
def store (contents : Nat → Nat → UInt8) (place : Nat → Nat × Nat) (bytes : Nat → UInt8) : Nat → Nat → Nat → UInt8
  | 0, n, i => contents n i
  | k + 1, n, i => if place k = (n, i) then bytes k else store contents place bytes k n i

section Places

theorem locate_here (near : pos + done < blockSize) (narrow : bnum < 2 ^ 32) :
    locate blockSize bnum pos done = (bnum, pos + done) := by
  rw [locate, Nat.div_eq_of_lt near, Nat.mod_eq_of_lt near, Nat.add_zero, Nat.mod_eq_of_lt narrow]

theorem locate_next (bnum done : Nat) (inside : pos < blockSize) :
    locate blockSize bnum pos (blockSize - pos + done) = locate blockSize ((bnum + 1) % 2 ^ 32) 0 done := by
  have whole : pos + (blockSize - pos + done) = blockSize + done := by omega
  rw [locate, locate, whole, Nat.zero_add, Nat.add_div_left _ (by omega), Nat.add_mod_left]
  congr 1
  omega

theorem normalise_inside (bnum pos : Nat) (size : bl.blockSize = 2 ^ bl.blockSizeLog2) :
    (bl.normalise bnum pos).2 < bl.blockSize := by
  have some : 0 < bl.blockSize := by rw [size]; exact Nat.two_pow_pos _
  rw [normalise]
  split
  · rw [size, and_two_pow_sub_one_eq_mod, ← size]
    exact mod_lt _ some
  · omega

theorem normalise_narrow (bl : Blib) (pos : Nat) (narrow : bnum < 2 ^ 32) : (bl.normalise bnum pos).1 < 2 ^ 32 := by
  rw [normalise]
  split
  · exact mod_lt _ (by decide)
  · exact narrow

theorem locate_normalise (size : bl.blockSize = 2 ^ bl.blockSizeLog2) :
    locate bl.blockSize (bl.normalise bnum pos).1 (bl.normalise bnum pos).2 done = locate bl.blockSize bnum pos done
      := by
  have some : 0 < bl.blockSize := by rw [size]; exact Nat.two_pow_pos _
  have masked : pos &&& (bl.blockSize - 1) = pos % bl.blockSize := by rw [size, and_two_pow_sub_one_eq_mod]
  have parts : pos + done = bl.blockSize * (pos / bl.blockSize) + (pos % bl.blockSize + done) := by
    rw [← Nat.add_assoc, Nat.div_add_mod]
  rw [normalise]
  split
  · rw [shiftRight_eq_div_pow, ← size, masked, locate, locate, parts, mul_add_div some, mul_add_mod]
    congr 1
    dsimp only
    omega
  · rfl

theorem chunk_eq (inside : pos < bl.blockSize) (narrow : bl.blockSize ≤ 2 ^ 31) (short : size < 2 ^ 31) :
    bl.chunk size pos = min size (bl.blockSize - pos) := by
  rw [chunk, mod_eq_of_lt (by omega)]
  split <;> omega

end Places

section Read

theorem readFrom_spec (fails : Nat → Bool) (buf : List UInt8) (sound : bl.Sound) (usable : 0 < bl.poolSize)
    (narrow : bl.blockSize ≤ 2 ^ 31)
    (short : size < 2 ^ 31) (inside : pos < bl.blockSize) (number : bnum < 2 ^ 32) (enough : size < fuel) :
    ∃ ret k bl', readFrom fails fuel bl size bnum pos buf =
        some (ret, buf ++ (List.range k).map fun j => bl.shown (locate bl.blockSize bnum pos j), bl') ∧
      k ≤ size ∧ (ret = .ENOERR → k = size) ∧ Missed bl bl' := by
  induction fuel generalizing bl size bnum pos buf with
  | zero => omega
  | succ fuel ih =>
    rw [readFrom]
    by_cases more : 0 < size
    · rw [if_pos more]
      obtain ⟨ret, block, mid, found, served⟩ :=
        getBlock_spec fails bnum true sound usable
      rw [found]
      cases ret with
      | ENOERR =>
        have got : Got .. := served
        have kept := got.missed sound
        have count := chunk_eq inside narrow short
        rw [← kept.sizes.poolSize] at usable
        have wide := kept.sizes.blockSize
        obtain ⟨ret, k, last, run, within, all, keeps⟩ := @ih mid ((bnum + 1) % 2 ^ 32) 0
          (size - bl.chunk size pos) (buf ++ (List.range (bl.chunk size pos)).map fun i => mid.data block (pos + i))
          kept.sound usable (by omega) (by omega) (by omega) (mod_lt _ (by decide)) (by omega)
        refine ⟨ret, bl.chunk size pos + k, last, ?_, by omega, fun done => ?_, ?_⟩
        · have first : (List.range (bl.chunk size pos)).map (fun i => mid.data block (pos + i)) =
              (List.range (bl.chunk size pos)).map fun j => bl.shown (locate bl.blockSize bnum pos j) := by
            refine map_congr_left fun j mem => ?_
            rw [mem_range] at mem
            rw [locate_here (by omega) number, shown, ← got.view bnum fun _ => rfl, view_some got.held]
          have rest : (List.range k).map (fun j => mid.shown (locate mid.blockSize ((bnum + 1) % 2 ^ 32) 0 j)) =
              (List.range k).map fun j => bl.shown (locate bl.blockSize bnum pos (bl.chunk size pos + j)) := by
            refine map_congr_left fun j mem => ?_
            rw [mem_range] at mem
            have left : bl.chunk size pos = bl.blockSize - pos := by omega
            rw [left, locate_next _ _ inside, wide, shown, shown, kept.view]
          dsimp only
          rw [run, first, rest, append_assoc, range_add, map_append, map_map]
          rfl
        · have := all done
          omega
        · exact ⟨kept.sizes.trans keeps.sizes, keeps.sound, fun n => (keeps.view n).trans (kept.view n)⟩
      | EIO => exact ⟨ Err.EIO, 0, mid, by simp, by omega, nofun, served⟩
      | EINVAL => exact ⟨.EINVAL, 0, mid, by simp, by omega, nofun, served⟩
    · exact ⟨.ENOERR, 0, bl, by simp [more], by omega, fun _ => by omega, .rfl, sound, fun _ => rfl⟩

theorem breadFrom_spec (fails : Nat → Bool) (buf : List UInt8) (size : Nat) (sound : bl.Sound)
    (usable : 0 < bl.poolSize) (number : bnum < 2 ^ 32) :
    ∃ ret k bl', breadFrom fails size bl bnum buf = some (ret, buf ++ (List.range (k * bl.blockSize)).map
        fun j => bl.shown (locate bl.blockSize bnum 0 j), bl') ∧
      k ≤ size ∧ (ret = .ENOERR → k = size) ∧ Missed bl bl' := by
  induction size generalizing bl bnum buf with
  | zero => exact ⟨.ENOERR, 0, bl, by simp [breadFrom], Nat.le_refl _, fun _ => rfl, .rfl, sound, fun _ => rfl⟩
  | succ size ih =>
    rw [breadFrom]
    obtain ⟨ret, block, mid, found, served⟩ :=
      getBlock_spec fails bnum true sound usable
    rw [found]
    cases ret with
    | ENOERR =>
      have got : Got .. := served
      have kept := got.missed sound
      rw [← kept.sizes.poolSize] at usable
      have wide := kept.sizes.blockSize
      have positive : 0 < bl.blockSize := by rw [sound.size]; exact Nat.two_pow_pos _
      obtain ⟨ret, k, last, run, within, all, keeps⟩ := @ih mid ((bnum + 1) % 2 ^ 32)
        (buf ++ (List.range mid.blockSize).map fun i => mid.data block i) kept.sound usable (mod_lt _ (by decide))
      refine ⟨ret, k + 1, last, ?_, by omega, fun done => by rw [all done],
        kept.sizes.trans keeps.sizes, keeps.sound, fun n => (keeps.view n).trans (kept.view n)⟩
      have first : (List.range bl.blockSize).map (fun i => mid.data block i) =
          (List.range bl.blockSize).map fun j => bl.shown (locate bl.blockSize bnum 0 j) := by
        refine map_congr_left fun j mem => ?_
        rw [mem_range] at mem
        rw [locate_here (by omega) number, shown, ← got.view bnum fun _ => rfl, view_some got.held, Nat.zero_add]
      have rest : (List.range (k * bl.blockSize)).map
            (fun j => mid.shown (locate bl.blockSize ((bnum + 1) % 2 ^ 32) 0 j)) =
          (List.range (k * bl.blockSize)).map fun j => bl.shown (locate bl.blockSize bnum 0 (bl.blockSize + j)) := by
        refine map_congr_left fun j _ => ?_
        have next := locate_next bnum j positive
        rw [Nat.sub_zero] at next
        rw [next, shown, shown, kept.view]
      dsimp only
      rw [run, wide, first, rest, append_assoc, Nat.succ_mul, Nat.add_comm
        (k * _), range_add, map_append,
        map_map]
      rfl
    | EIO => exact ⟨ Err.EIO, 0, mid, by simp, by omega, nofun, served⟩
    | EINVAL => exact ⟨.EINVAL, 0, mid, by simp, by omega, nofun, served⟩

end Read

section Write
variable {bytes : Nat → UInt8}

theorem store_add {contents : Nat → Nat → UInt8} {place : Nat → Nat × Nat} {j k : Nat} :
    store contents place bytes (j + k) =
      store (store contents place bytes j) (fun i => place (j + i)) (fun i => bytes (j + i)) k := by
  induction k with
  | zero => rfl
  | succ k ih =>
    funext n i
    rw [← Nat.add_assoc, store, store, ih]

theorem store_congr {m m' : Nat → Nat → UInt8} {place place' : Nat → Nat × Nat} {k n i : Nat} (same : m n i = m' n i)
    (places : ∀ j < k, place j = place' j) : store m place bytes k n i = store m' place' bytes k n i := by
  induction k with
  | zero => exact same
  | succ k ih =>
    rw [store, store, places k (by omega), ih fun j below => places j (by omega)]

theorem store_here {contents : Nat → Nat → UInt8} {k n i : Nat} (inside : pos + k ≤ blockSize)
    (number : bnum < 2 ^ 32) :
    store contents (locate blockSize bnum pos) bytes k n i =
      if n = bnum ∧ pos ≤ i ∧ i < pos + k then bytes (i - pos) else contents n i := by
  induction k with
  | zero => rw [store, if_neg (by omega)]
  | succ k ih =>
    rw [store, locate_here (by omega) number, ih (by omega)]
    by_cases here : (bnum, pos + k) = (n, i)
    · obtain ⟨rfl, rfl⟩ := Prod.mk.inj here
      rw [if_pos rfl, if_pos (by omega), Nat.add_sub_cancel_left]
    · have apart : ¬(n = bnum ∧ i = pos + k) := fun same => here (by rw [same.1, same.2])
      rw [if_neg here]
      congr 1
      refine propext (and_congr_right fun same => and_congr_right fun _ => ?_)
      omega

theorem writeFrom_spec (fails : Nat → Bool) (buf : Nat → UInt8) (done : Nat) (sound : bl.Sound)
    (usable : 0 < bl.poolSize) (narrow : bl.blockSize ≤ 2 ^ 31)
    (short : size < 2 ^ 31) (inside : pos < bl.blockSize) (number : bnum < 2 ^ 32) (enough : size < fuel) :
    ∃ ret k bl', writeFrom fails buf fuel bl size bnum pos done = some (ret, done + k, bl') ∧
      k ≤ size ∧ (ret = .ENOERR → k = size) ∧ SameSizes bl bl' ∧ bl'.Sound ∧ ∀ n, ∀ i < bl.blockSize,
        bl'.view n i = store bl.view (locate bl.blockSize bnum pos) (fun j => buf (done + j)) k n i := by
  induction fuel generalizing bl size bnum pos done with
  | zero => omega
  | succ fuel ih =>
    rw [writeFrom]
    by_cases more : 0 < size
    · rw [if_pos more]
      dsimp only
      obtain ⟨ret, block, mid, found, served⟩ := getBlock_spec fails bnum
        (if 0 = pos ∧ bl.chunk size pos = bl.blockSize then false else true) sound usable
      rw [found]
      cases ret with
      | ENOERR =>
        have got : Got .. := served
        have count := chunk_eq inside narrow short
        have covered : (if 0 = pos ∧ bl.chunk size pos = bl.blockSize then false else true) = true ∨
            0 = pos ∧ bl.chunk size pos = bl.blockSize := by
          by_cases whole : 0 = pos ∧ bl.chunk size pos = bl.blockSize
          · exact .inr whole
          · exact .inl (if_neg whole)
        obtain ⟨sizes, sound', first⟩ := got.patch pos (bl.chunk size pos)
          (fun i => buf (done + i)) sound covered
        have wide := sizes.blockSize
        rw [← sizes.poolSize] at usable
        obtain ⟨ret, k, last, run, within, all, same, sound'', rest⟩ := @ih _ ((bnum + 1) % 2 ^ 32) 0
          (size - bl.chunk size pos) (done + bl.chunk size pos) sound' usable (by omega) (by omega) (by omega)
          (mod_lt _ (by decide)) (by omega)
        refine ⟨ret, bl.chunk size pos + k, last, ?_, by omega, fun done => ?_, sizes.trans same, sound'', ?_⟩
        · rw [← Nat.add_assoc]
          exact run
        · have := all done
          omega
        · intro n i below
          rw [rest n i (by omega), store_add]
          have places : ∀ j < k, locate (mid.patch block pos (bl.chunk size pos) fun i => buf (done + i)).blockSize
              ((bnum + 1) % 2 ^ 32) 0 j = locate bl.blockSize bnum pos (bl.chunk size pos + j) := by
            intro j less
            have left : bl.chunk size pos = bl.blockSize - pos := by omega
            rw [left, locate_next _ _ inside, ← left, wide]
          have base : (mid.patch block pos (bl.chunk size pos) fun i => buf (done + i)).view n i =
              store bl.view (locate bl.blockSize bnum pos) (fun j => buf (done + j)) (bl.chunk size pos) n i := by
            rw [first n i below, store_here (by omega) number]
          simp only [Nat.add_assoc]
          exact store_congr base places
      | EIO =>
        have missed : Missed .. := served
        exact ⟨ Err.EIO, 0, mid, rfl, by omega, nofun, missed.sizes, missed.sound, fun n i _ => by rw [missed.view]; rfl⟩
      | EINVAL =>
        have missed : Missed .. := served
        exact ⟨.EINVAL, 0, mid, rfl, by omega, nofun, missed.sizes, missed.sound, fun n i _ => by rw [missed.view]; rfl⟩
    · exact ⟨.ENOERR, 0, bl, by simp [more], by omega, fun _ => by omega, .rfl, sound, fun _ _ _ => rfl⟩

theorem bwriteFrom_spec (fails : Nat → Bool) (buf : Nat → UInt8) (size done : Nat) (sound : bl.Sound)
    (usable : 0 < bl.poolSize) (number : bnum < 2 ^ 32) :
    ∃ ret k bl', bwriteFrom fails buf size bl bnum done = some (ret, done + k, bl') ∧
      k ≤ size ∧ (ret = .ENOERR → k = size) ∧ SameSizes bl bl' ∧ bl'.Sound ∧ ∀ n, ∀ i < bl.blockSize,
        bl'.view n i = store bl.view (locate bl.blockSize bnum 0) (fun j => buf (done * bl.blockSize + j))
          (k * bl.blockSize) n i := by
  induction size generalizing bl bnum done with
  | zero =>
    exact ⟨.ENOERR, 0, bl, rfl, Nat.le_refl _, fun _ => rfl, .rfl, sound, fun _ _ _ => by rw [Nat.zero_mul, store]⟩
  | succ size ih =>
    rw [bwriteFrom]
    obtain ⟨ret, block, mid, found, served⟩ :=
      getBlock_spec fails bnum false sound usable
    rw [found]
    cases ret with
    | ENOERR =>
      have got : Got .. := served
      have positive : 0 < bl.blockSize := by rw [sound.size]; exact Nat.two_pow_pos _
      have covered : false = true ∨ 0 = 0 ∧ mid.blockSize = bl.blockSize := .inr ⟨rfl, got.sizes.blockSize⟩
      obtain ⟨sizes, sound', first⟩ := got.patch 0 mid.blockSize
        (fun i => buf (done * mid.blockSize + i)) sound covered
      have wide := sizes.blockSize
      rw [← sizes.poolSize] at usable
      obtain ⟨ret, k, last, run, within, all, same, sound'', rest⟩ := @ih _ ((bnum + 1) % 2 ^ 32)
        (done + 1) sound' usable
        (mod_lt _ (by decide))
      refine ⟨ret, k + 1, last, ?_, by omega, fun done => by rw [all done], sizes.trans same, sound'', ?_⟩
      · rw [show done + (k + 1) = done + 1 + k by omega]
        exact run
      · intro n i below
        have next (j : Nat) := locate_next bnum j positive
        simp only [Nat.sub_zero] at next
        have parts : (k + 1) * bl.blockSize = bl.blockSize + k * bl.blockSize := by rw [Nat.succ_mul, Nat.add_comm]
        rw [rest n i (by omega), parts, store_add, wide]
        simp only [next, Nat.succ_mul, Nat.add_assoc]
        refine store_congr ?_ fun _ _ => rfl
        rw [first n i below, store_here (by omega) number, got.sizes.blockSize]
    | EIO =>
      have missed : Missed .. := served
      exact ⟨ Err.EIO, 0, mid, rfl, by omega, nofun, missed.sizes, missed.sound,
        fun n i _ => by rw [missed.view, Nat.zero_mul, store]⟩
    | EINVAL =>
      have missed : Missed .. := served
      exact ⟨.EINVAL, 0, mid, rfl, by omega, nofun, missed.sizes, missed.sound,
        fun n i _ => by rw [missed.view, Nat.zero_mul, store]⟩

end Write

end Ecos.Services.Blib
