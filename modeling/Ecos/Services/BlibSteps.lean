import Ecos.Services.Blib
import Mathlib.Data.List.Perm.Basic

namespace Ecos.Services.Blib
open Function Option List
variable {fails : Nat → Bool} {bl : Blib} {block b n num : Nat} {readData : Bool}

/-- What the cache shows of a block of the device. -/
def view (bl : Blib) (n : Nat) : Nat → UInt8 :=
  match bl.tree n with
  | some block => bl.data block
  | none => bl.dev.bytes n

theorem view_some (held : bl.tree n = some block) : bl.view n = bl.data block := by
  rw [view, held]

theorem view_none (absent : bl.tree n = none) : bl.view n = bl.dev.bytes n := by
  rw [view, absent]

/-- The tree and the list hold the same blocks, each of its own number. -/
def Tracked (bl : Blib) : Prop :=
  ∀ n b, bl.tree n = some b ↔ b ∈ bl.list ∧ bl.num b = n

/-- An unmodified block equals the device's. -/
def Clean (bl : Blib) (block : Nat) : Prop :=
  bl.modified block = false → bl.data block = bl.dev.bytes (bl.num block)

/-- How many blocks the memory of the cache has. -/
def poolSize (bl : Blib) : Nat := bl.memSize / blockMemSize bl.blockSize

/-- The cache is in order: no block is lost or held twice. -/
structure Sound (bl : Blib) : Prop where
  size : bl.blockSize = 2 ^ bl.blockSizeLog2
  wide : 0 < bl.blockSizeLog2
  tracked : bl.Tracked
  pool : (bl.list ++ bl.free).Perm (List.range bl.poolSize)
  clean : ∀ b ∈ bl.list, bl.Clean b

theorem Tracked.mem (tracked : bl.Tracked) (mem : b ∈ bl.list) : bl.tree (bl.num b) = some b :=
  (tracked _ _).mpr ⟨mem, rfl⟩

theorem Tracked.num_ne (tracked : bl.Tracked) {c : Nat} (mem : b ∈ bl.list) (other : c ∈ bl.list) (distinct : b ≠ c) :
    bl.num b ≠ bl.num c := fun same =>
  distinct (some.inj ((tracked.mem mem).symm.trans (same ▸ tracked.mem other)))

theorem Sound.nodup (sound : bl.Sound) : (bl.list ++ bl.free).Nodup :=
  sound.pool.nodup_iff.mpr nodup_range

/-- The second state keeps the sizes of the first. -/
structure SameSizes (bl bl' : Blib) : Prop where
  blockSize : bl'.blockSize = bl.blockSize
  log2 : bl'.blockSizeLog2 = bl.blockSizeLog2
  memSize : bl'.memSize = bl.memSize

theorem SameSizes.rfl : SameSizes bl bl := ⟨.refl _, .refl _, .refl _⟩

theorem SameSizes.trans {mid last : Blib} (first : SameSizes bl mid)
    (second : SameSizes mid last) : SameSizes bl last :=
  ⟨second.blockSize.trans first.blockSize, second.log2.trans first.log2, second.memSize.trans first.memSize⟩

theorem SameSizes.poolSize {bl' : Blib} (same : SameSizes bl bl') : bl'.poolSize = bl.poolSize := by
  rw [Blib.poolSize, Blib.poolSize, same.memSize, same.blockSize]

section Sync

/-- Blocks have been written back, and nothing that the cache shows has changed. -/
structure Synced (bl bl' : Blib) : Prop where
  list : bl'.list = bl.list
  tree : bl'.tree = bl.tree
  free : bl'.free = bl.free
  num : bl'.num = bl.num
  data : bl'.data = bl.data
  sizes : SameSizes bl bl'
  clean : ∀ b ∈ bl'.list, bl'.Clean b
  view : ∀ n, bl'.view n = bl.view n
  still : ∀ b, bl.modified b = false → bl'.modified b = false

theorem Synced.rfl (clean : ∀ b ∈ bl.list, bl.Clean b) : Synced bl bl :=
  ⟨.refl _, .refl _, .refl _, .refl _, .refl _, .rfl, clean, fun _ => .refl _, fun _ => id⟩

theorem Synced.trans {mid last : Blib} (first : Synced bl mid) (second : Synced mid last) : Synced bl last where
  list := second.list.trans first.list
  tree := second.tree.trans first.tree
  free := second.free.trans first.free
  num := second.num.trans first.num
  data := second.data.trans first.data
  sizes := first.sizes.trans second.sizes
  clean := second.clean
  view n := (second.view n).trans (first.view n)
  still b clean := second.still b (first.still b clean)

theorem Synced.tracked {bl' : Blib} (synced : Synced bl bl') (tracked : bl.Tracked) : bl'.Tracked := by
  intro n b
  rw [synced.tree, synced.list, synced.num]
  exact tracked n b

theorem Synced.sound {bl' : Blib} (synced : Synced bl bl') (sound : bl.Sound) : bl'.Sound where
  size := by rw [synced.sizes.blockSize, synced.sizes.log2, sound.size]
  wide := by rw [synced.sizes.log2]; exact sound.wide
  tracked := synced.tracked sound.tracked
  pool := by rw [synced.list, synced.free, synced.sizes.poolSize]; exact sound.pool
  clean := synced.clean

theorem syncBlock_spec (fails : Nat → Bool) (tracked : bl.Tracked) (clean : ∀ b ∈ bl.list, bl.Clean b)
    (mem : block ∈ bl.list) :
    Synced bl (bl.syncBlock fails block).2 ∧
      ((bl.syncBlock fails block).1 = .ENOERR → (bl.syncBlock fails block).2.modified block = false) := by
  rw [syncBlock]
  by_cases dirty : bl.modified block = true
  · rw [if_pos dirty, Device.bwrite]
    by_cases broken : fails bl.dev.calls = true
    · rw [if_pos broken]
      exact ⟨⟨rfl, rfl, rfl, rfl, rfl, ⟨rfl, rfl, rfl⟩, clean, fun _ => rfl, fun _ => id⟩, nofun⟩
    · rw [if_neg broken]
      refine ⟨⟨rfl, rfl, rfl, rfl, rfl, ⟨rfl, rfl, rfl⟩, ?_, ?_, ?_⟩, fun _ => update_self ..⟩
      · intro b listed settled
        change bl.data b = update bl.dev.bytes (bl.num block) (bl.data block) (bl.num b)
        by_cases same : b = block
        · rw [same, update_self]
        · simp only [update_of_ne same] at settled
          rw [update_of_ne (tracked.num_ne listed mem same), clean b listed settled]
      · intro n
        cases held : bl.tree n with
        | some b => rw [view_some held, view_some (by exact held)]
        | none =>
          have other : n ≠ bl.num block := fun same => by
            rw [same, tracked.mem mem] at held
            exact nomatch held
          rw [view_none held, view_none (by exact held)]
          exact update_of_ne other ..
      · intro b settled
        by_cases same : b = block
        · simp only [same, update_self]
        · simpa only [update_of_ne same] using settled
  · rw [if_neg dirty]
    exact ⟨.rfl clean, fun _ => by simpa using dirty⟩

theorem syncFrom_spec {blocks : List Nat} (tracked : bl.Tracked) (clean : ∀ b ∈ bl.list, bl.Clean b)
    (listed : ∀ b ∈ blocks, b ∈ bl.list) :
    Synced bl (syncFrom fails blocks bl).2 ∧
      ((syncFrom fails blocks bl).1 = .ENOERR → ∀ b ∈ blocks, (syncFrom fails blocks bl).2.modified b = false) := by
  induction blocks generalizing bl with
  | nil => exact ⟨.rfl clean, fun _ _ => nofun⟩
  | cons b rest ih =>
    obtain ⟨synced, settled⟩ := syncBlock_spec fails tracked clean (listed b (.head _))
    rw [syncFrom]
    rcases result : bl.syncBlock fails b with ⟨ret, mid⟩
    rw [result] at synced settled
    cases ret with
    | ENOERR =>
      obtain ⟨later, settledLater⟩ := ih (synced.tracked tracked) synced.clean
        fun c mem => synced.list ▸ listed c (.tail _ mem)
      refine ⟨synced.trans later, fun done c mem => ?_⟩
      rcases mem_cons.mp mem with rfl | mem
      · exact later.still _ (settled rfl)
      · exact settledLater done c mem
    | _ => exact ⟨synced, nofun⟩

theorem sync_spec (fails : Nat → Bool) (sound : bl.Sound) : Synced bl (bl.sync fails).2 ∧
    ((bl.sync fails).1 = .ENOERR → ∀ b ∈ bl.list, (bl.sync fails).2.modified b = false) :=
  syncFrom_spec sound.tracked sound.clean fun _ => id

theorem sync_device (sound : bl.Sound) (done : (bl.sync fails).1 = .ENOERR) :
    (bl.sync fails).2.dev.bytes n = bl.view n := by
  obtain ⟨synced, settled⟩ := sync_spec fails sound
  rw [← synced.view]
  cases held : (bl.sync fails).2.tree n with
  | some b =>
    obtain ⟨mem, rfl⟩ := (synced.tracked sound.tracked n b).mp held
    rw [view_some held, synced.clean b mem (settled done b (synced.list ▸ mem))]
  | none => rw [view_none held]

end Sync

section Get

/-- `blib_get_block` has a block for `num`. Its data are the device's if they were to be read. -/
structure Got (bl : Blib) (num : Nat) (readData : Bool) (block : Nat) (bl' : Blib) : Prop where
  sizes : SameSizes bl bl'
  tracked : bl'.Tracked
  pool : (bl'.list ++ bl'.free).Perm (List.range bl'.poolSize)
  held : bl'.tree num = some block
  clean : ∀ b ∈ bl'.list, (b = block → readData = true) → bl'.Clean b
  view : ∀ n, (n = num → readData = true) → bl'.view n = bl.view n

/-- `blib_get_block` has failed and what the cache shows is unchanged. -/
structure Missed (bl bl' : Blib) : Prop where
  sizes : SameSizes bl bl'
  sound : bl'.Sound
  view : ∀ n, bl'.view n = bl.view n

variable {bl' : Blib}

/-- What `blib_get_block` owes its caller. -/
def Serves (bl : Blib) (num : Nat) (readData : Bool) : Err × Nat × Blib → Prop
  | (.ENOERR, block, bl') => Got bl num readData block bl'
  | (_, _, bl') => Missed bl bl'

theorem Tracked.rename (tracked : bl.Tracked) (spare : block ∉ bl.list) (list : bl'.list = bl.list)
    (tree : bl'.tree = bl.tree) (renamed : bl'.num = update bl.num block num) : bl'.Tracked := by
  intro n b
  rw [list, tree, renamed]
  refine (tracked n b).trans (and_congr_right fun mem => ?_)
  rw [update_of_ne fun same : b = block => spare (same ▸ mem)]

theorem Tracked.add (tracked : bl.Tracked) (spare : block ∉ bl.list) (absent : bl.tree num = none)
    (list : bl'.list = block :: bl.list) (tree : bl'.tree = update bl.tree num (some block))
    (renamed : bl'.num = update bl.num block num) : bl'.Tracked := by
  intro n b
  rw [list, tree, renamed]
  by_cases new : b = block
  · subst new
    rw [update_self]
    by_cases here : n = num
    · simp [here]
    · rw [update_of_ne here, tracked]
      exact ⟨fun held => absurd held.1 spare, fun held => absurd held.2.symm here⟩
  · rw [update_of_ne new, mem_cons, or_iff_right new, ← tracked]
    by_cases here : n = num
    · rw [here, update_self, absent]
      exact ⟨fun same => absurd (some.inj same).symm new, nofun⟩
    · rw [update_of_ne here]

theorem Got.add (readData : Bool) (data : Nat → UInt8) (calls : Nat) (tracked : bl.Tracked)
    (pool : (block :: (bl.list ++ bl.free)).Perm (List.range bl.poolSize)) (clean : ∀ b ∈ bl.list, bl.Clean b)
    (absent : bl.tree num = none) (filled : readData = true → data = bl.dev.bytes num) :
    Got bl num readData block { bl with
      list := block :: bl.list
      tree := update bl.tree num (some block)
      num := update bl.num block num
      modified := update bl.modified block false
      data := update bl.data block data
      dev := { bl.dev with calls := calls } } := by
  have spare : block ∉ bl.list := fun mem =>
    (nodup_cons.mp (pool.nodup_iff.mpr nodup_range)).1 (mem_append_left _ mem)
  refine ⟨⟨rfl, rfl, rfl⟩, tracked.add spare absent rfl rfl rfl, pool, update_self .., ?_, ?_⟩
  · intro b mem wanted settled
    by_cases new : b = block
    · simp only [new, update_self]
      exact filled (wanted new)
    · simp only [update_of_ne new] at settled ⊢
      exact clean b ((mem_cons.mp mem).resolve_left new) settled
  · intro n wanted
    by_cases here : n = num
    · subst here
      rw [view_none absent, view_some (by exact update_self ..), ← filled (wanted rfl)]
      exact update_self ..
    · cases held : bl.tree n with
      | some b =>
        have other : b ≠ block := fun same => spare (same ▸ ((tracked n b).mp held).1)
        rw [view_some held, view_some (by exact (update_of_ne here ..).trans held)]
        exact update_of_ne other ..
      | none =>
        rw [view_none held, view_none (by exact (update_of_ne here ..).trans held)]

theorem fill_spec (fails : Nat → Bool) (readData : Bool) (bl : Blib) (size : bl.blockSize = 2 ^ bl.blockSizeLog2)
    (wide : 0 < bl.blockSizeLog2) (tracked : bl.Tracked)
    (pool : (block :: (bl.list ++ bl.free)).Perm (List.range bl.poolSize)) (clean : ∀ b ∈ bl.list, bl.Clean b)
    (absent : bl.tree num = none) : Serves bl num readData (bl.fill fails num readData block) := by
  have spare : block ∉ bl.list := fun mem =>
    (nodup_cons.mp (pool.nodup_iff.mpr nodup_range)).1 (mem_append_left _ mem)
  rw [fill]
  by_cases wanted : readData = true
  · rw [if_pos wanted, Device.bread]
    by_cases broken : fails bl.dev.calls = true
    · rw [if_pos broken]
      refine Missed.mk ⟨rfl, rfl, rfl⟩ ⟨size, wide, tracked.rename spare rfl rfl rfl, ?_, ?_⟩ ?_
      · exact perm_middle.trans pool
      · intro b mem settled
        have other : b ≠ block := fun same => spare (same ▸ mem)
        simp only [update_of_ne other] at settled ⊢
        exact clean b mem settled
      · exact fun _ => rfl
    · rw [if_neg broken]
      have got := Got.add readData (bl.dev.bytes num) (bl.dev.calls + 1) tracked pool clean absent fun _ => rfl
      simpa only [rbAddBlock, update_self, Serves] using got
  · rw [if_neg wanted]
    have got := Got.add readData (bl.data block) bl.dev.calls tracked pool clean absent fun read => absurd read wanted
    simpa only [rbAddBlock, update_self, update_eq_self, Serves] using got

theorem Serves.of_same {mid : Blib} {result : Err × Nat × Blib} (serves : Serves mid num readData result)
    (sizes : SameSizes bl mid) (same : ∀ n, mid.view n = bl.view n) : Serves bl num readData result := by
  obtain ⟨ret, block, last⟩ := result
  cases ret with
  | ENOERR =>
    have got : Got .. := serves
    exact { got with sizes := sizes.trans got.sizes, view := fun n wanted => (got.view n wanted).trans (same n) }
  | EIO | EINVAL =>
    have missed : Missed .. := serves
    exact { missed with sizes := sizes.trans missed.sizes, view := fun n => (missed.view n).trans (same n) }

theorem drop_spec (tracked : bl.Tracked) (clean : ∀ b ∈ bl.list, bl.Clean b) (nodup : bl.list.Nodup)
    (mem : block ∈ bl.list) (settled : bl.modified block = false) :
    ({ bl with list := bl.list.erase block }.rbDelBlock block).Tracked ∧
      ∀ n, ({ bl with list := bl.list.erase block }.rbDelBlock block).view n = bl.view n := by
  have held := tracked.mem mem
  refine ⟨fun n b => ?_, fun n => ?_⟩
  · change update bl.tree (bl.num block) none n = some b ↔ b ∈ bl.list.erase block ∧ bl.num b = n
    rw [nodup.mem_erase_iff]
    by_cases here : n = bl.num block
    · rw [here, update_self]
      exact ⟨nofun, fun found => absurd found.2 (tracked.num_ne found.1.2 mem found.1.1)⟩
    · rw [update_of_ne here, tracked n b]
      refine and_congr_left fun same => (and_iff_right ?_).symm
      rintro rfl
      exact here same.symm
  · by_cases here : n = bl.num block
    · rw [here, view_some held, clean block mem settled]
      exact view_none (update_self ..)
    · cases found : bl.tree n with
      | some b =>
        rw [view_some found]
        exact view_some ((update_of_ne here ..).trans found)
      | none =>
        rw [view_none found]
        exact view_none ((update_of_ne here ..).trans found)

theorem Sound.lookup_eq (sound : bl.Sound) : bl.lookup num = bl.tree num := by
  rw [lookup]
  split
  · rename_i empty
    refine (eq_none_iff_forall_ne_some.mpr fun b held => ?_).symm
    have mem := ((sound.tracked _ _).mp held).1
    rw [empty] at mem
    exact nomatch mem
  · rename_i first rest listed
    split
    · rename_i same
      rw [← same]
      exact (sound.tracked.mem (by rw [listed]; exact .head _)).symm
    · rfl

theorem recycle_spec (sound : bl.Sound) (full : bl.free = []) (mem : block ∈ bl.list) (absent : bl.tree num = none)
    {mid : Blib} (synced : Synced bl mid) (settled : mid.modified block = false) : Serves bl num readData
      (({ mid with list := mid.list.erase block }.rbDelBlock block).fill fails num readData block) := by
  have sound' := synced.sound sound
  have nodup : mid.list.Nodup := (nodup_append.mp sound'.nodup).1
  have mem' : block ∈ mid.list := by rw [synced.list]; exact mem
  obtain ⟨dropped, shown⟩ := drop_spec sound'.tracked synced.clean nodup mem' settled
  have pool : (block :: (mid.list.erase block ++ mid.free)).Perm (List.range mid.poolSize) := by
    have whole := sound'.pool
    rw [synced.free, full, append_nil] at whole ⊢
    exact (perm_cons_erase mem').symm.trans whole
  have vacant : update mid.tree (mid.num block) none num = none := by
    by_cases here : num = mid.num block
    · rw [here, update_self]
    · rw [update_of_ne here, synced.tree, absent]
  have filled := fill_spec fails readData ({ mid with list := mid.list.erase block }.rbDelBlock block) sound'.size
    sound'.wide dropped pool
    (fun b listed => synced.clean b (mem_of_mem_erase listed)) vacant
  exact filled.of_same ⟨synced.sizes.blockSize, synced.sizes.log2, synced.sizes.memSize⟩
    fun n => (shown n).trans (synced.view n)

theorem getBlock_spec (fails : Nat → Bool) (num : Nat) (readData : Bool) (sound : bl.Sound)
    (usable : 0 < bl.poolSize) : ∃ ret block bl',
    bl.getBlock fails num readData = some (ret, block, bl') ∧ Serves bl num readData (ret, block, bl') := by
  have pool := sound.pool
  rw [getBlock, sound.lookup_eq]
  cases held : bl.tree num with
  | some block =>
    have mem := ((sound.tracked _ _).mp held).1
    have moved : (block :: bl.list.erase block).Perm bl.list := (perm_cons_erase mem).symm
    refine ⟨.ENOERR, block, _, rfl, ⟨rfl, rfl, rfl⟩, fun n b => ?_, ?_, held, ?_, fun _ _ => rfl⟩
    · exact (sound.tracked n b).trans (and_congr_left fun _ => moved.mem_iff.symm)
    · exact (moved.append_right _).trans pool
    · exact fun b listed _ => sound.clean b (moved.mem_iff.mp listed)
  | none =>
    cases free : bl.free with
    | cons block rest =>
      rw [free] at pool
      have filled := fill_spec fails readData { bl with free := rest } sound.size
        sound.wide sound.tracked (perm_middle.symm.trans pool) sound.clean held
      exact ⟨_, _, _, rfl, filled.of_same ⟨rfl, rfl, rfl⟩ fun _ => rfl⟩
    | nil =>
      rw [free, append_nil] at pool
      cases last : bl.list.getLast? with
      | none =>
        have count := pool.length_eq
        rw [getLast?_eq_none_iff.mp last, length_range, length_nil] at count
        omega
      | some block =>
        have mem := mem_of_getLast? last
        obtain ⟨synced, settled⟩ := syncBlock_spec fails sound.tracked sound.clean mem
        dsimp only
        rcases result : bl.syncBlock fails block with ⟨ret, mid⟩
        rw [result] at synced settled
        cases ret with
        | ENOERR => exact ⟨_, _, _, rfl, recycle_spec sound free mem held synced (settled rfl)⟩
        | EIO | EINVAL => exact ⟨_, block, mid, rfl, synced.sizes, synced.sound sound, synced.view⟩

theorem Got.missed (got : Got bl num true block bl') (sound : bl.Sound) : Missed bl bl' where
  sizes := got.sizes
  view n := got.view n fun _ => rfl
  sound :=
    { size := by rw [got.sizes.blockSize, got.sizes.log2, sound.size]
      wide := by rw [got.sizes.log2]; exact sound.wide
      tracked := got.tracked
      pool := got.pool
      clean := fun b mem => got.clean b mem fun _ => rfl }

theorem Got.patch (pos csize : Nat) (bytes : Nat → UInt8) (got : Got bl num readData block bl') (sound : bl.Sound)
    (covered : readData = true ∨ 0 = pos ∧ csize = bl.blockSize) :
    SameSizes bl (bl'.patch block pos csize bytes) ∧ (bl'.patch block pos csize bytes).Sound ∧
      ∀ n, ∀ i < bl.blockSize, (bl'.patch block pos csize bytes).view n i =
        if n = num ∧ pos ≤ i ∧ i < pos + csize then bytes (i - pos) else bl.view n i := by
  have mem := ((got.tracked _ _).mp got.held)
  refine ⟨⟨got.sizes.blockSize, got.sizes.log2, got.sizes.memSize⟩, ⟨?_, ?_, got.tracked, got.pool, ?_⟩, ?_⟩
  · exact got.sizes.blockSize.trans (sound.size.trans (by rw [← got.sizes.log2]; rfl))
  · exact got.sizes.log2 ▸ sound.wide
  · intro b listed settled
    by_cases same : b = block
    · simp [Blib.patch, same] at settled
    · simp only [Blib.patch, update_of_ne same] at settled ⊢
      exact got.clean b listed (fun h => absurd h same) settled
  · intro n i inside
    by_cases here : n = num
    · subst here
      rw [view_some (by exact got.held)]
      simp only [Blib.patch, update_self, true_and]
      split
      · rfl
      · rename_i outside
        rcases covered with read | ⟨rfl, rfl⟩
        · rw [← got.view n fun _ => read, view_some got.held]
        · omega
    · rw [if_neg fun h => here h.1, ← got.view n fun h => absurd h here]
      cases found : bl'.tree n with
      | some b =>
        have other : b ≠ block := fun same => here (((got.tracked n b).mp found).2.symm.trans (same ▸ mem.2))
        rw [view_some found, view_some (by exact found)]
        simp only [Blib.patch, update_of_ne other]
      | none => rw [view_none found, view_none (by exact found)]; rfl

end Get

end Ecos.Services.Blib
