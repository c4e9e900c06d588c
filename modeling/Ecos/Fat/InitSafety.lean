import Ecos.Fat.Disk
import Ecos.Services.BlibRuns

namespace Ecos.Fat
open FatType Services Nat
variable {e w k n fuel : Nat} {image disk : Disk} {r : BootRecord}

section Bits

theorem land_field : w &&& ((2 ^ n - 1) <<< k) = (w / 2 ^ k % 2 ^ n) <<< k := by
  refine eq_of_testBit_eq fun i => ?_
  rw [testBit_and, testBit_shiftLeft, testBit_shiftLeft, testBit_two_pow_sub_one,
    testBit_mod_two_pow, Nat.testBit_div_two_pow]
  by_cases above : k ≤ i
  · rw [Nat.sub_add_cancel above]
    simp [above, Bool.and_comm]
  · simp [above]

theorem land_low : w &&& (2 ^ n - 1) = w % 2 ^ n := Nat.and_two_pow_sub_one_eq_mod w n

theorem toNat_low : (UInt8.ofNat (w &&& 0xFF)).toNat = w % 256 := by
  have low : w &&& 0xFF = w % 256 := land_low (n := 8)
  rw [low, UInt8.toNat_ofNat']
  omega

theorem getWord_eq {data : Nat → UInt8} {off : Nat} :
    getWord data off = (data off).toNat + 256 * (data (off + 1)).toNat := by
  rw [getWord, Nat.or_comm, ← Nat.shiftLeft_add_eq_or_of_lt (data off).toNat_lt, Nat.shiftLeft_eq]
  omega

theorem getDword_eq {data : Nat → UInt8} {off : Nat} : getDword data off =
    (data off).toNat + 256 * (data (off + 1)).toNat + 65536 * (data (off + 2)).toNat +
      16777216 * (data (off + 3)).toNat := by
  have b0 := (data off).toNat_lt
  have b1 := (data (off + 1)).toNat_lt
  have b2 := (data (off + 2)).toNat_lt
  have low : (data off).toNat ||| (data (off + 1)).toNat <<< 8 = (data off).toNat + 256 * (data (off + 1)).toNat :=
    getWord_eq
  rw [getDword, low, Nat.or_comm _ ((data (off + 2)).toNat <<< 16), ← Nat.shiftLeft_add_eq_or_of_lt (by omega),
    Nat.or_comm _ ((data (off + 3)).toNat <<< 24), ← Nat.shiftLeft_add_eq_or_of_lt (by rw [Nat.shiftLeft_eq]; omega),
    shiftLeft_eq, shiftLeft_eq]
  omega

theorem pack_even (word : w < 65536) (narrow : e < 4096) : (w &&& 0xF000) ||| (e &&& 0x0FFF) = w / 4096 * 4096 + e := by
  have high : w &&& 0xF000 = (w / 4096 % 16) <<< 12 := land_field (n := 4) (k := 12)
  have low : e &&& 0x0FFF = e % 4096 := land_low (n := 12)
  rw [high, low, mod_eq_of_lt narrow, ← shiftLeft_add_eq_or_of_lt narrow, shiftLeft_eq]
  omega

theorem pack_odd (narrow : e < 4096) : (w &&& 0x000F) ||| ((e &&& 0x0FFF) <<< 4) = e * 16 + w % 16 := by
  have low : w &&& 0x000F = w % 16 := land_low (n := 4)
  have all : e &&& 0x0FFF = e % 4096 := land_low (n := 12)
  have bound : w % 16 < 2 ^ 4 := mod_lt _ (by decide)
  rw [low, all, Nat.mod_eq_of_lt narrow, Nat.or_comm, ← Nat.shiftLeft_add_eq_or_of_lt bound, Nat.shiftLeft_eq]

theorem pack_wide (word : w < 4294967296) (narrow : e < 268435456) :
    (w &&& 0xF0000000) ||| e = w / 268435456 * 268435456 + e := by
  have high : w &&& 0xF0000000 = (w / 268435456 % 16) <<< 28 := land_field (n := 4) (k := 28)
  rw [high, ← shiftLeft_add_eq_or_of_lt narrow, shiftLeft_eq]
  omega

end Bits

/-- How many bytes a table of so many entries takes. -/
def tableBytes : FatType → Nat → Nat
  | FATFS_FAT12, nents => (nents * 3 + 1) / 2
  | FATFS_FAT16, nents => nents * 2
  | FATFS_FAT32, nents => nents * 4

theorem readBootRecord_error {err : Err} (read : readBootRecord image = .error err) : err = Err.EIO := by
  have fails {len pos : Nat} {err : Err} (read : image.diskRead len pos = .error err) : err = Err.EIO := by
    rw [Disk.diskRead] at read
    split at read
    · exact nomatch read
    · exact (Except.error.inj read).symm
  rw [readBootRecord] at read
  split at read
  · rename_i broken
    exact Except.error.inj read ▸ fails broken
  · split at read
    · rename_i broken
      exact Except.error.inj read ▸ fails broken
    · exact nomatch read

theorem fatfsInit_ok (mounted : fatfsInit fuel image = some (.ENOERR, disk)) : ∃ r i j,
    readBootRecord image = .ok r ∧ r.known = true ∧ 0 < i ∧ r.bytesPerSec = 2 ^ i ∧ 0 < j ∧
      r.bytesPerSec * r.secPerClu = 2 ^ j ∧ disk = r.layOut { image with
        sectorSize := r.bytesPerSec, sectorSizeLog2 := i, clusterSize := r.bytesPerSec * r.secPerClu, clusterSizeLog2
          := j } := by
  rw [fatfsInit] at mounted
  split at mounted
  · rename_i err read
    have broken := readBootRecord_error read
    rw [broken] at mounted
    exact nomatch mounted
  · rename_i r read
    split at mounted
    · exact nomatch mounted
    · rename_i known
      split at mounted
      · rename_i i j sector cluster
        split at mounted
        · exact nomatch mounted
        · rename_i positive
          have first : 0 < i := by omega
          have second : 0 < j := by omega
          refine ⟨r, i, j, read, by simpa using known, first, getValLog2_sound sector first, second,
            getValLog2_sound cluster second, ?_⟩
          exact (Prod.mk.inj (Option.some.inj mounted)).2.symm
      · exact nomatch mounted

/-- Where the last copy of the FAT ends, in unsigned arithmetic. -/
def BootRecord.fatEnd (r : BootRecord) : Nat :=
  u32 (r.bytesPerSec * r.resSecNum + u32 (r.fatTblsNum * u32 (r.bytesPerSec * r.fatSectors)))

section LayOut
variable (r disk)

theorem layOut_sectorSize : (r.layOut disk).sectorSize = disk.sectorSize := by rw [BootRecord.layOut]; split <;> rfl

theorem layOut_clusterSize : (r.layOut disk).clusterSize = disk.clusterSize := by rw [BootRecord.layOut]; split <;> rfl

theorem layOut_fatTblPos : (r.layOut disk).fatTblPos = r.bytesPerSec * r.resSecNum := by
  rw [BootRecord.layOut]; split <;> rfl

theorem layOut_fatTblSize : (r.layOut disk).fatTblSize = u32 (r.bytesPerSec * r.fatSectors) := by
  rw [BootRecord.layOut]; split <;> rfl

theorem layOut_fatTblNents : (r.layOut disk).fatTblNents = u32 (r.dataCluNum + 2) := by
  rw [BootRecord.layOut]; split <;> rfl

theorem layOut_fatTblsNum : (r.layOut disk).fatTblsNum = r.fatTblsNum := by rw [BootRecord.layOut]; split <;> rfl

theorem layOut_fatType : (r.layOut disk).fatType = fatTypeOf r.dataCluNum := by rw [BootRecord.layOut]; split <;> rfl

variable {r}

theorem layOut_narrow (narrow : fatTypeOf r.dataCluNum ≠ FATFS_FAT32) : (r.layOut disk).fatRootDirPos = r.fatEnd ∧
    (r.layOut disk).fatDataPos = u32 (r.fatEnd + r.maxRootDents * dentrySize) := by
  rw [BootRecord.layOut, if_pos narrow.symm]
  exact ⟨rfl, rfl⟩

theorem layOut_wide (wide : fatTypeOf r.dataCluNum = FATFS_FAT32) : (r.layOut disk).fatDataPos = r.fatEnd := by
  rw [BootRecord.layOut, if_neg fun h => h wide.symm]
  rfl

end LayOut

theorem fatfsInit_few (mounted : fatfsInit fuel image = some (.ENOERR, disk)) :
    disk.fatType = FATFS_FAT12 → disk.fatTblNents ≤ 4086 := by
  obtain ⟨r, i, j, -, -, -, -, -, -, rfl⟩ := fatfsInit_ok mounted
  rw [layOut_fatType, layOut_fatTblNents, fatTypeOf]
  split
  · intro _
    rw [u32, mod_eq_of_lt (by omega)]
    omega
  · split <;> exact nofun

theorem getWord_lt {data : Nat → UInt8} {off : Nat} : getWord data off < 2 ^ 16 := by
  have low := (data off).toNat_lt
  have high := (data (off + 1)).toNat_lt
  rw [getWord_eq]
  omega

theorem getDword_lt {data : Nat → UInt8} {off : Nat} : getDword data off < 2 ^ 32 := by
  have b0 := (data off).toNat_lt
  have b1 := (data (off + 1)).toNat_lt
  have b2 := (data (off + 2)).toNat_lt
  have b3 := (data (off + 3)).toNat_lt
  rw [getDword_eq]
  omega

theorem BootRecord.sectors_lt (small : r.secNum32 < 2 ^ 32) (large : r.secNum < 2 ^ 32) : r.sectors < 2 ^ 32 := by
  rw [BootRecord.sectors]
  split
  · exact small
  · exact large

/-- The fields of a boot record have the width of their types. -/
structure BootRecord.Typed (r : BootRecord) : Prop where
  bytesPerSec : r.bytesPerSec < 2 ^ 16
  secPerClu : r.secPerClu < 2 ^ 8
  resSecNum : r.resSecNum < 2 ^ 16
  maxRootDents : r.maxRootDents < 2 ^ 16
  sectors : r.sectors < 2 ^ 32

theorem readBootRecord_typed (read : readBootRecord image = .ok r) : r.Typed := by
  rw [readBootRecord] at read
  split at read
  · exact nomatch read
  · split at read
    · exact nomatch read
    · obtain rfl := Except.ok.inj read
      exact ⟨getWord_lt, UInt8.toNat_lt _, getWord_lt, getWord_lt,
        BootRecord.sectors_lt (lt_of_lt_of_le getWord_lt (by decide)) getDword_lt⟩

/-- The sectors before the data area. -/
def BootRecord.before (r : BootRecord) : Nat := r.resSecNum + r.fatTblsNum * r.fatSectors + r.rootDirSecNum

/-- A mounted disk's geometry is that of its boot record, with all parts behind one another. -/
structure Sane (r : BootRecord) (disk : Disk) : Prop where
  sector : ∃ k, disk.sectorSize = 2 ^ k
  cluster : ∃ k, disk.clusterSize = 2 ^ k
  block : 512 ≤ disk.clusterSize
  tablePos : disk.fatTblPos = r.resSecNum * disk.sectorSize
  tableSize : disk.fatTblSize = r.fatSectors * disk.sectorSize
  rootDir : disk.fatType ≠ FATFS_FAT32 → disk.fatRootDirPos = disk.fatTblPos + disk.fatTblsNum * disk.fatTblSize
  data : disk.fatDataPos = if disk.fatType = FATFS_FAT32 then disk.fatTblPos + disk.fatTblsNum * disk.fatTblSize
    else disk.fatRootDirPos + r.rootDirSecNum * disk.sectorSize
  clusters : 2 ≤ disk.fatTblNents
  ends : disk.fatDataPos + (disk.fatTblNents - 2) * disk.clusterSize ≤ r.sectors * disk.sectorSize
  holds : tableBytes disk.fatType disk.fatTblNents ≤ disk.fatTblSize

/-- Mounting the disk is safe. -/
structure SafeMount (image : Disk) : Prop where
  ends : ∃ fuel, (fatfsInit fuel image).isSome
  sane : ∀ fuel disk, fatfsInit fuel image = some (.ENOERR, disk) → ∃ r, readBootRecord image = .ok r ∧
    r.bytesPerSec ≠ 0 ∧ r.secPerClu ≠ 0 ∧ Sane r disk

/-- What `fatfs_init` should check of a record with sizes that are powers of two. -/
structure BootRecord.Fits (r : BootRecord) : Prop where
  block : 512 ≤ r.bytesPerSec * r.secPerClu
  inside : r.before ≤ r.sectors
  clusters : (r.sectors - r.before) / r.secPerClu + 2 < 2 ^ 32
  sized : r.bytesPerSec * r.fatSectors < 2 ^ 32
  holds : tableBytes (fatTypeOf ((r.sectors - r.before) / r.secPerClu)) ((r.sectors - r.before) / r.secPerClu + 2) ≤
    r.bytesPerSec * r.fatSectors
  rounded : fatTypeOf ((r.sectors - r.before) / r.secPerClu) ≠ FATFS_FAT32 →
    r.rootDirSecNum * r.bytesPerSec = r.maxRootDents * dentrySize
  addressed : r.bytesPerSec * (if fatTypeOf ((r.sectors - r.before) / r.secPerClu) = FATFS_FAT32 then
    r.resSecNum + r.fatTblsNum * r.fatSectors else r.before) < 2 ^ 32

theorem BootRecord.Typed.dataSecNum (typed : r.Typed) (inside : r.before ≤ r.sectors) :
    r.dataSecNum = r.sectors - r.before := by
  have bound := typed.sectors
  rw [BootRecord.dataSecNum, u32, u32]
  change (r.sectors + (2 ^ 32 - r.before % 2 ^ 32)) % 2 ^ 32 = _
  omega

theorem rootDirSecNum_covers (some : 0 < r.bytesPerSec) :
    r.maxRootDents * dentrySize ≤ r.rootDirSecNum * r.bytesPerSec := by
  have rounded := div_add_mod (r.maxRootDents * dentrySize + (r.bytesPerSec - 1)) r.bytesPerSec
  have rest := mod_lt (r.maxRootDents * dentrySize + (r.bytesPerSec - 1)) some
  rw [mul_comm] at rounded
  change r.rootDirSecNum * r.bytesPerSec + _ = _ at rounded
  omega

theorem rootDirSecNum_lt (typed : r.Typed) (some : 0 < r.bytesPerSec) : r.rootDirSecNum < 2 ^ 22 := by
  have dents := typed.maxRootDents
  have bytes := typed.bytesPerSec
  have less := div_le_self (r.maxRootDents * dentrySize + (r.bytesPerSec - 1)) r.bytesPerSec
  change r.rootDirSecNum ≤ _ at less
  simp only [dentrySize] at less
  omega

theorem BootRecord.Typed.inside (typed : r.Typed) (some : 0 < r.bytesPerSec) (clusters : 0 < r.secPerClu)
    (ends : r.resSecNum + r.fatTblsNum * r.fatSectors + r.dataCluNum * r.secPerClu ≤ r.sectors) :
    r.before ≤ r.sectors := by
  by_contra beyond
  have small := rootDirSecNum_lt typed some
  have cluster := typed.secPerClu
  have wrapped : r.dataSecNum = r.sectors + 2 ^ 32 - r.before := by
    have sum : r.before = r.resSecNum + r.fatTblsNum * r.fatSectors + r.rootDirSecNum := rfl
    rw [BootRecord.dataSecNum, u32, u32]
    omega
  have whole := div_add_mod r.dataSecNum r.secPerClu
  have rest := mod_lt r.dataSecNum clusters
  rw [mul_comm] at whole
  change r.dataCluNum * r.secPerClu + _ = _ at whole
  have sum : r.before = r.resSecNum + r.fatTblsNum * r.fatSectors + r.rootDirSecNum := rfl
  omega

end Ecos.Fat
