import Ecos.Fat.InitSafety

namespace Ecos.Fat
open FatType Services Nat
variable {i j fuel : Nat} {image disk : Disk} {r : BootRecord}

theorem getValLog2_more {val log2 more : Nat} (ends : getValLog2 fuel val = some log2) (later : fuel ≤ more) :
    getValLog2 more val = some log2 := by
  rw [getValLog2] at ends ⊢
  split at ends
  · cases ends
  · rename_i run
    rw [shiftOut_more run later]
    exact ends

theorem fatEnd_eq (sized : r.bytesPerSec * r.fatSectors < 2 ^ 32)
    (fits : r.bytesPerSec * (r.resSecNum + r.fatTblsNum * r.fatSectors) < 2 ^ 32) :
    r.fatEnd = r.bytesPerSec * (r.resSecNum + r.fatTblsNum * r.fatSectors) := by
  have tables : r.fatTblsNum * (r.bytesPerSec * r.fatSectors) = r.bytesPerSec * (r.fatTblsNum * r.fatSectors) :=
    mul_left_comm ..
  rw [mul_add] at fits ⊢
  rw [BootRecord.fatEnd, u32, u32, u32, mod_eq_of_lt sized, tables,
    mod_eq_of_lt (show r.bytesPerSec * (r.fatTblsNum * r.fatSectors) < 2 ^ 32 by omega), mod_eq_of_lt fits]

theorem dataCluNum_lt : r.dataCluNum < 2 ^ 32 :=
  lt_of_le_of_lt (div_le_self ..) (mod_lt _ (by decide))

section Exact
variable (typed : r.Typed) (sector : r.bytesPerSec = 2 ^ i) (cluster : r.bytesPerSec * r.secPerClu = 2 ^ j)
  (same : disk.sectorSize = r.bytesPerSec) (same' : disk.clusterSize = r.bytesPerSec * r.secPerClu)

theorem before_bytes : r.bytesPerSec * r.before =
    r.bytesPerSec * (r.resSecNum + r.fatTblsNum * r.fatSectors) + r.rootDirSecNum * r.bytesPerSec := by
  rw [BootRecord.before, mul_add _ _ r.rootDirSecNum, mul_comm r.rootDirSecNum]

theorem tables_bytes : r.bytesPerSec * r.resSecNum + r.fatTblsNum * (r.fatSectors * r.bytesPerSec) =
    r.bytesPerSec * (r.resSecNum + r.fatTblsNum * r.fatSectors) := by
  ring

include sector cluster in
theorem clusters_pos : 0 < r.bytesPerSec ∧ 0 < r.secPerClu := by
  refine ⟨sector ▸ Nat.two_pow_pos i, Nat.pos_of_ne_zero fun zero => ?_⟩
  rw [zero, mul_zero] at cluster
  exact absurd cluster.symm (Nat.two_pow_pos j).ne'

include typed sector cluster same same'

theorem fits_of_sane (sane : Sane r (r.layOut disk)) : r.Fits := by
  obtain ⟨positive, clusters⟩ := clusters_pos sector cluster
  have few := dataCluNum_lt (r := r)
  have split := before_bytes (r := r)
  have covers := rootDirSecNum_covers positive (r := r)
  have sized : r.bytesPerSec * r.fatSectors < 2 ^ 32 := by
    have size := sane.tableSize
    rw [layOut_fatTblSize, layOut_sectorSize, same, mul_comm r.fatSectors, u32] at size
    omega
  have size := sane.tableSize
  have rootDir := sane.rootDir
  have data := sane.data
  have ends := sane.ends
  have nents := sane.clusters
  have holds := sane.holds
  have block := sane.block
  rw [layOut_fatTblNents, u32] at nents
  have room : r.dataCluNum + 2 < 2 ^ 32 := by omega
  rw [layOut_fatType, layOut_fatTblPos, layOut_fatTblsNum, size, layOut_sectorSize, same, tables_bytes] at data rootDir
  rw [layOut_fatTblNents, u32, mod_eq_of_lt room, layOut_clusterSize, layOut_sectorSize, same, same',
    Nat.add_sub_cancel] at ends
  rw [layOut_fatType, layOut_fatTblNents, u32, mod_eq_of_lt room, layOut_fatTblSize, u32,
    mod_eq_of_lt sized] at holds
  rw [layOut_clusterSize, same'] at block
  have addressed : r.bytesPerSec * (r.resSecNum + r.fatTblsNum * r.fatSectors) < 2 ^ 32 ∧
      (fatTypeOf r.dataCluNum ≠ FATFS_FAT32 → r.rootDirSecNum * r.bytesPerSec = r.maxRootDents * dentrySize ∧
        r.bytesPerSec * r.before < 2 ^ 32) ∧
      r.bytesPerSec * (r.resSecNum + r.fatTblsNum * r.fatSectors) ≤ (r.layOut disk).fatDataPos := by
    have word (n : Nat) : u32 n < 2 ^ 32 := mod_lt _ (by decide)
    by_cases wide : fatTypeOf r.dataCluNum = FATFS_FAT32
    · rw [if_pos wide] at data
      have bound := word (r.bytesPerSec * r.resSecNum + u32 (r.fatTblsNum * u32 (r.bytesPerSec * r.fatSectors)))
      change r.fatEnd < 2 ^ 32 at bound
      rw [← layOut_wide disk wide, data] at bound
      exact ⟨bound, fun narrow => absurd wide narrow, data.ge⟩
    · obtain ⟨rootPos, dataPos⟩ := layOut_narrow disk wide
      rw [if_neg wide, rootDir wide] at data
      have root := rootDir wide
      rw [rootPos] at root
      have bound := word (r.bytesPerSec * r.resSecNum + u32 (r.fatTblsNum * u32 (r.bytesPerSec * r.fatSectors)))
      change r.fatEnd < 2 ^ 32 at bound
      rw [root] at bound dataPos
      have most := mod_le (r.bytesPerSec *
        (r.resSecNum + r.fatTblsNum * r.fatSectors) + r.maxRootDents * dentrySize)
        (2 ^ 32)
      have last := word (r.bytesPerSec * (r.resSecNum + r.fatTblsNum * r.fatSectors) + r.maxRootDents * dentrySize)
      rw [← dataPos, data] at last
      change u32 _ ≤ _ at most
      rw [← dataPos, data] at most
      exact ⟨bound, fun _ => ⟨by omega, by omega⟩, by omega⟩
  obtain ⟨first, narrow, after⟩ := addressed
  have inside : r.before ≤ r.sectors := by
    refine typed.inside positive clusters (le_of_mul_le_mul_left ?_ positive)
    rw [mul_add, mul_comm r.bytesPerSec r.sectors]
    have moved : r.bytesPerSec * (r.dataCluNum * r.secPerClu) = r.dataCluNum * (r.bytesPerSec * r.secPerClu) :=
      mul_left_comm ..
    omega
  have count : r.dataCluNum = (r.sectors - r.before) / r.secPerClu := by
    rw [BootRecord.dataCluNum, typed.dataSecNum inside]
  rw [count] at room holds narrow
  refine ⟨block, inside, room, sized, holds, fun isNarrow => (narrow isNarrow).1, ?_⟩
  split
  · exact first
  · next isNarrow => exact (narrow isNarrow).2

theorem sane_of_fits (fits : r.Fits) : Sane r (r.layOut disk) := by
  have count : r.dataCluNum = (r.sectors - r.before) / r.secPerClu := by
    rw [BootRecord.dataCluNum, typed.dataSecNum fits.inside]
  have room := fits.clusters
  have sized := fits.sized
  have addressed := fits.addressed
  have holds := fits.holds
  have rounded := fits.rounded
  rw [← count] at room addressed holds rounded
  have first : r.bytesPerSec * (r.resSecNum + r.fatTblsNum * r.fatSectors) < 2 ^ 32 := by
    split at addressed
    · exact addressed
    · rw [before_bytes] at addressed
      omega
  have fatEnd := fatEnd_eq sized first
  have size : (r.layOut disk).fatTblSize = r.fatSectors * (r.layOut disk).sectorSize := by
    rw [layOut_fatTblSize, layOut_sectorSize, same, u32, mod_eq_of_lt sized, mul_comm]
  have nents : (r.layOut disk).fatTblNents = r.dataCluNum + 2 := by
    rw [layOut_fatTblNents, u32, mod_eq_of_lt room]
  have sum : (r.layOut disk).fatTblPos + (r.layOut disk).fatTblsNum * (r.layOut disk).fatTblSize = r.fatEnd := by
    rw [layOut_fatTblPos, layOut_fatTblsNum, size, layOut_sectorSize, same, tables_bytes, fatEnd]
  have data : (r.layOut disk).fatDataPos = (if fatTypeOf r.dataCluNum = FATFS_FAT32 then r.fatEnd
      else (r.layOut disk).fatRootDirPos + r.rootDirSecNum * r.bytesPerSec) ∧
      (r.layOut disk).fatDataPos ≤ r.bytesPerSec * r.before := by
    by_cases wide : fatTypeOf r.dataCluNum = FATFS_FAT32
    · rw [if_pos wide, layOut_wide disk wide, fatEnd, before_bytes]
      exact ⟨rfl, by omega⟩
    · obtain ⟨rootPos, dataPos⟩ := layOut_narrow disk wide
      rw [if_neg wide] at addressed ⊢
      rw [dataPos, rootPos, fatEnd, ← rounded wide, ← before_bytes, u32, mod_eq_of_lt addressed]
      exact ⟨rfl, le_rfl⟩
  refine ⟨⟨i, by rw [layOut_sectorSize, same, sector]⟩, ⟨j, by rw [layOut_clusterSize, same', cluster]⟩, ?_, ?_, size,
    fun narrow => ?_, ?_, ?_, ?_, ?_⟩
  · rw [layOut_clusterSize, same']
    exact fits.block
  · rw [layOut_fatTblPos, layOut_sectorSize, same, mul_comm]
  · rw [layOut_fatType] at narrow
    rw [sum, (layOut_narrow disk narrow).1]
  · rw [sum, layOut_fatType, layOut_sectorSize, same]
    exact data.1
  · rw [nents]
    exact Nat.le_add_left ..
  · rw [nents, Nat.add_sub_cancel, layOut_clusterSize, layOut_sectorSize, same, same']
    have whole := div_mul_le_self (r.sectors - r.before) r.secPerClu
    rw [← count] at whole
    have scaled : r.bytesPerSec * (r.before + r.dataCluNum * r.secPerClu) ≤ r.bytesPerSec * r.sectors :=
      mul_le_mul_left _ (by have := fits.inside; omega)
    rw [mul_add, mul_comm _ r.sectors] at scaled
    have moved : r.bytesPerSec * (r.dataCluNum * r.secPerClu) = r.dataCluNum * (r.bytesPerSec * r.secPerClu) :=
      mul_left_comm ..
    have := data.2
    omega
  · rw [layOut_fatType, nents, size, layOut_sectorSize, same, mul_comm r.fatSectors]
    exact holds

end Exact

theorem fatfsInit_zero (read : readBootRecord image = .ok r) (known : r.known = true)
    (zero : r.bytesPerSec = 0 ∨ r.bytesPerSec * r.secPerClu = 0) : fatfsInit fuel image = none := by
  rw [fatfsInit, read]
  dsimp only
  rw [if_neg (by simp [known])]
  obtain zero | zero := zero
  · rw [zero, getValLog2_zero]
  · rw [zero, getValLog2_zero]
    cases getValLog2 fuel r.bytesPerSec <;> rfl

/-- Mounting is safe in exactly these cases. -/
theorem fatfs_init_safe (image : Disk) : SafeMount image ↔ ∀ r, readBootRecord image = .ok r → r.known = true →
    r.bytesPerSec ≠ 0 ∧ r.secPerClu ≠ 0 ∧
      ∀ i j, 0 < i → r.bytesPerSec = 2 ^ i → 0 < j → r.bytesPerSec * r.secPerClu = 2 ^ j → r.Fits := by
  constructor
  · intro safe r read known
    obtain ⟨fuel, ends⟩ := safe.ends
    have sizes : r.bytesPerSec ≠ 0 ∧ r.bytesPerSec * r.secPerClu ≠ 0 := by
      by_contra zero
      rw [fatfsInit_zero read known (by omega)] at ends
      cases ends
    refine ⟨sizes.1, fun zero => sizes.2 (by rw [zero, mul_zero]), fun i j some' sector more cluster => ?_⟩
    obtain ⟨fuel, mounted⟩ : ∃ fuel, fatfsInit fuel image = some (.ENOERR, r.layOut { image with
        sectorSize := r.bytesPerSec, sectorSizeLog2 := i, clusterSize := r.bytesPerSec * r.secPerClu, clusterSizeLog2
          := j }) := by
      refine ⟨i + j + 1, ?_⟩
      rw [fatfsInit, read]
      dsimp only
      rw [if_neg (by simp [known]), cluster, sector, getValLog2_two_pow (by omega), getValLog2_two_pow (by omega)]
      exact if_neg (by omega)
    obtain ⟨r', read', -, -, sane⟩ := safe.sane fuel _ mounted
    obtain rfl := Except.ok.inj (read.symm.trans read')
    exact fits_of_sane (readBootRecord_typed read) sector cluster rfl rfl sane
  · intro fits
    constructor
    · cases read : readBootRecord image with
      | error err => exact ⟨0, by rw [fatfsInit, read]; rfl⟩
      | ok r =>
        by_cases known : r.known
        · obtain ⟨sector, cluster, _⟩ := fits r read known
          obtain ⟨fuel, first, log⟩ := getValLog2_ends (Nat.pos_of_ne_zero sector)
          obtain ⟨fuel', second, log'⟩ := getValLog2_ends (Nat.pos_of_ne_zero (Nat.mul_ne_zero sector cluster))
          refine ⟨max fuel fuel', ?_⟩
          rw [fatfsInit, read]
          dsimp only
          rw [if_neg (by simp [known]), getValLog2_more log (Nat.le_max_left ..),
            getValLog2_more log' (Nat.le_max_right ..)]
          dsimp only
          split <;> rfl
        · refine ⟨0, ?_⟩
          rw [fatfsInit, read]
          dsimp only
          rw [if_pos (by simpa using known)]
          rfl
    · intro fuel disk mounted
      obtain ⟨r, i, j, read, known, some', sector, more, cluster, rfl⟩ := fatfsInit_ok mounted
      obtain ⟨positive, positive', fits⟩ := fits r read known
      exact ⟨r, read, positive, positive',
        sane_of_fits (readBootRecord_typed read) sector cluster rfl rfl (fits i j some' sector more cluster)⟩

/-- A boot sector of zeros but for its signature and marker. -/
def zeroSectors : Disk where
  sectorSize := 0
  sectorSizeLog2 := 0
  clusterSize := 0
  clusterSizeLog2 := 0
  fatTblPos := 0
  fatTblSize := 0
  fatTblNents := 0
  fatTblsNum := 0
  fatRootDirPos := 0
  fatRootDirSize := 0
  fatRootDirNents := 0
  fatRootDirCluster := 0
  fatDataPos := 0
  fatType := FATFS_FAT12
  bytes off := if off = 0x42 then 0x29 else if off = 0x1FE then 0x55 else if off = 0x1FF then 0xAA else 0
  devSize := 512

/-- The mount of a corrupt boot sector never ends. -/
theorem zeroSectors_unsafe : ¬ SafeMount zeroSectors := by
  rintro ⟨⟨fuel, ends⟩, -⟩
  rw [fatfsInit_zero rfl (by decide) (.inl (by decide))] at ends
  cases ends

end Ecos.Fat
