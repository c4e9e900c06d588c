import Ecos.Services.Blib

namespace Ecos.Fat

inductive Err
  | ENOERR
  | EIO
  | EINVAL
  | ENOSPC
  | EEOF
  deriving DecidableEq, Repr

inductive FatType
  | FATFS_FAT12
  | FATFS_FAT16
  | FATFS_FAT32
  deriving DecidableEq, Repr

open FatType

/-- What the 32-bit type of the geometry keeps of a number. -/
def u32 (n : Nat) : Nat := n % 2 ^ 32

/-- `fatfs_disk_t` with the device seen through the block cache: its bytes and how many there are. -/
structure Disk where
  sectorSize : Nat
  sectorSizeLog2 : Nat
  clusterSize : Nat
  clusterSizeLog2 : Nat
  fatTblPos : Nat
  fatTblSize : Nat
  fatTblNents : Nat
  fatTblsNum : Nat
  fatRootDirPos : Nat
  fatRootDirSize : Nat
  fatRootDirNents : Nat
  fatRootDirCluster : Nat
  fatDataPos : Nat
  fatType : FatType
  bytes : Nat → UInt8
  devSize : Nat

def getByte (data : Nat → UInt8) (off : Nat) : Nat := (data off).toNat

def getWord (data : Nat → UInt8) (off : Nat) : Nat := (data off).toNat ||| (data (off + 1)).toNat <<< 8

def getDword (data : Nat → UInt8) (off : Nat) : Nat :=
  (data off).toNat ||| (data (off + 1)).toNat <<< 8 ||| (data (off + 2)).toNat <<< 16 |||
    (data (off + 3)).toNat <<< 24

/-- The bytes that `SET_WORD` stores. -/
def setWord (val : Nat) : List UInt8 := [.ofNat (val &&& 0xFF), .ofNat ((val >>> 8) &&& 0xFF)]

/-- The bytes that `SET_DWORD` stores. -/
def setDword (val : Nat) : List UInt8 :=
  [.ofNat (val &&& 0xFF), .ofNat ((val >>> 8) &&& 0xFF), .ofNat ((val >>> 16) &&& 0xFF), .ofNat ((val >>> 24) &&& 0xFF)]

namespace Disk

/-- `disk_read`: the device refuses what lies beyond its end. -/
def diskRead (disk : Disk) (len pos : Nat) : Except Err (Nat → UInt8) :=
  if pos + len ≤ disk.devSize then .ok fun i => disk.bytes (pos + i) else .error Err.EIO

/-- Contents with `data` stored from `pos` on. -/
def storeAt (bytes : Nat → UInt8) (data : List UInt8) (pos i : Nat) : UInt8 :=
  if pos ≤ i then (data[i - pos]?).getD (bytes i) else bytes i

def diskWrite (disk : Disk) (data : List UInt8) (pos : Nat) : Err × Disk :=
  if pos + data.length ≤ disk.devSize then (.ENOERR, { disk with bytes := storeAt disk.bytes data pos }) else
    ( Err.EIO, disk)

end Disk

/-- The part of `fat_boot_record_t` that `fatfs_init` uses. -/
structure BootRecord where
  bytesPerSec : Nat
  secPerClu : Nat
  resSecNum : Nat
  fatTblsNum : Nat
  maxRootDents : Nat
  secNum32 : Nat
  secPerFat : Nat
  secNum : Nat
  secPerFat32 : Nat
  rootCluster : Nat
  extSig : Nat
  exeMarker : Nat × Nat

/-- `read_boot_record`. The fields of FAT32 are read where `sec_per_fat` is zero. -/
def readBootRecord (disk : Disk) : Except Err BootRecord :=
  match disk.diskRead 0x5A 0 with
  | .error err => .error err
  | .ok data =>
    match disk.diskRead 0x02 0x1FE with
    | .error err => .error err
    | .ok marker =>
      let secPerFat := getWord data 0x16
      .ok {
        bytesPerSec := getWord data 0x0B
        secPerClu := getByte data 0x0D
        resSecNum := getWord data 0x0E
        fatTblsNum := getByte data 0x10
        maxRootDents := getWord data 0x11
        secNum32 := getWord data 0x13
        secPerFat := secPerFat
        secNum := getDword data 0x20
        secPerFat32 := if 0 = secPerFat then getDword data 0x24 else 0
        rootCluster := if 0 = secPerFat then getDword data 0x2C else 0
        extSig := if 0 = secPerFat then getByte data 0x42 else getByte data 0x26
        exeMarker := (getByte marker 0, getByte marker 1) }

def dentrySize : Nat := 0x20

namespace BootRecord

/-- The number of sectors. -/
def sectors (r : BootRecord) : Nat := if r.secNum32 ≠ 0 then r.secNum32 else r.secNum

/-- The number of sectors of one copy of the FAT. -/
def fatSectors (r : BootRecord) : Nat := if r.secPerFat ≠ 0 then r.secPerFat else r.secPerFat32

/-- The number of sectors of the root directory. -/
def rootDirSecNum (r : BootRecord) : Nat := (r.maxRootDents * dentrySize + (r.bytesPerSec - 1)) / r.bytesPerSec

/-- The number of data sectors, in unsigned arithmetic. -/
def dataSecNum (r : BootRecord) : Nat :=
  u32 (r.sectors + (2 ^ 32 - u32 (r.resSecNum + r.fatTblsNum * r.fatSectors + r.rootDirSecNum)))

/-- The number of data clusters. -/
def dataCluNum (r : BootRecord) : Nat := r.dataSecNum / r.secPerClu

end BootRecord

/-- The type of FAT for a number of data clusters. -/
def fatTypeOf (dataCluNum : Nat) : FatType :=
  if dataCluNum < 4085 then FATFS_FAT12 else if dataCluNum < 65525 then FATFS_FAT16 else FATFS_FAT32

/-- The last part of `fatfs_init`: the FAT, its type, the root directory and the data area. -/
def BootRecord.layOut (r : BootRecord) (disk : Disk) : Disk :=
  let fatTblPos := r.bytesPerSec * r.resSecNum
  let fatTblSize := u32 (r.bytesPerSec * r.fatSectors)
  let fatEnd := u32 (fatTblPos + u32 (r.fatTblsNum * fatTblSize))
  let disk := { disk with
    fatTblPos := fatTblPos
    fatTblSize := fatTblSize
    fatTblNents := u32 (r.dataCluNum + 2)
    fatTblsNum := r.fatTblsNum
    fatType := fatTypeOf r.dataCluNum }
  if FATFS_FAT32 ≠ disk.fatType then
    { disk with
      fatRootDirPos := fatEnd
      fatRootDirSize := r.maxRootDents * dentrySize
      fatRootDirNents := r.maxRootDents
      fatRootDirCluster := 0
      -- the root directory's own size, not that of its sectors
      fatDataPos := u32 (fatEnd + r.maxRootDents * dentrySize) }
  else
    { disk with
      fatRootDirPos := 0
      fatRootDirSize := 0
      fatRootDirNents := 0
      fatRootDirCluster := r.rootCluster
      fatDataPos := fatEnd }

/-- The check of the known values of the boot record. -/
def BootRecord.known (r : BootRecord) : Bool :=
  (0x29 = r.extSig ∨ 0x28 = r.extSig) ∧ 0x55 = r.exeMarker.1 ∧ 0xAA = r.exeMarker.2

/-- `fatfs_init`. It is `none` while a loop of `get_val_log2` runs. -/
def fatfsInit (fuel : Nat) (disk : Disk) : Option (Err × Disk) :=
  match readBootRecord disk with
  | .error err => some (err, disk)
  | .ok r =>
    if !r.known then some (.EINVAL, disk)
    else
      match Services.getValLog2 fuel r.bytesPerSec, Services.getValLog2 fuel (r.bytesPerSec * r.secPerClu) with
      | some sectorSizeLog2, some clusterSizeLog2 =>
        let disk := { disk with
          sectorSize := r.bytesPerSec
          sectorSizeLog2 := sectorSizeLog2
          clusterSize := r.bytesPerSec * r.secPerClu
          clusterSizeLog2 := clusterSizeLog2 }
        if 0 = sectorSizeLog2 ∨ 0 = clusterSizeLog2 then some (.EINVAL, disk)
        else some (.ENOERR, r.layOut disk)
      | _, _ => none

end Ecos.Fat
