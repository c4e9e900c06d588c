import Ecos.Fat.Disk

namespace Ecos.Fat
open FatType

/-- The types of FAT table entries. -/
inductive TentryType
  | TENTRY_REGULAR
  | TENTRY_FREE
  | TENTRY_LAST
  | TENTRY_RESERVED
  | TENTRY_BAD
  deriving DecidableEq, Repr

open TentryType

/-- The entries from which on `get_tentry_type` takes an entry for a mark: FREE and REGULAR are below. -/
def tentryMarks : FatType → Nat
  | FATFS_FAT12 => 0x0FF0
  | FATFS_FAT16 => 0xFFF0
  | FATFS_FAT32 => 0x0FFFFFF0

/-- `get_tentry_type`: the three widths differ in their bound only. -/
def getTentryType (type : FatType) (entry : Nat) : TentryType :=
  if entry < tentryMarks type then
    if 0 = entry then TENTRY_FREE else TENTRY_REGULAR
  else if tentryMarks type + 8 ≤ entry then TENTRY_LAST
  else if tentryMarks type + 7 = entry then TENTRY_BAD
  else TENTRY_RESERVED

/-- `set_tentry_type`. There is no entry for REGULAR. -/
def setTentryType (type : FatType) : TentryType → Option Nat
  | TENTRY_FREE => some 0
  | TENTRY_LAST => some (tentryMarks type + 8)
  | TENTRY_RESERVED => some (tentryMarks type)
  | TENTRY_BAD => some (tentryMarks type + 7)
  | TENTRY_REGULAR => none

def getTentryNextCluster (entry : Nat) : Nat := entry

def setTentryNextCluster (nextCluster : Nat) : Nat := nextCluster

namespace Disk

/-- Where the entry `num` of the first copy begins. -/
def tentryPos (disk : Disk) (num : Nat) : Nat :=
  match disk.fatType with
  | FATFS_FAT12 => u32 (disk.fatTblPos + u32 (num * 3) >>> 1)
  | FATFS_FAT16 => u32 (disk.fatTblPos + u32 (num <<< 1))
  | FATFS_FAT32 => u32 (disk.fatTblPos + u32 (num <<< 2))

def readTentry (disk : Disk) (num : Nat) : Except Err Nat :=
  match disk.fatType with
  | FATFS_FAT12 =>
    match disk.diskRead 2 (disk.tentryPos num) with
    | .error err => .error err
    | .ok data =>
      let e := getWord data 0x00
      .ok (if 0 = u32 (num * 3) &&& 1 then e &&& 0x0FFF else (e >>> 4) &&& 0x0FFF)
  | FATFS_FAT16 =>
    match disk.diskRead 2 (disk.tentryPos num) with
    | .error err => .error err
    | .ok data => .ok (getWord data 0x00)
  | FATFS_FAT32 =>
    match disk.diskRead 4 (disk.tentryPos num) with
    | .error err => .error err
    | .ok data => .ok (getDword data 0x00 &&& 0x0FFFFFFF)

/-- The loop of `write_tentry` over the copies of the FAT. -/
def writeCopies (data : List UInt8) : Nat → Nat → Disk → Err × Disk
  | 0, _, disk => (.ENOERR, disk)
  | copies + 1, pos, disk =>
    match disk.diskWrite data pos with
    | (.ENOERR, disk) => writeCopies data copies (u32 (pos + disk.fatTblSize)) disk
    | (err, disk) => (err, disk)

def writeTentry (disk : Disk) (num entry : Nat) : Err × Disk :=
  match disk.fatType with
  | FATFS_FAT12 =>
    match disk.diskRead 2 (disk.tentryPos num) with
    | .error err => (err, disk)
    | .ok data =>
      let e := getWord data 0x00
      let e := if 0 = u32 (num * 3) &&& 1 then (e &&& 0xF000) ||| (entry &&& 0x0FFF)
        else (e &&& 0x000F) ||| ((entry &&& 0x0FFF) <<< 4)
      writeCopies (setWord e) disk.fatTblsNum (disk.tentryPos num) disk
  | FATFS_FAT16 => writeCopies (setWord entry) disk.fatTblsNum (disk.tentryPos num) disk
  | FATFS_FAT32 =>
    match disk.diskRead 4 (disk.tentryPos num) with
    | .error err => (err, disk)
    | .ok data =>
      let e := (getDword data 0x00 &&& 0xF0000000) ||| entry
      writeCopies (setDword e) disk.fatTblsNum (disk.tentryPos num) disk

def markCluster (disk : Disk) (cluster : Nat) (type : TentryType) : Err × Disk :=
  match setTentryType disk.fatType type with
  | some tentry => disk.writeTentry cluster tentry
  | none => (.EINVAL, disk)

def linkCluster (disk : Disk) (cluster1 cluster2 : Nat) : Err × Disk :=
  disk.writeTentry cluster1 (setTentryNextCluster cluster2)

end Disk
end Ecos.Fat
