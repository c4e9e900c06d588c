import Ecos.Fat.Tentry
import Ecos.Fat.InitSafety

namespace Ecos.Fat
open FatType TentryType Option Nat List
variable {e w : Nat}

section Types

theorem tentryMarks_pos (type : FatType) : 0 < tentryMarks type := by
  cases type <;> decide

theorem getTentryType_setTentryType {type : FatType} {t : TentryType} (set : setTentryType type t = some e) :
    getTentryType type e = t := by
  have positive := tentryMarks_pos type
  cases t with
  | TENTRY_REGULAR => exact nomatch set
  | TENTRY_FREE =>
    obtain rfl := some.inj set
    rw [getTentryType, if_pos positive, if_pos rfl]
  | TENTRY_LAST | TENTRY_RESERVED | TENTRY_BAD =>
    obtain rfl := some.inj set
    simp only [getTentryType]
    grind

theorem regular_iff {type : FatType} (nonzero : 0 < e) : getTentryType type e = TENTRY_REGULAR ↔ e < tentryMarks type
    := by
  rw [getTentryType]
  split
  · rename_i below
    rw [if_neg (by omega)]
    exact ⟨fun _ => below, fun _ => rfl⟩
  · rename_i marked
    refine ⟨fun regular => ?_, fun below => absurd below marked⟩
    split at regular
    · exact nomatch regular
    · split at regular <;> exact nomatch regular

end Types

/-- Where an entry begins in its table. -/
def tentryOff : FatType → Nat → Nat
  | FATFS_FAT12, num => num * 3 / 2
  | FATFS_FAT16, num => num * 2
  | FATFS_FAT32, num => num * 4

/-- How many bytes are read and written for an entry. -/
def tentryLen : FatType → Nat
  | FATFS_FAT12 | FATFS_FAT16 => 2
  | FATFS_FAT32 => 4

/-- How many entry values there are. -/
def tentryValues : FatType → Nat
  | FATFS_FAT12 => 2 ^ 12
  | FATFS_FAT16 => 2 ^ 16
  | FATFS_FAT32 => 2 ^ 28

theorem tentryOff_fits {type : FatType} {num nents : Nat} (within : num < nents) :
    tentryOff type num + tentryLen type ≤ tableBytes type nents := by
  cases type <;> simp only [tentryOff, tentryLen, tableBytes] <;> omega

namespace Disk
variable {disk : Disk} {num : Nat}

/-- The copies of the FAT lie on the device, within reach of 32-bit positions, and hold all entries. -/
structure Stored (disk : Disk) : Prop where
  copied : 0 < disk.fatTblsNum
  onDevice : disk.fatTblPos + disk.fatTblsNum * disk.fatTblSize ≤ disk.devSize
  addressed : disk.fatTblPos + disk.fatTblsNum * disk.fatTblSize ≤ 2 ^ 32
  holds : tableBytes disk.fatType disk.fatTblNents ≤ disk.fatTblSize

/-- And the entries of FAT12 are few enough for `num * 3`. -/
structure Laid (disk : Disk) : Prop extends Stored disk where
  tripled : disk.fatType = FATFS_FAT12 → disk.fatTblNents * 3 ≤ 2 ^ 32

/-- A byte of a copy of the FAT. -/
def tableByte (disk : Disk) (copy j : Nat) : UInt8 := disk.bytes (disk.fatTblPos + copy * disk.fatTblSize + j)

theorem storeAt_inside {bytes : Nat → UInt8} {data : List UInt8} {pos j : Nat} (below : j < data.length) :
    storeAt bytes data pos (pos + j) = data[j] := by
  rw [storeAt, if_pos (by omega), Nat.add_sub_cancel_left, getElem?_eq_getElem below, getD_some]

theorem storeAt_outside {bytes : Nat → UInt8} {data : List UInt8} {pos i : Nat}
    (apart : i < pos ∨ pos + data.length ≤ i) : storeAt bytes data pos i = bytes i := by
  rw [storeAt]
  split
  · rw [getElem?_eq_none (by omega), getD_none]
  · rfl

theorem writeCopies_spec (disk : Disk) (data : List UInt8) (copies pos : Nat) (some : 0 < data.length)
    (short : data.length ≤ disk.fatTblSize)
    (room : pos + copies * disk.fatTblSize + data.length ≤ disk.devSize + disk.fatTblSize)
    (addressed : pos + copies * disk.fatTblSize + data.length ≤ 2 ^ 32 + disk.fatTblSize) :
    ∃ bytes, writeCopies data copies pos disk = (.ENOERR, { disk with bytes := bytes }) ∧
      (∀ k < copies, ∀ j, ∀ below : j < data.length, bytes (pos + k * disk.fatTblSize + j) = data[j]) ∧
      ∀ i, (∀ k < copies, i < pos + k * disk.fatTblSize ∨ pos + k * disk.fatTblSize + data.length ≤ i) →
        bytes i = disk.bytes i := by
  induction copies generalizing pos disk with
  | zero => exact ⟨disk.bytes, rfl, nofun, fun _ _ => rfl⟩
  | succ copies ih =>
    rw [succ_mul] at room addressed
    rw [writeCopies, diskWrite, if_pos (by omega)]
    dsimp only
    rcases copies with _ | more
    · refine ⟨_, rfl, fun k first j below => ?_, fun i apart => storeAt_outside ?_⟩
      · obtain rfl : k = 0 := by omega
        rw [zero_mul, add_zero, storeAt_inside below]
      · have outside := apart 0 (by omega)
        rwa [zero_mul, add_zero] at outside
    · have next : u32 (pos + disk.fatTblSize) = pos + disk.fatTblSize := by
        rw [succ_mul] at addressed
        exact mod_eq_of_lt (by omega)
      rw [next]
      obtain ⟨bytes, run, hit, miss⟩ := @ih { disk with bytes := storeAt disk.bytes data pos }
        (pos + disk.fatTblSize) short
        (by dsimp only; omega) (by dsimp only; omega)
      have shift (k : Nat) : pos + disk.fatTblSize + k * disk.fatTblSize = pos + (k + 1) * disk.fatTblSize := by ring
      simp only [shift] at hit miss
      refine ⟨bytes, run, fun k less j below => ?_, fun i apart => ?_⟩
      · rcases k with _ | k
        · rw [zero_mul, add_zero, miss _ fun k _ => .inl ?_, storeAt_inside below]
          rw [succ_mul]
          omega
        · exact hit k (by omega) j below
      · have outside := apart 0 (by omega)
        rw [zero_mul, add_zero] at outside
        rw [miss i fun k less => apart (k + 1) (by omega), storeAt_outside outside]

theorem copy_span (size : Nat) {k copies : Nat} (before : k < copies) : k * size + size ≤ copies * size := by
  rw [← succ_mul]
  exact mul_le_mul_right _ before

theorem Laid.off_fits (laid : disk.Laid) (within : num < disk.fatTblNents) :
    tentryOff disk.fatType num + tentryLen disk.fatType ≤ disk.fatTblSize :=
  (tentryOff_fits within).trans laid.holds

theorem tentryLen_pos (type : FatType) : 0 < tentryLen type := by
  cases type <;> decide

theorem Laid.tentryPos_eq (laid : disk.Laid) (within : num < disk.fatTblNents) :
    disk.tentryPos num = disk.fatTblPos + tentryOff disk.fatType num := by
  have span := copy_span disk.fatTblSize laid.copied
  have fits := laid.off_fits within
  have addressed := laid.addressed
  have tripled := laid.tripled
  have positive := tentryLen_pos disk.fatType
  rw [tentryPos]
  cases type : disk.fatType <;> rw [type] at fits positive <;>
    simp only [tentryOff, u32, shiftRight_one, shiftLeft_eq] at fits ⊢
  · have small := tripled type
    rw [mod_eq_of_lt (by omega : num * 3 < 2 ^ 32), mod_eq_of_lt (by omega)]
  · rw [mod_eq_of_lt (by omega : num * 2 ^ 1 < 2 ^ 32), mod_eq_of_lt (by omega), pow_one]
  · rw [mod_eq_of_lt (by omega : num * 2 ^ 2 < 2 ^ 32), mod_eq_of_lt (by omega)]
    omega

/-- The first copy of the FAT, as numbers. -/
def table (disk : Disk) (j : Nat) : Nat := (disk.tableByte 0 j).toNat

theorem toNat_tableByte {j : Nat} : (disk.tableByte 0 j).toNat = disk.table j := rfl

theorem table_lt (j : Nat) : disk.table j < 256 := UInt8.toNat_lt _

end Disk

/-- The entry `num` of a table. -/
def decode (type : FatType) (table : Nat → Nat) (num : Nat) : Nat :=
  let off := tentryOff type num
  match type with
  | FATFS_FAT12 =>
    if num % 2 = 0 then table off + 256 * (table (off + 1) % 16) else table off / 16 + 16 * table (off + 1)
  | FATFS_FAT16 => table off + 256 * table (off + 1)
  | FATFS_FAT32 => table off + 256 * table (off + 1) + 65536 * table (off + 2) + 16777216 * (table (off + 3) % 16)

/-- A table with `e` as its entry `num`. -/
def encode (type : FatType) (table : Nat → Nat) (num e j : Nat) : Nat :=
  let off := tentryOff type num
  match type with
  | FATFS_FAT12 =>
    if j = off then if num % 2 = 0 then e % 256 else e % 16 * 16 + table j % 16
    else if j = off + 1 then if num % 2 = 0 then table j / 16 * 16 + e / 256 else e / 16
    else table j
  | FATFS_FAT16 => if j = off then e % 256 else if j = off + 1 then e / 256 else table j
  | FATFS_FAT32 =>
    if j = off then e % 256 else if j = off + 1 then e / 256 % 256 else if j = off + 2 then e / 65536 % 256
    else if j = off + 3 then table j / 16 * 16 + e / 16777216 else table j

section Table
variable {type : FatType} {table : Nat → Nat} {num m : Nat}

theorem decode_congr {table' : Nat → Nat}
    (same : ∀ j, tentryOff type m ≤ j → j < tentryOff type m + tentryLen type → table' j = table j) :
    decode type table' m = decode type table m := by
  cases type <;> simp only [decode, tentryLen] at same ⊢
  · rw [same _ (by omega) (by omega), same _ (by omega) (by omega)]
  · rw [same _ (by omega) (by omega), same _ (by omega) (by omega)]
  · rw [same _ (by omega) (by omega), same _ (by omega) (by omega), same _ (by omega) (by omega),
      same _ (by omega) (by omega)]

theorem decode_encode (narrow : e < tentryValues type) : decode type (encode type table num e) num = e := by
  cases type <;> simp only [decode, encode, tentryValues] at narrow ⊢
  · by_cases even : num % 2 = 0 <;> simp [even] <;> omega
  · simp
    omega
  · simp
    omega

theorem encode_outside {j : Nat} (apart : j < tentryOff type num ∨ tentryOff type num + tentryLen type ≤ j) :
    encode type table num e j = table j := by
  cases type <;> simp only [encode, tentryLen] at apart ⊢
  · rw [if_neg (by omega), if_neg (by omega)]
  · rw [if_neg (by omega), if_neg (by omega)]
  · rw [if_neg (by omega), if_neg (by omega), if_neg (by omega), if_neg (by omega)]

theorem decode_encode_of_ne (narrow : e < tentryValues type) (other : m ≠ num) :
    decode type (encode type table num e) m = decode type table m := by
  cases type with
  | FATFS_FAT12 =>
    simp only [decode, encode, tentryOff, tentryValues] at narrow ⊢
    -- neighbours share their middle byte
    obtain ⟨h, rfl | rfl⟩ : ∃ h, num = 2 * h ∨ num = 2 * h + 1 := ⟨num / 2, by omega⟩ <;>
      obtain ⟨g, rfl | rfl⟩ : ∃ g, m = 2 * g ∨ m = 2 * g + 1 := ⟨m / 2, by omega⟩ <;>
      by_cases same : g = h <;> grind
  | FATFS_FAT16 =>
    have apart (i : Nat) (below : i < 2) : encode FATFS_FAT16 table num e (tentryOff FATFS_FAT16 m + i) =
        table (tentryOff FATFS_FAT16 m + i) := encode_outside (by simp only [tentryOff, tentryLen]; omega)
    have first : encode FATFS_FAT16 table num e (tentryOff FATFS_FAT16 m) = _ := apart 0 (by decide)
    simp only [decode, first, apart 1 (by decide), add_zero]
  | FATFS_FAT32 =>
    have apart (i : Nat) (below : i < 4) : encode FATFS_FAT32 table num e (tentryOff FATFS_FAT32 m + i) =
        table (tentryOff FATFS_FAT32 m + i) := encode_outside (by simp only [tentryOff, tentryLen]; omega)
    have first : encode FATFS_FAT32 table num e (tentryOff FATFS_FAT32 m) = _ := apart 0 (by decide)
    simp only [decode, first, apart 1 (by decide), apart 2 (by decide), apart 3 (by decide), add_zero]

end Table

namespace Disk
variable {disk : Disk} {num : Nat}

theorem Laid.diskRead_eq (laid : disk.Laid) (within : num < disk.fatTblNents) :
    disk.diskRead (tentryLen disk.fatType) (disk.tentryPos num) =
      .ok fun i => disk.tableByte 0 (tentryOff disk.fatType num + i) := by
  have fits := laid.off_fits within
  have span := copy_span disk.fatTblSize laid.copied
  have onDevice := laid.onDevice
  rw [laid.tentryPos_eq within, diskRead, if_pos (by omega)]
  simp only [tableByte, zero_mul, add_zero, add_assoc]

theorem Laid.num_odd (laid : disk.Laid) (within : num < disk.fatTblNents) (type : disk.fatType = FATFS_FAT12) :
    u32 (num * 3) &&& 1 = num % 2 := by
  have small := laid.tripled type
  rw [u32, mod_eq_of_lt (by omega), and_one_is_mod]
  omega

theorem Laid.readTentry_eq (laid : disk.Laid) (within : num < disk.fatTblNents) :
    disk.readTentry num = .ok (decode disk.fatType disk.table num) := by
  have read := laid.diskRead_eq within
  have odd := laid.num_odd within
  rw [readTentry]
  cases type : disk.fatType <;> rw [type] at read odd <;> simp only [tentryLen] at read <;>
    simp only [read, getWord_eq, getDword_eq, decode, toNat_tableByte, zero_add, add_zero, Except.ok.injEq]
  · have low := disk.table_lt (tentryOff FATFS_FAT12 num)
    have high := disk.table_lt (tentryOff FATFS_FAT12 num + 1)
    have mask (w : Nat) : w &&& 0x0FFF = w % 4096 := land_low (n := 12)
    rw [odd rfl, mask, mask, shiftRight_eq_div_pow]
    split <;> split <;> omega
  · have mask (w : Nat) : w &&& 0x0FFFFFFF = w % 268435456 := land_low (n := 28)
    have b0 := disk.table_lt (tentryOff FATFS_FAT32 num)
    have b1 := disk.table_lt (tentryOff FATFS_FAT32 num + 1)
    have b2 := disk.table_lt (tentryOff FATFS_FAT32 num + 2)
    rw [mask]
    omega

theorem toNat_setWord {j : Nat} (below : j < (setWord w).length) : (setWord w)[j].toNat = w / 256 ^ j % 256 := by
  have short : j < 2 := below
  obtain rfl | rfl : j = 0 ∨ j = 1 := by omega
  · simp only [setWord, getElem_cons_zero, toNat_low, pow_zero, Nat.div_one]
  · simp only [setWord, getElem_cons_succ, getElem_cons_zero, toNat_low, shiftRight_eq_div_pow]
    rfl

theorem toNat_setDword {j : Nat} (below : j < (setDword w).length) : (setDword w)[j].toNat = w / 256 ^ j % 256 := by
  have short : j < 4 := below
  obtain rfl | rfl | rfl | rfl : j = 0 ∨ j = 1 ∨ j = 2 ∨ j = 3 := by omega
  · simp only [setDword, getElem_cons_zero, toNat_low, pow_zero, Nat.div_one]
  all_goals
    simp only [setDword, getElem_cons_succ, getElem_cons_zero, toNat_low, shiftRight_eq_div_pow]
    rfl

theorem Laid.writeTentry_data (laid : disk.Laid) (within : num < disk.fatTblNents)
    (narrow : e < tentryValues disk.fatType) :
    ∃ data, data.length = tentryLen disk.fatType ∧
      (∀ j, ∀ below : j < data.length,
        data[j].toNat = encode disk.fatType disk.table num e (tentryOff disk.fatType num + j)) ∧
      disk.writeTentry num e = writeCopies data disk.fatTblsNum (disk.fatTblPos + tentryOff disk.fatType num) disk := by
  have read := laid.diskRead_eq within
  have odd := laid.num_odd within
  have pos := laid.tentryPos_eq within
  rw [pos] at read
  rw [writeTentry]
  cases type : disk.fatType <;> rw [type] at read odd narrow pos <;> simp only [tentryLen] at read <;>
    simp only [pos, read, getWord_eq, getDword_eq, toNat_tableByte, zero_add, add_zero]
  · refine ⟨_, ?_, fun j below => ?_, rfl⟩
    · rfl
    have short : j < 2 := below
    have low := disk.table_lt (tentryOff FATFS_FAT12 num)
    have high := disk.table_lt (tentryOff FATFS_FAT12 num + 1)
    have small : e < 4096 := narrow
    rw [toNat_setWord, odd rfl, pack_even (by omega) small, pack_odd small]
    have either : j = 0 ∨ j = 1 := by omega
    rcases either with rfl | rfl <;> by_cases even : num % 2 = 0 <;> simp [encode, even, eq_comm (a := 0)] <;> omega
  · refine ⟨_, ?_, fun j below => ?_, rfl⟩
    · rfl
    have short : j < 2 := below
    have small : e < 65536 := narrow
    rw [toNat_setWord]
    simp only [encode]
    obtain rfl | rfl : j = 0 ∨ j = 1 := by omega
    · rw [add_zero, if_pos rfl, pow_zero, Nat.div_one]
    · rw [if_neg (by omega), if_pos rfl, pow_one]
      omega
  · refine ⟨_, ?_, fun j below => ?_, rfl⟩
    · rfl
    have short : j < 4 := below
    have b0 := disk.table_lt (tentryOff FATFS_FAT32 num)
    have b1 := disk.table_lt (tentryOff FATFS_FAT32 num + 1)
    have b2 := disk.table_lt (tentryOff FATFS_FAT32 num + 2)
    have b3 := disk.table_lt (tentryOff FATFS_FAT32 num + 3)
    have small : e < 268435456 := narrow
    rw [toNat_setDword, pack_wide (by omega) small]
    simp only [encode]
    obtain rfl | rfl | rfl | rfl : j = 0 ∨ j = 1 ∨ j = 2 ∨ j = 3 := by omega
    · rw [if_pos (add_zero _)]
      omega
    · rw [if_neg (by omega), if_pos rfl, pow_one]
      omega
    · rw [if_neg (by omega), if_neg (by omega), if_pos rfl]
      omega
    · rw [if_neg (by omega), if_neg (by omega), if_neg (by omega), if_pos rfl]
      omega

theorem Laid.writeTentry_eq (laid : disk.Laid) (within : num < disk.fatTblNents)
    (narrow : e < tentryValues disk.fatType) :
    ∃ bytes, disk.writeTentry num e = (.ENOERR, { disk with bytes := bytes }) ∧
      (∀ k < disk.fatTblsNum, ∀ j < disk.fatTblSize,
        (bytes (disk.fatTblPos + k * disk.fatTblSize + j)).toNat =
          if tentryOff disk.fatType num ≤ j ∧ j < tentryOff disk.fatType num + tentryLen disk.fatType then
            encode disk.fatType disk.table num e j
          else (disk.tableByte k j).toNat) ∧
      ∀ i, i < disk.fatTblPos ∨ disk.fatTblPos + disk.fatTblsNum * disk.fatTblSize ≤ i → bytes i = disk.bytes i := by
  obtain ⟨data, length, content, run⟩ := laid.writeTentry_data within narrow
  have fits := laid.off_fits within
  have onDevice := laid.onDevice
  have addressed := laid.addressed
  have positive := tentryLen_pos disk.fatType
  obtain ⟨bytes, stored, hit, miss⟩ := writeCopies_spec disk data disk.fatTblsNum
    (disk.fatTblPos + tentryOff disk.fatType num) (by omega) (by omega) (by omega) (by omega)
  refine ⟨bytes, run.trans stored, fun k copy j inside => ?_, fun i apart => miss i fun k copy => ?_⟩
  · split
    · rename_i here
      have at' : disk.fatTblPos + k * disk.fatTblSize + j = disk.fatTblPos + tentryOff disk.fatType num +
          k * disk.fatTblSize + (j - tentryOff disk.fatType num) := by omega
      rw [at', hit k copy _ (by omega), content]
      congr 1
      omega
    · rename_i outside
      rw [miss _ fun other copy' => ?_]
      · rfl
      · rcases lt_trichotomy other k with before | rfl | after
        · have span := copy_span disk.fatTblSize before
          omega
        · omega
        · have span := copy_span disk.fatTblSize after
          omega
  · have span := copy_span disk.fatTblSize copy
    omega

theorem Laid.withBytes (laid : disk.Laid) (bytes : Nat → UInt8) : ({ disk with bytes := bytes } : Disk).Laid :=
  ⟨⟨laid.copied, laid.onDevice, laid.addressed, laid.holds⟩, laid.tripled⟩

/-- The other copies of the FAT equal the first. -/
def Identical (disk : Disk) : Prop :=
  ∀ k < disk.fatTblsNum, ∀ j < disk.fatTblSize, disk.tableByte k j = disk.tableByte 0 j

/-- The top four bits of a slot of FAT32. -/
def slotTop (disk : Disk) (num : Nat) : Nat := disk.table (num * 4 + 3) / 16

/-- One entry has been written. -/
structure Wrote (before : Disk) (num e : Nat) (after : Disk) : Prop where
  same : ∃ bytes, after = { before with bytes := bytes }
  reads : after.readTentry num = .ok e
  others : ∀ m < before.fatTblNents, m ≠ num → after.readTentry m = before.readTentry m
  top : before.fatType = FATFS_FAT32 → after.slotTop num = before.slotTop num
  copies : before.Identical → after.Identical

theorem Laid.wrote (laid : disk.Laid) (within : num < disk.fatTblNents) (narrow : e < tentryValues disk.fatType) :
    ∃ after, disk.writeTentry num e = (.ENOERR, after) ∧ Wrote disk num e after := by
  obtain ⟨bytes, run, copies, -⟩ := laid.writeTentry_eq within narrow
  have laid' := laid.withBytes bytes
  have size {m : Nat} (inside : m < disk.fatTblNents) := laid.off_fits inside
  have table {j : Nat} (inside : j < disk.fatTblSize) :
      ({ disk with bytes := bytes } : Disk).table j = encode disk.fatType disk.table num e j := by
    have stored := copies 0 laid.copied j inside
    refine stored.trans ?_
    split
    · rfl
    · rename_i outside
      have apart : j < tentryOff disk.fatType num ∨ tentryOff disk.fatType num + tentryLen disk.fatType ≤ j := by omega
      change disk.table j = _
      exact (encode_outside apart).symm
  have entry {m : Nat} (inside : m < disk.fatTblNents) : ({ disk with bytes := bytes } : Disk).readTentry m =
      .ok (decode disk.fatType (encode disk.fatType disk.table num e) m) := by
    rw [laid'.readTentry_eq inside]
    exact congrArg _ (decode_congr fun j _ high => table (lt_of_lt_of_le high (size inside)))
  refine ⟨_, run, ⟨bytes, rfl⟩, ?_, fun m inside other => ?_, fun type => ?_, fun identical k copy j inside => ?_⟩
  · rw [entry within, decode_encode narrow]
  · rw [entry inside, decode_encode_of_ne narrow other, laid.readTentry_eq inside]
  · have fits := size within
    rw [type] at fits
    have inside : num * 4 + 3 < disk.fatTblSize := by
      simp only [tentryOff, tentryLen] at fits
      omega
    rw [type] at narrow
    have small : e < 268435456 := narrow
    rw [slotTop, table inside, type, slotTop]
    simp only [encode, tentryOff]
    rw [if_neg (by omega), if_neg (by omega), if_neg (by omega), if_pos trivial]
    omega
  · have first := copies 0 laid.copied j inside
    have other := copies k copy j inside
    rw [identical k copy j inside, ← first] at other
    exact UInt8.toNat_inj.mp other

/-- What is written to the FAT is read back and disturbs nothing else, and the marks and links that are written mean
what they were meant to. -/
structure TableCodec (disk : Disk) : Prop where
  written : ∀ bytes, ∀ num < disk.fatTblNents, ∀ e < tentryValues disk.fatType, ∃ after,
    ({ disk with bytes := bytes } : Disk).writeTentry num e = (.ENOERR, after) ∧
      Wrote { disk with bytes := bytes } num e after
  marked : ∀ t e, setTentryType disk.fatType t = some e → getTentryType disk.fatType e = t
  linked : ∀ bytes, ∀ cluster < disk.fatTblNents, ∀ c, 2 ≤ c → c < disk.fatTblNents → ∃ after e,
    ({ disk with bytes := bytes } : Disk).linkCluster cluster c = (.ENOERR, after) ∧
      after.readTentry cluster = .ok e ∧ getTentryType disk.fatType e = TENTRY_REGULAR ∧ getTentryNextCluster e = c

theorem tentryMarks_lt (type : FatType) : 2 ≤ tentryMarks type ∧ tentryMarks type < tentryValues type := by
  cases type <;> decide

theorem Laid.tableCodec (laid : disk.Laid) (few : disk.fatTblNents ≤ tentryMarks disk.fatType) : disk.TableCodec where
  written bytes _ within _ narrow := (laid.withBytes bytes).wrote within narrow
  marked _ _ := getTentryType_setTentryType
  linked bytes cluster within c valid below := by
    have marks := (tentryMarks_lt disk.fatType).2
    have narrow : c < tentryValues disk.fatType := by omega
    obtain ⟨after, run, wrote⟩ := (laid.withBytes bytes).wrote within narrow
    exact ⟨after, c, run, wrote.reads, (regular_iff (by omega)).mpr (by omega), rfl⟩

theorem TableCodec.few (codec : disk.TableCodec) : disk.fatTblNents ≤ tentryMarks disk.fatType := by
  by_contra many
  obtain ⟨two, narrow⟩ := tentryMarks_lt disk.fatType
  obtain ⟨after, e, run, reads, regular, next⟩ := codec.linked disk.bytes 2 (by omega) _ two (by omega)
  obtain rfl : e = tentryMarks disk.fatType := next
  have below := (regular_iff (by omega)).mp regular
  omega

end Disk

/-- The FAT of a mounted disk is a faithful store exactly if no cluster number is as large as a mark. -/
theorem fat_codec {fuel : Nat} {image disk : Disk} (mounted : fatfsInit fuel image = some (.ENOERR, disk))
    (stored : disk.Stored) : disk.TableCodec ↔ disk.fatTblNents ≤ tentryMarks disk.fatType := by
  have few := fatfsInit_few mounted
  have laid : disk.Laid := ⟨stored, fun type => by have := few type; omega⟩
  exact ⟨Disk.TableCodec.few, laid.tableCodec⟩

/-- A FAT12 disk of 4084 one-sector clusters. -/
def largestFat12 : Disk where
  sectorSize := 0
  sectorSizeLog2 := 0
  clusterSize := 0
  clusterSizeLog2 := 0
  fatTblPos := 0
  fatTblSize := 0
  fatTblNents := 0
  fatTblsNum := 0
  fatRootDirPos := 0
  fatRootDirSize := 0
  fatRootDirNents := 0
  fatRootDirCluster := 0
  fatDataPos := 0
  fatType := FATFS_FAT12
  bytes
    | 0x0C => 2
    | 0x0D | 0x0E | 0x10 => 1
    | 0x11 => 16
    | 0x13 => 0x02
    | 0x14 => 0x10
    | 0x16 => 12
    | 0x26 => 0x29
    | 0x1FE => 0x55
    | 0x1FF => 0xAA
    | _ => 0
  devSize := 4098 * 512

theorem largestFat12_stored : ∃ disk, fatfsInit 32 largestFat12 = some (.ENOERR, disk) ∧ disk.Stored ∧
    disk.fatTblNents = 4086 ∧ disk.fatType = FATFS_FAT12 :=
  ⟨_, rfl, ⟨by decide, by decide, by decide, by decide⟩, rfl, rfl⟩

theorem fat_codec_largest : ∃ disk, fatfsInit 32 largestFat12 = some (.ENOERR, disk) ∧
    (disk.TableCodec ↔ disk.fatTblNents ≤ tentryMarks disk.fatType) := by
  obtain ⟨disk, mounted, stored, -⟩ := largestFat12_stored
  exact ⟨disk, mounted, fat_codec mounted stored⟩

/-- On it the link to cluster 4080 reads back as a reserved entry. -/
theorem fat_codec_broken : ∃ disk, fatfsInit 32 largestFat12 = some (.ENOERR, disk) ∧ disk.Stored ∧
    4080 < disk.fatTblNents ∧ getTentryType disk.fatType 4080 = TENTRY_RESERVED ∧ ¬ disk.TableCodec := by
  obtain ⟨disk, mounted, stored, nents, type⟩ := largestFat12_stored
  refine ⟨disk, mounted, stored, by omega, by rw [type]; rfl, fun codec => ?_⟩
  have few := codec.few
  rw [nents, type] at few
  exact absurd few (by decide)

end Ecos.Fat
