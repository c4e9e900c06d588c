import Ecos.Lib.Machine
import Ecos.Lib.Window

namespace Ecos.Redboot

/-- The bytes of a copy of the directory, or of the work block. -/
abbrev Mem := Nat → UInt8

/-- `CYG_REDBOOT_RFIS_VALID_MAGIC`, with its null. -/
def validMagic : List UInt8 := [46, 70, 105, 115, 86, 97, 108, 105, 100, 0]

def rfisValid : UInt8 := 0xA5

def rfisInProgress : UInt8 := 0xFD

/-- The flash block and the directory, which is a number of blocks. The first descriptor begins with `fis_valid_info`:
the magic name in 10 bytes, two bytes `valid_flag` and four bytes `version_count`. -/
structure FisSize where
  block : Nat
  size : Nat
  header : 16 ≤ block
  fits : block ≤ size
  whole : block ∣ size

/-- The two copies in flash, the one that `fis_addr` points to, and `fis_work_block`. -/
structure Fis where
  flash : Bool → Mem
  fisAddr : Bool
  work : Mem

def HasMagic (m : Mem) : Prop := window m 0 10 = validMagic

instance (m : Mem) : Decidable (HasMagic m) := inferInstanceAs (Decidable (_ = _))

def IsValid (m : Mem) : Prop := m 10 = rfisValid ∧ m 11 = rfisValid

instance (m : Mem) : Decidable (IsValid m) := inferInstanceAs (Decidable (_ ∧ _))

def versionCount (m : Mem) : Nat :=
  (m 12).toNat + 2 ^ 8 * (m 13).toNat + 2 ^ 16 * (m 14).toNat + 2 ^ 24 * (m 15).toNat

def versionBytes (n : Nat) : List UInt8 :=
  [UInt8.ofNat n, UInt8.ofNat (n / 2 ^ 8), UInt8.ofNat (n / 2 ^ 16), UInt8.ofNat (n / 2 ^ 24)]

/-- `fis_get_valid_buf`: whether the second copy is taken, and `update_was_interrupted`. -/
def fisGetValidBuf (img0 img1 : Mem) : Bool × Bool :=
  if ¬HasMagic img1 then (false, versionCount img0 > 0)
  else if ¬HasMagic img0 then (true, versionCount img1 > 0)
  else if ¬IsValid img1 then (false, true)
  else if ¬IsValid img0 then (true, true)
  else if versionCount img1 = (versionCount img0 + 1) % 2 ^ 32 then (true, false)
  else (false, false)

/-- The header of a copy as `do_flash_init` looks at it. -/
def seenHeader (m : Mem) : Mem := if HasMagic m then m else fun _ => 0

/-- `do_flash_init`, as far as it chooses and reads the directory. -/
def doFlashInit (flash : Bool → Mem) : Fis :=
  let fisAddr := (fisGetValidBuf (seenHeader (flash false)) (seenHeader (flash true))).1
  ⟨flash, fisAddr, flash fisAddr⟩

/-- Erasing, of which only some bytes may have been reached. -/
def eraseBytes (gone : Nat → Bool) (m : Mem) : Mem := fun i => if gone i then 0xFF else m i

/-- Programming `len` bytes at an offset can only clear bits. -/
def programBytes (m data : Mem)
    (off len : Nat) : Mem := fun i => if off ≤ i ∧ i < off + len then m i &&& data i else m i

/-- Programming that ends after `k` bytes, with `b` in the place of the next one. -/
def tornBytes (m data : Mem) (off len k : Nat) (b : UInt8) : Mem := fun i =>
  if off ≤ i ∧ i < off + len then
    if i < off + k then m i &&& data i else if i = off + k then b else m i
  else m i

/-- The new header in the work block. -/
def prepared (work : Mem) : Mem :=
  overwrite (overwrite work 0 (validMagic ++ [rfisInProgress, rfisInProgress])) 12
    (versionBytes (versionCount work + 1))

namespace Fis
variable (g : FisSize)

/-- The change that a command has made in the work block. -/
def edit (s : Fis) (new : Mem) : Fis := { s with work := fun i => if i < 16 then s.work i else new i }

/-- `fis_start_update_directory`. -/
def startUpdate (s : Fis) : Fis where
  flash := Function.update s.flash (!s.fisAddr)
    (programBytes (eraseBytes (fun i => i < g.size) (s.flash !s.fisAddr)) (prepared s.work) 0 g.block)
  fisAddr := !s.fisAddr
  work := prepared s.work

/-- `fis_update_directory`; the flag says that it returns 0. -/
def updateDirectory (s : Fis) (error : Bool) : Fis × Bool :=
  if s.work 10 ≠ rfisInProgress then (s, false)
  else if error then ({ s with fisAddr := !s.fisAddr }, true)
  else
    let work := overwrite s.work 10 [rfisValid, rfisValid]
    ({ s with
      work
      flash := Function.update s.flash s.fisAddr (programBytes (s.flash s.fisAddr) work 10 2) }, true)

/-- One change of the directory. -/
def commit (s : Fis) (new : Mem) : Fis := (((s.edit new).startUpdate g).updateDirectory false).1

end Fis

/-- Where the power may fail in an update: with some bytes erased, in the programming of the first block, or in that of
the two flags. -/
inductive PowerLoss
  | erasing (gone : Nat → Bool)
  | programming (k : Nat) (b : UInt8)
  | marking (k : Nat) (b : UInt8)

namespace Fis
variable (g : FisSize)

/-- What an interrupted update leaves in flash. -/
def interrupted (s : Fis) (new : Mem) : PowerLoss → Bool → Mem
  | .erasing gone =>
    Function.update s.flash (!s.fisAddr) (eraseBytes (fun i => decide (i < g.size) && gone i) (s.flash !s.fisAddr))
  | .programming k b =>
    Function.update s.flash (!s.fisAddr) (tornBytes (eraseBytes (fun i => i < g.size) (s.flash !s.fisAddr))
      (prepared (s.edit new).work) 0 g.block k b)
  | .marking k b =>
    let s := (s.edit new).startUpdate g
    Function.update s.flash s.fisAddr (tornBytes (s.flash s.fisAddr) (fun _ => rfisValid) 10 2 k b)

/-- A byte that is being programmed has some of the bits cleared. -/
def Halfway (before data b : UInt8) : Prop := b &&& before = b ∧ b &&& (before &&& data) = before &&& data

/-- The byte that was being programmed is as it can be. -/
def Possible (s : Fis) (new : Mem) : PowerLoss → Prop
  | .erasing _ => True
  | .programming k b => k < g.block → Halfway 0xFF (prepared (s.edit new).work k) b
  | .marking k b => k < 2 → Halfway rfisInProgress rfisValid b

end Fis

/-- A completed update, one that is cut short and then a boot, or a boot. -/
inductive FisEvent
  | update (new : Mem)
  | powerLoss (new : Mem) (at' : PowerLoss)
  | reboot

namespace Fis
variable (g : FisSize)

def step (s : Fis) : FisEvent → Fis
  | .update new => s.commit g new
  | .powerLoss new at' => doFlashInit (s.interrupted g new at')
  | .reboot => doFlashInit s.flash

def Enabled (s : Fis) : FisEvent → Prop
  | .powerLoss new at' => s.Possible g new at'
  | _ => True

/-- As `fis init` leaves it: one copy is valid and has been read, the other one is blank. -/
def Formatted (s : Fis) : Prop :=
  HasMagic s.work ∧ IsValid s.work ∧ s.flash s.fisAddr = s.work ∧ s.flash (!s.fisAddr) = fun _ => 0xFF

/-- The runs in which every event satisfies `Ok`. -/
def machine (Ok : Fis → FisEvent → Prop) : Machine Fis :=
  .guided Formatted (fun s e => s.Enabled g e ∧ Ok s e) (step g)

/-- The entries of the directory. -/
def SameEntries (a b : Mem) : Prop := ∀ i, 16 ≤ i → i < g.size → a i = b i

end Fis

open Function List
variable {g : FisSize} {s s' : Fis} {m data c o work new : Mem} {cur : Bool}

theorem hasMagic_congr {m' : Mem} (same : ∀ i < 10, m' i = m i) : HasMagic m' ↔ HasMagic m := by
  rw [HasMagic, HasMagic, window_congr (f := m') (g := m) fun i _ less => same i (by omega)]

theorem versionCount_congr {m' : Mem}
    (same : ∀ i, 12 ≤ i → i < 16 → m' i = m i) : versionCount m' = versionCount m := by
  rw [versionCount, versionCount, same 12, same 13, same 14, same 15]
  all_goals decide

theorem versionCount_overwrite (n : Nat) : versionCount (overwrite m 12 (versionBytes n)) = n % 2 ^ 32 := by
  have bytes : ∀ k, (UInt8.ofNat k).toNat = k % 2 ^ 8 := fun k => UInt8.toNat_ofNat'
  simp only [versionCount, overwrite, versionBytes]
  simp [bytes]
  omega

theorem hasMagic_overwrite {rest : List UInt8} : HasMagic (overwrite m 0 (validMagic ++ rest)) := by
  have whole := window_overwrite (f := m) (p := 0) (l := validMagic ++ rest)
  have ten : validMagic.length = 10 := rfl
  have part := congrArg (take validMagic.length) whole
  rwa [window_take, take_left, length_append, ten, min_eq_right (by omega)] at part

theorem not_hasMagic_zero : ¬HasMagic fun _ => 0 := by decide

/-- A copy that is not to be taken fails one of the tests, or its version is no reason to take it. -/
def Harmless (cur : Bool) (c o : Mem) : Prop :=
  HasMagic o → IsValid o →
    if cur then versionCount c = (versionCount o + 1) % 2 ^ 32 else versionCount o ≠ (versionCount c + 1) % 2 ^ 32

theorem chosen_of_harmless {flash : Bool → Mem} (magic : HasMagic (flash cur)) (valid : IsValid (flash cur))
    (harmless : Harmless cur (flash cur) (flash !cur)) :
    (fisGetValidBuf (seenHeader (flash false)) (seenHeader (flash true))).1 = cur := by
  have seen : seenHeader (flash cur) = flash cur := if_pos magic
  cases cur with
  | true =>
    rw [fisGetValidBuf, seen, if_neg (not_not.mpr magic)]
    by_cases other : HasMagic (flash false)
    · rw [show seenHeader (flash false) = flash false from if_pos other, if_neg (not_not.mpr other),
      if_neg (not_not.mpr valid)]
      by_cases ok : IsValid (flash false)
      · have version : versionCount (flash true) = (versionCount (flash false) + 1) % 2 ^ 32 := harmless other ok
        rw [if_neg (not_not.mpr ok), if_pos version]
      · rw [if_pos ok]
    · rw [show seenHeader (flash false) = fun _ => 0 from if_neg other, if_pos not_hasMagic_zero]
  | false =>
    rw [fisGetValidBuf]
    by_cases other : HasMagic (flash true)
    · rw [show seenHeader (flash true) = flash true from if_pos other, if_neg (not_not.mpr other), seen,
        if_neg (not_not.mpr magic)]
      by_cases ok : IsValid (flash true)
      · have version : versionCount (flash true) ≠ (versionCount (flash false) + 1) % 2 ^ 32 := harmless other ok
        rw [if_neg (not_not.mpr ok), if_neg (not_not.mpr valid), if_neg version]
      · rw [if_pos ok]
    · rw [show seenHeader (flash true) = fun _ => 0 from if_neg other, if_pos not_hasMagic_zero]

namespace Fis

/-- The copy that `fis_addr` points to is valid and would be chosen, and the work block agrees with it. -/
structure Inv (g : FisSize) (s : Fis) : Prop where
  magic : HasMagic (s.flash s.fisAddr)
  valid : IsValid (s.flash s.fisAddr)
  chosen : (fisGetValidBuf (seenHeader (s.flash false)) (seenHeader (s.flash true))).1 = s.fisAddr
  same : ∀ i < g.size, s.work i = s.flash s.fisAddr i

theorem Inv.reboot (inv : s.Inv g) : doFlashInit s.flash = ⟨s.flash, s.fisAddr, s.flash s.fisAddr⟩ := by
  rw [doFlashInit, inv.chosen]

theorem Inv.booted (inv : s.Inv g) : (doFlashInit s.flash).Inv g := by
  rw [inv.reboot]
  exact ⟨inv.magic, inv.valid, inv.chosen, fun _ _ => rfl⟩

theorem Inv.lost {flash : Bool → Mem} (inv : s.Inv g) (kept : flash s.fisAddr = s.flash s.fisAddr)
    (harmless : Harmless s.fisAddr (s.flash s.fisAddr) (flash !s.fisAddr)) :
    doFlashInit flash = ⟨flash, s.fisAddr, s.flash s.fisAddr⟩ := by
  have chosen := @chosen_of_harmless s.fisAddr flash (kept ▸ inv.magic) (kept ▸ inv.valid)
    (by rwa [kept])
  rw [doFlashInit, chosen, kept]

theorem Inv.lost_inv {flash : Bool → Mem} (inv : s.Inv g) (kept : flash s.fisAddr = s.flash s.fisAddr)
    (harmless : Harmless s.fisAddr (s.flash s.fisAddr) (flash !s.fisAddr)) : (doFlashInit flash).Inv g := by
  have chosen := @chosen_of_harmless s.fisAddr flash (kept ▸ inv.magic) (kept ▸ inv.valid)
    (by rwa [kept])
  rw [inv.lost kept harmless]
  exact ⟨kept ▸ inv.magic, kept ▸ inv.valid, chosen, fun i _ => (congrFun kept i).symm⟩

theorem prepared_flag : prepared work 10 = rfisInProgress ∧ prepared work 11 = rfisInProgress := ⟨rfl, rfl⟩

theorem hasMagic_prepared : HasMagic (prepared work) :=
  (hasMagic_congr fun _ less => overwrite_of_lt (by omega)).mpr hasMagic_overwrite

theorem versionCount_prepared : versionCount (prepared work) =
    (versionCount work + 1) % 2 ^ 32 := versionCount_overwrite _

theorem prepared_of_ge {i : Nat} (behind : 16 ≤ i) : prepared work i = work i := by
  rw [prepared, overwrite_of_ge (by simpa [versionBytes] using behind), overwrite_of_ge]
  simp only [length_append, validMagic, length_cons, length_nil]
  omega

theorem startUpdate_other : (s.startUpdate g).flash (!s.fisAddr) =
    programBytes (eraseBytes (fun i => i < g.size) (s.flash !s.fisAddr)) (prepared s.work) 0 g.block :=
  update_self ..

theorem started_byte {i : Nat} (inside : i < g.block) :
    programBytes (eraseBytes (fun i => i < g.size) m) data 0 g.block i = data i := by
  have fits := g.fits
  rw [programBytes, if_pos ⟨Nat.zero_le _, by omega⟩, eraseBytes, if_pos (by simp; omega)]
  exact UInt8.neg_one_and

theorem torn_programming {k : Nat} {b : UInt8} (possible : k < g.block → Halfway 0xFF (prepared work k) b) :
    ¬IsValid (tornBytes (eraseBytes (fun i => i < g.size) m) (prepared work) 0 g.block k b) := by
  have header := g.header
  have fits := g.fits
  rintro ⟨first, -⟩
  rw [tornBytes, if_pos ⟨by omega, by omega⟩] at first
  split at first
  · rw [eraseBytes, if_pos (by simp; omega), prepared_flag.1] at first
    exact absurd first (by decide)
  · split at first
    · next here =>
      have half := (possible (by omega)).2
      rw [show k = 10 by omega, prepared_flag.1, first] at half
      exact absurd half (by decide)
    · rw [eraseBytes, if_pos (by simp; omega)] at first
      exact absurd first (by decide)

/-- The entries behind the first flash block are not in use. -/
def Short (g : FisSize) (new : Mem) : Prop := ∀ i, g.block ≤ i → i < g.size → new i = 0xFF

/-- The copy that a completed update has written. -/
def written (g : FisSize) (s : Fis) (new : Mem) : Mem :=
  programBytes (((s.edit new).startUpdate g).flash !s.fisAddr)
    (overwrite (prepared (s.edit new).work) 10 [rfisValid, rfisValid]) 10 2

theorem commit_eq : s.commit g new = ⟨update s.flash (!s.fisAddr) (s.written g new), !s.fisAddr,
    overwrite (prepared (s.edit new).work) 10 [rfisValid, rfisValid]⟩ := by
  have going : ((s.edit new).startUpdate g).work 10 = rfisInProgress := rfl
  rw [commit, updateDirectory, if_neg (not_not.mpr going), if_neg (by decide)]
  simp only [startUpdate, edit, written, update_self, update_idem]

theorem edit_other : ((s.edit new).startUpdate g).flash (!s.fisAddr) =
    programBytes (eraseBytes (fun i => i < g.size) (s.flash !s.fisAddr)) (prepared (s.edit new).work) 0 g.block :=
  startUpdate_other (s := s.edit new)

theorem edit_byte {i : Nat} (inside : i < g.block) :
    ((s.edit new).startUpdate g).flash (!s.fisAddr) i = prepared (s.edit new).work i := by
  rw [edit_other, started_byte inside]

theorem marked_flag : overwrite m 10 [rfisValid, rfisValid] 10 = rfisValid ∧
    overwrite m 10 [rfisValid, rfisValid] 11 = rfisValid := ⟨rfl, rfl⟩

theorem written_eq (short : Short g new) {i : Nat} (inside : i < g.size) :
    s.written g new i = overwrite (prepared (s.edit new).work) 10 [rfisValid, rfisValid] i := by
  have header := g.header
  rw [written, programBytes]
  by_cases flag : 10 ≤ i ∧ i < 10 + 2
  · rw [if_pos flag, edit_byte (by omega)]
    obtain rfl | rfl : i = 10 ∨ i = 11 := by omega
    · rw [marked_flag.1, prepared_flag.1]
      rfl
    · rw [marked_flag.2, prepared_flag.2]
      rfl
  · rw [if_neg flag]
    have unmarked : overwrite (prepared (s.edit new).work) 10 [rfisValid, rfisValid] i =
      prepared (s.edit new).work i := by
      by_cases low : i < 10
      · exact overwrite_of_lt low
      · exact overwrite_of_ge (by simp only [length_cons, length_nil]; omega)
    rw [unmarked]
    by_cases first : i < g.block
    · exact edit_byte first
    · rw [edit_other, programBytes, if_neg (by omega), eraseBytes, if_pos (by simpa using inside),
      prepared_of_ge (by omega)]
      simp only [edit]
      rw [if_neg (by omega), short i (by omega) inside]

theorem written_header (i : Nat) (low : i < 10 ∨ 12 ≤ i) (high : i < 16) :
    s.written g new i = prepared (s.edit new).work i := by
  have header := g.header
  rw [written, programBytes, if_neg (by omega), edit_byte (by omega)]

theorem written_valid : IsValid (s.written g new) := by
  have header := g.header
  constructor
  · rw [written, programBytes, if_pos (by omega), edit_byte (by omega), marked_flag.1, prepared_flag.1]
    rfl
  · rw [written, programBytes, if_pos (by omega), edit_byte (by omega), marked_flag.2, prepared_flag.2]
    rfl

theorem written_magic : HasMagic (s.written g new) :=
  (hasMagic_congr fun i less => written_header i (.inl less) (by omega)).mpr hasMagic_prepared

theorem Inv.written_version (inv : s.Inv g) :
    versionCount (s.written g new) = (versionCount (s.flash s.fisAddr) + 1) % 2 ^ 32 := by
  have header := g.header
  have fits := g.fits
  rw [versionCount_congr (m := prepared (s.edit new).work) fun i low high => written_header i (.inr low) high,
    versionCount_prepared]
  congr 2
  refine versionCount_congr fun i low high => ?_
  simp only [edit]
  rw [if_pos high]
  exact inv.same i (by omega)

theorem Inv.commit (inv : s.Inv g) (short : Short g new) : (s.commit g new).Inv g := by
  rw [commit_eq]
  have kept : update s.flash (!s.fisAddr) (s.written g new) s.fisAddr = s.flash s.fisAddr :=
    update_of_ne (by cases s.fisAddr <;> decide) ..
  have put : update s.flash (!s.fisAddr) (s.written g new) (!s.fisAddr) = s.written g new :=
    update_self ..
  have magic : HasMagic (update s.flash (!s.fisAddr) (s.written g new) !s.fisAddr) := by
    rw [put]
    exact written_magic
  have valid : IsValid (update s.flash (!s.fisAddr) (s.written g new) !s.fisAddr) := by
    rw [put]
    exact written_valid
  have harmless : Harmless (!s.fisAddr) (update s.flash (!s.fisAddr) (s.written g new) !s.fisAddr)
      (update s.flash (!s.fisAddr) (s.written g new) !(!s.fisAddr)) := by
    rw [put, Bool.not_not, kept]
    intro _ _
    rw [inv.written_version]
    cases s.fisAddr with
    | true =>
      simp only [Bool.not_true, Bool.false_eq_true, if_false]
      omega
    | false => simp
  exact ⟨magic, valid, chosen_of_harmless magic valid harmless,
    fun i inside => (written_eq short inside).symm.trans (congrFun put.symm i)⟩

theorem commit_entries (short : Short g new) :
    SameEntries g ((s.commit g new).flash (s.commit g new).fisAddr) new := by
  intro i low high
  rw [commit_eq]
  dsimp only
  rw [update_self, written_eq short high, overwrite_of_ge (by simp only [length_cons, length_nil]; omega),
    prepared_of_ge low]
  exact if_neg (by omega)

theorem torn_marking {k : Nat} {b : UInt8} (m : Mem) (flags : m 10 = rfisInProgress ∧ m 11 = rfisInProgress)
    (possible : k < 2 → Halfway rfisInProgress rfisValid b) :
    ¬IsValid (tornBytes m (fun _ => rfisValid) 10 2 k b) ∨
      tornBytes m (fun _ => rfisValid) 10 2 k b = programBytes m (overwrite data 10 [rfisValid, rfisValid]) 10 2 := by
  by_cases both : 2 ≤ k ∨ k = 1 ∧ b = rfisValid
  · right
    funext i
    rw [tornBytes, programBytes]
    by_cases flag : 10 ≤ i ∧ i < 10 + 2
    · rw [if_pos flag, if_pos flag]
      obtain rfl | rfl : i = 10 ∨ i = 11 := by omega
      · rw [if_pos (by omega)]
        rfl
      · rcases both with late | ⟨rfl, rfl⟩
        · rw [if_pos (by omega)]
          rfl
        · rw [if_neg (by decide), if_pos (by decide), flags.2, marked_flag.2]
          rfl
    · rw [if_neg flag, if_neg flag]
  · left
    rintro ⟨-, second⟩
    rw [tornBytes, if_pos (by decide)] at second
    obtain ⟨rfl | rfl, other⟩ : (k = 0 ∨ k = 1) ∧ (k = 1 → b ≠ rfisValid) :=
      ⟨by omega, fun one same => both (.inr ⟨one, same⟩)⟩
    · rw [if_neg (by decide), if_neg (by decide), flags.2] at second
      exact absurd second (by decide)
    · rw [if_neg (by decide), if_pos (by decide)] at second
      exact other rfl second

/-- The condition on an event: what is completed leaves the entries behind the first block unused, and an erasure that
is cut short does not leave a copy that passes the tests with another version. -/
def Sound (g : FisSize) (s : Fis) : FisEvent → Prop
  | .update new | .powerLoss new (.marking _ _) => Short g new
  | .powerLoss _ (.erasing gone) =>
    Harmless s.fisAddr (s.flash s.fisAddr) (eraseBytes (fun i => decide (i < g.size) && gone i) (s.flash !s.fisAddr))
  | .powerLoss _ (.programming _ _) | .reboot => True

theorem update_kept {flash : Bool → Mem} : update flash (!cur) m cur = flash cur :=
  update_of_ne (by cases cur <;> decide) ..

theorem update_put {flash : Bool → Mem} : update flash (!cur) m (!cur) = m := update_self ..

theorem Inv.interrupted {at' : PowerLoss} (inv : s.Inv g) (possible : s.Possible g new at')
    (sound : Sound g s (.powerLoss new at')) : (doFlashInit (s.interrupted g new at')).Inv g ∧
      ((doFlashInit (s.interrupted g new at')).work = s.flash s.fisAddr ∨
        s.interrupted g new at' = (s.commit g new).flash ∧ Short g new) := by
  cases at' with
  | erasing gone =>
    have harmless : Harmless s.fisAddr (s.flash s.fisAddr) (s.interrupted g new (.erasing gone) !s.fisAddr) := by
      rw [Fis.interrupted, update_put]
      exact sound
    exact ⟨inv.lost_inv update_kept harmless, .inl (congrArg Fis.work (inv.lost update_kept harmless))⟩
  | programming k b =>
    have harmless : Harmless s.fisAddr (s.flash s.fisAddr) (s.interrupted g new (.programming k b) !s.fisAddr) := by
      rw [Fis.interrupted, update_put]
      exact fun _ valid => absurd valid (torn_programming possible)
    exact ⟨inv.lost_inv update_kept harmless, .inl (congrArg Fis.work (inv.lost update_kept harmless))⟩
  | marking k b =>
    have header := g.header
    have flags : ((s.edit new).startUpdate g).flash (!s.fisAddr) 10 = rfisInProgress ∧
        ((s.edit new).startUpdate g).flash (!s.fisAddr) 11 = rfisInProgress := by
      rw [edit_byte (by omega), edit_byte (by omega)]
      exact prepared_flag
    have left : s.interrupted g new (.marking k b) = update s.flash (!s.fisAddr)
        (tornBytes (((s.edit new).startUpdate g).flash !s.fisAddr) (fun _ => rfisValid) 10 2 k b) := by
      rw [Fis.interrupted]
      simp only [startUpdate, edit, update_idem]
    rcases @torn_marking (prepared (s.edit new).work) _ _ _ flags possible with unfinished | finished
    · have harmless : Harmless s.fisAddr (s.flash s.fisAddr) (s.interrupted g new (.marking k b) !s.fisAddr) := by
        rw [left, update_put]
        exact fun _ valid => absurd valid unfinished
      have kept : s.interrupted g new (.marking k b) s.fisAddr = s.flash s.fisAddr := by
        rw [left, update_kept]
      exact ⟨inv.lost_inv kept harmless, .inl (by rw [inv.lost kept harmless])⟩
    · have same : s.interrupted g new (.marking k b) = (s.commit g new).flash := by
        rw [left, finished, commit_eq, written]
      refine ⟨?_, .inr ⟨same, sound⟩⟩
      rw [same]
      exact (inv.commit sound).booted

theorem Inv.formatted (formatted : s.Formatted) : s.Inv g := by
  obtain ⟨magic, valid, same, blank⟩ := formatted
  have harmless : Harmless s.fisAddr (s.flash s.fisAddr) (s.flash !s.fisAddr) := by
    rw [blank]
    exact fun magic => absurd magic (by decide)
  exact ⟨same ▸ magic, same ▸ valid, chosen_of_harmless (same ▸ magic) (same ▸ valid) harmless,
    fun i _ => congrFun same.symm i⟩

theorem Inv.step {e : FisEvent} (inv : s.Inv g) (enabled : s.Enabled g e) (sound : Sound g s e) :
    (s.step g e).Inv g := by
  cases e with
  | update new => exact inv.commit sound
  | powerLoss new at' => exact (inv.interrupted enabled sound).1
  | reboot => exact inv.booted

/-- In every run whose events meet the condition: a boot finds the directory that was written last, after a completed
update the new one, and after one that was cut short the old or the new one, and nothing between. -/
theorem fis_survives (reach : (machine g (Sound g)).Reach s) :
    SameEntries g (doFlashInit s.flash).work s.work ∧
      (∀ new, Short g new → SameEntries g (doFlashInit (s.commit g new).flash).work new) ∧
      ∀ new at', s.Possible g new at' → Sound g s (.powerLoss new at') →
        SameEntries g (doFlashInit (s.interrupted g new at')).work s.work ∨
          SameEntries g (doFlashInit (s.interrupted g new at')).work new := by
  have inv : s.Inv g := reach.kept (fun s formatted => .formatted formatted) fun s e inv ok => inv.step ok.1 ok.2
  have completed : ∀ new, Short g new → SameEntries g (doFlashInit (s.commit g new).flash).work new := by
    intro new short
    rw [(inv.commit short).reboot]
    exact commit_entries short
  refine ⟨?_, completed, fun new at' possible sound => ?_⟩
  · rw [inv.reboot]
    exact fun i _ inside => (inv.same i inside).symm
  · rcases (inv.interrupted possible sound).2 with old | ⟨same, short⟩
    · left
      rw [old]
      exact fun i _ inside => (inv.same i inside).symm
    · right
      rw [same]
      exact completed new short

/-- A directory of one block of 32 bytes, and one of two. -/
def oneBlock : FisSize := ⟨32, 32, (by decide : 32 ≥ 16), by decide, by decide⟩

def twoBlocks : FisSize := ⟨32, 64, oneBlock.header, by decide, by decide⟩

/-- As it is after `fis init`. -/
def freshWork : Mem := overwrite (fun _ => 0) 0 (validMagic ++ [rfisValid, rfisValid, 1, 0, 0, 0])

def fresh : Fis := ⟨fun copy => if copy then freshWork else fun _ => 0xFF, true, freshWork⟩

theorem fresh_formatted : fresh.Formatted := by
  refine ⟨?_, ?_, rfl, rfl⟩
  · exact hasMagic_overwrite
  · exact ⟨rfl, rfl⟩

/-- The power fails when half of the new directory has been written. -/
theorem fis_survives_half : SameEntries oneBlock (doFlashInit (fresh.commit oneBlock fun _ => 7).flash).work
    (fun _ => 7) ∧
    (SameEntries oneBlock (doFlashInit
      (fresh.interrupted oneBlock (fun _ => 7) (.programming 20 0xFF))).work freshWork ∨
      SameEntries oneBlock (doFlashInit
        (fresh.interrupted oneBlock (fun _ => 7) (.programming 20 0xFF))).work fun _ => 7) := by
  obtain ⟨-, completed, interrupted⟩ := fis_survives (g := oneBlock) (.start fresh_formatted)
  refine ⟨completed _ fun i low high => ?_, interrupted _ _ (fun _ => ⟨by decide, by decide⟩) trivial⟩
  have block : oneBlock.block = 32 := rfl
  have size : oneBlock.size = 32 := rfl
  omega

/-- The second block of a directory is never written. -/
theorem second_block_lost : ¬∀ s, (machine twoBlocks fun _ _ => True).Reach s →
    ∀ new, SameEntries twoBlocks (doFlashInit (s.commit twoBlocks new).flash).work new := by
  intro always
  have lost := always fresh (.start fresh_formatted) (fun _ => 0) 40 (by decide) (by decide)
  revert lost
  decide +kernel

end Fis

end Ecos.Redboot
