import Mathlib.Data.List.Infix
import Ecos.Flash.RangesSafety
import Ecos.Redboot.Fis

namespace Ecos.Redboot.FisBlank
open Flash Nat List

/-- The flash devices and the configuration: `flash_reserved` of a start address, `CYGNUM_REDBOOT_FLASH_BASE` if it is
set, and `CYGNUM_REDBOOT_FLASH_RESERVED_BASE`, the size of an area in the device that has the flash base. Blocks are
whole words. -/
structure Layout where
  devs : List Dev
  reserved : Nat → Bool
  flashBase : Option Nat
  reservedBase : Nat
  apart : Apart devs
  words : ∀ d ∈ devs, ∀ r ∈ d.blockInfo, 4 ∣ r.1
  within : ∀ x ∈ devs.zipIdx, flashBase = some x.1.start ∨ flashBase = none ∧ x.2 = 0 →
    x.1.start + reservedBase ≤ x.1.last

/-- Where the area to be searched in a device starts. -/
def Layout.areaStart (l : Layout) (x : Dev × Nat) : Nat :=
  if l.flashBase = some x.1.start ∨ l.flashBase = none ∧ x.2 = 0 then x.1.start + l.reservedBase else x.1.start

/-- The words of a block that are compared with `0xffffffff`. -/
def isBlank (mem : Mem) (b : Nat × Nat) : Bool :=
  (List.range ((min 32 b.2 + 3) / 4)).all fun k => (window mem (b.1 + 4 * k) 4).all (· == 0xFF)

/-- The loops over the blocks of a device, and the final check behind them; the device ends before `stop`. -/
def scanDev (mem : Mem) (length stop : Nat) : List (Nat × Nat) → Nat → Option Nat
  | [], area => if stop ≠ area ∧ length ≤ sub32 stop area then some area else none
  | (curr, size) :: rest, area =>
    let next := (curr + size) % 2 ^ 32
    if curr < area then scanDev mem length stop rest area
    else if isBlank mem (curr, size) then scanDev mem length stop rest area
    else if curr ≠ area ∧ length ≤ sub32 next area then some area
    else scanDev mem length stop rest next

def Layout.findFrom (l : Layout) (mem : Mem) (length : Nat) : List (Dev × Nat) → Option Nat
  | [] => none
  | x :: rest =>
    if l.reserved x.1.start then l.findFrom mem length rest
    else
      match scanDev mem length ((x.1.last + 1) % 2 ^ 32) x.1.blocks (l.areaStart x) with
      | some area => some area
      | none => l.findFrom mem length rest

/-- `fis_find_free` without the table of chunks. -/
def Layout.fisFindFree (l : Layout) (mem : Mem) (length : Nat) : Option Nat := l.findFrom mem length l.devs.zipIdx

/-- The first 32 bytes of a block, or all of a shorter one. -/
def Blank (mem : Mem) (b : Nat × Nat) : Prop := ∀ i < min 32 b.2, mem (b.1 + i) = 0xFF

/-- A block that an image may be put in. -/
def Layout.Usable (l : Layout) (mem : Mem) (x : Dev × Nat) (b : Nat × Nat) : Prop :=
  l.reserved x.1.start = false ∧ l.areaStart x ≤ b.1 ∧ Blank mem b

/-- What is found lies in one device and in blocks that may be used, and if nothing is found, no such blocks next to
each other are long enough. -/
structure FindsFree (l : Layout) (mem : Mem) (length : Nat) (result : Option Nat) : Prop where
  found : ∀ addr, result = some addr → 0 < length →
    (∃ x ∈ l.devs.zipIdx, l.areaStart x ≤ addr ∧ addr + length ≤ x.1.last + 1) ∧
      ∀ x ∈ l.devs.zipIdx, ∀ b ∈ x.1.blocks, b.1 < addr + length → addr < b.1 + b.2 → l.Usable mem x b
  missed : result = none → ∀ x ∈ l.devs.zipIdx, ∀ run, run <:+: x.1.blocks → run ≠ [] →
    (∀ b ∈ run, l.Usable mem x b) → (run.map Prod.snd).sum < length

/-- A stretch of a device: where it starts, the bytes of the blank blocks that start there, and the bytes of all the
blocks with the one behind it, that is not blank. -/
structure Area where
  start : Nat
  blank : Nat
  total : Nat

/-- The stretches of the blocks of a device, from a start and a number of blank bytes on. -/
def areas (mem : Mem) (stop : Nat) : List (Nat × Nat) → Nat → Nat → List Area
  | [], start, blank => if stop = start then [] else [⟨start, blank, sub32 stop start⟩]
  | (curr, size) :: rest, start, blank =>
    let next := (curr + size) % 2 ^ 32
    if curr < start then areas mem stop rest start blank
    else if isBlank mem (curr, size) then areas mem stop rest start (if curr =
      start + blank then blank + size else blank)
    else if curr = start then areas mem stop rest next 0
    else ⟨start, blank, sub32 next start⟩ :: areas mem stop rest next 0

/-- The stretches of all devices that are searched. -/
def Layout.areas (l : Layout) (mem : Mem) : List Area :=
  (l.devs.zipIdx.filter fun x => !l.reserved x.1.start).flatMap fun x =>
    FisBlank.areas mem ((x.1.last + 1) % 2 ^ 32) x.1.blocks (l.areaStart x) 0

variable {l : Layout} {mem : Mem} {length stop start blank p q : Nat} {x : Dev × Nat} {blocks rest pre run :
  List (Nat × Nat)}
  {a : Area} {b : Nat × Nat}

theorem isBlank_iff (words : 4 ∣ b.2) : isBlank mem b = true ↔ Blank mem b := by
  obtain ⟨k, size⟩ := words
  rw [isBlank, Blank, all_eq_true]
  constructor
  · intro all i less
    have whole := all (i / 4) (mem_range.mpr (by omega))
    rw [all_eq_true] at whole
    have member : mem (b.1 + i) ∈ window mem (b.1 + 4 * (i / 4)) 4 := by
      refine mem_map.mpr ⟨b.1 + i, mem_range'_1.mpr ⟨by omega, by omega⟩, rfl⟩
    simpa using whole _ member
  · intro all k member
    have less := mem_range.mp member
    rw [all_eq_true]
    intro y member
    obtain ⟨i, inside, rfl⟩ := mem_map.mp member
    obtain ⟨low, high⟩ := mem_range'_1.mp inside
    have := all (i - b.1) (by omega)
    rw [show b.1 + (i - b.1) = i by omega] at this
    simp [this]

theorem scanDev_eq : scanDev mem length stop blocks start =
    ((areas mem stop blocks start blank).find? fun a => length ≤ a.total).map Area.start := by
  induction blocks generalizing start blank with
  | nil =>
    rw [scanDev, areas]
    by_cases same : stop = start
    · simp [same]
    · by_cases long : length ≤ sub32 stop start <;> simp [same, long]
  | cons b rest ih =>
    obtain ⟨curr, size⟩ := b
    rw [scanDev, areas]
    by_cases before : curr < start
    · rw [if_pos before, if_pos before, ih]
    rw [if_neg before, if_neg before]
    by_cases isBlank' : isBlank mem (curr, size)
    · rw [if_pos isBlank', if_pos isBlank', ih]
    rw [if_neg isBlank', if_neg isBlank']
    by_cases same : curr = start
    · rw [if_neg (fun both => both.1 same), if_pos same, ih]
    rw [if_neg same]
    by_cases long : length ≤ sub32 ((curr + size) % 2 ^ 32) start
    · rw [if_pos ⟨same, long⟩, find?_cons_of_pos (by simpa using long)]
      rfl
    · rw [if_neg (fun both => long both.2), find?_cons_of_neg (by simpa using long), ih]

theorem Layout.fisFindFree_eq :
    l.fisFindFree mem length = ((l.areas mem).find? fun a => length ≤ a.total).map Area.start := by
  rw [Layout.fisFindFree, Layout.areas]
  induction l.devs.zipIdx with
  | nil => rfl
  | cons x rest ih =>
    rw [Layout.findFrom]
    by_cases reserved : l.reserved x.1.start = true
    · rw [if_pos reserved, ih, filter_cons_of_neg (by simp [reserved])]
    · rw [if_neg reserved, filter_cons_of_pos (by simp [reserved]), flatMap_cons, find?_append,
        @scanDev_eq mem length _ _ 0]
      cases found : (FisBlank.areas mem ((x.1.last + 1) % 2 ^ 32) x.1.blocks (l.areaStart x) 0).find?
          fun a => length ≤ a.total with
      | none => simpa using ih
      | some a => rfl

/-- What is known about a stretch: how far it is blank, and that a block which may not be used follows, if it is
longer. -/
structure Sound (mem : Mem) (d : Dev) (base : Nat) (a : Area) : Prop where
  low : base ≤ a.start
  high : a.start + a.total ≤ d.last + 1
  le : a.blank ≤ a.total
  clear : ∀ i < a.blank, ∀ b ∈ d.blocks, b.1 ≤ a.start + i → a.start + i < b.1 + b.2 → base ≤ b.1 ∧ isBlank mem b
  bad : a.blank < a.total → ∃ b ∈ d.blocks, b.1 ≤ a.start + a.blank ∧ a.start + a.blank < b.1 + b.2 ∧
    ¬(base ≤ b.1 ∧ isBlank mem b)

/-- The stretch so far, when the blocks before `p` have been looked at: only the first one may start inside a block.
-/
structure SoFar (mem : Mem) (d : Dev) (base p start blank : Nat) : Prop where
  low : base ≤ start
  ahead : p < start → start = base ∧ blank = 0 ∧ start ≤ d.last
  le : start ≤ p → start + blank ≤ p
  clear : ∀ i < blank, ∀ b ∈ d.blocks, b.1 ≤ start + i → start + i < b.1 + b.2 → base ≤ b.1 ∧ isBlank mem b
  gap : start + blank < p → blank = 0 ∧ ∃ b ∈ d.blocks, b.1 ≤ start ∧ start < b.1 + b.2 ∧ b.1 < base

variable {d : Dev} {base : Nat}

theorem SoFar.bad (soFar : SoFar mem d base p start blank) (gap : start + blank < p) :
    ∃ b ∈ d.blocks, b.1 ≤ start + blank ∧ start + blank < b.1 + b.2 ∧ ¬(base ≤ b.1 ∧ isBlank mem b) := by
  obtain ⟨rfl, b, member, low, high, before⟩ := soFar.gap gap
  exact ⟨b, member, low, high, fun both => by omega⟩

theorem areas_sound (tiles : Tiles Prod.fst Prod.snd p rest (d.last + 1)) (inside : ∀ b ∈ rest, b ∈ d.blocks)
    (below : d.start ≤ base) (soFar : SoFar mem d base p start blank) :
    ∀ a ∈ areas mem ((d.last + 1) % 2 ^ 32) rest start blank, Sound mem d base a := by
  have top := d.top
  have part := d.part
  have low := soFar.low
  induction rest generalizing p start blank with
  | nil =>
    obtain rfl : p = d.last + 1 := tiles
    have here : start ≤ d.last + 1 := by
      by_contra beyond
      have := (soFar.ahead (by omega)).2.2
      omega
    have le := soFar.le here
    intro a member
    rw [areas] at member
    split at member
    · cases member
    · obtain rfl := mem_singleton.mp member
      have total : sub32 ((d.last + 1) % 2 ^ 32) start = d.last + 1 - start := by
        rw [sub32]
        omega
      refine ⟨low, ?_, ?_, soFar.clear, fun less => ?_⟩
      · dsimp only
        omega
      · dsimp only
        omega
      · dsimp only at less ⊢
        exact soFar.bad (by omega)
  | cons b rest ih =>
    obtain ⟨curr, size⟩ := b
    obtain ⟨rfl, positive, later⟩ := tiles
    have inside' := fun b member => inside b (mem_cons_of_mem _ member)
    have isBlock := inside _ (mem_cons_self ..)
    obtain ⟨_, _, within⟩ := d.tiles.within isBlock
    have only' : ∀ i, ∀ c ∈ d.blocks, c.1 ≤ i → i < c.1 + c.2 → curr ≤ i → i < curr + size → c = (curr, size) :=
      fun i c member low high low' high' => by
        rcases d.tiles.apart member isBlock with same | before | behind
        · exact same
        · dsimp only at before
          omega
        · dsimp only at behind
          omega
    rw [areas]
    by_cases before : curr < start
    · rw [if_pos before]
      obtain ⟨isBase, none', inDev⟩ := soFar.ahead before
      refine ih later inside' ⟨low, fun _ => ⟨isBase, none', inDev⟩, fun _ => by omega, soFar.clear,
        fun less => ⟨none', (curr, size), isBlock, ?_, ?_, ?_⟩⟩ low
      · exact le_of_lt before
      · dsimp only at less ⊢
        omega
      · dsimp only
        omega
    rw [if_neg before]
    have le := soFar.le (by dsimp only; omega)
    by_cases isBlank' : isBlank mem (curr, size)
    · rw [if_pos isBlank']
      by_cases next : curr = start + blank
      · rw [if_pos next]
        refine ih later inside' ⟨low, fun less => ?_, fun _ => ?_, fun i less c member lowC highC => ?_, fun less =>
          ?_⟩ low
        · omega
        · omega
        · by_cases old : i < blank
          · exact soFar.clear i old c member lowC highC
          · rw [only' _ c member lowC highC (by omega) (by omega)]
            exact ⟨by dsimp only; omega, isBlank'⟩
        · omega
      · rw [if_neg next]
        refine ih later inside' ⟨low, fun less => ?_, fun _ => ?_, soFar.clear, fun _ => soFar.gap ?_⟩ low
        · omega
        · omega
        · dsimp only
          omega
    rw [if_neg isBlank']
    -- a new stretch starts behind the block
    have rest' : ∀ a ∈ areas mem ((d.last + 1) % 2 ^ 32) rest ((curr + size) % 2 ^ 32) 0, Sound mem d base a := by
      by_cases last : curr + size = 2 ^ 32
      · have ended : rest = [] := by
          cases rest with
          | nil => rfl
          | cons c rest =>
            obtain ⟨same, positive', later'⟩ := later
            have := later'.le
            omega
        subst ended
        have same : (d.last + 1) % 2 ^ 32 = (curr + size) % 2 ^ 32 := by omega
        rw [areas, if_pos same]
        simp
      · rw [mod_eq_of_lt (show curr + size < 2 ^ 32 by omega)]
        refine ih later inside' ⟨by omega, fun less => ?_, fun _ => le_rfl, by simp, fun less => ?_⟩ (by omega)
        · omega
        · omega
    by_cases same : curr = start
    · rw [if_pos same]
      exact rest'
    rw [if_neg same]
    intro a member
    rcases mem_cons.mp member with rfl | member
    · have total : sub32 ((curr + size) % 2 ^ 32) start = curr + size - start := by
        rw [sub32]
        omega
      refine ⟨low, ?_, ?_, soFar.clear, fun less => ?_⟩
      · dsimp only
        omega
      · dsimp only
        omega
      · dsimp only
        by_cases gap : start + blank < curr
        · exact soFar.bad gap
        · exact ⟨(curr, size), isBlock, by dsimp only; omega, by dsimp only; omega, fun both => isBlank' both.2⟩
    · exact rest' a member

theorem areas_after (tiles : Tiles Prod.fst Prod.snd p rest (d.last + 1)) (below : d.start ≤ start) (less : start < p) :
    ∃ a ∈ areas mem ((d.last + 1) % 2 ^ 32) rest start blank, a.start = start ∧ p ≤ a.start + a.total := by
  have top := d.top
  have part := d.part
  have le := tiles.le
  induction rest generalizing p blank with
  | nil =>
    obtain rfl : p = d.last + 1 := tiles
    rw [areas, if_neg (by omega)]
    refine ⟨_, mem_singleton_self _, rfl, ?_⟩
    dsimp only [sub32]
    omega
  | cons b rest ih =>
    obtain ⟨curr, size⟩ := b
    obtain ⟨rfl, positive, later⟩ := tiles
    have within := later.le
    rw [areas, if_neg (by omega)]
    split
    · obtain ⟨a, member, same, reaches⟩ :=
      @ih (if curr = start + blank then blank + size else blank) (curr + size) later
        (by omega) within
      exact ⟨a, member, same, by omega⟩
    · rw [if_neg (by omega)]
      refine ⟨_, mem_cons_self .., rfl, ?_⟩
      dsimp only [sub32]
      omega

theorem areas_run (tiles : Tiles Prod.fst Prod.snd p (run ++ rest) (d.last + 1)) (below : d.start ≤ start)
    (le : start ≤ p)
    (some' : start < p ∨ run ≠ []) (allBlank : ∀ b ∈ run, isBlank mem b) :
    ∃ a ∈ areas mem ((d.last + 1) % 2 ^ 32) (run ++ rest) start blank, p + (run.map Prod.snd).sum ≤ a.start + a.total ∧
      a.start = start := by
  induction run generalizing p blank with
  | nil =>
    obtain ⟨a, member, same, reaches⟩ := areas_after tiles below (some'.resolve_right (by simp))
    exact ⟨a, member, by simpa using reaches, same⟩
  | cons b run ih =>
    obtain ⟨curr, size⟩ := b
    obtain ⟨rfl, positive, later⟩ := tiles
    rw [cons_append, areas, if_neg (by omega), if_pos (allBlank _ (mem_cons_self ..))]
    obtain ⟨a, member, reaches, same⟩ := @ih (if curr = start + blank then blank + size else blank) (curr + size) later
      (by omega) (.inl (by omega)) fun b member => allBlank b (mem_cons_of_mem _ member)
    refine ⟨a, member, ?_, same⟩
    rw [map_cons, sum_cons]
    omega

theorem areas_pre (tiles : Tiles Prod.fst Prod.snd p pre q) (small : q ≤ d.last) (below : d.start ≤ start)
    (inside : d.start ≤ p) (le : start ≤ q) :
    ∃ start' blank', d.start ≤ start' ∧ start' ≤ q ∧ ∀ a ∈ areas mem ((d.last + 1) % 2 ^ 32) rest start' blank',
      a ∈ areas mem ((d.last + 1) % 2 ^ 32) (pre ++ rest) start blank := by
  have top := d.top
  induction pre generalizing p start blank with
  | nil => exact ⟨start, blank, below, le, fun a member => member⟩
  | cons b pre ih =>
    obtain ⟨curr, size⟩ := b
    obtain ⟨rfl, positive, later⟩ := tiles
    have before := later.le
    rw [cons_append, areas]
    split
    · exact ih later below (by omega) le
    split
    · exact ih later below (by omega) le
    · rw [mod_eq_of_lt (show curr + size < 2 ^ 32 by omega)]
      obtain ⟨start', blank', below', le', within⟩ :=
        @ih (curr + size) 0 (curr + size) later (by omega) (by omega) before
      split
      · exact ⟨start', blank', below', le', within⟩
      · exact ⟨start', blank', below', le', fun a member => mem_cons_of_mem _ (within a member)⟩

theorem areas_reach (below : d.start ≤ base) (infix' : run <:+: d.blocks) (some' : run ≠ [])
    (usable : ∀ b ∈ run, base ≤ b.1 ∧ isBlank mem b) :
    ∃ a ∈ areas mem ((d.last + 1) % 2 ^ 32) d.blocks base 0, (run.map Prod.snd).sum ≤ a.total := by
  obtain ⟨pre, post, split⟩ := infix'
  cases run with
  | nil => exact absurd rfl some'
  | cons b run =>
    have tiles := d.tiles
    rw [← split, append_assoc, cons_append] at tiles
    have parts := tiles_append.mp tiles
    have within := parts.2.2.le
    obtain ⟨start', blank', below', le, included⟩ := @areas_pre mem base 0 d.start b.1 (b :: run ++ post) pre d parts.1
      (by omega) below le_rfl (usable b (mem_cons_self ..)).1
    have tiles' : Tiles Prod.fst Prod.snd b.1 (b :: run ++ post) (d.last + 1) := ⟨rfl, parts.2.1, parts.2.2⟩
    obtain ⟨a, member, reaches, same⟩ :=
      @areas_run mem start' blank' b.1 post (b :: run) d tiles' below' le (.inr some')
      fun c member => (usable c member).2
    refine ⟨a, ?_, by omega⟩
    rw [← split, append_assoc]
    exact included a member

theorem Layout.areaStart_le (member : x ∈ l.devs.zipIdx) : x.1.start ≤ l.areaStart x ∧ l.areaStart x ≤ x.1.last := by
  have proper := x.1.proper
  rw [Layout.areaStart]
  split
  · next based => exact ⟨Nat.le_add_right .., l.within x member based⟩
  · exact ⟨le_rfl, proper⟩

theorem mem_blocksOf {info : List (Nat × Nat)} {at' : Nat}
    (member : b ∈ blocksOf at' info) : ∃ r ∈ info, b.2 = r.1 := by
  induction info generalizing at' with
  | nil => cases member
  | cons r info ih =>
    obtain ⟨size, n⟩ := r
    rcases mem_append.mp member with here | later
    · exact ⟨_, mem_cons_self .., (mem_run here).1⟩
    · obtain ⟨r, member, same⟩ := ih later
      exact ⟨r, mem_cons_of_mem _ member, same⟩

theorem Layout.isBlank_iff (member : x ∈ l.devs.zipIdx)
    (isBlock : b ∈ x.1.blocks) : isBlank mem b = true ↔ Blank mem b := by
  obtain ⟨r, isInfo, same⟩ := mem_blocksOf isBlock
  refine FisBlank.isBlank_iff ?_
  rw [same]
  exact l.words x.1 (fst_mem_of_mem_zipIdx member) r isInfo

theorem Layout.same {y : Dev × Nat} (left : x ∈ l.devs.zipIdx) (right : y ∈ l.devs.zipIdx)
    (inLeft : x.1.start ≤ p ∧ p ≤ x.1.last) (inRight : y.1.start ≤ p ∧ p ≤ y.1.last) : x = y := by
  obtain ⟨i, at'⟩ := List.getElem?_eq_some_iff.mp (List.mem_zipIdx_iff_getElem?.mp left)
  obtain ⟨j, at''⟩ := List.getElem?_eq_some_iff.mp (List.mem_zipIdx_iff_getElem?.mp right)
  have apart := pairwise_iff_getElem.mp l.apart
  rcases lt_trichotomy x.2 y.2 with less | index | less
  · have := apart _ _ i j less
    rw [at', at''] at this
    omega
  · refine Prod.ext ?_ index
    rw [← at', ← at'']
    simp only [index]
  · have := apart _ _ j i less
    rw [at', at''] at this
    omega

theorem Layout.areas_sound (member : a ∈ l.areas mem) :
    ∃ x ∈ l.devs.zipIdx, l.reserved x.1.start = false ∧ Sound mem x.1 (l.areaStart x) a := by
  obtain ⟨x, isDev, isArea⟩ := mem_flatMap.mp member
  obtain ⟨isDev, open'⟩ := mem_filter.mp isDev
  obtain ⟨below, within⟩ := l.areaStart_le isDev
  refine ⟨x, isDev, by simpa using open', FisBlank.areas_sound x.1.tiles (fun b isBlock => isBlock) below
    ⟨le_rfl, fun _ => ⟨rfl, rfl, within⟩, id, by simp, fun less => ?_⟩ a isArea⟩
  omega

/-- What `fis_find_free` finds is free and nothing is missed, if and only if the first stretch that is long enough
together with the block behind it is long enough without that block. -/
theorem fis_find_free (l : Layout) (mem : Mem) (length : Nat) : FindsFree l mem length (l.fisFindFree mem length) ↔
    ∀ a, ((l.areas mem).find? fun a => length ≤ a.total) = some a → length ≤ a.blank := by
  rw [Layout.fisFindFree_eq]
  constructor
  · intro finds a found
    rw [found] at finds
    obtain ⟨x, isDev, _, sound⟩ := l.areas_sound (mem_of_find?_eq_some found)
    have long : length ≤ a.total := by simpa using List.find?_some found
    by_contra short
    obtain ⟨b, isBlock, low, high, not'⟩ := sound.bad (by omega)
    obtain ⟨_, usable⟩ := finds.found a.start rfl (by omega)
    obtain ⟨_, base, blank⟩ := usable x isDev b isBlock (by omega) (by omega)
    exact not' ⟨base, (l.isBlank_iff isDev isBlock).mpr blank⟩
  · intro exact'
    refine ⟨fun addr found positive => ?_, fun missed x isDev run infix' some' usable => ?_⟩
    · obtain ⟨a, first, rfl⟩ := Option.map_eq_some_iff.mp found
      have long := exact' a first
      obtain ⟨x, isDev, open', sound⟩ := l.areas_sound (mem_of_find?_eq_some first)
      have le := sound.le
      have high := sound.high
      have low := sound.low
      have start := (l.areaStart_le isDev).1
      refine ⟨⟨x, isDev, low, by omega⟩, fun y isDev' b isBlock before after => ?_⟩
      obtain ⟨begins, size, last⟩ := y.1.tiles.within isBlock
      obtain rfl : x = y := @Layout.same l (max b.1 a.start) x y isDev isDev' (by omega) (by omega)
      obtain ⟨base, blank⟩ := sound.clear (max b.1 a.start - a.start) (by omega) b isBlock (by omega) (by omega)
      exact ⟨open', base, (l.isBlank_iff isDev isBlock).mp blank⟩
    · have none' := List.find?_eq_none.mp (Option.map_eq_none_iff.mp missed)
      have infix'' := infix'
      obtain ⟨_, _, split⟩ := infix''
      have isBlock : ∀ b ∈ run, b ∈ x.1.blocks := fun b member => infix'.subset member
      obtain ⟨b, member⟩ := exists_mem_of_ne_nil _ some'
      obtain ⟨a, isArea, reaches⟩ := areas_reach (l.areaStart_le isDev).1 infix' some' fun b member =>
        ⟨(usable b member).2.1, (l.isBlank_iff isDev (isBlock b member)).mpr (usable b member).2.2⟩
      have short := none' a (List.mem_flatMap.mpr ⟨x, List.mem_filter.mpr ⟨isDev, by simp [(usable b member).1]⟩,
        isArea⟩)
      have : ¬length ≤ a.total := by simpa using short
      omega

/-- A device with three blocks of 64 bytes, the second of which is in use. -/
def threeBlocks : Layout where
  devs := [⟨0x1000, 0x10BF, [(64, 3)], false, by decide, by decide, by decide, by decide, by decide⟩]
  reserved := fun _ => false
  flashBase := none
  reservedBase := 0
  apart := List.pairwise_singleton ..
  words := by decide
  within := by decide

/-- A search for two blocks comes to the first one, with the one in use behind it. -/
theorem found_in_use : ¬FindsFree threeBlocks (fun a => if a = 0x1040 then 0 else 0xFF) 128
    (threeBlocks.fisFindFree (fun a => if a = 0x1040 then 0 else 0xFF) 128) := by
  have found : threeBlocks.fisFindFree (fun a => if a = 0x1040 then 0 else 0xFF) 128 = some 0x1000 := by
    decide +kernel
  rw [found]
  intro finds
  obtain ⟨_, usable⟩ := finds.found 0x1000 rfl (by decide)
  have blank := (usable _ (mem_singleton_self _) (0x1040, 64) (by decide) (by decide) (by decide)).2.2
  have := blank 0 (by decide)
  cases this

end Ecos.Redboot.FisBlank
