import Mathlib
import Ecos.Memalloc.MvarGrow

/-! What the pools report about themselves: `get_status` of a variable block pool and of the joined pools,
  and `mallinfo`. -/

namespace Ecos

/-- What a sum leaves in a signed 32-bit variable. -/
def signed (z : Int) : Int := z.bmod (2 ^ 32)

/-- `Cyg_Mempool_Status`; a field that was never set is -1. -/
structure MempoolStatus where
  arenabase : Int := -1
  arenasize : Int := -1
  freeblocks : Int := -1
  totalallocated : Int := -1
  totalfree : Int := -1
  blocksize : Int := -1
  maxfree : Int := -1
  waiting : Int := -1
  origbase : Int := -1
  origsize : Int := -1
  maxoverhead : Int := -1
  deriving DecidableEq

namespace MempoolStat

def arenasize : Nat := 1 <<< 1

def freeblocks : Nat := 1 <<< 2

def totalallocated : Nat := 1 <<< 3

def totalfree : Nat := 1 <<< 4

def maxfree : Nat := 1 <<< 6

def origsize : Nat := 1 <<< 10

def maxoverhead : Nat := 1 <<< 11

end MempoolStat

namespace MempoolVariable

/-- The walk of `get_status` over the free list, to the head with its size zero. Without fuel it has not ended. -/
def largest (mem : Memory) : Nat → Nat → Nat → Option Nat
  | 0, _, _ => none
  | fuel + 1, dq, mf =>
    let dq := mem.next dq
    if mem.size dq = 0 then some mf
    else largest mem fuel dq (if mem.size dq > mf then mem.size dq else mf)

def getStatus (p : MempoolVariable) (flags : Nat) (status : MempoolStatus) : Option MempoolStatus :=
  let status := { status with arenabase := p.obase }
  let status := if flags &&& MempoolStat.arenasize ≠ 0 then { status with arenasize := p.top - p.bottom } else status
  let status := if flags &&& MempoolStat.totalallocated ≠ 0 then
    { status with totalallocated := p.top - p.bottom - p.freemem } else status
  let status := { status with totalfree := p.freemem }
  let finish (status : MempoolStatus) : MempoolStatus := { status with origbase := p.obase, origsize := p.osize }
  if flags &&& MempoolStat.maxfree ≠ 0 then
    (largest p.mem p.osize p.head 0).map fun mf => finish { status with maxfree := signed (mf - sizeofMemdq) }
  else some (finish status)

end MempoolVariable

namespace MempoolJoined
variable {T : Type} (getStatus : T → Nat → MempoolStatus → Option MempoolStatus)

/-- A total over the pools: a pool without a positive value makes it -1 for good. -/
def total (sum value : Int) : Int :=
  if sum ≥ 0 then if value > 0 then signed (sum + value) else -1 else sum

/-- A maximum over the pools: a pool with a negative value makes it -1 for good. -/
def greatest (most value : Int) : Int :=
  if most ≥ 0 then if value < 0 then -1 else if value > most then value else most else most

/-- One of the statistics of a pool, asked for if the flags have its bit and no pool before has spoilt it. -/
def stat (combine : Int → Int → Int) (flags bit : Nat) (get : MempoolStatus → Int)
    (set : MempoolStatus → Int → MempoolStatus) (pool : T) (s : MempoolStatus × MempoolStatus) :
    Option (MempoolStatus × MempoolStatus) :=
  let (status, tmpstat) := s
  if get status ≥ 0 ∧ flags &&& bit ≠ 0 then
    (getStatus pool bit tmpstat).map fun tmpstat => (set status (combine (get status) (get tmpstat)), tmpstat)
  else some s

def arenasizeStat (flags : Nat) :=
  stat getStatus total flags MempoolStat.arenasize (·.arenasize) fun s v => { s with arenasize := v }

def freeblocksStat (flags : Nat) :=
  stat getStatus total flags MempoolStat.freeblocks (·.freeblocks) fun s v => { s with freeblocks := v }

def totalallocatedStat (flags : Nat) :=
  stat getStatus total flags MempoolStat.totalallocated (·.totalallocated) fun s v => { s with totalallocated := v }

def totalfreeStat (flags : Nat) :=
  stat getStatus total flags MempoolStat.totalfree (·.totalfree) fun s v => { s with totalfree := v }

def maxfreeStat (flags : Nat) :=
  stat getStatus greatest flags MempoolStat.maxfree (·.maxfree) fun s v => { s with maxfree := v }

def origsizeStat (flags : Nat) :=
  stat getStatus total flags MempoolStat.origsize (·.origsize) fun s v => { s with origsize := v }

def maxoverheadStat (flags : Nat) :=
  stat getStatus greatest flags MempoolStat.maxoverhead (·.maxoverhead) fun s v => { s with maxoverhead := v }

/-- The body of the loop over the pools. -/
def poolStatus (flags : Nat) (s : MempoolStatus × MempoolStatus) (pool : T) : Option
    (MempoolStatus × MempoolStatus) := do
  let s ← arenasizeStat getStatus flags pool s
  let s ← freeblocksStat getStatus flags pool s
  let s ← totalallocatedStat getStatus flags pool s
  let s ← totalfreeStat getStatus flags pool s
  let s ← maxfreeStat getStatus flags pool s
  let s ← origsizeStat getStatus flags pool s
  maxoverheadStat getStatus flags pool s

/-- `Cyg_Mempool_Joined<T>::get_status`. -/
def joinedStatus (pools : List T) (flags : Nat) (status : MempoolStatus) : Option MempoolStatus :=
  let status := { status with
    arenasize := 0, freeblocks := 0, totalallocated := 0, totalfree := 0, maxfree := 0, origsize := 0 }
  (pools.foldlM (poolStatus getStatus flags) (status, {})).map Prod.fst

end MempoolJoined

structure Mallinfo where
  arena : Int := 0
  ordblks : Int := 0
  uordblks : Int := 0
  fordblks : Int := 0
  maxfree : Int := 0
  deriving DecidableEq

/-- What `mallinfo` shows of a value: nothing unless it is positive. -/
def Mallinfo.shown (value : Int) : Int := if value > 0 then value else 0

def mallinfo (getStatus : Nat → MempoolStatus → Option MempoolStatus) : Option Mallinfo := do
  let stat ← getStatus (MempoolStat.arenasize ||| MempoolStat.freeblocks ||| MempoolStat.totalallocated |||
    MempoolStat.totalfree ||| MempoolStat.maxfree) {}
  return {
    arena := Mallinfo.shown stat.arenasize
    ordblks := Mallinfo.shown stat.freeblocks
    uordblks := Mallinfo.shown stat.totalallocated
    fordblks := Mallinfo.shown stat.totalfree
    maxfree := Mallinfo.shown stat.maxfree }

open List MempoolStat Heap

section Signed
variable {z : Int}

theorem signed_of_small (low : -2 ^ 31 ≤ z) (high : z < 2 ^ 31) : signed z = z := by
  exact Int.bmod_eq_of_le_mul_two (by omega) (by omega)

theorem signed_of_large (low : 2 ^ 31 ≤ z) (high : z < 2 ^ 32) : signed z = z - 2 ^ 32 := by
  have shifted : (z - 2 ^ 32).bmod (2 ^ 32) = z - 2 ^ 32 := Int.bmod_eq_of_le_mul_two (by omega) (by omega)
  exact (Int.sub_bmod_right z (2 ^ 32)).symm.trans shifted

end Signed

namespace MempoolJoined

section Totals
variable {s : Int} {values : List Int}

theorem foldl_total_neg (spoilt : s < 0) : values.foldl total s = s := by
  induction values with
  | nil => rfl
  | cons v values ih => rw [foldl_cons, total, if_neg (by omega), ih]

theorem foldl_greatest_neg (spoilt : s < 0) : values.foldl greatest s = s := by
  induction values with
  | nil => rfl
  | cons v values ih => rw [foldl_cons, greatest, if_neg (by omega), ih]

theorem foldl_total_iff (start : 0 ≤ s) (below : s < 2 ^ 31) (bounds : ∀ v ∈ values, 0 ≤ v ∧ v < 2 ^ 31) :
    values.foldl total s = s + values.sum ↔ (∀ v ∈ values, 0 < v) ∧ s + values.sum < 2 ^ 31 := by
  induction values generalizing s with
  | nil => simpa using below
  | cons v values ih =>
    obtain ⟨low, high⟩ := bounds v (mem_cons_self ..)
    have rest : ∀ v ∈ values, 0 ≤ v ∧ v < 2 ^ 31 := fun v member => bounds v (mem_cons_of_mem _ member)
    have later : 0 ≤ values.sum := sum_nonneg fun v member => (rest v member).1
    rw [foldl_cons, total, if_pos start, sum_cons, forall_mem_cons, ← Int.add_assoc]
    by_cases positive : v > 0
    · rw [if_pos positive]
      by_cases fits : s + v < 2 ^ 31
      · rw [signed_of_small (by omega) fits, ih (by omega) fits rest]
        exact ⟨fun ⟨all, sum⟩ => ⟨⟨positive, all⟩, sum⟩, fun ⟨all, sum⟩ => ⟨all.2, sum⟩⟩
      · rw [signed_of_large (by omega) (by omega), foldl_total_neg (by omega)]
        exact iff_of_false (by omega) fun both => by omega
    · rw [if_neg positive, foldl_total_neg (by omega)]
      exact iff_of_false (by omega) fun both => absurd both.1.1 positive

theorem foldl_total_of_zero (start : 0 ≤ s) (below : s < 2 ^ 31) (bounds : ∀ v ∈ values, 0 ≤ v ∧ v < 2 ^ 31)
    (zero : 0 ∈ values) : values.foldl total s < 0 := by
  by_contra nonneg
  induction values generalizing s with
  | nil => simp at zero
  | cons v values ih =>
    obtain ⟨low, high⟩ := bounds v (mem_cons_self ..)
    rw [foldl_cons] at nonneg
    by_cases spoilt : total s v < 0
    · rw [foldl_total_neg spoilt] at nonneg
      exact nonneg spoilt
    · have value : total s v = s + v ∧ 0 < v ∧ s + v < 2 ^ 31 := by
        revert spoilt
        rw [total, if_pos start]
        split
        · next positive =>
          by_cases fits : s + v < 2 ^ 31
          · rw [signed_of_small (by omega) fits]
            exact fun _ => ⟨rfl, positive, fits⟩
          · rw [signed_of_large (by omega) (by omega)]
            exact fun spoilt => absurd (by omega) spoilt
        · exact fun spoilt => absurd (by omega) spoilt
      refine ih (s := total s v) (by omega) (by omega) (fun w member => bounds w (mem_cons_of_mem _ member)) ?_ nonneg
      exact (mem_cons.mp zero).resolve_left (by omega)

theorem foldl_greatest_of_nonneg (start : 0 ≤ s) (bounds : ∀ v ∈ values, 0 ≤ v) :
    values.foldl greatest s = values.foldl max s := by
  induction values generalizing s with
  | nil => rfl
  | cons v values ih =>
    have low := bounds v (mem_cons_self ..)
    have step : greatest s v = max s v := by
      rw [greatest, if_pos start, if_neg (by omega)]
      split <;> omega
    rw [foldl_cons, foldl_cons, step]
    exact ih (by omega) fun v member => bounds v (mem_cons_of_mem _ member)

theorem foldl_greatest_of_neg (start : 0 ≤ s) (spoils : ∃ v ∈ values, v < 0) : values.foldl greatest s = -1 := by
  induction values generalizing s with
  | nil => simp at spoils
  | cons v values ih =>
    rw [foldl_cons, greatest, if_pos start]
    by_cases negative : v < 0
    · rw [if_pos negative, foldl_greatest_neg (by omega)]
    · rw [if_neg negative]
      obtain ⟨w, member, below⟩ := spoils
      have later : w ∈ values := (mem_cons.mp member).resolve_left (by rintro rfl; exact negative below)
      split
      · exact ih (by omega) ⟨w, later, below⟩
      · exact ih start ⟨w, later, below⟩

theorem foldl_max_spec : (∀ v ∈ values, v ≤ values.foldl max s) ∧ s ≤ values.foldl max s ∧
    (values.foldl max s = s ∨ values.foldl max s ∈ values) := by
  induction values generalizing s with
  | nil => simp
  | cons v values ih =>
    obtain ⟨all, start, value⟩ := ih (s := max s v)
    rw [foldl_cons]
    refine ⟨fun w member => ?_, by omega, ?_⟩
    · rcases mem_cons.mp member with rfl | later
      · omega
      · exact all w later
    · rcases value with same | inside
      · by_cases larger : s < v
        · exact .inr (mem_cons.mpr (.inl (by omega)))
        · exact .inl (by omega)
      · exact .inr (mem_cons_of_mem _ inside)

theorem foldl_greatest_iff (some : values ≠ []) (apart : ∀ v ∈ values, v < -1 ∨ 0 < v) :
    IsGreatest {v | v ∈ values} (values.foldl greatest 0) ↔ ∀ v ∈ values, 0 < v := by
  by_cases spoils : ∃ v ∈ values, v < 0
  · rw [foldl_greatest_of_neg le_rfl spoils]
    refine iff_of_false ?_ ?_
    · rintro ⟨member, _⟩
      rcases apart _ member with below | above <;> omega
    · intro all
      obtain ⟨v, member, below⟩ := spoils
      have above := all v member
      omega
  · have positive : ∀ v ∈ values, 0 < v := fun v member =>
      (apart v member).resolve_left fun below => spoils ⟨v, member, by omega⟩
    rw [foldl_greatest_of_nonneg le_rfl fun v member => (positive v member).le]
    refine iff_of_true ?_ positive
    obtain ⟨all, _, value⟩ := @foldl_max_spec 0 values
    refine ⟨value.resolve_left fun zero => ?_, all⟩
    obtain ⟨v, rest, rfl⟩ := exists_cons_of_ne_nil some
    have first := positive v (mem_cons_self ..)
    have below := all v (mem_cons_self ..)
    omega

end Totals

section Loop
variable {T : Type} {getStatus : T → Nat → MempoolStatus →
  Option MempoolStatus} {flags : Nat} {pool : T} {pools : List T}
  {status tmpstat t : MempoolStatus}

/-- What a pool answers when it is asked for one of the statistics, whatever the fields held before. -/
structure Answers (getStatus : T → Nat → MempoolStatus → Option MempoolStatus) (pool : T) (own : MempoolStatus) :
    Prop where
  ends : ∀ bit tmpstat, (getStatus pool bit tmpstat).isSome
  arenasize : ∀ tmpstat t, getStatus pool MempoolStat.arenasize tmpstat = some t → t.arenasize = own.arenasize
  totalallocated : ∀ tmpstat t, getStatus pool MempoolStat.totalallocated tmpstat = some t →
    t.totalallocated = own.totalallocated
  totalfree : ∀ tmpstat t, getStatus pool MempoolStat.totalfree tmpstat = some t → t.totalfree = own.totalfree
  maxfree : ∀ tmpstat t, getStatus pool MempoolStat.maxfree tmpstat = some t → t.maxfree = own.maxfree

/-- The four statistics that a variable block pool knows are asked for. -/
structure Asked (flags : Nat) : Prop where
  arenasize : flags &&& MempoolStat.arenasize ≠ 0
  totalallocated : flags &&& MempoolStat.totalallocated ≠ 0
  totalfree : flags &&& MempoolStat.totalfree ≠ 0
  maxfree : flags &&& MempoolStat.maxfree ≠ 0

section Stat
variable {combine : Int → Int → Int} {bit : Nat} {get : MempoolStatus → Int} {set : MempoolStatus → Int → MempoolStatus}
  (same : set status (get status) = status) (ends : ∀ tmpstat, (getStatus pool bit tmpstat).isSome)
include same ends

theorem stat_ends : ∃ v tmpstat', stat getStatus combine flags bit get set pool (status, tmpstat) =
    some (set status v, tmpstat') := by
  unfold stat
  simp only
  split
  · obtain ⟨t, answer⟩ := Option.isSome_iff_exists.mp (ends tmpstat)
    exact ⟨_, t, by rw [answer]; rfl⟩
  · exact ⟨get status, tmpstat, by rw [same]⟩

theorem stat_value {v : Int} (asked : flags &&& bit ≠ 0)
    (answers : ∀ tmpstat t, getStatus pool bit tmpstat = some t → get t = v)
    (spoilt : get status < 0 → combine (get status) v = get status) :
    ∃ tmpstat', stat getStatus combine flags bit get set pool (status, tmpstat) =
      some (set status (combine (get status) v), tmpstat') := by
  unfold stat
  simp only
  split
  · obtain ⟨t, answer⟩ := Option.isSome_iff_exists.mp (ends tmpstat)
    refine ⟨t, ?_⟩
    rw [answer, Option.map_some, answers _ _ answer]
  · next negative =>
    refine ⟨tmpstat, ?_⟩
    rw [spoilt (by simpa [asked] using negative), same]

end Stat

theorem total_spoilt (s v : Int) (negative : s < 0) : total s v = s := if_neg (by omega)

theorem greatest_spoilt (s v : Int) (negative : s < 0) : greatest s v = s := if_neg (by omega)

section Body
variable {own : MempoolStatus} (answers : Answers getStatus pool own)

/-- The four statistics that are asked for. -/
def MempoolStatus.asked (s : MempoolStatus) : Int × Int × Int × Int :=
  (s.arenasize, s.totalallocated, s.totalfree, s.maxfree)

include answers

theorem freeblocksStat_spec (flags : Nat) (status tmpstat : MempoolStatus) : ∃ s t,
    freeblocksStat getStatus flags pool (status, tmpstat) = some (s, t) ∧
    MempoolStatus.asked s = MempoolStatus.asked status := by
  obtain ⟨v, t, result⟩ : ∃ v t, freeblocksStat getStatus flags pool (status, tmpstat) =
      some ({ status with freeblocks := v }, t) := stat_ends rfl (answers.ends _)
  exact ⟨_, t, result, rfl⟩

theorem origsizeStat_spec (flags : Nat) (status tmpstat : MempoolStatus) : ∃ s t,
    origsizeStat getStatus flags pool (status, tmpstat) = some (s, t) ∧
    MempoolStatus.asked s = MempoolStatus.asked status := by
  obtain ⟨v, t, result⟩ : ∃ v t, origsizeStat getStatus flags pool (status, tmpstat) =
      some ({ status with origsize := v }, t) := stat_ends rfl (answers.ends _)
  exact ⟨_, t, result, rfl⟩

theorem maxoverheadStat_spec (flags : Nat) (status tmpstat : MempoolStatus) : ∃ s t,
    maxoverheadStat getStatus flags pool (status, tmpstat) = some (s, t) ∧
    MempoolStatus.asked s = MempoolStatus.asked status := by
  obtain ⟨v, t, result⟩ : ∃ v t, maxoverheadStat getStatus flags pool (status, tmpstat) =
      some ({ status with maxoverhead := v }, t) := stat_ends rfl (answers.ends _)
  exact ⟨_, t, result, rfl⟩

variable (asked : Asked flags)
include asked

theorem arenasizeStat_spec (status tmpstat : MempoolStatus) : ∃ s t,
    arenasizeStat getStatus flags pool (status, tmpstat) = some (s, t) ∧
    MempoolStatus.asked s = (total status.arenasize own.arenasize, (MempoolStatus.asked status).2) := by
  obtain ⟨t, result⟩ : ∃ t, arenasizeStat getStatus flags pool (status, tmpstat) =
      some ({ status with arenasize := total status.arenasize own.arenasize }, t) :=
    stat_value rfl (answers.ends _) asked.arenasize answers.arenasize (total_spoilt _ _)
  exact ⟨_, t, result, rfl⟩

theorem totalallocatedStat_spec (status tmpstat : MempoolStatus) : ∃ s t,
    totalallocatedStat getStatus flags pool (status, tmpstat) = some (s, t) ∧
    MempoolStatus.asked s =
      (status.arenasize, total status.totalallocated own.totalallocated, status.totalfree, status.maxfree) := by
  obtain ⟨t, result⟩ : ∃ t, totalallocatedStat getStatus flags pool (status, tmpstat) =
      some ({ status with totalallocated := total status.totalallocated own.totalallocated }, t) :=
    stat_value rfl (answers.ends _) asked.totalallocated answers.totalallocated (total_spoilt _ _)
  exact ⟨_, t, result, rfl⟩

theorem totalfreeStat_spec (status tmpstat : MempoolStatus) : ∃ s t,
    totalfreeStat getStatus flags pool (status, tmpstat) = some (s, t) ∧
    MempoolStatus.asked s =
      (status.arenasize, status.totalallocated, total status.totalfree own.totalfree, status.maxfree) := by
  obtain ⟨t, result⟩ : ∃ t, totalfreeStat getStatus flags pool (status, tmpstat) =
      some ({ status with totalfree := total status.totalfree own.totalfree }, t) :=
    stat_value rfl (answers.ends _) asked.totalfree answers.totalfree (total_spoilt _ _)
  exact ⟨_, t, result, rfl⟩

theorem maxfreeStat_spec (status tmpstat : MempoolStatus) : ∃ s t,
    maxfreeStat getStatus flags pool (status, tmpstat) = some (s, t) ∧
    MempoolStatus.asked s =
      (status.arenasize, status.totalallocated, status.totalfree, greatest status.maxfree own.maxfree) := by
  obtain ⟨t, result⟩ : ∃ t, maxfreeStat getStatus flags pool (status, tmpstat) =
      some ({ status with maxfree := greatest status.maxfree own.maxfree }, t) :=
    stat_value rfl (answers.ends _) asked.maxfree answers.maxfree (greatest_spoilt _ _)
  exact ⟨_, t, result, rfl⟩

theorem poolStatus_spec (status tmpstat : MempoolStatus) : ∃ t tmpstat',
    poolStatus getStatus flags (status, tmpstat) pool = some (t, tmpstat') ∧
      t.arenasize = total status.arenasize own.arenasize ∧
      t.totalallocated = total status.totalallocated own.totalallocated ∧
      t.totalfree = total status.totalfree own.totalfree ∧ t.maxfree = greatest status.maxfree own.maxfree := by
  obtain ⟨s₁, t₁, first, value₁⟩ := arenasizeStat_spec answers asked status tmpstat
  obtain ⟨s₂, t₂, second, value₂⟩ := freeblocksStat_spec answers flags s₁ t₁
  obtain ⟨s₃, t₃, third, value₃⟩ := totalallocatedStat_spec answers asked s₂ t₂
  obtain ⟨s₄, t₄, fourth, value₄⟩ := totalfreeStat_spec answers asked s₃ t₃
  obtain ⟨s₅, t₅, fifth, value₅⟩ := maxfreeStat_spec answers asked s₄ t₄
  obtain ⟨s₆, t₆, sixth, value₆⟩ := origsizeStat_spec answers flags s₅ t₅
  obtain ⟨s₇, t₇, seventh, value₇⟩ := maxoverheadStat_spec answers flags s₆ t₆
  have body : poolStatus getStatus flags (status, tmpstat) pool = some (s₇, t₇) := by
    simp only [poolStatus, Option.bind_eq_bind, first, second, third, fourth, fifth, sixth, seventh, Option.bind_some]
  simp only [MempoolStatus.asked, Prod.mk.injEq] at value₁ value₂ value₃ value₄ value₅ value₆ value₇
  refine ⟨s₇, t₇, body, ?_, ?_, ?_, ?_⟩ <;> simp only [value₁, value₂, value₃, value₄, value₅, value₆, value₇]

end Body

theorem foldlM_poolStatus {owns : List MempoolStatus} (status tmpstat : MempoolStatus) (asked : Asked flags)
    (answers : List.Forall₂ (Answers getStatus) pools owns) :
    ∃ t tmpstat', pools.foldlM (poolStatus getStatus flags) (status, tmpstat) = some (t, tmpstat') ∧
      t.arenasize = (owns.map (·.arenasize)).foldl total status.arenasize ∧
      t.totalallocated = (owns.map (·.totalallocated)).foldl total status.totalallocated ∧
      t.totalfree = (owns.map (·.totalfree)).foldl total status.totalfree ∧
      t.maxfree = (owns.map (·.maxfree)).foldl greatest status.maxfree := by
  induction answers generalizing status tmpstat with
  | nil => exact ⟨status, tmpstat, rfl, rfl, rfl, rfl, rfl⟩
  | cons answers _ ih =>
    obtain ⟨t, tmpstat', body, arenasize, totalallocated, totalfree, maxfree⟩ :=
      poolStatus_spec answers asked status tmpstat
    obtain ⟨t', tmpstat'', loop, rest⟩ := ih t tmpstat'
    refine ⟨t', tmpstat'', ?_, ?_⟩
    · rw [foldlM_cons, body]
      exact loop
    · simpa only [map_cons, foldl_cons, arenasize, totalallocated, totalfree, maxfree] using rest

theorem joinedStatus_spec {owns : List MempoolStatus} (status : MempoolStatus) (asked : Asked flags)
    (answers : List.Forall₂ (Answers getStatus) pools owns) :
    ∃ t, joinedStatus getStatus pools flags status = some t ∧
      t.arenasize = (owns.map (·.arenasize)).foldl total 0 ∧
      t.totalallocated = (owns.map (·.totalallocated)).foldl total 0 ∧
      t.totalfree = (owns.map (·.totalfree)).foldl total 0 ∧ t.maxfree = (owns.map (·.maxfree)).foldl greatest 0 := by
  obtain ⟨t, _, loop, rest⟩ := foldlM_poolStatus { status with
    arenasize := 0, freeblocks := 0, totalallocated := 0, totalfree := 0, maxfree := 0, origsize := 0 } {} asked answers
  exact ⟨t, by rw [joinedStatus, loop]; rfl, rest⟩

end Loop

end MempoolJoined

section Own
variable {g : Geometry} {m : Memory} {l r pieces : List Piece} {p : MempoolVariable} {h : Heap} {heaps : List Heap}
  {flags mf : Nat} {status t : MempoolStatus}

theorem Holds.largest {fuel : Nat} (holds : Holds g m (l ++ r)) (enough : (freeAddrs r).length < fuel) :
    MempoolVariable.largest m fuel (freeBefore g l) mf =
      some (((r.filter (·.use = .free)).map Piece.size).foldl max mf) := by
  refine holds.walk enough (P := fun fuel dq r => ∀ mf, MempoolVariable.largest m fuel dq mf =
    some (((r.filter (·.use = .free)).map Piece.size).foldl max mf)) (fun fuel dq last mf => ?_)
    (fun fuel dq x r busy rest mf => ?_) (fun fuel dq x r free small leads size nonzero rest mf => ?_) mf
  · simp [MempoolVariable.largest, last]
  · rw [rest, filter_cons_of_neg (by simp [busy])]
  · have larger : (if x.size > mf then x.size else mf) = max mf x.size := by
      split <;> omega
    simp only [MempoolVariable.largest, leads, size, if_neg nonzero, larger]
    rw [rest, filter_cons_of_pos (by simp [free]), map_cons, foldl_cons]

/-- What a pool in good order reports, in numbers that a signed variable holds. -/
structure Reports (p : MempoolVariable) (own : MempoolStatus) : Prop where
  arenasize : own.arenasize = p.top - p.bottom
  totalallocated : own.totalallocated = p.top - p.bottom - p.freemem
  totalfree : own.totalfree = p.freemem
  arena : 0 < (p.top : Int) - p.bottom ∧ (p.top : Int) - p.bottom < 2 ^ 31
  free : 0 ≤ p.freemem ∧ p.freemem ≤ p.top - p.bottom
  maxfree : if p.freemem = 0 then own.maxfree = -sizeofMemdq else 0 < own.maxfree

theorem freeBytes_le {a b : Nat} (tiles : Tiles Piece.addr Piece.size a pieces b) : a + freeBytes pieces ≤ b := by
  induction pieces generalizing a with
  | nil => exact le_of_eq tiles
  | cons x pieces ih =>
    have rest := ih tiles.2.2
    rw [freeBytes_cons]
    split <;> omega

theorem foldl_max_le {sizes : List Nat} {bound : Nat} (start : mf ≤ bound) (below : ∀ n ∈ sizes, n ≤ bound) :
    mf ≤ sizes.foldl max mf ∧ sizes.foldl max mf ≤ bound ∧ ∀ n ∈ sizes, n ≤ sizes.foldl max mf := by
  induction sizes generalizing mf with
  | nil => simp [start]
  | cons n sizes ih =>
    have here := below n (mem_cons_self ..)
    have larger : max mf n ≤ bound := by omega
    obtain ⟨above, within, all⟩ := ih larger fun k member => below k (mem_cons_of_mem _ member)
    rw [foldl_cons]
    refine ⟨by omega, within, fun k member => ?_⟩
    rcases mem_cons.mp member with rfl | later
    · omega
    · exact all k later

theorem Geometry.sixteen_le (g : Geometry) : 16 ≤ g.alignment := by
  obtain ⟨k, _, power⟩ := g.power
  have header := g.header
  have big : 4 ≤ k := by
    by_contra less
    have divides : g.alignment ∣ 2 ^ 3 := power ▸ Nat.pow_dvd_pow 2 (by omega)
    have le := Nat.le_of_dvd (Nat.two_pow_pos 3) divides
    simp only [sizeofMemdq] at header
    omega
  have least : 2 ^ 4 ≤ 2 ^ k := Nat.pow_le_pow_right (by decide) big
  omega

/-- `get_status` of a pool in good order. -/
theorem Heap.Inv.getStatus (inv : Heap.Inv g h pieces) (ordered : g.bottom < g.top) :
    ∃ own, Reports h.pool own ∧ ∀ flags status, ∃ t, h.pool.getStatus flags status = some t ∧
      (flags &&& MempoolStat.arenasize ≠ 0 → t.arenasize = own.arenasize) ∧
      (flags &&& MempoolStat.totalallocated ≠ 0 → t.totalallocated = own.totalallocated) ∧
      t.totalfree = own.totalfree ∧ (flags &&& MempoolStat.maxfree ≠ 0 → t.maxfree = own.maxfree) := by
  have small := g.small
  have within := freeBytes_le inv.holds.tiles
  have walk : MempoolVariable.largest _ _ _ 0 = _ := Holds.largest (l := []) inv.holds (inv.holds.enough inv.here)
  rw [freeBefore_nil, ← inv.here.head] at walk
  generalize sizes : (pieces.filter (·.use = .free)).map Piece.size = free at walk
  have inside : ∀ n ∈ free, g.alignment ≤ n ∧ n < 2 ^ 31 := by
    rw [← sizes]
    intro n member
    obtain ⟨x, inX, rfl⟩ := mem_map.mp member
    exact ⟨alignment_le inv.holds.tiles inv.holds.grid (mem_of_mem_filter inX),
      inv.holds.small (mem_of_mem_filter inX)⟩
  have limit : ∀ n ∈ free, n ≤ 2 ^ 31 - 1 := fun n member => Nat.le_pred_of_lt (inside n member).2
  obtain ⟨_, most, all⟩ := foldl_max_le (Nat.zero_le _) limit
  have bytes : freeBytes pieces = free.sum := by
    rw [← sizes]
    rfl
  have large := g.sixteen_le
  have difference : signed ((free.foldl max 0 : Nat) - (sizeofMemdq : Int)) =
    (free.foldl max 0 : Nat) - (sizeofMemdq : Int) := by
    refine signed_of_small ?_ ?_ <;> simp only [sizeofMemdq] <;> omega
  let own : MempoolStatus :=
    { arenasize := h.pool.top - h.pool.bottom
      totalallocated := h.pool.top - h.pool.bottom - h.pool.freemem
      totalfree := h.pool.freemem
      maxfree := (free.foldl max 0 : Nat) - (sizeofMemdq : Int) }
  refine ⟨own, ?_, ?_⟩
  · refine ⟨rfl, rfl, rfl, ?_, ?_, ?_⟩
    · rw [inv.here.top, inv.here.bottom]
      omega
    · rw [inv.here.top, inv.here.bottom, inv.freemem]
      omega
    · rw [inv.freemem, bytes]
      cases free with
      | nil => simp [own]
      | cons n free =>
        have first := inside n (mem_cons_self ..)
        have above := all n (mem_cons_self ..)
        rw [if_neg ?_]
        · simp only [own, sizeofMemdq]
          omega
        · rw [sum_cons]
          omega
  · intro flags status
    simp only [MempoolVariable.getStatus, walk, Option.map_some, difference]
    split
    · refine ⟨_, rfl, ?_, ?_, rfl, fun _ => rfl⟩
      · intro asked
        split <;> rfl
      · intro asked
        simp only [if_pos asked]
        rfl
    · next other =>
      refine ⟨_, rfl, ?_, ?_, rfl, fun asked => absurd asked other⟩
      · intro asked
        split <;> rfl
      · intro asked
        simp only [if_pos asked]
        rfl

end Own

namespace MempoolJoined
variable {heaps : List Heap} {h : Heap} {flags : Nat} {status : MempoolStatus}

/-- A state that some sequence of calls leaves a pool of some arena in. -/
def Reached (h : Heap) : Prop := ∃ m head base size align, Accepts head base size align ∧
  (Heap.runs m head base size align Heap.Plain).Reach h

/-- The joined statistics are the sums and the maximum of what the pools report themselves. -/
structure StatusRight (own : List MempoolStatus) (t : MempoolStatus) : Prop where
  arenasize : t.arenasize = (own.map (·.arenasize)).sum
  totalallocated : t.totalallocated = (own.map (·.totalallocated)).sum
  totalfree : t.totalfree = (own.map (·.totalfree)).sum
  maxfree : IsGreatest {v | v ∈ own.map (·.maxfree)} t.maxfree

theorem Reached.answers (reached : Reached h) (asked : Asked flags) : ∃ own, h.pool.getStatus flags {} = some own ∧
    Reports h.pool own ∧ Answers MempoolVariable.getStatus h.pool own := by
  obtain ⟨_, _, _, _, _, accepts, reach⟩ := reached
  obtain ⟨pieces, inv⟩ := reach_plain accepts reach
  obtain ⟨own, reports, answers⟩ := inv.getStatus accepts.ordered
  obtain ⟨t, result, arenasize, totalallocated, totalfree, maxfree⟩ := answers flags {}
  have arenasize := arenasize asked.arenasize
  have totalallocated := totalallocated asked.totalallocated
  have maxfree := maxfree asked.maxfree
  refine ⟨t, result, ?_, ?_⟩
  · refine ⟨arenasize.trans reports.arenasize, totalallocated.trans reports.totalallocated,
      totalfree.trans reports.totalfree, reports.arena, reports.free, ?_⟩
    rw [maxfree]
    exact reports.maxfree
  · refine ⟨fun bit tmpstat => ?_, fun tmpstat t' answer => ?_, fun tmpstat t' answer => ?_, fun tmpstat t' answer =>
    ?_,
      fun tmpstat t' answer => ?_⟩
    · obtain ⟨_, answer, _⟩ := answers bit tmpstat
      exact Option.isSome_of_eq_some answer
    · obtain ⟨_, answer', value, _⟩ := answers MempoolStat.arenasize tmpstat
      obtain rfl := Option.some.inj (answer.symm.trans answer')
      exact (value (by decide)).trans arenasize.symm
    · obtain ⟨_, answer', _, value, _⟩ := answers MempoolStat.totalallocated tmpstat
      obtain rfl := Option.some.inj (answer.symm.trans answer')
      exact (value (by decide)).trans totalallocated.symm
    · obtain ⟨_, answer', _, _, value, _⟩ := answers MempoolStat.totalfree tmpstat
      obtain rfl := Option.some.inj (answer.symm.trans answer')
      exact value.trans totalfree.symm
    · obtain ⟨_, answer', _, _, _, value⟩ := answers MempoolStat.maxfree tmpstat
      obtain rfl := Option.some.inj (answer.symm.trans answer')
      exact (value (by decide)).trans maxfree.symm

theorem exists_own (reached : ∀ h ∈ heaps, Reached h) (asked : Asked flags) : ∃ own : Heap → MempoolStatus,
    (∀ h ∈ heaps, h.pool.getStatus flags {} = some (own h) ∧ Reports h.pool (own h)) ∧
      List.Forall₂ (Answers MempoolVariable.getStatus) (heaps.map Heap.pool) (heaps.map own) := by
  refine ⟨fun h => (h.pool.getStatus flags {}).getD {}, fun h member => ?_, ?_⟩
  · obtain ⟨own, result, reports, _⟩ := (reached h member).answers asked
    simp only [result, Option.getD_some]
    exact ⟨trivial, reports⟩
  · rw [forall₂_map_left_iff, forall₂_map_right_iff, forall₂_same]
    intro h member
    obtain ⟨own, result, _, answers⟩ := (reached h member).answers asked
    simpa only [result, Option.getD_some] using answers

/-- The joined statistics are right just if every pool has memory free and memory in use, and the arenas together are
less than 2 GiB. -/
theorem joined_status_iff (nonempty : heaps ≠ []) (reached : ∀ h ∈ heaps, Reached h) (asked : Asked flags) :
    ∃ own t, heaps.map (fun h => h.pool.getStatus flags {}) = own.map some ∧
      joinedStatus MempoolVariable.getStatus (heaps.map Heap.pool) flags status = some t ∧
      (StatusRight own t ↔ (∀ h ∈ heaps, 0 < h.pool.freemem ∧ h.pool.freemem < h.pool.top - h.pool.bottom) ∧
        (heaps.map fun h => (h.pool.top : Int) - h.pool.bottom).sum < 2 ^ 31) := by
  obtain ⟨own, answers, both⟩ := exists_own reached asked
  obtain ⟨t, result, arenasize, totalallocated, totalfree, maxfree⟩ := joinedStatus_spec status asked both
  refine ⟨heaps.map own, t, ?_, result, ?_⟩
  · rw [map_map]
    exact map_congr_left fun h member => (answers h member).1
  have reports : ∀ h ∈ heaps, Reports h.pool (own h) := fun h member => (answers h member).2
  have arenas : (heaps.map own).map (·.arenasize) = heaps.map fun h => (h.pool.top : Int) - h.pool.bottom := by
    rw [map_map]
    exact map_congr_left fun h member => (reports h member).arenasize
  have used : (heaps.map own).map (·.totalallocated) =
      heaps.map fun h => (h.pool.top : Int) - h.pool.bottom - h.pool.freemem := by
    rw [map_map]
    exact map_congr_left fun h member => (reports h member).totalallocated
  have free : (heaps.map own).map (·.totalfree) = heaps.map fun h => h.pool.freemem := by
    rw [map_map]
    exact map_congr_left fun h member => (reports h member).totalfree
  have arenaBounds : ∀ v ∈ heaps.map fun h => (h.pool.top : Int) - h.pool.bottom, 0 ≤ v ∧ v < 2 ^ 31 :=
    List.forall_mem_map.mpr fun h member => ⟨(reports h member).arena.1.le, (reports h member).arena.2⟩
  have usedBounds : ∀ v ∈ heaps.map fun h => (h.pool.top : Int) - h.pool.bottom - h.pool.freemem, 0 ≤ v ∧ v < 2 ^ 31 :=
    List.forall_mem_map.mpr fun h member => by
      obtain ⟨_, _, _, arena, free, _⟩ := reports h member
      omega
  have freeBounds : ∀ v ∈ heaps.map fun h => h.pool.freemem, 0 ≤ v ∧ v < 2 ^ 31 :=
    List.forall_mem_map.mpr fun h member => by
      obtain ⟨_, _, _, arena, free, _⟩ := reports h member
      omega
  have mostApart : ∀ v ∈ (heaps.map own).map (·.maxfree), v < -1 ∨ 0 < v := by
    simp only [forall_mem_map]
    intro h member
    have value := (reports h member).maxfree
    simp only [sizeofMemdq] at value
    split at value <;> omega
  have usedLe : (heaps.map fun h => (h.pool.top : Int) - h.pool.bottom - h.pool.freemem).sum ≤
      (heaps.map fun h => (h.pool.top : Int) - h.pool.bottom).sum :=
    sum_le_sum fun h member => by
      have free := (reports h member).free
      omega
  have freeLe : (heaps.map fun h => h.pool.freemem).sum ≤ (heaps.map fun h => (h.pool.top : Int) - h.pool.bottom).sum :=
    sum_le_sum fun h member => (reports h member).free.2
  have arenaRight := foldl_total_iff (s := 0) le_rfl (by omega) arenaBounds
  have usedRight := foldl_total_iff (s := 0) le_rfl (by omega) usedBounds
  have freeRight := foldl_total_iff (s := 0) le_rfl (by omega) freeBounds
  have mostRight := foldl_greatest_iff (by simpa using nonempty) mostApart
  simp only [Int.zero_add, forall_mem_map] at arenaRight usedRight freeRight mostRight
  replace arenasize := arenasize.trans (congrArg (List.foldl total 0) arenas)
  replace totalallocated := totalallocated.trans (congrArg (List.foldl total 0) used)
  replace totalfree := totalfree.trans (congrArg (List.foldl total 0) free)
  constructor
  · rintro ⟨arenaSum, usedSum, freeSum, most⟩
    rw [arenasize, arenas, arenaRight] at arenaSum
    rw [totalallocated, used, usedRight] at usedSum
    rw [totalfree, free, freeRight] at freeSum
    refine ⟨fun h member => ⟨freeSum.1 h member, ?_⟩, arenaSum.2⟩
    exact Int.lt_of_sub_pos (usedSum.1 h member)
  · rintro ⟨partial', small⟩
    refine ⟨?_, ?_, ?_, ?_⟩
    · rw [arenasize, arenas, arenaRight]
      exact ⟨fun h member => (reports h member).arena.1, small⟩
    · rw [totalallocated, used, usedRight]
      exact ⟨fun h member => Int.sub_pos_of_lt (partial' h member).2, usedLe.trans_lt small⟩
    · rw [totalfree, free, freeRight]
      exact ⟨fun h member => (partial' h member).1, freeLe.trans_lt small⟩
    · rw [maxfree, mostRight]
      intro h member
      have value := (reports h member).maxfree
      have some := (partial' h member).1
      rwa [if_neg some.ne'] at value

/-- One pool without free memory, and `mallinfo` shows none in all of them. -/
theorem mallinfo_hides (reached : ∀ h ∈ heaps, Reached h) (full : ∃ h ∈ heaps, h.pool.freemem = 0) :
    ∃ info, mallinfo (joinedStatus MempoolVariable.getStatus (heaps.map Heap.pool)) = some info ∧
      info.fordblks = 0 ∧ info.maxfree = 0 := by
  have asked : Asked (arenasize ||| freeblocks ||| totalallocated |||
      totalfree ||| maxfree) := ⟨by decide, by decide, by decide, by decide⟩
  obtain ⟨own, reports, both⟩ := exists_own reached asked
  obtain ⟨t, result, _, _, totalfree, maxfree⟩ := joinedStatus_spec {} asked both
  obtain ⟨h, member, empty⟩ := full
  have spoilt : t.totalfree < 0 := by
    rw [totalfree, map_map]
    refine foldl_total_of_zero le_rfl (by omega) (forall_mem_map.mpr fun h member => ?_)
      (mem_map.mpr ⟨h, member, (reports h member).2.totalfree.trans empty⟩)
    have value := (reports h member).2.totalfree
    have arena := (reports h member).2.arena
    have free := (reports h member).2.free
    simp only [Function.comp_apply]
    omega
  have most : t.maxfree = -1 := by
    rw [maxfree, map_map]
    refine foldl_greatest_of_neg le_rfl ⟨_, mem_map.mpr ⟨h, member, rfl⟩, ?_⟩
    have value := (reports h member).2.maxfree
    rw [if_pos empty] at value
    simp [value, sizeofMemdq]
  refine ⟨_, by rw [mallinfo, result]; rfl, ?_, ?_⟩
  · simp only [Mallinfo.shown]
    exact if_neg (by omega)
  · simp only [Mallinfo.shown]
    exact if_neg (by omega)

/-- A second page, unused. -/
def spare : Heap := ⟨MempoolVariable.construct (fun _ => 0) 0x2000 0x80200000 0x1000 8, []⟩

theorem accepts_spare : Accepts 0x2000 0x80200000 0x1000 8 where
  power := ⟨3, by decide, rfl⟩
  large := by decide
  small := by decide
  arena := by decide
  apart := by decide
  ordered := by decide
  inside := by decide

theorem reached_page : Reached (Heap.page.act (.tryAlloc 100)) := by
  have start : (Heap.runs lookalike 0x1000 0x80100000 0x1000 8 Plain).Reach page := .start rfl
  exact ⟨_, _, _, _, _, accepts_page, start.next ⟨.tryAlloc 100, ⟨by decide, trivial⟩, rfl⟩⟩

theorem reached_spare : Reached spare := ⟨_, _, _, _, _, accepts_spare, .start rfl⟩

theorem mallinfo_hides_spare : ∃ info, mallinfo (joinedStatus MempoolVariable.getStatus
    ([Heap.page.act (.tryAlloc 4068), spare].map Heap.pool)) = some info ∧ info.fordblks = 0 ∧ info.maxfree = 0 := by
  have start : (Heap.runs Heap.lookalike 0x1000 0x80100000 0x1000 8 Heap.Plain).Reach Heap.page := .start rfl
  have full : Reached (Heap.page.act (.tryAlloc 4068)) :=
    ⟨_, _, _, _, _, Heap.accepts_page, start.next ⟨.tryAlloc 4068, ⟨by decide, trivial⟩, rfl⟩⟩
  exact mallinfo_hides (by simp [full, reached_spare]) ⟨_, List.mem_cons_self, by decide⟩

theorem joined_status_pages : ∃ own t, joinedStatus MempoolVariable.getStatus
    [(Heap.page.act (.tryAlloc 100)).pool, (spare.act (.tryAlloc 200)).pool] 0x7e {} = some t ∧ StatusRight own t := by
  have second : Reached (spare.act (.tryAlloc 200)) := by
    have start : (Heap.runs (fun _ => 0) 0x2000 0x80200000 0x1000 8 Heap.Plain).Reach spare := .start rfl
    exact ⟨_, _, _, _, _, accepts_spare, start.next ⟨.tryAlloc 200, ⟨by decide, trivial⟩, rfl⟩⟩
  have asked : Asked 0x7e := ⟨by decide, by decide, by decide, by decide⟩
  obtain ⟨own, t, -, result, right⟩ := @joined_status_iff
    [Heap.page.act (.tryAlloc 100), spare.act (.tryAlloc 200)] 0x7e {} (by simp) (by simp [reached_page, second]) asked
  refine ⟨own, t, result, right.mpr ⟨?_, by decide⟩⟩
  decide

/-- A pool that is not used makes the total of the allocated memory -1, whatever the others have allocated. -/
theorem unused_pool_spoils_total : ¬ ∀ (heaps : List Heap) (flags : Nat) (status : MempoolStatus), heaps ≠ [] →
    (∀ h ∈ heaps, Reached h) → Asked flags →
    ∃ own t, heaps.map (fun h => h.pool.getStatus flags {}) = own.map some ∧
      joinedStatus MempoolVariable.getStatus (heaps.map Heap.pool) flags status = some t ∧ StatusRight own t := by
  intro claim
  obtain ⟨own, t, values, result, right⟩ := claim [Heap.page.act (.tryAlloc 100), spare] 0x7e {} (by simp)
    (by simp [reached_page, reached_spare]) ⟨by decide, by decide, by decide, by decide⟩
  simp only [map_cons, map_nil] at result
  have reported : (joinedStatus MempoolVariable.getStatus [(Heap.page.act (.tryAlloc 100)).pool,
    spare.pool] 0x7e {}).map
      (·.totalallocated) = some (-1) := by decide
  have sums := congrArg (fun l => (l.map fun o => (o.map MempoolStatus.totalallocated).getD 0).sum) values
  have exact : 112 = (own.map (·.totalallocated)).sum := by
    simp only [map_map] at sums
    exact Eq.trans (by decide) sums
  rw [result, Option.map_some, Option.some_inj, right.totalallocated, ← exact] at reported
  exact absurd reported (by decide)

end MempoolJoined

end Ecos
