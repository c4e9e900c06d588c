import Ecos.Lib.Fuel
import Ecos.Ramfs.Dirent

namespace Ecos.Ramfs
open Nat Option

namespace Paging
variable {paging : Paging} {datasize pos q n : Nat}

theorem room_extend : paging.room datasize q ≤ paging.room (paging.extend datasize pos) q := by
  cases paging with
  | simple cfg =>
    simp only [room, extend]
    split
    · exact zero_le _
    · split
      · rw [if_neg (by omega)]
        omega
      · exact le_rfl
  | blocks cfg => exact le_rfl

theorem room_pos (some : 0 < n) (fits : n ≤ paging.room datasize pos) (below : q < pos + n) :
    0 < paging.room datasize q := by
  cases paging with
  | simple cfg =>
    simp only [room] at fits ⊢
    split at fits
    · omega
    · rw [if_neg (by omega)]
      omega
  | blocks cfg =>
    obtain ⟨small, _⟩ := cfg.legal
    have inside := mod_lt q (show 0 < cfg.blockSize by omega)
    simp only [room]
    omega

end Paging

namespace Dir
variable {N : Type} {cfg : DirentConfig} {d d' : Dir N} {fuel m pos p q : Nat} {name target : List UInt8} {node : N}
  {first : Bool} {rest : List Nat}

/-- The same entries, with perhaps more room. -/
structure Grown (cfg : DirentConfig) (d d' : Dir N) : Prop where
  slot : d'.slot = d.slot
  size : d'.size = d.size
  room : ∀ q, d.room cfg q ≤ d'.room cfg q

theorem findFree_succ : findFree cfg (fuel + 1) d pos =
    if cfg.paging.room (cfg.paging.extend d.datasize pos) pos < cfg.sizeofDirent ∨ (d.slot pos).inuse = true then
      findFree cfg fuel { d with datasize := cfg.paging.extend d.datasize pos } (pos + cfg.sizeofDirent)
    else some ({ d with datasize := cfg.paging.extend d.datasize pos }, pos) := rfl

theorem findFree_spec (found : findFree cfg fuel d pos = some (d', p)) :
    Grown cfg d d' ∧ (d.slot p).inuse = false ∧ cfg.sizeofDirent ≤ d'.room cfg p ∧ pos ≤ p ∧
      (cfg.sizeofDirent ∣ pos → cfg.sizeofDirent ∣ p) := by
  induction fuel generalizing d pos with
  | zero => simp [findFree] at found
  | succ fuel ih =>
    rw [findFree_succ] at found
    split at found
    · obtain ⟨grown, free, fits, later, divides⟩ := ih found
      refine ⟨⟨grown.slot, grown.size, fun q => Paging.room_extend.trans (grown.room q)⟩, free, fits, by omega, ?_⟩
      exact fun multiple => divides (Nat.dvd_add multiple (Nat.dvd_refl _))
    · next taken =>
      obtain ⟨rfl, rfl⟩ := Prod.mk.inj (some.inj found)
      rw [not_or, Bool.not_eq_true] at taken
      exact ⟨⟨rfl, rfl, fun _ => Paging.room_extend⟩, taken.2, Nat.le_of_not_lt taken.1, le_rfl, id⟩

theorem findFree_mono (found : findFree cfg fuel d pos = some (d', p)) (le : fuel ≤ m) :
    findFree cfg m d pos = some (d', p) := by
  refine fuel_mono (F := fun n x => findFree cfg n x.1 x.2) (fun _ => rfl) (fun n m _ ih x => ?_) le (d, pos) _ found
  rw [findFree_succ, findFree_succ]
  exact .ite (fun taken => ih (_, _)) fun free => .refl

theorem findFree_congr {e : Dir N} (same : e.datasize = d.datasize) (used : ∀ q, pos ≤ q → (e.slot q).inuse = (d.slot q).inuse)
    (found : findFree cfg fuel e pos = some (d', p)) :
    findFree cfg fuel d pos = some ({ d with datasize := d'.datasize }, p) := by
  induction fuel generalizing d e pos with
  | zero => simp [findFree] at found
  | succ fuel ih =>
    rw [findFree_succ] at found ⊢
    rw [same, used pos le_rfl] at found
    split at found
    · next taken =>
      rw [if_pos taken]
      exact ih (e := { e with datasize := _ }) rfl (fun q low => used q (by omega)) found
    · next free =>
      rw [if_neg free]
      obtain ⟨rfl, rfl⟩ := Prod.mk.inj (some.inj found)
      rfl

section Ends

theorem findFree_later (later : ∃ fuel, findFree cfg fuel { d with datasize := cfg.paging.extend d.datasize pos }
    (pos + cfg.sizeofDirent) ≠ none) : ∃ fuel, findFree cfg fuel d pos ≠ none := by
  obtain ⟨fuel, found⟩ := later
  refine ⟨fuel + 1, ?_⟩
  rw [findFree_succ]
  split
  · exact found
  · simp

/-- Behind all that is used the search ends. -/
theorem findFree_behind (free : ∀ q, pos ≤ q → (d.slot q).inuse = false) (multiple : cfg.sizeofDirent ∣ pos) :
    ∃ fuel, findFree cfg fuel d pos ≠ none := by
  have stop : ∀ {d : Dir N} {pos : Nat}, (d.slot pos).inuse = false →
      cfg.sizeofDirent ≤ cfg.paging.room (cfg.paging.extend d.datasize pos) pos →
      ∃ fuel, findFree cfg fuel d pos ≠ none := by
    intro d pos free fits
    refine ⟨1, ?_⟩
    have test : ¬ (cfg.paging.room (cfg.paging.extend d.datasize pos) pos < cfg.sizeofDirent ∨
        (d.slot pos).inuse = true) := by
      rw [free]
      simpa using fits
    simp [findFree_succ, test]
  have size := cfg.fits
  cases paging : cfg.paging with
  | simple c =>
    have increment : cfg.sizeofDirent ≤ c.increment := by
      rw [paging] at size
      exact size
    have beyond : ∀ {d : Dir N} {pos : Nat}, (d.slot pos).inuse = false → d.datasize ≤ pos →
        ∃ fuel, findFree cfg fuel d pos ≠ none := by
      intro d pos free far
      refine stop free ?_
      simp only [paging, Paging.extend, Paging.room]
      rw [if_pos (Or.inl far), if_neg (by omega)]
      omega
    by_cases far : d.datasize ≤ pos
    · exact beyond (free pos le_rfl) far
    · by_cases fits : cfg.sizeofDirent ≤ d.datasize - pos
      · refine stop (free pos le_rfl) ?_
        have kept : (Paging.simple c).extend d.datasize pos = d.datasize := if_neg (by omega)
        rw [paging, kept]
        simp only [Paging.room]
        rw [if_neg (by omega)]
        exact fits
      · refine findFree_later (beyond (free _ (by omega)) ?_)
        simp only [paging, Paging.extend]
        rw [if_neg (by omega)]
        omega
  | blocks c =>
    have block : cfg.sizeofDirent ≤ c.blockSize := by
      rw [paging] at size
      exact size
    have walk : ∀ (k : Nat) {d : Dir N} {pos : Nat}, (∀ q, pos ≤ q → (d.slot q).inuse = false) →
        (pos + k * cfg.sizeofDirent) % c.blockSize = 0 → ∃ fuel, findFree cfg fuel d pos ≠ none := by
      intro k
      induction k with
      | zero =>
        intro d pos free start
        refine stop (free pos le_rfl) ?_
        simp only [paging, Paging.room]
        rw [Nat.zero_mul, Nat.add_zero] at start
        omega
      | succ k ih =>
        intro d pos free start
        refine findFree_later (ih (fun q low => free q (by omega)) ?_)
        rw [← start]
        congr 1
        rw [succ_mul]
        omega
    obtain ⟨i, rfl⟩ := multiple
    refine walk (i * (c.blockSize - 1)) free ?_
    have total : cfg.sizeofDirent * i + i * (c.blockSize - 1) * cfg.sizeofDirent = c.blockSize * (i * cfg.sizeofDirent) := by
      obtain ⟨small, _⟩ := c.legal
      obtain ⟨b, eq⟩ : ∃ b, c.blockSize = b + 1 := ⟨c.blockSize - 1, by omega⟩
      rw [eq, Nat.add_sub_cancel, Nat.mul_comm cfg.sizeofDirent i, Nat.add_mul, Nat.one_mul, Nat.mul_comm i b,
        Nat.mul_assoc, Nat.add_comm]
    rw [total, mul_mod_right]

theorem findFree_ends (cfg : DirentConfig) (d : Dir N) (pos n : Nat) (free : ∀ q, pos + n * cfg.sizeofDirent ≤ q → (d.slot q).inuse = false)
    (multiple : cfg.sizeofDirent ∣ pos) : ∃ fuel, findFree cfg fuel d pos ≠ none := by
  induction n generalizing d pos with
  | zero => exact findFree_behind (by simpa using free) multiple
  | succ n ih =>
    refine findFree_later (ih _ _ (fun q low => free q ?_) (Nat.dvd_add multiple (Nat.dvd_refl _)))
    rw [succ_mul]
    omega

end Ends

end Dir

end Ecos.Ramfs
