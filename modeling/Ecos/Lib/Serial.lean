import Mathlib.Data.Int.Cast.Lemmas

/-! Serial numbers: places on a line that are known only modulo a power of two. -/

namespace Ecos
open BitVec
variable {w : Nat} {base : BitVec w} {p q : Nat}

theorem serial_sub : base + BitVec.ofNat w p - (base + BitVec.ofNat w q) = BitVec.ofInt w (p - q) := by
  have cancel : base + BitVec.ofNat w p - (base + BitVec.ofNat w q) = BitVec.ofNat w p - BitVec.ofNat w q := by
    grind
  rw [cancel, Int.sub_eq_add_neg, ofInt_add, ofInt_neg, ofInt_natCast, ofInt_natCast,
    sub_eq_add_neg]

/-- Places less than half the circle apart: their difference is that of the numbers. -/
theorem serial_toInt (wide : 0 < w) (above : p < q + 2 ^ (w - 1)) (below : q ≤ p + 2 ^ (w - 1)) :
    (base + BitVec.ofNat w p - (base + BitVec.ofNat w q)).toInt = (p : Int) - q := by
  rw [serial_sub]
  have half : ((2 ^ (w - 1) : Nat) : Int) = 2 ^ (w - 1) := by push_cast; rfl
  exact toInt_ofInt_eq_self wide (by omega) (by omega)

theorem serial_toNat (near : p < q + 2 ^ w) (below : q ≤ p) :
    (base + BitVec.ofNat w p - (base + BitVec.ofNat w q)).toNat = p - q := by
  rw [serial_sub, ← Int.ofNat_sub below, ofInt_natCast, toNat_ofNat, Nat.mod_eq_of_lt (by omega)]

theorem serial_eq (above : p < q + 2 ^ w) (below : q < p + 2 ^ w)
    (same : base + BitVec.ofNat w p = base + BitVec.ofNat w q) : p = q := by
  rcases Nat.le_total q p with le | le
  · have none := @serial_toNat w base p q above le
    rw [same, BitVec.sub_self, BitVec.toNat_zero] at none
    omega
  · have none := @serial_toNat w base q p below le
    rw [same, BitVec.sub_self, BitVec.toNat_zero] at none
    omega

theorem serial_add : base + BitVec.ofNat w p + BitVec.ofNat w q = base + BitVec.ofNat w (p + q) := by
  rw [BitVec.add_assoc, ← BitVec.ofNat_add]

end Ecos
