import Mathlib.Tactic.Common
import Mathlib.Data.Nat.Bitwise

/-! Bit fields, packed from the lowest bit up, and read back by their position. -/
namespace BitFields

abbrev Field := (w : Nat) × BitVec w

/-- The number with these fields. -/
def pack : List Field → Nat
  | [] => 0
  | f :: fs => f.2.toNat + 2 ^ f.1 * pack fs

/-- The `w` bits from bit `lo` on. -/
def slice (n lo w : Nat) : BitVec w := BitVec.ofNat w (n / 2 ^ lo)

variable {n lo v w : Nat} {x : BitVec w} {y : BitVec v} {fs : List Field}

@[simp] theorem pack_nil : pack [] = 0 := rfl

@[simp] theorem slice_first : slice (pack (⟨w, x⟩ :: fs)) 0 w = x := by
  apply BitVec.eq_of_toNat_eq
  rw [slice, pack, BitVec.toNat_ofNat, Nat.pow_zero, Nat.div_one, Nat.add_mul_mod_self_left,
    Nat.mod_eq_of_lt x.isLt]

/-- Past the first field. -/
theorem slice_rest (h : v ≤ lo) : slice (pack (⟨v, y⟩ :: fs)) lo w = slice (pack fs) (lo - v) w := by
  have hpow : 2 ^ lo = 2 ^ v * 2 ^ (lo - v) := by
    rw [← Nat.pow_add, Nat.add_sub_cancel' h]
  rw [slice, slice, pack, hpow, ← Nat.div_div_eq_div_mul, Nat.add_mul_div_left _ _ (Nat.two_pow_pos v),
    Nat.div_eq_of_lt y.isLt, Nat.zero_add]

end BitFields
