import Mathlib.Algebra.Group.Nat.Defs
import Mathlib.Tactic.Common

/-! Moving a block of memory in pieces, upwards or downwards, over itself or not. -/
namespace BlockMove

variable {w : Nat} {β : Type}

/-- The `k` cells from `src` on, read all at once and then written from `dst` on. -/
def block (k : Nat) (dst src : BitVec w) (m : BitVec w → β) : BitVec w → β :=
  fun a => if (a - dst).toNat < k then m (src + (a - dst)) else m a

/-- The cells from `dst` on are the old ones from `src` on, and no other cell has changed. -/
def Moved (n : Nat) (dst src : BitVec w) (m m' : BitVec w → β) : Prop :=
  (∀ i < n, m' (dst + BitVec.ofNat w i) = m (src + BitVec.ofNat w i)) ∧
    ∀ a, (∀ i < n, a ≠ dst + BitVec.ofNat w i) → m' a = m a

/-- A piece moved `n` times, by way of the pointers each round leaves to the next. -/
def moves (k : Nat) (step : BitVec w) : Nat → BitVec w → BitVec w → (BitVec w → β) → BitVec w → β
  | 0, _, _, m => m
  | n + 1, dst, src, m => moves k step n (dst + step) (src + step) (block k dst src m)

variable {i j k n : Nat} {dst src a : BitVec w} {m : BitVec w → β}

@[simp] theorem block_zero : block 0 dst src m = m := by
  funext a
  simp [block]

theorem block_in (h : i < k) (hw : i < 2 ^ w) :
    block k dst src m (dst + BitVec.ofNat w i) = m (src + BitVec.ofNat w i) := by
  have ha : dst + BitVec.ofNat w i - dst = BitVec.ofNat w i := by
    rw [BitVec.add_comm, BitVec.add_sub_cancel]
  have hi : (BitVec.ofNat w i).toNat = i := by
    rw [BitVec.toNat_ofNat, Nat.mod_eq_of_lt hw]
  rw [block, ha, hi, if_pos h]

theorem block_out (h : k ≤ (a - dst).toNat) : block k dst src m a = m a :=
  if_neg (Nat.not_lt.mpr h)

theorem moved_block (hw : n ≤ 2 ^ w) : Moved n dst src m (block n dst src m) := by
  constructor
  · intro i hi
    exact block_in hi (Nat.lt_of_lt_of_le hi hw)
  · intro a ha
    apply block_out
    by_contra hlt
    apply ha (a - dst).toNat (Nat.not_le.mp hlt)
    rw [BitVec.ofNat_toNat, BitVec.setWidth_eq, BitVec.add_comm, BitVec.sub_add_cancel]

/-- The offset of an address behind the first `j` cells. -/
theorem toNat_sub_offset (hj : j ≤ (a - dst).toNat) :
    (a - (dst + BitVec.ofNat w j)).toNat = (a - dst).toNat - j := by
  have hlt := (a - dst).isLt
  have hof : (BitVec.ofNat w j).toNat = j := by
    rw [BitVec.toNat_ofNat, Nat.mod_eq_of_lt (Nat.lt_of_le_of_lt hj hlt)]
  rw [← BitVec.sub_sub, BitVec.toNat_sub_of_le, hof]
  rw [BitVec.le_def, hof]
  exact hj

/-- The offset of an address among the first `j` cells, from behind them. -/
theorem le_toNat_sub_offset (h : (a - dst).toNat < j) (hw : j + k ≤ 2 ^ w) :
    k ≤ (a - (dst + BitVec.ofNat w j)).toNat := by
  rw [← BitVec.sub_sub, BitVec.toNat_sub, BitVec.toNat_ofNat]
  rcases Nat.lt_or_ge j (2 ^ w) with hj | hj
  · rw [Nat.mod_eq_of_lt hj, Nat.mod_eq_of_lt (by omega)]
    omega
  · omega

theorem add_offset : src + BitVec.ofNat w j + (a - (dst + BitVec.ofNat w j)) = src + (a - dst) := by
  grind

theorem add_sub_self_offset : src + (a - dst) = src + BitVec.ofNat w (a - dst).toNat := by
  rw [BitVec.ofNat_toNat, BitVec.setWidth_eq]

/-- A block is moved from below: its first part, which lies clear of the source of the rest, and
then the rest. -/
theorem block_add_up (hw : j + k ≤ 2 ^ w)
    (hclear : ∀ i, j ≤ i → i < j + k → j ≤ (src + BitVec.ofNat w i - dst).toNat) :
    block k (dst + BitVec.ofNat w j) (src + BitVec.ofNat w j) (block j dst src m) =
      block (j + k) dst src m := by
  funext a
  rcases Nat.lt_or_ge (a - dst).toNat j with hlo | hlo
  · rw [block_out (le_toNat_sub_offset hlo hw), block, block, if_pos hlo, if_pos (by omega)]
  · have hoff := toNat_sub_offset hlo
    rcases Nat.lt_or_ge (a - dst).toNat (j + k) with hhi | hhi
    · have hsrc := hclear _ hlo hhi
      rw [← add_sub_self_offset] at hsrc
      rw [block, if_pos (by omega), add_offset, block_out hsrc, block, if_pos hhi]
    · rw [block_out (by omega), block_out hlo, block_out hhi]

/-- A block is moved from above: its last part, which lies clear of the source of the rest, and
then the rest. -/
theorem block_add_down
    (hclear : ∀ i < k, j ≤ (src + BitVec.ofNat w i - (dst + BitVec.ofNat w k)).toNat) :
    block k dst src (block j (dst + BitVec.ofNat w k) (src + BitVec.ofNat w k) m) =
      block (k + j) dst src m := by
  funext a
  rcases Nat.lt_or_ge (a - dst).toNat k with hlo | hlo
  · have hsrc := hclear _ hlo
    rw [← add_sub_self_offset] at hsrc
    rw [block, if_pos hlo, block_out hsrc, block, if_pos (by omega)]
  · have hoff := toNat_sub_offset hlo
    rw [block_out hlo]
    rcases Nat.lt_or_ge (a - dst).toNat (k + j) with hhi | hhi
    · rw [block, if_pos (by omega), add_offset, block, if_pos hhi]
    · rw [block_out (by omega), block_out hhi]

/-- Moving upwards reads no cell it has written. -/
def ClearUp (n : Nat) (dst src : BitVec w) : Prop :=
  ∀ i < n, i ≤ (src + BitVec.ofNat w i - dst).toNat

/-- Moving downwards reads no cell it has written. -/
def ClearDown (n : Nat) (dst src : BitVec w) : Prop :=
  ∀ e ≤ n, ∀ i < e, n - e ≤ (src + BitVec.ofNat w i - (dst + BitVec.ofNat w e)).toNat

theorem moves_up {size : Nat} (hsize : n * k = size) (hw : size ≤ 2 ^ w) (h : ClearUp size dst src) :
    moves k (BitVec.ofNat w k) n dst src m = block size dst src m := by
  subst hsize
  induction n generalizing dst src m with
  | zero => simp [moves]
  | succ n ih =>
    rw [Nat.succ_mul] at hw h ⊢
    have hshift : ClearUp (n * k) (dst + BitVec.ofNat w k) (src + BitVec.ofNat w k) := by
      intro i hi
      have hle := h i (by omega)
      have he : src + BitVec.ofNat w k + BitVec.ofNat w i - (dst + BitVec.ofNat w k) =
          src + BitVec.ofNat w i - dst := by
        grind
      rwa [he]
    rw [moves, ih (by omega) hshift, Nat.add_comm (n * k)]
    exact block_add_up (by omega) fun i hlo hhi => Nat.le_trans hlo (h i (by omega))

theorem moves_down {size : Nat} (hsize : n * k = size) (hw : size ≤ 2 ^ w)
    (h : ClearDown size dst src) :
    moves k (-BitVec.ofNat w k) n (dst + BitVec.ofNat w size - BitVec.ofNat w k)
      (src + BitVec.ofNat w size - BitVec.ofNat w k) m = block size dst src m := by
  subst hsize
  induction n generalizing m with
  | zero => simp [moves]
  | succ n ih =>
    have hback : ∀ p : BitVec w, p + BitVec.ofNat w ((n + 1) * k) - BitVec.ofNat w k =
        p + BitVec.ofNat w (n * k) := by
      intro p
      rw [Nat.succ_mul, BitVec.ofNat_add, ← BitVec.add_assoc, BitVec.add_sub_cancel]
    rw [Nat.succ_mul] at hw h
    have hrest : ClearDown (n * k) dst src := by
      intro e he i hi
      have := h e (by omega) i hi
      omega
    rw [moves, hback, hback, ← BitVec.sub_eq_add_neg, ← BitVec.sub_eq_add_neg,
      ih (by omega) hrest, Nat.succ_mul]
    exact block_add_down fun i hi => by
      have := h (n * k) (by omega) i hi
      omega

end BlockMove
