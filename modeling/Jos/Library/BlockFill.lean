import Jos.Library.BlockMove

/-! Filling a block of memory piece by piece. -/
namespace BlockMove

variable {w : Nat} {β : Type}

/-- The `k` cells from `dst` on become those of the piece. -/
def fillBlock (k : Nat) (dst : BitVec w) (piece : Nat → β) (m : BitVec w → β) : BitVec w → β :=
  fun a => if (a - dst).toNat < k then piece (a - dst).toNat else m a

/-- The piece stored `n` times, each time behind the last. -/
def fills (k : Nat) (piece : Nat → β) : Nat → BitVec w → (BitVec w → β) → BitVec w → β
  | 0, _, m => m
  | n + 1, dst, m => fills k piece n (dst + BitVec.ofNat w k) (fillBlock k dst piece m)

variable {k n : Nat} {dst a : BitVec w} {piece piece' : Nat → β} {m : BitVec w → β}

@[simp] theorem fillBlock_zero : fillBlock 0 dst piece m = m := by
  funext a
  simp [fillBlock]

theorem fillBlock_congr (h : ∀ i < k, piece i = piece' i) :
    fillBlock k dst piece m = fillBlock k dst piece' m := by
  funext a
  unfold fillBlock
  split
  · next hlt => exact h _ hlt
  · rfl

/-- A piece, and a block behind it. -/
theorem fillBlock_add {j : Nat} (hw : j + k ≤ 2 ^ w) :
    fillBlock k (dst + BitVec.ofNat w j) (fun i => piece (j + i)) (fillBlock j dst piece m) =
      fillBlock (j + k) dst piece m := by
  funext a
  unfold fillBlock
  rcases Nat.lt_or_ge (a - dst).toNat j with hlt | hge
  · have hfar := le_toNat_sub_offset hlt hw
    rw [if_neg (by omega), if_pos hlt, if_pos (by omega)]
  · have hoff := toNat_sub_offset hge
    have hsum : j + ((a - dst).toNat - j) = (a - dst).toNat := by omega
    dsimp only
    rw [hoff, hsum, if_neg (Nat.not_lt.mpr hge)]
    by_cases hin : (a - dst).toNat < j + k
    · rw [if_pos (by omega), if_pos hin]
    · rw [if_neg (by omega), if_neg hin]

/-- A piece stored over and over fills the block periodically. -/
theorem fills_eq (hk : 0 < k) (hw : n * k ≤ 2 ^ w) :
    fills k piece n dst m = fillBlock (n * k) dst (fun i => piece (i % k)) m := by
  induction n generalizing dst m with
  | zero =>
    rw [Nat.zero_mul, fillBlock_zero, fills]
  | succ n ih =>
    have hlen : (n + 1) * k = k + n * k := by rw [Nat.succ_mul, Nat.add_comm]
    rw [hlen] at hw ⊢
    have hfirst : fillBlock k dst piece m = fillBlock k dst (fun i => piece (i % k)) m :=
      fillBlock_congr fun i hi => by rw [Nat.mod_eq_of_lt hi]
    have hrest : (fun i => piece (i % k)) = fun i => piece ((k + i) % k) := by
      funext i
      rw [Nat.add_mod_left]
    rw [fills, ih (by omega), hfirst, ← fillBlock_add hw, ← hrest]

end BlockMove
