import Mathlib.Tactic.Common

/-! Writes one over the other: what is seen of them. -/
namespace Overlay

variable {α β : Type}

/-- What stands at `a` once the first `n` writes are done, of which write `k` covers a part. -/
def after (covers : Nat → α → Prop) [∀ k a, Decidable (covers k a)] (val : Nat → α → β) (m : α → β) :
    Nat → α → β
  | 0, a => m a
  | n + 1, a => if covers n a then val n a else after covers val m n a

variable {covers : Nat → α → Prop} [∀ k a, Decidable (covers k a)] {val : Nat → α → β} {m : α → β}
  {j n : Nat} {a : α}

/-- Where nothing is written later, a write is seen. -/
theorem after_last (hj : j < n) (hcov : covers j a) (hlast : ∀ k, j < k → k < n → ¬ covers k a) :
    after covers val m n a = val j a := by
  induction n with
  | zero => omega
  | succ n ih =>
    rw [after]
    by_cases hjn : j = n
    · rw [← hjn, if_pos hcov]
    · rw [if_neg (hlast n (by omega) (Nat.lt_succ_self n))]
      exact ih (by omega) fun k hk hkn => hlast k hk (by omega)

/-- Some write is the last one at a place that is written. -/
theorem exists_last (hj : j < n) (hcov : covers j a) :
    ∃ k, j ≤ k ∧ k < n ∧ covers k a ∧ ∀ k', k < k' → k' < n → ¬ covers k' a := by
  induction n with
  | zero => omega
  | succ n ih =>
    by_cases hn : covers n a
    · exact ⟨n, by omega, Nat.lt_succ_self n, hn, fun k' h1 h2 => absurd h2 (by omega)⟩
    · have hjn : j ≠ n := fun h => hn (h ▸ hcov)
      obtain ⟨k, h1, h2, h3, h4⟩ := ih (by omega)
      refine ⟨k, h1, by omega, h3, fun k' h5 h6 => ?_⟩
      by_cases hk : k' = n
      · rwa [hk]
      · exact h4 k' h5 (by omega)

end Overlay
