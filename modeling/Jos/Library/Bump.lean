import Mathlib.Tactic.Common

/-! Bump allocation: chunks handed out one behind the other. -/
namespace Bump

/-- A chunk of `size` units from `start` on. -/
structure Chunk where
  start : Nat
  size : Nat

def Chunk.stop (c : Chunk) : Nat := c.start + c.size

/-- Two chunks have no unit in common. -/
def Chunk.Apart (c d : Chunk) : Prop := c.stop ≤ d.start ∨ d.stop ≤ c.start

/-- The chunks lie in `[lo, next)` and share nothing; the newest comes first. -/
structure Packed (lo next : Nat) (cs : List Chunk) : Prop where
  le : lo ≤ next
  above : ∀ c ∈ cs, lo ≤ c.start
  below : ∀ c ∈ cs, c.stop ≤ next
  apart : cs.Pairwise Chunk.Apart

variable {lo next stop : Nat} {c : Chunk} {cs : List Chunk}

theorem packed_nil (h : lo ≤ next) : Packed lo next [] :=
  ⟨h, by simp, by simp, List.Pairwise.nil⟩

/-- Handing out a chunk at the end of the heap, which then ends no earlier than the chunk. -/
theorem Packed.cons (h : Packed lo next cs) (hstart : c.start = next) (hstop : c.stop ≤ stop) :
    Packed lo stop (c :: cs) := by
  have hle : next ≤ stop := by
    unfold Chunk.stop at hstop
    omega
  refine ⟨Nat.le_trans h.le hle, ?_, ?_, List.Pairwise.cons ?_ h.apart⟩
  · intro d hd
    rcases List.mem_cons.mp hd with rfl | hd
    · exact hstart ▸ h.le
    · exact h.above d hd
  · intro d hd
    rcases List.mem_cons.mp hd with rfl | hd
    · exact hstop
    · exact Nat.le_trans (h.below d hd) hle
  · intro d hd
    exact Or.inr (hstart ▸ h.below d hd)

end Bump
