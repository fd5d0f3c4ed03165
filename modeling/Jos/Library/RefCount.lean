import Mathlib.Data.Finset.Card
import Mathlib.Data.Finset.Union

/-! Reference counts: how many slots of a finite set name a given object. -/
namespace RefCount

variable {σ π : Type} [DecidableEq π] {S T : Finset σ} {names names' : σ → Option π}
  {x : σ} {p q : π}

/-- The number of slots in `S` that name `p`. -/
def refs (S : Finset σ) (names : σ → Option π) (p : π) : Nat :=
  (S.filter fun x => names x = some p).card

theorem refs_congr (h : ∀ x ∈ S, names' x = names x) : refs S names' p = refs S names p := by
  unfold refs
  congr 1
  apply Finset.filter_congr
  intro x hx
  rw [h x hx]

theorem refs_pos_iff : 0 < refs S names p ↔ ∃ x ∈ S, names x = some p := by
  simp [refs, Finset.card_pos, Finset.Nonempty]

theorem refs_eq_zero_iff : refs S names p = 0 ↔ ∀ x ∈ S, names x ≠ some p := by
  simp [refs, Finset.card_eq_zero, Finset.filter_eq_empty_iff]

theorem refs_erase [DecidableEq σ] (hx : x ∈ S) :
    refs S names p = refs (S.erase x) names p + if names x = some p then 1 else 0 := by
  unfold refs
  conv_lhs => rw [← Finset.insert_erase hx, Finset.filter_insert]
  split
  · rw [Finset.card_insert_of_notMem (by simp)]
  · simp

/-- Rewriting one slot moves exactly that slot's contribution. -/
theorem refs_update [DecidableEq σ] (hx : x ∈ S) (h : ∀ y ∈ S, y ≠ x → names' y = names y) :
    refs S names' p + (if names x = some p then 1 else 0) =
      refs S names p + (if names' x = some p then 1 else 0) := by
  have hnew : refs S names' p = refs (S.erase x) names' p + _ := refs_erase hx
  have hold : refs S names p = refs (S.erase x) names p + _ := refs_erase hx
  have hrest : refs (S.erase x) names' p = refs (S.erase x) names p :=
    refs_congr fun y hy => h y (Finset.mem_of_mem_erase hy) (Finset.ne_of_mem_erase hy)
  omega

/-- Slots that do not name `p` do not count for it. -/
theorem refs_of_unnamed (hST : S ⊆ T) (h : ∀ x ∈ T, x ∉ S → names x ≠ some p) :
    refs T names p = refs S names p := by
  unfold refs
  congr 1
  ext x
  simp only [Finset.mem_filter]
  constructor
  · rintro ⟨hx, hp⟩
    refine ⟨?_, hp⟩
    by_contra hn
    exact h x hx hn hp
  · rintro ⟨hx, hp⟩
    exact ⟨hST hx, hp⟩

theorem refs_of_subset (hST : S ⊆ T) (h : ∀ x ∈ T, x ∉ S → names x = none) :
    refs T names p = refs S names p := by
  apply refs_of_unnamed hST
  intro x hx hn hp
  rw [h x hx hn] at hp
  cases hp

theorem refs_eq_one (hx : x ∈ S) (hp : names x = some p)
    (h : ∀ y ∈ S, names y = some p → y = x) : refs S names p = 1 := by
  refine Finset.card_eq_one.mpr ⟨x, ?_⟩
  ext y
  simp only [Finset.mem_filter, Finset.mem_singleton]
  constructor
  · rintro ⟨hy, hyp⟩
    exact h y hy hyp
  · rintro rfl
    exact ⟨hx, hp⟩

/-- With at most one reference, the naming slot is unique. -/
theorem unique_of_refs_le_one (h : refs S names p ≤ 1) {x y : σ} (hx : x ∈ S) (hy : y ∈ S)
    (hxp : names x = some p) (hyp : names y = some p) : x = y :=
  Finset.card_le_one.mp h x (by simp [hx, hxp]) y (by simp [hy, hyp])

end RefCount
