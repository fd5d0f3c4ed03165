import Jos.Library.Prog

/-! Two programs side by side, on states of two kinds, as long as the first run is of interest. -/
namespace Prog

variable {ε δ σ τ α β : Type}

/-- How two runs go together: the first only goes on in an order, it is of interest as long as its
state is live, and till then the states of both are related. -/
structure Sim (σ τ : Type) where
  Rel : σ → τ → Prop
  le : σ → σ → Prop
  Live : σ → Prop
  refl : ∀ s, le s s
  trans : ∀ s t u, le s t → le t u → le s u
  live_of_le : ∀ s t, le s t → Live t → Live s

namespace Sim

/-- Whenever `x` returns, `y` does from every related state, with the same value. -/
def Simulates (S : Sim σ τ) (x : Prog ε σ α) (y : Prog δ τ α) : Prop :=
  ∀ s a t, x s = .ok a t → S.le s t ∧ (S.Live t → ∀ u, S.Rel s u → ∃ v, y u = .ok a v ∧ S.Rel t v)

variable {S : Sim σ τ} {x : Prog ε σ α} {y : Prog δ τ α} {f : α → Prog ε σ β} {g : α → Prog δ τ β}

/-- Every run is of interest. -/
def always (Rel : σ → τ → Prop) : Sim σ τ where
  Rel := Rel
  le _ _ := True
  Live _ := True
  refl _ := trivial
  trans _ _ _ _ _ := trivial
  live_of_le _ _ _ _ := trivial

theorem simulates_pure (a : α) : S.Simulates (pure a : Prog ε σ α) (pure a : Prog δ τ α) := by
  intro s a' t h
  obtain ⟨rfl, rfl⟩ := pure_eq_ok.mp h
  exact ⟨S.refl s, fun _ u hu => ⟨u, rfl, hu⟩⟩

/-- A run that does not return has nothing to be simulated. -/
theorem simulates_stop (e : ε) : S.Simulates (stop e : Prog ε σ α) y :=
  fun _ _ _ h => absurd h stop_ne_ok

theorem Simulates.bind (h : S.Simulates x y) (hf : ∀ a, S.Simulates (f a) (g a)) :
    S.Simulates (x >>= f) (y >>= g) := by
  intro s b w hb
  obtain ⟨a, t, ha, hb⟩ := bind_eq_ok.mp hb
  obtain ⟨hle, hx⟩ := h s a t ha
  obtain ⟨hle', hg⟩ := hf a t b w hb
  refine ⟨S.trans s t w hle hle', fun hlive u hu => ?_⟩
  obtain ⟨v, hv, hrel⟩ := hx (S.live_of_le t w hle' hlive) u hu
  obtain ⟨v', hv', hrel'⟩ := hg hlive v hrel
  exact ⟨v', bind_eq_ok.mpr ⟨a, v, hv, hv'⟩, hrel'⟩

theorem simulates_ite {c : Prop} [Decidable c] {x' : Prog ε σ α} {y' : Prog δ τ α}
    (h : c → S.Simulates x y) (h' : ¬ c → S.Simulates x' y') :
    S.Simulates (if c then x else x') (if c then y else y') := by
  split
  · exact h (by assumption)
  · exact h' (by assumption)

/-- A check in front only makes a program return less often. -/
theorem simulates_check {e : ε} {c : Prop} [Decidable c] (h : S.Simulates x y) :
    S.Simulates (check e c >>= fun _ => x) y := by
  intro s a t ht
  obtain ⟨_, u, hc, ht⟩ := bind_eq_ok.mp ht
  obtain ⟨_, rfl⟩ := check_eq_ok.mp hc
  exact h s a t ht

/-- From equal states a program does what it does. -/
theorem simulates_self (x : Prog ε σ α) : (always Eq).Simulates x x := by
  intro s a t ht
  refine ⟨trivial, fun _ u hu => ⟨t, ?_, rfl⟩⟩
  rw [← hu, ht]

end Sim

end Prog
