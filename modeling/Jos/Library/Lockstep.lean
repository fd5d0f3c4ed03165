import Jos.Library.Prog

/-! Two runs of one program, from states that are related. -/
namespace Prog

variable {ε σ α β : Type} {x x' : Prog ε σ α} {f f' : α → Prog ε σ β} {s s' t t' : σ} {a : α} {e : ε}

/-- When `x` returns from `s`, so does `x'` from `s'`, with the same value, and the states they
leave are related. -/
def Follows (x x' : Prog ε σ α) (s s' : σ) (R : α → σ → σ → Prop) : Prop :=
  ∀ a t, x s = .ok a t → ∃ t', x' s' = .ok a t' ∧ R a t t'

theorem Follows.mono {Q R : α → σ → σ → Prop} (h : Follows x x' s s' Q)
    (hqr : ∀ a t t', Q a t t' → R a t t') : Follows x x' s s' R := by
  intro a t ht
  obtain ⟨t', ht', hq⟩ := h a t ht
  exact ⟨t', ht', hqr a t t' hq⟩

theorem Follows.bind {Q : α → σ → σ → Prop} {R : β → σ → σ → Prop} (h : Follows x x' s s' Q)
    (hf : ∀ a t t', Q a t t' → Follows (f a) (f' a) t t' R) :
    Follows (x >>= f) (x' >>= f') s s' R := by
  intro b u hb
  obtain ⟨a, t, ha, hb⟩ := bind_eq_ok.mp hb
  obtain ⟨t', ha', hq⟩ := h a t ha
  obtain ⟨u', hb', hr⟩ := hf a t t' hq b u hb
  exact ⟨u', bind_eq_ok.mpr ⟨a, t', ha', hb'⟩, hr⟩

/-- A first part whose outcomes are known; their values need not agree. -/
theorem Follows.step {a' : α} {R : β → σ → σ → Prop} (h : x s = .ok a t) (h' : x' s' = .ok a' t')
    (hf : Follows (f a) (f' a') t t' R) : Follows (x >>= f) (x' >>= f') s s' R := by
  intro b u hb
  rw [bind_ok h] at hb
  obtain ⟨u', hb', hr⟩ := hf b u hb
  exact ⟨u', bind_eq_ok.mpr ⟨a', t', h', hb'⟩, hr⟩

theorem Follows.of_ok {R : α → σ → σ → Prop} (h : x s = .ok a t) (h' : x' s' = .ok a t')
    (hr : R a t t') : Follows x x' s s' R := by
  intro b u hb
  rw [h] at hb
  cases hb
  exact ⟨t', h', hr⟩

/-- What one run is known to ensure. -/
theorem Follows.and_ensures {P : α → σ → Prop} {R : α → σ → σ → Prop} (h : Follows x x' s s' R)
    (he : Ensures x s P) : Follows x x' s s' fun a t t' => P a t ∧ R a t t' := by
  intro a t ht
  obtain ⟨t', ht', hr⟩ := h a t ht
  exact ⟨t', ht', he a t ht, hr⟩

/-- What the first run shows by returning may be used. -/
theorem Follows.of_ran {R : α → σ → σ → Prop} (h : ∀ a t, x s = .ok a t → Follows x x' s s' R) :
    Follows x x' s s' R := by
  intro a t ht
  exact h a t ht a t ht

theorem follows_check {c : Prop} [Decidable c] {R : Unit → σ → σ → Prop} (h : c → R () s s') :
    Follows (check e c) (check e c) s s' R := by
  intro v t ht
  obtain ⟨hc, rfl⟩ := check_eq_ok.mp ht
  exact ⟨s', check_true hc s', h hc⟩

end Prog
