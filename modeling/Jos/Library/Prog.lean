import Mathlib.Order.Defs.Unbundled
import Mathlib.Tactic.Common

/-! Sequential programs over an explicit state. A run returns a value or stops for good. -/
namespace Prog

variable {ε σ α β : Type}

/-- What a run ends in: a value and a state, or the state it stopped in and why. -/
inductive Outcome (ε σ α : Type) where
  | ok (a : α) (s : σ)
  | stop (e : ε) (s : σ)

end Prog

/-- A program reads a state and ends in an outcome. -/
structure Prog (ε σ α : Type) where
  run : σ → Prog.Outcome ε σ α

namespace Prog

variable {ε σ α β : Type}

instance : CoeFun (Prog ε σ α) (fun _ => σ → Outcome ε σ α) := ⟨Prog.run⟩

def ret (a : α) : Prog ε σ α := ⟨fun s => .ok a s⟩

def seq (x : Prog ε σ α) (f : α → Prog ε σ β) : Prog ε σ β :=
  ⟨fun s => match x s with
    | .ok a t => f a t
    | .stop e t => .stop e t⟩

instance : Monad (Prog ε σ) where
  pure := ret
  bind := seq

def read : Prog ε σ σ := ⟨fun s => .ok s s⟩

def update (f : σ → σ) : Prog ε σ Unit := ⟨fun s => .ok () (f s)⟩

def stop (e : ε) : Prog ε σ α := ⟨fun s => .stop e s⟩

/-- Continue when the check holds, stop otherwise. -/
def check (e : ε) (c : Prop) [Decidable c] : Prog ε σ Unit := if c then pure () else stop e

variable {x : Prog ε σ α} {f : α → Prog ε σ β} {s t u : σ} {a : α} {b : β} {e : ε}

theorem pure_apply (a : α) (s : σ) : (pure a : Prog ε σ α) s = .ok a s := rfl

theorem bind_apply (x : Prog ε σ α) (f : α → Prog ε σ β) (s : σ) :
    (x >>= f) s = match x s with
      | .ok a t => f a t
      | .stop e t => .stop e t := rfl

theorem read_apply (s : σ) : (read : Prog ε σ σ) s = .ok s s := rfl

theorem update_apply (g : σ → σ) (s : σ) : (update g : Prog ε σ Unit) s = .ok () (g s) := rfl

theorem stop_apply (e : ε) (s : σ) : (stop e : Prog ε σ α) s = .stop e s := rfl

theorem check_apply (e : ε) (c : Prop) [Decidable c] (s : σ) :
    (check e c : Prog ε σ Unit) s = if c then .ok () s else .stop e s := by
  unfold check
  split <;> rfl

theorem check_true {c : Prop} [Decidable c] (hc : c) (s : σ) :
    (check e c : Prog ε σ Unit) s = .ok () s := by
  rw [check_apply, if_pos hc]

theorem ite_apply (c : Prop) [Decidable c] (x y : Prog ε σ α) (s : σ) :
    (if c then x else y) s = if c then x s else y s := by
  split <;> rfl

theorem bind_ok (h : x s = .ok a t) : (x >>= f) s = f a t := by
  rw [bind_apply, h]

theorem bind_stop (h : x s = .stop e t) : (x >>= f) s = .stop e t := by
  rw [bind_apply, h]

theorem bind_ok_iff (h : x s = .ok a t) : (x >>= f) s = .ok b u ↔ f a t = .ok b u := by
  rw [bind_ok h]

/-- A sequence returns exactly when its first part does and then the rest does. -/
theorem bind_eq_ok : (x >>= f) s = .ok b u ↔ ∃ a t, x s = .ok a t ∧ f a t = .ok b u := by
  rw [bind_apply]
  cases x s <;> simp

theorem pure_eq_ok {a' : α} : (pure a : Prog ε σ α) s = .ok a' t ↔ a = a' ∧ s = t := by
  simp [pure_apply]

theorem read_eq_ok : (read : Prog ε σ σ) s = .ok u t ↔ s = u ∧ s = t := by
  simp [read_apply]

theorem update_eq_ok {g : σ → σ} {v : Unit} :
    (update g : Prog ε σ Unit) s = .ok v t ↔ g s = t := by
  simp [update_apply]

theorem stop_ne_ok : (stop e : Prog ε σ α) s ≠ .ok a t := by
  simp [stop_apply]

theorem check_eq_ok {c : Prop} [Decidable c] {v : Unit} :
    (check e c : Prog ε σ Unit) s = .ok v t ↔ c ∧ s = t := by
  rw [check_apply]
  split <;> simp_all

/-- The same program, with other names for why it stops. -/
def mapStop {δ : Type} (g : ε → δ) (x : Prog ε σ α) : Prog δ σ α :=
  ⟨fun s => match x s with
    | .ok a t => .ok a t
    | .stop e t => .stop (g e) t⟩

theorem mapStop_ok {δ : Type} {g : ε → δ} (h : x s = .ok a t) : mapStop g x s = .ok a t := by
  change (match x s with | .ok a t => Outcome.ok a t | .stop e t => .stop (g e) t) = _
  rw [h]

/-! Partial and total postconditions of one run. -/

/-- If the run returns, the postcondition holds; a run that stops satisfies it. -/
def Ensures (x : Prog ε σ α) (s : σ) (Q : α → σ → Prop) : Prop := ∀ a t, x s = .ok a t → Q a t

/-- The run returns, and the postcondition holds. -/
def Returns (x : Prog ε σ α) (s : σ) (Q : α → σ → Prop) : Prop := ∃ a t, x s = .ok a t ∧ Q a t

theorem Ensures.mono {Q R : α → σ → Prop} (h : Ensures x s Q) (hqr : ∀ a t, Q a t → R a t) :
    Ensures x s R :=
  fun a t ht => hqr a t (h a t ht)

theorem Ensures.bind {Q : α → σ → Prop} {R : β → σ → Prop} (h : Ensures x s Q)
    (hf : ∀ a t, Q a t → Ensures (f a) t R) : Ensures (x >>= f) s R := by
  intro b u hb
  obtain ⟨a, t, ha, hb⟩ := bind_eq_ok.mp hb
  exact hf a t (h a t ha) b u hb

/-- A first part whose outcome is known. -/
theorem Ensures.step {R : β → σ → Prop} (h : x s = .ok a t) (hf : Ensures (f a) t R) :
    Ensures (x >>= f) s R := by
  intro b u hb
  exact hf b u ((bind_ok_iff h).mp hb)

theorem Returns.mono {Q R : α → σ → Prop} (h : Returns x s Q) (hqr : ∀ a t, Q a t → R a t) :
    Returns x s R := by
  obtain ⟨a, t, ht, hq⟩ := h
  exact ⟨a, t, ht, hqr a t hq⟩

theorem Returns.bind {Q : α → σ → Prop} {R : β → σ → Prop} (h : Returns x s Q)
    (hf : ∀ a t, Q a t → Returns (f a) t R) : Returns (x >>= f) s R := by
  obtain ⟨a, t, ha, hq⟩ := h
  obtain ⟨b, u, hb, hr⟩ := hf a t hq
  exact ⟨b, u, bind_eq_ok.mpr ⟨a, t, ha, hb⟩, hr⟩

/-- A first part whose outcome is known. -/
theorem Returns.step {R : β → σ → Prop} (h : x s = .ok a t) (hf : Returns (f a) t R) :
    Returns (x >>= f) s R := by
  obtain ⟨b, u, hb, hr⟩ := hf
  exact ⟨b, u, bind_eq_ok.mpr ⟨a, t, h, hb⟩, hr⟩

theorem Returns.of_ok {Q : α → σ → Prop} (h : x s = .ok a t) (hq : Q a t) : Returns x s Q :=
  ⟨a, t, h, hq⟩

/-- The run returns, and the postcondition holds, except that it stops when `C` does hold. -/
def ReturnsUnless (C : Prop) (x : Prog ε σ α) (s : σ) (Q : α → σ → Prop) : Prop :=
  Returns x s Q ∨ (C ∧ ∀ a t, x s ≠ .ok a t)

theorem ReturnsUnless.mono {C D : Prop} {Q R : α → σ → Prop} (h : ReturnsUnless C x s Q)
    (hcd : C → D) (hqr : ∀ a t, Q a t → R a t) : ReturnsUnless D x s R := by
  rcases h with h | ⟨hc, h⟩
  · exact Or.inl (h.mono hqr)
  · exact Or.inr ⟨hcd hc, h⟩

theorem ReturnsUnless.bind {C : Prop} {Q : α → σ → Prop} {R : β → σ → Prop}
    (h : ReturnsUnless C x s Q) (hf : ∀ a t, Q a t → ReturnsUnless C (f a) t R) :
    ReturnsUnless C (x >>= f) s R := by
  rcases h with ⟨a, t, ha, hq⟩ | ⟨hc, h⟩
  · rcases hf a t hq with ⟨b, u, hb, hr⟩ | ⟨hc, h⟩
    · exact Or.inl ⟨b, u, bind_eq_ok.mpr ⟨a, t, ha, hb⟩, hr⟩
    · refine Or.inr ⟨hc, fun b u hb => ?_⟩
      rw [bind_ok ha] at hb
      exact h b u hb
  · refine Or.inr ⟨hc, fun b u hb => ?_⟩
    obtain ⟨a, t, ha, -⟩ := bind_eq_ok.mp hb
    exact h a t ha

theorem ReturnsUnless.step {C : Prop} {R : β → σ → Prop} (h : x s = .ok a t)
    (hf : ReturnsUnless C (f a) t R) : ReturnsUnless C (x >>= f) s R := by
  refine ReturnsUnless.bind (Or.inl ⟨a, t, h, rfl, rfl⟩) (Q := fun b u => b = a ∧ u = t) ?_
  rintro b u ⟨rfl, rfl⟩
  exact hf

theorem ReturnsUnless.returns {C : Prop} {Q : α → σ → Prop} (h : ReturnsUnless C x s Q)
    (hc : ¬ C) : Returns x s Q :=
  h.resolve_right fun hs => hc hs.1

/-- A run is deterministic, so a returning run carries every partial postcondition. -/
theorem Returns.ensures {Q : α → σ → Prop} (h : Returns x s Q) : Ensures x s Q := by
  obtain ⟨a, t, ht, hq⟩ := h
  intro a' t' ht'
  rw [ht] at ht'
  cases ht'
  exact hq

theorem ReturnsUnless.ensures {C : Prop} {Q : α → σ → Prop} (h : ReturnsUnless C x s Q) :
    Ensures x s Q := by
  rcases h with h | ⟨-, h⟩
  · exact h.ensures
  · intro a t ht
    exact absurd ht (h a t)

theorem ReturnsUnless.of_ensures {C : Prop} {Q : α → σ → Prop} (he : Ensures x s Q)
    (hr : ¬ C → Returns x s Q) : ReturnsUnless C x s Q := by
  by_cases hc : C
  · by_cases hx : ∃ a t, x s = .ok a t
    · obtain ⟨a, t, ht⟩ := hx
      exact Or.inl ⟨a, t, ht, he a t ht⟩
    · exact Or.inr ⟨hc, fun a t ht => hx ⟨a, t, ht⟩⟩
  · exact Or.inl (hr hc)

/-- A program that changes nothing. -/
def Observes (x : Prog ε σ α) : Prop := ∀ s a t, x s = .ok a t → t = s

theorem Observes.bind (hx : Observes x) (hf : ∀ a, Observes (f a)) : Observes (x >>= f) := by
  intro s b u hrun
  obtain ⟨a, t, ht, hu⟩ := bind_eq_ok.mp hrun
  rw [hf a t b u hu, hx s a t ht]

theorem observes_pure (a : α) : Observes (pure a : Prog ε σ α) := by
  intro s b t ht
  exact (pure_eq_ok.mp ht).2.symm

theorem observes_read : Observes (read : Prog ε σ σ) := by
  intro s b t ht
  exact (read_eq_ok.mp ht).2.symm

theorem observes_check (e : ε) (c : Prop) [Decidable c] : Observes (check e c : Prog ε σ Unit) := by
  intro s b t ht
  exact (check_eq_ok.mp ht).2.symm

theorem observes_stop (e : ε) : Observes (stop e : Prog ε σ α) := by
  intro s b t ht
  exact absurd ht stop_ne_ok

theorem observes_ite {c : Prop} [Decidable c] {y : Prog ε σ α} (hx : Observes x)
    (hy : Observes y) : Observes (if c then x else y) := by
  split
  · exact hx
  · exact hy

/-- A program that leaves the part `v` of the state as it was. -/
def Keeps {ρ : Type} (v : σ → ρ) (x : Prog ε σ α) : Prop := ∀ s a t, x s = .ok a t → v t = v s

section keeps

variable {ρ : Type} {v : σ → ρ}

theorem Keeps.bind (hx : Keeps v x) (hf : ∀ a, Keeps v (f a)) : Keeps v (x >>= f) := by
  intro s b u hrun
  obtain ⟨a, t, ht, hu⟩ := bind_eq_ok.mp hrun
  rw [hf a t b u hu, hx s a t ht]

theorem Observes.keeps (h : Observes x) : Keeps v x := by
  intro s a t ht
  rw [h s a t ht]

/-- What is kept of a part is kept. -/
theorem Keeps.comp {κ : Type} (g : ρ → κ) (h : Keeps v x) : Keeps (fun s => g (v s)) x := by
  intro s a t ht
  exact congrArg g (h s a t ht)

theorem keeps_pure (a : α) : Keeps v (pure a : Prog ε σ α) := (observes_pure a).keeps

theorem keeps_read : Keeps v (read : Prog ε σ σ) := observes_read.keeps

theorem keeps_check (e : ε) (c : Prop) [Decidable c] : Keeps v (check e c : Prog ε σ Unit) :=
  (observes_check e c).keeps

theorem keeps_stop (e : ε) : Keeps v (stop e : Prog ε σ α) := (observes_stop e).keeps

theorem keeps_update {g : σ → σ} (h : ∀ s, v (g s) = v s) :
    Keeps v (update g : Prog ε σ Unit) := by
  intro s a t ht
  obtain rfl := update_eq_ok.mp ht
  exact h s

theorem keeps_ite {c : Prop} [Decidable c] {y : Prog ε σ α} (hx : Keeps v x) (hy : Keeps v y) :
    Keeps v (if c then x else y) := by
  split
  · exact hx
  · exact hy

end keeps

/-- A program whose runs end where the relation leads from where they start. -/
def Within (R : σ → σ → Prop) (x : Prog ε σ α) : Prop := ∀ s a t, x s = .ok a t → R s t

section within

variable {R : σ → σ → Prop}

theorem Within.bind [IsTrans σ R] (hx : Within R x) (hf : ∀ a, Within R (f a)) : Within R (x >>= f) := by
  intro s b u hrun
  obtain ⟨a, t, ht, hu⟩ := bind_eq_ok.mp hrun
  exact IsTrans.trans s t u (hx s a t ht) (hf a t b u hu)

theorem Observes.within [Std.Refl R] (h : Observes x) : Within R x := by
  intro s a t ht
  rw [h s a t ht]
  exact Std.Refl.refl s

theorem within_update {g : σ → σ} (h : ∀ s, R s (g s)) : Within R (update g : Prog ε σ Unit) := by
  intro s a t ht
  obtain rfl := update_eq_ok.mp ht
  exact h s

theorem within_ite {c : Prop} [Decidable c] {y : Prog ε σ α} (hx : Within R x) (hy : Within R y) :
    Within R (if c then x else y) := by
  split
  · exact hx
  · exact hy

end within

end Prog
