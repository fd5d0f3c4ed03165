import Jos.Library.Simulation

/-! The loop `while (m >= l && !test(m)) m--` over signed indices, whose test only reads the state. -/
namespace Prog

variable {ε σ : Type}

/-- The loop, for at most the given number of rounds. -/
def scanBackFor (test : Int → Prog ε σ Bool) (l : Int) : Nat → Int → Prog ε σ Int
  | 0, m => pure m
  | rounds + 1, m =>
    if l ≤ m then do
      if ← test m then pure m else scanBackFor test l rounds (m - 1)
    else
      pure m

/-- From `m` down to `l` there are so many rounds. -/
def scanBack (test : Int → Prog ε σ Bool) (l m : Int) : Prog ε σ Int :=
  scanBackFor test l (m + 1 - l).toNat m

/-- Where the scan ends: at the last index of [l, m] that passes, or below `l`. -/
structure LastAt (P : Int → Bool) (l m j : Int) : Prop where
  le : j ≤ m
  none : ∀ i, j < i → i ≤ m → P i = false
  passes : l ≤ j → P j = true
  ge : l ≤ m + 1 → l - 1 ≤ j
  same : m < l → j = m

variable {test : Int → Prog ε σ Bool} {P : Int → Bool} {l m j j' : Int} {s : σ}

theorem LastAt.unique (h : LastAt P l m j) (h' : LastAt P l m j') : j = j' := by
  have hle := h.le
  have hle' := h'.le
  by_cases hm : m < l
  · rw [h.same hm, h'.same hm]
  · have hge := h.ge (by omega)
    have hge' := h'.ge (by omega)
    rcases Int.lt_trichotomy j j' with hlt | heq | hlt
    · have hp := h'.passes (by omega)
      rw [h.none j' hlt hle'] at hp
      cases hp
    · exact heq
    · have hp := h.passes (by omega)
      rw [h'.none j hlt hle] at hp
      cases hp

theorem lastAt_self (h : l ≤ m) (hp : P m = true) : LastAt P l m m where
  le := Int.le_refl m
  none := fun i h1 h2 => absurd h1 (by omega)
  passes := fun _ => hp
  ge := fun _ => by omega
  same := fun hlt => absurd hlt (by omega)

theorem lastAt_below (h : m < l) : LastAt P l m m where
  le := Int.le_refl m
  none := fun i h1 h2 => absurd h1 (by omega)
  passes := fun hle => absurd hle (by omega)
  ge := fun _ => by omega
  same := fun _ => rfl

theorem LastAt.pred (h : LastAt P l (m - 1) j) (hle : l ≤ m) (hp : P m = false) : LastAt P l m j where
  le := by
    have := h.le
    omega
  none := by
    intro i h1 h2
    by_cases him : i = m
    · rw [him, hp]
    · exact h.none i h1 (by omega)
  passes := h.passes
  ge := fun _ => h.ge (by omega)
  same := fun hlt => absurd hlt (by omega)

/-- With a test that only reads, the scan returns and ends where it should. -/
theorem scanBack_returns (h : ∀ i, l ≤ i → i ≤ m → test i s = .ok (P i) s) :
    ∃ j, scanBack test l m s = .ok j s ∧ LastAt P l m j := by
  unfold scanBack
  generalize hk : (m + 1 - l).toNat = rounds
  induction rounds generalizing m with
  | zero => exact ⟨m, rfl, lastAt_below (by omega)⟩
  | succ rounds ih =>
    have hle : l ≤ m := by omega
    rw [scanBackFor, if_pos hle, bind_ok (h m hle (Int.le_refl m))]
    cases hp : P m with
    | true => exact ⟨m, rfl, lastAt_self hle hp⟩
    | false =>
      obtain ⟨j, hj, hlast⟩ := ih (m := m - 1) (fun i h1 h2 => h i h1 (by omega)) (by omega)
      exact ⟨j, hj, hlast.pred hle hp⟩

/-- Below `l` nothing is tested. -/
theorem scanBack_none (h : m < l) : scanBack test l m s = .ok m s := by
  unfold scanBack
  rw [show (m + 1 - l).toNat = 0 by omega]
  rfl

/-- A single index. -/
theorem scanBack_single {b : Bool} (h : test m s = .ok b s) :
    scanBack test m m s = .ok (if b then m else m - 1) s := by
  unfold scanBack
  rw [show (m + 1 - m).toNat = 0 + 1 by omega, scanBackFor, if_pos (Int.le_refl m), bind_ok h]
  cases b <;> rfl

theorem scanBack_stop {e : ε} {t : σ} (hle : l ≤ m) (h : test m s = .stop e t) :
    scanBack test l m s = .stop e t := by
  unfold scanBack
  obtain ⟨rounds, hrounds⟩ : ∃ rounds, (m + 1 - l).toNat = rounds + 1 :=
    ⟨(m - l).toNat, by omega⟩
  rw [hrounds, scanBackFor, if_pos hle, bind_stop h]

/-- Tests that simulate each other make scans that do. -/
theorem scanBack_simulates {τ : Type} {S : Sim σ τ} {test' : Int → Prog ε τ Bool}
    (h : ∀ i, S.Simulates (test i) (test' i)) : S.Simulates (scanBack test l m) (scanBack test' l m) := by
  unfold scanBack
  generalize (m + 1 - l).toNat = rounds
  induction rounds generalizing m with
  | zero => exact Sim.simulates_pure m
  | succ rounds ih =>
    rw [scanBackFor, scanBackFor]
    refine Sim.simulates_ite (fun _ => (h m).bind fun b => ?_) fun _ => Sim.simulates_pure m
    cases b with
    | false => exact ih
    | true => exact Sim.simulates_pure m

end Prog
