import Jos.Library.Prog
import Mathlib.Algebra.Group.Nat.Defs

/-! The loop `for (; v <= hi; v += step)` over machine words, whose body only reads the state. -/
namespace Prog

variable {ε σ α : Type} {w : Nat}

/-- The loop, for at most `fuel` rounds. Each round is listed with the value of the loop variable. -/
def rangeLoop (spin : ε) (hi step : BitVec w) (body : BitVec w → Prog ε σ α) :
    Nat → BitVec w → Prog ε σ (List (BitVec w × α))
  | 0, _ => stop spin
  | fuel + 1, v =>
    if v ≤ hi then do
      let r ← body v
      let rows ← rangeLoop spin hi step body fuel (v + step)
      pure ((v, r) :: rows)
    else
      pure []

/-- `u` is one of start, start + step, start + 2 * step, ... up to `hi`, without wrapping. -/
def InSteps (start step hi u : BitVec w) : Prop :=
  u ≤ hi ∧ ∃ k : Nat, u.toNat = start.toNat + k * step.toNat

/-- The values of the loop variable: those of the range, each once and in increasing order. -/
def Visits (start step hi : BitVec w) (vs : List (BitVec w)) : Prop :=
  vs.Pairwise (· < ·) ∧ ∀ u, u ∈ vs ↔ InSteps start step hi u

/-- The largest value of the range. -/
def lastStep (v step hi : Nat) : Nat := hi - (hi - v) % step

variable {spin : ε} {hi step v u : BitVec w} {body : BitVec w → Prog ε σ α} {s t : σ}
  {rows : List (BitVec w × α)} {vs : List (BitVec w)} {fuel : Nat}

theorem inSteps_start (h : v ≤ hi) : InSteps v step hi v := ⟨h, 0, by omega⟩

theorem InSteps.start_le (h : InSteps v step hi u) : v ≤ u := by
  obtain ⟨k, hk⟩ := h.2
  rw [BitVec.le_def, hk]
  exact Nat.le_add_right _ _

/-- A value of the range is its start or one of the range that begins a step later. -/
theorem inSteps_succ (h : v.toNat + step.toNat < 2 ^ w) :
    InSteps v step hi u ↔ (u = v ∧ v ≤ hi) ∨ InSteps (v + step) step hi u := by
  have hsum : (v + step).toNat = v.toNat + step.toNat := by
    rw [BitVec.toNat_add, Nat.mod_eq_of_lt h]
  constructor
  · rintro ⟨hu, k, hk⟩
    cases k with
    | zero =>
      have huv : u = v := BitVec.eq_of_toNat_eq (by omega)
      exact Or.inl ⟨huv, huv ▸ hu⟩
    | succ k =>
      refine Or.inr ⟨hu, k, ?_⟩
      rw [hk, hsum, Nat.succ_mul]
      omega
  · rintro (⟨rfl, hv⟩ | ⟨hu, k, hk⟩)
    · exact inSteps_start hv
    · refine ⟨hu, k + 1, ?_⟩
      rw [hk, hsum, Nat.succ_mul]
      omega

theorem visits_nil (h : ¬ v ≤ hi) : Visits v step hi [] := by
  refine ⟨List.Pairwise.nil, fun u => ⟨fun hu => absurd hu List.not_mem_nil, fun hu => ?_⟩⟩
  exact absurd (BitVec.le_trans hu.start_le hu.1) h

theorem Visits.cons (h : Visits (v + step) step hi vs) (hv : v ≤ hi) (hpos : 0 < step.toNat)
    (hw : v.toNat + step.toNat < 2 ^ w) : Visits v step hi (v :: vs) := by
  have hlt : v < v + step := by
    rw [BitVec.lt_def, BitVec.toNat_add, Nat.mod_eq_of_lt hw]
    omega
  constructor
  · refine List.Pairwise.cons (fun u hu => ?_) h.1
    have hle := ((h.2 u).mp hu).start_le
    rw [BitVec.lt_def] at hlt ⊢
    rw [BitVec.le_def] at hle
    omega
  · intro u
    rw [inSteps_succ hw, List.mem_cons, h.2 u]
    constructor
    · rintro (rfl | hu)
      · exact Or.inl ⟨rfl, hv⟩
      · exact Or.inr hu
    · rintro (⟨rfl, -⟩ | hu)
      · exact Or.inl rfl
      · exact Or.inr hu

section lastStep

variable {a b n : Nat}

/-- The last value stays the same one step later, where the range goes on. -/
theorem lastStep_add (h : a + n ≤ b) : lastStep (a + n) n b = lastStep a n b := by
  have hsub : b - a = b - (a + n) + n := by omega
  rw [lastStep, lastStep, hsub, Nat.add_mod_right]

theorem lastStep_end (hle : a ≤ b) (h : b < a + n) : lastStep a n b = a := by
  rw [lastStep, Nat.mod_eq_of_lt (by omega)]
  omega

theorem le_lastStep (h : a ≤ b) : a ≤ lastStep a n b := by
  have := Nat.mod_le (b - a) n
  unfold lastStep
  omega

theorem lastStep_le (a n b : Nat) : lastStep a n b ≤ b := Nat.sub_le b _

/-- The last value is a whole number of steps behind the start. -/
theorem lastStep_eq (h : a ≤ b) : lastStep a n b = a + (b - a) / n * n := by
  have hmod := Nat.mod_add_div (b - a) n
  rw [Nat.mul_comm n] at hmod
  unfold lastStep
  omega

/-- Wrapping keeps the last value, as the step divides the size of a word. -/
theorem lastStep_congr {c : Nat} (ha : a ≤ b) (hc : c ≤ b) (h : a % n = c % n) :
    lastStep a n b = lastStep c n b := by
  have hmod : (b - a) % n = (b - c) % n := by
    rcases Nat.le_total a c with hac | hca
    · obtain ⟨k, hk⟩ := Nat.dvd_of_mod_eq_zero (Nat.sub_mod_eq_zero_of_mod_eq h.symm)
      rw [show b - a = b - c + n * k by omega, Nat.add_mul_mod_self_left]
    · obtain ⟨k, hk⟩ := Nat.dvd_of_mod_eq_zero (Nat.sub_mod_eq_zero_of_mod_eq h)
      rw [show b - c = b - a + n * k by omega, Nat.add_mul_mod_self_left]
  rw [lastStep, lastStep, hmod]

end lastStep

theorem toNat_lastStep (v step hi : BitVec w) :
    (BitVec.ofNat w (lastStep v.toNat step.toNat hi.toNat)).toNat =
      lastStep v.toNat step.toNat hi.toNat :=
  Nat.mod_eq_of_lt (Nat.lt_of_le_of_lt (lastStep_le _ _ _) hi.isLt)

theorem inSteps_lastStep (h : v ≤ hi) :
    InSteps v step hi (BitVec.ofNat w (lastStep v.toNat step.toNat hi.toNat)) := by
  refine ⟨?_, _, (toNat_lastStep v step hi).trans (lastStep_eq h)⟩
  rw [BitVec.le_def, toNat_lastStep]
  exact lastStep_le _ _ _

/-- The loop ends, with the right values, when its last step does not wrap. -/
theorem rangeLoop_ends (hpos : 0 < step.toNat) (hzero : 0 < fuel)
    (hfuel : hi.toNat + 1 < fuel + v.toNat)
    (hbody : ∀ u, InSteps v step hi u → ∃ r, body u s = .ok r s)
    (hw : v ≤ hi → lastStep v.toNat step.toNat hi.toNat + step.toNat < 2 ^ w) :
    ∃ rows, rangeLoop spin hi step body fuel v s = .ok rows s ∧
      Visits v step hi (rows.map Prod.fst) := by
  induction fuel generalizing v with
  | zero => omega
  | succ fuel ih =>
    by_cases hv : v ≤ hi
    · have hle : v.toNat ≤ hi.toNat := hv
      have hlast := hw hv
      have hstep : v.toNat + step.toNat < 2 ^ w :=
        Nat.lt_of_le_of_lt (Nat.add_le_add_right (le_lastStep hle) _) hlast
      have hsum : (v + step).toNat = v.toNat + step.toNat := by
        rw [BitVec.toNat_add, Nat.mod_eq_of_lt hstep]
      have hnext : v + step ≤ hi →
          lastStep (v + step).toNat step.toNat hi.toNat + step.toNat < 2 ^ w := by
        intro hn
        have hn' : v.toNat + step.toNat ≤ hi.toNat := by rwa [BitVec.le_def, hsum] at hn
        rw [hsum, lastStep_add hn']
        exact hlast
      have hrest : ∀ u, InSteps (v + step) step hi u → ∃ r, body u s = .ok r s :=
        fun u hu => hbody u ((inSteps_succ hstep).mpr (Or.inr hu))
      obtain ⟨rows, hrows, hvis⟩ := ih (by omega) (by omega) hrest hnext
      obtain ⟨r, hr⟩ := hbody v (inSteps_start hv)
      refine ⟨(v, r) :: rows, ?_, hvis.cons hv hpos hstep⟩
      rw [rangeLoop, if_pos hv, bind_ok hr, bind_ok hrows]
      rfl
    · refine ⟨[], ?_, visits_nil hv⟩
      rw [rangeLoop, if_neg hv]
      rfl

/-- Only then does it end, however long it runs. -/
theorem rangeLoop_not_wrapped (hdvd : step.toNat ∣ 2 ^ w) (hv : v ≤ hi)
    (h : rangeLoop spin hi step body fuel v s = .ok rows t) :
    lastStep v.toNat step.toNat hi.toNat + step.toNat < 2 ^ w := by
  induction fuel generalizing v rows s t with
  | zero => exact absurd h stop_ne_ok
  | succ fuel ih =>
    rw [rangeLoop, if_pos hv] at h
    obtain ⟨r, s', -, h⟩ := bind_eq_ok.mp h
    obtain ⟨rest, t', hrest, -⟩ := bind_eq_ok.mp h
    have hle : v.toNat ≤ hi.toNat := hv
    have hlt := hi.isLt
    by_cases hn : v + step ≤ hi
    · have hn' : (v + step).toNat ≤ hi.toNat := hn
      have hmod : (v + step).toNat % step.toNat = v.toNat % step.toNat := by
        rw [BitVec.toNat_add, Nat.mod_mod_of_dvd _ hdvd, Nat.add_mod_right]
      rw [← lastStep_congr hn' hle hmod]
      exact ih hn hrest
    · -- past the bound without wrapping, since a wrapped value lies below the last one
      have hn' : hi.toNat < (v + step).toNat := by
        rw [BitVec.le_def] at hn
        omega
      have hs := step.isLt
      rw [BitVec.toNat_add] at hn'
      have hstep : v.toNat + step.toNat < 2 ^ w := by
        by_contra hc
        have hge : 2 ^ w ≤ v.toNat + step.toNat := Nat.le_of_not_lt hc
        rw [Nat.mod_eq_sub_mod hge, Nat.mod_eq_of_lt (by omega)] at hn'
        omega
      rw [Nat.mod_eq_of_lt hstep] at hn'
      rw [lastStep_end hle hn']
      exact hstep

/-- In a loop that ended, every round returned. -/
theorem rangeLoop_rounds (hobs : ∀ u, Observes (body u))
    (hw : v ≤ hi → lastStep v.toNat step.toNat hi.toNat + step.toNat < 2 ^ w)
    (h : rangeLoop spin hi step body fuel v s = .ok rows t) (hu : InSteps v step hi u) :
    ∃ r, body u s = .ok r s := by
  induction fuel generalizing v rows t with
  | zero => exact absurd h stop_ne_ok
  | succ fuel ih =>
    have hv : v ≤ hi := BitVec.le_trans hu.start_le hu.1
    have hle : v.toNat ≤ hi.toNat := hv
    have hlast := hw hv
    have hstep : v.toNat + step.toNat < 2 ^ w :=
      Nat.lt_of_le_of_lt (Nat.add_le_add_right (le_lastStep hle) _) hlast
    rw [rangeLoop, if_pos hv] at h
    obtain ⟨r, s', hr, h⟩ := bind_eq_ok.mp h
    obtain ⟨rest, t', hrest, -⟩ := bind_eq_ok.mp h
    obtain rfl := hobs v _ _ _ hr
    rcases (inSteps_succ hstep).mp hu with ⟨rfl, -⟩ | hu'
    · exact ⟨r, hr⟩
    · refine ih (fun hn => ?_) hrest hu'
      have hsum : (v + step).toNat = v.toNat + step.toNat := by
        rw [BitVec.toNat_add, Nat.mod_eq_of_lt hstep]
      have hn' : v.toNat + step.toNat ≤ hi.toNat := by rwa [BitVec.le_def, hsum] at hn
      rw [hsum, lastStep_add hn']
      exact hlast

theorem rangeLoop_observes (hobs : ∀ u, Observes (body u)) :
    Observes (rangeLoop spin hi step body fuel v) := by
  induction fuel generalizing v with
  | zero => exact observes_stop spin
  | succ fuel ih =>
    exact observes_ite ((hobs v).bind fun _ => ih.bind fun _ => observes_pure _) (observes_pure [])

/-- Each row of a loop that ended is what its round returned. -/
theorem rangeLoop_mem (hobs : ∀ u, Observes (body u))
    (h : rangeLoop spin hi step body fuel v s = .ok rows t) {r : α} (hr : (u, r) ∈ rows) :
    body u s = .ok r s := by
  induction fuel generalizing v rows t with
  | zero => exact absurd h stop_ne_ok
  | succ fuel ih =>
    rw [rangeLoop, ite_apply] at h
    split at h
    · obtain ⟨r', s', hround, h⟩ := bind_eq_ok.mp h
      obtain ⟨rest, t', hrest, h⟩ := bind_eq_ok.mp h
      obtain ⟨rfl, -⟩ := pure_eq_ok.mp h
      obtain rfl := hobs v _ _ _ hround
      rcases List.mem_cons.mp hr with he | hr
      · cases he
        exact hround
      · exact ih hrest hr
    · obtain ⟨rfl, -⟩ := pure_eq_ok.mp h
      cases hr

/-- With fuel for a whole turn of the loop variable: the loop ends, having taken exactly the
values of the range, when the last step does not wrap and every round returns. -/
theorem rangeLoop_ends_iff (hpos : 0 < step.toNat) (hdvd : step.toNat ∣ 2 ^ w) (hv : v ≤ hi)
    (hobs : ∀ u, Observes (body u)) (hfuel : 2 ^ w < fuel) :
    (∃ rows t, rangeLoop spin hi step body fuel v s = .ok rows t ∧
      Visits v step hi (rows.map Prod.fst)) ↔
    lastStep v.toNat step.toNat hi.toNat + step.toNat < 2 ^ w ∧
      ∀ u, InSteps v step hi u → ∃ r, body u s = .ok r s := by
  constructor
  · rintro ⟨rows, t, hrun, -⟩
    have hw := rangeLoop_not_wrapped hdvd hv hrun
    exact ⟨hw, fun u hu => rangeLoop_rounds hobs (fun _ => hw) hrun hu⟩
  · rintro ⟨hw, hbody⟩
    have hlt := hi.isLt
    obtain ⟨rows, hrun, hvis⟩ : ∃ rows, rangeLoop spin hi step body fuel v s = .ok rows s ∧
        Visits v step hi (rows.map Prod.fst) := rangeLoop_ends hpos (by omega) (by omega) hbody (fun _ => hw)
    exact ⟨rows, s, hrun, hvis⟩

end Prog
