import Jos.Library.Prog

/-! Programs that only read, and return exactly when each of a list of demands is met. -/
namespace Prog

variable {ε σ α β ι : Type}

/-- With every demand met the program returns a value of `Q` and has changed nothing; otherwise it
stops, for one of the bad reasons. -/
inductive Demands (met : ι → Prop) (bad : ε → Prop) (s : σ) (ds : List ι) (x : Prog ε σ α)
    (Q : α → Prop) : Prop
  | returns {a : α} (hmet : ∀ d ∈ ds, met d) (hx : x s = .ok a s) (hq : Q a)
  | stops {d : ι} {why : ε} (hd : d ∈ ds) (hnot : ¬ met d) (hbad : bad why) (hx : x s = .stop why s)

variable {met : ι → Prop} {bad : ε → Prop} {s : σ} {ds ds' : List ι} {x : Prog ε σ α}
  {f : α → Prog ε σ β} {Q : α → Prop} {P : β → Prop} {a : α}

theorem Demands.of_ok (hx : x s = .ok a s) (hq : Q a) : Demands met bad s [] x Q :=
  .returns (fun _ hd => absurd hd List.not_mem_nil) hx hq

theorem Demands.congr {y : Prog ε σ α} (h : Demands met bad s ds x Q) (heq : y s = x s) :
    Demands met bad s ds y Q := by
  cases h with
  | returns hmet hx hq => exact .returns hmet (heq.trans hx) hq
  | stops hd hnot hbad hx => exact .stops hd hnot hbad (heq.trans hx)

/-- One demand, met or not. -/
theorem demands_one {d : ι} (hok : met d → x s = .ok a s)
    (hstop : ¬ met d → ∃ why, bad why ∧ x s = .stop why s) : Demands met bad s [d] x (· = a) := by
  by_cases h : met d
  · exact .returns (fun d' hd => List.mem_singleton.mp hd ▸ h) (hok h) rfl
  · obtain ⟨why, hbad, hx⟩ := hstop h
    exact .stops List.mem_cons_self h hbad hx

/-- One after the other, both demand; the second starts with the demands of the first met. -/
theorem Demands.bind (h : Demands met bad s ds x Q)
    (hf : ∀ a, (∀ d ∈ ds, met d) → Q a → Demands met bad s ds' (f a) P) :
    Demands met bad s (ds ++ ds') (x >>= f) P := by
  cases h with
  | stops hd hnot hbad hx => exact .stops (List.mem_append_left _ hd) hnot hbad (bind_stop hx)
  | returns hmet hx hq =>
    have hrest := hf _ hmet hq
    cases hrest with
    | stops hd hnot hbad hy =>
      exact .stops (List.mem_append_right _ hd) hnot hbad ((bind_ok hx).trans hy)
    | returns hmet' hy hp =>
      refine .returns (fun d hd => ?_) ((bind_ok hx).trans hy) hp
      rcases List.mem_append.mp hd with hd | hd
      · exact hmet d hd
      · exact hmet' d hd

/-- What follows may demand nothing more. -/
theorem Demands.bind_ok (h : Demands met bad s ds x Q)
    (hf : ∀ a, (∀ d ∈ ds, met d) → Q a → ∃ b, f a s = .ok b s ∧ P b) :
    Demands met bad s ds (x >>= f) P := by
  rw [← List.append_nil ds]
  refine h.bind fun a hmet hq => ?_
  obtain ⟨b, hb, hp⟩ := hf a hmet hq
  exact .of_ok hb hp

theorem Demands.returns_of_met (h : Demands met bad s ds x Q) (hmet : ∀ d ∈ ds, met d) :
    ∃ a, x s = .ok a s ∧ Q a := by
  cases h with
  | returns _ hx hq => exact ⟨_, hx, hq⟩
  | stops hd hnot _ _ => exact absurd (hmet _ hd) hnot

theorem Demands.stops_of_not (h : Demands met bad s ds x Q) (hnot : ¬ ∀ d ∈ ds, met d) :
    ∃ why, bad why ∧ x s = .stop why s := by
  cases h with
  | returns hmet _ _ => exact absurd hmet hnot
  | stops _ _ hbad hx => exact ⟨_, hbad, hx⟩

/-- A first part whose outcome is known demands nothing. -/
theorem Demands.after (hx : x s = .ok a s) (h : Demands met bad s ds (f a) P) :
    Demands met bad s ds (x >>= f) P := by
  have hstart : Demands met bad s [] x (· = a) := .of_ok hx rfl
  refine hstart.bind fun b _ hb => ?_
  subst hb
  exact h

end Prog
