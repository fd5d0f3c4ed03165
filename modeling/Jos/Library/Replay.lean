import Mathlib.Data.List.Basic

/-! Runs in which one part of the state is what its own steps make of it. -/
namespace Replay

variable {σ α β μ : Type}

/-- Steps in a row, with their labels. -/
inductive Run (Step : σ → α → σ → Prop) : σ → List α → σ → Prop
  | nil {s : σ} : Run Step s [] s
  | cons {s t u : σ} {a : α} {as : List α} : Step s a t → Run Step t as u → Run Step s (a :: as) u

/-- The labels that concern a part, each applied to it in turn. -/
def replay (own : α → Option β) (act : μ → β → μ) (as : List α) (x : μ) : μ := (as.filterMap own).foldl act x

variable {Step : σ → α → σ → Prop} {Inv : σ → Prop} {Good : α → Prop} {view : σ → μ}
  {own : α → Option β} {act : μ → β → μ} {s t : σ} {a : α} {b : β} {as : List α} {x : μ}

@[simp] theorem replay_nil : replay own act [] x = x := rfl

theorem replay_cons_none (h : own a = none) : replay own act (a :: as) x = replay own act as x := by
  rw [replay, List.filterMap_cons_none h, replay]

theorem replay_cons_some (h : own a = some b) :
    replay own act (a :: as) x = replay own act as (act x b) := by
  rw [replay, List.filterMap_cons_some h, List.foldl_cons, replay]

/-- Where a step with a label of the part's own acts on it, and any other leaves it alone, a run replays
the part's own labels. -/
theorem Run.replays
    (hstep : ∀ s a t, Inv s → Good a → Step s a t → Inv t ∧ view t = replay own act [a] (view s))
    (hrun : Run Step s as t) (hs : Inv s) (hgood : ∀ a ∈ as, Good a) :
    Inv t ∧ view t = replay own act as (view s) := by
  induction hrun with
  | nil => exact ⟨hs, rfl⟩
  | @cons s t u a as hone _ ih =>
    obtain ⟨ht, hview⟩ := hstep s a t hs (hgood a List.mem_cons_self) hone
    obtain ⟨hu, hlast⟩ := ih ht fun b hb => hgood b (List.mem_cons_of_mem a hb)
    refine ⟨hu, ?_⟩
    rw [hlast, hview]
    cases h : own a with
    | none => rw [replay_cons_none h, replay_cons_none h, replay_nil]
    | some b => rw [replay_cons_some h, replay_cons_some h, replay_nil]

end Replay
