import Jos.Library.Prog

/-! Programs that work on a part of a larger state. -/
namespace Prog

variable {ε δ σ τ α β : Type}

/-- Run a program on a part of the state, given by how it is read and replaced. -/
def zoom (g : ε → δ) (get : σ → τ) (put : τ → σ → σ) (x : Prog ε τ α) : Prog δ σ α :=
  ⟨fun s => match x (get s) with
    | .ok a v => .ok a (put v s)
    | .stop e v => .stop (g e) (put v s)⟩

variable {g : ε → δ} {get : σ → τ} {put : τ → σ → σ} {x : Prog ε τ α} {s t : σ} {v : τ} {a : α}

theorem zoom_ok (h : x (get s) = .ok a v) : zoom g get put x s = .ok a (put v s) := by
  change (match x (get s) with
    | .ok a v => Outcome.ok a (put v s)
    | .stop e v => .stop (g e) (put v s)) = _
  rw [h]

theorem zoom_stop {e : ε} (h : x (get s) = .stop e v) : zoom g get put x s = .stop (g e) (put v s) := by
  change (match x (get s) with
    | .ok a v => Outcome.ok a (put v s)
    | .stop e v => .stop (g e) (put v s)) = _
  rw [h]

/-- A part that is replaced and then read goes through a sequence. -/
theorem zoom_bind {f : α → Prog ε τ β} (hget : ∀ v s, get (put v s) = v)
    (hput : ∀ v w s, put w (put v s) = put w s) :
    zoom g get put (x >>= f) s = (zoom g get put x >>= fun a => zoom g get put (f a)) s := by
  cases hx : x (get s) with
  | stop e v => rw [zoom_stop (bind_stop hx), bind_stop (zoom_stop hx)]
  | ok a v =>
    rw [bind_ok (zoom_ok hx)]
    cases hf : f a v with
    | ok b w => rw [zoom_ok ((bind_ok hx).trans hf), zoom_ok (by rw [hget, hf]), hput]
    | stop e w => rw [zoom_stop ((bind_ok hx).trans hf), zoom_stop (by rw [hget, hf]), hput]

theorem zoom_eq_ok : zoom g get put x s = .ok a t ↔ ∃ v, x (get s) = .ok a v ∧ t = put v s := by
  constructor
  · intro h
    cases hx : x (get s) with
    | ok b v =>
      rw [zoom_ok hx] at h
      cases h
      exact ⟨v, rfl, rfl⟩
    | stop e v =>
      change (match x (get s) with
        | .ok a v => Outcome.ok a (put v s)
        | .stop e v => .stop (g e) (put v s)) = _ at h
      rw [hx] at h
      cases h
  · rintro ⟨v, hv, rfl⟩
    exact zoom_ok hv

end Prog
