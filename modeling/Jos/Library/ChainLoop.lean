import Jos.Library.Chain
import Jos.Library.Prog

/-! The loop that follows a linked structure and only reads it. -/
namespace Prog

variable {ε σ α β : Type}

/-- Visit what the link leads to, for at most the given number of rounds. -/
def chainLoop (spin : ε) (visit : α → Prog ε σ (β × Option α)) : Nat → Option α → Prog ε σ (List β)
  | _, none => pure []
  | 0, some _ => stop spin
  | rounds + 1, some p => do
    let (row, next) ← visit p
    let rows ← chainLoop spin visit rounds next
    pure (row :: rows)

variable {spin : ε} {visit : α → Prog ε σ (β × Option α)} {link : α → Option α} {R : α → β → Prop}
  {s t : σ} {head : Option α} {ps : List α} {rows : List β} {rounds : Nat}

/-- A loop that ends has visited a chain. -/
theorem chainLoop_chain
    (hvisit : ∀ p row next t, visit p s = .ok (row, next) t ↔ t = s ∧ R p row ∧ next = link p)
    (h : chainLoop spin visit rounds head s = .ok rows t) :
    t = s ∧ ∃ ps, Chain link head ps ∧ List.Forall₂ R ps rows := by
  induction rounds generalizing head rows t with
  | zero =>
    cases head with
    | none =>
      obtain ⟨rfl, rfl⟩ := pure_eq_ok.mp h
      exact ⟨rfl, [], rfl, .nil⟩
    | some p => exact absurd h stop_ne_ok
  | succ rounds ih =>
    cases head with
    | none =>
      obtain ⟨rfl, rfl⟩ := pure_eq_ok.mp h
      exact ⟨rfl, [], rfl, .nil⟩
    | some p =>
      rw [chainLoop] at h
      obtain ⟨⟨row, next⟩, u, hp, hrest⟩ := bind_eq_ok.mp h
      obtain ⟨rest, v, hloop, hlast⟩ := bind_eq_ok.mp hrest
      obtain ⟨rfl, rfl⟩ := pure_eq_ok.mp hlast
      obtain ⟨rfl, hrow, rfl⟩ := (hvisit _ _ _ _).mp hp
      obtain ⟨rfl, ps, hps, hrows⟩ := ih hloop
      exact ⟨rfl, p :: ps, ⟨rfl, hps⟩, .cons hrow hrows⟩

/-- A chain is followed to its end, if there are enough rounds for it. -/
theorem chainLoop_ok
    (hvisit : ∀ p row next t, visit p s = .ok (row, next) t ↔ t = s ∧ R p row ∧ next = link p)
    (h : Chain link head ps) (hrows : List.Forall₂ R ps rows) (hrounds : ps.length ≤ rounds) :
    chainLoop spin visit rounds head s = .ok rows s := by
  induction ps generalizing head rows rounds with
  | nil =>
    cases hrows
    cases h
    cases rounds <;> rfl
  | cons p ps ih =>
    obtain ⟨rfl, h⟩ := h
    cases hrows with
    | cons hrow hrest =>
      obtain ⟨rounds, rfl⟩ : ∃ k, rounds = k + 1 := ⟨rounds - 1, by rw [List.length_cons] at hrounds; omega⟩
      rw [List.length_cons, Nat.add_le_add_iff_right] at hrounds
      rw [chainLoop, bind_ok ((hvisit _ _ _ _).mpr ⟨rfl, hrow, rfl⟩), bind_ok (ih h hrest hrounds)]
      rfl

/-- With a round for every node there can be, the loop ends exactly when it is on a chain. -/
theorem chainLoop_eq_ok
    (hvisit : ∀ p row next t, visit p s = .ok (row, next) t ↔ t = s ∧ R p row ∧ next = link p)
    (hrounds : ∀ ps : List α, ps.Nodup → ps.length ≤ rounds) :
    chainLoop spin visit rounds head s = .ok rows t ↔
      t = s ∧ ∃ ps, Chain link head ps ∧ List.Forall₂ R ps rows := by
  constructor
  · exact chainLoop_chain hvisit
  · rintro ⟨rfl, ps, hps, hrows⟩
    exact chainLoop_ok hvisit hps hrows (hrounds ps hps.nodup)

end Prog
