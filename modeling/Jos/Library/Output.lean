import Jos.Library.Prog

/-! Programs whose state is what they have put out so far. -/
namespace Prog

variable {ε κ α β : Type}

/-- The program returns `a` and appends exactly `out`, whatever is there already. -/
def Emits (x : Prog ε (List κ) α) (a : α) (out : List κ) : Prop := ∀ s, x s = .ok a (s ++ out)

/-- Put one item out. -/
def emit (c : κ) : Prog ε (List κ) Unit := update fun s => s ++ [c]

variable {x : Prog ε (List κ) α} {f : α → Prog ε (List κ) β} {a : α} {b : β} {out out' : List κ}

theorem emits_pure (a : α) : Emits (pure a : Prog ε (List κ) α) a [] := by
  intro s
  rw [List.append_nil]
  rfl

theorem emits_emit (c : κ) : Emits (emit c : Prog ε (List κ) Unit) () [c] := fun _ => rfl

theorem Emits.bind (hx : Emits x a out) (hf : Emits (f a) b out') :
    Emits (x >>= f) b (out ++ out') := by
  intro s
  rw [bind_ok (hx s), hf, List.append_assoc]

/-- A first part that puts nothing out. -/
theorem Emits.step (hx : Emits x a []) (hf : Emits (f a) b out) : Emits (x >>= f) b out := hx.bind hf

/-- A last part that puts nothing out. -/
theorem Emits.finish (hx : Emits x a out) (hf : Emits (f a) b []) : Emits (x >>= f) b out := by
  have h := hx.bind hf
  rwa [List.append_nil] at h

theorem Emits.det {a' : α} (h : Emits x a out) (h' : Emits x a' out') : a = a' ∧ out = out' := by
  have he := (h []).symm.trans (h' [])
  rw [List.nil_append, List.nil_append] at he
  cases he
  exact ⟨rfl, rfl⟩

/-- For all fuels from some bound on. -/
def Settles (P : Nat → Prop) : Prop := ∃ bound, ∀ fuel ≥ bound, P fuel

variable {P Q : Nat → Prop}

theorem Settles.mono (h : Settles P) (hpq : ∀ n, P n → Q n) : Settles Q := by
  obtain ⟨bound, hb⟩ := h
  exact ⟨bound, fun n hn => hpq n (hb n hn)⟩

theorem Settles.and (hp : Settles P) (hq : Settles Q) : Settles fun n => P n ∧ Q n := by
  obtain ⟨m, hm⟩ := hp
  obtain ⟨n, hn⟩ := hq
  refine ⟨max m n, fun k hk => ⟨hm k ?_, hn k ?_⟩⟩
  · exact Nat.le_trans (Nat.le_max_left m n) hk
  · exact Nat.le_trans (Nat.le_max_right m n) hk

theorem settles_of_forall (h : ∀ n, P n) : Settles P := ⟨0, fun n _ => h n⟩

/-- A round that leaves the rest of the fuel to what comes next. -/
theorem Settles.succ (h : Settles P) (hpq : ∀ n, P n → Q (n + 1)) : Settles Q := by
  obtain ⟨bound, hb⟩ := h
  refine ⟨bound + 1, fun n hn => ?_⟩
  obtain ⟨k, rfl⟩ : ∃ k, n = k + 1 := ⟨n - 1, by omega⟩
  exact hpq k (hb k (by omega))

/-- Two results that settle agree at some fuel. -/
theorem Settles.exists_both (hp : Settles P) (hq : Settles Q) : ∃ n, P n ∧ Q n := by
  obtain ⟨bound, hb⟩ := hp.and hq
  exact ⟨bound, hb bound (Nat.le_refl _)⟩

end Prog
