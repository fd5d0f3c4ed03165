import Jos.Kern.Ledger

/-! How the processor translates an address: the two-level walk and the rights it grants. -/
namespace Jos

/-- A translation: the physical page, and the rights both levels agree on. -/
structure Translation where
  page : Nat
  user : Bool
  write : Bool
deriving DecidableEq

/-- The walk of the tables under the directory in page `pgdir`. -/
def hwWalk (mem : Nat → Nat → Word) (pgdir : Nat) (va : Word) : Option Translation :=
  let pde := mem pgdir (pdx va)
  if Has pde pteP then
    let pte := mem (pgnum pde) (ptx va)
    if Has pte pteP then
      some ⟨pgnum pte, Has pde pteU ∧ Has pte pteU, Has pde pteW ∧ Has pte pteW⟩
    else
      none
  else
    none

/-- The physical address `va` translates to. -/
def hwAddr (mem : Nat → Nat → Word) (pgdir : Nat) (va : Word) : Option Word :=
  (hwWalk mem pgdir va).map fun x => page2pa x.page + BitVec.ofNat 32 (pgoff va)

def UserCanRead (mem : Nat → Nat → Word) (pgdir : Nat) (va : Word) : Prop :=
  ∃ x, hwWalk mem pgdir va = some x ∧ x.user = true

def UserCanWrite (mem : Nat → Nat → Word) (pgdir : Nat) (va : Word) : Prop :=
  ∃ x, hwWalk mem pgdir va = some x ∧ x.user = true ∧ x.write = true

/-- The physical address a pte_t pointer stands for. -/
def PteRef.addr (r : PteRef) : Word := page2pa r.page + BitVec.ofNat 32 (4 * r.idx)

variable {mem : Nat → Nat → Word} {s : Kernel} {d t p : Nat} {va : Word} {x : Translation}

theorem hwWalk_absent (h : ¬ Has (mem d (pdx va)) pteP) : hwWalk mem d va = none := by
  simp [hwWalk, h]

theorem hwWalk_unmapped (h : ¬ Has (mem (pgnum (mem d (pdx va))) (ptx va)) pteP) :
    hwWalk mem d va = none := by
  simp [hwWalk, h]

theorem hwWalk_mapped (hd : Has (mem d (pdx va)) pteP)
    (ht : Has (mem (pgnum (mem d (pdx va))) (ptx va)) pteP) :
    hwWalk mem d va = some ⟨pgnum (mem (pgnum (mem d (pdx va))) (ptx va)),
      Has (mem d (pdx va)) pteU ∧ Has (mem (pgnum (mem d (pdx va))) (ptx va)) pteU,
      Has (mem d (pdx va)) pteW ∧ Has (mem (pgnum (mem d (pdx va))) (ptx va)) pteW⟩ := by
  simp [hwWalk, hd, ht]

/-- The walk is decided by the directory entry and the table entry behind it. -/
theorem hwWalk_eq_some : hwWalk s.mem d va = some x ↔
    target (s.pte d (pdx va) (ptx va)) = some x.page ∧
      x.user = decide (Has (s.pde d (pdx va)) pteU ∧ Has (s.pte d (pdx va) (ptx va)) pteU) ∧
      x.write = decide (Has (s.pde d (pdx va)) pteW ∧ Has (s.pte d (pdx va) (ptx va)) pteW) := by
  obtain ⟨page, user, write⟩ := x
  by_cases hd : Has (s.mem d (pdx va)) pteP
  · have hpte : s.pte d (pdx va) (ptx va) = s.mem (pgnum (s.mem d (pdx va))) (ptx va) := by
      simp [Kernel.pte, Kernel.pde, hd]
    rw [hpte, target_eq_some, Kernel.pde]
    by_cases ht : Has (s.mem (pgnum (s.mem d (pdx va))) (ptx va)) pteP
    · rw [hwWalk_mapped hd ht]
      simp [ht, eq_comm]
    · simp [hwWalk_unmapped ht, ht]
  · have hpte : s.pte d (pdx va) (ptx va) = 0#32 := by simp [Kernel.pte, Kernel.pde, hd]
    simp [hwWalk_absent hd, hpte]

/-- The walk ends in the page the two entries name. -/
theorem hwWalk_page :
    (hwWalk s.mem d va).map (·.page) = target (s.pte d (pdx va) (ptx va)) := by
  cases hw : hwWalk s.mem d va with
  | some x => exact (hwWalk_eq_some.mp hw).1.symm
  | none =>
    cases ht : target (s.pte d (pdx va) (ptx va)) with
    | none => rfl
    | some q =>
      have hsome : hwWalk s.mem d va = some ⟨q, _, _⟩ := hwWalk_eq_some.mpr ⟨ht, rfl, rfl⟩
      rw [hsome] at hw
      cases hw

theorem userCanRead_iff : UserCanRead s.mem d va ↔
    Has (s.pte d (pdx va) (ptx va)) pteP ∧ Has (s.pde d (pdx va)) pteU ∧
      Has (s.pte d (pdx va) (ptx va)) pteU := by
  unfold UserCanRead
  simp only [hwWalk_eq_some, target_eq_some]
  constructor
  · rintro ⟨x, ⟨⟨hP, -⟩, hu, -⟩, htrue⟩
    rw [htrue] at hu
    exact ⟨hP, of_decide_eq_true hu.symm⟩
  · rintro ⟨hP, hu⟩
    exact ⟨⟨_, _, _⟩, ⟨⟨hP, rfl⟩, rfl, rfl⟩, decide_eq_true hu⟩

theorem not_userCanWrite (h : ¬ Has (s.pde d (pdx va)) pteW) : ¬ UserCanWrite s.mem d va := by
  rintro ⟨x, hx, -, hw⟩
  have hx := (hwWalk_eq_some.mp hx).2.2
  rw [hw] at hx
  exact h (of_decide_eq_true hx.symm).1

end Jos
