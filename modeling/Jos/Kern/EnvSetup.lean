import Jos.Kern.PmapSpec
import Jos.Kern.Env

/-! What env_setup_vm and env_alloc leave behind. -/
namespace Jos

open Prog

namespace Kernel

/-- The directory in page `p` after `n` entries above UTOP have been copied. -/
def copyDir (s : Kernel) (p : Nat) : Nat → Kernel
  | 0 => s
  | n + 1 => (s.copyDir p n).store p (pdx utop + n)
      ((s.copyDir p n).mem (s.copyDir p n).kernPgdir (pdx utop + n))

/-- env_setup_vm with page `p`, the head of the free list. -/
def setupVm (s : Kernel) (e p : Nat) : Kernel :=
  let u := ((s.fill p 1024 0#32).take p).incRef p
  ((u.setEnv e { u.envs e with envPgdir := some p }).copyDir p (npdentries - pdx utop)).store p
    (pdx uvpt) (page2pa p ||| pteP ||| pteU)

/-- env_alloc of slot `e`, once it has its directory. -/
def fillSlot (s : Kernel) (e : Nat) (parentId : Word) : Kernel :=
  let u := s.setEnv e
    { s.envs e with
      envId := nextEnvId (s.envs e).envId e
      envParentId := parentId
      envType := .user
      envStatus := .runnable
      envRuns := 0
      envTf := freshTrapframe }
  { u with envFreeList := (u.envs e).envLink }

end Kernel

section setup

variable {s : Kernel} {e p q j n : Nat} {parent : Word} {st : Option Nat}

theorem envPgdirPa_ok (h : (s.envs e).envPgdir = some p) : envPgdirPa e s = .ok p s := by
  rw [envPgdirPa, bind_ok (read_apply s)]
  simp only [h]
  rfl

/-- The copying changes memory and the event log only. -/
theorem copyDir_rest (s : Kernel) (p n : Nat) : s.copyDir p n =
    { s with mem := (s.copyDir p n).mem, log := (s.copyDir p n).log } := by
  induction n with
  | zero => rfl
  | succ n ih =>
    rw [Kernel.copyDir, ih]
    rfl

theorem copyDir_run (n : Nat) :
    forRange (fun k => copyKernelEntry p (pdx utop + k)) n s = .ok () (s.copyDir p n) := by
  induction n with
  | zero => rfl
  | succ n ih =>
    rw [forRange, bind_ok ih]
    rfl

theorem mem_copyDir (hp : p ≠ s.kernPgdir) (n : Nat) : (s.copyDir p n).mem q j =
    if q = p ∧ pdx utop ≤ j ∧ j < pdx utop + n then s.mem s.kernPgdir j else s.mem q j := by
  induction n generalizing q j with
  | zero =>
    rw [if_neg (by omega)]
    rfl
  | succ n ih =>
    have hk : (s.copyDir p n).kernPgdir = s.kernPgdir := by rw [copyDir_rest]
    rw [Kernel.copyDir, Kernel.mem_store, hk, ih, ih]
    by_cases h : q = p ∧ j = pdx utop + n
    · obtain ⟨rfl, rfl⟩ := h
      simp [Ne.symm hp]
    · rw [if_neg h]
      by_cases h' : q = p ∧ pdx utop ≤ j ∧ j < pdx utop + n
      · rw [if_pos h', if_pos ⟨h'.1, h'.2.1, by omega⟩]
      · rw [if_neg h', if_neg]
        rintro ⟨hq, h1, h2⟩
        exact h ⟨hq, by
          by_contra hne
          exact h' ⟨hq, h1, by omega⟩⟩

theorem setupVm_rest (s : Kernel) (e p : Nat) : s.setupVm e p =
    { s with
      pages := (((s.fill p 1024 0#32).take p).incRef p).pages
      pageFreeList := (((s.fill p 1024 0#32).take p).incRef p).pageFreeList
      envs := Function.update s.envs e { s.envs e with envPgdir := some p }
      mem := (s.setupVm e p).mem
      log := (s.setupVm e p).log } := by
  have hcopy : ∀ u : Kernel, ∃ mem log, u.copyDir p (npdentries - pdx utop) =
      { u with mem := mem, log := log } := fun u => ⟨_, _, copyDir_rest u p _⟩
  unfold Kernel.setupVm
  obtain ⟨mem, log, h⟩ := hcopy ((((s.fill p 1024 0#32).take p).incRef p).setEnv e
    { (((s.fill p 1024 0#32).take p).incRef p).envs e with envPgdir := some p })
  dsimp only
  rw [h]
  rfl

theorem envSetupVm_noMem (h : s.pageFreeList = none) : envSetupVm e s = .ok (-eNoMem) s := by
  rw [envSetupVm, bind_ok (pageAlloc_none h)]
  rfl

theorem envSetupVm_ok (h : s.pageFreeList = some p) (hp : p < s.npages) (hn : s.npages ≤ 65536) :
    envSetupVm e s = .ok 0 (s.setupVm e p) := by
  have ha : pageAlloc allocZero s = .ok (some p) ((s.fill p 1024 0#32).take p) :=
    pageAlloc_zero h (by decide) hp hn
  have hk : page2kva p (((s.fill p 1024 0#32).take p).incRef p) =
      .ok p (((s.fill p 1024 0#32).take p).incRef p) := page2kva_ok hp hn
  rw [envSetupVm, bind_ok ha]
  change (incRef p >>= _) _ = _
  rw [bind_ok (incRef_apply p _), bind_ok hk, modifyEnv, bind_ok (update_apply _ _),
    bind_ok (copyDir_run _), bind_ok (update_apply _ _)]
  rfl

theorem envAlloc_ok (he : s.envFreeList = some e) (h : s.pageFreeList = some p)
    (hp : p < s.npages) (hn : s.npages ≤ 65536) :
    envAlloc st parent s = .ok (0, some e) ((s.setupVm e p).fillSlot e parent) := by
  rw [envAlloc, bind_ok (read_apply s)]
  simp only [he]
  rw [bind_ok (envSetupVm_ok h hp hn), Prog.ite_apply, if_neg (by decide), modifyEnv,
    bind_ok (update_apply _ _), bind_ok (update_apply _ _)]
  rfl

/-- The directory env_setup_vm builds: empty below UTOP, the kernel's above, and its own entry. -/
theorem mem_setupVm (hp : p ≠ s.kernPgdir) : (s.setupVm e p).mem q j =
    if q = p ∧ j < 1024 then
      if j = pdx uvpt then selfEntry p else if pdx utop ≤ j then s.mem s.kernPgdir j else 0#32
    else s.mem q j := by
  have hself : page2pa p ||| pteP ||| pteU = selfEntry p := by
    rw [selfEntry, BitVec.or_assoc, BitVec.or_assoc, BitVec.or_comm pteP]
  have hu : pdx utop = 955 := by decide
  have hv : pdx uvpt = 957 := pdx_uvpt
  have hcopy := mem_copyDir (q := q) (j := j)
    (s := (((s.fill p 1024 0#32).take p).incRef p).setEnv e
      { (((s.fill p 1024 0#32).take p).incRef p).envs e with envPgdir := some p })
    hp (npdentries - pdx utop)
  unfold Kernel.setupVm
  rw [Kernel.mem_store, hcopy, hself, hu, hv]
  change (if q = p ∧ j = 957 then selfEntry p else
    if q = p ∧ 955 ≤ j ∧ j < 955 + (npdentries - 955) then (s.fill p 1024 0#32).mem s.kernPgdir j
      else (s.fill p 1024 0#32).mem q j) = _
  rw [Kernel.mem_fill_of_ne (Ne.symm hp), Kernel.mem_fill, npdentries]
  clear hcopy
  by_cases hq : q = p
  · subst hq
    by_cases hj : j < 1024
    · by_cases hj' : j = 957
      · simp [hj']
      · by_cases hj2 : 955 ≤ j
        · simp [hj, hj', hj2]
        · simp [hj, hj', hj2]
    · have h1 : j ≠ 957 := by omega
      simp [hj, h1]
  · simp [hq]

end setup

attribute [irreducible] Kernel.setupVm

end Jos
