import Jos.Kern.SysRuns
import Jos.Kern.UserMem

/-! user_mem_check in the reachable states: what the user may read where it returns 0. -/
namespace Jos

open Prog

variable {m : Machine} {mem : Nat → Nat → Word} {s : Kernel} {L : Ledger} {fl efl : List Nat}
  {d e i j p x : Nat} {va len : Word}

/-- Below ULIM, the kernel's map names pages of the boot heap. -/
theorem kernelMap_lt_heapEnd (hend : heapEnd m < 65536) (hx : x < 958 * 1024)
    (hp : target (kernelMap m x) = some p) : p < heapEnd m := by
  have hep := envsPages_eq
  have hpp := pagesPages_le m
  unfold heapEnd at hend ⊢
  rw [kernelMap] at hp
  split at hp
  · rw [target_pageEntry (by omega) pteU_lt] at hp
    obtain rfl := Option.some.inj hp
    omega
  · split at hp
    · rw [target_pageEntry (by omega) pteU_lt] at hp
      obtain rfl := Option.some.inj hp
      omega
    · rw [if_neg (by omega), if_neg (by omega), target_zero] at hp
      cases hp

namespace System

/-- Every entry of a directory names a page there is. -/
theorem pde_lt (h : System m s L fl efl) (hd : d ∈ L.dirs) (hi : i < 1024)
    (hp : target (s.pde d i) = some p) : p < s.npages := by
  by_cases hlow : i < 955
  · exact (h.balanced.table d hd i (h.balanced.own_user d hd i hlow) p hp).1
  by_cases hself : i = 957
  · subst hself
    have hlt := h.balanced.dir_lt d hd
    have hle := h.balanced.npages_le
    rw [h.self d hd, selfEntry, BitVec.or_assoc, target_entry (by omega) (by decide) (by decide)] at hp
    obtain rfl := Option.some.inj hp
    exact hlt
  · have hown : i ∈ kernOwn := mem_kernOwn.mpr ⟨hi, hself⟩
    rw [h.upper d hd i hown (by omega)] at hp
    exact (h.balanced.table _ h.mem_kern i (h.own_kern ▸ hown) p hp).1

theorem installed (h : System m s L fl efl) (hd : d ∈ L.dirs) : Installed s d := by
  intro i hi t ht
  rw [pdx_ulim] at hi
  refine ⟨h.pde_lt hd (by omega) ht, fun j hj p hp => ?_⟩
  by_cases hself : i = 957
  · -- the UVPT window: the directory is its own table
    subst hself
    have hlt := h.balanced.dir_lt d hd
    have hle := h.balanced.npages_le
    rw [h.self d hd, selfEntry, BitVec.or_assoc, target_entry (by omega) (by decide) (by decide)] at ht
    obtain rfl := Option.some.inj ht
    exact h.pde_lt hd hj hp
  · rw [← Kernel.pte_of_target ht] at hp
    by_cases hlow : i < 955
    · exact h.balanced.mapped d hd i hlow j hj p hp
    · have hfits := h.fits
      have hle := h.balanced.npages_le
      rw [h.pte_upper hd (mem_kernOwn.mpr ⟨by omega, hself⟩) (by omega) hj] at hp
      have hlt := kernelMap_lt_heapEnd (m := m) (by omega) (by omega) hp
      omega

/-- Every directory entry that is present lets the user through. -/
theorem userCanRead_of_passes (h : System m s L fl efl) (hd : d ∈ L.dirs) (hp : Passes s d pteU va) :
    UserCanRead s.mem d va := by
  obtain ⟨hP, hU⟩ := hp
  unfold Kernel.entryOf at hP hU
  refine userCanRead_iff.mpr ⟨hP, ?_, hU⟩
  by_cases hself : pdx va = 957
  · rw [hself, h.self d hd, selfEntry, BitVec.or_assoc, has_entry (by decide)]
    decide
  rcases h.pdes d hd (pdx va) (mem_kernOwn.mpr ⟨pdx_lt va, hself⟩) with hzero | ⟨q, hq⟩
  · rw [Kernel.pte_of_no_table (by rw [hzero, target_zero])] at hP
    exact absurd hP not_has_zero
  · rw [hq, tableEntry_eq, has_entry (by decide)]
    decide

theorem passes_of_userCanRead (h : UserCanRead s.mem d va) : Passes s d pteU va := by
  obtain ⟨hP, -, hU⟩ := userCanRead_iff.mp h
  exact ⟨hP, hU⟩

end System

/-- Where user_mem_check returns 0, the user may read all of va, va + 1, ..., va + len - 1. -/
def CheckSound (s : Kernel) (e d : Nat) (va len : Word) : Prop :=
  ∀ t, userMemCheck e va len pteU s = .ok 0 t →
    ∀ a, va.toNat ≤ a → a < va.toNat + len.toNat →
      a < ulim.toNat ∧ UserCanRead s.mem d (BitVec.ofNat 32 a)

theorem checkSound_iff_of_system (h : System m s L fl efl) (he : (s.envs e).envPgdir = some d)
    (hd : d ∈ L.dirs) (hlen : 1 ≤ len.toNat) :
    CheckSound s e d va len ↔ va.toNat + len.toNat < 2 ^ 32 ∨ ulim < va + len := by
  have hva := va.isLt
  have hmax := ulim_lt_two_pow
  have hfault : (-eFault : Int) ≠ 0 := by decide
  by_cases hlim : ulim < va + len
  · -- it fails at once
    refine ⟨fun _ => Or.inr hlim, fun _ t hrun => ?_⟩
    rw [userMemCheck_above s e pteU hlim] at hrun
    cases hrun
  by_cases hwrap : va.toNat + len.toNat < 2 ^ 32
  · refine ⟨fun _ => Or.inl hwrap, fun _ t hrun a hlo hhi => ?_⟩
    have hsum : (va + len).toNat = va.toNat + len.toNat := by
      rw [BitVec.toNat_add, Nat.mod_eq_of_lt hwrap]
    rw [BitVec.lt_def, hsum] at hlim
    have hbelow : va.toNat + len.toNat ≤ ulim.toNat := by omega
    rcases userMemCheck_below he (h.installed hd) hbelow pteU with ⟨hall, -⟩ | ⟨b, -, -, -, hfail⟩
    · have hnat : (BitVec.ofNat 32 a).toNat = a := by
        rw [BitVec.toNat_ofNat, Nat.mod_eq_of_lt (by omega)]
      have hin : InRange va len (BitVec.ofNat 32 a) := by
        unfold InRange
        rw [hnat]
        exact ⟨hlo, hhi⟩
      exact ⟨by omega, h.userCanRead_of_passes hd (hall _ hin)⟩
    · rw [hfail] at hrun
      cases hrun
  · -- the sum has wrapped around: the loop does not run at all
    have hrun : userMemCheck e va len pteU s = .ok 0 s := by
      have hlt := len.isLt
      have hzero : (va + len).toNat - va.toNat = 0 := by
        rw [BitVec.toNat_add]
        omega
      rw [userMemCheck, Prog.ite_apply, if_neg hlim, hzero]
      rfl
    constructor
    · intro hsound
      have hlast := (hsound s hrun (va.toNat + len.toNat - 1) (by omega) (by omega)).1
      exact absurd hlast (by rw [show ulim.toNat = 958 * 2 ^ 22 by decide]; omega)
    · rintro (hlt | hgt)
      · exact absurd hlt hwrap
      · exact absurd hgt hlim

/-- The check is sound exactly where the end of the range does not wrap around to below ULIM. -/
theorem sysRun_checkSound_iff (h : SysRun m mem s) (hl : Live s e) (he : (s.envs e).envPgdir = some d)
    (hlen : 1 ≤ len.toNat) :
    CheckSound s e d va len ↔ va.toNat + len.toNat < 2 ^ 32 ∨ ulim < va + len := by
  obtain ⟨L, fl, efl, hsys⟩ := h.system
  exact checkSound_iff_of_system hsys he (hsys.env_mem hl he) hlen

theorem sysRun_checkSound_smallMachine : ∃ s e d, SysRun smallMachine (fun _ _ => 0) s ∧
    (CheckSound s e d 0x1000 0x1000 ↔
      (0x1000 : Word).toNat + (0x1000 : Word).toNat < 2 ^ 32 ∨ ulim < 0x1000 + 0x1000) := by
  obtain ⟨s, e, d, L, fl, efl, hrun, -, hl, he, -, -⟩ := emptyEnv_smallMachine
  exact ⟨s, e, d, hrun, sysRun_checkSound_iff hrun hl he (by decide)⟩

/-- The last byte of the address space passes, whatever the environment has mapped. -/
theorem not_checkSound : ¬ ∀ (m : Machine) (mem : Nat → Nat → Word) (s : Kernel) (e d : Nat)
    (va len : Word), SysRun m mem s → Live s e → (s.envs e).envPgdir = some d → 1 ≤ len.toNat →
    CheckSound s e d va len := by
  intro hall
  obtain ⟨s, e, d, L, fl, efl, hrun, hsys, hl, he, -, -⟩ := emptyEnv_smallMachine
  have h := hall _ _ s e d 0xFFFFFFFF 1 hrun hl he (by decide)
  rw [checkSound_iff_of_system hsys he (hsys.env_mem hl he) (by decide)] at h
  exact absurd h (by decide)

end Jos
