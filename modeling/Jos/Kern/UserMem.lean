import Jos.Kern.PageLaws

/-! user_mem_check (kern/pmap.c): whether an environment may access a range of addresses. -/
namespace Jos

open Prog

def eFault : Int := 6

/-- A page fault taken by the kernel itself: trap_dispatch panics. -/
def kernelFault : Stop := .panic "Page fault triggered in kernel"

/-- The page directory `env->env_pgdir` points to. -/
def envPgdir (e : Nat) : Kern Nat := do
  let s ← read
  match (s.envs e).envPgdir with
  | none => stop kernelFault
  | some pgdir => pure pgdir

/-- Report the address at which the check fails. -/
def failAt (va : Word) : Kern Int := do
  update fun s => { s with userMemCheckAddr := va }
  pure (-eFault)

/-- The rest of user_mem_check's loop, `n` bytes before its end. -/
def userMemScan (e : Nat) (perm : Word) : Nat → Word → Kern Int
  | 0, _ => pure 0
  | n + 1, scanner => do
    let pgdir ← envPgdir e
    match ← pageLookup pgdir scanner with
    | (some _, some pte) =>
      let s ← read
      if Has (s.mem pte.page pte.idx) perm then
        userMemScan e perm n (scanner + 1)
      else
        failAt scanner
    | _ => failAt scanner

/-- user_mem_check. The loop runs while `scanner < va + len`, in 32-bit arithmetic. -/
def userMemCheck (e : Nat) (va len perm : Word) : Kern Int :=
  if ulim < va + len then
    failAt va
  else
    userMemScan e perm ((va + len).toNat - va.toNat) va

/-- The page-table entry of an address; zero where there is no table. -/
def Kernel.entryOf (s : Kernel) (pgdir : Nat) (va : Word) : Word := s.pte pgdir (pdx va) (ptx va)

/-- Below ULIM, every present entry names a page there is. -/
def Installed (s : Kernel) (pgdir : Nat) : Prop :=
  ∀ i < pdx ulim, ∀ t, target (s.pde pgdir i) = some t →
    t < s.npages ∧ ∀ j < 1024, ∀ p, target (s.mem t j) = some p → p < s.npages

/-- The entry is present and has a bit of the mask. -/
def Passes (s : Kernel) (pgdir : Nat) (perm va : Word) : Prop :=
  Has (s.entryOf pgdir va) pteP ∧ Has (s.entryOf pgdir va) perm

/-- The entry has every bit of the mask, and PTE_P. -/
def HasAll (s : Kernel) (pgdir : Nat) (perm va : Word) : Prop :=
  s.entryOf pgdir va &&& (perm ||| pteP) = perm ||| pteP

/-- `a` is one of the addresses va, va + 1, ..., va + len - 1. -/
def InRange (va len a : Word) : Prop := va.toNat ≤ a.toNat ∧ a.toNat < va.toNat + len.toNat

instance (va len a : Word) : Decidable (InRange va len a) := inferInstanceAs (Decidable (_ ∧ _))

/-- The page of the address is not open to the user, or the address is not below ULIM. -/
def Bad (s : Kernel) (pgdir : Nat) (a : Word) : Prop := ulim ≤ a ∨ ¬ Passes s pgdir pteU a

def FirstBad (s : Kernel) (pgdir : Nat) (va len a : Word) : Prop :=
  InRange va len a ∧ Bad s pgdir a ∧ ∀ b, InRange va len b → b < a → ¬ Bad s pgdir b

variable {s t : Kernel} {e d n k : Nat} {va len perm a b : Word}

theorem envPgdir_ok (h : (s.envs e).envPgdir = some d) : envPgdir e s = .ok d s := by
  rw [envPgdir, bind_ok (read_apply s)]
  simp only [h]
  rfl

theorem failAt_apply : failAt va s = .ok (-eFault) { s with userMemCheckAddr := va } := rfl

/-- page_lookup on a directory whose entries name installed pages. -/
theorem pageLookup_installed (h : Installed s d) (hva : va < ulim) :
    (¬ Has (s.entryOf d va) pteP ∧ ∃ r, pageLookup d va s = .ok (none, r) s) ∨
    (Has (s.entryOf d va) pteP ∧ ∃ pp r, pageLookup d va s = .ok (some pp, some r) s ∧
      s.mem r.page r.idx = s.entryOf d va) := by
  unfold Kernel.entryOf
  cases ht : target (s.pde d (pdx va)) with
  | none =>
    rw [Kernel.pte_of_no_table ht]
    exact Or.inl ⟨not_has_zero, _, pageLookup_noTable ht⟩
  | some t =>
    have hi : pdx va < pdx ulim := by
      rw [pdx_ulim]
      exact (lt_ulim_iff va).mp hva
    obtain ⟨hlt, hpages⟩ := h _ hi t ht
    rw [Kernel.pte_of_target ht]
    cases hp : target (s.mem t (ptx va)) with
    | none => exact Or.inl ⟨target_eq_none.mp hp, _, pageLookup_unmapped ht hlt hp⟩
    | some p =>
      exact Or.inr ⟨(target_eq_some.mp hp).1, p, _,
        pageLookup_mapped ht hlt hp (hpages _ (ptx_lt va) p hp), rfl⟩

theorem userMemScan_pass (he : (s.envs e).envPgdir = some d) (h : Installed s d) (hva : va < ulim)
    (hp : Passes s d perm va) :
    userMemScan e perm (n + 1) va s = userMemScan e perm n (va + 1) s := by
  rw [userMemScan, bind_ok (envPgdir_ok he)]
  rcases pageLookup_installed h hva with ⟨hnot, -⟩ | ⟨-, pp, r, hrun, hmem⟩
  · exact absurd hp.1 hnot
  · rw [bind_ok hrun]
    change (read >>= _) s = _
    rw [bind_ok (read_apply s), Prog.ite_apply, if_pos (hmem ▸ hp.2)]

theorem userMemScan_fail (he : (s.envs e).envPgdir = some d) (h : Installed s d) (hva : va < ulim)
    (hp : ¬ Passes s d perm va) :
    userMemScan e perm (n + 1) va s = .ok (-eFault) { s with userMemCheckAddr := va } := by
  rw [userMemScan, bind_ok (envPgdir_ok he)]
  rcases pageLookup_installed h hva with ⟨-, r, hrun⟩ | ⟨hP, pp, r, hrun, hmem⟩
  · rw [bind_ok hrun]
    exact failAt_apply
  · rw [bind_ok hrun]
    change (read >>= _) s = _
    rw [bind_ok (read_apply s), Prog.ite_apply, if_neg (hmem ▸ fun hq => hp ⟨hP, hq⟩)]
    exact failAt_apply

/-- The scan passes over every byte, or fails at the first one that does not pass. -/
theorem userMemScan_spec (he : (s.envs e).envPgdir = some d) (h : Installed s d) (perm : Word) (n : Nat)
    (va : Word) (hend : va.toNat + n ≤ ulim.toNat) :
    ((∀ k < n, Passes s d perm (va + BitVec.ofNat 32 k)) ∧ userMemScan e perm n va s = .ok 0 s) ∨
    ∃ k < n, (∀ j < k, Passes s d perm (va + BitVec.ofNat 32 j)) ∧
      ¬ Passes s d perm (va + BitVec.ofNat 32 k) ∧
      userMemScan e perm n va s =
        .ok (-eFault) { s with userMemCheckAddr := va + BitVec.ofNat 32 k } := by
  induction n generalizing va with
  | zero => exact Or.inl ⟨fun k hk => absurd hk (Nat.not_lt_zero k), rfl⟩
  | succ n ih =>
    have hzero : va + BitVec.ofNat 32 0 = va := by simp
    have hsucc : ∀ k, va + 1 + BitVec.ofNat 32 k = va + BitVec.ofNat 32 (k + 1) := by
      intro k
      bv_omega
    have hmax := ulim.isLt
    have hva : va < ulim := by
      rw [BitVec.lt_def]
      omega
    have hnext : (va + 1).toNat = va.toNat + 1 := by bv_omega
    by_cases hp : Passes s d perm va
    · have hstep := userMemScan_pass (n := n) he h hva hp
      rcases ih (va + 1) (by omega) with ⟨hall, hrun⟩ | ⟨k, hk, hbefore, hfail, hrun⟩
      · refine Or.inl ⟨?_, hstep.trans hrun⟩
        rintro (_ | k) hk
        · rwa [hzero]
        · rw [← hsucc]
          exact hall k (by omega)
      · refine Or.inr ⟨k + 1, by omega, ?_, ?_, ?_⟩
        · rintro (_ | j) hj
          · rwa [hzero]
          · rw [← hsucc]
            exact hbefore j (by omega)
        · rwa [← hsucc]
        · rw [← hsucc]
          exact hstep.trans hrun
    · refine Or.inr ⟨0, by omega, fun j hj => absurd hj (Nat.not_lt_zero j), ?_, ?_⟩
      · rwa [hzero]
      · rw [hzero]
        exact userMemScan_fail he h hva hp

theorem ulim_lt_two_pow : ulim.toNat < 2 ^ 32 := ulim.isLt

/-- The addresses of a range that does not wrap around. -/
theorem inRange_iff (hlen : va.toNat + len.toNat ≤ 2 ^ 32) :
    InRange va len a ↔ ∃ k < len.toNat, a = va + BitVec.ofNat 32 k := by
  constructor
  · rintro ⟨h1, h2⟩
    refine ⟨a.toNat - va.toNat, by omega, ?_⟩
    apply BitVec.eq_of_toNat_eq
    have := a.isLt
    rw [BitVec.toNat_add, BitVec.toNat_ofNat]
    omega
  · rintro ⟨k, hk, rfl⟩
    have := len.isLt
    unfold InRange
    rw [BitVec.toNat_add, BitVec.toNat_ofNat]
    omega

/-- Below ULIM the check scans exactly the range. -/
theorem userMemCheck_below (he : (s.envs e).envPgdir = some d) (h : Installed s d)
    (hlim : va.toNat + len.toNat ≤ ulim.toNat) (perm : Word) :
    ((∀ a, InRange va len a → Passes s d perm a) ∧ userMemCheck e va len perm s = .ok 0 s) ∨
    ∃ a, InRange va len a ∧ ¬ Passes s d perm a ∧
      (∀ b, InRange va len b → b < a → Passes s d perm b) ∧
      userMemCheck e va len perm s = .ok (-eFault) { s with userMemCheckAddr := a } := by
  have hmax := ulim_lt_two_pow
  have hsum : (va + len).toNat = va.toNat + len.toNat := by
    rw [BitVec.toNat_add]
    omega
  have hrun : userMemCheck e va len perm s = userMemScan e perm len.toNat va s := by
    rw [userMemCheck, Prog.ite_apply, if_neg, hsum, Nat.add_sub_cancel_left]
    rw [BitVec.lt_def, hsum]
    omega
  have hrange := fun a => inRange_iff (a := a) (show va.toNat + len.toNat ≤ 2 ^ 32 by omega)
  rcases userMemScan_spec he h perm len.toNat va hlim with
    ⟨hall, hscan⟩ | ⟨k, hk, hbefore, hfail, hscan⟩
  · refine Or.inl ⟨fun a ha => ?_, hrun.trans hscan⟩
    obtain ⟨k, hk, rfl⟩ := (hrange a).mp ha
    exact hall k hk
  · refine Or.inr ⟨_, (hrange _).mpr ⟨k, hk, rfl⟩, hfail, fun b hb hlt => ?_, hrun.trans hscan⟩
    obtain ⟨j, hj, rfl⟩ := (hrange b).mp hb
    apply hbefore
    rw [BitVec.lt_def, BitVec.toNat_add, BitVec.toNat_add, BitVec.toNat_ofNat,
      BitVec.toNat_ofNat] at hlt
    omega

theorem userMemCheck_above (s : Kernel) (e : Nat) (perm : Word) (hlim : ulim < va + len) :
    userMemCheck e va len perm s = .ok (-eFault) { s with userMemCheckAddr := va } := by
  rw [userMemCheck, Prog.ite_apply, if_pos hlim]
  exact failAt_apply

section demands

theorem HasAll.present (h : HasAll s d perm a) : Has (s.entryOf d a) pteP := by
  intro h0
  have hbit := congrArg (· &&& pteP) h
  simp only [BitVec.and_assoc] at hbit
  rw [show (perm ||| pteP) &&& pteP = pteP by ext i hi; simp +contextual, h0] at hbit
  exact absurd hbit (by decide)

theorem HasAll.has (h : HasAll s d perm a) (hperm : perm ≠ 0#32) : Has (s.entryOf d a) perm := by
  intro h0
  have hbit := congrArg (· &&& perm) h
  simp only [BitVec.and_assoc] at hbit
  rw [show (perm ||| pteP) &&& perm = perm by ext i hi; simp +contextual, h0] at hbit
  exact hperm hbit.symm

theorem hasAll_zero : HasAll s d 0#32 a ↔ Has (s.entryOf d a) pteP := by
  refine ⟨HasAll.present, fun h => ?_⟩
  have hodd : (s.entryOf d a &&& pteP).toNat = (s.entryOf d a).toNat % 2 := by
    rw [BitVec.toNat_and]
    exact Nat.and_one_is_mod _
  have hne : (s.entryOf d a &&& pteP).toNat ≠ 0 := fun h0 => h (BitVec.eq_of_toNat_eq h0)
  unfold HasAll
  rw [BitVec.zero_or]
  apply BitVec.eq_of_toNat_eq
  change _ = 1
  omega

/-- user_mem_check returns 0 exactly when every touched page has all the bits. -/
def DemandsAll (s : Kernel) (e d : Nat) (va len perm : Word) : Prop :=
  ∃ r t, userMemCheck e va len perm s = .ok r t ∧
    (r = 0 ↔ ∀ a, InRange va len a → HasAll s d perm a) ∧ (r ≠ 0 → r = -eFault)

/-- One bit of the mask on each page is enough for user_mem_check, so all are demanded exactly
when no touched page has some of them only. -/
theorem userMemCheck_demandsAll_iff (he : (s.envs e).envPgdir = some d) (h : Installed s d)
    (hlen : 1 ≤ len.toNat) (hlim : va.toNat + len.toNat ≤ ulim.toNat) :
    DemandsAll s e d va len perm ↔
      (∃ a, InRange va len a ∧ ¬ Has (s.entryOf d a) pteP) ∨
      (perm ≠ 0#32 ∧ ((∃ a, InRange va len a ∧ ¬ Has (s.entryOf d a) perm) ∨
        ∀ a, InRange va len a → HasAll s d perm a)) := by
  have hfirst : InRange va len va := ⟨Nat.le_refl _, by omega⟩
  have hne : (0 : Int) ≠ -eFault := by decide
  have hdet : ∀ {r : Int} {t : Kernel}, userMemCheck e va len perm s = .ok r t →
      (DemandsAll s e d va len perm ↔
        (r = 0 ↔ ∀ a, InRange va len a → HasAll s d perm a) ∧ (r ≠ 0 → r = -eFault)) := by
    intro r t hrun
    unfold DemandsAll
    simp only [hrun]
    constructor
    · rintro ⟨r', t', hrun', hr⟩
      cases hrun'
      exact hr
    · exact fun hr => ⟨r, t, rfl, hr⟩
  rcases userMemCheck_below he h hlim perm with ⟨hall, hrun⟩ | ⟨a, ha, hfail, -, hrun⟩
  · have hperm : perm ≠ 0#32 := by
      rintro rfl
      exact (hall va hfirst).2 BitVec.and_zero
    rw [hdet hrun]
    constructor
    · rintro ⟨hiff, -⟩
      exact Or.inr ⟨hperm, Or.inr (hiff.mp rfl)⟩
    · rintro (⟨a, ha, hP⟩ | ⟨-, ⟨a, ha, hbit⟩ | hbits⟩)
      · exact absurd (hall a ha).1 hP
      · exact absurd (hall a ha).2 hbit
      · exact ⟨⟨fun _ => hbits, fun _ => rfl⟩, fun h0 => absurd rfl h0⟩
  · rw [hdet hrun]
    have hiff : ((-eFault = 0 ↔ ∀ a, InRange va len a → HasAll s d perm a) ∧
        (-eFault ≠ 0 → -eFault = -eFault)) ↔ ¬ ∀ a, InRange va len a → HasAll s d perm a := by
      constructor
      · rintro ⟨h1, -⟩ hbits
        exact hne (h1.mpr hbits).symm
      · exact fun hn => ⟨⟨fun h0 => absurd h0.symm hne, fun hb => absurd hb hn⟩, fun _ => rfl⟩
    rw [hiff]
    constructor
    · intro hn
      by_cases hP : Has (s.entryOf d a) pteP
      · have hbit : ¬ Has (s.entryOf d a) perm := fun hb => hfail ⟨hP, hb⟩
        by_cases hperm : perm = 0#32
        · subst hperm
          rw [not_forall] at hn
          obtain ⟨b, hb⟩ := hn
          obtain ⟨hb, hnot⟩ := Classical.not_imp.mp hb
          exact Or.inl ⟨b, hb, fun hPb => hnot (hasAll_zero.mpr hPb)⟩
        · exact Or.inr ⟨hperm, Or.inl ⟨a, ha, hbit⟩⟩
      · exact Or.inl ⟨a, ha, hP⟩
    · rintro (⟨b, hb, hP⟩ | ⟨hperm, ⟨b, hb, hbit⟩ | hbits⟩) hbits'
      · exact hP (hbits' b hb).present
      · exact hbit ((hbits' b hb).has hperm)
      · exact hfail ⟨(hbits a ha).present, (hbits a ha).has hperm⟩

/-- An environment with one page, mapped read-only at address 0. -/
def readOnlyPage : Kernel :=
  { bss fun p i => if p = 1 ∧ i = 0 then 0x2007#32 else if p = 2 ∧ i = 0 then 0x3005#32 else 0#32 with
    npages := 4
    envs := fun _ => { zeroEnv with envPgdir := some 1 } }

theorem installed_readOnlyPage : Installed readOnlyPage 1 := by
  intro i _ t ht
  have hpde : readOnlyPage.pde 1 i = if i = 0 then 0x2007#32 else 0#32 := by
    by_cases h0 : i = 0 <;> simp [readOnlyPage, bss, Kernel.pde, h0]
  rw [hpde] at ht
  by_cases h0 : i = 0
  · rw [if_pos h0] at ht
    obtain rfl : 2 = t := Option.some.inj ht
    refine ⟨by decide, fun j _ p hp => ?_⟩
    have hpte : readOnlyPage.mem 2 j = if j = 0 then 0x3005#32 else 0#32 := by
      by_cases hj : j = 0 <;> simp [readOnlyPage, bss, hj]
    rw [hpte] at hp
    by_cases hj : j = 0
    · rw [if_pos hj] at hp
      obtain rfl : 3 = p := Option.some.inj hp
      decide
    · rw [if_neg hj, target_zero] at hp
      cases hp
  · rw [if_neg h0, target_zero] at ht
    cases ht

theorem entry_readOnlyPage : readOnlyPage.entryOf 1 0#32 = 0x3005#32 := by decide

theorem inRange_one (ha : InRange 0#32 1#32 a) : a = 0#32 := by
  apply BitVec.eq_of_toNat_eq
  have := ha.2
  simp only [BitVec.toNat_ofNat] at this ⊢
  omega

theorem userMemCheck_demandsAll_readOnlyPage : DemandsAll readOnlyPage 0 1 0#32 1#32 pteW := by
  refine (userMemCheck_demandsAll_iff rfl installed_readOnlyPage (by decide) (by decide)).mpr
    (Or.inr ⟨by decide, Or.inl ⟨0#32, by decide, ?_⟩⟩)
  rw [entry_readOnlyPage]
  decide

/-- The read-only page passes a check for reading and writing. -/
theorem not_userMemCheck_demandsAll :
    ¬ ∀ (s : Kernel) (e d : Nat) (va len perm : Word), (s.envs e).envPgdir = some d →
      Installed s d → 1 ≤ len.toNat → va.toNat + len.toNat ≤ ulim.toNat → perm.toNat < 4096 →
      DemandsAll s e d va len perm := by
  intro hall
  have hpass : Passes readOnlyPage 1 (pteU ||| pteW) 0#32 := by
    unfold Passes
    rw [entry_readOnlyPage]
    decide
  obtain ⟨r, t, hrun, hiff, -⟩ := hall readOnlyPage 0 1 0#32 1#32 (pteU ||| pteW) rfl
    installed_readOnlyPage (by decide) (by decide) (by decide)
  have hlim : (0#32 : Word).toNat + (1#32 : Word).toNat ≤ ulim.toNat := by decide
  rcases userMemCheck_below (e := 0) rfl installed_readOnlyPage hlim (pteU ||| pteW) with
    ⟨-, hzero⟩ | ⟨a, ha, hfail, -⟩
  · rw [hzero] at hrun
    cases hrun
    have hbits := hiff.mp rfl 0#32 (by decide)
    unfold HasAll at hbits
    rw [entry_readOnlyPage] at hbits
    exact absurd hbits (by decide)
  · rw [inRange_one ha] at hfail
    exact hfail hpass

end demands

section firstBad

/-- When user_mem_check fails, the address it reports is the first bad one. -/
def ReportsFirstBad (s : Kernel) (e d : Nat) (va len : Word) : Prop :=
  ∃ r t, userMemCheck e va len pteU s = .ok r t ∧
    (r = -eFault → FirstBad s d va len t.userMemCheckAddr)

/-- The early test against ULIM reports the start of the range, whatever is there; so the
report is right exactly when the range ends below ULIM or its start is bad already. -/
theorem userMemCheck_firstBad_iff (he : (s.envs e).envPgdir = some d) (h : Installed s d)
    (hlen : 1 ≤ len.toNat) (hmax : va.toNat + len.toNat ≤ 2 ^ 32 - 1) :
    ReportsFirstBad s e d va len ↔ va.toNat + len.toNat ≤ ulim.toNat ∨ Bad s d va := by
  have hfirst : InRange va len va := ⟨Nat.le_refl _, by omega⟩
  by_cases hlim : va.toNat + len.toNat ≤ ulim.toNat
  · refine ⟨fun _ => Or.inl hlim, fun _ => ?_⟩
    rcases userMemCheck_below he h hlim pteU with ⟨-, hrun⟩ | ⟨a, ha, hfail, hbefore, hrun⟩
    · exact ⟨_, _, hrun, fun h0 => absurd h0 (by decide)⟩
    · refine ⟨_, _, hrun, fun _ => ⟨ha, Or.inr hfail, ?_⟩⟩
      rintro b hb hlt (hge | hnot)
      · rw [BitVec.le_def] at hge
        have := hb.2
        omega
      · exact hnot (hbefore b hb hlt)
  · have hover : ulim < va + len := by
      rw [BitVec.lt_def, BitVec.toNat_add]
      omega
    have hrun := userMemCheck_above s e pteU hover
    constructor
    · rintro ⟨r, t, hrun', hr⟩
      rw [hrun] at hrun'
      cases hrun'
      exact Or.inr (hr rfl).2.1
    · rintro (hle | hbad)
      · exact absurd hle hlim
      · refine ⟨_, _, hrun, fun _ => ⟨hfirst, hbad, fun b hb hlt => ?_⟩⟩
        have hlt' : b.toNat < va.toNat := hlt
        have hge := hb.1
        omega

theorem passes_readOnlyPage : Passes readOnlyPage 1 pteU 0#32 := by
  unfold Passes
  rw [entry_readOnlyPage]
  decide

theorem userMemCheck_firstBad_readOnlyPage : ReportsFirstBad readOnlyPage 0 1 0#32 8192#32 :=
  (userMemCheck_firstBad_iff rfl installed_readOnlyPage (by decide) (by decide)).mpr
    (Or.inl (by decide))

/-- A range that starts in the readable page and crosses ULIM is reported at its good start. -/
theorem not_userMemCheck_firstBad :
    ¬ ∀ (s : Kernel) (e d : Nat) (va len : Word), (s.envs e).envPgdir = some d → Installed s d →
      1 ≤ len.toNat → va.toNat + len.toNat ≤ 2 ^ 32 - 1 → ReportsFirstBad s e d va len := by
  intro hall
  obtain ⟨r, t, hrun, hr⟩ := hall readOnlyPage 0 1 0#32 0xF0000000#32 rfl installed_readOnlyPage
    (by decide) (by decide)
  rw [userMemCheck_above _ _ _ (by decide)] at hrun
  cases hrun
  rcases (hr rfl).2.1 with hge | hnot
  · exact absurd hge (by decide)
  · exact hnot passes_readOnlyPage

end firstBad

end Jos
