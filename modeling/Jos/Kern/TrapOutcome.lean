import Jos.Kern.CputsReads
import Jos.Kern.SyscallAbi

/-! What becomes of a trap from user mode: it comes back, an environment is destroyed, or the kernel
faults. -/
namespace Jos

open Prog

/-- The text for sys_cputs ends before anything that is not mapped. -/
def Printable (s : Kernel) (d : Nat) (va len : Word) : Prop :=
  ∃ n, (∀ j ≤ n, (s.byteAt d (va + BitVec.ofNat 32 j)).isSome) ∧
    (s.byteAt d (va + BitVec.ofNat 32 n) = some 0#8 ∨ (0 ≤ len.toInt ∧ n = len.toNat))

/-- The trap is a call of sys_cputs that passes its check and then reads what is not mapped. -/
def CputsFaults (s : Kernel) (d v : Nat) (r : Cpu) : Prop :=
  v = 48 ∧ r.eax = sysCputsNo ∧ LetThrough s d r.edx r.ecx ∧ r.edx ≠ 0 ∧ ¬ Printable s d r.edx r.ecx

/-- The trap of environment `c` ends environment `e`: an exception, a call of sys_cputs that fails its
check, or a permitted sys_env_destroy. -/
def TrapEnds (s : Kernel) (c d v : Nat) (r : Cpu) (e : Nat) : Prop :=
  (v ≠ 3 ∧ v ≠ 48 ∧ e = c) ∨
  (v = 48 ∧ r.eax = sysCputsNo ∧ ¬ LetThrough s d r.edx r.ecx ∧ e = c) ∨
  (v = 48 ∧ r.eax = sysEnvDestroyNo ∧ Permitted s c r.edx e)

/-- What a system call that comes back answers. -/
def answer (w : Outside) (s : Kernel) (c : Nat) (num : Word) : Word :=
  if num = sysCgetcNo then
    w.console
  else if num = sysGetenvidNo then
    (s.envs c).envId
  else if num = sysEnvDestroyNo then
    BitVec.ofInt 32 (-eBadEnv)
  else
    BitVec.ofInt 32 (-eNoSys)

/-- The trap `v` of environment `c`, taken from the registers `r`. -/
structure TrapOutcome (m : Machine) (w : Outside) (s : Kernel) (c d v : Nat) (err : Word)
    (r : Cpu) : Prop where
  faults : CputsFaults s d v r → ∃ u, takeTrap (syscall w) w v err r s = .stop kernelFault u
  ends : ∀ e, TrapEnds s c d v r e → ∃ u tf, takeTrap (syscall w) w v err r s = .stop .monitor u ∧
    ¬ Live u e ∧ (∀ i, i ≠ e → u.envs i = (s.saveTf c tf).envs i) ∧ ∃ L fl efl, System m u L fl efl
  resumes : ¬ CputsFaults s d v r → (∀ e, ¬ TrapEnds s c d v r e) → ∃ u, takeTrap (syscall w) w v err r s =
    .ok (if v = 48 then { r with eax := answer w s c r.eax } else r) u

section text

variable {m : Machine} {s : Kernel} {L : Ledger} {fl efl : List Nat} {d n fuel : Nat} {va len : Word}
  {precision : Int} {b : Byte}

theorem loadByte_none (h : s.byteAt s.cr3 va = none) : loadByte va s = .stop kernelFault s := by
  have hw : hwWalk s.mem s.cr3 va = none := by simpa [Kernel.byteAt] using h
  rw [loadByte, bind_ok (read_apply s)]
  simp only [hw]
  rfl

theorem printString_cases (s : Kernel) (fuel : Nat) (va : Word) (precision : Int) :
    (∃ n, (∀ j ≤ n, (s.byteAt s.cr3 (va + BitVec.ofNat 32 j)).isSome) ∧
      (s.byteAt s.cr3 (va + BitVec.ofNat 32 n) = some 0#8 ∨ (0 ≤ precision ∧ n = precision.toNat)) ∧
      ∃ out, printString fuel va precision s = .ok out s) ∨
    (∃ n, (∀ j < n, ∃ b, s.byteAt s.cr3 (va + BitVec.ofNat 32 j) = some b ∧ b ≠ 0#8) ∧
      s.byteAt s.cr3 (va + BitVec.ofNat 32 n) = none ∧ (0 ≤ precision → n ≤ precision.toNat) ∧
      printString fuel va precision s = .stop kernelFault s) ∨
    ∀ j < fuel, (s.byteAt s.cr3 (va + BitVec.ofNat 32 j)).isSome := by
  have hnext : ∀ (va : Word) (j : Nat), va + 1 + BitVec.ofNat 32 j = va + BitVec.ofNat 32 (j + 1) := by
    intro va j
    rw [BitVec.add_assoc]
    exact congrArg _ ((BitVec.add_comm _ _).trans (BitVec.ofNat_add j 1).symm)
  have hzero : ∀ va : Word, va + BitVec.ofNat 32 0 = va := BitVec.add_zero
  induction fuel generalizing va precision with
  | zero => exact Or.inr (Or.inr fun j hj => absurd hj (Nat.not_lt_zero j))
  | succ fuel ih =>
    cases hb : s.byteAt s.cr3 va with
    | none =>
      refine Or.inr (Or.inl ⟨0, fun j hj => absurd hj (Nat.not_lt_zero j), ?_, fun _ => Nat.zero_le _, ?_⟩)
      · rw [hzero, hb]
      · rw [printString, bind_stop (loadByte_none hb)]
    | some ch =>
      have hload := loadByte_ok hb
      have hat : ∀ (Q : Option Byte → Prop) (n : Nat), Q (some ch) →
          (∀ j < n, Q (s.byteAt s.cr3 (va + 1 + BitVec.ofNat 32 j))) →
          ∀ j < n + 1, Q (s.byteAt s.cr3 (va + BitVec.ofNat 32 j)) := by
        intro Q n h0 hs j hj
        cases j with
        | zero => rwa [hzero, hb]
        | succ j =>
          rw [← hnext]
          exact hs j (by omega)
      have hfirst : ∀ j ≤ 0, (s.byteAt s.cr3 (va + BitVec.ofNat 32 j)).isSome := by
        intro j hj
        rw [Nat.le_zero.mp hj, hzero, hb]
        rfl
      by_cases hch : ch = 0
      · refine Or.inl ⟨0, hfirst, Or.inl ?_, [], ?_⟩
        · rw [hzero, hb, hch]
          rfl
        · rw [printString, bind_ok hload, if_pos hch]
          rfl
      by_cases hend : precision = 0
      · refine Or.inl ⟨0, hfirst, Or.inr ⟨?_, ?_⟩, [], ?_⟩
        · omega
        · rw [hend]
          rfl
        · rw [printString, bind_ok hload, if_neg hch, if_neg (by omega), if_neg (by omega)]
          rfl
      -- the character counts, and the loop goes on behind it
      obtain ⟨q, hsign, hcount, hrun⟩ : ∃ q : Int, (0 ≤ precision ↔ 0 ≤ q) ∧
          (0 ≤ q → precision.toNat = q.toNat + 1) ∧ printString (fuel + 1) va precision s =
            (printString fuel (va + 1) q >>= fun rest => pure (ch :: rest)) s := by
        by_cases hneg : precision < 0
        · refine ⟨precision, Iff.rfl, fun h => by omega, ?_⟩
          rw [printString, bind_ok hload, if_neg hch, if_pos hneg]
        · refine ⟨precision - 1, by omega, fun h => by omega, ?_⟩
          rw [printString, bind_ok hload, if_neg hch, if_neg hneg, if_pos (by omega)]
      rcases ih (va + 1) q with ⟨n, hmap, hstop, out, hout⟩ | ⟨n, htext, hnone, hle, hout⟩ | hall
      · refine Or.inl ⟨n + 1, fun j hj => ?_, ?_, ch :: out, ?_⟩
        · exact hat (fun o => o.isSome) (n + 1) rfl (fun j hj => hmap j (by omega)) j (by omega)
        · rw [← hnext]
          exact hstop.imp_right fun h => ⟨hsign.mpr h.1, by rw [hcount h.1, h.2]⟩
        · rw [hrun, bind_ok hout]
          rfl
      · refine Or.inr (Or.inl ⟨n + 1, ?_, ?_, fun h => ?_, ?_⟩)
        · exact hat (fun o => ∃ b, o = some b ∧ b ≠ 0#8) n ⟨ch, rfl, hch⟩ htext
        · rw [← hnext, hnone]
        · have h1 := hle (hsign.mp h)
          have h2 := hcount (hsign.mp h)
          omega
        · rw [hrun, bind_stop hout]
      · exact Or.inr (Or.inr (hat (fun o => o.isSome) fuel rfl hall))

/-- There is nothing mapped right above MMIOLIM, so no text goes round the whole address space. -/
theorem System.byteAt_guard (h : System m s L fl efl) (hd : d ∈ L.dirs) :
    s.byteAt d (kstacktop - ptsize) = none := by
  have hdx : pdx (kstacktop - ptsize) = 959 := by decide
  have htx : ptx (kstacktop - ptsize) = 0 := by decide
  have hpte : s.pte d (pdx (kstacktop - ptsize)) (ptx (kstacktop - ptsize)) = 0#32 := by
    rw [hdx, htx, h.pte_upper hd (mem_kernOwn.mpr ⟨by decide, by decide⟩) (by decide) (by decide)]
    exact kernelMap_guard (m := m) (x := 959 * 1024 + 0) (by omega) (by omega)
  have hw : hwWalk s.mem d (kstacktop - ptsize) = none := hwWalk_eq_none.mpr (by rw [hpte, target_zero])
  rw [Kernel.byteAt, hw]
  rfl

/-- cprintf("%.*s", len, va) returns where the text can be printed, and faults where it cannot. -/
theorem System.cprintfString_outcome (h : System m s L fl efl) (hd : s.cr3 ∈ L.dirs) (va len : Word) :
    ((va = 0 ∨ Printable s s.cr3 va len) ∧ ∃ out, cprintfString len.toInt va s = .ok out s) ∨
    (va ≠ 0 ∧ ¬ Printable s s.cr3 va len ∧ cprintfString len.toInt va s = .stop kernelFault s) := by
  by_cases hva : va = 0
  · refine Or.inl ⟨Or.inl hva, if len.toInt < 0 then nullText else nullText.take len.toInt.toNat, ?_⟩
    rw [cprintfString, Prog.ite_apply, if_pos hva]
    rfl
  have hrun : cprintfString len.toInt va s = printString (2 ^ 32 + 1) va len.toInt s := by
    rw [cprintfString, Prog.ite_apply, if_neg hva]
  have hlen : 0 ≤ len.toInt → len.toInt.toNat = len.toNat := by
    intro hpos
    have hmsb := BitVec.toInt_eq_toNat_cond len
    split at hmsb <;> omega
  rcases printString_cases s (2 ^ 32 + 1) va len.toInt with
    ⟨n, hmap, hstop, out, hout⟩ | ⟨n, htext, hnone, hle, hout⟩ | hall
  · refine Or.inl ⟨Or.inr ⟨n, hmap, ?_⟩, out, hrun.trans hout⟩
    exact hstop.imp_right fun hc => ⟨hc.1, by rw [hc.2, hlen hc.1]⟩
  · refine Or.inr ⟨hva, ?_, hrun.trans hout⟩
    rintro ⟨k, hmap, hstop⟩
    by_cases hkn : n ≤ k
    · have hn := hmap n hkn
      rw [hnone] at hn
      cases hn
    · rcases hstop with hz | ⟨hpos, hk⟩
      · obtain ⟨b, hb, hb0⟩ := htext k (by omega)
        rw [hz] at hb
        exact hb0 (Option.some.inj hb).symm
      · have h1 := hle hpos
        have h2 := hlen hpos
        omega
  · have hg := hall (kstacktop - ptsize - va).toNat (by omega)
    have haddr : va + BitVec.ofNat 32 (kstacktop - ptsize - va).toNat = kstacktop - ptsize := by
      rw [BitVec.ofNat_toNat, BitVec.setWidth_eq, BitVec.add_comm, BitVec.sub_add_cancel]
    rw [haddr, h.byteAt_guard hd] at hg
    cases hg

end text

section outcome

variable {m : Machine} {s t u : Kernel} {L : Ledger} {fl efl : List Nat} {c d e v : Nat} {w : Outside}
  {r : Cpu} {err ret num a1 a2 a3 a4 a5 va len : Word} {tf : Trapframe}

/-- The way back to the program, once trap_dispatch has returned. -/
def comeBack (r : Cpu) : Kern Cpu := do
  trapReturn
  let s ← read
  let curenv ← deref s.curenv
  pure (envPopTf (s.envs curenv).envTf r)

theorem trapno_eq_iff (hv : v ∈ userVectors) {k : Nat} (hk : k < 49) :
    BitVec.ofNat 32 v = BitVec.ofNat 32 k ↔ v = k := by
  have hlt : ∀ v ∈ userVectors, v < 49 := by decide
  have hv' := hlt v hv
  rw [← BitVec.toNat_inj, BitVec.toNat_ofNat, BitVec.toNat_ofNat, Nat.mod_eq_of_lt (by omega),
    Nat.mod_eq_of_lt (by omega)]

def Cpu.trapFrame (r : Cpu) (v : Nat) (err : Word) : Trapframe :=
  r.frame (BitVec.ofNat 32 v) (if pushesError v then err else 0#32)

theorem handler_of_mem (hv : v ∈ userVectors) : ∃ h, trapHandlers.getD v none = some h := by
  have hgates : ∀ v ∈ userVectors, (trapHandlers.getD v none).isSome := by decide
  exact Option.isSome_iff_exists.mp (hgates v hv)

theorem takeTrap_user (w : Outside) (err : Word) (hmode : UserMode r) (hcur : s.curenv = some c)
    (hv : v ∈ userVectors) : takeTrap (syscall w) w v err r s =
      (trapDispatch w (some c) (r.trapFrame v err) >>= fun _ => comeBack r)
        (s.saveTf c (r.trapFrame v err)) := by
  obtain ⟨h, hh⟩ := handler_of_mem hv
  have hcs : (r.trapFrame v err).tfCs &&& 3 = 3 := hmode.1
  have henter : trapEnterOf (syscall w) w (r.trapFrame v err) s =
      trapDispatch w (some c) (r.trapFrame v err) (s.saveTf c (r.trapFrame v err)) := by
    rw [trapEnterOf, Prog.ite_apply, if_pos hcs, bind_ok (read_apply s)]
    simp only [hcur]
    rw [modifyEnv, bind_ok (update_apply _ s), trapDispatchOf_syscall]
    rfl
  rw [takeTrap]
  simp only [hh]
  rw [trapFrame_eq hv hh, ← Cpu.trapFrame, bind_apply, trapOf, bind_ok (check_true hmode.2 s), bind_apply,
    henter, bind_apply]
  cases trapDispatch w (some c) (r.trapFrame v err) (s.saveTf c (r.trapFrame v err)) with
  | stop e u => rfl
  | ok _ u =>
    simp only [comeBack]
    rw [bind_apply]

/-- Where nothing has happened to the saved registers, they come back with the environment. -/
theorem comeBack_eq {trapno : Word} (hcur : u.curenv = some c) (hst : (u.envs c).envStatus = .running)
    (htf : (u.envs c).envTf = r.frame trapno err) (hrun : envRun c u = .ok () t) :
    comeBack r u = .ok r t := by
  have hreturn : trapReturn u = .ok () t := by
    rw [trapReturn, bind_ok (read_apply u)]
    simp only [hcur]
    rw [bind_ok (check_true hst u)]
    exact hrun
  obtain ⟨-, hct, -⟩ := envRun_effect hrun
  have htf' : (t.envs c).envTf = r.frame trapno err := (envRun_frames hrun c).trans htf
  rw [comeBack, bind_ok hreturn, bind_ok (read_apply t), hct]
  simp only [deref]
  rw [bind_ok (pure_apply c t), htf', envPopTf_frame]
  rfl

theorem System.userMemAssert_outcome (h : System m s L fl efl) (he : (s.envs e).envPgdir = some d)
    (hd : d ∈ L.dirs) (va len : Word) :
    (LetThrough s d va len ∧ userMemAssert e va len pteU s = .ok () s) ∨
    (¬ LetThrough s d va len ∧ ∃ a, userMemAssert e va len pteU s =
      envDestroy e { s with userMemCheckAddr := a }) := by
  have hperm : pteU ||| pteU = pteU := by decide
  by_cases hlet : LetThrough s d va len
  · exact Or.inl ⟨hlet, (userMemAssert_eq_ok h he hd).mpr ⟨hlet, rfl⟩⟩
  refine Or.inr ⟨hlet, ?_⟩
  have hfails : ∀ a, userMemCheck e va len pteU s = .ok (-eFault) { s with userMemCheckAddr := a } →
      userMemAssert e va len pteU s = envDestroy e { s with userMemCheckAddr := a } := by
    intro a ha
    rw [userMemAssert, hperm, bind_ok ha, if_pos (show (-eFault : Int) < 0 by decide)]
  have hpasses : userMemCheck e va len pteU s ≠ .ok 0 s := by
    intro hrun
    refine hlet ((userMemAssert_eq_ok h he hd).mp (?_ : userMemAssert e va len pteU s = .ok () s)).1
    rw [userMemAssert, hperm, bind_ok hrun]
    rfl
  by_cases hlim : ulim < va + len
  · exact ⟨va, hfails _ (userMemCheck_above s e pteU hlim)⟩
  have hscan : userMemCheck e va len pteU s = userMemScan e pteU ((va + len).toNat - va.toNat) va s := by
    rw [userMemCheck, Prog.ite_apply, if_neg hlim]
  rw [BitVec.lt_def] at hlim
  rw [hscan] at hpasses
  by_cases hempty : (va + len).toNat ≤ va.toNat
  · rw [Nat.sub_eq_zero_of_le hempty] at hpasses
    exact absurd rfl hpasses
  rcases userMemScan_spec he (h.installed hd) pteU ((va + len).toNat - va.toNat) va (by omega) with
    ⟨-, hrun⟩ | ⟨k, -, -, -, hrun⟩
  · exact absurd hrun hpasses
  · exact ⟨_, hfails _ (hscan.trans hrun)⟩

theorem System.envDestroy_ends (h : System m s L fl efl) (hl : Live s e) :
    ∃ u, envDestroy e s = .stop .monitor u ∧ ¬ Live u e ∧ (∀ i, i ≠ e → u.envs i = s.envs i) ∧
      ∃ L fl efl, System m u L fl efl := by
  obtain ⟨d, hd, -⟩ := h.env_dir hl
  obtain ⟨⟨⟩, u, hfree, ⟨fl', hsys⟩, -⟩ := h.envFree hl hd
  obtain ⟨-, -, hu⟩ := envFree_effect hfree
  refine ⟨u, ?_, ?_, fun i hi => by rw [hu, Function.update_of_ne hi], _, fl', _, hsys⟩
  · rw [envDestroy, bind_ok hfree]
    rfl
  · rw [Live, hu, Function.update_self]
    exact fun hlive => hlive.2 rfl

/-- What syscall comes to in a running environment: it answers, it ends an environment, or it faults. -/
theorem System.syscall_outcome (h : System m s L fl efl) (hcur : s.curenv = some c) (hl : Live s c)
    (hd : (s.envs c).envPgdir = some s.cr3) (w : Outside) (r : Cpu) :
    (CputsFaults s s.cr3 48 r ∧
      syscall w r.eax r.edx r.ecx r.ebx r.edi r.esi s = .stop kernelFault s) ∨
    (∃ e a, TrapEnds s c s.cr3 48 r e ∧ Live s e ∧ syscall w r.eax r.edx r.ecx r.ebx r.edi r.esi s =
      (envDestroy e >>= fun _ => pure 0 : Kern Word) { s with userMemCheckAddr := a }) ∨
    (¬ CputsFaults s s.cr3 48 r ∧ (∀ e, ¬ TrapEnds s c s.cr3 48 r e) ∧
      syscall w r.eax r.edx r.ecx r.ebx r.edi r.esi s = .ok (answer w s c r.eax) s) := by
  have hdm : s.cr3 ∈ L.dirs := h.env_mem hl hd
  by_cases hputs : r.eax = sysCputsNo
  · have hnodestroy : r.eax ≠ sysEnvDestroyNo := by
      rw [hputs]
      decide
    have hanswer : answer w s c r.eax = BitVec.ofInt 32 (-eNoSys) := by
      rw [hputs]
      rfl
    rw [hanswer, hputs, syscall_cputs hcur]
    rcases h.userMemAssert_outcome hd hdm r.edx r.ecx with ⟨hlet, hrun⟩ | ⟨hlet, a, hrun⟩
    · rw [bind_ok hrun]
      rcases h.cprintfString_outcome hdm r.edx r.ecx with ⟨hprint, out, hout⟩ | ⟨hva, hprint, hout⟩
      · refine Or.inr (Or.inr ⟨fun hf => ?_, ?_, by rw [bind_ok hout]; rfl⟩)
        · exact hprint.elim hf.2.2.2.1 hf.2.2.2.2
        · rintro e (⟨-, h48, -⟩ | ⟨-, -, hnot, -⟩ | ⟨-, hdestroy, -⟩)
          · exact h48 rfl
          · exact hnot hlet
          · exact hnodestroy hdestroy
      · exact Or.inl ⟨⟨rfl, hputs, hlet, hva, hprint⟩, bind_stop hout⟩
    · refine Or.inr (Or.inl ⟨c, a, Or.inr (Or.inl ⟨rfl, hputs, hlet, rfl⟩), hl, ?_⟩)
      rw [bind_apply, hrun, bind_apply]
      cases hend : envDestroy c { s with userMemCheckAddr := a } with
      | stop x u => rfl
      | ok _ u => exact absurd hend envDestroy_ne_ok
  have hfaults : ¬ CputsFaults s s.cr3 48 r := fun hf => hputs hf.2.1
  by_cases hdestroy : r.eax = sysEnvDestroyNo
  · rcases h.envs.sysEnvDestroy_eq hcur hl r.edx with ⟨e, hp, hrun⟩ | ⟨hnone, hrun⟩
    · refine Or.inr (Or.inl ⟨e, s.userMemCheckAddr, Or.inr (Or.inr ⟨rfl, hdestroy, hp⟩), ?_, ?_⟩)
      · exact hp.elim (fun hself => hself.1 ▸ hl) And.left
      · rw [hdestroy, syscall_envDestroy, bind_apply, hrun, bind_apply, bind_apply]
        cases envDestroy e s with
        | stop x u => rfl
        | ok _ u => rfl
    · refine Or.inr (Or.inr ⟨hfaults, ?_, ?_⟩)
      · rintro e (⟨-, h48, -⟩ | ⟨-, hno, -⟩ | ⟨-, -, hp⟩)
        · exact h48 rfl
        · exact hputs hno
        · exact hnone ⟨e, hp⟩
      · rw [hdestroy, syscall_envDestroy, bind_ok hrun]
        rfl
  refine Or.inr (Or.inr ⟨hfaults, ?_, ?_⟩)
  · rintro e (⟨-, h48, -⟩ | ⟨-, hno, -⟩ | ⟨-, hno, -⟩)
    · exact h48 rfl
    · exact hputs hno
    · exact hdestroy hno
  · rw [syscall, answer, Prog.ite_apply, if_neg hputs]
    by_cases hgetc : r.eax = sysCgetcNo
    · rw [Prog.ite_apply, if_pos hgetc, if_pos hgetc]
      rfl
    by_cases hid : r.eax = sysGetenvidNo
    · rw [Prog.ite_apply, if_neg hgetc, if_neg hgetc, Prog.ite_apply, if_pos hid, if_pos hid, sysGetenvid,
        bind_ok (read_apply s), hcur]
      rfl
    · rw [Prog.ite_apply, if_neg hgetc, if_neg hgetc, Prog.ite_apply, if_neg hid, if_neg hid, Prog.ite_apply,
        if_neg hdestroy, if_neg hdestroy]
      rfl

theorem EnvTable.permitted_unique {envid : Word} {e' : Nat} (h : EnvTable s efl) (hl : Live s c)
    (hp : Permitted s c envid e) (hp' : Permitted s c envid e') : e = e' := by
  have hnamed : ∀ {i}, Permitted s c envid i →
      (i = c ∧ envid = 0) ∨ (Live s i ∧ (s.envs i).envId = envid) := by
    rintro i (⟨rfl, h0 | hid⟩ | ⟨hli, hid, -⟩)
    · exact Or.inl ⟨rfl, h0⟩
    · exact Or.inr ⟨hl, hid⟩
    · exact Or.inr ⟨hli, hid⟩
  have hpos : ∀ {i}, Live s i → (s.envs i).envId ≠ 0 := by
    intro i hi hz
    have hi' := (h.live i hi.1 (h.live_iff.mp hi).2).1
    rw [hz] at hi'
    exact absurd hi' (by decide)
  rcases hnamed hp with ⟨rfl, h0⟩ | ⟨hli, hid⟩
  · rcases hnamed hp' with ⟨rfl, -⟩ | ⟨hlj, hjd⟩
    · rfl
    · exact absurd (hjd.trans h0) (hpos hlj)
  · rcases hnamed hp' with ⟨rfl, h0⟩ | ⟨hlj, hjd⟩
    · exact absurd (hid.trans h0) (hpos hli)
    · rw [← h.envx_eq hli, ← h.envx_eq hlj, hid, hjd]

theorem TrapEnds.unique {e' : Nat} (ht : EnvTable s efl) (hl : Live s c) (h : TrapEnds s c d v r e)
    (h' : TrapEnds s c d v r e') : e = e' := by
  have hne : sysCputsNo ≠ sysEnvDestroyNo := by decide
  rcases h with ⟨-, h48, rfl⟩ | ⟨hv, hno, -, rfl⟩ | ⟨hv, hno, hp⟩
  · rcases h' with ⟨-, -, rfl⟩ | ⟨hv, -⟩ | ⟨hv, -⟩
    · rfl
    · exact absurd hv h48
    · exact absurd hv h48
  · rcases h' with ⟨-, -, rfl⟩ | ⟨-, -, -, rfl⟩ | ⟨-, hno', -⟩
    · rfl
    · rfl
    · exact absurd (hno.symm.trans hno') hne
  · rcases h' with ⟨-, h48, -⟩ | ⟨-, hno', -⟩ | ⟨-, -, hp'⟩
    · exact absurd hv h48
    · exact absurd (hno'.symm.trans hno) hne
    · exact ht.permitted_unique hl hp hp'

theorem saveTf_same (s : Kernel) (c : Nat) (tf : Trapframe) (d v : Nat) (r : Cpu) :
    (CputsFaults (s.saveTf c tf) d v r ↔ CputsFaults s d v r) ∧
      ∀ e, TrapEnds (s.saveTf c tf) c d v r e ↔ TrapEnds s c d v r e := by
  refine ⟨Iff.rfl, fun e => ?_⟩
  have hp : Permitted (s.saveTf c tf) c r.edx e ↔ Permitted s c r.edx e := permitted_saveTf
  rw [TrapEnds, TrapEnds, hp]
  rfl

theorem CputsFaults.not_ends (h : CputsFaults s d v r) : ¬ TrapEnds s c d v r e := by
  obtain ⟨hv, hno, hlet, -⟩ := h
  rintro (⟨-, h48, -⟩ | ⟨-, -, hnot, -⟩ | ⟨-, hno', -⟩)
  · exact h48 hv
  · exact hnot hlet
  · exact absurd (hno.symm.trans hno') (by decide)

theorem TrapOutcome.of_end {a : Word} (tf : Trapframe) (h : System m s L fl efl) (hl : Live s c)
    (hle : Live s e) (hend : TrapEnds s c d v r e)
    (hrun : ∀ u, envDestroy e { s.saveTf c tf with userMemCheckAddr := a } = .stop .monitor u →
      takeTrap (syscall w) w v err r s = .stop .monitor u) : TrapOutcome m w s c d v err r := by
  refine ⟨fun hf => absurd hend hf.not_ends, fun e' he' => ?_, fun _ hnone => absurd hend (hnone e)⟩
  obtain rfl := hend.unique h.envs hl he'
  have hsave : System m (s.saveTf c tf) L fl efl := h.setTf c tf
  have hsys : System m { s.saveTf c tf with userMemCheckAddr := a } L fl efl :=
    hsave.congr (hsave.envs.congr rfl) rfl rfl rfl rfl rfl (fun _ => Iff.rfl) fun _ _ => rfl
  have hlive : Live { s.saveTf c tf with userMemCheckAddr := a } e := by
    change Live (s.saveTf c tf) e
    rw [Live, saveTf_envs]
    exact hle
  obtain ⟨u, hu, hgone, hrest, hfinal⟩ := hsys.envDestroy_ends hlive
  exact ⟨u, tf, hrun u hu, hgone, hrest, hfinal⟩

/-- What becomes of any trap but a breakpoint of the environment that runs. -/
theorem System.trapOutcome (h : System m s L fl efl) (hcur : s.curenv = some c) (hl : Live s c)
    (hst : (s.envs c).envStatus = .running) (hd : (s.envs c).envPgdir = some s.cr3) (hmode : UserMode r)
    (hv : v ∈ userVectors) (h3 : v ≠ 3) (w : Outside) (err : Word) : TrapOutcome m w s c s.cr3 v err r := by
  have hself : ∀ tf, (s.saveTf c tf).envs c = { s.envs c with envTf := tf } := fun tf => by
    rw [saveTf_envs, if_pos rfl]
  by_cases h48 : v = 48
  · subst h48
    have htrap := takeTrap_syscall (r := r) hmode hcur (syscall w) w err
    have hsys : System m (s.atSyscall c r) L fl efl := h.setTf c _
    have henv := hself (r.frame tSyscall 0#32)
    have hl' : Live (s.atSyscall c r) c := ⟨hl.1, by rw [Kernel.atSyscall, henv]; exact hl.2⟩
    have hd' : ((s.atSyscall c r).envs c).envPgdir = some s.cr3 := by
      rw [Kernel.atSyscall, henv]
      exact hd
    obtain ⟨hfsame, hesame⟩ := saveTf_same s c (r.frame tSyscall 0#32) s.cr3 48 r
    rcases hsys.syscall_outcome hcur hl' hd' w r with ⟨hf, hrun⟩ | ⟨e, a, hend, hle, hrun⟩ | ⟨hf, hend, hrun⟩
    · have hf' := hfsame.mp hf
      refine ⟨fun _ => ⟨_, htrap.trans (bind_stop hrun)⟩, fun e he => absurd he hf'.not_ends,
        fun hnot => absurd hf' hnot⟩
    · refine TrapOutcome.of_end (a := a) (r.frame tSyscall 0#32) h hl ?_ ((hesame e).mp hend) ?_
      · rw [Live, Kernel.atSyscall, saveTf_envs] at hle
        exact hle
      · intro u hu
        rw [htrap, bind_stop]
        rw [hrun]
        exact bind_stop hu
    · refine ⟨fun hf' => absurd (hfsame.mpr hf') hf, fun e he => absurd ((hesame e).mpr he) (hend e),
        fun _ _ => ?_⟩
      obtain ⟨t, hback, -⟩ := resume_returns (u := s.atSyscall c r) (c := c) (r := r) hcur
        (by rw [Kernel.atSyscall, henv]; exact hst) hd' (by rw [Kernel.atSyscall, henv])
        (answer w (s.atSyscall c r) c r.eax)
      have hans : answer w (s.atSyscall c r) c r.eax = answer w s c r.eax := by
        rw [answer, answer, Kernel.atSyscall, henv]
      refine ⟨t, ?_⟩
      rw [htrap, bind_ok hrun, hback, hans, if_pos rfl]
  have htrap := takeTrap_user w err hmode hcur hv
  refine TrapOutcome.of_end (a := s.userMemCheckAddr) (r.trapFrame v err) h hl hl
    (Or.inl ⟨h3, h48, rfl⟩) fun u hu => ?_
  have hdestroy : destroyCurenv (s.saveTf c (r.trapFrame v err)) = .stop .monitor u := by
    rw [destroyCurenv, bind_ok (read_apply _)]
    change (deref s.curenv >>= _) _ = _
    rw [hcur]
    exact hu
  have huser : (r.trapFrame v err).tfCs &&& 3 = 3 := hmode.1
  have hgate : (r.trapFrame v err).tfCs ≠ gdKt := by
    intro hk
    rw [hk] at huser
    exact absurd huser (by decide)
  have hn3 : (r.trapFrame v err).tfTrapno ≠ tBrkpt :=
    fun hc => h3 ((trapno_eq_iff hv (by decide)).mp hc)
  have hn48 : (r.trapFrame v err).tfTrapno ≠ tSyscall :=
    fun hc => h48 ((trapno_eq_iff hv (by decide)).mp hc)
  rw [htrap]
  refine bind_stop ?_
  rw [trapDispatch, if_neg hn3]
  by_cases h14 : (r.trapFrame v err).tfTrapno = tPgflt
  · rw [if_pos h14, if_neg (not_not.mpr huser)]
    exact hdestroy
  · rw [if_neg h14, if_neg hn48, if_neg hgate]
    exact hdestroy

end outcome

end Jos
