import Jos.Kern.TrapEntry
import Jos.Kern.SysRuns

/-! The system call round trip: what trap finds of the user's registers, and what env_pop_tf puts
back. -/
namespace Jos

open Prog

/-- The program runs in user mode, with interrupts off. -/
def UserMode (r : Cpu) : Prop := r.cs &&& 3 = 3 ∧ r.eflags &&& flIf = 0

/-- The struct Trapframe that holds the registers `r`. -/
def Cpu.frame (r : Cpu) (trapno err : Word) : Trapframe where
  tfRegs := ⟨r.edi, r.esi, r.ebp, kstacktop - 36#32, r.ebx, r.edx, r.ecx, r.eax⟩
  tfEs := r.es
  tfDs := r.ds
  tfTrapno := trapno
  tfErr := err
  tfEip := r.eip
  tfCs := r.cs
  tfEflags := r.eflags
  tfEsp := r.esp
  tfSs := r.ss

/-- `curenv->env_tf = *tf`. -/
def Kernel.saveTf (s : Kernel) (c : Nat) (tf : Trapframe) : Kernel :=
  s.setEnv c { s.envs c with envTf := tf }

/-- The state in which the system call made from the registers `r` is handled. -/
def Kernel.atSyscall (s : Kernel) (c : Nat) (r : Cpu) : Kernel := s.saveTf c (r.frame tSyscall 0#32)

/-- What follows the return of syscall: its result is stored, and the environment resumed. -/
def resume (c : Nat) (r : Cpu) (ret : Word) : Kern Cpu := do
  storeEax (some c) ret
  trapReturn
  let s ← read
  let curenv ← deref s.curenv
  pure (envPopTf (s.envs curenv).envTf r)

section frames

variable {s t u : Kernel} {w : Outside} {r r' k : Cpu} {c v : Nat} {h : TrapHandler} {err ret : Word}
  {tf : Trapframe} {sys : SyscallHandler}

/-- The pushes leave the registers in the fields of struct Trapframe. -/
theorem trapFrame_eq (hv : v ∈ userVectors) (hh : trapHandlers.getD v none = some h) :
    trapFrame h v err r =
      r.frame (BitVec.ofNat 32 v) (if pushesError v then err else 0#32) := by
  have hall : ∀ v ∈ userVectors, ∀ h, trapHandlers.getD v none = some h →
      h = if pushesError v then .ec (BitVec.ofNat 32 v) else .noec (BitVec.ofNat 32 v) := by decide
  rw [hall v hv h hh]
  cases he : pushesError v <;>
    simp [trapFrame, hwPush, he, TrapHandler.push, alltraps, pushal, pushl, pushSeg, trapframeAt,
      Cpu.frame]

/-- env_pop_tf loads every register the frame has. -/
theorem envPopTf_frame (trapno err : Word) :
    envPopTf (k.frame trapno err) r = { k with fs := r.fs, gs := r.gs } := by
  simp [envPopTf, Cpu.frame, Trapframe.words, popal, popl, iret]

/-- Until trap_dispatch calls syscall, the registers are saved and nothing else happens. -/
theorem takeTrap_syscall (hmode : UserMode r) (hcur : s.curenv = some c) (sys : SyscallHandler)
    (w : Outside) (err : Word) : takeTrap sys w 48 err r s =
      (sys r.eax r.edx r.ecx r.ebx r.edi r.esi >>= resume c r) (s.atSyscall c r) := by
  have hframe : trapFrame (.noec 48#32) 48 err r = r.frame tSyscall 0#32 :=
    trapFrame_eq (by decide) (by decide)
  have henter : trapEnterOf sys w (r.frame tSyscall 0#32) s =
      (sys r.eax r.edx r.ecx r.ebx r.edi r.esi >>= storeEax (some c)) (s.atSyscall c r) := by
    have hcs : (r.frame tSyscall 0#32).tfCs &&& 3 = 3 := hmode.1
    rw [trapEnterOf, Prog.ite_apply, if_pos hcs, bind_ok (read_apply s)]
    simp only [hcur]
    have hno : (r.frame tSyscall 0#32).tfTrapno = tSyscall := rfl
    rw [modifyEnv, bind_ok (update_apply _ s), trapDispatchOf, Prog.ite_apply, if_pos hno]
    rfl
  have hgate : trapHandlers.getD 48 none = some (.noec 48#32) := by decide
  rw [takeTrap]
  simp only [hgate]
  rw [hframe, bind_apply, trapOf, bind_ok (check_true hmode.2 s), bind_apply, henter, bind_apply,
    bind_apply]
  cases sys r.eax r.edx r.ecx r.ebx r.edi r.esi (s.atSyscall c r) with
  | stop e u => rfl
  | ok ret u =>
    simp only [resume]
    rw [bind_apply]
    cases storeEax (some c) ret u with
    | stop e u => rfl
    | ok _ u => rfl

/-- The way back: eax holds the result, and the rest of the registers what was saved. -/
theorem resume_returns {d : Nat} (hcur : u.curenv = some c) (hst : (u.envs c).envStatus = .running)
    (hd : (u.envs c).envPgdir = some d) {trapno : Word}
    (htf : (u.envs c).envTf = r.frame trapno err) (ret : Word) :
    ∃ t, resume c r ret u = .ok { r with eax := ret } t ∧ t.curenv = some c ∧
      (t.envs c).envStatus = .running ∧ (t.envs c).envPgdir = some d ∧ t.cr3 = d ∧
      ∀ e, e ≠ c → (t.envs e).envTf = (u.envs e).envTf := by
  have hstore : storeEax (some c) ret u = .ok () (u.saveTf c ({ r with eax := ret }.frame trapno err)) := by
    rw [storeEax, modifyEnv, update_apply, htf]
    rfl
  have hself : ((u.saveTf c ({ r with eax := ret }.frame trapno err)).envs c) =
      { u.envs c with envTf := { r with eax := ret }.frame trapno err } := by
    simp [Kernel.saveTf, Kernel.setEnv]
  have hother : ∀ e, e ≠ c →
      (u.saveTf c ({ r with eax := ret }.frame trapno err)).envs e = u.envs e := by
    intro e he
    simp [Kernel.saveTf, Kernel.setEnv, he]
  have hcur' : (u.saveTf c ({ r with eax := ret }.frame trapno err)).curenv = some c := hcur
  generalize u.saveTf c ({ r with eax := ret }.frame trapno err) = v at *
  obtain ⟨t, hrun, hcr⟩ := envRun_returns (s := v) (e := c) (d := d) (by rw [hself]; exact hd)
  obtain ⟨-, hct, henvs⟩ := envRun_effect hrun
  have hreturn : trapReturn v = .ok () t := by
    rw [trapReturn, bind_ok (read_apply v)]
    simp only [hcur']
    rw [bind_ok (check_true (by rw [hself]; exact hst) v)]
    exact hrun
  have htf' : (t.envs c).envTf = { r with eax := ret }.frame trapno err := by
    rw [henvs, Function.update_self]
    simp [preempt_envs, hself]
  refine ⟨t, ?_, hct, ?_, ?_, hcr, ?_⟩
  · rw [resume, bind_ok hstore, bind_ok hreturn, bind_ok (read_apply t), hct]
    simp only [deref]
    rw [bind_ok (pure_apply c t), htf', envPopTf_frame]
    rfl
  · rw [henvs, Function.update_self]
  · rw [henvs, Function.update_self]
    simp [preempt_envs, hself, hd]
  · intro e he
    rw [henvs, Function.update_of_ne he, preempt_envs, hother e he]

/-- The trap path with the kernel's own syscall in it is trap. -/
theorem trapDispatchOf_syscall (w : Outside) (frame : Option Nat) (tf : Trapframe) :
    trapDispatchOf (syscall w) w frame tf = trapDispatch w frame tf := by
  unfold trapDispatchOf
  split
  · rename_i hno
    rw [trapDispatch, if_neg (by rw [hno]; decide), if_neg (by rw [hno]; decide), if_pos hno]
  · rfl

theorem takeTrap_eq_ok (hv : v ∈ userVectors) (hrun : takeTrap (syscall w) w v err r s = .ok r' t) :
    ∃ code c, trap w (r.frame (BitVec.ofNat 32 v) code) s = .ok () t ∧ t.curenv = some c ∧
      r' = envPopTf (t.envs c).envTf r := by
  rw [takeTrap] at hrun
  cases hh : trapHandlers.getD v none with
  | none =>
    simp only [hh] at hrun
    exact absurd hrun stop_ne_ok
  | some h =>
    simp only [hh] at hrun
    obtain ⟨_, u, htrap, hrun⟩ := bind_eq_ok.mp hrun
    rw [bind_ok (read_apply u)] at hrun
    rw [trapFrame_eq hv hh, trapOf] at htrap
    obtain ⟨_, s', hcheck, htrap⟩ := bind_eq_ok.mp htrap
    obtain ⟨-, rfl⟩ := check_eq_ok.mp hcheck
    simp only [trapEnterOf, trapDispatchOf_syscall] at htrap
    cases hc : u.curenv with
    | none =>
      simp only [hc] at hrun
      obtain ⟨_, _, hderef, -⟩ := bind_eq_ok.mp hrun
      exact absurd hderef stop_ne_ok
    | some c =>
      simp only [hc, deref] at hrun
      rw [bind_ok (pure_apply c u)] at hrun
      obtain ⟨rfl, rfl⟩ := pure_eq_ok.mp hrun
      exact ⟨_, c, htrap, hc, rfl⟩

end frames

/-- The calls the kernel makes before it runs an environment. -/
def EnvCall.AtBoot : EnvCall → Prop
  | .alloc _ _ => True
  | .create _ _ => True
  | .run _ => False
  | .free _ => True
  | .trap _ _ => False

/-- What instructions other than `int` do to the registers: anything, within user mode. -/
def UserStep (r r' : Cpu) : Prop := r'.cs &&& 3 = 3 ∧ r'.eflags &&& flIf = r.eflags &&& flIf

/-- The whole system from env_init on: environments are set up, one of them is run, and from then
on the processor is in user mode with some registers, between traps. -/
inductive UserRun (m : Machine) (mem : Nat → Nat → Word) : Kernel → Option Cpu → Prop
  | start {s t : Kernel} : memInit m (bss mem) = .ok () s → envInit s = .ok () t →
      UserRun m mem t none
  | call {s t : Kernel} {c : EnvCall} : UserRun m mem s none → c.AtBoot → c.Legal s →
      c.exec s = .ok () t → UserRun m mem t none
  | enter {s t : Kernel} {e : Nat} (r : Cpu) : UserRun m mem s none → Live s e →
      envRun e s = .ok () t → UserRun m mem t (some (envPopTf (t.envs e).envTf r))
  | compute {s : Kernel} {r r' : Cpu} : UserRun m mem s (some r) → UserStep r r' →
      UserRun m mem s (some r')
  | store {s t : Kernel} {r : Cpu} {va : Word} {b : Byte} : UserRun m mem s (some r) →
      UserCanWrite s.mem s.cr3 va → storeByte va b s = .ok () t → UserRun m mem t (some r)
  | trap {s t : Kernel} {r r' : Cpu} {w : Outside} {v : Nat} {err : Word} :
      UserRun m mem s (some r) → v ∈ userVectors →
      takeTrap (syscall w) w v err r s = .ok r' t → UserRun m mem t (some r')

/-- What holds between traps: the table is in order, every saved frame goes to user mode, and in
user mode the current environment runs. -/
structure UserInv (s : Kernel) (o : Option Cpu) : Prop where
  table : ∃ efl, EnvTable s efl
  frames : ∀ e, Live s e → UserFrame (s.envs e).envTf
  user : ∀ r, o = some r → UserMode r ∧
    ∃ c, s.curenv = some c ∧ Live s c ∧ (s.envs c).envStatus = .running

section runs

variable {m : Machine} {mem : Nat → Nat → Word} {s t u : Kernel} {w : Outside} {r r' k : Cpu} {c e v : Nat}
  {err ret : Word} {tf : Trapframe} {o : Option Cpu} {efl : List Nat}

/-- The part of the saved registers that says where a frame returns to. -/
def Kernel.modePart (s : Kernel) : Nat → BitVec 16 × Word :=
  fun e => ((s.envs e).envTf.tfCs, (s.envs e).envTf.tfEflags)

theorem modePart_of_envPart {α : Type} {x : Kern α} (h : Keeps Kernel.envPart x) :
    Keeps Kernel.modePart x :=
  h.comp fun part e => ((part.1 e).envTf.tfCs, (part.1 e).envTf.tfEflags)

theorem storeEax_mode (c : Nat) (ret : Word) : Keeps Kernel.modePart (storeEax (some c) ret) := by
  refine keeps_update fun s => ?_
  funext e
  by_cases he : e = c
  · simp [Kernel.modePart, Kernel.setEnv, he]
  · simp [Kernel.modePart, Kernel.setEnv, he]

theorem trapDispatch_mode (w : Outside) (c : Nat) (tf : Trapframe) :
    Keeps Kernel.modePart (trapDispatch w (some c) tf) := by
  refine keeps_ite (modePart_of_envPart (monitor_keeps _)) (keeps_ite ?_ (keeps_ite ?_ ?_))
  · exact keeps_ite (keeps_stop _) destroyCurenv_keeps
  · exact (modePart_of_envPart (syscall_keeps _ _ _ _ _ _ _)).bind fun ret => storeEax_mode c ret
  · exact keeps_ite (keeps_stop _) destroyCurenv_keeps

/-- env_run saves no registers. -/
theorem envRun_frames (hrun : envRun e s = .ok () t) (i : Nat) :
    (t.envs i).envTf = (s.envs i).envTf := by
  obtain ⟨-, -, henvs⟩ := envRun_effect hrun
  by_cases hi : i = e
  · simp [henvs, hi, preempt_envs]
  · simp [henvs, hi, preempt_envs]

/-- A trap from user mode saves the frame it came with. -/
theorem trap_mode (hrun : trap w tf s = .ok () t) (hcur : s.curenv = some c)
    (hcs : tf.tfCs &&& 3 = 3) (i : Nat) :
    t.modePart i = if i = c then (tf.tfCs, tf.tfEflags) else s.modePart i := by
  rw [trap] at hrun
  obtain ⟨_, u, henter, hrun⟩ := bind_eq_ok.mp hrun
  rw [trapEnter, Prog.ite_apply, if_pos hcs, bind_ok (read_apply s)] at henter
  simp only [hcur] at henter
  obtain ⟨_, u', hsave, hdispatch⟩ := bind_eq_ok.mp henter
  obtain rfl := update_eq_ok.mp hsave
  have hmode := trapDispatch_mode w c tf _ _ _ hdispatch
  rw [bind_ok (read_apply u)] at hrun
  cases hc : u.curenv with
  | none =>
    simp only [hc] at hrun
    exact absurd hrun stop_ne_ok
  | some c' =>
    simp only [hc] at hrun
    obtain ⟨_, _, hcheck, hrun⟩ := bind_eq_ok.mp hrun
    obtain ⟨-, rfl⟩ := check_eq_ok.mp hcheck
    have hsame : t.modePart i = u.modePart i := by
      rw [Kernel.modePart, Kernel.modePart, envRun_frames hrun]
    rw [hsame, hmode]
    by_cases hi : i = c
    · simp [Kernel.modePart, Kernel.setEnv, hi]
    · simp [Kernel.modePart, Kernel.setEnv, hi]

namespace UserInv

/-- The calls at boot. -/
theorem call {x : EnvCall} (h : UserInv s none) (hboot : x.AtBoot) (hl : x.Legal s)
    (hrun : x.exec s = .ok () t) : UserInv t none := by
  obtain ⟨⟨efl, ht⟩, hframes, -⟩ := h
  have hnone : ∀ r : Cpu, (none : Option Cpu) = some r → UserMode r ∧
      ∃ c, t.curenv = some c ∧ Live t c ∧ (t.envs c).envStatus = .running := by
    intro r hr
    cases hr
  have halloc : ∀ e, Allocates s t e → UserInv t none := by
    intro e ha
    obtain ⟨efl', -, ht'⟩ := ht.allocates ha
    obtain ⟨-, -, -, x, hx, -, -, -, -, htf⟩ := ha
    refine ⟨⟨efl', ht'⟩, fun i hi => ?_, hnone⟩
    by_cases he : i = e
    · rw [hx, he, Function.update_self]
      exact htf
    · rw [Live, hx, Function.update_of_ne he] at hi
      rw [hx, Function.update_of_ne he]
      exact hframes i hi
  cases x with
  | alloc newenvStore parentId =>
    obtain ⟨_, u, ha, hpure⟩ := bind_eq_ok.mp hrun
    obtain ⟨-, rfl⟩ := pure_eq_ok.mp hpure
    rcases envAlloc_allocates ha with ⟨-, rfl, -⟩ | ⟨-, e, -, ha⟩
    · exact ⟨⟨efl, ht⟩, hframes, hnone⟩
    · exact halloc e ha
  | create binary type =>
    obtain ⟨e, ha⟩ := envCreate_allocates hrun
    exact halloc e ha
  | run e => exact absurd hboot id
  | free e =>
    obtain ⟨-, -, henvs⟩ := envFree_effect hrun
    refine ⟨⟨_, ht.freed hl hrun⟩, fun i hi => ?_, hnone⟩
    by_cases he : i = e
    · rw [Live, henvs, he, Function.update_self] at hi
      exact absurd rfl hi.2
    · rw [Live, henvs, Function.update_of_ne he] at hi
      rw [henvs, Function.update_of_ne he]
      exact hframes i hi
  | trap w tf => exact absurd hboot id

/-- env_pop_tf of a frame that goes to user mode. -/
theorem popped (htf : UserFrame tf) (r : Cpu) : UserMode (envPopTf tf r) := by
  simpa [UserMode, UserFrame, envPopTf, Trapframe.words, popal, popl, iret] using htf

/-- env_run of a live environment enters it. -/
theorem entered (ht : EnvTable s efl) (hframes : ∀ i, Live s i → UserFrame (t.envs i).envTf)
    (hl : Live s e) (hrun : envRun e s = .ok () t) (r : Cpu) :
    UserInv t (some (envPopTf (t.envs e).envTf r)) := by
  obtain ⟨-, hcur, henvs⟩ := envRun_effect hrun
  have hlive : ∀ i, Live t i → Live s i := by
    rintro i ⟨hlt, hst⟩
    by_cases hi : i = e
    · exact hi ▸ hl
    · refine ⟨hlt, fun hfree => hst ?_⟩
      rw [henvs, Function.update_of_ne hi, preempt_envs]
      simp [hfree]
  have hst : (t.envs e).envStatus = .running := by rw [henvs, Function.update_self]
  refine ⟨⟨efl, ht.ran hl hrun⟩, fun i hi => hframes i (hlive i hi), ?_⟩
  intro r' hr'
  cases hr'
  exact ⟨popped (hframes e hl) r, e, hcur, ⟨hl.1, by rw [hst]; decide⟩, hst⟩

/-- A trap that comes back enters the current environment again. -/
theorem trap (h : UserInv s (some r)) (hv : v ∈ userVectors)
    (hrun : takeTrap (syscall w) w v err r s = .ok r' t) : UserInv t (some r') := by
  obtain ⟨code, c', htrap, hct, rfl⟩ := takeTrap_eq_ok hv hrun
  obtain ⟨⟨efl, ht⟩, hframes, huser⟩ := h
  obtain ⟨hmode, c, hcur, hl, -⟩ := huser r rfl
  obtain ⟨u, c'', hpart, hcu, -, hrun'⟩ := trap_effect htrap
  have hsame : c'' = c := by
    rw [(tablePart_eq hpart).2.1, hcur] at hcu
    exact (Option.some.inj hcu).symm
  subst hsame
  obtain rfl : c' = c'' := by
    rw [(envRun_effect hrun').2.1] at hct
    exact (Option.some.inj hct).symm
  have hlive : ∀ i, Live u i ↔ Live s i := by
    intro i
    rw [Live, Live, ((tablePart_eq hpart).2.2 i).2.1]
  refine entered (ht.congr hpart) (fun i hi => ?_) ((hlive c').mpr hl) hrun' r
  have hm := trap_mode htrap hcur hmode.1 i
  by_cases hi' : i = c'
  · rw [if_pos hi', Kernel.modePart, Prod.mk.injEq] at hm
    rw [UserFrame, hm.1, hm.2]
    exact hmode
  · rw [if_neg hi', Kernel.modePart, Kernel.modePart, Prod.mk.injEq] at hm
    rw [UserFrame, hm.1, hm.2]
    exact hframes i ((hlive i).mp hi)

end UserInv

/-- In every state the whole system reaches, the table and the saved frames are in order. -/
theorem UserRun.inv (h : UserRun m mem s o) : UserInv s o := by
  induction h with
  | start hm hi =>
    obtain ⟨ht, -, hfree⟩ := envTable_start hm hi
    exact ⟨ht, fun e he => absurd (hfree e) he.2, fun r hr => by cases hr⟩
  | call _ hboot hl hrun ih => exact ih.call hboot hl hrun
  | enter r _ hl hrun ih =>
    obtain ⟨⟨efl, ht⟩, hframes, -⟩ := ih
    exact UserInv.entered ht (fun i hi => by rw [envRun_frames hrun]; exact hframes i hi) hl hrun r
  | compute _ hstep ih =>
    refine ⟨ih.table, ih.frames, fun r' hr' => ?_⟩
    cases hr'
    obtain ⟨hmode, hcur⟩ := ih.user _ rfl
    exact ⟨⟨hstep.1, hstep.2.trans hmode.2⟩, hcur⟩
  | store _ _ hrun ih =>
    obtain ⟨x, -, -, rfl⟩ := storeByte_eq_ok hrun
    obtain ⟨⟨efl, ht⟩, hframes, huser⟩ := ih
    exact ⟨⟨efl, ht.congr rfl⟩, hframes, huser⟩
  | trap _ hv hrun ih => exact ih.trap hv hrun

/-- The system call `num` of environment `c`, made from the registers `r`: the kernel's syscall gets
the number and the arguments, and once it returns the environment goes on with its registers, eax
apart. Only a permitted env_destroy, and printing, may keep it from returning. -/
structure SyscallAbi (w : Outside) (s : Kernel) (c : Nat) (r : Cpu) (num a1 a2 a3 a4 a5 : Word) :
    Prop where
  called : ∀ sys : SyscallHandler, takeTrap sys w 48 0#32 r s =
    (sys num a1 a2 a3 a4 a5 >>= resume c r) (s.atSyscall c r)
  resumed : ∀ ret u, syscall w num a1 a2 a3 a4 a5 (s.atSyscall c r) = .ok ret u →
    ∃ t, takeTrap (syscall w) w 48 0#32 r s = .ok { r with eax := ret } t ∧
      t.curenv = some c ∧ (t.envs c).envStatus = .running ∧ (t.envs c).envPgdir = some t.cr3 ∧
      ∀ e, e ≠ c → (t.envs e).envTf = (s.envs e).envTf
  returns : num ≠ sysCputsNo →
    (∃ ret, syscall w num a1 a2 a3 a4 a5 (s.atSyscall c r) = .ok ret (s.atSyscall c r)) ∨
    (num = sysEnvDestroyNo ∧ ∃ e, Permitted s c a1 e ∧
      syscall w num a1 a2 a3 a4 a5 (s.atSyscall c r) =
        (do envDestroy e; pure 0 : Kern Word) (s.atSyscall c r))
  cputs : num = sysCputsNo → syscall w num a1 a2 a3 a4 a5 (s.atSyscall c r) =
    (do
      userMemAssert c a1 a2 pteU
      let _ ← cprintfString a2.toInt a1
      pure (BitVec.ofInt 32 (-eNoSys)) : Kern Word) (s.atSyscall c r)

theorem saveTf_keeps (s : Kernel) (c : Nat) (tf : Trapframe) :
    (s.saveTf c tf).tablePart = s.tablePart :=
  modifyTf_keeps c (fun _ => tf) s () _ rfl

theorem saveTf_envs (s : Kernel) (c : Nat) (tf : Trapframe) (i : Nat) :
    (s.saveTf c tf).envs i = { s.envs i with envTf := if i = c then tf else (s.envs i).envTf } := by
  by_cases hi : i = c
  · simp [Kernel.saveTf, Kernel.setEnv, hi]
  · simp [Kernel.saveTf, Kernel.setEnv, hi]

theorem permitted_saveTf {envid : Word} :
    Permitted (s.saveTf c tf) e envid v ↔ Permitted s e envid v := by
  simp only [Permitted, Live, saveTf_envs]

section handler

variable {num a1 a2 a3 a4 a5 : Word}

/-- Every call but SYS_cputs is answered at once, or is a permitted env_destroy. -/
theorem syscall_returns (ht : EnvTable s efl) (hcur : s.curenv = some c) (hl : Live s c)
    (hno : num ≠ sysCputsNo) : (∃ ret, syscall w num a1 a2 a3 a4 a5 s = .ok ret s) ∨
      (num = sysEnvDestroyNo ∧ ∃ e, Permitted s c a1 e ∧ syscall w num a1 a2 a3 a4 a5 s =
        (do envDestroy e; pure 0 : Kern Word) s) := by
  unfold syscall
  rw [if_neg hno]
  by_cases hgetc : num = sysCgetcNo
  · rw [if_pos hgetc]
    exact Or.inl ⟨_, rfl⟩
  rw [if_neg hgetc]
  by_cases hid : num = sysGetenvidNo
  · rw [if_pos hid]
    refine Or.inl ⟨(s.envs c).envId, ?_⟩
    rw [sysGetenvid, bind_ok (read_apply s), hcur]
    rfl
  rw [if_neg hid]
  by_cases hdestroy : num = sysEnvDestroyNo
  · rw [if_pos hdestroy]
    rcases ht.sysEnvDestroy_eq hcur hl a1 with ⟨e, hp, hrun⟩ | ⟨-, hrun⟩
    · refine Or.inr ⟨hdestroy, e, hp, ?_⟩
      rw [bind_apply, hrun, bind_apply, bind_apply]
      cases envDestroy e s with
      | stop x u => rfl
      | ok _ u => rfl
    · refine Or.inl ⟨BitVec.ofInt 32 (-eBadEnv), ?_⟩
      rw [bind_ok hrun]
      rfl
  · rw [if_neg hdestroy]
    exact Or.inl ⟨_, rfl⟩

/-- SYS_cputs destroys the caller or prints, and is answered once that is done. -/
theorem syscall_cputs (hcur : s.curenv = some c) : syscall w sysCputsNo a1 a2 a3 a4 a5 s =
    (do
      userMemAssert c a1 a2 pteU
      let _ ← cprintfString a2.toInt a1
      pure (BitVec.ofInt 32 (-eNoSys)) : Kern Word) s := by
  rw [syscall, if_pos rfl, bind_apply, sysCputs, bind_ok (read_apply s), hcur]
  simp only [deref]
  rw [bind_ok (pure_apply c s), bind_apply, bind_apply]
  cases userMemAssert c a1 a2 pteU s with
  | stop x u => rfl
  | ok _ u => rfl

end handler

/-- Any number of earlier traps may lie behind the state. -/
theorem userRun_syscallAbi (h : UserRun m mem s (some r)) (hcur : s.curenv = some c) (w : Outside)
    (num a1 a2 a3 a4 a5 : Word) :
    SyscallAbi w s c (stubRegs num a1 a2 a3 a4 a5 r) num a1 a2 a3 a4 a5 := by
  obtain ⟨⟨efl, ht⟩, -, huser⟩ := h.inv
  obtain ⟨hmode, c', hcur', hl, hst⟩ := huser r rfl
  rw [hcur] at hcur'
  obtain rfl := Option.some.inj hcur'
  obtain ⟨hlt, hm⟩ := ht.live_iff.mp hl
  obtain ⟨d, hd⟩ := Option.ne_none_iff_exists'.mp (ht.live c hlt hm).2.2
  have hcall := takeTrap_syscall (r := stubRegs num a1 a2 a3 a4 a5 r) hmode hcur
  have henvs : ∀ i, (s.atSyscall c (stubRegs num a1 a2 a3 a4 a5 r)).envs i = _ := saveTf_envs s c _
  have hl' : Live (s.atSyscall c (stubRegs num a1 a2 a3 a4 a5 r)) c := by
    rw [Live, henvs]
    exact hl
  refine ⟨fun sys => hcall sys w 0#32, ?_, ?_, ?_⟩
  · intro ret u hsys
    obtain ⟨hu, -, hcu⟩ := envPart_eq_iff.mp (syscall_keeps _ _ _ _ _ _ _ _ _ _ hsys)
    have huc : u.envs c = { s.envs c with
        envTf := (stubRegs num a1 a2 a3 a4 a5 r).frame tSyscall 0#32 } := by
      rw [hu, henvs, if_pos rfl]
    obtain ⟨t, hrun, hct, hstt, hdt, hcr, hframes⟩ := resume_returns (u := u) (c := c) (d := d)
      (r := stubRegs num a1 a2 a3 a4 a5 r) (hcu.trans hcur) (by rw [huc]; exact hst)
      (by rw [huc]; exact hd) (by rw [huc]) ret
    refine ⟨t, ?_, hct, hstt, hcr ▸ hdt, fun e he => ?_⟩
    · rw [hcall]
      exact (bind_ok hsys).trans hrun
    · rw [hframes e he, hu, henvs, if_neg he]
  · intro hno
    rcases syscall_returns (ht.congr (saveTf_keeps s c _)) hcur hl' hno with hret | ⟨hno, e, hp, hrun⟩
    · exact Or.inl hret
    · exact Or.inr ⟨hno, e, permitted_saveTf.mp hp, hrun⟩
  · rintro rfl
    exact syscall_cputs hcur

/-- On the small machine, an environment that runs, and a child of it. -/
theorem parentChild_smallMachine (r : Cpu) : ∃ s r' e e' L fl efl,
    UserRun smallMachine (fun _ _ => 0) s (some r') ∧ System smallMachine s L fl efl ∧
    s.curenv = some e ∧ Live s e' ∧ e' ≠ e ∧ (s.envs e').envParentId = (s.envs e).envId := by
  obtain ⟨s₀, s₁, fl, efl, h₀, h₁, hsys, hlen, hslots⟩ := start_smallMachine
  obtain ⟨e, efl, rfl⟩ := List.exists_cons_of_ne_nil (List.ne_nil_of_mem (hslots 0 (by decide)))
  obtain ⟨e', efl, rfl⟩ : ∃ e' efl', efl = e' :: efl' := by
    cases efl with
    | cons e' efl' => exact ⟨e', efl', rfl⟩
    | nil =>
      have h0 := hslots 0 (by decide)
      have h1 := hslots 1 (by decide)
      simp only [List.mem_singleton] at h0 h1
      omega
  obtain ⟨p, fl, rfl⟩ : ∃ p fl', fl = p :: fl' :=
    List.exists_cons_of_ne_nil (by rintro rfl; simp at hlen)
  obtain ⟨p', fl, rfl⟩ : ∃ p' fl', fl = p' :: fl' :=
    List.exists_cons_of_ne_nil (by rintro rfl; simp at hlen)
  have hne : e' ≠ e := by
    have hnodup := hsys.envs.nodup
    simp only [List.nodup_cons, List.mem_cons] at hnodup
    exact fun he => hnodup.1 (Or.inl he.symm)
  have hsys₂ := hsys.allocated 0
  obtain ⟨hl₂, hd₂⟩ := hsys.allocated_live 0
  have halloc : ∀ {s : Kernel} {L : Ledger} {p e : Nat} {fl efl : List Nat} (parent : Word),
      System smallMachine s L (p :: fl) (e :: efl) → UserRun smallMachine (fun _ _ => 0) s none →
      UserRun smallMachine (fun _ _ => 0) ((s.setupVm e p).fillSlot e parent) none := by
    intro s L p e fl efl parent hs hrun
    have hok : envAlloc none parent s = .ok (0, some e) ((s.setupVm e p).fillSlot e parent) :=
      envAlloc_ok hs.envs.chain.head_eq hs.balanced.head_eq (hs.balanced.free_lt (by simp))
        hs.balanced.npages_le
    refine hrun.call (c := .alloc none parent) trivial trivial ?_
    rw [EnvCall.exec, bind_ok hok]
    rfl
  have hrun₂ := halloc 0 hsys (UserRun.start h₀ h₁)
  generalize (s₁.setupVm e p).fillSlot e 0 = s₂ at hsys₂ hl₂ hd₂ hrun₂
  have hsys₃ := hsys₂.allocated (s₂.envs e).envId
  obtain ⟨hl₃, -⟩ := hsys₂.allocated_live (s₂.envs e).envId
  have hrun₃ := halloc (s₂.envs e).envId hsys₂ hrun₂
  have henvs₃ := fillSlot_envs s₂ e' p' (s₂.envs e).envId
  generalize (s₂.setupVm e' p').fillSlot e' (s₂.envs e).envId = s₃ at hsys₃ hl₃ hrun₃ henvs₃
  have hself : s₃.envs e = s₂.envs e := by rw [henvs₃, Function.update_of_ne hne.symm]
  have hl : Live s₃ e := by rw [Live, hself]; exact hl₂
  obtain ⟨t, hrun, -⟩ := envRun_returns (s := s₃) (e := e) (d := p) (by rw [hself]; exact hd₂)
  obtain ⟨-, hcur, henvs⟩ := envRun_effect hrun
  refine ⟨t, _, e, e', _, _, _, UserRun.enter r hrun₃ hl hrun, hsys₃.envRun hl hrun, hcur, ?_, hne, ?_⟩
  · refine ⟨hl₃.1, fun hfree => hl₃.2 ?_⟩
    rw [henvs, Function.update_of_ne hne, preempt_envs] at hfree
    simp only at hfree
    split at hfree
    · cases hfree
    · exact hfree
  · rw [henvs, Function.update_of_ne hne, Function.update_self]
    simp [preempt_envs, hself, henvs₃, newEnv]

/-- The registers of the processor when it enters its first program. -/
def bootCpu : Cpu := ⟨0, 0, 0, 0, 0, 0, 0, 0, 0, 0, 0, 0, 0, gdUd ||| 3, gdUd ||| 3, 0⟩

theorem userRun_syscallAbi_smallMachine : ∃ s r c, UserRun smallMachine (fun _ _ => 0) s (some r) ∧
    s.curenv = some c ∧
    SyscallAbi ⟨[], 0⟩ s c (stubRegs sysGetenvidNo 1 2 3 4 5 r) sysGetenvidNo 1 2 3 4 5 := by
  obtain ⟨s, r, c, -, -, -, -, hrun, -, hcur, -⟩ := parentChild_smallMachine bootCpu
  exact ⟨s, r, c, hrun, hcur, userRun_syscallAbi hrun hcur ⟨[], 0⟩ sysGetenvidNo 1 2 3 4 5⟩

/-- The id of a child names the child, and nothing else. -/
theorem EnvTable.sysEnvDestroy_child {e' : Nat} (h : EnvTable s efl) (hcur : s.curenv = some e)
    (hl : Live s e) (hl' : Live s e') (hpar : (s.envs e').envParentId = (s.envs e).envId) :
    sysEnvDestroy (s.envs e').envId s = (do envDestroy e'; pure 0 : Kern Int) s := by
  rcases h.sysEnvDestroy_eq hcur hl (s.envs e').envId with ⟨x, hp, hx⟩ | ⟨hnone, -⟩
  · have hxe : x = e' := by
      have hpos := (h.live e' hl'.1 (h.live_iff.mp hl').2).1
      rcases hp with ⟨rfl, h0 | hsame⟩ | ⟨hlx, hsame, -⟩
      · rw [h0] at hpos
        exact absurd hpos (by decide)
      · rw [← h.envx_eq hl, hsame, h.envx_eq hl']
      · rw [← h.envx_eq hlx, hsame, h.envx_eq hl']
    rw [hx, hxe]
  · exact absurd ⟨e', Or.inr ⟨hl', rfl, hpar⟩⟩ hnone

/-- env_destroy frees the environment and stays in the monitor. -/
theorem System.envDestroy_stops {L : Ledger} {fl : List Nat} (h : System m s L fl efl) (hl : Live s e) :
    ∃ u, envDestroy e s = .stop .monitor u ∧ ∀ i, i ≠ e → u.envs i = s.envs i := by
  obtain ⟨d, hd, -⟩ := h.env_dir hl
  obtain ⟨⟨⟩, u, hfree, -⟩ := h.envFree hl hd
  obtain ⟨-, -, hu⟩ := envFree_effect hfree
  refine ⟨u, ?_, fun i hi => by rw [hu, Function.update_of_ne hi]⟩
  rw [envDestroy, bind_ok hfree]
  rfl

theorem syscall_envDestroy (w : Outside) (a1 a2 a3 a4 a5 : Word) :
    syscall w sysEnvDestroyNo a1 a2 a3 a4 a5 =
      (sysEnvDestroy a1 >>= fun r => pure (BitVec.ofInt 32 r)) := by
  rw [syscall, if_neg (by decide), if_neg (by decide), if_neg (by decide), if_pos rfl]

/-- A system call that destroys a child of the caller ends in the monitor, with the caller running. -/
theorem System.takeTrap_child {L : Ledger} {fl : List Nat} {e' : Nat} (h : System m s L fl efl)
    (hmode : UserMode r) (hcur : s.curenv = some e) (hl : Live s e)
    (hst : (s.envs e).envStatus = .running) (hl' : Live s e') (hne : e' ≠ e)
    (hpar : (s.envs e').envParentId = (s.envs e).envId) (hno : r.eax = sysEnvDestroyNo)
    (hid : r.edx = (s.envs e').envId) (w : Outside) :
    ∃ u, takeTrap (syscall w) w 48 0#32 r s = .stop .monitor u ∧ (u.envs e).envStatus = .running := by
  have hcall := takeTrap_syscall hmode hcur (syscall w) w 0#32
  have henvs : ∀ i, (s.atSyscall e r).envs i = _ := saveTf_envs s e _
  have hsys' : System m (s.atSyscall e r) L fl efl := h.setTf e _
  have hlive : ∀ {i}, Live s i → Live (s.atSyscall e r) i := by
    intro i hi
    rw [Live, henvs]
    exact hi
  have hfound := hsys'.envs.sysEnvDestroy_child hcur (hlive hl) (hlive hl')
    (by rw [henvs, henvs]; exact hpar)
  rw [henvs] at hfound
  obtain ⟨u, hdestroy, hu⟩ := hsys'.envDestroy_stops (hlive hl')
  refine ⟨u, ?_, ?_⟩
  · rw [hcall, hno, hid, syscall_envDestroy]
    exact bind_stop (bind_stop (hfound.trans (bind_stop hdestroy)))
  · rw [hu e hne.symm, henvs]
    exact hst

/-- An environment that destroys its child is not destroyed, and never runs again. -/
theorem not_syscall_resumes : ¬ ∀ (m : Machine) (mem : Nat → Nat → Word) (s : Kernel) (r : Cpu) (c : Nat)
    (w : Outside) (num a1 a2 a3 a4 a5 : Word), UserRun m mem s (some r) → s.curenv = some c →
    (∃ ret t, takeTrap (syscall w) w 48 0#32 (stubRegs num a1 a2 a3 a4 a5 r) s =
      .ok { stubRegs num a1 a2 a3 a4 a5 r with eax := ret } t) ∨
    ∃ x u, takeTrap (syscall w) w 48 0#32 (stubRegs num a1 a2 a3 a4 a5 r) s = .stop x u ∧
      (u.envs c).envStatus = .free := by
  intro hall
  obtain ⟨s, r, e, e', L, fl, efl, hrun, hsys, hcur, hl', hne, hpar⟩ := parentChild_smallMachine bootCpu
  obtain ⟨hmode, c, hcur', hl, hst⟩ := hrun.inv.user r rfl
  rw [hcur] at hcur'
  obtain rfl := Option.some.inj hcur'
  obtain ⟨u, hstop, hu⟩ := hsys.takeTrap_child (r := stubRegs sysEnvDestroyNo (s.envs e').envId 0 0 0 0 r)
    hmode hcur hl hst hl' hne hpar rfl rfl ⟨[], 0⟩
  rcases hall _ _ s r e ⟨[], 0⟩ sysEnvDestroyNo (s.envs e').envId 0 0 0 0 hrun hcur with
    ⟨ret, t, hok⟩ | ⟨x, u', hstopped, hgone⟩
  · rw [hstop] at hok
    cases hok
  · rw [hstop] at hstopped
    cases hstopped
    exact absurd (hu.symm.trans hgone) (by decide)

end runs

end Jos
