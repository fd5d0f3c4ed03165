import Jos.Kern.Trap

/-! The way into the kernel and back (kern/trapentry.S, lib/syscall.c, env_pop_tf): what each
instruction pushes and pops. A stack is the list of its words, from the stack pointer up. -/
namespace Jos

open Prog

/-- The registers of the program that runs in user mode. -/
structure Cpu where
  edi : Word
  esi : Word
  ebp : Word
  ebx : Word
  edx : Word
  ecx : Word
  eax : Word
  esp : Word
  eip : Word
  eflags : Word
  cs : BitVec 16
  ds : BitVec 16
  es : BitVec 16
  fs : BitVec 16
  gs : BitVec 16
  ss : BitVec 16
deriving DecidableEq

/-- The registers at `int T_SYSCALL` in the user stub, which asks for its arguments in AX, DX, CX,
BX, DI and SI. -/
def stubRegs (num a1 a2 a3 a4 a5 : Word) (r : Cpu) : Cpu :=
  { r with eax := num, edx := a1, ecx := a2, ebx := a3, edi := a4, esi := a5 }

/-- What trapentry.S does for a vector: with an error code already pushed, or without one. -/
inductive TrapHandler where
  | ec (num : Word)
  | noec (num : Word)
deriving DecidableEq

/-- The table trap_handlers, to which the gates of the IDT point. -/
def trapHandlers : List (Option TrapHandler) :=
  [some (.noec 0), some (.noec 1), some (.noec 2), some (.noec 3), some (.noec 4), some (.noec 5),
    some (.noec 6), some (.noec 7), some (.ec 8), none, some (.ec 10), some (.ec 11), some (.ec 12),
    some (.ec 13), some (.ec 14), some (.ec 15), some (.noec 16), some (.ec 17), some (.noec 18),
    some (.noec 19)] ++ List.replicate 28 none ++ [some (.noec 48)]

/-- The vectors for which the processor pushes an error code. -/
def pushesError (v : Nat) : Bool := v ∈ [8, 10, 11, 12, 13, 14, 17]

/-- The vectors taken from user mode: the processor's exceptions, and `int` through the two gates
open to the user. -/
def userVectors : List Nat := [0, 1, 2, 3, 4, 5, 6, 7, 8, 10, 11, 12, 13, 14, 16, 17, 18, 19, 48]

def pushl (w : Word) (st : List Word) : List Word := w :: st

def pushSeg (seg : BitVec 16) (st : List Word) : List Word := pushl (seg.setWidth 32) st

/-- The processor's own pushes, on the kernel stack the TSS names. -/
def hwPush (v : Nat) (err : Word) (r : Cpu) : List Word :=
  let st := pushSeg r.cs (pushl r.eflags (pushl r.esp (pushSeg r.ss [])))
  let st := pushl r.eip st
  if pushesError v then pushl err st else st

/-- TRAPHANDLER and TRAPHANDLER_NOEC. -/
def TrapHandler.push : TrapHandler → List Word → List Word
  | .ec num, st => pushl num st
  | .noec num, st => pushl num (pushl 0#32 st)

/-- pushal; the stack pointer it pushes is the one before it. -/
def pushal (r : Cpu) (st : List Word) : List Word :=
  let esp := kstacktop - BitVec.ofNat 32 (4 * st.length)
  pushl r.edi (pushl r.esi (pushl r.ebp (pushl esp
    (pushl r.ebx (pushl r.edx (pushl r.ecx (pushl r.eax st)))))))

/-- _alltraps up to its call of trap. -/
def alltraps (r : Cpu) (st : List Word) : List Word := pushal r (pushSeg r.es (pushSeg r.ds st))

/-- The words of a struct Trapframe, in the order of its fields. -/
def Trapframe.words (tf : Trapframe) : List Word :=
  [tf.tfRegs.regEdi, tf.tfRegs.regEsi, tf.tfRegs.regEbp, tf.tfRegs.regOesp, tf.tfRegs.regEbx,
    tf.tfRegs.regEdx, tf.tfRegs.regEcx, tf.tfRegs.regEax, tf.tfEs.setWidth 32, tf.tfDs.setWidth 32,
    tf.tfTrapno, tf.tfErr, tf.tfEip, tf.tfCs.setWidth 32, tf.tfEflags, tf.tfEsp, tf.tfSs.setWidth 32]

/-- The struct Trapframe at the stack pointer. -/
def trapframeAt (st : List Word) : Trapframe where
  tfRegs := ⟨st.getD 0 0, st.getD 1 0, st.getD 2 0, st.getD 3 0, st.getD 4 0, st.getD 5 0, st.getD 6 0,
    st.getD 7 0⟩
  tfEs := (st.getD 8 0).setWidth 16
  tfDs := (st.getD 9 0).setWidth 16
  tfTrapno := st.getD 10 0
  tfErr := st.getD 11 0
  tfEip := st.getD 12 0
  tfCs := (st.getD 13 0).setWidth 16
  tfEflags := st.getD 14 0
  tfEsp := st.getD 15 0
  tfSs := (st.getD 16 0).setWidth 16

/-- Pop the top word and do `f` with it. -/
def popl (f : Word → Cpu → Cpu) : Cpu × List Word → Cpu × List Word
  | (r, []) => (r, [])
  | (r, w :: st) => (f w r, st)

/-- popal; it passes over the stack pointer. -/
def popal (x : Cpu × List Word) : Cpu × List Word :=
  let x := popl (fun w r => { r with edi := w }) x
  let x := popl (fun w r => { r with esi := w }) x
  let x := popl (fun w r => { r with ebp := w }) x
  let x := popl (fun _ r => r) x
  let x := popl (fun w r => { r with ebx := w }) x
  let x := popl (fun w r => { r with edx := w }) x
  let x := popl (fun w r => { r with ecx := w }) x
  popl (fun w r => { r with eax := w }) x

/-- iret to user mode, which pops the user's stack pointer too. -/
def iret (x : Cpu × List Word) : Cpu × List Word :=
  let x := popl (fun w r => { r with eip := w }) x
  let x := popl (fun w r => { r with cs := w.setWidth 16 }) x
  let x := popl (fun w r => { r with eflags := w }) x
  let x := popl (fun w r => { r with esp := w }) x
  popl (fun w r => { r with ss := w.setWidth 16 }) x

/-- env_pop_tf. The registers it does not load, FS and GS, are as the kernel found them. -/
def envPopTf (tf : Trapframe) (r : Cpu) : Cpu :=
  let x := popal (r, tf.words)
  let x := popl (fun w r => { r with es := w.setWidth 16 }) x
  let x := popl (fun w r => { r with ds := w.setWidth 16 }) x
  let x := (x.1, x.2.drop 2)
  (iret x).1

/-- A handler for system calls, as trap_dispatch calls it. -/
abbrev SyscallHandler := Word → Word → Word → Word → Word → Word → Kern Word

/-- trap_dispatch with its call of syscall left open. -/
def trapDispatchOf (sys : SyscallHandler) (w : Outside) (frame : Option Nat) (tf : Trapframe) :
    Kern Unit :=
  if tf.tfTrapno = tSyscall then do
    let r ← sys tf.tfRegs.regEax tf.tfRegs.regEdx tf.tfRegs.regEcx tf.tfRegs.regEbx
      tf.tfRegs.regEdi tf.tfRegs.regEsi
    storeEax frame r
  else
    trapDispatch w frame tf

def trapEnterOf (sys : SyscallHandler) (w : Outside) (tf : Trapframe) : Kern Unit :=
  if tf.tfCs &&& 3 = 3 then do
    let s ← read
    match s.curenv with
    | none => stop (.panic "assertion failed: curenv")
    | some c => do
      modifyEnv c fun x => { x with envTf := tf }
      trapDispatchOf sys w (some c) tf
  else
    trapDispatchOf sys w none tf

/-- The second half of trap: back to the current environment. -/
def trapReturn : Kern Unit := do
  let s ← read
  match s.curenv with
  | none => stop (.panic "assertion failed: curenv && curenv->env_status == ENV_RUNNING")
  | some c => do
    check (.panic "assertion failed: curenv && curenv->env_status == ENV_RUNNING")
      ((s.envs c).envStatus = .running)
    envRun c

/-- trap. The gates leave the interrupt flag alone, so the assertion sees the user's. -/
def trapOf (sys : SyscallHandler) (w : Outside) (r : Cpu) (tf : Trapframe) : Kern Unit := do
  check (.panic "assertion failed: !(read_eflags() & FL_IF)") (r.eflags &&& flIf = 0)
  trapEnterOf sys w tf
  trapReturn

/-- The frame trap finds when vector `v` is taken from user mode. -/
def trapFrame (h : TrapHandler) (v : Nat) (err : Word) (r : Cpu) : Trapframe :=
  trapframeAt (alltraps r (h.push (hwPush v err r)))

/-- A trap from user mode and back, with the registers env_run leaves the program. -/
def takeTrap (sys : SyscallHandler) (w : Outside) (v : Nat) (err : Word) (r : Cpu) : Kern Cpu :=
  match trapHandlers.getD v none with
  | none => stop .spin -- no code at the gate: the processor resets
  | some h => do
    trapOf sys w r (trapFrame h v err r)
    let s ← read
    let curenv ← deref s.curenv
    pure (envPopTf (s.envs curenv).envTf r)

end Jos
