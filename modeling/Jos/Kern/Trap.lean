import Jos.Kern.Env
import Jos.Lib.Printfmt

/-! Traps and system calls (kern/trap.c, kern/syscall.c), with what they use of the monitor and
of the printing library. -/
namespace Jos

open Prog

def eNoSys : Int := 7

def tBrkpt : Word := 3#32

def tPgflt : Word := 14#32

def tSyscall : Word := 48#32

def sysCputsNo : Word := 0#32

def sysCgetcNo : Word := 1#32

def sysGetenvidNo : Word := 2#32

def sysEnvDestroyNo : Word := 3#32

def gdKt : BitVec 16 := 0x08#16

/-- The arguments of a `pgmod` command. -/
structure PgMod where
  va : Word
  allowUser : Bool
  allowWrite : Bool
deriving DecidableEq

/-- What comes from outside while a trap is handled: the commands given at the monitor before
`exit` that change anything, and the next console character. -/
structure Outside where
  session : List PgMod
  console : Word

/-- mon_pgmod, its arguments read. -/
def monPgmod (c : PgMod) : Kern Unit := do
  let s ← read
  if c.va ≠ roundDown c.va pgsize then
    pure ()
  else
    match ← pgdirWalk s.kernPgdir c.va false with
    | none => pure ()
    | some pte =>
      update fun s =>
        let paWflags := s.mem pte.page pte.idx
        if paWflags ||| pteP = 0#32 then
          s
        else
          s.store pte.page pte.idx (paWflags &&& ~~~pteU &&& ~~~pteW |||
            (if c.allowUser then pteU else 0#32) ||| (if c.allowWrite then pteW else 0#32))

def monitor : List PgMod → Kern Unit
  | [] => pure ()
  | c :: session => do
    monPgmod c
    monitor session

/-- The loop of vprintfmt's %s conversion: the characters it prints. It reads each character
before it counts it. -/
def printString : Nat → Word → Int → Kern (List Byte)
  | 0, _, _ => stop .spin
  | fuel + 1, p, precision => do
    let ch ← loadByte p
    if ch = 0 then
      pure []
    else if precision < 0 then do
      let rest ← printString fuel (p + 1) precision
      pure (ch :: rest)
    else if 0 ≤ precision - 1 then do
      let rest ← printString fuel (p + 1) (precision - 1)
      pure (ch :: rest)
    else
      pure []

/-- cprintf("%.*s", precision, s). The width is 0, so nothing is padded; after 2^32 characters
the loop is where it started and goes on for ever. -/
def cprintfString (precision : Int) (s : Word) : Kern (List Byte) :=
  if s = 0 then
    pure (if precision < 0 then nullText else nullText.take precision.toNat)
  else
    printString (2 ^ 32 + 1) s precision

/-- The current environment; a null pointer faults. -/
def deref (o : Option Nat) : Kern Nat :=
  match o with
  | none => stop kernelFault
  | some e => pure e

def userMemAssert (e : Nat) (va len perm : Word) : Kern Unit := do
  let r ← userMemCheck e va len (perm ||| pteU)
  if r < 0 then envDestroy e else pure ()

/-- sys_cputs, with the characters it prints. -/
def sysCputs (s len : Word) : Kern (List Byte) := do
  let k ← read
  let curenv ← deref k.curenv
  userMemAssert curenv s len pteU
  cprintfString len.toInt s

def sysGetenvid : Kern Word := do
  let s ← read
  let curenv ← deref s.curenv
  let s ← read
  pure (s.envs curenv).envId

def sysEnvDestroy (envid : Word) : Kern Int := do
  let (r, e) ← envid2env envid true
  if r < 0 then
    pure r
  else do
    let e ← deref e
    envDestroy e
    pure 0

/-- syscall. What `break`s out of the switch, sys_cputs included, returns -E_NO_SYS. -/
def syscall (w : Outside) (syscallno a1 a2 _a3 _a4 _a5 : Word) : Kern Word :=
  if syscallno = sysCputsNo then do
    let _ ← sysCputs a1 a2
    pure (BitVec.ofInt 32 (-eNoSys))
  else if syscallno = sysCgetcNo then
    pure w.console
  else if syscallno = sysGetenvidNo then
    sysGetenvid
  else if syscallno = sysEnvDestroyNo then do
    let r ← sysEnvDestroy a1
    pure (BitVec.ofInt 32 r)
  else
    pure (BitVec.ofInt 32 (-eNoSys))

/-- `tf->tf_regs.reg_eax = r`, for a frame saved in an environment or left on the stack. -/
def storeEax (frame : Option Nat) (r : Word) : Kern Unit :=
  match frame with
  | none => pure ()
  | some e => modifyEnv e fun x =>
      { x with envTf := { x.envTf with tfRegs := { x.envTf.tfRegs with regEax := r } } }

/-- env_destroy(curenv). -/
def destroyCurenv : Kern Unit := do
  let s ← read
  let curenv ← deref s.curenv
  envDestroy curenv

def trapDispatch (w : Outside) (frame : Option Nat) (tf : Trapframe) : Kern Unit :=
  if tf.tfTrapno = tBrkpt then
    monitor w.session
  else if tf.tfTrapno = tPgflt then
    if tf.tfCs &&& 3 ≠ 3 then
      stop (.panic "Page fault triggered in kernel")
    else
      destroyCurenv
  else if tf.tfTrapno = tSyscall then do
    let r ← syscall w tf.tfRegs.regEax tf.tfRegs.regEdx tf.tfRegs.regEcx tf.tfRegs.regEbx
      tf.tfRegs.regEdi tf.tfRegs.regEsi
    storeEax frame r
  else if tf.tfCs = gdKt then
    stop (.panic "unhandled trap in kernel")
  else
    destroyCurenv

/-- trap up to the return of trap_dispatch. -/
def trapEnter (w : Outside) (tf : Trapframe) : Kern Unit :=
  if tf.tfCs &&& 3 = 3 then do
    let s ← read
    match s.curenv with
    | none => stop (.panic "assertion failed: curenv")
    | some c => do
      modifyEnv c fun x => { x with envTf := tf }
      trapDispatch w (some c) tf
  else
    trapDispatch w none tf

/-- trap, for a trap that finds interrupts off. -/
def trap (w : Outside) (tf : Trapframe) : Kern Unit := do
  trapEnter w tf
  let s ← read
  match s.curenv with
  | none => stop (.panic "assertion failed: curenv && curenv->env_status == ENV_RUNNING")
  | some c => do
    check (.panic "assertion failed: curenv && curenv->env_status == ENV_RUNNING")
      ((s.envs c).envStatus = .running)
    envRun c

end Jos
