import Jos.Kern.MemInit
import Jos.Kern.UserMem

/-! Environments (kern/env.c, inc/env.h, inc/elf.h): the table, creation, loading, teardown and
the switch to user mode. What the console is told is left out. -/
namespace Jos

open Prog

def eBadEnv : Int := 2

def eNoFreeEnv : Int := 5

/-- ENVX: the slot an environment id belongs to. -/
def envx (envid : Word) : Nat := (envid &&& 0x3FF#32).toNat

def gdUd : BitVec 16 := 0x20#16

def gdUt : BitVec 16 := 0x18#16

def Kernel.setEnv (s : Kernel) (e : Nat) (x : Env) : Kernel :=
  { s with envs := Function.update s.envs e x }

def modifyEnv (e : Nat) (f : Env → Env) : Kern Unit := update fun s => s.setEnv e (f (s.envs e))

/-- PADDR(e->env_pgdir), as a page. -/
def envPgdirPa (e : Nat) : Kern Nat := do
  let s ← read
  match (s.envs e).envPgdir with
  | none => stop (.panic "PADDR called with invalid kva %08lx")
  | some pgdir => pure pgdir

/-- The rounds of env_init's loop for the slots `n - 1, ..., 0`. -/
def envInitLoop : Nat → Kernel → Kernel
  | 0, s => s
  | i + 1, s =>
    envInitLoop i
      { s.setEnv i { s.envs i with envId := 0, envLink := s.envFreeList } with
        envFreeList := some i }

/-- env_init, without the segment registers it loads. -/
def envInit : Kern Unit := do
  update fun s => { s with envFreeList := none }
  update (envInitLoop nenv)
  let s ← read
  assert "env_free_list != NULL" (s.envFreeList ≠ none)

/-- `e->env_pgdir[i] = kern_pgdir[i]`. -/
def copyKernelEntry (pgdir i : Nat) : Kern Unit :=
  update fun s => s.store pgdir i (s.mem s.kernPgdir i)

def envSetupVm (e : Nat) : Kern Int := do
  match ← pageAlloc allocZero with
  | none => pure (-eNoMem)
  | some p =>
    incRef p
    let kva ← page2kva p
    modifyEnv e fun x => { x with envPgdir := some kva }
    forRange (fun k => copyKernelEntry kva (pdx utop + k)) (npdentries - pdx utop)
    update fun s => s.store kva (pdx uvpt) (page2pa kva ||| pteP ||| pteU)
    pure 0

/-- The id env_alloc gives slot `e` after `envId`; its generation is compared as a signed int. -/
def nextEnvId (envId : Word) (e : Nat) : Word :=
  let generation := (envId + 1#32 <<< 12) &&& ~~~0x3FF#32
  let generation := if generation.toInt ≤ 0 then 1#32 <<< 12 else generation
  generation ||| BitVec.ofNat 32 e

/-- The registers a new environment starts with. -/
def freshTrapframe : Trapframe :=
  { zeroTrapframe with
    tfDs := gdUd ||| 3
    tfEs := gdUd ||| 3
    tfSs := gdUd ||| 3
    tfEsp := ustacktop
    tfCs := gdUt ||| 3 }

/-- env_alloc, with what it leaves in `*newenv_store`. -/
def envAlloc (newenvStore : Option Nat) (parentId : Word) : Kern (Int × Option Nat) := do
  let s ← read
  match s.envFreeList with
  | none => pure (-eNoFreeEnv, newenvStore)
  | some e =>
    let r ← envSetupVm e
    if r < 0 then
      pure (r, newenvStore)
    else do
      modifyEnv e fun x =>
        { x with
          envId := nextEnvId x.envId e
          envParentId := parentId
          envType := .user
          envStatus := .runnable
          envRuns := 0
          envTf := freshTrapframe }
      update fun s => { s with envFreeList := (s.envs e).envLink }
      pure (0, some e)

/-- Allocate a page and map it at `va`. -/
def regionPage (e : Nat) (va : Word) : Kern Unit := do
  match ← pageAlloc 0#32 with
  | none => stop (.panic "out of memory")
  | some pp =>
    let pgdir ← envPgdir e
    let r ← pageInsert pgdir pp va (pteU ||| pteW)
    check (.panic "out of memory") (0 ≤ r)

/-- The number of rounds of `for (; va < end; va += PGSIZE)` for page-aligned `va` and `end`. -/
def pageRounds (va stop : Word) : Nat := (stop.toNat - va.toNat) / 4096

def regionAlloc (e : Nat) (va len : Word) : Kern Unit :=
  let va := roundDown va pgsize
  let len := roundUp len pgsize
  forRange (fun k => regionPage e (va + BitVec.ofNat 32 k * pgsize)) (pageRounds va (va + len))

/-- An ELF image in the kernel's own data: its address, and its bytes by offset. -/
structure Binary where
  start : Word
  bytes : Word → Byte

namespace Binary

variable (b : Binary)

/-- A little-endian field of the image. -/
def half (off : Word) : BitVec 16 := b.bytes (off + 1) ++ b.bytes off

def long (off : Word) : Word := b.half (off + 2) ++ b.half off

def eMagic : Word := b.long 0

def eEntry : Word := b.long 24

def ePhoff : Word := b.long 28

def ePhnum : BitVec 16 := b.half 44

end Binary

def elfMagic : Word := 0x464C457F#32

def elfProgLoad : Word := 1#32

/-- The fields of struct Proghdr that load_icode reads. -/
structure Proghdr where
  pType : Word
  pOffset : Word
  pVa : Word
  pFilesz : Word
  pMemsz : Word
deriving DecidableEq

/-- The `k`-th program header. -/
def Binary.proghdr (b : Binary) (k : Nat) : Proghdr :=
  let off := b.ePhoff + BitVec.ofNat 32 (32 * k)
  ⟨b.long off, b.long (off + 4), b.long (off + 8), b.long (off + 16), b.long (off + 20)⟩

/-- The number of rounds of load_icode's loop, `for (; ph < eph; ph++)`. -/
def Binary.rounds (b : Binary) : Nat :=
  let ph := b.start + b.ePhoff
  let eph := ph + b.ePhnum.setWidth 32 * 32#32
  if ph < eph then b.ePhnum.toNat else 0

/-- Byte `k` of a word, lowest first. -/
def getByte (w : Word) (k : Nat) : Byte := (w >>> (8 * k)).setWidth 8

def setByte (w : Word) (k : Nat) (b : Byte) : Word :=
  w &&& ~~~(0xFF#32 <<< (8 * k)) ||| b.setWidth 32 <<< (8 * k)

/-- Load a byte through the directory in cr3. -/
def loadByte (va : Word) : Kern Byte := do
  let s ← read
  match hwWalk s.mem s.cr3 va with
  | none => stop kernelFault
  | some x => pure (getByte (s.mem x.page (pgoff va / 4)) (pgoff va % 4))

/-- Store a byte through the directory in cr3; CR0.WP makes the kernel obey PTE_W. -/
def storeByte (va : Word) (b : Byte) : Kern Unit := do
  let s ← read
  match hwWalk s.mem s.cr3 va with
  | none => stop kernelFault
  | some x =>
    check kernelFault (x.write = true)
    update fun s =>
      s.store x.page (pgoff va / 4) (setByte (s.mem x.page (pgoff va / 4)) (pgoff va % 4) b)

/-- memcpy from the image. memmove copies backwards when that saves an overlapping source. -/
def memcpy (dst : Word) (b : Binary) (off n : Word) : Kern Unit :=
  let src := b.start + off
  if src < dst ∧ dst < src + n then
    forRange (fun k =>
      storeByte (dst + BitVec.ofNat 32 (n.toNat - 1 - k))
        (b.bytes (off + BitVec.ofNat 32 (n.toNat - 1 - k)))) n.toNat
  else
    forRange (fun k => storeByte (dst + BitVec.ofNat 32 k) (b.bytes (off + BitVec.ofNat 32 k))) n.toNat

def memset (v : Word) (c : Byte) (n : Word) : Kern Unit :=
  forRange (fun k => storeByte (v + BitVec.ofNat 32 k) c) n.toNat

/-- The body of load_icode's loop. -/
def loadSegment (e : Nat) (b : Binary) (ph : Proghdr) : Kern Unit :=
  if ph.pType = elfProgLoad then do
    regionAlloc e ph.pVa ph.pMemsz
    memcpy ph.pVa b ph.pOffset ph.pFilesz
    memset (ph.pVa + ph.pFilesz) 0#8 (ph.pMemsz - ph.pFilesz)
  else
    pure ()

def loadIcode (e : Nat) (b : Binary) : Kern Unit := do
  let pgdir ← envPgdirPa e
  lcr3 pgdir
  check (.panic "binary does not have elf magic") (b.eMagic = elfMagic)
  forRange (fun k => loadSegment e b (b.proghdr k)) b.rounds
  let s ← read
  lcr3 s.kernPgdir
  regionAlloc e (ustacktop - pgsize) pgsize
  modifyEnv e fun x => { x with envTf := { x.envTf with tfEsp := ustacktop } }
  modifyEnv e fun x => { x with envTf := { x.envTf with tfEip := b.eEntry } }

def envCreate (b : Binary) (type : EnvType) : Kern Unit := do
  let (result, env) ← envAlloc none 0
  match env with
  | some e =>
    check (.panic "can't alloc new env: %e") (0 ≤ result)
    modifyEnv e fun x => { x with envParentId := 0, envType := type }
    loadIcode e b
  | none => stop (.panic "can't alloc new env: %e")

/-- One entry of env_free's inner loop. -/
def freePte (pgdir pt pdeno pteno : Nat) : Kern Unit := do
  let s ← read
  if Has (s.mem pt pteno) pteP then
    pageRemove pgdir (pgaddr (BitVec.ofNat 32 pdeno) (BitVec.ofNat 32 pteno) 0)
  else
    pure ()

/-- One round of env_free's loop over the page tables below UTOP. -/
def freePde (e pdeno : Nat) : Kern Unit := do
  let pgdir ← envPgdir e
  let s ← read
  if Has (s.mem pgdir pdeno) pteP then do
    let pa := pteAddr (s.mem pgdir pdeno)
    let pt ← kaddr pa
    forRange (fun pteno => freePte pgdir pt pdeno pteno) nptentries
    update fun s => s.store pgdir pdeno 0#32
    let pp ← pa2page pa
    pageDecref pp
  else
    pure ()

/-- The first step of env_free: do not go on in an address space that is about to go. -/
def leaveEnv (e : Nat) : Kern Unit := do
  let s ← read
  if s.curenv = some e then lcr3 s.kernPgdir else pure ()

def envFree (e : Nat) : Kern Unit := do
  leaveEnv e
  forRange (freePde e) (pdx utop)
  let pgdir ← envPgdirPa e
  modifyEnv e fun x => { x with envPgdir := none }
  let pp ← pa2page (page2pa pgdir)
  pageDecref pp
  modifyEnv e fun x => { x with envStatus := .free }
  update fun s => s.setEnv e { s.envs e with envLink := s.envFreeList }
  update fun s => { s with envFreeList := some e }

/-- env_destroy: the monitor that follows never returns. -/
def envDestroy (e : Nat) : Kern Unit := do
  envFree e
  stop .monitor

/-- `if (curenv && curenv->env_status == ENV_RUNNING) curenv->env_status = ENV_RUNNABLE`. -/
def Kernel.preempt (s : Kernel) : Kernel :=
  match s.curenv with
  | none => s
  | some c =>
    if (s.envs c).envStatus = .running then
      s.setEnv c { s.envs c with envStatus := .runnable }
    else
      s

/-- env_run. In the state it leaves, the processor is in user mode with the saved registers. -/
def envRun (e : Nat) : Kern Unit := do
  update Kernel.preempt
  update fun s => { s with curenv := some e }
  modifyEnv e fun x => { x with envStatus := .running }
  modifyEnv e fun x => { x with envRuns := x.envRuns + 1 }
  let pgdir ← envPgdirPa e
  lcr3 pgdir

/-- What envid2env's permission test asks of the environment `e`. -/
def MayManage (s : Kernel) (e : Nat) : Prop :=
  s.curenv = some e ∨ ∃ c, s.curenv = some c ∧ (s.envs e).envParentId = (s.envs c).envId

instance (s : Kernel) (e : Nat) : Decidable (MayManage s e) :=
  match hc : s.curenv with
  | none => isFalse (by simp [MayManage, hc])
  | some c =>
    decidable_of_iff (c = e ∨ (s.envs e).envParentId = (s.envs c).envId) (by simp [MayManage, hc])

/-- envid2env, with what it leaves in `*env_store`. -/
def envid2env (envid : Word) (checkperm : Bool) : Kern (Int × Option Nat) := do
  let s ← read
  if envid = 0 then
    pure (0, s.curenv)
  else
    let e := envx envid
    if (s.envs e).envStatus = .free ∨ (s.envs e).envId ≠ envid then
      pure (-eBadEnv, none)
    else if checkperm ∧ s.curenv = none then
      stop kernelFault
    else if checkperm ∧ ¬ MayManage s e then
      pure (-eBadEnv, none)
    else
      pure (0, some e)

end Jos
