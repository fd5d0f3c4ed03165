import Jos.Library.Prog
import Jos.Inc.Memlayout

/-! The kernel's global state, and the stores and control instructions it issues. -/
namespace Jos

/-- struct PageInfo. Pointers to it are indices into `pages`. -/
structure PageInfo where
  ppLink : Option Nat
  ppRef : BitVec 16
deriving DecidableEq

/-- struct PushRegs, in the order pusha leaves it. -/
structure PushRegs where
  regEdi : Word
  regEsi : Word
  regEbp : Word
  regOesp : Word
  regEbx : Word
  regEdx : Word
  regEcx : Word
  regEax : Word
deriving DecidableEq

/-- struct Trapframe, without its padding. -/
structure Trapframe where
  tfRegs : PushRegs
  tfEs : BitVec 16
  tfDs : BitVec 16
  tfTrapno : Word
  tfErr : Word
  tfEip : Word
  tfCs : BitVec 16
  tfEflags : Word
  tfEsp : Word
  tfSs : BitVec 16
deriving DecidableEq

inductive EnvStatus where
  | free
  | dying
  | runnable
  | running
  | notRunnable
deriving DecidableEq

inductive EnvType where
  | user
deriving DecidableEq

/-- struct Env. `envPgdir` is the physical page of the directory the C pointer names. -/
structure Env where
  envTf : Trapframe
  envLink : Option Nat
  envId : Word
  envParentId : Word
  envType : EnvType
  envStatus : EnvStatus
  envRuns : Word
  envPgdir : Option Nat
deriving DecidableEq

/-- What the processor can see of the kernel: stores, directory loads, TLB invalidations. -/
inductive HwEvent where
  | store (page idx : Nat) (w : Word)
  | lcr3 (page : Nat)
  | invlpg (va : Word)
deriving DecidableEq

/-- Why the kernel never comes back to its caller. -/
inductive Stop where
  | panic (msg : String)
  | monitor
  | spin
deriving DecidableEq

/-- Physical memory as pages of words, the kernel's variables, and the events issued so far.
A page-aligned pointer into the KERNBASE window is represented by its physical page number. -/
structure Kernel where
  npages : Nat
  npagesBasemem : Nat
  nextfree : Word
  kernPgdir : Nat
  pagesVa : Word
  envsVa : Word
  pages : Nat → PageInfo
  pageFreeList : Option Nat
  envs : Nat → Env
  envFreeList : Option Nat
  curenv : Option Nat
  userMemCheckAddr : Word
  mem : Nat → Nat → Word
  cr3 : Nat
  log : List HwEvent

/-- Kernel code. -/
abbrev Kern (α : Type) := Prog Stop Kernel α

/-- A pte_t pointer: the page it points into and the entry's index there. -/
structure PteRef where
  page : Nat
  idx : Nat
deriving DecidableEq

namespace Kernel

def emit (s : Kernel) (e : HwEvent) : Kernel := { s with log := s.log ++ [e] }

/-- Store one word to physical memory. -/
def store (s : Kernel) (p i : Nat) (w : Word) : Kernel :=
  { s with
    mem := fun q j => if q = p ∧ j = i then w else s.mem q j
    log := s.log ++ [.store p i w] }

/-- Store `w` to the first `n` words of a page, in increasing order. -/
def fill (s : Kernel) (p n : Nat) (w : Word) : Kernel :=
  { s with
    mem := fun q j => if q = p ∧ j < n then w else s.mem q j
    log := s.log ++ (List.range n).map fun i => .store p i w }

def setLink (s : Kernel) (p : Nat) (o : Option Nat) : Kernel :=
  { s with pages := Function.update s.pages p { s.pages p with ppLink := o } }

def setRef (s : Kernel) (p : Nat) (r : BitVec 16) : Kernel :=
  { s with pages := Function.update s.pages p { s.pages p with ppRef := r } }

variable {s : Kernel} {p q i j n : Nat} {w : Word} {o : Option Nat} {r : BitVec 16}

theorem mem_store : (s.store p i w).mem q j = if q = p ∧ j = i then w else s.mem q j := rfl

theorem mem_fill : (s.fill p n w).mem q j = if q = p ∧ j < n then w else s.mem q j := rfl

theorem mem_store_of_ne (h : q ≠ p) : (s.store p i w).mem q j = s.mem q j := by
  simp [mem_store, h]

theorem mem_fill_of_ne (h : q ≠ p) : (s.fill p n w).mem q j = s.mem q j := by
  simp [mem_fill, h]

theorem ppLink_setLink : ((s.setLink p o).pages q).ppLink = if q = p then o else (s.pages q).ppLink := by
  by_cases h : q = p <;> simp [setLink, Function.update, h]

theorem ppRef_setRef : ((s.setRef p r).pages q).ppRef = if q = p then r else (s.pages q).ppRef := by
  by_cases h : q = p <;> simp [setRef, Function.update, h]

@[simp] theorem ppRef_setLink : ((s.setLink p o).pages q).ppRef = (s.pages q).ppRef := by
  by_cases h : q = p <;> simp [setLink, Function.update, h]

@[simp] theorem ppLink_setRef : ((s.setRef p r).pages q).ppLink = (s.pages q).ppLink := by
  by_cases h : q = p <;> simp [setRef, Function.update, h]

end Kernel

end Jos
