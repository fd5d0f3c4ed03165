import Jos.Kern.Pmap

/-! mem_init up to page_init: memory detection, the boot allocator, the first free list. -/
namespace Jos

open Prog

/-- What the kernel finds when it starts: the CMOS registers, and two symbols of its own image.
kernel.ld links the kernel at 0xF0100000 and entry.S aligns the stack to a page. -/
structure Machine where
  cmos : Nat → Byte
  kernEnd : Word
  bootstack : Word
  kernEnd_gt : kernbase + extphysmem < kernEnd
  bootstack_mem : kernbase + extphysmem ≤ bootstack ∧ bootstack + kstksize ≤ kernEnd ∧
    bootstack ≤ bootstack + kstksize
  bootstack_aligned : pgoff bootstack = 0

def nvramBaselo : Nat := 21

def nvramExtlo : Nat := 23

def nvramRead (m : Machine) (r : Nat) : Nat := (m.cmos r).toNat ||| (m.cmos (r + 1)).toNat <<< 8

def sizeofPageInfo : Word := 8#32

def sizeofEnv : Word := 96#32

def nenv : Nat := 1024

def zeroRegs : PushRegs := ⟨0, 0, 0, 0, 0, 0, 0, 0⟩

def zeroTrapframe : Trapframe := ⟨zeroRegs, 0, 0, 0, 0, 0, 0, 0, 0, 0⟩

def zeroEnv : Env := ⟨zeroTrapframe, none, 0, 0, .user, .free, 0, none⟩

/-- The kernel's variables in its cleared BSS, over arbitrary memory contents. -/
def bss (mem : Nat → Nat → Word) : Kernel where
  npages := 0
  npagesBasemem := 0
  nextfree := 0
  kernPgdir := 0
  pagesVa := 0
  envsVa := 0
  pages := fun _ => ⟨none, 0⟩
  pageFreeList := none
  envs := fun _ => zeroEnv
  envFreeList := none
  curenv := none
  userMemCheckAddr := 0
  mem := mem
  cr3 := 0
  log := []

/-- i386_detect_memory, without its report on the console. -/
def i386DetectMemory (m : Machine) : Kern Unit := do
  let npagesBasemem := nvramRead m nvramBaselo * 1024 / 4096
  let npagesExtmem := nvramRead m nvramExtlo * 1024 / 4096
  let npages := if npagesExtmem ≠ 0 then extphysmem.toNat / 4096 + npagesExtmem else npagesBasemem
  update fun s => { s with npages := npages, npagesBasemem := npagesBasemem }

/-- PADDR. -/
def paddr (kva : Word) : Kern Word := do
  check (.panic "PADDR called with invalid kva %08lx") (kernbase ≤ kva)
  pure (kva - kernbase)

def bootAlloc (m : Machine) (n : Word) : Kern Word := do
  update fun s => if s.nextfree = 0 then { s with nextfree := roundUp m.kernEnd pgsize } else s
  let s ← read
  let pa ← paddr s.nextfree
  check (.panic "boot_alloc out of memory") (pa < BitVec.ofNat 32 s.npages * pgsize)
  let requiredPages := n / pgsize + if n % pgsize = 0 then 0#32 else 1#32
  update fun s => { s with nextfree := s.nextfree + requiredPages * pgsize }
  pure s.nextfree

/-- The pages page_init keeps off the free list. -/
def InUse (bootHeapEnd : Word) (i : Nat) : Prop :=
  i = 0 ∨ (iophysmem ≤ page2pa i ∧ page2pa i ≤ extphysmem) ∨
    (extphysmem < page2pa i ∧ page2pa i < bootHeapEnd)

instance (bootHeapEnd : Word) (i : Nat) : Decidable (InUse bootHeapEnd i) :=
  inferInstanceAs (Decidable (_ ∨ _))

/-- One round of page_init's loop. -/
def pageInitStep (bootHeapEnd : Word) (i : Nat) (s : Kernel) : Kernel :=
  let s := s.setRef i 0
  if InUse bootHeapEnd i then
    (s.setRef i 1).setLink i none
  else
    { s.setLink i s.pageFreeList with pageFreeList := some i }

/-- The loop of page_init over pages `0, ..., n - 1`. -/
def pageInitLoop (bootHeapEnd : Word) : Nat → Kernel → Kernel
  | 0, s => s
  | n + 1, s => pageInitStep bootHeapEnd n (pageInitLoop bootHeapEnd n s)

def pageInit (m : Machine) : Kern Unit := do
  let kva ← bootAlloc m 0#32
  let bootHeapEnd ← paddr kva
  update fun s => pageInitLoop bootHeapEnd s.npages s

/-- The directory entry that maps the directory itself, given its page. -/
def selfEntry (pgdir : Nat) : Word := page2pa pgdir ||| pteU ||| pteP

def pagesSize (s : Kernel) : Word := sizeofPageInfo * BitVec.ofNat 32 s.npages

def envsSize : Word := sizeofEnv * BitVec.ofNat 32 nenv

/-- mem_init until page_init has returned. -/
def memInitEarly (m : Machine) : Kern Unit := do
  i386DetectMemory m
  let kva ← bootAlloc m pgsize
  let pa ← paddr kva
  update fun s => { s with kernPgdir := pgnum pa }
  update fun s => s.fill s.kernPgdir 1024 0#32
  update fun s => s.store s.kernPgdir (pdx uvpt) (selfEntry s.kernPgdir)
  let s ← read
  let kva ← bootAlloc m (pagesSize s)
  update fun s => { s with pagesVa := kva, pages := fun _ => ⟨none, 0⟩ }
  let kva ← bootAlloc m envsSize
  update fun s => { s with envsVa := kva, envs := fun _ => zeroEnv }
  pageInit m

end Jos
