import Jos.Kern.Boot
import Jos.Kern.Hardware

/-! mem_init after page_init: its self-tests, the kernel's own map, and the switch to it. -/
namespace Jos

open Prog

/-- assert. -/
def assert (text : String) (c : Prop) [Decidable c] : Kern Unit := check (.panic text) c

/-- `for (pp = head; pp; pp = pp->pp_link)`. A list with more pages than there are never ends. -/
def forLink {α : Type} (body : α → Nat → Kern α) : Nat → Option Nat → α → Kern α
  | _, none, acc => pure acc
  | 0, some _, _ => stop .spin
  | fuel + 1, some pp, acc => do
    let acc ← body acc pp
    let s ← read
    forLink body fuel (s.pages pp).ppLink acc

def forFreeList {α : Type} (body : α → Nat → Kern α) (acc : α) : Kern α := do
  let s ← read
  forLink body s.npages s.pageFreeList acc

/-- `for (i = 0; i < n; i++)`. -/
def forRange (body : Nat → Kern Unit) : Nat → Kern Unit
  | 0 => pure ()
  | n + 1 => do
    forRange body n
    body n

/-- Where a PageInfo pointer is kept: a local variable, or the pp_link of a page. -/
inductive LinkSlot where
  | var
  | link (pp : Nat)
deriving DecidableEq

/-- One of the two lists check_page_free_list sorts into: its first page, and where the next
one goes. -/
structure SortList where
  first : Option Nat
  tail : LinkSlot

def SortList.assign (l : SortList) (o : Option Nat) : Kern SortList :=
  match l.tail with
  | .var => pure { l with first := o }
  | .link pp => do
    update fun s => s.setLink pp o
    pure l

/-- Move the pages below the limit to the front of the free list. -/
def lowPagesFirst (pdxLimit : Nat) : Kern Unit := do
  let (low, high) ← forFreeList (fun (ls : SortList × SortList) pp => do
    if pdx (page2pa pp) ≥ pdxLimit then
      let high ← ls.2.assign (some pp)
      pure (ls.1, { high with tail := .link pp })
    else
      let low ← ls.1.assign (some pp)
      pure ({ low with tail := .link pp }, ls.2)) (⟨none, .var⟩, ⟨none, .var⟩)
  let high ← high.assign none
  let low ← low.assign high.first
  update fun s => { s with pageFreeList := low.first }

/-- memset of a whole page, one word at a time. -/
def memsetPage (page : Nat) (w : Word) : Kern Unit := update fun s => s.fill page 1024 w

/-- If a page of the list is in use after all, try to make sure it eventually causes trouble. -/
def soilFreeList (pdxLimit : Nat) : Kern Unit :=
  forFreeList (fun (_ : Unit) pp => do
    if pdx (page2pa pp) < pdxLimit then
      let kva ← page2kva pp
      update fun s => s.fill kva 32 0x97979797#32
    else
      pure ()) ()

/-- The pages of base and of extended memory on the list, each page checked. -/
def countFreePages (firstFreePage : Word) : Kern (Nat × Nat) :=
  forFreeList (fun (n : Nat × Nat) pp => do
    let s ← read
    assert "pp < pages + npages" (pp < s.npages)
    assert "page2pa(pp) != 0" (page2pa pp ≠ 0)
    assert "page2pa(pp) != IOPHYSMEM" (page2pa pp ≠ iophysmem)
    assert "page2pa(pp) != EXTPHYSMEM - PGSIZE" (page2pa pp ≠ extphysmem - pgsize)
    assert "page2pa(pp) != EXTPHYSMEM" (page2pa pp ≠ extphysmem)
    if page2pa pp < extphysmem then
      pure (n.1 + 1, n.2)
    else
      let kva ← page2kva pp
      assert "(char *) page2kva(pp) >= first_free_page" (firstFreePage ≤ kernbase + page2pa kva)
      pure (n.1, n.2 + 1)) (0, 0)

/-- check_page_free_list up to its last two assertions. -/
def tallyFreeList (m : Machine) (onlyLowMemory : Bool) : Kern (Nat × Nat) := do
  let s ← read
  check (.panic "'page_free_list' is a null pointer!") (s.pageFreeList ≠ none)
  let pdxLimit := if onlyLowMemory then 1 else npdentries
  if onlyLowMemory then lowPagesFirst pdxLimit else pure ()
  soilFreeList pdxLimit
  let firstFreePage ← bootAlloc m 0#32
  countFreePages firstFreePage

def checkPageFreeList (m : Machine) (onlyLowMemory : Bool) : Kern Unit := do
  let (nfreeBasemem, nfreeExtmem) ← tallyFreeList m onlyLowMemory
  assert "nfree_basemem > 0" (0 < nfreeBasemem)
  assert "nfree_extmem > 0" (0 < nfreeExtmem)

/-- `assert((pp = page_alloc(0)))`. -/
def allocPage (text : String) : Kern Nat := do
  match ← pageAlloc 0#32 with
  | none => stop (.panic text)
  | some pp => pure pp

/-- `assert(!page_alloc(0))`. -/
def assertNoFreePage : Kern Unit := do
  let pp ← pageAlloc 0#32
  assert "!page_alloc(0)" (pp = none)

def setFreeList (o : Option Nat) : Kern Unit := update fun s => { s with pageFreeList := o }

def countFreeList : Kern Nat := forFreeList (fun n _ => pure (n + 1)) 0

def checkPageAlloc : Kern Unit := do
  let s ← read
  check (.panic "'pages' is a null pointer!") (s.pagesVa ≠ 0)
  let nfree ← countFreeList
  let pp0 ← allocPage "(pp0 = page_alloc(0))"
  let pp1 ← allocPage "(pp1 = page_alloc(0))"
  let pp2 ← allocPage "(pp2 = page_alloc(0))"
  assert "pp1 && pp1 != pp0" (pp1 ≠ pp0)
  assert "pp2 && pp2 != pp1 && pp2 != pp0" (pp2 ≠ pp1 ∧ pp2 ≠ pp0)
  let s ← read
  assert "page2pa(pp0) < npages*PGSIZE" (page2pa pp0 < BitVec.ofNat 32 s.npages * pgsize)
  assert "page2pa(pp1) < npages*PGSIZE" (page2pa pp1 < BitVec.ofNat 32 s.npages * pgsize)
  assert "page2pa(pp2) < npages*PGSIZE" (page2pa pp2 < BitVec.ofNat 32 s.npages * pgsize)
  let fl := s.pageFreeList
  setFreeList none
  assertNoFreePage
  pageFree pp0
  pageFree pp1
  pageFree pp2
  let pp0 ← allocPage "(pp0 = page_alloc(0))"
  let pp1 ← allocPage "(pp1 = page_alloc(0))"
  let pp2 ← allocPage "(pp2 = page_alloc(0))"
  assert "pp1 && pp1 != pp0" (pp1 ≠ pp0)
  assert "pp2 && pp2 != pp1 && pp2 != pp0" (pp2 ≠ pp1 ∧ pp2 ≠ pp0)
  assertNoFreePage
  let kva ← page2kva pp0
  memsetPage kva 0x01010101#32
  pageFree pp0
  let pp ← pageAlloc allocZero
  assert "(pp = page_alloc(ALLOC_ZERO))" (pp = some pp0)
  let c ← page2kva pp0
  forRange (fun i => do
    let s ← read
    assert "c[i] == 0" (s.mem c i = 0#32)) 1024
  setFreeList fl
  pageFree pp0
  pageFree pp1
  pageFree pp2
  let n ← countFreeList
  assert "nfree == 0" (n = nfree)

def noPage : Word := ~~~0#32

/-- check_va2pa: the physical page of `va`, or ~0. -/
def checkVa2pa (pgdir : Nat) (va : Word) : Kern Word := do
  let s ← read
  let pde := s.mem pgdir (pdx va)
  if ¬ Has pde pteP then
    pure noPage
  else
    let p ← kaddr (pteAddr pde)
    let s ← read
    let pte := s.mem p (ptx va)
    if ¬ Has pte pteP then pure noPage else pure (pteAddr pte)

def assertVa2pa (pgdir : Nat) (va pa : Word) : Kern Unit := do
  let r ← checkVa2pa pgdir va
  assert "check_va2pa(pgdir, va) == pa" (r = pa)

def assertRef (pp : Nat) (r : BitVec 16) : Kern Unit := do
  let s ← read
  assert "pp->pp_ref == r" ((s.pages pp).ppRef = r)

def assertInsert (pgdir pp : Nat) (va perm : Word) : Kern Unit := do
  let r ← pageInsert pgdir pp va perm
  assert "page_insert(kern_pgdir, pp, va, perm) == 0" (r = 0)

def assertInsertFails (pgdir pp : Nat) (va perm : Word) : Kern Unit := do
  let r ← pageInsert pgdir pp va perm
  assert "page_insert(kern_pgdir, pp, va, perm) < 0" (r < 0)

/-- `assert(*pgdir_walk(kern_pgdir, va, 0) & flag)`, or its negation. -/
def assertFlag (pgdir : Nat) (va flag : Word) (set : Bool) : Kern Unit := do
  match ← pgdirWalk pgdir va false with
  | none => stop (.panic "page fault")
  | some r =>
    let s ← read
    assert "*pgdir_walk(kern_pgdir, va, 0) & flag" (decide (Has (s.mem r.page r.idx) flag) = set)

def setDirEntry (pgdir i : Nat) (w : Word) : Kern Unit := update fun s => s.store pgdir i w

def setPageRef (pp : Nat) (r : BitVec 16) : Kern Unit := update fun s => s.setRef pp r

def assertTable (pgdir i pp : Nat) : Kern Unit := do
  let s ← read
  assert "PTE_ADDR(kern_pgdir[0]) == page2pa(pp0)" (pteAddr (s.mem pgdir i) = page2pa pp)

def checkPage : Kern Unit := do
  let s ← read
  let kernPgdir := s.kernPgdir
  let pp0 ← allocPage "(pp0 = page_alloc(0))"
  let pp1 ← allocPage "(pp1 = page_alloc(0))"
  let pp2 ← allocPage "(pp2 = page_alloc(0))"
  assert "pp1 && pp1 != pp0" (pp1 ≠ pp0)
  assert "pp2 && pp2 != pp1 && pp2 != pp0" (pp2 ≠ pp1 ∧ pp2 ≠ pp0)
  let s ← read
  let fl := s.pageFreeList
  setFreeList none
  assertNoFreePage
  let r ← pageLookup kernPgdir 0
  assert "page_lookup(kern_pgdir, (void *) 0x0, &ptep) == NULL" (r.1 = none)
  assertInsertFails kernPgdir pp1 0 pteW
  pageFree pp0
  assertInsert kernPgdir pp1 0 pteW
  assertTable kernPgdir 0 pp0
  assertVa2pa kernPgdir 0 (page2pa pp1)
  assertRef pp1 1
  assertRef pp0 1
  assertInsert kernPgdir pp2 pgsize pteW
  assertVa2pa kernPgdir pgsize (page2pa pp2)
  assertRef pp2 1
  assertNoFreePage
  assertInsert kernPgdir pp2 pgsize pteW
  assertVa2pa kernPgdir pgsize (page2pa pp2)
  assertRef pp2 1
  assertNoFreePage
  let s ← read
  let ptep ← kaddr (pteAddr (s.mem kernPgdir (pdx pgsize)))
  let r ← pgdirWalk kernPgdir pgsize false
  assert "pgdir_walk(kern_pgdir, (void*)PGSIZE, 0) == ptep+PTX(PGSIZE)" (r = some ⟨ptep, ptx pgsize⟩)
  assertInsert kernPgdir pp2 pgsize (pteW ||| pteU)
  assertVa2pa kernPgdir pgsize (page2pa pp2)
  assertRef pp2 1
  assertFlag kernPgdir pgsize pteU true
  let s ← read
  assert "kern_pgdir[0] & PTE_U" (Has (s.mem kernPgdir 0) pteU)
  assertInsert kernPgdir pp2 pgsize pteW
  assertFlag kernPgdir pgsize pteW true
  assertFlag kernPgdir pgsize pteU false
  assertInsertFails kernPgdir pp0 ptsize pteW
  assertInsert kernPgdir pp1 pgsize pteW
  assertFlag kernPgdir pgsize pteU false
  assertVa2pa kernPgdir 0 (page2pa pp1)
  assertVa2pa kernPgdir pgsize (page2pa pp1)
  assertRef pp1 2
  assertRef pp2 0
  let pp ← pageAlloc 0#32
  assert "(pp = page_alloc(0)) && pp == pp2" (pp = some pp2)
  pageRemove kernPgdir 0
  assertVa2pa kernPgdir 0 noPage
  assertVa2pa kernPgdir pgsize (page2pa pp1)
  assertRef pp1 1
  assertRef pp2 0
  assertInsert kernPgdir pp1 pgsize 0
  let s ← read
  assert "pp1->pp_ref" ((s.pages pp1).ppRef ≠ 0)
  assert "pp1->pp_link == NULL" ((s.pages pp1).ppLink = none)
  pageRemove kernPgdir pgsize
  assertVa2pa kernPgdir 0 noPage
  assertVa2pa kernPgdir pgsize noPage
  assertRef pp1 0
  assertRef pp2 0
  let pp ← pageAlloc 0#32
  assert "(pp = page_alloc(0)) && pp == pp1" (pp = some pp1)
  assertNoFreePage
  assertTable kernPgdir 0 pp0
  setDirEntry kernPgdir 0 0
  assertRef pp0 1
  setPageRef pp0 0
  pageFree pp0
  let va := pgsize * BitVec.ofNat 32 npdentries + pgsize
  let ptep ← pgdirWalk kernPgdir va true
  let s ← read
  let ptep1 ← kaddr (pteAddr (s.mem kernPgdir (pdx va)))
  assert "ptep == ptep1 + PTX(va)" (ptep = some ⟨ptep1, ptx va⟩)
  setDirEntry kernPgdir (pdx va) 0
  setPageRef pp0 0
  let kva ← page2kva pp0
  memsetPage kva 0xFFFFFFFF#32
  pageFree pp0
  let _ ← pgdirWalk kernPgdir 0 true
  let ptep ← page2kva pp0
  forRange (fun i => do
    let s ← read
    assert "(ptep[i] & PTE_P) == 0" (¬ Has (s.mem ptep i) pteP)) nptentries
  setDirEntry kernPgdir 0 0
  setPageRef pp0 0
  setFreeList fl
  pageFree pp0
  pageFree pp1
  pageFree pp2

/-- One round of boot_map_region's loop. -/
def bootMapPage (pgdir : Nat) (vaLocal paLocal perm : Word) : Kern Unit := do
  match ← pgdirWalk pgdir vaLocal true with
  | none =>
    stop (.panic "Could not allocate page for page table while using boot_map_region.")
  | some r => update fun s => s.store r.page r.idx (pteAddr paLocal ||| perm ||| pteP)

/-- Map `size` bytes at `va` to physical memory at `pa`. -/
def bootMapRegion (pgdir : Nat) (va size pa perm : Word) : Kern Unit :=
  forRange (fun pageOffset =>
    bootMapPage pgdir (va + BitVec.ofNat 32 pageOffset * pgsize)
      (pa + BitVec.ofNat 32 pageOffset * pgsize) perm) (size / pgsize).toNat

/-- `for (i = 0; i < n; i += PGSIZE) assert(check_va2pa(pgdir, va + i) == pa + i)`. -/
def assertMapped (pgdir : Nat) (va pa : Word) (n : Nat) : Kern Unit :=
  forRange (fun i => assertVa2pa pgdir (va + BitVec.ofNat 32 i * pgsize)
    (pa + BitVec.ofNat 32 i * pgsize)) n

def checkKernPgdir (m : Machine) : Kern Unit := do
  let s ← read
  let pgdir := s.kernPgdir
  let pa ← paddr s.pagesVa
  assertMapped pgdir upages pa (roundUp (pagesSize s) pgsize / pgsize).toNat
  let pa ← paddr s.envsVa
  assertMapped pgdir uenvs pa (roundUp envsSize pgsize / pgsize).toNat
  assertMapped pgdir kernbase 0#32 s.npages
  let pa ← paddr m.bootstack
  assertMapped pgdir (kstacktop - kstksize) pa (kstksize / pgsize).toNat
  assertVa2pa pgdir (kstacktop - ptsize) noPage
  forRange (fun i => do
    let s ← read
    let pde := s.mem pgdir i
    if i = pdx uvpt ∨ i = pdx (kstacktop - 1#32) ∨ i = pdx upages ∨ i = pdx uenvs then
      assert "pgdir[i] & PTE_P" (Has pde pteP)
    else if i ≥ pdx kernbase then do
      assert "pgdir[i] & PTE_P" (Has pde pteP)
      assert "pgdir[i] & PTE_W" (Has pde pteW)
    else
      assert "pgdir[i] == 0" (pde = 0#32)) npdentries

def Kernel.loadCr3 (s : Kernel) (pgdir : Nat) : Kernel :=
  { s with cr3 := pgdir, log := s.log ++ [.lcr3 pgdir] }

def lcr3 (pgdir : Nat) : Kern Unit := update fun s => s.loadCr3 pgdir

/-- Load a word through the directory in cr3; an unmapped address faults. -/
def loadWord (va : Word) : Kern Word := do
  let s ← read
  match hwWalk s.mem s.cr3 va with
  | none => stop (.panic "page fault")
  | some x => pure (s.mem x.page (pgoff va / 4))

/-- Store a word through the directory in cr3; CR0.WP makes the kernel obey PTE_W. -/
def storeWord (va w : Word) : Kern Unit := do
  let s ← read
  match hwWalk s.mem s.cr3 va with
  | none => stop (.panic "page fault")
  | some x =>
    check (.panic "page fault") (x.write = true)
    update fun s => s.store x.page (pgoff va / 4) w

def assertWord (va w : Word) : Kern Unit := do
  let r ← loadWord va
  assert "*(uint32_t *)PGSIZE == w" (r = w)

def checkPageInstalledPgdir : Kern Unit := do
  let s ← read
  let kernPgdir := s.kernPgdir
  let pp0 ← allocPage "(pp0 = page_alloc(0))"
  let pp1 ← allocPage "(pp1 = page_alloc(0))"
  let pp2 ← allocPage "(pp2 = page_alloc(0))"
  pageFree pp0
  let kva ← page2kva pp1
  memsetPage kva 0x01010101#32
  let kva ← page2kva pp2
  memsetPage kva 0x02020202#32
  let _ ← pageInsert kernPgdir pp1 pgsize pteW
  assertRef pp1 1
  assertWord pgsize 0x01010101#32
  let _ ← pageInsert kernPgdir pp2 pgsize pteW
  assertWord pgsize 0x02020202#32
  assertRef pp2 1
  assertRef pp1 0
  storeWord pgsize 0x03030303#32
  let kva ← page2kva pp2
  let s ← read
  assert "*(uint32_t *)page2kva(pp2) == 0x03030303U" (s.mem kva 0 = 0x03030303#32)
  pageRemove kernPgdir pgsize
  assertRef pp2 0
  assertTable kernPgdir 0 pp0
  setDirEntry kernPgdir 0 0
  assertRef pp0 1
  setPageRef pp0 0
  pageFree pp0

/-- `(2^32) - KERNBASE`: in C the first operator is exclusive or. -/
def physmemSize : Word := (2#32 ^^^ 32#32) - kernbase

/-- The kernel's map: six boot_map_region calls. -/
def mapKernel (m : Machine) : Kern Unit := do
  let s ← read
  let pa ← paddr s.pagesVa
  bootMapRegion s.kernPgdir upages (roundUp (pagesSize s) pgsize) pa pteU
  bootMapRegion s.kernPgdir s.pagesVa (roundUp (pagesSize s) pgsize) pa pteW
  let pa ← paddr s.envsVa
  bootMapRegion s.kernPgdir uenvs (roundUp envsSize pgsize) pa pteU
  bootMapRegion s.kernPgdir s.envsVa (roundUp envsSize pgsize) pa pteW
  let pa ← paddr m.bootstack
  bootMapRegion s.kernPgdir (kstacktop - kstksize) kstksize pa pteW
  bootMapRegion s.kernPgdir kernbase physmemSize 0#32 pteW

def memInit (m : Machine) : Kern Unit := do
  memInitEarly m
  checkPageFreeList m true
  checkPageAlloc
  checkPage
  mapKernel m
  checkKernPgdir m
  let s ← read
  lcr3 s.kernPgdir
  checkPageFreeList m false
  checkPageInstalledPgdir

end Jos
