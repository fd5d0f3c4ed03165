import Jos.Kern.State

/-! Physical page management and page tables (kern/pmap.h, kern/pmap.c). -/
namespace Jos

open Prog

def eNoMem : Int := 4

/-- KADDR: the page of the KERNBASE window at a physical address. -/
def kaddr (pa : Word) : Kern Nat := do
  let s ← read
  check (.panic "KADDR called with invalid pa %08lx") (pgnum pa < s.npages)
  pure (pgnum pa)

def pa2page (pa : Word) : Kern Nat := do
  let s ← read
  check (.panic "pa2page called with invalid pa") (pgnum pa < s.npages)
  pure (pgnum pa)

def page2kva (pp : Nat) : Kern Nat := kaddr (page2pa pp)

def allocZero : Word := 1#32

/-- page_alloc. A null PageInfo pointer is `none`. -/
def pageAlloc (allocFlags : Word) : Kern (Option Nat) := do
  let s ← read
  match s.pageFreeList with
  | none => pure none
  | some p =>
    if Has allocFlags allocZero then
      let kva ← page2kva p
      update fun s => s.fill kva 1024 0#32
    else
      pure ()
    update fun s => { s with pageFreeList := (s.pages p).ppLink }
    update fun s => s.setLink p none
    pure (some p)

def pageFree (pp : Nat) : Kern Unit := do
  let s ← read
  check (.panic "Page freed but pp_ref was non-zero.") ((s.pages pp).ppRef = 0)
  check (.panic "Page freed but pp_link was non-null.") ((s.pages pp).ppLink = none)
  update fun s => s.setLink pp s.pageFreeList
  update fun s => { s with pageFreeList := some pp }

def incRef (pp : Nat) : Kern Unit := update fun s => s.setRef pp ((s.pages pp).ppRef + 1)

def pageDecref (pp : Nat) : Kern Unit := do
  update fun s => s.setRef pp ((s.pages pp).ppRef - 1)
  let s ← read
  if (s.pages pp).ppRef = 0 then pageFree pp else pure ()

/-- pgdir_walk. The new table's entry permits all, so that its own entries decide. -/
def pgdirWalk (pgdir : Nat) (va : Word) (create : Bool) : Kern (Option PteRef) := do
  let s ← read
  let pgdirEntry := s.mem pgdir (pdx va)
  if Has pgdirEntry pteP then
    let pgtable ← kaddr (pteAddr pgdirEntry)
    pure (some ⟨pgtable, ptx va⟩)
  else if create then
    match ← pageAlloc allocZero with
    | none => pure none
    | some p =>
      incRef p
      update fun s => s.store pgdir (pdx va) (page2pa p ||| pteP ||| pteU ||| pteW)
      let pgtable ← kaddr (page2pa p)
      pure (some ⟨pgtable, ptx va⟩)
  else
    pure none

/-- page_lookup, returning the page and what it leaves in `*pte_store`. -/
def pageLookup (pgdir : Nat) (va : Word) : Kern (Option Nat × Option PteRef) := do
  match ← pgdirWalk pgdir va false with
  | none => pure (none, none)
  | some r =>
    let s ← read
    let pte := s.mem r.page r.idx
    if Has pte pteP then
      let pp ← pa2page (pteAddr pte)
      pure (some pp, some r)
    else
      pure (none, some r)

def tlbInvalidate (va : Word) : Kern Unit := update fun s => s.emit (.invlpg va)

def pageRemove (pgdir : Nat) (va : Word) : Kern Unit := do
  match ← pageLookup pgdir va with
  | (some pp, some r) =>
    let s ← read
    check (.panic "page_remove found a page with negative ref count") ((s.pages pp).ppRef ≠ 0)
    pageDecref pp
    update fun s => s.store r.page r.idx 0#32
    tlbInvalidate va
  | _ => pure ()

/-- page_insert: 0, or -E_NO_MEM when a page table is missing and none can be had. -/
def pageInsert (pgdir pp : Nat) (va perm : Word) : Kern Int := do
  match ← pgdirWalk pgdir va true with
  | none => pure (-eNoMem)
  | some r =>
    incRef pp
    pageRemove pgdir va
    update fun s => s.store r.page r.idx (pteAddr (page2pa pp) ||| perm ||| pteP)
    pure 0

end Jos
