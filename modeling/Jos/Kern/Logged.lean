import Jos.Kern.Flush

/-! The event log tells all that mem_init does to memory and to cr3. -/
namespace Jos

open Prog

/-- Whoever has seen the events between the two states has followed memory and cr3. -/
def Logged (s t : Kernel) : Prop := ∃ events, Leads s t events

namespace Logged

variable {s t : Kernel} {d p i n : Nat} {w va : Word}

instance : Std.Refl Logged := ⟨fun _ => ⟨[], Leads.nil rfl rfl rfl⟩⟩

instance : IsTrans Kernel Logged := ⟨fun _ _ _ ⟨_, h⟩ ⟨_, h'⟩ => ⟨_, h.trans h'⟩⟩

theorem quiet (hm : t.mem = s.mem) (hc : t.cr3 = s.cr3) (hl : t.log = s.log) : Logged s t :=
  ⟨[], Leads.nil hm hc hl⟩

theorem store : Logged s (s.store p i w) := ⟨_, Leads.store⟩

/-- memset of a page, one logged store for each word. -/
theorem fill : Logged s (s.fill p n w) := by
  induction n with
  | zero =>
    rw [fill_zero]
    exact Std.Refl.refl s
  | succ n ih =>
    rw [fill_succ]
    exact IsTrans.trans _ _ _ ih store

end Logged

section loops

variable {α : Type} {R : Kernel → Kernel → Prop} [Std.Refl R] [IsTrans Kernel R]

theorem within_forRange {body : Nat → Kern Unit} (h : ∀ k, Within R (body k)) (n : Nat) :
    Within R (forRange body n) := by
  induction n with
  | zero => exact (observes_pure ()).within
  | succ n ih => exact ih.bind fun _ => h n

/-- A walk along pp_link keeps to what its body keeps to, also where the list has a cycle. -/
theorem within_forLink {body : α → Nat → Kern α} (h : ∀ acc pp, Within R (body acc pp)) (fuel : Nat) :
    ∀ o acc, Within R (forLink body fuel o acc) := by
  induction fuel with
  | zero =>
    rintro (_ | pp) acc
    · exact (observes_pure acc).within
    · exact (observes_stop _).within
  | succ fuel ih =>
    rintro (_ | pp) acc
    · exact (observes_pure acc).within
    · exact (h acc pp).bind fun acc => observes_read.within.bind fun s => ih _ acc

theorem within_forFreeList {body : α → Nat → Kern α} (h : ∀ acc pp, Within R (body acc pp)) (acc : α) :
    Within R (forFreeList body acc) :=
  observes_read.within.bind fun _ => within_forLink h _ _ acc

end loops

section calls

/-- page_alloc: the only stores are those that zero the page. -/
theorem pageAlloc_logged (flags : Word) : Within Logged (pageAlloc flags) := by
  refine observes_read.within.bind fun s => ?_
  cases s.pageFreeList with
  | none => exact (observes_pure none).within
  | some p =>
    have hrest : Within Logged (do
        update fun s => { s with pageFreeList := (s.pages p).ppLink }
        update fun s => s.setLink p none
        pure (some p) : Kern (Option Nat)) :=
      Within.bind (within_update fun _ => Logged.quiet rfl rfl rfl) fun _ =>
        Within.bind (within_update fun _ => Logged.quiet rfl rfl rfl) fun _ => (observes_pure _).within
    refine within_ite ?_ hrest
    exact (kaddr_observes _).within.bind fun _ =>
      Within.bind (within_update fun _ => Logged.fill) fun _ => hrest

theorem incRef_logged (pp : Nat) : Within Logged (incRef pp) :=
  within_update fun _ => Logged.quiet rfl rfl rfl

theorem pageFree_logged (pp : Nat) : Within Logged (pageFree pp) :=
  observes_read.within.bind fun _ => (observes_check _ _).within.bind fun _ =>
    (observes_check _ _).within.bind fun _ =>
      Within.bind (within_update fun _ => Logged.quiet rfl rfl rfl) fun _ =>
        within_update fun _ => Logged.quiet rfl rfl rfl

theorem pageDecref_logged (pp : Nat) : Within Logged (pageDecref pp) :=
  Within.bind (within_update fun _ => Logged.quiet rfl rfl rfl) fun _ => observes_read.within.bind fun _ =>
    within_ite (pageFree_logged pp) (observes_pure _).within

/-- pgdir_walk: the new table is zeroed and then entered, both in the log. -/
theorem pgdirWalk_logged (pgdir : Nat) (va : Word) (create : Bool) :
    Within Logged (pgdirWalk pgdir va create) := by
  refine observes_read.within.bind fun s => within_ite ?_ (within_ite ?_ (observes_pure _).within)
  · exact (kaddr_observes _).within.bind fun _ => (observes_pure _).within
  · refine (pageAlloc_logged _).bind fun o => ?_
    cases o with
    | none => exact (observes_pure _).within
    | some p =>
      exact (incRef_logged p).bind fun _ => Within.bind (within_update fun _ => Logged.store) fun _ =>
        (kaddr_observes _).within.bind fun _ => (observes_pure _).within

/-- page_remove: the entry is cleared before its invlpg. -/
theorem pageRemove_logged (pgdir : Nat) (va : Word) : Within Logged (pageRemove pgdir va) := by
  refine (pageLookup_observes _ _).within.bind fun o => ?_
  rcases o with ⟨_ | pp, _ | r⟩
  · exact (observes_pure _).within
  · exact (observes_pure _).within
  · exact (observes_pure _).within
  · exact observes_read.within.bind fun _ => (observes_check _ _).within.bind fun _ =>
      (pageDecref_logged pp).bind fun _ => Within.bind (within_update fun _ => Logged.store) fun _ =>
        within_update fun _ => ⟨_, Leads.emit⟩

theorem pageInsert_logged (pgdir pp : Nat) (va perm : Word) :
    Within Logged (pageInsert pgdir pp va perm) := by
  refine (pgdirWalk_logged _ _ _).bind fun o => ?_
  cases o with
  | none => exact (observes_pure _).within
  | some r =>
    exact (incRef_logged pp).bind fun _ => (pageRemove_logged _ _).bind fun _ =>
      Within.bind (within_update fun _ => Logged.store) fun _ => (observes_pure _).within

/-! mem_init, part by part. -/

theorem paddr_observes (kva : Word) : Observes (paddr kva) :=
  (observes_check _ _).bind fun _ => observes_pure _

theorem checkVa2pa_observes (pgdir : Nat) (va : Word) : Observes (checkVa2pa pgdir va) := by
  refine observes_read.bind fun s => observes_ite (observes_pure _) ?_
  exact (kaddr_observes _).bind fun _ => observes_read.bind fun _ =>
    observes_ite (observes_pure _) (observes_pure _)

theorem assertVa2pa_observes (pgdir : Nat) (va pa : Word) : Observes (assertVa2pa pgdir va pa) :=
  (checkVa2pa_observes pgdir va).bind fun _ => observes_check _ _

theorem assertRef_observes (pp : Nat) (r : BitVec 16) : Observes (assertRef pp r) :=
  observes_read.bind fun _ => observes_check _ _

theorem assertTable_observes (pgdir i pp : Nat) : Observes (assertTable pgdir i pp) :=
  observes_read.bind fun _ => observes_check _ _

theorem assertFlag_observes (pgdir : Nat) (va flag : Word) (set : Bool) :
    Observes (assertFlag pgdir va flag set) := by
  refine (pgdirWalk_observes pgdir va).bind fun o => ?_
  cases o with
  | none => exact observes_stop _
  | some r => exact observes_read.bind fun _ => observes_check _ _

theorem assertWord_observes (va w : Word) : Observes (assertWord va w) := by
  refine Observes.bind (observes_read.bind fun s => ?_) fun _ => observes_check _ _
  cases hwWalk s.mem s.cr3 va with
  | none => exact observes_stop _
  | some x => exact observes_pure _

/-- A store of the self-tests through the page tables that are loaded. -/
theorem storeWord_logged (va w : Word) : Within Logged (storeWord va w) := by
  refine observes_read.within.bind fun s => ?_
  cases hwWalk s.mem s.cr3 va with
  | none => exact (observes_stop _).within
  | some x => exact (observes_check _ _).within.bind fun _ => within_update fun _ => Logged.store

theorem allocPage_logged (text : String) : Within Logged (allocPage text) := by
  refine (pageAlloc_logged _).bind fun o => ?_
  cases o with
  | none => exact (observes_stop _).within
  | some pp => exact (observes_pure _).within

theorem assertNoFreePage_logged : Within Logged assertNoFreePage :=
  (pageAlloc_logged _).bind fun _ => (observes_check _ _).within

theorem assertInsert_logged (pgdir pp : Nat) (va perm : Word) :
    Within Logged (assertInsert pgdir pp va perm) :=
  (pageInsert_logged _ _ _ _).bind fun _ => (observes_check _ _).within

theorem assertInsertFails_logged (pgdir pp : Nat) (va perm : Word) :
    Within Logged (assertInsertFails pgdir pp va perm) :=
  (pageInsert_logged _ _ _ _).bind fun _ => (observes_check _ _).within

theorem setFreeList_logged (o : Option Nat) : Within Logged (setFreeList o) :=
  within_update fun _ => Logged.quiet rfl rfl rfl

theorem setPageRef_logged (pp : Nat) (r : BitVec 16) : Within Logged (setPageRef pp r) :=
  within_update fun _ => Logged.quiet rfl rfl rfl

theorem setDirEntry_logged (pgdir i : Nat) (w : Word) : Within Logged (setDirEntry pgdir i w) :=
  within_update fun _ => Logged.store

theorem memsetPage_logged (page : Nat) (w : Word) : Within Logged (memsetPage page w) :=
  within_update fun _ => Logged.fill

theorem countFreeList_logged : Within Logged countFreeList :=
  within_forFreeList (fun _ _ => (observes_pure _).within) 0

theorem bootAlloc_logged (m : Machine) (n : Word) : Within Logged (bootAlloc m n) := by
  refine Within.bind (within_update fun s => ?_) fun _ => observes_read.within.bind fun _ =>
    (paddr_observes _).within.bind fun _ => (observes_check _ _).within.bind fun _ =>
      Within.bind (within_update fun _ => Logged.quiet rfl rfl rfl) fun _ => (observes_pure _).within
  split
  · exact Logged.quiet rfl rfl rfl
  · exact Std.Refl.refl s

/-- page_init touches the books only. -/
theorem pageInitLoop_logged (bootHeapEnd : Word) (n : Nat) (s : Kernel) :
    Logged s (pageInitLoop bootHeapEnd n s) := by
  induction n with
  | zero => exact Std.Refl.refl s
  | succ n ih =>
    refine IsTrans.trans _ _ _ ih ?_
    rw [pageInitLoop, pageInitStep]
    dsimp only
    split
    · exact Logged.quiet rfl rfl rfl
    · exact Logged.quiet rfl rfl rfl

/-- mem_init up to page_init: the cleared directory and its UVPT entry. -/
theorem memInitEarly_logged (m : Machine) : Within Logged (memInitEarly m) := by
  refine Within.bind (within_update fun _ => Logged.quiet rfl rfl rfl) fun _ => ?_
  refine (bootAlloc_logged _ _).bind fun _ => (paddr_observes _).within.bind fun _ => ?_
  refine Within.bind (within_update fun _ => Logged.quiet rfl rfl rfl) fun _ => ?_
  refine Within.bind (within_update fun _ => Logged.fill) fun _ => ?_
  refine Within.bind (within_update fun _ => Logged.store) fun _ => observes_read.within.bind fun _ => ?_
  refine (bootAlloc_logged _ _).bind fun _ => ?_
  refine Within.bind (within_update fun _ => Logged.quiet rfl rfl rfl) fun _ => ?_
  refine (bootAlloc_logged _ _).bind fun _ => ?_
  refine Within.bind (within_update fun _ => Logged.quiet rfl rfl rfl) fun _ => ?_
  refine (bootAlloc_logged _ _).bind fun _ => (paddr_observes _).within.bind fun _ => ?_
  exact within_update fun s => pageInitLoop_logged _ _ s

theorem assign_logged (l : SortList) (o : Option Nat) : Within Logged (l.assign o) := by
  unfold SortList.assign
  split
  · exact (observes_pure _).within
  · exact Within.bind (within_update fun _ => Logged.quiet rfl rfl rfl) fun _ => (observes_pure _).within

theorem lowPagesFirst_logged (limit : Nat) : Within Logged (lowPagesFirst limit) := by
  refine (within_forFreeList (fun ls pp => within_ite ?_ ?_) _).bind fun ls => ?_
  · exact (assign_logged _ _).bind fun _ => (observes_pure _).within
  · exact (assign_logged _ _).bind fun _ => (observes_pure _).within
  · exact (assign_logged _ _).bind fun _ => (assign_logged _ _).bind fun _ =>
      within_update fun _ => Logged.quiet rfl rfl rfl

theorem soilFreeList_logged (limit : Nat) : Within Logged (soilFreeList limit) := by
  refine within_forFreeList (fun _ pp => within_ite ?_ (observes_pure _).within) ()
  exact (kaddr_observes _).within.bind fun _ => within_update fun _ => Logged.fill

theorem countFreePages_logged (first : Word) : Within Logged (countFreePages first) := by
  refine within_forFreeList (fun n pp => observes_read.within.bind fun s => ?_) _
  refine (observes_check _ _).within.bind fun _ => (observes_check _ _).within.bind fun _ => ?_
  refine (observes_check _ _).within.bind fun _ => (observes_check _ _).within.bind fun _ => ?_
  refine (observes_check _ _).within.bind fun _ => within_ite (observes_pure _).within ?_
  exact (kaddr_observes _).within.bind fun _ => (observes_check _ _).within.bind fun _ =>
    (observes_pure _).within

/-- check_page_free_list sorts the list, fills the low pages and counts. -/
theorem checkPageFreeList_logged (m : Machine) (onlyLow : Bool) :
    Within Logged (checkPageFreeList m onlyLow) := by
  have hcount : ∀ limit, Within Logged (do
      soilFreeList limit
      let firstFreePage ← bootAlloc m 0#32
      countFreePages firstFreePage) := fun limit =>
    (soilFreeList_logged _).bind fun _ => (bootAlloc_logged _ _).bind fun _ => countFreePages_logged _
  have htally : Within Logged (tallyFreeList m onlyLow) := by
    refine observes_read.within.bind fun s => (observes_check _ _).within.bind fun _ => ?_
    refine within_ite ?_ (hcount _)
    exact (lowPagesFirst_logged _).bind fun _ => hcount _
  refine htally.bind ?_
  rintro ⟨nfreeBasemem, nfreeExtmem⟩
  exact (observes_check _ _).within.bind fun _ => (observes_check _ _).within

theorem checkPageAlloc_logged : Within Logged checkPageAlloc := by
  refine observes_read.within.bind fun _ => (observes_check _ _).within.bind fun _ => ?_
  refine countFreeList_logged.bind fun _ => (allocPage_logged _).bind fun _ => ?_
  refine (allocPage_logged _).bind fun _ => (allocPage_logged _).bind fun _ => ?_
  refine (observes_check _ _).within.bind fun _ => (observes_check _ _).within.bind fun _ => ?_
  refine observes_read.within.bind fun _ => (observes_check _ _).within.bind fun _ => ?_
  refine (observes_check _ _).within.bind fun _ => (observes_check _ _).within.bind fun _ => ?_
  refine (setFreeList_logged _).bind fun _ => assertNoFreePage_logged.bind fun _ => ?_
  refine (pageFree_logged _).bind fun _ => (pageFree_logged _).bind fun _ => ?_
  refine (pageFree_logged _).bind fun _ => (allocPage_logged _).bind fun _ => ?_
  refine (allocPage_logged _).bind fun _ => (allocPage_logged _).bind fun _ => ?_
  refine (observes_check _ _).within.bind fun _ => (observes_check _ _).within.bind fun _ => ?_
  refine assertNoFreePage_logged.bind fun _ => (kaddr_observes _).within.bind fun _ => ?_
  refine (memsetPage_logged _ _).bind fun _ => (pageFree_logged _).bind fun _ => ?_
  refine (pageAlloc_logged _).bind fun _ => (observes_check _ _).within.bind fun _ => ?_
  refine (kaddr_observes _).within.bind fun _ => ?_
  refine (within_forRange (fun _ => observes_read.within.bind fun _ =>
    (observes_check _ _).within) _).bind fun _ => ?_
  refine (setFreeList_logged _).bind fun _ => (pageFree_logged _).bind fun _ => ?_
  refine (pageFree_logged _).bind fun _ => (pageFree_logged _).bind fun _ => ?_
  exact countFreeList_logged.bind fun _ => (observes_check _ _).within

theorem checkPage_logged : Within Logged checkPage := by
  refine observes_read.within.bind fun _ => (allocPage_logged _).bind fun _ => ?_
  refine (allocPage_logged _).bind fun _ => (allocPage_logged _).bind fun _ => ?_
  refine (observes_check _ _).within.bind fun _ => (observes_check _ _).within.bind fun _ => ?_
  refine observes_read.within.bind fun _ => (setFreeList_logged _).bind fun _ => ?_
  refine assertNoFreePage_logged.bind fun _ => (pageLookup_observes _ _).within.bind fun _ => ?_
  refine (observes_check _ _).within.bind fun _ => (assertInsertFails_logged _ _ _ _).bind fun _ => ?_
  refine (pageFree_logged _).bind fun _ => (assertInsert_logged _ _ _ _).bind fun _ => ?_
  refine (assertTable_observes _ _ _).within.bind fun _ => ?_
  refine (assertVa2pa_observes _ _ _).within.bind fun _ => (assertRef_observes _ _).within.bind fun _ => ?_
  refine (assertRef_observes _ _).within.bind fun _ => (assertInsert_logged _ _ _ _).bind fun _ => ?_
  refine (assertVa2pa_observes _ _ _).within.bind fun _ => (assertRef_observes _ _).within.bind fun _ => ?_
  refine assertNoFreePage_logged.bind fun _ => (assertInsert_logged _ _ _ _).bind fun _ => ?_
  refine (assertVa2pa_observes _ _ _).within.bind fun _ => (assertRef_observes _ _).within.bind fun _ => ?_
  refine assertNoFreePage_logged.bind fun _ => observes_read.within.bind fun _ => ?_
  refine (kaddr_observes _).within.bind fun _ => (pgdirWalk_logged _ _ _).bind fun _ => ?_
  refine (observes_check _ _).within.bind fun _ => (assertInsert_logged _ _ _ _).bind fun _ => ?_
  refine (assertVa2pa_observes _ _ _).within.bind fun _ => (assertRef_observes _ _).within.bind fun _ => ?_
  refine (assertFlag_observes _ _ _ _).within.bind fun _ => observes_read.within.bind fun _ => ?_
  refine (observes_check _ _).within.bind fun _ => (assertInsert_logged _ _ _ _).bind fun _ => ?_
  refine (assertFlag_observes _ _ _ _).within.bind fun _ => ?_
  refine (assertFlag_observes _ _ _ _).within.bind fun _ => ?_
  refine (assertInsertFails_logged _ _ _ _).bind fun _ => (assertInsert_logged _ _ _ _).bind fun _ => ?_
  refine (assertFlag_observes _ _ _ _).within.bind fun _ => ?_
  refine (assertVa2pa_observes _ _ _).within.bind fun _ => ?_
  refine (assertVa2pa_observes _ _ _).within.bind fun _ => (assertRef_observes _ _).within.bind fun _ => ?_
  refine (assertRef_observes _ _).within.bind fun _ => (pageAlloc_logged _).bind fun _ => ?_
  refine (observes_check _ _).within.bind fun _ => (pageRemove_logged _ _).bind fun _ => ?_
  refine (assertVa2pa_observes _ _ _).within.bind fun _ => ?_
  refine (assertVa2pa_observes _ _ _).within.bind fun _ => (assertRef_observes _ _).within.bind fun _ => ?_
  refine (assertRef_observes _ _).within.bind fun _ => (assertInsert_logged _ _ _ _).bind fun _ => ?_
  refine observes_read.within.bind fun _ => (observes_check _ _).within.bind fun _ => ?_
  refine (observes_check _ _).within.bind fun _ => (pageRemove_logged _ _).bind fun _ => ?_
  refine (assertVa2pa_observes _ _ _).within.bind fun _ => ?_
  refine (assertVa2pa_observes _ _ _).within.bind fun _ => (assertRef_observes _ _).within.bind fun _ => ?_
  refine (assertRef_observes _ _).within.bind fun _ => (pageAlloc_logged _).bind fun _ => ?_
  refine (observes_check _ _).within.bind fun _ => assertNoFreePage_logged.bind fun _ => ?_
  refine (assertTable_observes _ _ _).within.bind fun _ => (setDirEntry_logged _ _ _).bind fun _ => ?_
  refine (assertRef_observes _ _).within.bind fun _ => (setPageRef_logged _ _).bind fun _ => ?_
  refine (pageFree_logged _).bind fun _ => (pgdirWalk_logged _ _ _).bind fun _ => ?_
  refine observes_read.within.bind fun _ => (kaddr_observes _).within.bind fun _ => ?_
  refine (observes_check _ _).within.bind fun _ => (setDirEntry_logged _ _ _).bind fun _ => ?_
  refine (setPageRef_logged _ _).bind fun _ => (kaddr_observes _).within.bind fun _ => ?_
  refine (memsetPage_logged _ _).bind fun _ => (pageFree_logged _).bind fun _ => ?_
  refine (pgdirWalk_logged _ _ _).bind fun _ => (kaddr_observes _).within.bind fun _ => ?_
  refine (within_forRange (fun _ => observes_read.within.bind fun _ =>
    (observes_check _ _).within) _).bind fun _ => ?_
  refine (setDirEntry_logged _ _ _).bind fun _ => (setPageRef_logged _ _).bind fun _ => ?_
  refine (setFreeList_logged _).bind fun _ => (pageFree_logged _).bind fun _ => ?_
  exact (pageFree_logged _).bind fun _ => (pageFree_logged _)

theorem checkPageInstalledPgdir_logged : Within Logged checkPageInstalledPgdir := by
  refine observes_read.within.bind fun _ => (allocPage_logged _).bind fun _ => ?_
  refine (allocPage_logged _).bind fun _ => (allocPage_logged _).bind fun _ => ?_
  refine (pageFree_logged _).bind fun _ => (kaddr_observes _).within.bind fun _ => ?_
  refine (memsetPage_logged _ _).bind fun _ => (kaddr_observes _).within.bind fun _ => ?_
  refine (memsetPage_logged _ _).bind fun _ => (pageInsert_logged _ _ _ _).bind fun _ => ?_
  refine (assertRef_observes _ _).within.bind fun _ => (assertWord_observes _ _).within.bind fun _ => ?_
  refine (pageInsert_logged _ _ _ _).bind fun _ => (assertWord_observes _ _).within.bind fun _ => ?_
  refine (assertRef_observes _ _).within.bind fun _ => (assertRef_observes _ _).within.bind fun _ => ?_
  refine (storeWord_logged _ _).bind fun _ => (kaddr_observes _).within.bind fun _ => ?_
  refine observes_read.within.bind fun _ => (observes_check _ _).within.bind fun _ => ?_
  refine (pageRemove_logged _ _).bind fun _ => (assertRef_observes _ _).within.bind fun _ => ?_
  refine (assertTable_observes _ _ _).within.bind fun _ => (setDirEntry_logged _ _ _).bind fun _ => ?_
  refine (assertRef_observes _ _).within.bind fun _ => (setPageRef_logged _ _).bind fun _ => ?_
  exact (pageFree_logged _)

theorem bootMapRegion_logged (pgdir : Nat) (va size pa perm : Word) :
    Within Logged (bootMapRegion pgdir va size pa perm) := by
  refine within_forRange (fun k => (pgdirWalk_logged _ _ _).bind fun o => ?_) _
  cases o with
  | none => exact (observes_stop _).within
  | some r => exact within_update fun _ => Logged.store

theorem mapKernel_logged (m : Machine) : Within Logged (mapKernel m) := by
  refine observes_read.within.bind fun s => (paddr_observes _).within.bind fun _ => ?_
  refine (bootMapRegion_logged _ _ _ _ _).bind fun _ => (bootMapRegion_logged _ _ _ _ _).bind fun _ => ?_
  refine (paddr_observes _).within.bind fun _ => (bootMapRegion_logged _ _ _ _ _).bind fun _ => ?_
  refine (bootMapRegion_logged _ _ _ _ _).bind fun _ => (paddr_observes _).within.bind fun _ => ?_
  exact (bootMapRegion_logged _ _ _ _ _).bind fun _ => bootMapRegion_logged _ _ _ _ _

theorem assertMapped_logged (pgdir : Nat) (va pa : Word) (n : Nat) :
    Within Logged (assertMapped pgdir va pa n) :=
  within_forRange (fun _ => (assertVa2pa_observes _ _ _).within) n

theorem checkKernPgdir_logged (m : Machine) : Within Logged (checkKernPgdir m) := by
  refine observes_read.within.bind fun s => (paddr_observes _).within.bind fun _ => ?_
  refine (assertMapped_logged _ _ _ _).bind fun _ => (paddr_observes _).within.bind fun _ => ?_
  refine (assertMapped_logged _ _ _ _).bind fun _ => (assertMapped_logged _ _ _ _).bind fun _ => ?_
  refine (paddr_observes _).within.bind fun _ => (assertMapped_logged _ _ _ _).bind fun _ => ?_
  refine (assertVa2pa_observes _ _ _).within.bind fun _ => within_forRange (fun i => ?_) _
  refine observes_read.within.bind fun s => within_ite (observes_check _ _).within (within_ite ?_ ?_)
  · exact (observes_check _ _).within.bind fun _ => (observes_check _ _).within
  · exact (observes_check _ _).within

/-- mem_init as a whole, its self-tests and the load of cr3 included. -/
theorem memInit_logged (m : Machine) : Within Logged (memInit m) := by
  refine (memInitEarly_logged m).bind fun _ => (checkPageFreeList_logged m true).bind fun _ => ?_
  refine checkPageAlloc_logged.bind fun _ => checkPage_logged.bind fun _ => ?_
  refine (mapKernel_logged m).bind fun _ => (checkKernPgdir_logged m).bind fun _ => ?_
  refine observes_read.within.bind fun s => Within.bind (within_update fun _ => ⟨_, Leads.lcr3⟩) fun _ => ?_
  exact (checkPageFreeList_logged m false).bind fun _ => checkPageInstalledPgdir_logged

end calls

end Jos
