import Jos.Kern.BootSpec

/-! Every run of the page allocator's interface, over any number of page directories. -/
namespace Jos

open Prog

/-- A call made to pmap.c by the rest of the kernel. `newDir` is what turns an allocated page
into a page directory: count its own reference and fill it in. -/
inductive PageCall where
  | alloc (allocFlags : Word)
  | free (pp : Nat)
  | insert (pgdir pp : Nat) (va perm : Word)
  | remove (pgdir : Nat) (va : Word)
  | newDir (pp : Nat) (entries : Nat → Word)

inductive CallResult where
  | page (pp : Option Nat)
  | status (r : Int)
  | unit
deriving DecidableEq

namespace Kernel

/-- Rewrite a whole page. -/
def writePage (s : Kernel) (p : Nat) (entries : Nat → Word) : Kernel :=
  { s with mem := fun q j => if q = p then entries j else s.mem q j }

/-- The page is on the free list, which is followed from its head. -/
def OnFreeList (s : Kernel) (p : Nat) : Prop :=
  ∃ fl, Chain (fun q => (s.pages q).ppLink) s.pageFreeList fl ∧ p ∈ fl

/-- Some entry below UTOP of a table of one of the directories `D` maps the page. -/
def Mapped (s : Kernel) (D : Finset Nat) (p : Nat) : Prop :=
  ∃ d ∈ D, ∃ i < 955, ∃ j < 1024, target (s.pte d i j) = some p

/-- The page is the page table of some entry below UTOP. -/
def IsTable (s : Kernel) (D : Finset Nat) (p : Nat) : Prop :=
  ∃ d ∈ D, ∃ i < 955, target (s.pde d i) = some p

/-- The number of present directory entries below UTOP that name the page. -/
def pdesNaming (s : Kernel) (D : Finset Nat) (p : Nat) : Nat :=
  ((D ×ˢ Finset.range 955).filter fun x => target (s.pde x.1 x.2) = some p).card

/-- The number of present page-table entries below UTOP that name the page. -/
def ptesNaming (s : Kernel) (D : Finset Nat) (p : Nat) : Nat :=
  ((D ×ˢ (Finset.range 955 ×ˢ Finset.range 1024)).filter
    fun x => target (s.pte x.1 x.2.1 x.2.2) = some p).card

end Kernel

namespace PageCall

def run : PageCall → Kern CallResult
  | alloc flags => do
    let p ← pageAlloc flags
    pure (.page p)
  | free pp => do
    pageFree pp
    pure .unit
  | insert pgdir pp va perm => do
    let r ← pageInsert pgdir pp va perm
    pure (.status r)
  | remove pgdir va => do
    pageRemove pgdir va
    pure .unit
  | newDir pp entries => do
    incRef pp
    update fun s => s.writePage pp entries
    pure .unit

/-- The page directories after the call. -/
def dirs : PageCall → Finset Nat → Finset Nat
  | newDir pp _, D => Insert.insert pp D
  | _, D => D

end PageCall

variable {m : Machine} {mem : Nat → Nat → Word} {s t : Kernel} {D : Finset Nat} {fl : List Nat}
  {p : Nat} {c : PageCall} {r : CallResult}

/-- A page the allocator gave out, or kern_pgdir: neither free nor reserved by page_init. -/
def Allocated (m : Machine) (s : Kernel) (p : Nat) : Prop :=
  p < s.npages ∧ ¬ s.OnFreeList p ∧ (Reserved m p → p = s.kernPgdir)

/-- What the interface asks of its callers. -/
def PageCall.Legal (m : Machine) (s : Kernel) (D : Finset Nat) : PageCall → Prop
  | alloc _ => True
  | free pp => Allocated m s pp ∧ (s.pages pp).ppRef = 0
  | insert pgdir pp va perm => pgdir ∈ D ∧ Allocated m s pp ∧ va < utop ∧ perm.toNat < 4096
  | remove pgdir va => pgdir ∈ D ∧ va < utop
  | newDir pp entries =>
    Allocated m s pp ∧ pp ∉ D ∧ ¬ s.IsTable D pp ∧ ∀ i < 955, ¬ Has (entries i) pteP

/-- No page has more than 65534 references. -/
def Bounded (s : Kernel) : Prop := ∀ p < s.npages, (s.pages p).ppRef.toNat ≤ 65534

/-- The states reached from page_init by legal calls, with their page directories. -/
inductive PageRun (m : Machine) (mem : Nat → Nat → Word) : Kernel → Finset Nat → Prop
  | start {s : Kernel} : memInitEarly m (bss mem) = .ok () s → PageRun m mem s {s.kernPgdir}
  | call {s t : Kernel} {D : Finset Nat} {c : PageCall} {r : CallResult} :
    PageRun m mem s D → c.Legal m s D → c.run s = .ok r t → Bounded t →
    PageRun m mem t (c.dirs D)

/-- The free list after the entry for `va` gave up its page: the page is on it when that was
its last reference. -/
def returned (s t : Kernel) (pgdir : Nat) (va : Word) (fl : List Nat) : List Nat :=
  match target (s.pte pgdir (pdx va) (ptx va)) with
  | none => fl
  | some q => if (t.pages q).ppRef = 0 then q :: fl else fl

/-- How a call from `s` to `t` changes the free list. -/
def FreeListChange (s t : Kernel) (fl fl' : List Nat) : PageCall → CallResult → Prop
  | .alloc _, r => r = .page fl.head? ∧ fl' = fl.tail
  | .free pp, _ => fl' = pp :: fl
  | .insert pgdir _ va _, r =>
    (r = .status (-eNoMem) ∧ target (s.pde pgdir (pdx va)) = none ∧ fl = [] ∧ fl' = []) ∨
    (r = .status 0 ∧ ∃ fl₁, fl' = returned s t pgdir va fl₁ ∧
      (target (s.pde pgdir (pdx va)) ≠ none ∧ fl₁ = fl ∨
        ∃ tbl, target (s.pde pgdir (pdx va)) = none ∧ fl = tbl :: fl₁ ∧
          target (t.pde pgdir (pdx va)) = some tbl))
  | .remove pgdir va, _ => fl' = returned s t pgdir va fl
  | .newDir _ _, _ => fl' = fl

/-- The free list is NULL-terminated and repeats no page, and its pages are in no use at all. -/
structure FreeListSound (s : Kernel) (D : Finset Nat) (fl : List Nat) : Prop where
  chain : Chain (fun q => (s.pages q).ppLink) s.pageFreeList fl
  nodup : fl.Nodup
  unused : ∀ p ∈ fl, (s.pages p).ppRef = 0 ∧ ¬ s.Mapped D p ∧ ¬ s.IsTable D p

/-- Every page in use is counted exactly: its entries, and one for a page directory. -/
def CountsExact (s : Kernel) (D : Finset Nat) : Prop :=
  ∀ p, s.Mapped D p ∨ s.IsTable D p →
    (s.pages p).ppRef.toNat = s.pdesNaming D p + s.ptesNaming D p + if p ∈ D then 1 else 0

/-- Every legal call returns, and changes the free list as it should. -/
def CallsReturn (m : Machine) (s : Kernel) (D : Finset Nat) (fl : List Nat) : Prop :=
  ∀ c : PageCall, c.Legal m s D → ∃ r t fl', c.run s = .ok r t ∧
    Chain (fun q => (t.pages q).ppLink) t.pageFreeList fl' ∧ FreeListChange s t fl fl' c r

theorem Balanced.onFreeList_iff {L : Ledger} (h : Balanced s L fl) : s.OnFreeList p ↔ p ∈ fl := by
  constructor
  · rintro ⟨fl', hc, hp⟩
    rwa [h.chain.unique hc]
  · exact fun hp => ⟨fl, h.chain, hp⟩

/-- The books of a run: the allocator's invariant, with page_init's own pages set aside. -/
structure Books (m : Machine) (s : Kernel) (L : Ledger) (fl : List Nat) : Prop where
  balanced : Balanced s L fl
  own : L.own = fun _ => Ledger.userEntries
  held : ∀ p, L.held p = if Reserved m p ∧ p ≠ heapBase m then 1 else 0
  kept : ∀ p < s.npages, Reserved m p → p ≠ heapBase m → (s.pages p).ppRef = 1
  kernPgdir : s.kernPgdir = heapBase m

namespace Books

variable {L : Ledger} {d i j pp q : Nat} {va perm flags : Word} {entries : Nat → Word}

theorem onFreeList_iff (h : Books m s L fl) : s.OnFreeList p ↔ p ∈ fl :=
  h.balanced.onFreeList_iff

/-- The reserved pages are named by no entry. -/
theorem kept_unreferenced (h : Books m s L fl) (hp : p < s.npages) (hu : Reserved m p)
    (hne : p ≠ heapBase m) : refs s L p = 0 ∧ p ∉ L.dirs := by
  have hc := h.balanced.count p hp
  rw [h.kept p hp hu hne, h.held, if_pos ⟨hu, hne⟩] at hc
  have h1 : (1 : BitVec 16).toNat = 1 := rfl
  refine ⟨by omega, fun hd => ?_⟩
  rw [Ledger.root_of_mem hd] at hc
  omega

theorem kept_of_ppRef (h : Books m s L fl) (hn : t.npages = s.npages)
    (href : ∀ p < s.npages, Reserved m p → p ≠ heapBase m → refs s L p = 0 →
      (t.pages p).ppRef = (s.pages p).ppRef) :
    ∀ p < t.npages, Reserved m p → p ≠ heapBase m → (t.pages p).ppRef = 1 := by
  intro p hp hu hne
  rw [hn] at hp
  rw [href p hp hu hne (h.kept_unreferenced hp hu hne).1]
  exact h.kept p hp hu hne

theorem own_iff (h : Books m s L fl) : i ∈ L.own d ↔ i < 955 := by
  rw [h.own, Ledger.mem_userEntries]

theorem not_reserved (h : Books m s L fl) (ha : Allocated m s p) (hne : p ≠ heapBase m) :
    ¬ Reserved m p := by
  intro hu
  exact hne ((ha.2.2 hu).trans h.kernPgdir)

theorem notMem_free (h : Books m s L fl) (ha : Allocated m s p) : p ∉ fl :=
  fun hp => ha.2.1 (h.onFreeList_iff.mpr hp)

theorem start (mem : Nat → Nat → Word) (hfit : HeapFits m) :
    Books m (afterPageInit m mem) (bootLedger m Ledger.userEntries)
    (freePages (page2pa (heapEnd m)) (detectedPages m)) where
  balanced := by
    apply balanced_boot hfit
    · intro i hi
      exact Ledger.mem_userEntries.mpr hi
    · intro i hi
      rw [Ledger.mem_userEntries] at hi
      omega
  own := rfl
  held := fun _ => rfl
  kept := by
    intro p hp hu _
    rw [npages_afterPageInit] at hp
    exact ((afterPageInit_done m mem).ref p hp).trans (if_pos hu)
  kernPgdir := kernPgdir_afterPageInit

/-- What one call achieves on books in order. -/
def Kept (m : Machine) (s : Kernel) (L : Ledger) (fl : List Nat) (c : PageCall) : Prop :=
  ∃ r t L' fl', c.run s = .ok r t ∧ Books m t L' fl' ∧ L'.dirs = c.dirs L.dirs ∧
    FreeListChange s t fl fl' c r

theorem alloc (h : Books m s L fl) : Kept m s L fl (.alloc flags) := by
  have hb := h.balanced
  cases fl with
  | nil =>
    have hrun : pageAlloc flags s = .ok none s := pageAlloc_none hb.head_eq
    exact ⟨.page none, _, L, [], by rw [PageCall.run, bind_ok hrun, pure_apply], h, rfl, rfl, rfl⟩
  | cons p fl =>
    have hp : p < s.npages := hb.free_lt (by simp)
    by_cases hf : Has flags allocZero
    · have hrun : pageAlloc flags s = .ok (some p) ((s.fill p 1024 0#32).take p) :=
        pageAlloc_zero hb.head_eq hf hp hb.npages_le
      obtain ⟨hrefs, hdir, -⟩ := hb.unreferenced hp (hb.free_ref (by simp))
      have hfill := hb.fill hdir (fun d hd i hi => Balanced.table_ne_of_refs hrefs hd hi) 1024 0#32
      refine ⟨.page (some p), _, L.loosen p, fl, by rw [PageCall.run, bind_ok hrun, pure_apply],
        ⟨hfill.take, h.own, h.held, ?_, h.kernPgdir⟩, rfl, rfl, rfl⟩
      refine h.kept_of_ppRef ?_ ?_
      · rfl
      intro q _ _ _ _
      rw [Kernel.ppRef_take]
      rfl
    · have hrun : pageAlloc flags s = .ok (some p) (s.take p) := pageAlloc_plain hb.head_eq hf
      refine ⟨.page (some p), _, L.loosen p, fl, by rw [PageCall.run, bind_ok hrun, pure_apply],
        ⟨hb.take, h.own, h.held, ?_, h.kernPgdir⟩, rfl, rfl, rfl⟩
      refine h.kept_of_ppRef ?_ ?_
      · rfl
      intro q _ _ _ _
      rw [Kernel.ppRef_take]

theorem free (h : Books m s L fl) (ha : Allocated m s pp) (hr : (s.pages pp).ppRef = 0) :
    Kept m s L fl (.free pp) := by
  have hb := h.balanced
  have hf := h.notMem_free ha
  have hloose : pp ∈ L.loose := by
    by_contra hl
    exact hf ((hb.mem_free pp).mpr ⟨ha.1, hr, hl⟩)
  have hrun : pageFree pp s = .ok () (s.push pp) := pageFree_ok hr (hb.link_null pp ha.1 hf)
  refine ⟨_, _, L.settle pp, pp :: fl, by rw [PageCall.run, bind_ok hrun, pure_apply],
    ⟨hb.push hloose, h.own, h.held, ?_, h.kernPgdir⟩, rfl, rfl⟩
  refine h.kept_of_ppRef ?_ ?_
  · rfl
  intro q _ _ _ _
  rw [Kernel.ppRef_push]

/-- A page with references is not named by an entry when it has none in the tables. -/
theorem target_ne_of_refs (hrefs : refs s L p = 0) (hd : d ∈ L.dirs) (hi : i < 955) (hj : j < 1024) :
    target (s.pte d i j) ≠ some p :=
  Balanced.names_ne_of_refs (x := .inr (d, i, j)) hrefs (by simp [hd, hi, hj])

theorem remove (h : Books m s L fl) (hd : d ∈ L.dirs) (hva : va < utop) :
    Kept m s L fl (.remove d va) := by
  have hb := h.balanced
  rw [lt_utop_iff] at hva
  rcases pageRemove_spec hb hd hva with ⟨hq, hrun⟩ | ⟨t, q, ht, hq, hrun⟩
  · refine ⟨_, _, L, fl, by rw [PageCall.run, bind_ok hrun, pure_apply], h, rfl, ?_⟩
    simp [FreeListChange, returned, hq]
  · have hq' : ((s.unmap t (ptx va) q va).pages q).ppRef = 0 ↔ (s.pages q).ppRef = 1 := by
      rw [Kernel.ppRef_unmap, if_pos rfl]
      constructor <;> intro h0 <;> bv_omega
    refine ⟨_, _, L, _, by rw [PageCall.run, bind_ok hrun, pure_apply],
      ⟨hb.unmap hd hva (ptx_lt va) ht hq va, h.own, h.held, ?_, ?_⟩, rfl, ?_⟩
    · apply h.kept_of_ppRef Kernel.Paging.unmap.npages
      intro x _ _ _ hrefs
      have hne : x ≠ q := by
        rintro rfl
        exact target_ne_of_refs hrefs hd hva (ptx_lt va) hq
      simp [Kernel.ppRef_unmap, hne]
    · rw [Kernel.Paging.unmap.kernPgdir, h.kernPgdir]
    · simp only [FreeListChange, returned, hq, hq']

theorem insert (h : Books m s L fl) (hcount : (s.pages pp).ppRef.toNat < 65535) (hd : d ∈ L.dirs)
    (ha : Allocated m s pp) (hva : va < utop) (hperm : perm.toNat < 4096) :
    Kept m s L fl (.insert d pp va perm) := by
  have hb := h.balanced
  have hf := h.notMem_free ha
  rw [lt_utop_iff] at hva
  rcases pageInsert_spec hb hd hva ha.1 hf hcount perm with
    ⟨ht, rfl, hrun⟩ | ⟨t, s₁, fl₁, hready, hrun⟩
  · refine ⟨_, _, L, [], by rw [PageCall.run, bind_ok hrun, pure_apply], h, rfl, ?_⟩
    exact Or.inl ⟨rfl, ht, rfl, rfl⟩
  · obtain ⟨hb₁, ht⟩ := hready.balanced hb hd (h.own_iff.mpr hva)
    have hpte := hready.target_pte hb hd (ptx_lt va)
    have hmem := Kernel.pte_of_target (j := ptx va) ht
    have hpag : Kernel.Paging s (s₁.mapAt t (ptx va) pp va perm) :=
      hready.paging.trans Kernel.Paging.mapAt
    have hb₂ := hb₁.mapAt hd hva (ptx_lt va) ht (hready.paging.npages ▸ ha.1)
      (fun hm => hf (hready.mem_free hm)) (hready.ppRef hf ▸ hcount) hperm va
    refine ⟨_, _, L.settle pp, _, by rw [PageCall.run, bind_ok hrun, pure_apply],
      ⟨hb₂, h.own, h.held, ?_, ?_⟩, rfl, ?_⟩
    · apply h.kept_of_ppRef hpag.npages
      intro x hx hu hne hrefs
      have hxpp : x ≠ pp := by
        rintro rfl
        exact h.not_reserved ha hne hu
      have hxf : x ∉ fl := by
        intro hm
        have h1 := h.kept x hx hu hne
        rw [hb.free_ref hm] at h1
        exact absurd h1 (by decide)
      have hxq : target (s₁.mem t (ptx va)) ≠ some x := by
        rw [← hmem, hpte]
        exact target_ne_of_refs hrefs hd hva (ptx_lt va)
      rw [Kernel.ppRef_mapAt, hready.ppRef hxf]
      simp [hxpp, hxq]
    · rw [hpag.kernPgdir, h.kernPgdir]
    · refine Or.inr ⟨rfl, fl₁, ?_, ?_⟩
      · unfold returned Balanced.freeAfterMap
        rw [← hpte]
        cases hq : target (s₁.pte d (pdx va) (ptx va)) with
        | none => rfl
        | some q =>
          -- the old page is freed exactly when the new mapping left it without references
          have hne := (hb₁.referenced_page hd hva (ptx_lt va) hq).1
          have hone : ((s₁.mapAt t (ptx va) pp va perm).pages q).ppRef = 0 ↔
              q ≠ pp ∧ (s₁.pages q).ppRef = 1 := by
            rw [Kernel.ppRef_mapAt, ← hmem, hq, if_pos rfl]
            by_cases hqp : q = pp
            · simp only [hqp, if_true, ne_eq, not_true, false_and, iff_false]
              intro h0
              rw [hqp] at hne
              bv_omega
            · simp only [hqp, if_false, ne_eq, not_false_eq_true, true_and]
              constructor <;> intro h0 <;> bv_omega
          simp only [hone]
      · rcases hready with ⟨hs, rfl, rfl⟩ | ⟨hs, rfl, rfl⟩
        · exact Or.inl ⟨by simp [hs], rfl⟩
        · refine Or.inr ⟨t, hs, rfl, ?_⟩
          have hdt : d ≠ t := by
            rintro rfl
            exact (hb₁.table d hd _ (h.own_iff.mpr hva) d ht).2 hd
          rw [Kernel.pde, Kernel.mem_mapAt, if_neg (fun he => hdt he.1)]
          exact ht

theorem newDir (h : Books m s L fl) (hbound : Bounded s) (ha : Allocated m s pp) (hd : pp ∉ L.dirs)
    (htab : ¬ s.IsTable L.dirs pp) (hempty : ∀ i < 955, ¬ Has (entries i) pteP) :
    Kept m s L fl (.newDir pp entries) := by
  have hf := h.notMem_free ha
  have htab' : ∀ d ∈ L.dirs, ∀ i ∈ L.own d, target (s.pde d i) ≠ some pp :=
    fun d hd i hi ht => htab ⟨d, hd, i, h.own_iff.mp hi, ht⟩
  have hb₁ := h.balanced.incRef ha.1 hf (Nat.lt_succ_of_le (hbound pp ha.1))
  have hpde : ∀ d ∈ L.dirs, ∀ i, ((s.incRef pp).writePage pp entries).pde d i = s.pde d i := by
    intro d hd' i
    have hne : d ≠ pp := by rintro rfl; exact hd hd'
    exact if_neg hne
  have hb₂ : Balanced ((s.incRef pp).writePage pp entries) ((L.settle pp).hold pp) fl := by
    refine hb₁.congr rfl rfl rfl (fun d hd i _ => hpde d hd i) ?_
    intro d hd i hi j _
    apply Kernel.pte_congr (hpde d hd i)
    intro t ht
    have hne : t ≠ pp := by
      rintro rfl
      exact htab' d hd i (h.own_iff.mpr hi) ht
    exact if_neg hne
  have hb₃ := hb₂.addDir ha.1 hd
    (fun d hd i hi => by rw [hpde d hd i]; exact htab' d hd i hi)
    (fun i hi => target_eq_none.mpr (by
      rw [Kernel.pde, show ((s.incRef pp).writePage pp entries).mem pp i = entries i from if_pos rfl]
      exact hempty i hi))
  have hrun : (PageCall.newDir pp entries).run s =
      .ok .unit ((s.incRef pp).writePage pp entries) := rfl
  refine ⟨_, _, (L.settle pp).addDir pp, fl, hrun, ⟨hb₃, ?_, h.held, ?_, h.kernPgdir⟩, rfl, rfl⟩
  · funext d
    by_cases hdp : d = pp
    · rw [hdp, Ledger.own_addDir_self]
    · rw [Ledger.own_addDir_of_ne hdp]
      exact congrFun h.own d
  · refine h.kept_of_ppRef ?_ ?_
    · rfl
    intro x _ hu hne _
    have hxpp : x ≠ pp := by
      rintro rfl
      exact h.not_reserved ha hne hu
    change ((s.incRef pp).pages x).ppRef = _
    simp [Kernel.ppRef_incRef, hxpp]

/-- Every legal call returns and keeps the books. -/
theorem call (h : Books m s L fl) (hbound : Bounded s) (hc : c.Legal m s L.dirs) :
    Kept m s L fl c := by
  cases c with
  | alloc flags => exact h.alloc
  | free pp => exact h.free hc.1 hc.2
  | insert pgdir pp va perm =>
    exact h.insert (Nat.lt_succ_of_le (hbound pp hc.2.1.1)) hc.1 hc.2.1 hc.2.2.1 hc.2.2.2
  | remove pgdir va => exact h.remove hc.1 hc.2
  | newDir pp entries => exact h.newDir hbound hc.1 hc.2.1 hc.2.2.1 hc.2.2.2

/-- The ledger's references are the entries that name the page. -/
theorem refs_eq (h : Books m s L fl) (p : Nat) :
    refs s L p = s.pdesNaming L.dirs p + s.ptesNaming L.dirs p := by
  have hsplit : L.slots.filter (fun x => names s x = some p) =
      ((L.dirs.sigma L.own).filter fun x => target (s.pde x.1 x.2) = some p).disjSum
        ((L.dirs ×ˢ (Finset.range 955 ×ˢ Finset.range 1024)).filter
          fun x => target (s.pte x.1 x.2.1 x.2.2) = some p) := by
    ext (⟨d, i⟩ | ⟨d, i, j⟩)
    · rw [Finset.mem_filter, Ledger.inl_mem_slots]
      simp [names]
    · rw [Finset.mem_filter, Ledger.inr_mem_slots]
      simp [names]
  have hpdes : ((L.dirs.sigma L.own).filter fun x => target (s.pde x.1 x.2) = some p).card =
      s.pdesNaming L.dirs p := by
    apply Finset.card_nbij' (fun x => (x.1, x.2)) (fun x => ⟨x.1, x.2⟩) <;>
      simp +contextual [h.own, Ledger.mem_userEntries, Set.MapsTo, Set.LeftInvOn]
  rw [refs, RefCount.refs, hsplit, Finset.card_disjSum, hpdes]
  rfl

theorem freeListSound (h : Books m s L fl) : FreeListSound s L.dirs fl where
  chain := h.balanced.chain
  nodup := h.balanced.nodup
  unused := by
    intro p hp
    have hr := h.balanced.free_ref hp
    obtain ⟨hrefs, -, -⟩ := h.balanced.unreferenced (h.balanced.free_lt hp) hr
    refine ⟨hr, ?_, ?_⟩
    · rintro ⟨d, hd, i, hi, j, hj, ht⟩
      exact target_ne_of_refs hrefs hd hi hj ht
    · rintro ⟨d, hd, i, hi, ht⟩
      exact Balanced.table_ne_of_refs hrefs hd (h.own_iff.mpr hi) ht

theorem countsExact (h : Books m s L fl) : CountsExact s L.dirs := by
  intro p hp
  have hused : p < s.npages ∧ refs s L p ≠ 0 := by
    rcases hp with ⟨d, hd, i, hi, j, hj, ht⟩ | ⟨d, hd, i, hi, ht⟩
    · exact ⟨h.balanced.mapped d hd i hi j hj p ht, fun h0 => target_ne_of_refs h0 hd hi hj ht⟩
    · have hi' : i ∈ L.own d := h.own_iff.mpr hi
      exact ⟨(h.balanced.table d hd i hi' p ht).1,
        fun h0 => Balanced.table_ne_of_refs h0 hd hi' ht⟩
  have hheld : L.held p = 0 := by
    rw [h.held, if_neg]
    rintro ⟨hu, hne⟩
    exact hused.2 (h.kept_unreferenced hused.1 hu hne).1
  rw [h.balanced.count p hused.1, h.refs_eq, hheld]
  rfl

end Books

theorem PageRun.books (h : PageRun m mem s D) :
    Bounded s ∧ ∃ L fl, Books m s L fl ∧ L.dirs = D := by
  induction h with
  | start hinit =>
    obtain ⟨hfit, rfl⟩ := memInitEarly_eq_ok.mp hinit
    refine ⟨?_, _, _, Books.start _ hfit, by rw [kernPgdir_afterPageInit]; rfl⟩
    intro p hp
    rw [npages_afterPageInit] at hp
    rw [(afterPageInit_done m mem).ref p hp]
    split <;> decide
  | call hrun hlegal hcall hbound ih =>
    obtain ⟨hb, L, fl, hbooks, rfl⟩ := ih
    obtain ⟨r', t', L', fl', hcall', hbooks', hdirs, -⟩ := hbooks.call hb hlegal
    rw [hcall] at hcall'
    cases hcall'
    exact ⟨hbound, L', fl', hbooks', hdirs⟩

/-- In every state a run of legal calls reaches, the free list and the counts are exact, and
every further legal call returns. -/
theorem pageRun_sound (h : PageRun m mem s D) :
    ∃ fl, FreeListSound s D fl ∧ CountsExact s D ∧ CallsReturn m s D fl := by
  obtain ⟨hbound, L, fl, hbooks, rfl⟩ := h.books
  refine ⟨fl, hbooks.freeListSound, hbooks.countsExact, ?_⟩
  intro c hc
  obtain ⟨r, t, L', fl', hrun, hbooks', -, hchange⟩ := hbooks.call hbound hc
  exact ⟨r, t, fl', hrun, hbooks'.balanced.chain, hchange⟩

end Jos
