import Jos.Kern.LedgerSteps

/-! What the functions of pmap.c return and leave behind, one case per outcome. -/
namespace Jos

open Prog

namespace Kernel

/-- pgdir_walk's new page table `p` behind entry `i` of directory `d`. -/
def withTable (s : Kernel) (d i p : Nat) : Kernel :=
  (((s.fill p 1024 0#32).take p).incRef p).store d i (page2pa p ||| pteP ||| pteU ||| pteW)

/-- page_alloc of page `p`, the head of the free list. -/
def handOut (s : Kernel) (flags : Word) (p : Nat) : Kernel :=
  (if Has flags allocZero then s.fill p 1024 0#32 else s).take p

/-- page_remove of the page `q` mapped by entry `j` of the table in page `t`. -/
def unmap (s : Kernel) (t j q : Nat) (va : Word) : Kernel :=
  ((s.drop q).store t j 0#32).emit (.invlpg va)

/-- The rest of page_insert, once the table is there. -/
def mapAt (s : Kernel) (t j pp : Nat) (va perm : Word) : Kernel :=
  (match target (s.mem t j) with
    | none => s.incRef pp
    | some q => (s.incRef pp).unmap t j q va).store t j (pteAddr (page2pa pp) ||| perm ||| pteP)

end Kernel

section functions

variable {s : Kernel} {L : Ledger} {fl : List Nat} {d i j p q t pp : Nat} {va w perm flags : Word}

theorem kaddr_ok (h : pgnum w < s.npages) : kaddr w s = .ok (pgnum w) s := by
  simp [kaddr, bind_apply, read_apply, check_apply, pure_apply, h]

theorem pa2page_ok (h : pgnum w < s.npages) : pa2page w s = .ok (pgnum w) s := by
  simp [pa2page, bind_apply, read_apply, check_apply, pure_apply, h]

theorem page2kva_ok (hp : p < s.npages) (hn : s.npages ≤ 65536) : page2kva p s = .ok p s := by
  have hpg : pgnum (page2pa p) = p := pgnum_page2pa (by omega)
  have hk : kaddr (page2pa p) s = .ok (pgnum (page2pa p)) s := kaddr_ok (by omega)
  rw [page2kva, hk, hpg]

theorem pageAlloc_none (h : s.pageFreeList = none) : pageAlloc flags s = .ok none s := by
  simp [pageAlloc, bind_apply, read_apply, pure_apply, h]

theorem pageAlloc_plain (h : s.pageFreeList = some p) (hf : ¬ Has flags allocZero) :
    pageAlloc flags s = .ok (some p) (s.take p) := by
  simp [pageAlloc, bind_apply, read_apply, update_apply, pure_apply, h, hf, Kernel.take]

theorem pageAlloc_zero (h : s.pageFreeList = some p) (hf : Has flags allocZero)
    (hp : p < s.npages) (hn : s.npages ≤ 65536) :
    pageAlloc flags s = .ok (some p) ((s.fill p 1024 0#32).take p) := by
  simp [pageAlloc, bind_apply, read_apply, update_apply, pure_apply, h, hf, page2kva_ok hp hn,
    Kernel.take]

theorem pageFree_ok (hr : (s.pages p).ppRef = 0) (hl : (s.pages p).ppLink = none) :
    pageFree p s = .ok () (s.push p) := by
  simp [pageFree, bind_apply, read_apply, update_apply, check_apply, hr, hl, Kernel.push,
    Kernel.setLink]

theorem incRef_apply (p : Nat) (s : Kernel) : incRef p s = .ok () (s.incRef p) := rfl

theorem pageDecref_ok (hl : (s.pages p).ppLink = none) : pageDecref p s = .ok () (s.drop p) := by
  have hr : ((s.decRef p).pages p).ppRef = (s.pages p).ppRef - 1 := by
    simp [Kernel.decRef, Kernel.ppRef_setRef]
  have hz : (s.pages p).ppRef - 1 = 0 ↔ (s.pages p).ppRef = 1 := by
    constructor <;> intro h0 <;> bv_omega
  have hstep : pageDecref p s =
      (if ((s.decRef p).pages p).ppRef = 0 then pageFree p else pure ()) (s.decRef p) := rfl
  rw [hstep, Prog.ite_apply, hr, Kernel.drop]
  by_cases h1 : (s.pages p).ppRef = 1
  · rw [if_pos (hz.mpr h1), if_pos h1]
    exact pageFree_ok (hr.trans (hz.mpr h1)) (by simpa [Kernel.decRef] using hl)
  · rw [if_neg (fun h0 => h1 (hz.mp h0)), if_neg h1]
    rfl

theorem pgdirWalk_present {create : Bool} (h : target (s.mem d (pdx va)) = some t)
    (ht : t < s.npages) : pgdirWalk d va create s = .ok (some ⟨t, ptx va⟩) s := by
  obtain ⟨hP, rfl⟩ := target_eq_some.mp h
  have hk : kaddr (pteAddr (s.mem d (pdx va))) s = .ok (pgnum (s.mem d (pdx va))) s := by
    have hk := kaddr_ok (s := s) (w := pteAddr (s.mem d (pdx va))) (by rwa [pgnum_pteAddr])
    rwa [pgnum_pteAddr] at hk
  simp [pgdirWalk, bind_apply, read_apply, pure_apply, hP, hk]

theorem pgdirWalk_absent (h : target (s.mem d (pdx va)) = none) :
    pgdirWalk d va false s = .ok none s := by
  simp [pgdirWalk, bind_apply, read_apply, pure_apply, target_eq_none.mp h]

theorem pgdirWalk_noMem (h : target (s.mem d (pdx va)) = none) (hf : s.pageFreeList = none) :
    pgdirWalk d va true s = .ok none s := by
  simp [pgdirWalk, bind_apply, read_apply, pure_apply, target_eq_none.mp h, pageAlloc_none hf]

theorem pgdirWalk_create (h : target (s.mem d (pdx va)) = none) (hf : s.pageFreeList = some p)
    (hp : p < s.npages) (hn : s.npages ≤ 65536) :
    pgdirWalk d va true s = .ok (some ⟨p, ptx va⟩) (s.withTable d (pdx va) p) := by
  have ha : pageAlloc allocZero s = .ok (some p) ((s.fill p 1024 0#32).take p) :=
    pageAlloc_zero hf (by decide) hp hn
  have hk : kaddr (page2pa p) (s.withTable d (pdx va) p) = .ok p (s.withTable d (pdx va) p) :=
    page2kva_ok (s := s.withTable d (pdx va) p) hp hn
  unfold Kernel.withTable at hk ⊢
  simp [pgdirWalk, bind_apply, read_apply, target_eq_none.mp h, ha, incRef_apply, update_apply, hk,
    pure_apply]

theorem pageLookup_noTable (h : target (s.mem d (pdx va)) = none) :
    pageLookup d va s = .ok (none, none) s := by
  simp [pageLookup, bind_apply, pure_apply, pgdirWalk_absent h]

theorem pageLookup_unmapped (h : target (s.mem d (pdx va)) = some t) (ht : t < s.npages)
    (hp : target (s.mem t (ptx va)) = none) :
    pageLookup d va s = .ok (none, some ⟨t, ptx va⟩) s := by
  simp [pageLookup, bind_apply, read_apply, pure_apply, pgdirWalk_present h ht,
    target_eq_none.mp hp]

theorem pageLookup_mapped (h : target (s.mem d (pdx va)) = some t) (ht : t < s.npages)
    (hp : target (s.mem t (ptx va)) = some q) (hq : q < s.npages) :
    pageLookup d va s = .ok (some q, some ⟨t, ptx va⟩) s := by
  obtain ⟨hP, rfl⟩ := target_eq_some.mp hp
  have hk : pa2page (pteAddr (s.mem t (ptx va))) s = .ok (pgnum (s.mem t (ptx va))) s := by
    have hk := pa2page_ok (s := s) (w := pteAddr (s.mem t (ptx va))) (by rwa [pgnum_pteAddr])
    rwa [pgnum_pteAddr] at hk
  simp [pageLookup, bind_apply, read_apply, pure_apply, pgdirWalk_present h ht, hP, hk]

theorem pageRemove_noTable (h : target (s.mem d (pdx va)) = none) :
    pageRemove d va s = .ok () s := by
  simp [pageRemove, bind_apply, pure_apply, pageLookup_noTable h]

theorem pageRemove_unmapped (h : target (s.mem d (pdx va)) = some t) (ht : t < s.npages)
    (hp : target (s.mem t (ptx va)) = none) : pageRemove d va s = .ok () s := by
  simp [pageRemove, bind_apply, pure_apply, pageLookup_unmapped h ht hp]

theorem pageRemove_mapped (h : target (s.mem d (pdx va)) = some t) (ht : t < s.npages)
    (hp : target (s.mem t (ptx va)) = some q) (hq : q < s.npages) (hr : (s.pages q).ppRef ≠ 0)
    (hl : (s.pages q).ppLink = none) :
    pageRemove d va s = .ok () (s.unmap t (ptx va) q va) := by
  simp only [pageRemove, bind_apply, read_apply, update_apply, check_true hr, tlbInvalidate,
    pageLookup_mapped h ht hp hq, pageDecref_ok hl, Kernel.unmap]

theorem pageInsert_noMem (h : target (s.mem d (pdx va)) = none) (hf : s.pageFreeList = none) :
    pageInsert d pp va perm s = .ok (-eNoMem) s := by
  simp [pageInsert, bind_apply, pure_apply, pgdirWalk_noMem h hf]

end functions

namespace Kernel

variable {s : Kernel} {i j p q t : Nat} {w : Word}

@[simp] theorem drop_npages : (s.drop p).npages = s.npages := by
  unfold drop
  split <;> rfl

@[simp] theorem drop_mem : (s.drop p).mem = s.mem := by
  unfold drop
  split <;> rfl

theorem drop_store : (s.drop p).store t j w = (s.store t j w).drop p := by
  have hr : (s.store t j w).pages = s.pages := rfl
  unfold drop
  rw [hr]
  split <;> rfl

variable {d x pp : Nat} {va perm : Word}

theorem mem_withTable (s : Kernel) (d i p q k : Nat) : (s.withTable d i p).mem q k =
    if q = d ∧ k = i then page2pa p ||| pteP ||| pteU ||| pteW
    else if q = p ∧ k < 1024 then 0#32 else s.mem q k := by
  rw [Kernel.withTable, Kernel.mem_store]
  rfl

theorem ppRef_withTable : ((s.withTable d i p).pages x).ppRef =
    (s.pages x).ppRef + if x = p then 1 else 0 := by
  simp only [withTable, store, ppRef_incRef, ppRef_take]
  rfl

theorem ppRef_unmap : ((s.unmap t j q va).pages x).ppRef =
    (s.pages x).ppRef - if x = q then 1 else 0 :=
  ppRef_drop s q x

theorem mem_unmap {x k : Nat} :
    (s.unmap t j q va).mem x k = if x = t ∧ k = j then 0#32 else s.mem x k := by
  simp [unmap, emit, store]

theorem mem_mapAt {x k : Nat} : (s.mapAt t j pp va perm).mem x k =
    if x = t ∧ k = j then pteAddr (page2pa pp) ||| perm ||| pteP else s.mem x k := by
  unfold mapAt
  rw [mem_store]
  by_cases h : x = t ∧ k = j
  · rw [if_pos h, if_pos h]
  · rw [if_neg h, if_neg h]
    split
    · rfl
    · rw [mem_unmap, if_neg h]
      rfl

/-- page_insert counts the new page before it gives up the old one. -/
theorem ppRef_mapAt : ((s.mapAt t j pp va perm).pages x).ppRef =
    ((s.pages x).ppRef + if x = pp then 1 else 0) -
      if target (s.mem t j) = some x then 1 else 0 := by
  unfold mapAt
  cases h : target (s.mem t j) with
  | none =>
    change ((s.incRef pp).pages x).ppRef = _
    simp [ppRef_incRef]
  | some q =>
    change (((s.incRef pp).unmap t j q va).pages x).ppRef = _
    rw [ppRef_unmap, ppRef_incRef]
    simp [eq_comm]

/-- `t` differs from `s` in physical memory, the page allocator and the events issued only. -/
def Paging (s t : Kernel) : Prop :=
  t = { s with pages := t.pages, pageFreeList := t.pageFreeList, mem := t.mem, log := t.log }

namespace Paging

variable {u : Kernel}

theorem refl (s : Kernel) : Paging s s := rfl

theorem trans (h : Paging s u) {v : Kernel} (h' : Paging u v) : Paging s v := by
  unfold Paging at *
  rw [h', h]

theorem npages (h : Paging s u) : u.npages = s.npages := by rw [h]

theorem kernPgdir (h : Paging s u) : u.kernPgdir = s.kernPgdir := by rw [h]

theorem take : Paging s (s.take p) := rfl

theorem push : Paging s (s.push p) := rfl

theorem incRef : Paging s (s.incRef p) := rfl

theorem store : Paging s (s.store p j w) := rfl

theorem fill (n : Nat) : Paging s (s.fill p n w) := rfl

theorem handOut (flags : Word) : Paging s (s.handOut flags p) := by
  unfold Kernel.handOut
  split
  · exact (fill 1024).trans take
  · exact take

theorem drop : Paging s (s.drop p) := by
  unfold Kernel.drop
  split <;> rfl

theorem withTable : Paging s (s.withTable d i p) := rfl

theorem unmap : Paging s (s.unmap t j q va) := drop.trans rfl

theorem mapAt : Paging s (s.mapAt t j pp va perm) := by
  unfold Kernel.mapAt
  split
  · rfl
  · exact (incRef.trans unmap).trans store

end Paging

end Kernel

namespace Balanced

variable {s : Kernel} {L : Ledger} {fl : List Nat} {d i j p q t pp : Nat} {va w perm : Word}

theorem head_eq (h : Balanced s L fl) : s.pageFreeList = fl.head? := h.chain.head_eq

/-- A page some entry names is referenced, so it is not free and not loose. -/
theorem referenced (h : Balanced s L fl) (hq : q < s.npages) {x : Slot} (hx : x ∈ L.slots)
    (hn : names s x = some q) :
    (s.pages q).ppRef ≠ 0 ∧ q ∉ fl ∧ q ∉ L.loose ∧ (s.pages q).ppLink = none := by
  have hpos : 0 < refs s L q := RefCount.refs_pos_iff.mpr ⟨x, hx, hn⟩
  have hne : (s.pages q).ppRef ≠ 0 := by
    intro h0
    have := (h.unreferenced hq h0).1
    omega
  have hf : q ∉ fl := fun hm => hne (h.free_ref hm)
  exact ⟨hne, hf, fun hm => hne (h.loose q hm).2, h.link_null q hq hf⟩

theorem referenced_table (h : Balanced s L fl) (hd : d ∈ L.dirs) (hi : i ∈ L.own d)
    (ht : target (s.pde d i) = some t) :
    (s.pages t).ppRef ≠ 0 ∧ t ∉ fl ∧ t ∉ L.loose ∧ (s.pages t).ppLink = none :=
  h.referenced (h.table d hd i hi t ht).1 (Ledger.inl_mem_slots.mpr ⟨hd, hi⟩) ht

theorem referenced_page (h : Balanced s L fl) (hd : d ∈ L.dirs) (hi : i < 955) (hj : j < 1024)
    (hq : target (s.pte d i j) = some q) :
    (s.pages q).ppRef ≠ 0 ∧ q ∉ fl ∧ q ∉ L.loose ∧ (s.pages q).ppLink = none :=
  h.referenced (h.mapped d hd i hi j hj q hq) (Ledger.inr_mem_slots.mpr ⟨hd, hi, hj⟩) hq

theorem withTable (h : Balanced s L (p :: fl)) (hd : d ∈ L.dirs) (hi : i ∈ L.own d)
    (hold : target (s.pde d i) = none) : Balanced (s.withTable d i p) L fl := by
  have hp : p < s.npages := h.free_lt (by simp)
  have hr := h.free_ref (p := p) (by simp)
  have hpl : p ∉ L.loose := ((h.mem_free p).mp (by simp)).2.2
  obtain ⟨hrefs, hdir, -⟩ := h.unreferenced hp hr
  have hdp : d ≠ p := by rintro rfl; exact hdir hd
  -- zeroed and unlinked, the page is loose; counted, it is held
  have h1 := (h.fill hdir (fun d hd i hi => table_ne_of_refs hrefs hd hi) 1024 0#32).take
  have hr1 : (((s.fill p 1024 0#32).take p).pages p).ppRef = 0 := by
    simpa [Kernel.take, Kernel.fill] using hr
  have hpf : p ∉ fl := (List.nodup_cons.mp h.nodup).1
  have h2 := h1.incRef (p := p) hp hpf (by rw [hr1]; decide)
  rw [Ledger.settle_loosen hpl] at h2
  have hrefs1 : refs (((s.fill p 1024 0#32).take p).incRef p) L p = 0 := by
    have hp1 : p < ((s.fill p 1024 0#32).take p).npages := hp
    exact (h1.unreferenced hp1 hr1).1
  have hflags : (pteP ||| pteU ||| pteW).toNat < 4096 := by decide
  refine h2.installTable hd hi hp hdir hrefs1 ?_ ?_ ?_
  · intro j hj
    exact (Kernel.mem_fill (s := s)).trans (by simp [hj])
  · have hpde : (((s.fill p 1024 0#32).take p).incRef p).pde d i = s.pde d i :=
      Kernel.mem_fill_of_ne hdp
    rw [hpde, hold]
  · have he : page2pa p ||| pteP ||| pteU ||| pteW = page2pa p ||| (pteP ||| pteU ||| pteW) := by
      simp only [BitVec.or_assoc]
    rw [he]
    exact target_entry (h.page_lt hp) hflags (by decide)

theorem target_pde_withTable (h : Balanced s L (p :: fl)) :
    target ((s.withTable d i p).pde d i) = some p := by
  have he : (s.withTable d i p).pde d i = page2pa p ||| (pteP ||| pteU ||| pteW) := by
    simp [Kernel.withTable, Kernel.pde, Kernel.mem_store, BitVec.or_assoc]
  rw [he]
  exact target_entry (h.page_lt (h.free_lt (by simp))) (by decide) (by decide)

/-- A new page table maps nothing. -/
theorem pte_withTable (h : Balanced s L (p :: fl)) (hd : d ∈ L.dirs) (hj : j < 1024) :
    (s.withTable d i p).pte d i j = 0#32 := by
  have hne : p ≠ d := by
    rintro rfl
    exact (h.unreferenced (h.free_lt (by simp)) (h.free_ref (by simp))).2.1 hd
  rw [Kernel.pte_of_target h.target_pde_withTable, Kernel.withTable, Kernel.mem_store_of_ne hne]
  exact (Kernel.mem_fill (s := s)).trans (by simp [hj])

theorem unmap (h : Balanced s L fl) (hd : d ∈ L.dirs) (hu : i < 955) (hj : j < 1024)
    (ht : target (s.pde d i) = some t) (hq : target (s.pte d i j) = some q) (va : Word) :
    Balanced (s.unmap t j q va) L (if (s.pages q).ppRef = 1 then q :: fl else fl) := by
  have h1 := (h.clearEntry hd hu hj ht hq).drop (h.mapped d hd i hu j hj q hq)
  rw [← Kernel.drop_store] at h1
  exact h1.of_eq rfl rfl rfl rfl

/-- The free list once page_insert has replaced what the entry named, if anything. -/
def freeAfterMap (s : Kernel) (fl : List Nat) (w : Word) (pp : Nat) : List Nat :=
  match target w with
  | none => fl
  | some q => if q ≠ pp ∧ (s.pages q).ppRef = 1 then q :: fl else fl

theorem target_newEntry (hpp : pp < 2 ^ 20) (hperm : perm.toNat < 4096) :
    target (pteAddr (page2pa pp) ||| perm ||| pteP) = some pp := by
  rw [pteAddr_page2pa hpp, BitVec.or_assoc]
  exact target_entry hpp (toNat_or_lt hperm (by decide)) (has_or.mpr (Or.inr (by decide)))

theorem mapAt (h : Balanced s L fl) (hd : d ∈ L.dirs) (hu : i < 955) (hj : j < 1024)
    (ht : target (s.pde d i) = some t) (hpp : pp < s.npages) (hf : pp ∉ fl)
    (hr : (s.pages pp).ppRef.toNat < 65535) (hperm : perm.toNat < 4096) (va : Word) :
    Balanced (s.mapAt t j pp va perm) (L.settle pp) (freeAfterMap s fl (s.pte d i j) pp) := by
  have hw := target_newEntry (h.page_lt hpp) hperm
  have h1 := h.incRef hpp hf hr
  unfold Kernel.mapAt freeAfterMap
  rw [Kernel.pte_of_target ht]
  cases hq : target (s.mem t j) with
  | none => exact h1.mapEntry hd hu hj ht hpp ((congrArg target (Kernel.pte_of_target ht)).trans hq) hw
  | some q =>
    have hq1 : target ((s.incRef pp).pte d i j) = some q := by
      rw [Kernel.pte_of_target (s := s.incRef pp) ht]
      exact hq
    have h2 := h1.unmap (L := (L.settle pp).hold pp) hd hu hj ht hq1 va
    have hmem : ((s.incRef pp).unmap t j q va).mem =
        fun p k => if p = t ∧ k = j then 0#32 else s.mem p k := by
      funext p k
      exact Kernel.mem_unmap
    have hdt : d ≠ t := by
      rintro rfl
      exact (h.table d hd i (h.own_user d hd i hu) d ht).2 hd
    have ht2 : target (((s.incRef pp).unmap t j q va).pde d i) = some t := by
      simp only [Kernel.pde, hmem, hdt, false_and, if_false]
      exact ht
    have hold2 : target (((s.incRef pp).unmap t j q va).pte d i j) = none := by
      rw [Kernel.pte_of_target ht2]
      simp [hmem]
    have hpp2 : pp < ((s.incRef pp).unmap t j q va).npages :=
      hpp.trans_eq (Kernel.drop_npages (s := s.incRef pp)).symm
    have h3 := h2.mapEntry hd hu hj ht2 hpp2 hold2 hw
    -- the old page is freed exactly when the new count of it is one
    have hone : ((s.incRef pp).pages q).ppRef = 1 ↔ q ≠ pp ∧ (s.pages q).ppRef = 1 := by
      rw [Kernel.ppRef_incRef]
      by_cases he : q = pp
      · subst he
        have hne := (h.referenced_page hd hu hj (by rw [Kernel.pte_of_target ht]; exact hq)).1
        simp only [if_true, ne_eq, not_true, false_and, iff_false]
        intro h0
        apply hne
        bv_omega
      · simp [he]
    simp only [hone] at h3
    exact h3

end Balanced

section functions

variable {s : Kernel} {L : Ledger} {fl : List Nat} {d i j p q t pp : Nat} {va w perm flags : Word}

/-- page_alloc takes the head of the free list, or finds it empty. -/
theorem pageAlloc_spec (flags : Word) (h : Balanced s L fl) :
    (fl = [] ∧ pageAlloc flags s = .ok none s) ∨
    ∃ p fl', fl = p :: fl' ∧ pageAlloc flags s = .ok (some p) (s.handOut flags p) ∧
      Balanced (s.handOut flags p) (L.loosen p) fl' := by
  cases fl with
  | nil => exact Or.inl ⟨rfl, pageAlloc_none h.head_eq⟩
  | cons p fl =>
    refine Or.inr ⟨p, fl, rfl, ?_⟩
    have hp : p < s.npages := h.free_lt (by simp)
    unfold Kernel.handOut
    by_cases hf : Has flags allocZero
    · rw [if_pos hf]
      obtain ⟨hrefs, hdir, -⟩ := h.unreferenced hp (h.free_ref (by simp))
      have hfill := h.fill hdir (fun d hd i hi => Balanced.table_ne_of_refs hrefs hd hi) 1024 0#32
      exact ⟨pageAlloc_zero h.head_eq hf hp h.npages_le, hfill.take⟩
    · rw [if_neg hf]
      exact ⟨pageAlloc_plain h.head_eq hf, h.take⟩

theorem pageRemove_spec (h : Balanced s L fl) (hd : d ∈ L.dirs) (hva : pdx va < 955) :
    (target (s.pte d (pdx va) (ptx va)) = none ∧ pageRemove d va s = .ok () s) ∨
    ∃ t q, target (s.pde d (pdx va)) = some t ∧ target (s.pte d (pdx va) (ptx va)) = some q ∧
      pageRemove d va s = .ok () (s.unmap t (ptx va) q va) := by
  cases ht : target (s.pde d (pdx va)) with
  | none =>
    rw [Kernel.pte_of_no_table ht, target_zero]
    exact Or.inl ⟨rfl, pageRemove_noTable ht⟩
  | some t =>
    have htn := (h.table d hd _ (h.own_user d hd _ hva) t ht).1
    have hpte := Kernel.pte_of_target (j := ptx va) ht
    cases hq : target (s.pte d (pdx va) (ptx va)) with
    | none => exact Or.inl ⟨rfl, pageRemove_unmapped ht htn (hpte ▸ hq)⟩
    | some q =>
      have hqn := h.mapped d hd _ hva _ (ptx_lt va) q hq
      obtain ⟨hne, -, -, hl⟩ := h.referenced_page hd hva (ptx_lt va) hq
      exact Or.inr ⟨t, q, rfl, rfl, pageRemove_mapped ht htn (hpte ▸ hq) hqn hne hl⟩

/-- page_insert once the page table exists. -/
theorem pageInsert_onTable (h : Balanced s L fl) (hd : d ∈ L.dirs) (hva : pdx va < 955)
    (ht : target (s.pde d (pdx va)) = some t) (hpp : pp < s.npages) (hf : pp ∉ fl)
    (hr : (s.pages pp).ppRef.toNat < 65535) (perm : Word) :
    pageInsert d pp va perm s = .ok 0 (s.mapAt t (ptx va) pp va perm) := by
  have htn := (h.table d hd _ (h.own_user d hd _ hva) t ht).1
  have hwalk : pgdirWalk d va true s = .ok (some ⟨t, ptx va⟩) s := pgdirWalk_present ht htn
  have h1 := h.incRef hpp hf hr
  have hpte : (s.incRef pp).pte d (pdx va) (ptx va) = s.mem t (ptx va) :=
    Kernel.pte_of_target (s := s.incRef pp) ht
  simp only [pageInsert, bind_apply, hwalk, incRef_apply, Kernel.mapAt]
  rcases pageRemove_spec h1 hd hva with ⟨hq, hrm⟩ | ⟨t', q, ht', hq, hrm⟩
  · rw [hpte] at hq
    simp [hrm, hq, update_apply, pure_apply]
  · rw [hpte] at hq
    have he : t' = t := by
      rw [show (s.incRef pp).pde d (pdx va) = s.pde d (pdx va) from rfl, ht] at ht'
      exact (Option.some.inj ht').symm
    subst he
    simp [hrm, hq, update_apply, pure_apply]

/-- After pgdir_walk with `create`, the table of entry `i` is in page `t`: it was there, or it
is the old head of the free list. -/
def TableReady (s : Kernel) (fl : List Nat) (d i t : Nat) (s₁ : Kernel) (fl₁ : List Nat) : Prop :=
  (target (s.pde d i) = some t ∧ s₁ = s ∧ fl₁ = fl) ∨
    (target (s.pde d i) = none ∧ fl = t :: fl₁ ∧ s₁ = s.withTable d i t)

variable {s₁ : Kernel} {fl₁ : List Nat}

theorem TableReady.balanced (hr : TableReady s fl d i t s₁ fl₁) (h : Balanced s L fl)
    (hd : d ∈ L.dirs) (hi : i ∈ L.own d) :
    Balanced s₁ L fl₁ ∧ target (s₁.pde d i) = some t := by
  rcases hr with ⟨ht, rfl, rfl⟩ | ⟨ht, rfl, rfl⟩
  · exact ⟨h, ht⟩
  · exact ⟨h.withTable hd hi ht, h.target_pde_withTable⟩

theorem TableReady.paging (hr : TableReady s fl d i t s₁ fl₁) : Kernel.Paging s s₁ := by
  rcases hr with ⟨-, rfl, -⟩ | ⟨-, -, rfl⟩
  · exact Kernel.Paging.refl _
  · exact Kernel.Paging.withTable

theorem TableReady.mem_free (hr : TableReady s fl d i t s₁ fl₁) (hp : p ∈ fl₁) : p ∈ fl := by
  rcases hr with ⟨-, -, rfl⟩ | ⟨-, rfl, -⟩
  · exact hp
  · exact List.mem_cons_of_mem t hp

/-- Only a page taken from the free list is counted for the table. -/
theorem TableReady.ppRef (hr : TableReady s fl d i t s₁ fl₁) (hp : p ∉ fl) :
    (s₁.pages p).ppRef = (s.pages p).ppRef := by
  rcases hr with ⟨-, rfl, -⟩ | ⟨-, rfl, rfl⟩
  · rfl
  · have hne : p ≠ t := by rintro rfl; simp at hp
    simp [Kernel.ppRef_withTable, hne]

/-- The table is new and empty, or the entry's old translation is still there. -/
theorem TableReady.target_pte (hr : TableReady s fl d i t s₁ fl₁) (h : Balanced s L fl)
    (hd : d ∈ L.dirs) (hj : j < 1024) : target (s₁.pte d i j) = target (s.pte d i j) := by
  rcases hr with ⟨-, rfl, -⟩ | ⟨ht, rfl, rfl⟩
  · rfl
  · rw [h.pte_withTable hd hj, Kernel.pte_of_no_table ht]

theorem pgdirWalk_spec (h : Balanced s L fl) (hd : d ∈ L.dirs) (hi : pdx va ∈ L.own d) :
    (target (s.pde d (pdx va)) = none ∧ fl = [] ∧ pgdirWalk d va true s = .ok none s) ∨
    ∃ t s₁ fl₁, TableReady s fl d (pdx va) t s₁ fl₁ ∧
      pgdirWalk d va true s = .ok (some ⟨t, ptx va⟩) s₁ := by
  cases ht : target (s.pde d (pdx va)) with
  | some t =>
    have htn := (h.table d hd _ hi t ht).1
    exact Or.inr ⟨t, s, fl, Or.inl ⟨ht, rfl, rfl⟩, pgdirWalk_present ht htn⟩
  | none =>
    cases fl with
    | nil => exact Or.inl ⟨rfl, rfl, pgdirWalk_noMem ht h.head_eq⟩
    | cons p fl =>
      exact Or.inr ⟨p, _, fl, Or.inr ⟨ht, rfl, rfl⟩,
        pgdirWalk_create ht h.head_eq (h.free_lt (by simp)) h.npages_le⟩

/-- page_insert runs out of memory for the table, or maps the page through it. -/
theorem pageInsert_spec (h : Balanced s L fl) (hd : d ∈ L.dirs) (hva : pdx va < 955)
    (hpp : pp < s.npages) (hf : pp ∉ fl) (hr : (s.pages pp).ppRef.toNat < 65535) (perm : Word) :
    (target (s.pde d (pdx va)) = none ∧ fl = [] ∧
      pageInsert d pp va perm s = .ok (-eNoMem) s) ∨
    ∃ t s₁ fl₁, TableReady s fl d (pdx va) t s₁ fl₁ ∧
      pageInsert d pp va perm s = .ok 0 (s₁.mapAt t (ptx va) pp va perm) := by
  rcases pgdirWalk_spec h hd (h.own_user d hd _ hva) with ⟨ht, rfl, hwalk⟩ | ⟨t, s₁, fl₁, hready, hwalk⟩
  · exact Or.inl ⟨ht, rfl, pageInsert_noMem ht h.head_eq⟩
  · obtain ⟨hb, ht⟩ := hready.balanced h hd (h.own_user d hd _ hva)
    have hrr := hready.ppRef hf
    have hn := hready.paging.npages
    have htn := (hb.table d hd _ (hb.own_user d hd _ hva) t ht).1
    have hcont := pageInsert_onTable hb hd hva ht (hn ▸ hpp)
      (fun hm => hf (hready.mem_free hm)) (hrr ▸ hr) perm
    have hwalk' : pgdirWalk d va true s₁ = .ok (some ⟨t, ptx va⟩) s₁ := pgdirWalk_present ht htn
    -- from the table on, the run is the one that found it there
    refine Or.inr ⟨t, s₁, fl₁, hready, ?_⟩
    rw [pageInsert, bind_ok hwalk'] at hcont
    rw [pageInsert, bind_ok hwalk]
    exact hcont

end functions

end Jos
