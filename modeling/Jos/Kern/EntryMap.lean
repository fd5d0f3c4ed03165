import Jos.Kern.KernelSpace
import Jos.Kern.Logged
import Jos.Kern.LowPages

/-! mem_init before it loads kern_pgdir: with entry_pgdir the kernel reaches the first 4 MB and no more. -/
namespace Jos

open Prog

/-- mem_init as far as lcr3. -/
def memInitBeforeCr3 (m : Machine) : Kern Unit := do
  memInitEarly m
  checkPageFreeList m true
  checkPageAlloc
  checkPage
  mapKernel m
  checkKernPgdir m

theorem memInit_eq_ok {m : Machine} {s t : Kernel} : memInit m s = .ok () t ↔
    ∃ u, memInitBeforeCr3 m s = .ok () u ∧ (do
      lcr3 u.kernPgdir
      checkPageFreeList m false
      checkPageInstalledPgdir) u = .ok () t := by
  simp only [memInit, memInitBeforeCr3, bind_eq_ok, read_eq_ok]
  constructor
  · rintro ⟨_, s₁, h₁, _, s₂, h₂, _, s₃, h₃, _, s₄, h₄, _, s₅, h₅, _, s₆, h₆, u, v, ⟨rfl, rfl⟩, hrest⟩
    exact ⟨s₆, ⟨_, s₁, h₁, _, s₂, h₂, _, s₃, h₃, _, s₄, h₄, _, s₅, h₅, h₆⟩, hrest⟩
  · rintro ⟨u, ⟨_, s₁, h₁, _, s₂, h₂, _, s₃, h₃, _, s₄, h₄, _, s₅, h₅, h₆⟩, hrest⟩
    exact ⟨_, s₁, h₁, _, s₂, h₂, _, s₃, h₃, _, s₄, h₄, _, s₅, h₅, _, u, h₆, u, u, ⟨rfl, rfl⟩, hrest⟩

/-- No page past the first 4 MB has changed. -/
def HighKept (s t : Kernel) : Prop := ∀ q, 1024 ≤ q → t.mem q = s.mem q

instance : Std.Refl HighKept := ⟨fun _ _ _ => rfl⟩

instance : IsTrans Kernel HighKept := ⟨fun _ _ _ h h' q hq => (h' q hq).trans (h q hq)⟩

/-- kern_pgdir with its tables, and the pages it still needs, in the first 4 MB. -/
structure LowMap (m : Machine) (s : Kernel) (fl : List Nat) (M : Nat → Word) : Prop where
  heap : BootHeap m s
  dir : KernelDir m s fl M
  dir_low : s.kernPgdir < 1024
  tables : ∀ i ∈ kernOwn, ∀ q, target (s.pde s.kernPgdir i) = some q → q < 1024
  free : ∀ q ∈ fl.take (missing s), q < 1024

section high

variable {s t : Kernel} {p q i n : Nat} {w : Word}

theorem highKept_of_mem (h : t.mem = s.mem) : HighKept s t := fun q _ => congrFun h q

theorem highKept_store (hp : p < 1024) : HighKept s (s.store p i w) := by
  intro q hq
  funext j
  exact Kernel.mem_store_of_ne (by omega)

theorem highKept_fill (hp : p < 1024) : HighKept s (s.fill p n w) := by
  intro q hq
  funext j
  exact Kernel.mem_fill_of_ne (by omega)

theorem entryMapped_of_lt (hp : p < 1024) : EntryMapped p := by
  refine entryMapped_of_below ?_
  rw [Below, pdx_page2pa (by omega)]
  omega

theorem bootAlloc_highKept (m : Machine) (w : Word) : Within HighKept (bootAlloc m w) := by
  refine Within.bind (within_update fun s => ?_) fun _ => observes_read.within.bind fun _ =>
    (paddr_observes _).within.bind fun _ => (observes_check _ _).within.bind fun _ =>
      Within.bind (within_update fun _ => highKept_of_mem rfl) fun _ => (observes_pure _).within
  split
  · exact highKept_of_mem rfl
  · exact Std.Refl.refl s

theorem assign_highKept (l : SortList) (o : Option Nat) : Within HighKept (l.assign o) := by
  unfold SortList.assign
  split
  · exact (observes_pure _).within
  · exact Within.bind (within_update fun _ => highKept_of_mem rfl) fun _ => (observes_pure _).within

theorem lowPagesFirst_highKept (limit : Nat) : Within HighKept (lowPagesFirst limit) := by
  refine (within_forFreeList (fun ls pp => within_ite ?_ ?_) _).bind fun ls => ?_
  · exact (assign_highKept _ _).bind fun _ => (observes_pure _).within
  · exact (assign_highKept _ _).bind fun _ => (observes_pure _).within
  · exact (assign_highKept _ _).bind fun _ => (assign_highKept _ _).bind fun _ =>
      within_update fun _ => highKept_of_mem rfl

/-- Only pages below the limit are soiled. -/
theorem soilFreeList_highKept : Within HighKept (soilFreeList 1) := by
  refine within_forFreeList (fun _ pp => ?_) ()
  intro s a t hrun
  by_cases hlow : pdx (page2pa pp) < 1
  · rw [Prog.ite_apply, if_pos hlow] at hrun
    obtain ⟨kva, u, hkva, hrun⟩ := bind_eq_ok.mp hrun
    obtain ⟨-, rfl, rfl⟩ := kaddr_eq_ok.mp hkva
    obtain rfl := update_eq_ok.mp hrun
    refine highKept_fill ?_
    rw [pdx_eq] at hlow
    rw [pgnum_eq]
    omega
  · rw [Prog.ite_apply, if_neg hlow] at hrun
    exact (observes_pure ()).within _ _ _ hrun

theorem checkPageFreeList_highKept (m : Machine) : Within HighKept (checkPageFreeList m true) := by
  have hcount : ∀ first, Within HighKept (countFreePages first) := by
    refine fun first => within_forFreeList (fun n pp => observes_read.within.bind fun s => ?_) _
    refine (observes_check _ _).within.bind fun _ => (observes_check _ _).within.bind fun _ => ?_
    refine (observes_check _ _).within.bind fun _ => (observes_check _ _).within.bind fun _ => ?_
    refine (observes_check _ _).within.bind fun _ => within_ite (observes_pure _).within ?_
    exact (kaddr_observes _).within.bind fun _ => (observes_check _ _).within.bind fun _ =>
      (observes_pure _).within
  have htally : Within HighKept (tallyFreeList m true) := by
    refine observes_read.within.bind fun s => (observes_check _ _).within.bind fun _ => ?_
    exact (lowPagesFirst_highKept _).bind fun _ => soilFreeList_highKept.bind fun _ =>
      (bootAlloc_highKept _ _).bind fun _ => hcount _
  refine htally.bind ?_
  rintro ⟨nfreeBasemem, nfreeExtmem⟩
  exact (observes_check _ _).within.bind fun _ => (observes_check _ _).within

end high

section map

variable {m : Machine} {s t : Kernel} {fl : List Nat} {M : Nat → Word} {x p v n : Nat} {perm : Word}

theorem LowMap.mapPage (h : LowMap m s fl M) (hx : x < 2 ^ 20) (hxe : x / 1024 ∈ kernEntries) (p : Nat)
    (perm : Word) : Ensures (bootMapPage (heapBase m) (page2pa x) (page2pa p) perm) s fun _ t =>
      (∃ fl' M', LowMap m t fl' M') ∧ HighKept s t := by
  have hk : s.kernPgdir ∈ (bootLedger m kernOwn).dirs := h.dir.kernPgdir ▸ bootLedger_dirs
  have hown := kernOwn_of_kernEntries hxe
  have hbal := h.dir.balanced
  rw [← h.dir.kernPgdir]
  rintro ⟨⟩ t hrun
  have hpdx : pdx (page2pa x) ∈ kernOwn := by rwa [pdx_page2pa hx]
  have hwalks := pgdirWalk_spec hbal hk hpdx
  rw [pdx_page2pa hx, ptx_page2pa hx] at hwalks
  rcases hwalks with ⟨-, -, hwalk⟩ | ⟨q, s₁, fl₁, hr, hwalk⟩
  · rw [bootMapPage, bind_ok hwalk] at hrun
    exact absurd hrun stop_ne_ok
  rw [bootMapPage, bind_ok hwalk] at hrun
  obtain rfl := update_eq_ok.mp hrun
  obtain ⟨hdir, taken, rfl, hlen⟩ := h.dir.storeEntry hxe hr (pteAddr (page2pa p) ||| perm ||| pteP)
  have hlow : q < 1024 := by
    rcases hr with ⟨ht, -, -⟩ | ⟨hnone, hfl, -⟩
    · exact h.tables _ hown q ht
    · have hpos : 0 < missing s := Finset.card_pos.mpr ⟨x / 1024, by simp [hxe, hnone]⟩
      obtain ⟨n, hn⟩ := Nat.exists_eq_succ_of_ne_zero hpos.ne'
      refine h.free q ?_
      rw [hfl, hn, List.take_succ_cons]
      exact List.mem_cons_self
  obtain ⟨hbal₁, htarget⟩ := hr.balanced hbal hk hown
  have hne : q ≠ s.kernPgdir := by
    rintro rfl
    exact (hbal₁.table _ hk _ hown _ htarget).2 hk
  have hkern : s₁.kernPgdir = s.kernPgdir := hr.paging.kernPgdir
  refine ⟨⟨fl₁, _, h.heap.paging (hr.paging.trans Kernel.Paging.store), hdir, hkern ▸ h.dir_low, ?_, ?_⟩, ?_⟩
  · intro i hi q' hq'
    have hpde : (s₁.store q (x % 1024) (pteAddr (page2pa p) ||| perm ||| pteP)).pde s.kernPgdir i =
        s₁.pde s.kernPgdir i := Kernel.mem_store_of_ne (Ne.symm hne)
    change target ((s₁.store q (x % 1024) _).pde s₁.kernPgdir i) = some q' at hq'
    rw [hkern, hpde] at hq'
    rcases hr.pde hbal hk i with he | ⟨rfl, he⟩
    · rw [he] at hq'
      exact h.tables i hi q' hq'
    · rw [htarget] at hq'
      cases hq'
      exact hlow
  · intro q' hq'
    refine h.free q' ?_
    rw [← hlen, List.take_length_add_append]
    exact List.mem_append_right _ hq'
  · have hstep : HighKept s s₁ := by
      rcases hr with ⟨-, rfl, -⟩ | ⟨-, -, rfl⟩
      · exact Std.Refl.refl _
      · intro q' hq'
        funext j
        rw [Kernel.mem_withTable, if_neg, if_neg]
        · omega
        · have := h.dir_low
          omega
    exact IsTrans.trans _ _ _ hstep (highKept_store hlow)

/-- What mem_init does to memory, up to where it loads kern_pgdir, it does in the first 4 MB. -/
def LowStep (m : Machine) (s t : Kernel) : Prop := (∃ fl M, LowMap m t fl M) ∧ HighKept s t

theorem LowStep.region (h : LowStep m s t) (hv : v + n ≤ 2 ^ 20)
    (hrange : ∀ x, v ≤ x → x < v + n → x / 1024 ∈ kernEntries) {size : Word}
    (hn : (size / pgsize).toNat = n) :
    Ensures (bootMapRegion (heapBase m) (page2pa v) size (page2pa p) perm) t fun _ u => LowStep m s u := by
  rw [bootMapRegion_rounds hn]
  refine forRange_ensures (I := fun _ u => LowStep m s u) h ?_
  rintro k hk u ⟨⟨fl, M, hu⟩, hkept⟩
  refine (hu.mapPage (by omega) (hrange _ (by omega) (by omega)) (p + k) perm).mono ?_
  rintro ⟨⟩ w ⟨hw, hstep⟩
  exact ⟨hw, IsTrans.trans _ _ _ hkept hstep⟩

theorem LowMap.mapKernel (h : LowMap m s fl M) :
    Ensures (mapKernel m) s fun _ t => LowStep m s t := by
  have hb := h.heap
  have hdet := detectedPages_le m
  have hpp := pagesPages_le m
  have hep := envsPages_eq
  have hfit := hb.fits
  unfold HeapFits heapEnd at hfit
  have hupages : upages = page2pa (956 * 1024) := by decide
  have huenvs : uenvs = page2pa (955 * 1024) := by decide
  have hstack : kstacktop - kstksize = page2pa (960 * 1024 - 8) := by decide
  have hbase : kernbase = page2pa (960 * 1024) := by decide
  have hzero : (0#32 : Word) = page2pa 0 := by decide
  have hps : (roundUp (pagesSize s) pgsize / pgsize).toNat = pagesPages m := by
    rw [pages_of_size, pagesSize, hb.npages, pagesPages]
    rw [pagesSize, hb.npages, sizeofPageInfo, BitVec.toNat_mul]
    simp only [BitVec.toNat_ofNat]
    omega
  have hes : (roundUp envsSize pgsize / pgsize).toNat = envsPages :=
    pages_of_size (by decide)
  rw [Jos.mapKernel]
  refine Ensures.step (read_apply s) ?_
  rw [hb.pagesVa, hb.envsVa, hupages, huenvs, hstack, h.dir.kernPgdir]
  have hstart : LowStep m s s := ⟨⟨fl, M, h⟩, Std.Refl.refl s⟩
  refine Ensures.step (paddr_heapVa (by omega)) ?_
  refine Ensures.bind (hstart.region (by omega) ?_ hps) ?_
  · intro x hx hxn
    rw [mem_kernEntries]
    omega
  rintro ⟨⟩ t₁ h₁
  rw [heapVa_eq]
  refine Ensures.bind (h₁.region (by omega) ?_ hps) ?_
  · intro x hx hxn
    rw [mem_kernEntries]
    omega
  rintro ⟨⟩ t₂ h₂
  refine Ensures.step (paddr_heapVa (by omega)) ?_
  refine Ensures.bind (h₂.region (by omega) ?_ hes) ?_
  · intro x hx hxn
    rw [mem_kernEntries]
    omega
  rintro ⟨⟩ t₃ h₃
  rw [heapVa_eq]
  refine Ensures.bind (h₃.region (by omega) ?_ hes) ?_
  · intro x hx hxn
    rw [mem_kernEntries]
    omega
  rintro ⟨⟩ t₄ h₄
  refine Ensures.step (paddr_bootstack m) ?_
  refine Ensures.bind (h₄.region (n := 8) (by omega) ?_ (by decide)) ?_
  · intro x hx hxn
    rw [mem_kernEntries]
    omega
  rintro ⟨⟩ t₅ h₅
  rw [hbase, hzero]
  refine h₅.region (n := 65536) (by omega) ?_ (by decide)
  intro x hx hxn
  rw [mem_kernEntries]
  omega

end map

section tests

variable {m : Machine} {s : Kernel} {p : Fin 3 → Nat} {rest : List Nat} {b : Bench} {M : Nat → Word}

/-- A self-test writes to its three pages, and puts them back on the list in some order. -/
theorem LowMap.bench (h : LowMap m s (p 0 :: p 1 :: p 2 :: rest) M) (hthree : 3 ≤ missing s)
    (hdir : b.dir = s.mem s.kernPgdir) {i j k : Fin 3}
    (hperm : [i, j, k].Perm [0, 1, 2]) (hhead : b.head = some (p i))
    (hi : b.info i = ⟨some (p j), 0⟩) (hj : b.info j = ⟨some (p k), 0⟩)
    (hl : b.info k = ⟨rest.head?, 0⟩) :
    LowMap m (b.at_ s p) (p i :: p j :: p k :: rest) M ∧ HighKept s (b.at_ s p) ∧
      missing (b.at_ s p) = missing s := by
  have hk : s.kernPgdir ∈ (bootLedger m kernOwn).dirs := h.dir.kernPgdir ▸ bootLedger_dirs
  have hshuffled := h.dir.balanced.bench_shuffled hk hdir hperm hhead hi hj hl
  obtain ⟨htrio, -⟩ := h.dir.balanced.trio hk
  have hmem : (b.at_ s p).mem s.kernPgdir = s.mem s.kernPgdir := htrio.mem_dir.trans hdir
  have hmissing : missing (b.at_ s p) = missing s := missing_congr rfl fun i => congrFun hmem i
  obtain ⟨n, hn⟩ := Nat.exists_eq_add_of_le' hthree
  have hlow : ∀ l, p l < 1024 := by
    intro l
    refine h.free _ ?_
    rw [hn, List.take_succ_cons, List.take_succ_cons, List.take_succ_cons]
    match l with
    | 0 => simp
    | 1 => simp
    | 2 => simp
  refine ⟨⟨h.heap.paging hshuffled.paging, h.dir.shuffled hshuffled, h.dir_low, ?_, ?_⟩, ?_, hmissing⟩
  · intro i hi q hq
    refine h.tables i hi q ?_
    rwa [Kernel.pde, ← hmem]
  · intro q hq
    rw [hmissing, hn, List.take_succ_cons, List.take_succ_cons, List.take_succ_cons] at hq
    have hin : q = p i ∨ q = p j ∨ q = p k ∨ q ∈ rest.take n := by simpa using hq
    rcases hin with rfl | rfl | rfl | hin
    · exact hlow i
    · exact hlow j
    · exact hlow k
    · refine h.free q ?_
      rw [hn, List.take_succ_cons, List.take_succ_cons, List.take_succ_cons]
      simp [hin]
  · intro q hq
    have hne : ¬ ∃ l, p l = q := by
      rintro ⟨l, rfl⟩
      have := hlow l
      omega
    have hoff : (b.at_ s p).mem q = Function.update s.mem s.kernPgdir b.dir q :=
      Function.extend_apply' _ _ _ hne
    rw [hoff, hdir, Function.update_eq_self]

theorem LowMap.checkPageAlloc {fl : List Nat} (h : LowMap m s fl M) (hthree : 3 ≤ missing s) :
    Ensures checkPageAlloc s fun _ t =>
      (∃ fl', LowMap m t fl' M) ∧ HighKept s t ∧ missing t = missing s := by
  have hk : s.kernPgdir ∈ (bootLedger m kernOwn).dirs := h.dir.kernPgdir ▸ bootLedger_dirs
  have hbal := h.dir.balanced
  rintro ⟨⟩ t ht
  have hrun := ht
  rw [Jos.checkPageAlloc, bind_ok (read_apply s)] at hrun
  obtain ⟨_, u, hu, hrun⟩ := bind_eq_ok.mp hrun
  obtain ⟨hva, rfl⟩ := check_eq_ok.mp hu
  rw [bind_ok (countFreeList_ok hbal.chain hbal.length_le)] at hrun
  obtain ⟨p, rest, rfl⟩ := three_of_length (needs_three hbal hrun)
  obtain ⟨htrio, hs⟩ := hbal.trio hk
  obtain ⟨b, rfl, hhead, hinfo, hdir⟩ :=
    (checkPageAlloc_run htrio hs hva hbal.chain hbal.length_le).ensures _ _ ht
  obtain ⟨hlow, hrest⟩ := h.bench hthree hdir (i := 0) (j := 1) (k := 2) (List.Perm.refl _) hhead
    (congrFun hinfo 0) (congrFun hinfo 1) (congrFun hinfo 2)
  exact ⟨⟨_, hlow⟩, hrest⟩

theorem LowMap.checkPage {fl : List Nat} (h : LowMap m s fl M) (hthree : 3 ≤ missing s) :
    Ensures checkPage s fun _ t => (∃ fl', LowMap m t fl' M) ∧ HighKept s t ∧ missing t = missing s := by
  have hk : s.kernPgdir ∈ (bootLedger m kernOwn).dirs := h.dir.kernPgdir ▸ bootLedger_dirs
  have hbal := h.dir.balanced
  have hd0 := h.dir.user_empty (i := 0) (by decide)
  have hd1 := h.dir.user_empty (i := 1) (by decide)
  rintro ⟨⟩ t ht
  have hrun := ht
  rw [Jos.checkPage, bind_ok (read_apply s)] at hrun
  obtain ⟨p, rest, rfl⟩ := three_of_length (needs_three hbal hrun)
  obtain ⟨htrio, hs⟩ := hbal.trio hk
  obtain ⟨b, rfl, hhead, hinfo, hdir⟩ := (checkPage_run htrio hs hd0 hd1).ensures _ _ ht
  obtain ⟨hlow, hrest⟩ := h.bench hthree hdir (i := 2) (j := 1) (k := 0) (by decide) hhead
    (congrFun hinfo 2) (congrFun hinfo 1) (congrFun hinfo 0)
  exact ⟨⟨_, hlow⟩, hrest⟩

end tests

section early

variable {m : Machine} {mem : Nat → Nat → Word} {s t : Kernel}

theorem afterPageInit_highKept (hfirst : heapEnd m ≤ 1024) : HighKept (bss mem) (afterPageInit m mem) := by
  have hbase := heapBase_lt_heapEnd m
  rw [(afterPageInit_done m mem).rest]
  exact IsTrans.trans (r := HighKept) _ _ _ (highKept_fill (s := { bss mem with
    npages := detectedPages m
    npagesBasemem := nvramRead m nvramBaselo * 1024 / 4096
    nextfree := heapVa (heapEnd m)
    kernPgdir := heapBase m
    pagesVa := heapVa (heapBase m + 1)
    envsVa := heapVa (heapBase m + 1 + pagesPages m) }) (by omega)) (highKept_store (by omega))

theorem length_low_high (fl : List Nat) : (lowPages fl ++ highPages fl).length = fl.length := by
  have hsum := List.length_eq_countP_add_countP (fun p => decide (pdx (page2pa p) = 0)) (l := fl)
  rw [List.length_append, lowPages, highPages, ← List.countP_eq_length_filter,
    ← List.countP_eq_length_filter, hsum]
  simp

theorem lt_length_lowPages (hroom : Roomy m) :
    67 < (lowPages (freePages (page2pa (heapEnd m)) (detectedPages m))).length := by
  refine Nat.lt_of_lt_of_le hroom.2.1 ?_
  rw [lowPages, ← List.countP_eq_length_filter]
  refine List.countP_mono_left fun q _ hq => ?_
  have hlt : page2pa q < extphysmem := of_decide_eq_true hq
  rw [BitVec.lt_def, show extphysmem.toNat = 1048576 from rfl] at hlt
  rw [pdx_eq]
  exact decide_eq_true (by omega)

/-- check_page_free_list(1) is why: behind it the pages that page_alloc gives out first are mapped. -/
theorem checkPageFreeList_lowMap (hroom : Roomy m) (hfirst : heapEnd m ≤ 1024) :
    Ensures (checkPageFreeList m true) (afterPageInit m mem) fun _ t =>
      (∃ fl, LowMap m t fl fun _ => 0#32) ∧ HighKept (bss mem) t ∧ missing t = 67 := by
  have hstart : Booting m (afterPageInit m mem) (afterPageInit m mem)
      (freePages (page2pa (heapEnd m)) (detectedPages m)) fun _ => 0#32 := Booting.start hroom.1
  have hdone := afterPageInit_done m mem
  rintro ⟨⟩ t ht
  obtain ⟨fl, hboot⟩ := (hstart.checkPageFreeList true).ensures _ _ ht
  obtain ⟨hchain, -⟩ := (checkPageFreeList_lowFirst hdone.chain fun p hp => by
    rw [npages_afterPageInit]
    exact (mem_freePages.mp hp).1).2 _ _ ht
  obtain rfl := hboot.dir.balanced.chain.unique hchain
  have hkept := IsTrans.trans _ _ _ (afterPageInit_highKept hfirst)
    (checkPageFreeList_highKept m _ _ _ ht)
  have hmissing : missing t = 67 := by
    obtain ⟨taken, hperm, hlen⟩ := hboot.free
    have hl := hperm.length_eq
    rw [List.length_append, length_low_high] at hl
    omega
  have hlong := lt_length_lowPages hroom
  refine ⟨⟨_, hboot.heap, hboot.dir, ?_, ?_, ?_⟩, hkept, hmissing⟩
  · rw [hboot.dir.kernPgdir]
    exact Nat.lt_of_lt_of_le (heapBase_lt_heapEnd m) hfirst
  · intro i hi q hq
    have hfull : (kernEntries.filter fun i => target (t.pde t.kernPgdir i) = none) = kernEntries :=
      Finset.eq_of_subset_of_card_le (Finset.filter_subset _ _) (by
        rw [card_kernEntries]
        exact hmissing.ge)
    rcases hboot.dir.pdes i hi with h0 | ⟨hm, -⟩
    · rw [h0, target_zero] at hq
      cases hq
    · rw [← hfull, Finset.mem_filter, hq] at hm
      cases hm.2
  · intro q hq
    rw [hmissing, List.take_append_of_le_length (by omega)] at hq
    obtain ⟨hin, hpdx⟩ := List.mem_filter.mp (List.mem_of_mem_take hq)
    have hlt := (mem_freePages.mp hin).1
    have hdet := detectedPages_le m
    have h0 : pdx (page2pa q) = 0 := of_decide_eq_true hpdx
    rw [pdx_page2pa (by omega)] at h0
    omega

/-- What mem_init has done when it comes to lcr3. -/
theorem memInitBeforeCr3_ensures (hroom : Roomy m) (hfirst : heapEnd m ≤ 1024) :
    Ensures (memInitBeforeCr3 m) (bss mem) fun _ t =>
      LowStep m (bss mem) t ∧ ∃ fl, KernelDir m t fl (kernelMap m) := by
  rintro ⟨⟩ t hrun
  simp only [memInitBeforeCr3, bind_eq_ok] at hrun
  obtain ⟨_, s₀, h₀, _, s₁, h₁, _, s₂, h₂, _, s₃, h₃, _, s₄, h₄, hrun⟩ := hrun
  obtain ⟨-, rfl⟩ := memInitEarly_eq_ok.mp h₀
  obtain ⟨⟨fl₁, hlow₁⟩, hkept₁, hm₁⟩ := checkPageFreeList_lowMap hroom hfirst _ _ h₁
  obtain ⟨⟨fl₂, hlow₂⟩, hkept₂, hm₂⟩ := hlow₁.checkPageAlloc (by omega) _ _ h₂
  obtain ⟨⟨fl₃, hlow₃⟩, hkept₃, -⟩ := hlow₂.checkPage (by omega) _ _ h₃
  obtain ⟨⟨fl, M, hmap⟩, hkept₄⟩ := hlow₃.mapKernel _ _ h₄
  obtain ⟨fl₄, hdir, -⟩ := (mapKernel_spec hlow₃.dir hlow₃.heap).ensures _ _ h₄
  rw [hdir.checkKernPgdir_ok hmap.heap] at hrun
  cases hrun
  refine ⟨⟨⟨fl, M, hmap⟩, fun q hq => ?_⟩, fl₄, hdir⟩
  rw [hkept₄ q hq, hkept₃ q hq, hkept₂ q hq, hkept₁ q hq]

/-- Where entry_pgdir maps the kernel, kern_pgdir maps it in the same way. -/
theorem KernelDir.same_as_entry {fl : List Nat} (h : KernelDir m t fl (kernelMap m))
    {pgdir pgtable : Nat} {va : Word} {x : Translation} (hne : pgdir ≠ pgtable) (hlt : pgtable < 2 ^ 20)
    (hva : kernbase ≤ va) (hx : hwWalk (entryPgdir pgdir pgtable) pgdir va = some x) :
    hwWalk t.mem t.kernPgdir va = some x := by
  have hkb : kernbase.toNat = 960 * 2 ^ 22 := rfl
  rw [BitVec.le_def, hkb] at hva
  have hpdx : pdx va = 960 := by
    by_contra hc
    have habsent : ¬ Has (entryPgdir pgdir pgtable pgdir (pdx va)) pteP := by
      rw [entryPgdir, if_pos rfl, if_neg, if_neg]
      · exact not_has_zero
      · rwa [pdx_kernbase]
      · rw [pdx_eq]
        omega
    rw [hwWalk_absent habsent] at hx
    cases hx
  rw [pdx_eq] at hpdx
  have hpage : pgnum va - 960 * 1024 < 1024 := by
    rw [pgnum_eq]
    omega
  have hsame : pgnum va = pgnum (kernbase + page2pa (pgnum va - 960 * 1024)) := by
    have hlt' := va.isLt
    rw [pgnum_eq] at hpage ⊢
    rw [pgnum_eq, BitVec.toNat_add, hkb, toNat_page2pa (by omega)]
    omega
  have hentry := entryMapped_of_lt hpage pgdir pgtable hne hlt
  rw [pgnum_page2pa (by omega)] at hentry
  rw [hwWalk_samePage hsame, hentry] at hx
  rw [← hx]
  have hperm : pteW.toNat < 4096 := by decide
  refine h.walk ?_ (by omega) hperm ?_
  · rw [pdx_eq]
    omega
  · have hsum : pgnum va = 960 * 1024 + (pgnum va - 960 * 1024) := by
      rw [pgnum_eq]
      omega
    rw [hsum, kernelMap_base m (by omega), Nat.add_sub_cancel_left]

/-- mem_init, until it loads kern_pgdir, keeps to memory that entry_pgdir maps: it changes no other page,
and kern_pgdir and all its tables lie there. The switch then moves nothing that entry_pgdir maps above
KERNBASE. -/
theorem memInit_entryMapped (mem : Nat → Nat → Word) (hroom : Roomy m) (hfirst : heapEnd m ≤ 1024) :
    ∃ t u, memInitBeforeCr3 m (bss mem) = .ok () t ∧ memInit m (bss mem) = .ok () u ∧
      (∀ q, t.mem q ≠ mem q → EntryMapped q) ∧ EntryMapped t.kernPgdir ∧
      (∀ i < 1024, ∀ q, target (t.pde t.kernPgdir i) = some q → EntryMapped q) ∧
      ∀ pgdir pgtable, pgdir ≠ pgtable → pgtable < 2 ^ 20 → ∀ va x, kernbase ≤ va →
        hwWalk (entryPgdir pgdir pgtable) pgdir va = some x → hwWalk t.mem t.kernPgdir va = some x := by
  obtain ⟨⟨⟩, u, hu, -⟩ := memInit_spec.returns (not_not.mpr hroom)
  obtain ⟨t, ht, -⟩ := memInit_eq_ok.mp hu
  obtain ⟨⟨⟨fl', M, hlow⟩, hkept⟩, fl, hdir⟩ := memInitBeforeCr3_ensures hroom hfirst _ _ ht
  refine ⟨t, u, ht, hu, fun q hq => ?_, entryMapped_of_lt hlow.dir_low, fun i hi q hq => ?_,
    fun pgdir pgtable hne hlt va x hva hx => hdir.same_as_entry hne hlt hva hx⟩
  · refine entryMapped_of_lt ?_
    by_contra hge
    exact hq (hkept q (by omega))
  · refine entryMapped_of_lt ?_
    by_cases h957 : i = 957
    · have hdet := detectedPages_le m
      have hfit : heapEnd m < detectedPages m := hroom.1
      have hbase := heapBase_lt_heapEnd m
      rw [h957, hlow.dir.self, hlow.dir.kernPgdir, selfEntry, BitVec.or_assoc,
        target_entry (by omega) (by decide) (by decide)] at hq
      obtain rfl := Option.some.inj hq
      omega
    · exact hlow.tables i (mem_kernOwn.mpr ⟨hi, h957⟩) q hq

theorem memInit_entryMapped_smallMachine : ∃ t u,
    memInitBeforeCr3 smallMachine (bss fun _ _ => 0) = .ok () t ∧
      memInit smallMachine (bss fun _ _ => 0) = .ok () u ∧ EntryMapped t.kernPgdir ∧
      ∀ q, t.mem q ≠ (fun _ => 0#32) → EntryMapped q := by
  obtain ⟨t, u, ht, hu, hkept, hdir, -⟩ := memInit_entryMapped (fun _ _ => 0) roomy_smallMachine
    (heapEnd_smallMachine.trans_le (by decide))
  exact ⟨t, u, ht, hu, hdir, hkept⟩

end early

end Jos
