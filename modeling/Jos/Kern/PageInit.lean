import Jos.Kern.BootHeap

/-! Which pages page_init frees, against the memory i386_detect_memory found. -/
namespace Jos

open Prog

/-- Page `i` is base memory outside the IO hole, or extended memory that the boot heap leaves. -/
def RealUnused (npagesBasemem bootHeapEnd i : Nat) : Prop :=
  (0 < i ∧ i < npagesBasemem ∧ i * 4096 < iophysmem.toNat) ∨
    (extphysmem.toNat ≤ i * 4096 ∧ bootHeapEnd ≤ i * 4096)

/-- The free list holds the real unused pages, each once; every other page is in use. -/
def FreesExactly (npagesBasemem bootHeapEnd : Nat) (t : Kernel) : Prop :=
  ∃ fl, Chain (fun p => (t.pages p).ppLink) t.pageFreeList fl ∧ fl.Nodup ∧
    (∀ i ∈ fl, i < t.npages) ∧ ∀ i < t.npages,
      (i ∈ fl ↔ RealUnused npagesBasemem bootHeapEnd i) ∧
      (t.pages i).ppRef = (if i ∈ fl then 0 else 1) ∧ (i ∉ fl → (t.pages i).ppLink = none)

variable {m : Machine} {s t : Kernel} {va n bootHeapEnd : Word} {i b : Nat}

theorem inUse_iff : InUse bootHeapEnd i ↔ i = 0 ∨ (160 ≤ i % 2 ^ 20 ∧ i % 2 ^ 20 ≤ 256) ∨
    (256 < i % 2 ^ 20 ∧ i % 2 ^ 20 * 4096 < bootHeapEnd.toNat) := by
  simp only [InUse, BitVec.le_def, BitVec.lt_def, toNat_page2pa_mod,
    show iophysmem.toNat = 160 * 4096 from rfl, show extphysmem.toNat = 256 * 4096 from rfl]
  omega

theorem realUnused_iff {e : Nat} : RealUnused b e i ↔
    (0 < i ∧ i < b ∧ i < 160) ∨ (256 ≤ i ∧ e ≤ i * 4096) := by
  simp only [RealUnused, show iophysmem.toNat = 160 * 4096 from rfl,
    show extphysmem.toNat = 256 * 4096 from rfl]
  omega

/-- Where the classification of the code and the detected memory agree on every page. -/
theorem notInUse_iff_realUnused {n : Nat} (he : bootHeapEnd.toNat < 2 ^ 28) :
    (∀ i < n, ¬ InUse bootHeapEnd i ↔ RealUnused b bootHeapEnd.toNat i) ↔
      min n 160 ≤ max 1 b ∧ (n ≤ 256 ∨ 256 * 4096 < bootHeapEnd.toNat) ∧ n ≤ 2 ^ 20 + 160 := by
  simp only [inUse_iff, realUnused_iff]
  constructor
  · intro h
    refine ⟨?base, ?hole, ?wrap⟩
    case base =>
      by_contra hlt
      have hi := h (max 1 b) (by omega)
      rw [Nat.mod_eq_of_lt (by omega)] at hi
      omega
    case hole =>
      by_contra hgt
      have hi := h 256 (by omega)
      rw [Nat.mod_eq_of_lt (by omega)] at hi
      omega
    case wrap =>
      by_contra hgt
      have hi := h (2 ^ 20 + 160) (by omega)
      omega
  · rintro ⟨hbase, hhole, hwrap⟩ i hi
    by_cases hlt : i < 2 ^ 20
    · rw [Nat.mod_eq_of_lt hlt]
      omega
    · have hmod : i % 2 ^ 20 = i - 2 ^ 20 := by omega
      rw [hmod]
      omega

/-- page_init runs its loop up to the address boot_alloc(0) reports. -/
theorem pageInit_done (hlist : s.pageFreeList = none) (h : pageInit m s = .ok () t) :
    kernbase ≤ s.heapNext m ∧ ∃ u, u.npages = s.npages ∧
      PageInitDone (s.heapNext m - kernbase) s.npages u t := by
  rw [pageInit] at h
  obtain ⟨kva, u, hboot, h⟩ := bind_eq_ok.mp h
  obtain ⟨rfl, hle, hu⟩ := bootAlloc_frame hboot
  rw [paddr] at h
  obtain ⟨pa, v, hpa, h⟩ := bind_eq_ok.mp h
  obtain ⟨_, w, hcheck, hpa⟩ := bind_eq_ok.mp hpa
  obtain ⟨-, rfl⟩ := check_eq_ok.mp hcheck
  obtain ⟨rfl, rfl⟩ := pure_eq_ok.mp hpa
  obtain rfl := update_eq_ok.mp h
  have hn : u.npages = s.npages := by rw [hu]
  have hf : u.pageFreeList = none := by rw [hu, hlist]
  refine ⟨hle, u, hn, ?_⟩
  rw [← hn]
  exact pageInitLoop_done hf _

/-- The loop frees the right pages exactly when its classification does. -/
theorem PageInitDone.freesExactly_iff {u : Kernel} {e : Nat} (h : PageInitDone bootHeapEnd u.npages u t) :
    FreesExactly b e t ↔ ∀ i < u.npages, ¬ InUse bootHeapEnd i ↔ RealUnused b e i := by
  have hn : t.npages = u.npages := by rw [h.rest]
  constructor
  · rintro ⟨fl, hchain, -, -, hfl⟩ i hi
    obtain rfl := hchain.unique h.chain
    rw [← (hfl i (hn ▸ hi)).1, mem_freePages]
    exact ⟨fun hu => ⟨hi, hu⟩, fun hu => hu.2⟩
  · intro hiff
    refine ⟨freePages bootHeapEnd u.npages, h.chain, h.chain.nodup, ?_, fun i hi => ?_⟩
    · intro i hi
      rw [hn]
      exact (mem_freePages.mp hi).1
    · rw [hn] at hi
      have hmem : i ∈ freePages bootHeapEnd u.npages ↔ ¬ InUse bootHeapEnd i := by
        rw [mem_freePages]
        exact and_iff_right hi
      refine ⟨hmem.trans (hiff i hi), ?_, fun hnot => h.link i hi ?_⟩
      · rw [h.ref i hi]
        by_cases hu : InUse bootHeapEnd i
        · rw [if_pos hu, if_neg (fun hc => hmem.mp hc hu)]
        · rw [if_neg hu, if_pos (hmem.mpr hu)]
      · by_contra hu
        exact hnot (hmem.mpr hu)

/-- page_init frees exactly the real unused pages if base memory reaches the IO hole (or to the
last page), the boot heap ends above EXTPHYSMEM, and page addresses do not wrap into the hole. -/
theorem pageInit_frees_iff (hlist : s.pageFreeList = none) (h : pageInit m s = .ok () t) :
    FreesExactly s.npagesBasemem (physAddr (s.heapNext m)) t ↔
      min s.npages 160 ≤ max 1 s.npagesBasemem ∧
      (s.npages ≤ 256 ∨ extphysmem.toNat < physAddr (s.heapNext m)) ∧ s.npages ≤ 2 ^ 20 + 160 := by
  obtain ⟨hle, u, hn, hdone⟩ := pageInit_done hlist h
  have hend : (s.heapNext m - kernbase).toNat = physAddr (s.heapNext m) :=
    BitVec.toNat_sub_of_le hle
  have hlt : (s.heapNext m - kernbase).toNat < 2 ^ 28 := by
    have := (s.heapNext m).isLt
    rw [hend, physAddr, show kernbase.toNat = 4026531840 from rfl]
    omega
  rw [← hn] at hdone ⊢
  rw [hdone.freesExactly_iff, ← hend, notInUse_iff_realUnused hlt]
  exact Iff.rfl

/-- mem_init's call of page_init. -/
theorem pageInit_boot {mem : Nat → Nat → Word} (h : HeapFits m) :
    pageInit m (beforePageInit m mem) = .ok () (afterPageInit m mem) := by
  have hdet := detectedPages_le m
  have hlt : heapEnd m < detectedPages m := h
  have hzero : heapEnd m + chunkPages 0#32 = heapEnd m := by
    rw [show chunkPages 0#32 = 0 from chunkPages_zero, Nat.add_zero]
  have hboot : bootAlloc m 0#32 (beforePageInit m mem) =
      .ok (heapVa (heapEnd m)) (beforePageInit m mem) := by
    refine (bootAlloc_eq_ok (k := heapEnd m) ?_ (by omega) ?_).mpr ⟨hlt, rfl, ?_⟩
    · exact if_neg (heapVa_ne_zero (by omega))
    · exact hdet.trans (by omega)
    · rw [hzero]
      rfl
  rw [pageInit, bind_ok hboot, bind_ok (paddr_heapVa (by omega))]
  rfl

/-- The small machine with `kb` KB of base memory. -/
def baseMachine (kb : Nat) : Machine :=
  { smallMachine with
    cmos := fun r => if r = 21 then BitVec.ofNat 8 kb else if r = 22 then BitVec.ofNat 8 (kb / 256)
      else smallMachine.cmos r }

theorem detectedPages_baseMachine (kb : Nat) : detectedPages (baseMachine kb) = 1280 := by
  have hext : nvramRead (baseMachine kb) nvramExtlo = 4096 := by
    simp [nvramRead, baseMachine, smallMachine, nvramExtlo]
  unfold detectedPages
  rw [hext]
  rfl

theorem heapEnd_baseMachine (kb : Nat) : heapEnd (baseMachine kb) = 307 := by
  have hpages : pagesPages (baseMachine kb) = 3 := by
    rw [pagesPages, detectedPages_baseMachine]
    unfold chunkPages
    decide
  have hbase : heapBase (baseMachine kb) = 279 := heapBase_smallMachine
  rw [heapEnd, hpages, hbase, envsPages_eq]

theorem heapFits_baseMachine (kb : Nat) : HeapFits (baseMachine kb) := by
  rw [HeapFits, heapEnd_baseMachine, detectedPages_baseMachine]
  omega

theorem npages_beforePageInit {mem : Nat → Nat → Word} :
    (beforePageInit m mem).npages = detectedPages m := rfl

theorem heapNext_baseMachine (kb : Nat) {mem : Nat → Nat → Word} :
    (beforePageInit (baseMachine kb) mem).heapNext (baseMachine kb) = heapVa 307 := by
  change (if heapVa (heapEnd (baseMachine kb)) = 0 then _ else heapVa (heapEnd (baseMachine kb))) = _
  rw [heapEnd_baseMachine, if_neg (heapVa_ne_zero (by omega))]

theorem pageInit_frees_fullBase :
    FreesExactly 160 (307 * 4096) (afterPageInit (baseMachine 640) fun _ _ => 0) := by
  have hbase : min 1280 160 ≤ max 1 160 := by omega
  have hend : extphysmem.toNat < 307 * 4096 := by decide
  have hn : (beforePageInit (baseMachine 640) fun _ _ => 0).npages = 1280 :=
    npages_beforePageInit.trans (detectedPages_baseMachine 640)
  have hrun : pageInit (baseMachine 640) (beforePageInit (baseMachine 640) fun _ _ => 0) = .ok () _ :=
    pageInit_boot (heapFits_baseMachine 640)
  have hiff := pageInit_frees_iff rfl hrun
  rw [heapNext_baseMachine, physAddr_heapVa (by decide), hn] at hiff
  exact hiff.mpr ⟨hbase, Or.inr hend, by decide⟩

/-- With 512K of base memory page_init frees page 128, which does not exist. -/
theorem not_pageInit_frees : ∃ t, memInitEarly (baseMachine 512) (bss fun _ _ => 0) = .ok () t ∧
    ¬ FreesExactly 128 (307 * 4096) t := by
  have hreal : ¬ RealUnused 128 (307 * 4096) 128 := by
    rw [realUnused_iff]
    omega
  have hfree : ¬ InUse (page2pa 307) 128 := by decide
  refine ⟨_, memInitEarly_eq_ok.mpr ⟨heapFits_baseMachine 512, rfl⟩, fun hfrees => ?_⟩
  have hdone : PageInitDone (page2pa 307) 1280 (beforePageInit (baseMachine 512) fun _ _ => 0)
      (afterPageInit (baseMachine 512) fun _ _ => 0) := by
    rw [← heapEnd_baseMachine 512, ← detectedPages_baseMachine 512]
    exact afterPageInit_done _ _
  have hn : (beforePageInit (baseMachine 512) fun _ _ => 0).npages = 1280 :=
    npages_beforePageInit.trans (detectedPages_baseMachine 512)
  rw [← hn] at hdone
  exact hreal ((hdone.freesExactly_iff.mp hfrees 128 (by rw [hn]; decide)).mp hfree)

end Jos
