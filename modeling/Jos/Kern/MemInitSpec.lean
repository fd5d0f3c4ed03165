import Jos.Kern.KernelMap

/-! What mem_init leaves: the kernel's map in kern_pgdir, loaded, and the allocator in order. -/
namespace Jos

open Prog

section kernelDir

variable {m : Machine} {s t : Kernel} {fl : List Nat} {M : Nat → Word} {x q i : Nat} {perm : Word}

theorem target_pageEntry (hq : q < 2 ^ 20) (hperm : perm.toNat < 4096) :
    target (pageEntry q perm) = some q := Balanced.target_newEntry hq hperm

theorem pteAddr_pageEntry (hq : q < 2 ^ 20) (hperm : perm.toNat < 4096) :
    pteAddr (pageEntry q perm) = page2pa q := by
  rw [← page2pa_pgnum, (target_eq_some.mp (target_pageEntry hq hperm)).2]

namespace KernelDir

theorem dirs (h : KernelDir m s fl M) : s.kernPgdir ∈ (bootLedger m kernOwn).dirs :=
  h.kernPgdir ▸ bootLedger_dirs

/-- The entry of a virtual page outside UVPT. -/
theorem pte_eq (h : KernelDir m s fl M) (hx : x / 1024 ∈ kernOwn) :
    s.pte s.kernPgdir (x / 1024) (x % 1024) = M x := by
  rw [h.maps _ hx _ (Nat.mod_lt _ (by decide))]
  congr 1
  omega

theorem checkVa2pa_eq (h : KernelDir m s fl M) (hlt : x < 2 ^ 20) (hx : x / 1024 ∈ kernOwn) :
    checkVa2pa s.kernPgdir (page2pa x) s =
      .ok (if Has (M x) pteP then pteAddr (M x) else noPage) s := by
  have hpte := h.pte_eq hx
  cases ht : target (s.pde s.kernPgdir (x / 1024)) with
  | none =>
    rw [Kernel.pte_of_no_table ht] at hpte
    rw [← hpte, if_neg not_has_zero]
    apply checkVa2pa_noTable
    rw [pdx_page2pa hlt]
    exact ht
  | some t =>
    have hdir : target (s.pde s.kernPgdir (pdx (page2pa x))) = some t := by
      rw [pdx_page2pa hlt]
      exact ht
    have hrun := checkVa2pa_table hdir (h.balanced.table _ h.dirs _ hx t ht).1
    rw [Kernel.pte_of_target ht] at hpte
    rw [hrun, ptx_page2pa hlt, hpte]

theorem checkVa2pa_absent (h : KernelDir m s fl M) (hlt : x < 2 ^ 20) (hx : x / 1024 ∈ kernOwn)
    (hM : M x = 0#32) : checkVa2pa s.kernPgdir (page2pa x) s = .ok noPage s := by
  rw [h.checkVa2pa_eq hlt hx, hM, if_neg not_has_zero]

theorem checkVa2pa_mapped (h : KernelDir m s fl M) (hlt : x < 2 ^ 20) (hx : x / 1024 ∈ kernOwn)
    (hq : q < 2 ^ 20) (hperm : perm.toNat < 4096) (hM : M x = pageEntry q perm) :
    checkVa2pa s.kernPgdir (page2pa x) s = .ok (page2pa q) s := by
  have hP := (target_eq_some.mp (target_pageEntry hq hperm)).1
  rw [h.checkVa2pa_eq hlt hx, hM, if_pos hP, pteAddr_pageEntry hq hperm]

/-- An entry of the map needs a table. -/
theorem present (h : KernelDir m s fl M) (hx : x / 1024 ∈ kernOwn) (hq : q < 2 ^ 20)
    (hperm : perm.toNat < 4096) (hM : M x = pageEntry q perm) :
    ∃ t, s.pde s.kernPgdir (x / 1024) = tableEntry t := by
  rcases h.pdes _ hx with h0 | ⟨-, ht⟩
  · have hpte := h.pte_eq hx
    rw [Kernel.pte_of_no_table (by rw [h0, target_zero]), hM] at hpte
    have hent := target_pageEntry hq hperm
    rw [← hpte, target_zero] at hent
    cases hent
  · exact ht

theorem assertMapped_ok (h : KernelDir m s fl M) {v p n : Nat} (hv : v + n ≤ 2 ^ 20)
    (hp : p + n ≤ 2 ^ 20) (hx : ∀ k < n, (v + k) / 1024 ∈ kernOwn) (hperm : perm.toNat < 4096)
    (hM : ∀ k < n, M (v + k) = pageEntry (p + k) perm) :
    assertMapped s.kernPgdir (page2pa v) (page2pa p) n s = .ok () s := by
  unfold assertMapped
  apply forRange_ok
  intro k hk
  have hrun := h.checkVa2pa_mapped (x := v + k) (by omega) (hx k hk) (by omega) hperm (hM k hk)
  rw [page2pa_offset, page2pa_offset]
  exact assertVa2pa_ok hrun

end KernelDir

end kernelDir
section checkKernPgdir

variable {m : Machine} {s t : Kernel} {fl fl' : List Nat} {M : Nat → Word} {x q i k : Nat}
  {perm : Word}

theorem pteU_lt : pteU.toNat < 4096 := by decide

theorem pteW_lt : pteW.toNat < 4096 := by decide

section kernelMap

variable (m)

theorem kernelMap_envs (hk : k < envsPages) :
    kernelMap m (955 * 1024 + k) = pageEntry (heapBase m + 1 + pagesPages m + k) pteU := by
  rw [kernelMap, if_pos (by omega), Nat.add_sub_cancel_left]

theorem kernelMap_pages (hk : k < pagesPages m) :
    kernelMap m (956 * 1024 + k) = pageEntry (heapBase m + 1 + k) pteU := by
  have hep := envsPages_eq
  rw [kernelMap, if_neg (by omega), if_pos (by omega), Nat.add_sub_cancel_left]

theorem kernelMap_stack (hk : k < 8) :
    kernelMap m (960 * 1024 - 8 + k) = pageEntry (stackPage m + k) pteW := by
  have hep := envsPages_eq
  have hpp := pagesPages_le m
  rw [kernelMap, if_neg (by omega), if_neg (by omega), if_pos (by omega), Nat.add_sub_cancel_left]

theorem kernelMap_base (hk : k < 65536) :
    kernelMap m (960 * 1024 + k) = pageEntry k pteW := by
  have hep := envsPages_eq
  have hpp := pagesPages_le m
  rw [kernelMap, if_neg (by omega), if_neg (by omega), if_neg (by omega), if_pos (by omega),
    Nat.add_sub_cancel_left]

/-- The guard below the kernel stack. -/
theorem kernelMap_guard (hx : 959 * 1024 ≤ x) (hlt : x < 960 * 1024 - 8) : kernelMap m x = 0#32 := by
  have hep := envsPages_eq
  have hpp := pagesPages_le m
  rw [kernelMap, if_neg (by omega), if_neg (by omega), if_neg (by omega), if_neg (by omega)]

theorem pagesPages_pos (hfit : HeapFits m) : 0 < pagesPages m := by
  have hdet := detectedPages_le m
  have hbase := heapBase_gt m
  unfold HeapFits heapEnd at hfit
  have hs : (sizeofPageInfo * BitVec.ofNat 32 (detectedPages m)).toNat = 8 * detectedPages m := by
    rw [sizeofPageInfo, BitVec.toNat_mul]
    simp only [BitVec.toNat_ofNat]
    omega
  rw [pagesPages, chunkPages, hs]
  omega

theorem stackPage_lt : stackPage m + 8 ≤ 65536 := by
  obtain ⟨h1, h2, h3⟩ := m.bootstack_mem
  have hlt := m.kernEnd.isLt
  have hb : kernbase.toNat = 4026531840 := rfl
  have hbe : (kernbase + extphysmem).toNat = 4027580416 := rfl
  have hks : kstksize.toNat = 32768 := rfl
  rw [BitVec.le_def] at h1 h2 h3
  rw [hbe] at h1
  have hle : kernbase ≤ m.bootstack := by
    rw [BitVec.le_def, hb]
    omega
  have hsub : (m.bootstack - kernbase).toNat = m.bootstack.toNat - 4026531840 := by
    rw [BitVec.toNat_sub_of_le hle, hb]
  have hsum : (m.bootstack + kstksize).toNat = (m.bootstack.toNat + 32768) % 2 ^ 32 := by
    rw [BitVec.toNat_add, hks]
  rw [stackPage, pgnum_eq, hsub]
  omega

end kernelMap

namespace KernelDir

theorem present_of_kernEntries (h : KernelDir m s fl (kernelMap m)) (hfit : HeapFits m)
    (hi : i ∈ kernEntries) : ∃ t, s.pde s.kernPgdir i = tableEntry t := by
  have hdet := detectedPages_le m
  have hfit' := hfit
  unfold HeapFits heapEnd at hfit'
  have hpos := pagesPages_pos m hfit
  have hep := envsPages_eq
  have hst := stackPage_lt m
  have hown := kernOwn_of_kernEntries hi
  have huse : ∀ x q perm, x / 1024 = i → q < 2 ^ 20 → perm.toNat < 4096 →
      kernelMap m x = pageEntry q perm → ∃ t, s.pde s.kernPgdir i = tableEntry t := by
    rintro x q perm rfl hq hperm hM
    exact h.present hown hq hperm hM
  rw [mem_kernEntries] at hi
  obtain ⟨hlt, rfl | rfl | hge⟩ := hi
  · exact huse _ _ _ (by omega) (by omega) pteU_lt (kernelMap_envs m (k := 0) (by omega))
  · exact huse _ _ _ (by omega) (by omega) pteU_lt (kernelMap_pages m (k := 0) (by omega))
  · by_cases h959 : i = 959
    · exact huse _ _ _ (by omega) (by omega) pteW_lt (kernelMap_stack m (k := 0) (by omega))
    · exact huse _ _ _ (by omega) (by omega) pteW_lt
        (kernelMap_base m (k := (i - 960) * 1024) (by omega))

theorem has_tableEntry {f : Word} (hf : f.toNat < 4096) (hh : Has (pteP ||| pteU ||| pteW) f) :
    Has (tableEntry q) f := by
  rw [tableEntry, BitVec.or_assoc, BitVec.or_assoc, has_entry hf, ← BitVec.or_assoc]
  exact hh

/-- The last loop of check_kern_pgdir, at one entry. -/
theorem checkEntry_ok (h : KernelDir m s fl (kernelMap m)) (hfit : HeapFits m) (hi : i < 1024) :
    (if i = pdx uvpt ∨ i = pdx (kstacktop - 1#32) ∨ i = pdx upages ∨ i = pdx uenvs then
      assert "pgdir[i] & PTE_P" (Has (s.mem s.kernPgdir i) pteP)
    else if i ≥ pdx kernbase then do
      assert "pgdir[i] & PTE_P" (Has (s.mem s.kernPgdir i) pteP)
      assert "pgdir[i] & PTE_W" (Has (s.mem s.kernPgdir i) pteW)
    else
      assert "pgdir[i] == 0" (s.mem s.kernPgdir i = 0#32)) s = .ok () s := by
  have hst : pdx (kstacktop - 1#32) = 959 := by decide
  have hue : pdx uenvs = 955 := by decide
  rw [pdx_uvpt, hst, pdx_upages, hue, pdx_kernbase]
  have htab : i ∈ kernEntries → ∃ t, s.mem s.kernPgdir i = tableEntry t :=
    h.present_of_kernEntries hfit
  by_cases h957 : i = 957
  · subst h957
    have hself : s.mem s.kernPgdir 957 = selfEntry s.kernPgdir := h.self
    rw [if_pos (Or.inl rfl), hself]
    apply assert_ok
    rw [selfEntry, BitVec.or_assoc, has_entry (by decide)]
    decide
  · by_cases hlow : i = 959 ∨ i = 956 ∨ i = 955
    · obtain ⟨t, ht⟩ := htab (by rw [mem_kernEntries]; omega)
      rw [if_pos (Or.inr hlow), ht]
      exact assert_ok (has_tableEntry (by decide) (by decide)) s
    · rw [if_neg (by omega)]
      by_cases hge : i ≥ 960
      · obtain ⟨t, ht⟩ := htab (by rw [mem_kernEntries]; omega)
        rw [if_pos hge, ht, bind_ok (assert_ok (has_tableEntry (by decide) (by decide)) s)]
        exact assert_ok (has_tableEntry (by decide) (by decide)) s
      · have h0 : s.mem s.kernPgdir i = 0#32 := by
          rcases h.pdes i (mem_kernOwn.mpr ⟨hi, h957⟩) with h0 | ⟨hm, -⟩
          · exact h0
          · rw [mem_kernEntries] at hm
            omega
        rw [if_neg hge]
        exact assert_ok h0 s

/-- The finished map passes check_kern_pgdir. -/
theorem checkKernPgdir_ok (h : KernelDir m s fl (kernelMap m)) (hb : BootHeap m s) :
    checkKernPgdir m s = .ok () s := by
  have hdet := detectedPages_le m
  have hpp := pagesPages_le m
  have hep := envsPages_eq
  have hst := stackPage_lt m
  have hfit := hb.fits
  unfold HeapFits heapEnd at hfit
  have hupages : upages = page2pa (956 * 1024) := by decide
  have huenvs : uenvs = page2pa (955 * 1024) := by decide
  have hstack : kstacktop - kstksize = page2pa (960 * 1024 - 8) := by decide
  have hguard : kstacktop - ptsize = page2pa (959 * 1024) := by decide
  have hbase : kernbase = page2pa (960 * 1024) := by decide
  have hzero : (0#32 : Word) = page2pa 0 := by decide
  have hps : (roundUp (pagesSize s) pgsize / pgsize).toNat = pagesPages m := by
    rw [pages_of_size, pagesSize, hb.npages, pagesPages]
    rw [pagesSize, hb.npages, sizeofPageInfo, BitVec.toNat_mul]
    simp only [BitVec.toNat_ofNat]
    omega
  have hes : (roundUp envsSize pgsize / pgsize).toNat = envsPages :=
    pages_of_size (by decide)
  have hks : (kstksize / pgsize).toNat = 8 := by decide
  have hown : ∀ x, x < 2 ^ 20 → ¬ (957 * 1024 ≤ x ∧ x < 958 * 1024) → x / 1024 ∈ kernOwn := by
    intro x hx hn
    rw [mem_kernOwn]
    omega
  rw [checkKernPgdir, bind_ok (read_apply s), hb.pagesVa, hb.envsVa, hps, hes, hks]
  rw [bind_ok (paddr_heapVa (by omega)), hupages]
  rw [bind_ok (h.assertMapped_ok (by omega) (by omega) (fun k hk => hown _ (by omega) (by omega))
    pteU_lt fun k hk => kernelMap_pages m hk)]
  rw [bind_ok (paddr_heapVa (by omega)), huenvs]
  rw [bind_ok (h.assertMapped_ok (by omega) (by omega) (fun k hk => hown _ (by omega) (by omega))
    pteU_lt fun k hk => kernelMap_envs m hk)]
  rw [hbase, hzero, hb.npages]
  rw [bind_ok (h.assertMapped_ok (n := detectedPages m) (by omega) (by omega)
    (fun k hk => hown _ (by omega) (by omega)) pteW_lt
    fun k hk => by rw [Nat.zero_add]; exact kernelMap_base m (by omega))]
  rw [bind_ok (paddr_bootstack m), hstack]
  rw [bind_ok (h.assertMapped_ok (by omega) (by omega) (fun k hk => hown _ (by omega) (by omega))
    pteW_lt fun k hk => kernelMap_stack m hk)]
  rw [hguard, bind_ok (assertVa2pa_ok (h.checkVa2pa_absent (by omega) (hown _ (by omega) (by omega))
    (kernelMap_guard m (by omega) (by omega))))]
  apply forRange_ok
  intro i hi
  rw [bind_ok (read_apply s)]
  exact h.checkEntry_ok hb.fits hi

end KernelDir
end checkKernPgdir
section memInit

variable {m : Machine} {mem : Nat → Nat → Word} {s₀ s t : Kernel} {fl fl' : List Nat} {M : Nat → Word}

/-- kern_pgdir's tables are in use, so a self-test does not touch them. -/
theorem KernelDir.shuffled (h : KernelDir m s fl M)
    (hs : Shuffled s t (bootLedger m kernOwn) fl fl') : KernelDir m t fl' M := by
  have hk : t.kernPgdir = s.kernPgdir := hs.paging.kernPgdir
  have hmemK : t.mem s.kernPgdir = s.mem s.kernPgdir := by
    apply hs.mem
    intro hm
    exact (h.balanced.unreferenced (h.balanced.free_lt hm) (h.balanced.free_ref hm)).2.1 h.dirs
  have hpde : ∀ i, t.pde s.kernPgdir i = s.pde s.kernPgdir i := fun i => congrFun hmemK i
  refine ⟨hs.balanced, hk.trans h.kernPgdir, ?_, ?_, ?_⟩
  · intro i hi j hj
    rw [hk, ← h.maps i hi j hj]
    apply Kernel.pte_congr (hpde i)
    intro q hq
    rw [hs.mem q (h.balanced.referenced_table h.dirs hi hq).2.1]
  · rw [hk, hpde, h.self]
  · intro i hi
    rw [hk, hpde]
    exact h.pdes i hi

/-- kern_pgdir as page_init finds it: empty but for its own entry. -/
theorem kernelDir_start (hfit : HeapFits m) :
    KernelDir m (afterPageInit m mem) (freePages (page2pa (heapEnd m)) (detectedPages m))
      fun _ => 0#32 := by
  have hk : (afterPageInit m mem).kernPgdir = heapBase m := kernPgdir_afterPageInit
  have hpde : ∀ i ∈ kernOwn, (afterPageInit m mem).pde (heapBase m) i = 0#32 := by
    intro i hi
    rw [mem_kernOwn] at hi
    exact pde_boot rfl hi.1 hi.2
  refine ⟨balanced_boot hfit ?_ ?_, hk, ?_, ?_, ?_⟩
  · intro i hi
    rw [mem_kernOwn]
    omega
  · intro i hi
    exact mem_kernOwn.mp hi
  · intro i hi j _
    rw [hk, Kernel.pte_of_no_table (by rw [hpde i hi, target_zero])]
  · rw [hk, Kernel.pde, mem_afterPageInit 957 (by decide), if_pos rfl]
  · intro i hi
    rw [hk]
    exact Or.inl (hpde i hi)

theorem missing_start (hz : ∀ i ∈ kernOwn, s.pde s.kernPgdir i = 0#32) :
    missing s = 67 := by
  rw [← card_kernEntries, missing, Finset.filter_true_of_mem]
  intro i hi
  rw [hz i (kernOwn_of_kernEntries hi), target_zero]

/-- Enough free pages on both sides of the I/O hole for mem_init's tables and its self-tests. -/
def Roomy (m : Machine) : Prop :=
  HeapFits m ∧ 67 < (freePages (page2pa (heapEnd m)) (detectedPages m)).countP (LowPage ·) ∧
    67 < (freePages (page2pa (heapEnd m)) (detectedPages m)).countP (¬ LowPage ·)

/-- The last self-test is what the event log ends with. -/
def EndsInstalled (s : Kernel) : Prop :=
  ∃ p events, Trio s p ∧ s.log = events ++ installedEvents p s.kernPgdir

theorem KernelDir.user_empty (h : KernelDir m s fl M) {i : Nat} (hi : i < 955) :
    s.mem s.kernPgdir i = 0#32 := by
  rcases h.pdes i (mem_kernOwn.mpr (by omega)) with h0 | ⟨hm, -⟩
  · exact h0
  · rw [mem_kernEntries] at hm
    omega

theorem KernelDir.loadCr3 (h : KernelDir m s fl M) (d : Nat) : KernelDir m (s.loadCr3 d) fl M :=
  ⟨h.balanced.of_eq rfl rfl rfl rfl, h.kernPgdir, h.maps, h.self, h.pdes⟩

theorem BootHeap.loadCr3 (h : BootHeap m s) (d : Nat) : BootHeap m (s.loadCr3 d) :=
  ⟨h.fits, h.npages, h.nextfree, h.pagesVa, h.envsVa⟩

/-- After page_init: the free list is a reordered remainder of page_init's. -/
structure Booting (m : Machine) (s₀ s : Kernel) (fl : List Nat) (M : Nat → Word) : Prop where
  heap : BootHeap m s
  dir : KernelDir m s fl M
  free : ∃ taken, (taken ++ fl).Perm (freePages (page2pa (heapEnd m)) (detectedPages m)) ∧
    taken.length + missing s = 67
  rest : Kernel.Paging s₀ s

namespace Booting

theorem shuffled (h : Booting m s₀ s fl M) (hs : Shuffled s t (bootLedger m kernOwn) fl fl') :
    Booting m s₀ t fl' M := by
  obtain ⟨taken, hperm, hlen⟩ := h.free
  refine ⟨h.heap.paging hs.paging, h.dir.shuffled hs, ⟨taken, ?_, ?_⟩, h.rest.trans hs.paging⟩
  · exact (hs.perm.append_left taken).trans hperm
  · have hk : t.kernPgdir = s.kernPgdir := hs.paging.kernPgdir
    rw [← hlen, missing_congr hk]
    intro i
    have hmemK : t.mem s.kernPgdir = s.mem s.kernPgdir := by
      apply hs.mem
      intro hm
      have hb := h.dir.balanced
      exact (hb.unreferenced (hb.free_lt hm) (hb.free_ref hm)).2.1 h.dir.dirs
    exact congrFun hmemK i

theorem count (h : Booting m s₀ s fl M) (p : Nat → Bool)
    (hp : 67 < (freePages (page2pa (heapEnd m)) (detectedPages m)).countP p) :
    ∃ q ∈ fl, p q = true := by
  obtain ⟨taken, hperm, hlen⟩ := h.free
  rw [← hperm.countP_eq p, List.countP_append] at hp
  have hle := List.countP_le_length (p := p) (l := taken)
  exact List.countP_pos_iff.mp (by omega)

theorem length (h : Booting m s₀ s fl M) (hr : Roomy m) : missing s + 69 ≤ fl.length := by
  obtain ⟨taken, hperm, hlen⟩ := h.free
  have hle : (freePages (page2pa (heapEnd m)) (detectedPages m)).countP (LowPage ·) +
      (freePages (page2pa (heapEnd m)) (detectedPages m)).countP (¬ LowPage ·) =
        (freePages (page2pa (heapEnd m)) (detectedPages m)).length := by
    have hsum := List.length_eq_countP_add_countP (fun q => decide (LowPage q))
      (l := freePages (page2pa (heapEnd m)) (detectedPages m))
    simpa using hsum.symm
  have hlen' := hperm.length_eq
  rw [List.length_append] at hlen'
  obtain ⟨-, h1, h2⟩ := hr
  omega

theorem start (hfit : HeapFits m) : Booting m (afterPageInit m mem) (afterPageInit m mem)
    (freePages (page2pa (heapEnd m)) (detectedPages m)) fun _ => 0#32 := by
  have hk : (afterPageInit m mem).kernPgdir = heapBase m := kernPgdir_afterPageInit
  refine ⟨BootHeap.start hfit, kernelDir_start hfit, ⟨[], List.Perm.refl _, ?_⟩,
    Kernel.Paging.refl _⟩
  rw [List.length_nil, Nat.zero_add]
  apply missing_start
  intro i hi
  rw [mem_kernOwn] at hi
  exact pde_boot hk hi.1 hi.2

/-- A self-test that returns, at least when there is room, and only shuffles the free list. -/
theorem test (h : Booting m s₀ s fl M) {x : Kern Unit}
    (he : Ensures x s fun _ t => ∃ fl', Shuffled s t (bootLedger m kernOwn) fl fl')
    (hr : Roomy m → Returns x s fun _ t => ∃ fl', Shuffled s t (bootLedger m kernOwn) fl fl') :
    ReturnsUnless (¬ Roomy m) x s fun _ t => ∃ fl', Booting m s₀ t fl' M := by
  have hrun := ReturnsUnless.of_ensures he fun hn => hr (not_not.mp hn)
  apply hrun.mono id
  rintro ⟨⟩ t ⟨fl', hs⟩
  exact ⟨fl', h.shuffled hs⟩

theorem checkPageFreeList (h : Booting m s₀ s fl M) (onlyLow : Bool) :
    ReturnsUnless (¬ Roomy m) (checkPageFreeList m onlyLow) s fun _ t =>
      ∃ fl', Booting m s₀ t fl' M := by
  refine h.test (checkPageFreeList_ensures h.dir.balanced h.heap onlyLow) fun hr => ?_
  obtain ⟨p, hp, hpl⟩ := h.count _ hr.2.1
  obtain ⟨q, hq, hql⟩ := h.count _ hr.2.2
  exact checkPageFreeList_returns h.dir.balanced h.heap onlyLow ⟨p, hp, of_decide_eq_true hpl⟩
    ⟨q, hq, of_decide_eq_true hql⟩

theorem checkPageAlloc (h : Booting m s₀ s fl M) :
    ReturnsUnless (¬ Roomy m) checkPageAlloc s fun _ t => ∃ fl', Booting m s₀ t fl' M := by
  refine h.test (checkPageAlloc_ensures h.dir.balanced h.dir.dirs) fun hr => ?_
  have hlen := h.length hr
  have hva : s.pagesVa ≠ 0 := by
    have hfit := h.heap.fits
    have hdet := detectedPages_le m
    unfold HeapFits heapEnd at hfit
    rw [h.heap.pagesVa]
    exact heapVa_ne_zero (by omega)
  exact checkPageAlloc_returns h.dir.balanced h.dir.dirs hva (by omega)

theorem checkPage (h : Booting m s₀ s fl M) :
    ReturnsUnless (¬ Roomy m) checkPage s fun _ t => ∃ fl', Booting m s₀ t fl' M := by
  have hd0 := h.dir.user_empty (i := 0) (by decide)
  have hd1 := h.dir.user_empty (i := 1) (by decide)
  refine h.test (checkPage_ensures h.dir.balanced h.dir.dirs hd0 hd1) fun hr => ?_
  have hlen := h.length hr
  exact checkPage_returns h.dir.balanced h.dir.dirs hd0 hd1 (by omega)

/-- The last self-test keeps the books too, and the event log ends with it. -/
theorem checkPageInstalledPgdir (h : Booting m s₀ s fl M) (hc : s.cr3 = s.kernPgdir) :
    ReturnsUnless (¬ Roomy m) checkPageInstalledPgdir s fun _ t =>
      ∃ fl', Booting m s₀ t fl' M ∧ EndsInstalled t := by
  have hd0 := h.dir.user_empty (i := 0) (by decide)
  have hrun := ReturnsUnless.of_ensures (C := ¬ Roomy m)
    (checkPageInstalledPgdir_ensures h.dir.balanced h.dir.dirs hd0 hc) fun hn =>
      checkPageInstalledPgdir_returns h.dir.balanced h.dir.dirs hd0 hc (by
        have hlen := h.length (not_not.mp hn)
        omega)
  apply hrun.mono id
  rintro ⟨⟩ t ⟨⟨fl', hs⟩, p, rest, events, rfl, hlog⟩
  refine ⟨fl', h.shuffled hs, p, s.log ++ events, ?_, ?_⟩
  · obtain ⟨htrio, -⟩ := h.dir.balanced.trio h.dir.dirs
    have hk : t.kernPgdir = s.kernPgdir := hs.paging.kernPgdir
    have hn := hs.paging.npages
    exact ⟨htrio.inj, hk ▸ htrio.ne_dir, hn ▸ htrio.lt, hn ▸ htrio.npages_le⟩
  · rw [hlog, show t.kernPgdir = s.kernPgdir from hs.paging.kernPgdir]

theorem mapKernel (h : Booting m s₀ s fl fun _ => 0#32) :
    ReturnsUnless (¬ Roomy m) (mapKernel m) s fun _ t =>
      ∃ fl', Booting m s₀ t fl' (kernelMap m) := by
  apply (mapKernel_spec h.dir h.heap).mono
  · intro hs hr
    have hlen := h.length hr
    unfold Short at hs
    omega
  · rintro ⟨⟩ t ⟨fl', hd, ⟨tables, rfl, hlen'⟩, hpag⟩
    obtain ⟨taken, hperm, hlen⟩ := h.free
    refine ⟨fl', h.heap.paging hpag, hd, ⟨taken ++ tables, by simpa using hperm, ?_⟩,
      h.rest.trans hpag⟩
    rw [List.length_append]
    omega

theorem loadCr3 (h : Booting m s₀ s fl M) (d : Nat) : Booting m (s₀.loadCr3 d) (s.loadCr3 d) fl M := by
  refine ⟨h.heap.loadCr3 d, h.dir.loadCr3 d, h.free, ?_⟩
  have hrest := h.rest
  unfold Kernel.Paging at hrest ⊢
  rw [hrest]
  rfl

end Booting

/-- Every run of mem_init that returns leaves the kernel's map in kern_pgdir, loaded, and the
allocator in order; with enough memory it does return. -/
theorem memInit_spec : ReturnsUnless (¬ Roomy m) (memInit m) (bss mem) fun _ s =>
    ∃ fl, Booting m ((afterPageInit m mem).loadCr3 (heapBase m)) s fl (kernelMap m) ∧
      EndsInstalled s := by
  have hearly : ReturnsUnless (¬ Roomy m) (memInitEarly m) (bss mem) fun _ s =>
      HeapFits m ∧ s = afterPageInit m mem := by
    by_cases hfit : HeapFits m
    · exact Or.inl ⟨(), _, memInitEarly_eq_ok.mpr ⟨hfit, rfl⟩, hfit, rfl⟩
    · exact Or.inr ⟨fun hr => hfit hr.1, fun _ s hs => hfit (memInitEarly_eq_ok.mp hs).1⟩
  rw [memInit]
  refine ReturnsUnless.bind hearly ?_
  rintro ⟨⟩ s ⟨hfit, rfl⟩
  refine ReturnsUnless.bind ((Booting.start hfit).checkPageFreeList true) ?_
  rintro ⟨⟩ s₁ ⟨fl₁, h₁⟩
  refine ReturnsUnless.bind h₁.checkPageAlloc ?_
  rintro ⟨⟩ s₂ ⟨fl₂, h₂⟩
  refine ReturnsUnless.bind h₂.checkPage ?_
  rintro ⟨⟩ s₃ ⟨fl₃, h₃⟩
  refine ReturnsUnless.bind h₃.mapKernel ?_
  rintro ⟨⟩ s₄ ⟨fl₄, h₄⟩
  refine ReturnsUnless.step (h₄.dir.checkKernPgdir_ok h₄.heap) ?_
  refine ReturnsUnless.step (read_apply s₄) ?_
  refine ReturnsUnless.step (update_apply _ _) ?_
  rw [h₄.dir.kernPgdir]
  refine ReturnsUnless.bind ((h₄.loadCr3 _).checkPageFreeList false) ?_
  rintro ⟨⟩ s₅ ⟨fl₅, h₅⟩
  apply h₅.checkPageInstalledPgdir
  have hrest := h₅.rest
  rw [h₅.dir.kernPgdir, hrest]
  rfl

end memInit
section small

variable {m : Machine} {n a : Nat}

/-- A range of free pages with a property is counted. -/
theorem le_countP_freePages (p : Nat → Bool)
    (h : ∀ q, a ≤ q → q < a + n → q < detectedPages m ∧ ¬ Reserved m q ∧ p q = true) :
    n ≤ (freePages (page2pa (heapEnd m)) (detectedPages m)).countP p := by
  have hsub : List.range' a n ⊆ (freePages (page2pa (heapEnd m)) (detectedPages m)).filter p := by
    intro q hq
    rw [List.mem_range'_1] at hq
    obtain ⟨h1, h2, h3⟩ := h q hq.1 hq.2
    exact List.mem_filter.mpr ⟨mem_freePages.mpr ⟨h1, h2⟩, h3⟩
  have hle := (List.nodup_range' (s := a) (n := n)).subperm hsub |>.length_le
  rwa [List.length_range', ← List.countP_eq_length_filter] at hle

theorem detectedPages_smallMachine : detectedPages smallMachine = 1280 := by decide

theorem heapEnd_smallMachine : heapEnd smallMachine = 307 := by
  unfold heapEnd pagesPages envsPages chunkPages
  decide

theorem roomy_smallMachine : Roomy smallMachine := by
  have hfit := heapFits_smallMachine
  have hext : extphysmem.toNat = 1048576 := rfl
  have hio : iophysmem.toNat = 655360 := rfl
  have hend : (page2pa 307).toNat = 307 * 4096 := toNat_page2pa (by decide)
  refine ⟨hfit, ?_, ?_⟩
  · refine lt_of_lt_of_le (b := 159) (by decide) (le_countP_freePages (a := 1) _ ?_)
    intro q hq hlt
    have hpa := toNat_page2pa (p := q) (by omega)
    rw [detectedPages_smallMachine, Reserved, heapEnd_smallMachine, InUse, decide_eq_true_eq, LowPage]
    simp only [BitVec.le_def, BitVec.lt_def, hpa, hext, hio, hend]
    omega
  · refine lt_of_lt_of_le (b := 973) (by decide) (le_countP_freePages (a := 307) _ ?_)
    intro q hq hlt
    have hpa := toNat_page2pa (p := q) (by omega)
    rw [detectedPages_smallMachine, Reserved, heapEnd_smallMachine, InUse, decide_eq_true_eq, LowPage]
    simp only [BitVec.le_def, BitVec.lt_def, hpa, hext, hio, hend]
    omega

theorem memInit_smallMachine (mem : Nat → Nat → Word) : ∃ s, memInit smallMachine (bss mem) = .ok () s := by
  have hspec : ReturnsUnless (¬ Roomy smallMachine) (memInit smallMachine) (bss mem) _ := memInit_spec
  obtain ⟨_, s, hs, -⟩ := hspec.returns (not_not.mpr roomy_smallMachine)
  exact ⟨s, hs⟩

end small
end Jos
