import Jos.Kern.MemInitSpec
import Jos.Kern.Uvpt

/-! The kernel's address space: what kern_pgdir translates once mem_init has returned. -/
namespace Jos

open Prog

/-- `va` translates to the physical address `pa`, with these rights. -/
def Maps (s : Kernel) (pgdir : Nat) (va pa : Word) (user write : Bool) : Prop :=
  ∃ x, hwWalk s.mem pgdir va = some x ∧ page2pa x.page + BitVec.ofNat 32 (pgoff va) = pa ∧
    x.user = user ∧ x.write = write

/-- The page is a page table of kern_pgdir. -/
def IsKernTable (s : Kernel) (p : Nat) : Prop :=
  ∃ i < 1024, i ≠ pdx uvpt ∧ target (s.pde s.kernPgdir i) = some p

/-- The layout of the kernel's part of memory: `s₀` is the state page_init left. -/
structure KernelSpace (m : Machine) (s₀ s : Kernel) : Prop where
  pages : ∀ k < roundUp (pagesSize s) pgsize,
    Maps s s.kernPgdir (upages + k) (s.pagesVa - kernbase + k) true false
  envs : ∀ k < envsSize, Maps s s.kernPgdir (uenvs + k) (s.envsVa - kernbase + k) true false
  stack : ∀ k < kstksize,
    Maps s s.kernPgdir (kstacktop - kstksize + k) (m.bootstack - kernbase + k) false true
  base : ∀ va, kernbase ≤ va → Maps s s.kernPgdir va (va - kernbase) false true
  window : ∀ va, pdx va = pdx uvpt →
    (hwWalk s.mem s.kernPgdir va).map (·.page) = target (s.pde s.kernPgdir (ptx va)) ∧
      ∀ x, hwWalk s.mem s.kernPgdir va = some x → x.write = false
  nothing : ∀ va, va < kernbase → pdx va ≠ pdx uvpt → ¬ (kstacktop - kstksize ≤ va) →
    ¬ (upages ≤ va ∧ va - upages < roundUp (pagesSize s) pgsize) →
    ¬ (uenvs ≤ va ∧ va - uenvs < envsSize) → hwWalk s.mem s.kernPgdir va = none
  ref : ∀ p < s.npages, ∃ n : BitVec 16, (IsKernTable s p → n = 1) ∧ (¬ IsKernTable s p → n = 0) ∧
    (s.pages p).ppRef = (s₀.pages p).ppRef + n

section walk

variable {m : Machine} {s : Kernel} {fl : List Nat} {M : Nat → Word} {q : Nat} {perm va pa : Word}
  {user write : Bool}

theorem KernelDir.walk (h : KernelDir m s fl M) (hva : pdx va ≠ 957) (hq : q < 2 ^ 20)
    (hperm : perm.toNat < 4096) (hM : M (pgnum va) = pageEntry q perm) :
    hwWalk s.mem s.kernPgdir va = some ⟨q, Has (perm ||| pteP) pteU, Has (perm ||| pteP) pteW⟩ := by
  have hx := pgnum_indices va
  have hown : pgnum va / 1024 ∈ kernOwn := by
    rw [hx.1, mem_kernOwn]
    exact ⟨pdx_lt va, hva⟩
  have hpte := h.pte_eq hown
  obtain ⟨t, hpde⟩ := h.present hown hq hperm hM
  rw [hx.1, hx.2, hM] at hpte
  rw [hx.1] at hpde
  have hflag : ∀ f : Word, f.toNat < 4096 → (Has (pageEntry q perm) f ↔ Has (perm ||| pteP) f) := by
    intro f hf
    rw [pageEntry, pteAddr_page2pa hq, BitVec.or_assoc, has_entry hf]
  refine hwWalk_eq_some.mpr ⟨?_, ?_, ?_⟩
  · rw [hpte]
    exact target_pageEntry hq hperm
  · rw [hpde, hpte]
    simp only [has_tableEntry (f := pteU) (by decide) (by decide), true_and, hflag pteU (by decide)]
  · rw [hpde, hpte]
    simp only [has_tableEntry (f := pteW) (by decide) (by decide), true_and, hflag pteW (by decide)]

theorem KernelDir.walk_none (h : KernelDir m s fl M) (hva : pdx va ≠ 957) (hM : M (pgnum va) = 0#32) :
    hwWalk s.mem s.kernPgdir va = none := by
  have hx := pgnum_indices va
  have hown : pgnum va / 1024 ∈ kernOwn := by
    rw [hx.1, mem_kernOwn]
    exact ⟨pdx_lt va, hva⟩
  have hpte := h.pte_eq hown
  rw [hx.1, hx.2, hM] at hpte
  cases hw : hwWalk s.mem s.kernPgdir va with
  | none => rfl
  | some x =>
    have ht := (hwWalk_eq_some.mp hw).1
    rw [hpte, target_zero] at ht
    cases ht

/-- The kernel's map at one address. -/
theorem KernelDir.maps_va {x : Nat} (h : KernelDir m s fl M) (hM : M x = pageEntry q perm)
    (hx : pgnum va = x) (hva : pdx va ≠ 957) (hq : q < 65536) (hperm : perm.toNat < 4096)
    (hpa : pa.toNat = q * 4096 + va.toNat % 4096) (hu : decide (Has (perm ||| pteP) pteU) = user)
    (hw : decide (Has (perm ||| pteP) pteW) = write) : Maps s s.kernPgdir va pa user write := by
  subst hx
  refine ⟨_, h.walk hva (by omega) hperm hM, ?_, hu, hw⟩
  change page2pa q + _ = pa
  apply BitVec.eq_of_toNat_eq
  rw [BitVec.toNat_add, toNat_page2pa (by omega), BitVec.toNat_ofNat, pgoff_eq, hpa]
  omega

end walk

section kernelSpace

variable {m : Machine} {mem : Nat → Nat → Word} {s s₀ : Kernel} {fl : List Nat}

theorem toNat_pagesSize (hb : BootHeap m s) :
    (roundUp (pagesSize s) pgsize).toNat = pagesPages m * 4096 := by
  have hdet := detectedPages_le m
  have hs : (pagesSize s).toNat = 8 * detectedPages m := by
    rw [pagesSize, hb.npages, sizeofPageInfo, BitVec.toNat_mul]
    simp only [BitVec.toNat_ofNat]
    omega
  have hsize : pagesSize s = sizeofPageInfo * BitVec.ofNat 32 (detectedPages m) := by
    rw [pagesSize, hb.npages]
  rw [toNat_roundUp (by omega), pagesPages, ← hsize]
  unfold chunkPages
  rfl

theorem heapVa_sub (k : Nat) : heapVa k - kernbase = page2pa k := by
  rw [heapVa, BitVec.add_comm]
  exact BitVec.add_sub_cancel _ _

/-- Above UTOP and outside its own entry, kern_pgdir names each of its tables once; below, it is
empty. -/
theorem KernelDir.refs_eq (h : KernelDir m s fl M) (p : Nat) :
    (IsKernTable s p → refs s (bootLedger m kernOwn) p = 1) ∧
      (¬ IsKernTable s p → refs s (bootLedger m kernOwn) p = 0) := by
  have hdirs : ∀ d ∈ (bootLedger m kernOwn).dirs, d = s.kernPgdir := by
    intro d hd
    rw [h.kernPgdir]
    exact Finset.mem_singleton.mp hd
  have hnames : ∀ x ∈ (bootLedger m kernOwn).slots, names s x = some p →
      ∃ i ∈ kernOwn, x = .inl ⟨s.kernPgdir, i⟩ ∧ target (s.pde s.kernPgdir i) = some p := by
    rintro (⟨d, i⟩ | ⟨d, i, j⟩) hx hp
    · rw [Ledger.inl_mem_slots] at hx
      obtain rfl := hdirs d hx.1
      exact ⟨i, hx.2, rfl, hp⟩
    · rw [Ledger.inr_mem_slots] at hx
      obtain rfl := hdirs d hx.1
      have hz : s.pde s.kernPgdir i = 0#32 := h.user_empty hx.2.1
      rw [names, Kernel.pte_of_no_table (by rw [hz, target_zero]), target_zero] at hp
      cases hp
  constructor
  · rintro ⟨i, hi, hne, hp⟩
    have hown : i ∈ kernOwn := mem_kernOwn.mpr ⟨hi, hne⟩
    have hx : Sum.inl ⟨s.kernPgdir, i⟩ ∈ (bootLedger m kernOwn).slots :=
      Ledger.inl_mem_slots.mpr ⟨h.dirs, hown⟩
    have hname : names s (.inl ⟨s.kernPgdir, i⟩) = some p := hp
    refine RefCount.refs_eq_one hx hname ?_
    intro y hy hyp
    obtain ⟨i', hi', rfl, hp'⟩ := hnames y hy hyp
    obtain ⟨-, rfl⟩ := h.balanced.table_inj _ h.dirs _ hi' _ h.dirs _ hown p hp' hp
    rfl
  · intro hn
    apply RefCount.refs_eq_zero_iff.mpr
    intro x hx hp
    obtain ⟨i, hi, -, hp'⟩ := hnames x hx hp
    rw [mem_kernOwn] at hi
    exact hn ⟨i, hi.1, hi.2, hp'⟩

/-- The counts of kern_pgdir's map: page_init's, and one for each page table. -/
theorem KernelDir.ppRef_eq (h : KernelDir m s fl M) (hfit : HeapFits m) {p : Nat}
    (hp : p < s.npages) : (s.pages p).ppRef.toNat =
      refs s (bootLedger m kernOwn) p + if Reserved m p then 1 else 0 := by
  have hc := h.balanced.count p hp
  by_cases hb : p = heapBase m
  · rw [hc, Ledger.root_of_mem (hb ▸ bootLedger_dirs), if_pos (hb ▸ reserved_heapBase hfit)]
    simp [bootLedger, hb]
  · have hnot : p ∉ (bootLedger m kernOwn).dirs := fun hm => hb (Finset.mem_singleton.mp hm)
    rw [hc, Ledger.root_of_notMem hnot]
    simp [bootLedger, hb]

theorem KernelDir.selfMapped (h : KernelDir m s fl M) : SelfMapped s s.kernPgdir := by
  have hle := h.balanced.npages_le
  refine ⟨h.balanced.dir_lt _ h.dirs, by omega, h.self, ?_⟩
  intro i hi hne hP
  have hown : i ∈ kernOwn := mem_kernOwn.mpr ⟨hi, hne⟩
  exact (h.balanced.table _ h.dirs i hown _ (target_eq_some.mpr ⟨hP, rfl⟩)).1

theorem kernelSpace_of_booting (hb : Booting m s₀ s fl (kernelMap m)) :
    KernelSpace m (afterPageInit m mem) s := by
  have hdet := detectedPages_le m
  have hpp := pagesPages_le m
  have hep := envsPages_eq
  have hst := stackPage_lt m
  have hfit := hb.heap.fits
  unfold HeapFits heapEnd at hfit
  have hd := hb.dir
  have hrnd := toNat_pagesSize hb.heap
  have hup : upages.toNat = 956 * 2 ^ 22 := by decide
  have hue : uenvs.toNat = 955 * 2 ^ 22 := by decide
  have hes : envsSize.toNat = 98304 := by decide
  have hks : kstksize.toNat = 32768 := by decide
  have hkb : kernbase.toNat = 960 * 2 ^ 22 := by decide
  have hstk : (kstacktop - kstksize).toNat = 960 * 2 ^ 22 - 32768 := by decide
  refine ⟨?pages, ?envs, ?stack, ?base, ?window, ?nothing, ?ref⟩
  case pages =>
    intro k hk
    rw [BitVec.lt_def, hrnd] at hk
    have hva : (upages + k).toNat = 956 * 2 ^ 22 + k.toNat := by
      rw [BitVec.toNat_add, hup]
      omega
    have hM := kernelMap_pages m (k := k.toNat / 4096) (by omega)
    refine hd.maps_va hM ?_ ?_ (by omega) pteU_lt ?_ (by decide) (by decide)
    · rw [pgnum_eq, hva]
      omega
    · rw [pdx_eq, hva]
      omega
    · rw [hb.heap.pagesVa, heapVa_sub, BitVec.toNat_add, toNat_page2pa (by omega), hva]
      omega
  case envs =>
    intro k hk
    rw [BitVec.lt_def, hes] at hk
    have hva : (uenvs + k).toNat = 955 * 2 ^ 22 + k.toNat := by
      rw [BitVec.toNat_add, hue]
      omega
    have hM := kernelMap_envs m (k := k.toNat / 4096) (by omega)
    refine hd.maps_va hM ?_ ?_ (by omega) pteU_lt ?_ (by decide) (by decide)
    · rw [pgnum_eq, hva]
      omega
    · rw [pdx_eq, hva]
      omega
    · rw [hb.heap.envsVa, heapVa_sub, BitVec.toNat_add, toNat_page2pa (by omega), hva]
      omega
  case stack =>
    intro k hk
    rw [BitVec.lt_def, hks] at hk
    have hva : (kstacktop - kstksize + k).toNat = 960 * 2 ^ 22 - 32768 + k.toNat := by
      rw [BitVec.toNat_add, hstk]
      omega
    have hM := kernelMap_stack m (k := k.toNat / 4096) (by omega)
    refine hd.maps_va hM ?_ ?_ (by omega) pteW_lt ?_ (by decide) (by decide)
    · rw [pgnum_eq, hva]
      omega
    · rw [pdx_eq, hva]
      omega
    · rw [bootstack_sub, BitVec.toNat_add, toNat_page2pa (by omega), hva]
      omega
  case base =>
    intro va hva
    have hsub : (va - kernbase).toNat = va.toNat - 960 * 2 ^ 22 := by
      rw [BitVec.toNat_sub_of_le hva, hkb]
    rw [BitVec.le_def, hkb] at hva
    have hlt := va.isLt
    have hM := kernelMap_base m (k := va.toNat / 4096 - 960 * 1024) (by omega)
    refine hd.maps_va hM ?_ ?_ (by omega) pteW_lt ?_ (by decide) (by decide)
    · rw [pgnum_eq]
      omega
    · rw [pdx_eq]
      omega
    · rw [hsub]
      omega
  case window =>
    intro va hva
    have hwalk := hwWalk_window hd.selfMapped.lt hd.selfMapped.self_at hva
    rw [hwalk, Kernel.pde]
    split
    · rename_i hP
      refine ⟨(target_eq_some.mpr ⟨hP, rfl⟩).symm, ?_⟩
      rintro x hx
      cases hx
      rfl
    · rename_i hP
      exact ⟨(target_eq_none.mpr hP).symm, fun x hx => by cases hx⟩
  case nothing =>
    intro va hlt hwin hstack hpages henvs
    rw [pdx_uvpt] at hwin
    apply hd.walk_none hwin
    rw [BitVec.le_def, hstk] at hstack
    rw [BitVec.lt_def, hkb] at hlt
    have hpages' : ¬ (956 * 2 ^ 22 ≤ va.toNat ∧ va.toNat < 956 * 2 ^ 22 + pagesPages m * 4096) := by
      rintro ⟨h1, h2⟩
      have hle : upages ≤ va := by rw [BitVec.le_def, hup]; exact h1
      refine hpages ⟨hle, ?_⟩
      rw [BitVec.lt_def, BitVec.toNat_sub_of_le hle, hup, hrnd]
      omega
    have henvs' : ¬ (955 * 2 ^ 22 ≤ va.toNat ∧ va.toNat < 955 * 2 ^ 22 + 98304) := by
      rintro ⟨h1, h2⟩
      have hle : uenvs ≤ va := by rw [BitVec.le_def, hue]; exact h1
      refine henvs ⟨hle, ?_⟩
      rw [BitVec.lt_def, BitVec.toNat_sub_of_le hle, hue, hes]
      omega
    rw [pgnum_eq, kernelMap, if_neg (by omega), if_neg (by omega), if_neg (by omega),
      if_neg (by omega)]
  case ref =>
    intro p hp
    obtain ⟨htable, hother⟩ := hd.refs_eq p
    have hs := hd.ppRef_eq hb.heap.fits hp
    rw [hb.heap.npages] at hp
    have h₀ : ((afterPageInit m mem).pages p).ppRef = if Reserved m p then 1 else 0 :=
      (afterPageInit_done m mem).ref p hp
    by_cases ht : IsKernTable s p
    · refine ⟨1, fun _ => rfl, fun hn => absurd ht hn, BitVec.eq_of_toNat_eq ?_⟩
      rw [hs, htable ht, h₀]
      by_cases hu : Reserved m p <;> simp [hu]
    · refine ⟨0, fun hn => absurd hn ht, fun _ => rfl, BitVec.eq_of_toNat_eq ?_⟩
      rw [hs, hother ht, h₀]
      by_cases hu : Reserved m p <;> simp [hu]

theorem memInit_booting (h : memInit m (bss mem) = .ok () s) :
    ∃ fl, Booting m ((afterPageInit m mem).loadCr3 (heapBase m)) s fl (kernelMap m) ∧
      EndsInstalled s :=
  memInit_spec.ensures () s h

/-- Whenever mem_init returns, kern_pgdir translates exactly the kernel's part of the address
space; below UTOP and under the kernel stack nothing is mapped. -/
theorem memInit_kernelSpace (h : memInit m (bss mem) = .ok () s) :
    ∃ s₀, memInitEarly m (bss mem) = .ok () s₀ ∧ KernelSpace m s₀ s ∧
      (∀ va < utop, hwWalk s.mem s.kernPgdir va = none) ∧
      ∀ va, kstacktop - ptsize ≤ va → va < kstacktop - kstksize →
        hwWalk s.mem s.kernPgdir va = none := by
  obtain ⟨fl, hb, -⟩ := memInit_booting h
  have hspace : KernelSpace m (afterPageInit m mem) s := kernelSpace_of_booting hb
  have hrnd := toNat_pagesSize hb.heap
  have hpp := pagesPages_le m
  have hup : upages.toNat = 956 * 2 ^ 22 := by decide
  have hue : uenvs.toNat = 955 * 2 ^ 22 := by decide
  have hes : envsSize.toNat = 98304 := by decide
  have hkb : kernbase.toNat = 960 * 2 ^ 22 := by decide
  have hstk : (kstacktop - kstksize).toNat = 960 * 2 ^ 22 - 32768 := by decide
  have hguard : (kstacktop - ptsize).toNat = 959 * 2 ^ 22 := by decide
  refine ⟨_, memInitEarly_eq_ok.mpr ⟨hb.heap.fits, rfl⟩, hspace, ?_, ?_⟩
  · intro va hva
    rw [BitVec.lt_def, toNat_utop] at hva
    apply hspace.nothing va
    · rw [BitVec.lt_def, hkb]
      omega
    · rw [pdx_uvpt, pdx_eq]
      omega
    · rw [BitVec.le_def, hstk]
      omega
    · rw [BitVec.le_def, hup]
      omega
    · rw [BitVec.le_def, hue]
      omega
  · intro va h1 h2
    rw [BitVec.le_def, hguard] at h1
    have h2' := h2
    rw [BitVec.lt_def, hstk] at h2'
    apply hspace.nothing va
    · rw [BitVec.lt_def, hkb]
      omega
    · rw [pdx_uvpt, pdx_eq]
      omega
    · rw [BitVec.le_def, hstk]
      omega
    · rintro ⟨hle, hlt⟩
      rw [BitVec.lt_def, BitVec.toNat_sub_of_le hle, hup, hrnd] at hlt
      omega
    · rintro ⟨hle, hlt⟩
      rw [BitVec.lt_def, BitVec.toNat_sub_of_le hle, hue, hes] at hlt
      omega

/-- mem_init does return on the small machine. -/
theorem memInit_kernelSpace_smallMachine :
    ∃ s s₀, memInit smallMachine (bss fun _ _ => 0#32) = .ok () s ∧
      memInitEarly smallMachine (bss fun _ _ => 0#32) = .ok () s₀ ∧
      KernelSpace smallMachine s₀ s := by
  obtain ⟨s, hs⟩ := memInit_smallMachine fun _ _ => 0#32
  obtain ⟨s₀, h₀, hspace, -⟩ := memInit_kernelSpace hs
  exact ⟨s, s₀, hs, h₀, hspace⟩

end kernelSpace

end Jos
