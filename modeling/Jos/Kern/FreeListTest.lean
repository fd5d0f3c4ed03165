import Jos.Kern.SelfTests
import Jos.Kern.LowPages

/-! What the self-tests leave behind: another order of the free list, and soiled free pages. -/
namespace Jos

open Prog

/-- A self-test may relink the free list and write to the pages on it, nothing else. -/
structure Shuffled (s t : Kernel) (L : Ledger) (fl fl' : List Nat) : Prop where
  balanced : Balanced t L fl'
  perm : fl'.Perm fl
  paging : Kernel.Paging s t
  ref : ∀ q, (t.pages q).ppRef = (s.pages q).ppRef
  mem : ∀ q ∉ fl, t.mem q = s.mem q

section balanced

variable {s t : Kernel} {L : Ledger} {fl fl' : List Nat} {d i p : Nat}

/-- Pages on the free list hold no directory and no table, so writing to them is invisible. -/
theorem Balanced.reorder (h : Balanced s L fl) (hpag : Kernel.Paging s t)
    (hmem : ∀ q ∉ fl, t.mem q = s.mem q) (href : ∀ q, (t.pages q).ppRef = (s.pages q).ppRef)
    (hlink : ∀ q ∉ fl, (t.pages q).ppLink = (s.pages q).ppLink)
    (hc : Chain (fun q => (t.pages q).ppLink) t.pageFreeList fl') (hperm : fl'.Perm fl) :
    Shuffled s t L fl fl' := by
  have hn := hpag.npages
  have hpde : ∀ d ∈ L.dirs, ∀ i, t.pde d i = s.pde d i := by
    intro d hd i
    have hdf : d ∉ fl := by
      intro hm
      exact (h.unreferenced (h.free_lt hm) (h.free_ref hm)).2.1 hd
    rw [Kernel.pde, hmem d hdf, Kernel.pde]
  have hpte : ∀ d ∈ L.dirs, ∀ i ∈ L.own d, ∀ j, t.pte d i j = s.pte d i j := by
    intro d hd i hi j
    apply Kernel.pte_congr (hpde d hd i)
    intro u hu
    rw [hmem u (h.referenced_table hd hi hu).2.1]
  have hnames : ∀ x ∈ L.slots, names t x = names s x := by
    rintro (⟨d, i⟩ | ⟨d, i, j⟩) hx
    · rw [Ledger.inl_mem_slots] at hx
      simp only [names, hpde d hx.1]
    · rw [Ledger.inr_mem_slots] at hx
      simp only [names, hpte d hx.1 i (h.own_user d hx.1 i hx.2.1)]
  refine ⟨?_, hperm, hpag, href, hmem⟩
  refine ⟨hn ▸ h.npages_le, hc, ?_, ?_, ?_, ?_, hn ▸ h.dir_lt, h.own_user, ?_, ?_, ?_⟩
  · intro q
    rw [hperm.mem_iff, h.mem_free, hn, href]
  · intro q hq
    rw [hn, href]
    exact h.loose q hq
  · intro q hq hqf
    rw [hn] at hq
    have hqf' : q ∉ fl := fun hm => hqf (hperm.mem_iff.mpr hm)
    rw [hlink q hqf']
    exact h.link_null q hq hqf'
  · intro q hq
    rw [hn] at hq
    rw [href, Balanced.refs_congr hnames]
    exact h.count q hq
  · intro d hd i hi u hu
    rw [hpde d hd] at hu
    rw [hn]
    exact h.table d hd i hi u hu
  · intro d hd i hi d' hd' i' hi' u hu hu'
    rw [hpde d hd] at hu
    rw [hpde d' hd'] at hu'
    exact h.table_inj d hd i hi d' hd' i' hi' u hu hu'
  · intro d hd i hi j hj q hq
    rw [hpte d hd i (h.own_user d hd i hi)] at hq
    rw [hn]
    exact h.mapped d hd i hi j hj q hq

theorem Shuffled.trans {u : Kernel} {fl'' : List Nat} (h : Shuffled s t L fl fl')
    (h' : Shuffled t u L fl' fl'') : Shuffled s u L fl fl'' where
  balanced := h'.balanced
  perm := h'.perm.trans h.perm
  paging := h.paging.trans h'.paging
  ref := fun q => (h'.ref q).trans (h.ref q)
  mem := by
    intro q hq
    rw [h'.mem q (fun hm => hq (h.perm.mem_iff.mp hm)), h.mem q hq]

/-- The free list is never longer than there are pages. -/
theorem Balanced.length_le (h : Balanced s L fl) : fl.length ≤ s.npages :=
  chain_length_le h.chain fun _ hp => h.free_lt hp

end balanced

section sorting

variable {s : Kernel} {L : Ledger} {fl : List Nat}

theorem lowPagesFirst_returns (h : Balanced s L fl) (limit : Nat) :
    Returns (lowPagesFirst limit) s fun _ t => ∃ fl', Shuffled s t L fl fl' := by
  apply Returns.mono (lowPagesFirst_sorted h.chain (fun p hp => h.free_lt hp) limit)
  rintro ⟨⟩ t ht
  refine ⟨_, h.reorder ?_ (fun q _ => ?_) ht.ref ht.off ht.chain (List.filter_append_perm _ fl)⟩
  · unfold Kernel.Paging
    rw [ht.rest]
  · rw [ht.rest]

end sorting

section tally

variable {m : Machine} {s t : Kernel} {L : Ledger} {own : Finset Nat} {fl : List Nat}

/-- The boot heap is closed: page_init has read its end. -/
structure BootHeap (m : Machine) (s : Kernel) : Prop where
  fits : HeapFits m
  npages : s.npages = detectedPages m
  nextfree : s.nextfree = heapVa (heapEnd m)
  pagesVa : s.pagesVa = heapVa (heapBase m + 1)
  envsVa : s.envsVa = heapVa (heapBase m + 1 + pagesPages m)

theorem BootHeap.paging (h : BootHeap m s) (hpag : Kernel.Paging s t) : BootHeap m t where
  fits := h.fits
  npages := hpag.npages.trans h.npages
  nextfree := (congrArg Kernel.nextfree hpag).trans h.nextfree
  pagesVa := (congrArg Kernel.pagesVa hpag).trans h.pagesVa
  envsVa := (congrArg Kernel.envsVa hpag).trans h.envsVa

theorem BootHeap.start {mem : Nat → Nat → Word} (hfit : HeapFits m) :
    BootHeap m (afterPageInit m mem) := by
  have hrest := (afterPageInit_done m mem).rest
  exact ⟨hfit, npages_afterPageInit, by rw [hrest]; rfl, by rw [hrest]; rfl, by rw [hrest]; rfl⟩

/-- What page_init marked in use never comes to the free list. -/
theorem Balanced.free_not_reserved (h : Balanced s (bootLedger m own) fl) {p : Nat} (hp : p ∈ fl) :
    ¬ Reserved m p := by
  intro hu
  obtain ⟨-, hdir, hheld⟩ := h.unreferenced (h.free_lt hp) (h.free_ref hp)
  have hne : p ≠ heapBase m := fun he => hdir (Finset.mem_singleton.mpr he)
  simp [bootLedger, hu, hne] at hheld

/-- The loop that soils the free pages below the limit. -/
theorem soil_returns (h : Balanced s L fl) (limit : Nat) :
    Returns (soilFreeList limit) s fun _ t => Shuffled s t L fl fl := by
  let I := fun (todo : List Nat) (_ : Unit) (t : Kernel) =>
    t = { s with mem := t.mem, log := t.log } ∧ (∀ q ∉ fl, t.mem q = s.mem q) ∧
      (∀ q ∈ todo, q ∈ fl) ∧ Chain (fun q => (t.pages q).ppLink) todo.head? todo
  rw [soilFreeList, forFreeList]
  refine Returns.step (read_apply s) ?_
  rw [h.head_eq]
  refine Returns.mono (forLink_returns (I := I) ?_ fl _ _ s h.length_le
    ⟨rfl, fun _ _ => rfl, fun _ hq => hq, h.head_eq ▸ h.chain⟩) ?_
  · rintro pp todo ⟨⟩ t ⟨hrest, hmem, hsub, hc⟩
    have hn : t.npages = s.npages := by rw [hrest]
    have hpp : pp ∈ fl := hsub pp (by simp)
    have hlink : (t.pages pp).ppLink = todo.head? := hc.link_eq
    have hnext : I todo () t := ⟨hrest, hmem, fun q hq => hsub q (by simp [hq]), hc.tail⟩
    split
    · have hkva : page2kva pp t = .ok pp t :=
        page2kva_ok (hn ▸ h.free_lt hpp) (hn ▸ h.npages_le)
      refine Returns.step hkva (Returns.of_ok (update_apply _ _) ⟨hlink, ?_, ?_, hnext.2.2⟩)
      · rw [hrest]
        rfl
      · intro q hq
        funext j
        have hne : q ≠ pp := by rintro rfl; exact hq hpp
        rw [Kernel.mem_fill_of_ne hne, hmem q hq]
    · exact Returns.of_ok rfl ⟨hlink, hnext⟩
  · rintro ⟨⟩ t ⟨hrest, hmem, -, -⟩
    have hpages : t.pages = s.pages := by rw [hrest]
    have hfree : t.pageFreeList = s.pageFreeList := by rw [hrest]
    refine h.reorder ?_ hmem ?_ ?_ ?_ (List.Perm.refl _)
    · unfold Kernel.Paging
      rw [hrest]
    · simp [hpages]
    · simp [hpages]
    · rw [hpages, hfree]
      exact h.chain

/-- A free page passes every assertion of the counting loop. -/
theorem free_page_checks (h : Balanced s (bootLedger m own) fl) (hb : BootHeap m s) {pp : Nat}
    (hpp : pp ∈ fl) : page2pa pp ≠ 0 ∧ page2pa pp ≠ iophysmem ∧ page2pa pp ≠ extphysmem - pgsize ∧
      page2pa pp ≠ extphysmem ∧
      (¬ page2pa pp < extphysmem → heapVa (heapEnd m) ≤ kernbase + page2pa pp) := by
  have hfree := h.free_not_reserved hpp
  have hfits := hb.fits
  have hlt := h.free_lt hpp
  have hdet := detectedPages_le m
  rw [hb.npages] at hlt
  unfold HeapFits at hfits
  unfold Reserved InUse at hfree
  have hext : extphysmem.toNat = 1048576 := rfl
  have hio : iophysmem.toNat = 655360 := rfl
  have hpa : (page2pa pp).toNat = pp * 4096 := toNat_page2pa (by omega)
  have hpe : (page2pa (heapEnd m)).toNat = heapEnd m * 4096 := toNat_page2pa (by omega)
  simp only [BitVec.le_def, BitVec.lt_def, hpa, hext, hio, hpe] at hfree ⊢
  have heq : ∀ w : Word, page2pa pp = w → pp * 4096 = w.toNat := by
    rintro w rfl
    exact hpa.symm
  refine ⟨?_, ?_, ?_, ?_, ?_⟩
  · intro he
    have := heq _ he
    simp at this
    omega
  · intro he
    have := heq _ he
    omega
  · intro he
    have := heq _ he
    have hpred : (extphysmem - pgsize).toNat = 1044480 := rfl
    omega
  · intro he
    have := heq _ he
    omega
  · intro hge
    change (heapVa (heapEnd m)).toNat ≤ (heapVa pp).toNat
    rw [toNat_heapVa (by omega), toNat_heapVa (by omega)]
    omega

def LowPage (pp : Nat) : Prop := page2pa pp < extphysmem

instance (pp : Nat) : Decidable (LowPage pp) := inferInstanceAs (Decidable (_ < _))

/-- page_init is over, so boot_alloc(0) only reads the end of the boot heap. -/
theorem BootHeap.bootAlloc_zero (hb : BootHeap m s) :
    bootAlloc m 0#32 s = .ok (heapVa (heapEnd m)) s := by
  have hfits := hb.fits
  have hdet := detectedPages_le m
  have hn := hb.npages
  unfold HeapFits at hfits
  have hzero : chunkPages 0#32 = 0 := by unfold chunkPages; decide
  have hk : (if s.nextfree = 0 then roundUp m.kernEnd pgsize else s.nextfree) =
      heapVa (heapEnd m) := by
    rw [hb.nextfree, if_neg (heapVa_ne_zero (by omega))]
  refine (bootAlloc_eq_ok hk (by omega) (by omega)).mpr ⟨by omega, rfl, ?_⟩
  rw [hzero, Nat.add_zero, ← hb.nextfree]

/-- The counting loop finds every page of the list in order. -/
theorem count_returns (h : Balanced s (bootLedger m own) fl) (hb : BootHeap m s) :
    Returns (countFreePages (heapVa (heapEnd m))) s fun n t =>
      t = s ∧ n = (fl.countP (LowPage ·), fl.countP (¬ LowPage ·)) := by
  let I := fun (todo : List Nat) (n : Nat × Nat) (t : Kernel) => t = s ∧
    n.1 + todo.countP (LowPage ·) = fl.countP (LowPage ·) ∧
    n.2 + todo.countP (¬ LowPage ·) = fl.countP (¬ LowPage ·) ∧
    (∀ q ∈ todo, q ∈ fl) ∧ Chain (fun q => (s.pages q).ppLink) todo.head? todo
  rw [countFreePages, forFreeList]
  refine Returns.step (read_apply s) ?_
  rw [h.head_eq]
  refine Returns.mono (forLink_returns (I := I) ?_ fl _ _ s h.length_le
    ⟨rfl, by simp, by simp, fun _ hq => hq, h.head_eq ▸ h.chain⟩) ?_
  · rintro pp todo n t ⟨rfl, hlow, hhigh, hsub, hc⟩
    have hpp : pp ∈ fl := hsub pp (by simp)
    obtain ⟨h0, h1, h2, h3, h4⟩ := free_page_checks h hb hpp
    have hlink : (t.pages pp).ppLink = todo.head? := hc.link_eq
    have hrest : (∀ q ∈ todo, q ∈ fl) ∧ Chain (fun q => (t.pages q).ppLink) todo.head? todo :=
      ⟨fun q hq => hsub q (by simp [hq]), hc.tail⟩
    refine Returns.step (read_apply t) ?_
    refine Returns.step (assert_ok (h.free_lt hpp) t) ?_
    refine Returns.step (assert_ok h0 t) (Returns.step (assert_ok h1 t) ?_)
    refine Returns.step (assert_ok h2 t) (Returns.step (assert_ok h3 t) ?_)
    by_cases hl : page2pa pp < extphysmem
    · have hl' : LowPage pp := hl
      simp only [List.countP_cons, hl', not_true, decide_true, decide_false, if_true] at hlow hhigh
      rw [if_pos hl]
      refine Returns.of_ok rfl ⟨hlink, rfl, ?_, ?_, hrest⟩
      · change n.1 + 1 + _ = _
        omega
      · simpa using hhigh
    · have hl' : ¬ LowPage pp := hl
      simp only [List.countP_cons, hl', not_false_eq_true, decide_true, decide_false, if_true]
        at hlow hhigh
      rw [if_neg hl]
      refine Returns.step (page2kva_ok (h.free_lt hpp) h.npages_le) ?_
      refine Returns.step (assert_ok (h4 hl) t) (Returns.of_ok rfl ⟨hlink, rfl, ?_, ?_, hrest⟩)
      · simpa using hlow
      · change n.2 + 1 + _ = _
        omega
  · rintro ⟨a, b⟩ t ⟨rfl, hlow, hhigh, -⟩
    exact ⟨rfl, Prod.ext (by simpa using hlow) (by simpa using hhigh)⟩

theorem tally_rest (hb : BootHeap m s) {fl' : List Nat}
    (hs : Shuffled s t (bootLedger m own) fl fl') {limit : Nat} :
    Returns (do
      soilFreeList limit
      let firstFreePage ← bootAlloc m 0#32
      countFreePages firstFreePage) t fun n u =>
      (∃ fl', Shuffled s u (bootLedger m own) fl fl') ∧
        n = (fl.countP (LowPage ·), fl.countP (¬ LowPage ·)) := by
  apply Returns.bind (soil_returns hs.balanced _)
  rintro ⟨⟩ u hu
  have hsu := hs.trans hu
  have hbu := hb.paging hsu.paging
  refine Returns.step hbu.bootAlloc_zero ?_
  apply Returns.mono (count_returns hsu.balanced hbu)
  rintro n v ⟨rfl, rfl⟩
  exact ⟨⟨fl', hsu⟩, Prod.ext (hs.perm.countP_eq _) (hs.perm.countP_eq _)⟩

theorem tallyFreeList_returns (h : Balanced s (bootLedger m own) fl) (hb : BootHeap m s)
    (hne : fl ≠ []) (onlyLow : Bool) :
    Returns (tallyFreeList m onlyLow) s fun n t =>
      (∃ fl', Shuffled s t (bootLedger m own) fl fl') ∧
        n = (fl.countP (LowPage ·), fl.countP (¬ LowPage ·)) := by
  have hhead : s.pageFreeList ≠ none := by
    rw [h.head_eq]
    cases fl with
    | nil => exact absurd rfl hne
    | cons p fl => simp
  rw [tallyFreeList]
  refine Returns.step (read_apply s) ?_
  refine Returns.step (check_true hhead s) ?_
  cases onlyLow with
  | false =>
    exact tally_rest hb ⟨h, List.Perm.refl _, Kernel.Paging.refl s, fun _ => rfl, fun _ _ => rfl⟩
  | true =>
    apply Returns.bind (lowPagesFirst_returns h _)
    rintro ⟨⟩ t ⟨fl', hs⟩
    exact tally_rest hb hs

/-- check_page_free_list is harmless; it insists on free pages on both sides of the I/O hole. -/
theorem checkPageFreeList_ensures (h : Balanced s (bootLedger m own) fl) (hb : BootHeap m s)
    (onlyLow : Bool) :
    Ensures (checkPageFreeList m onlyLow) s fun _ t =>
      ∃ fl', Shuffled s t (bootLedger m own) fl fl' := by
  rintro ⟨⟩ t ht
  cases fl with
  | nil =>
    obtain ⟨n, u, hu, -⟩ := bind_eq_ok.mp ht
    rw [tallyFreeList, bind_ok (read_apply s)] at hu
    obtain ⟨_, v, hv, -⟩ := bind_eq_ok.mp hu
    exact absurd h.head_eq (check_eq_ok.mp hv).1
  | cons p fl =>
    obtain ⟨n, u, hu, hs, -⟩ := tallyFreeList_returns h hb (by simp) onlyLow
    rw [checkPageFreeList, bind_ok hu] at ht
    obtain ⟨_, v, hv, ht⟩ := bind_eq_ok.mp ht
    obtain ⟨-, rfl⟩ := check_eq_ok.mp hv
    obtain ⟨-, rfl⟩ := check_eq_ok.mp ht
    exact hs

theorem checkPageFreeList_returns (h : Balanced s (bootLedger m own) fl) (hb : BootHeap m s)
    (onlyLow : Bool) (hlow : ∃ p ∈ fl, LowPage p) (hhigh : ∃ p ∈ fl, ¬ LowPage p) :
    Returns (checkPageFreeList m onlyLow) s fun _ t =>
      ∃ fl', Shuffled s t (bootLedger m own) fl fl' := by
  have hne : fl ≠ [] := by
    obtain ⟨p, hp, -⟩ := hlow
    exact List.ne_nil_of_mem hp
  obtain ⟨n, u, hu, hs, rfl⟩ := tallyFreeList_returns h hb hne onlyLow
  refine Returns.step hu ?_
  refine Returns.step (assert_ok ?_ u) (Returns.of_ok (assert_ok ?_ u) hs)
  · exact List.countP_pos_iff.mpr (by simpa using hlow)
  · exact List.countP_pos_iff.mpr (by simpa using hhigh)

end tally
section three

variable {s t : Kernel} {L : Ledger} {p : Fin 3 → Nat} {rest fl : List Nat} {b : Bench}

theorem extend_self {α : Type} {g : Nat → α} {v : Fin 3 → α} (hp : Function.Injective p)
    (hv : ∀ i, v i = g (p i)) : Function.extend p v g = g := by
  funext q
  by_cases hq : ∃ i, p i = q
  · obtain ⟨i, rfl⟩ := hq
    rw [hp.extend_apply, hv]
  · exact Function.extend_apply' _ _ _ hq

/-- The first three pages of the free list make a bench. -/
theorem Balanced.trio (h : Balanced s L (p 0 :: p 1 :: p 2 :: rest)) (hk : s.kernPgdir ∈ L.dirs) :
    Trio s p ∧ s = (Bench.start s p rest.head?).at_ s p := by
  have hfree : ∀ i, p i ∈ p 0 :: p 1 :: p 2 :: rest := by
    intro i
    match i with
    | 0 => simp
    | 1 => simp
    | 2 => simp
  have hnd := h.nodup
  simp only [List.nodup_cons, List.mem_cons, not_or] at hnd
  have hinj : Function.Injective p := by
    intro i j hij
    match i, j with
    | 0, 0 => rfl
    | 1, 1 => rfl
    | 2, 2 => rfl
    | 0, 1 => exact absurd hij hnd.1.1
    | 1, 0 => exact absurd hij.symm hnd.1.1
    | 0, 2 => exact absurd hij hnd.1.2.1
    | 2, 0 => exact absurd hij.symm hnd.1.2.1
    | 1, 2 => exact absurd hij hnd.2.1.1
    | 2, 1 => exact absurd hij.symm hnd.2.1.1
  have htrio : Trio s p := by
    refine ⟨hinj, ?_, fun i => h.free_lt (hfree i), h.npages_le⟩
    intro i hi
    exact (h.unreferenced (h.free_lt (hfree i)) (h.free_ref (hfree i))).2.1 (hi ▸ hk)
  obtain ⟨hhead, h1, h2, h3⟩ := h.chain
  have hinfo : ∀ i, (Bench.start s p rest.head?).info i = s.pages (p i) := by
    have hpage : ∀ i o, (s.pages (p i)).ppLink = o → (⟨o, 0⟩ : PageInfo) = s.pages (p i) := by
      rintro i o rfl
      rw [← h.free_ref (hfree i)]
    intro i
    match i with
    | 0 => exact hpage 0 _ h1
    | 1 => exact hpage 1 _ h2
    | 2 =>
      exact hpage 2 _ h3.head_eq
  refine ⟨htrio, Trio.at_eq ?_ ?_ hhead rfl rfl⟩
  · exact (extend_self hinj hinfo).symm
  · refine Eq.symm ?_
    have hdir : Function.update s.mem s.kernPgdir (Bench.start s p rest.head?).dir = s.mem :=
      Function.update_eq_self _ _
    have hmem : Function.extend p (fun i => s.mem (p i)) s.mem = s.mem :=
      extend_self hinj fun _ => rfl
    refine Eq.trans ?_ hmem
    exact congrArg (Function.extend p fun i => s.mem (p i)) hdir

/-- The three pages are back on the list, in some order, and kern_pgdir is as it was. -/
theorem Balanced.bench_shuffled (h : Balanced s L (p 0 :: p 1 :: p 2 :: rest))
    (hk : s.kernPgdir ∈ L.dirs) (hdir : b.dir = s.mem s.kernPgdir) {i j k : Fin 3}
    (hperm : [i, j, k].Perm [0, 1, 2]) (hhead : b.head = some (p i))
    (hi : b.info i = ⟨some (p j), 0⟩) (hj : b.info j = ⟨some (p k), 0⟩)
    (hl : b.info k = ⟨rest.head?, 0⟩) :
    Shuffled s (b.at_ s p) L (p 0 :: p 1 :: p 2 :: rest) (p i :: p j :: p k :: rest) := by
  obtain ⟨htrio, -⟩ := h.trio hk
  have hoff : ∀ q ∉ p 0 :: p 1 :: p 2 :: rest, ¬ ∃ i, p i = q := by
    rintro q hq ⟨i, rfl⟩
    match i with
    | 0 => simp at hq
    | 1 => simp at hq
    | 2 => simp at hq
  have hpages : ∀ q, (¬ ∃ i, p i = q) → (b.at_ s p).pages q = s.pages q :=
    fun q hq => Function.extend_apply' _ _ _ hq
  have hzero : ∀ l, (b.info l).ppRef = 0 := by
    intro l
    have hl' : l ∈ [i, j, k] := hperm.mem_iff.mpr (by
      match l with
      | 0 => simp
      | 1 => simp
      | 2 => simp)
    simp only [List.mem_cons, List.not_mem_nil, or_false] at hl'
    rcases hl' with rfl | rfl | rfl
    · rw [hi]
    · rw [hj]
    · rw [hl]
  have hpermp : (p i :: p j :: p k :: rest).Perm (p 0 :: p 1 :: p 2 :: rest) :=
    (hperm.map p).append_right rest
  refine h.reorder ?paging ?mem ?ref ?link ?chain hpermp
  case paging => rfl
  case mem =>
    intro q hq
    have hext := Function.extend_apply' b.words (Function.update s.mem s.kernPgdir b.dir) q (hoff q hq)
    refine hext.trans ?_
    rw [hdir, Function.update_eq_self]
  case ref =>
    intro q
    by_cases hq : ∃ l, p l = q
    · obtain ⟨l, rfl⟩ := hq
      have hmem : p l ∈ p 0 :: p 1 :: p 2 :: rest := by
        by_contra hn
        exact hoff _ hn ⟨l, rfl⟩
      rw [htrio.pages_at, hzero, h.free_ref hmem]
    · rw [hpages q hq]
  case link =>
    intro q hq
    rw [hpages q (hoff q hq)]
  case chain =>
    have hrest : Chain (fun q => ((b.at_ s p).pages q).ppLink) rest.head? rest := by
      apply h.chain.tail.tail.tail.congr
      intro q hq
      rw [hpages q]
      rintro ⟨l, rfl⟩
      have hnd := hpermp.nodup_iff.mpr h.nodup
      have hdis := (List.nodup_append.mp (show ([p i, p j, p k] ++ rest).Nodup from hnd)).2.2
      have hl' : l ∈ [i, j, k] := hperm.mem_iff.mpr (by
        match l with
        | 0 => simp
        | 1 => simp
        | 2 => simp)
      exact hdis (p l) (List.mem_map_of_mem (f := p) hl') (p l) hq rfl
    have hfree : (b.at_ s p).pageFreeList = some (p i) := hhead
    rw [hfree]
    refine Chain.cons (htrio.link_eq (congrArg _ hi)) ?_
    refine Chain.cons (htrio.link_eq (congrArg _ hj)) ?_
    exact Chain.cons (htrio.link_eq (congrArg _ hl)) hrest

theorem three_of_length (hlen : 3 ≤ fl.length) :
    ∃ (p : Fin 3 → Nat) (rest : List Nat), fl = p 0 :: p 1 :: p 2 :: rest := by
  match fl, hlen with
  | a :: b :: c :: rest, _ => exact ⟨![a, b, c], rest, rfl⟩

theorem allocPage_eq_ok (h : Balanced s L fl) {text : String} {q : Nat} :
    allocPage text s = .ok q t ↔ ∃ fl', fl = q :: fl' ∧ t = s.take q := by
  cases fl with
  | nil =>
    rw [allocPage, bind_ok (pageAlloc_none h.head_eq)]
    constructor
    · exact fun hn => absurd hn stop_ne_ok
    · rintro ⟨fl', hn, -⟩
      cases hn
  | cons r fl =>
    rw [allocPage, bind_ok (pageAlloc_plain h.head_eq (by decide))]
    constructor
    · intro hr
      obtain ⟨rfl, rfl⟩ := pure_eq_ok.mp hr
      exact ⟨fl, rfl, rfl⟩
    · rintro ⟨fl', hr, rfl⟩
      cases hr
      rfl

/-- The self-tests panic unless three pages are free. -/
theorem needs_three (h : Balanced s L fl) {α : Type} {x y z : String}
    {k : Nat → Nat → Nat → Kern α} {a : α} (hrun : (do
      let pp0 ← allocPage x
      let pp1 ← allocPage y
      let pp2 ← allocPage z
      k pp0 pp1 pp2) s = .ok a t) : 3 ≤ fl.length := by
  obtain ⟨p0, s1, h1, hrun⟩ := bind_eq_ok.mp hrun
  obtain ⟨fl1, rfl, rfl⟩ := (allocPage_eq_ok h).mp h1
  obtain ⟨p1, s2, h2, hrun⟩ := bind_eq_ok.mp hrun
  obtain ⟨fl2, rfl, rfl⟩ := (allocPage_eq_ok h.take).mp h2
  obtain ⟨p2, s3, h3, hrun⟩ := bind_eq_ok.mp hrun
  obtain ⟨fl3, rfl, rfl⟩ := (allocPage_eq_ok h.take.take).mp h3
  simp

theorem checkPageAlloc_returns (h : Balanced s L fl) (hk : s.kernPgdir ∈ L.dirs)
    (hva : s.pagesVa ≠ 0) (hlen : 3 ≤ fl.length) :
    Returns checkPageAlloc s fun _ t => ∃ fl', Shuffled s t L fl fl' := by
  obtain ⟨p, rest, rfl⟩ := three_of_length hlen
  obtain ⟨htrio, hs⟩ := h.trio hk
  apply Returns.mono (checkPageAlloc_run htrio hs hva h.chain h.length_le)
  rintro ⟨⟩ t ⟨b, rfl, hhead, hinfo, hdir⟩
  exact ⟨_, h.bench_shuffled hk hdir (i := 0) (j := 1) (k := 2) (List.Perm.refl _) hhead
    (congrFun hinfo 0) (congrFun hinfo 1) (congrFun hinfo 2)⟩

theorem checkPageAlloc_ensures (h : Balanced s L fl) (hk : s.kernPgdir ∈ L.dirs) :
    Ensures checkPageAlloc s fun _ t => ∃ fl', Shuffled s t L fl fl' := by
  rintro ⟨⟩ t ht
  have hrun := ht
  rw [checkPageAlloc, bind_ok (read_apply s)] at hrun
  obtain ⟨_, u, hu, hrun⟩ := bind_eq_ok.mp hrun
  obtain ⟨hva, rfl⟩ := check_eq_ok.mp hu
  rw [bind_ok (countFreeList_ok h.chain h.length_le)] at hrun
  exact (checkPageAlloc_returns h hk hva (needs_three h hrun)).ensures _ t ht

theorem checkPage_returns (h : Balanced s L fl) (hk : s.kernPgdir ∈ L.dirs)
    (hd0 : s.mem s.kernPgdir 0 = 0#32) (hd1 : s.mem s.kernPgdir 1 = 0#32) (hlen : 3 ≤ fl.length) :
    Returns checkPage s fun _ t => ∃ fl', Shuffled s t L fl fl' := by
  obtain ⟨p, rest, rfl⟩ := three_of_length hlen
  obtain ⟨htrio, hs⟩ := h.trio hk
  apply Returns.mono (checkPage_run htrio hs hd0 hd1)
  rintro ⟨⟩ t ⟨b, rfl, hhead, hinfo, hdir⟩
  exact ⟨_, h.bench_shuffled hk hdir (i := 2) (j := 1) (k := 0) (by decide) hhead
    (congrFun hinfo 2) (congrFun hinfo 1) (congrFun hinfo 0)⟩

theorem checkPage_ensures (h : Balanced s L fl) (hk : s.kernPgdir ∈ L.dirs)
    (hd0 : s.mem s.kernPgdir 0 = 0#32) (hd1 : s.mem s.kernPgdir 1 = 0#32) :
    Ensures checkPage s fun _ t => ∃ fl', Shuffled s t L fl fl' := by
  rintro ⟨⟩ t ht
  have hrun := ht
  rw [checkPage, bind_ok (read_apply s)] at hrun
  exact (checkPage_returns h hk hd0 hd1 (needs_three h hrun)).ensures _ t ht

/-- The three pages of the last self-test, and the events it ends with. -/
theorem checkPageInstalledPgdir_returns (h : Balanced s L fl) (hk : s.kernPgdir ∈ L.dirs)
    (hd0 : s.mem s.kernPgdir 0 = 0#32) (hc : s.cr3 = s.kernPgdir) (hlen : 3 ≤ fl.length) :
    Returns checkPageInstalledPgdir s fun _ t => (∃ fl', Shuffled s t L fl fl') ∧
      ∃ p rest events, fl = p 0 :: p 1 :: p 2 :: rest ∧
        t.log = s.log ++ events ++ installedEvents p s.kernPgdir := by
  obtain ⟨p, rest, rfl⟩ := three_of_length hlen
  obtain ⟨htrio, hs⟩ := h.trio hk
  apply Returns.mono (checkPageInstalledPgdir_run htrio hs hd0 hc)
  rintro ⟨⟩ t ⟨b, rfl, hhead, hinfo, hdir, events, hlog⟩
  exact ⟨⟨_, h.bench_shuffled hk hdir (i := 0) (j := 2) (k := 1) (by decide) hhead
    (congrFun hinfo 0) (congrFun hinfo 2) (congrFun hinfo 1)⟩, p, rest, events, rfl, hlog⟩

theorem checkPageInstalledPgdir_ensures (h : Balanced s L fl) (hk : s.kernPgdir ∈ L.dirs)
    (hd0 : s.mem s.kernPgdir 0 = 0#32) (hc : s.cr3 = s.kernPgdir) :
    Ensures checkPageInstalledPgdir s fun _ t => (∃ fl', Shuffled s t L fl fl') ∧
      ∃ p rest events, fl = p 0 :: p 1 :: p 2 :: rest ∧
        t.log = s.log ++ events ++ installedEvents p s.kernPgdir := by
  rintro ⟨⟩ t ht
  have hrun := ht
  rw [checkPageInstalledPgdir, bind_ok (read_apply s)] at hrun
  exact (checkPageInstalledPgdir_returns h hk hd0 hc (needs_three h hrun)).ensures _ t ht

end three
end Jos
