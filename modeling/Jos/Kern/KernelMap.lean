import Jos.Kern.FreeListTest
import Mathlib.Order.Interval.Finset.Nat

/-! boot_map_region and the map it builds in kern_pgdir. -/
namespace Jos

open Prog

/-- The entries of kern_pgdir that own their tables: all but its own. -/
@[irreducible] def kernOwn : Finset Nat := (Finset.range 1024).erase 957

/-- The entries of kern_pgdir that the kernel's map uses. -/
@[irreducible] def kernEntries : Finset Nat := insert 955 (insert 956 (Finset.Ico 959 1024))

section indices

variable {i j x v p k : Nat} {s : Kernel}

theorem mem_kernOwn : i ∈ kernOwn ↔ i < 1024 ∧ i ≠ 957 := by
  simp [kernOwn, and_comm]

theorem mem_kernEntries : i ∈ kernEntries ↔ i < 1024 ∧ (i = 955 ∨ i = 956 ∨ 959 ≤ i) := by
  simp only [kernEntries, Finset.mem_insert, Finset.mem_Ico]
  omega

theorem kernOwn_of_kernEntries (h : i ∈ kernEntries) : i ∈ kernOwn := by
  rw [mem_kernEntries] at h
  rw [mem_kernOwn]
  omega

theorem card_kernEntries : kernEntries.card = 67 := by
  simp [kernEntries]

theorem pdx_page2pa (hx : x < 2 ^ 20) : pdx (page2pa x) = x / 1024 := by
  rw [pdx_eq, toNat_page2pa hx]
  omega

theorem ptx_page2pa (hx : x < 2 ^ 20) : ptx (page2pa x) = x % 1024 := by
  rw [ptx_eq, toNat_page2pa hx]
  omega

theorem page2pa_offset : page2pa v + BitVec.ofNat 32 k * pgsize = page2pa (v + k) := by
  have hp : BitVec.ofNat 32 k * pgsize = page2pa k := (page2pa_eq k).symm
  rw [hp, page2pa_add]

end indices

/-- The map with `n` pages from page `v` on sent to the pages from `p` on. -/
def mapRegion (M : Nat → Word) (v n p : Nat) (perm : Word) : Nat → Word :=
  fun x => if v ≤ x ∧ x < v + n then pageEntry (p + (x - v)) perm else M x

/-- The directory entries among the kernel's that name no table yet. -/
def missing (s : Kernel) : Nat :=
  (kernEntries.filter fun i => target (s.pde s.kernPgdir i) = none).card

/-- kern_pgdir while it is filled: `M` gives the entry of every virtual page outside UVPT. -/
structure KernelDir (m : Machine) (s : Kernel) (fl : List Nat) (M : Nat → Word) : Prop where
  balanced : Balanced s (bootLedger m kernOwn) fl
  kernPgdir : s.kernPgdir = heapBase m
  maps : ∀ i ∈ kernOwn, ∀ j < 1024, s.pte s.kernPgdir i j = M (i * 1024 + j)
  self : s.pde s.kernPgdir 957 = selfEntry s.kernPgdir
  pdes : ∀ i ∈ kernOwn, s.pde s.kernPgdir i = 0#32 ∨
    (i ∈ kernEntries ∧ ∃ t, s.pde s.kernPgdir i = tableEntry t)

section tables

variable {m : Machine} {s s₁ t : Kernel} {L : Ledger} {fl fl₁ : List Nat} {d i j q x : Nat}
  {w : Word} {M : Nat → Word}

theorem bootLedger_dirs : heapBase m ∈ (bootLedger m kernOwn).dirs := Finset.mem_singleton_self _

/-- A store above UTOP moves no reference. -/
theorem Balanced.storeUpper (h : Balanced s L fl) (hd : d ∈ L.dirs) (hi : i ∈ L.own d)
    (hu : 955 ≤ i) (ht : target (s.pde d i) = some q) (j : Nat) (w : Word) :
    Balanced (s.store q j w) L fl := by
  refine h.congr rfl rfl rfl ?_ ?_
  · intro d' hd' i' _
    exact h.pde_storeTable hd hi ht hd'
  · intro d' hd' i' hi' j' _
    rw [h.pte_storeTable hd hi ht hd' (h.own_user d' hd' i' hi'), if_neg]
    rintro ⟨-, rfl, -⟩
    omega

/-- A new page table is seen through its own entry only. -/
theorem pte_withTable_of_ne (h : Balanced s L (q :: fl)) (hd : d ∈ L.dirs) (hi : i ∈ L.own d)
    (hj : j ≠ i) {d' k : Nat} (hd' : d' ∈ L.dirs) (hj' : j ∈ L.own d') :
    (s.withTable d i q).pte d' j k = s.pte d' j k := by
  have hfree := h.unreferenced (h.free_lt (by simp)) (h.free_ref (p := q) (by simp))
  have hne : ∀ d ∈ L.dirs, d ≠ q := by
    rintro d hd rfl
    exact hfree.2.1 hd
  have hmem : ∀ x k, x ≠ q → ¬ (x = d ∧ k = i) → (s.withTable d i q).mem x k = s.mem x k := by
    intro x k hx hk
    rw [Kernel.withTable, Kernel.mem_store, if_neg hk]
    exact Kernel.mem_fill_of_ne hx
  apply Kernel.pte_congr
  · exact hmem d' j (hne d' hd') fun hk => hj hk.2
  · intro x hx
    have hxq : x ≠ q := by
      rintro rfl
      exact Balanced.table_ne_of_refs hfree.1 hd' hj' hx
    apply hmem x k hxq
    rintro ⟨rfl, -⟩
    exact (h.table d' hd' j hj' x hx).2 hd

theorem TableReady.pte (hr : TableReady s fl d i q s₁ fl₁) (h : Balanced s L fl) (hd : d ∈ L.dirs)
    (hi : i ∈ L.own d) {k : Nat} (hj : j ∈ L.own d) (hk : k < 1024) :
    s₁.pte d j k = s.pte d j k := by
  rcases hr with ⟨-, rfl, -⟩ | ⟨hnone, rfl, rfl⟩
  · rfl
  · by_cases he : j = i
    · subst he
      rw [h.pte_withTable hd hk, Kernel.pte_of_no_table hnone]
    · exact pte_withTable_of_ne h hd hi he hd hj

theorem TableReady.pde (hr : TableReady s fl d i q s₁ fl₁) (h : Balanced s L fl) (hd : d ∈ L.dirs)
    (j : Nat) : s₁.pde d j = s.pde d j ∨ (j = i ∧ s₁.pde d j = tableEntry q) := by
  rcases hr with ⟨-, rfl, -⟩ | ⟨hnone, rfl, rfl⟩
  · exact Or.inl rfl
  · have hne : d ≠ q := by
      rintro rfl
      exact (h.unreferenced (h.free_lt (by simp)) (h.free_ref (by simp))).2.1 hd
    by_cases hj : j = i
    · refine Or.inr ⟨hj, ?_⟩
      rw [Kernel.pde, Kernel.withTable, Kernel.mem_store, if_pos ⟨rfl, hj⟩]
      rfl
    · left
      rw [Kernel.pde, Kernel.withTable, Kernel.mem_store, if_neg fun hk => hj hk.2]
      exact Kernel.mem_fill_of_ne hne

end tables

section forRange

variable {C : Prop} {body : Nat → Kern Unit} {I : Nat → Kernel → Prop} {n : Nat} {s : Kernel}

theorem forRange_returnsUnless (h0 : I 0 s)
    (hstep : ∀ k < n, ∀ t, I k t → ReturnsUnless C (body k) t fun _ u => I (k + 1) u) :
    ReturnsUnless C (forRange body n) s fun _ t => I n t := by
  induction n with
  | zero => exact Or.inl ⟨_, _, rfl, h0⟩
  | succ n ih =>
    rw [forRange]
    refine ReturnsUnless.bind (ih fun k hk => hstep k (by omega)) ?_
    rintro ⟨⟩ t ht
    exact hstep n (by omega) t ht

end forRange

section mapPage

variable {m : Machine} {s s₁ t : Kernel} {L : Ledger} {fl fl₁ : List Nat} {d i j q x : Nat}
  {w : Word} {M : Nat → Word}

/-- Pages leave the free list for page tables only, one for each entry that lacked one. -/
def TablesTaken (s t : Kernel) (fl fl' : List Nat) : Prop :=
  ∃ taken, fl = taken ++ fl' ∧ taken.length + missing t = missing s

theorem TablesTaken.refl (s : Kernel) (fl : List Nat) : TablesTaken s s fl fl :=
  ⟨[], rfl, Nat.zero_add _⟩

theorem TablesTaken.trans {u : Kernel} {fl' fl'' : List Nat} (h : TablesTaken s t fl fl')
    (h' : TablesTaken t u fl' fl'') : TablesTaken s u fl fl'' := by
  obtain ⟨a, rfl, ha⟩ := h
  obtain ⟨b, rfl, hb⟩ := h'
  refine ⟨a ++ b, by simp, ?_⟩
  rw [List.length_append]
  omega

theorem missing_congr (hk : t.kernPgdir = s.kernPgdir)
    (hp : ∀ i, t.pde s.kernPgdir i = s.pde s.kernPgdir i) : missing t = missing s := by
  unfold missing
  rw [hk]
  congr 1
  apply Finset.filter_congr
  intro i _
  rw [hp i]

theorem TableReady.tablesTaken (hr : TableReady s fl s.kernPgdir i q s₁ fl₁)
    (h : Balanced s L fl) (hk : s.kernPgdir ∈ L.dirs) (hi : i ∈ kernEntries) (hio : i ∈ L.own s.kernPgdir) :
    TablesTaken s s₁ fl fl₁ := by
  have hready := hr
  rcases hr with ⟨-, rfl, rfl⟩ | ⟨hnone, rfl, rfl⟩
  · exact TablesTaken.refl _ _
  · refine ⟨[q], rfl, ?_⟩
    have hset : (kernEntries.filter fun j => target (s.pde s.kernPgdir j) = none) =
        insert i (kernEntries.filter
          fun j => target ((s.withTable s.kernPgdir i q).pde s.kernPgdir j) = none) := by
      ext j
      simp only [Finset.mem_filter, Finset.mem_insert]
      by_cases hj : j = i
      · simp [hj, hi, hnone]
      · rcases hready.pde h hk j with he | ⟨he, -⟩
        · simp [hj, he]
        · exact absurd he hj
    have hnew : i ∉ kernEntries.filter
        fun j => target ((s.withTable s.kernPgdir i q).pde s.kernPgdir j) = none := by
      simp [h.target_pde_withTable]
    unfold missing
    rw [hset, Finset.card_insert_of_notMem hnew]
    exact Nat.add_comm _ _

/-- boot_map_region's store of one entry, its table made if need be. -/
theorem KernelDir.storeEntry (h : KernelDir m s fl M)
    (hxe : x / 1024 ∈ kernEntries) (hr : TableReady s fl s.kernPgdir (x / 1024) q s₁ fl₁) (w : Word) :
    KernelDir m (s₁.store q (x % 1024) w) fl₁ (Function.update M x w) ∧
      TablesTaken s (s₁.store q (x % 1024) w) fl fl₁ := by
  have hk : s.kernPgdir ∈ (bootLedger m kernOwn).dirs := h.kernPgdir ▸ bootLedger_dirs
  have hown : x / 1024 ∈ kernOwn := kernOwn_of_kernEntries hxe
  have hu : 955 ≤ x / 1024 := by
    rw [mem_kernEntries] at hxe
    omega
  obtain ⟨hb, ht⟩ := hr.balanced h.balanced hk hown
  have hk₁ : s₁.kernPgdir = s.kernPgdir := hr.paging.kernPgdir
  have hpde : ∀ i, (s₁.store q (x % 1024) w).pde s.kernPgdir i = s₁.pde s.kernPgdir i :=
    fun i => hb.pde_storeTable hk hown ht hk
  have hkt : (s₁.store q (x % 1024) w).kernPgdir = s.kernPgdir := hk₁
  refine ⟨⟨hb.storeUpper hk hown hu ht _ _, hkt.trans h.kernPgdir, ?maps, ?self, ?pdes⟩, ?taken⟩
  case maps =>
    intro i hi j hj
    rw [hkt, hb.pte_storeTable hk hown ht hk hi, hr.pte h.balanced hk hown hi hj,
      h.maps i hi j hj]
    have hiff : i * 1024 + j = x ↔ i = x / 1024 ∧ j = x % 1024 := by omega
    by_cases he : i * 1024 + j = x
    · rw [if_pos ⟨rfl, hiff.mp he⟩, he, Function.update_self]
    · rw [if_neg fun hc => he (hiff.mpr hc.2), Function.update_of_ne he]
  case self =>
    rw [hkt, hpde]
    rcases hr.pde h.balanced hk 957 with he | ⟨he, -⟩
    · rw [he, h.self]
    · rw [mem_kernOwn] at hown
      omega
  case pdes =>
    intro i hi
    rw [hkt, hpde]
    rcases hr.pde h.balanced hk i with he | ⟨rfl, he⟩
    · rw [he]
      exact h.pdes i hi
    · exact Or.inr ⟨hxe, q, he⟩
  case taken =>
    have htaken := hr.tablesTaken h.balanced hk hxe hown
    apply htaken.trans
    refine ⟨[], rfl, ?_⟩
    have hsame : missing (s₁.store q (x % 1024) w) = missing s₁ := by
      refine missing_congr ?_ ?_
      · rfl
      · rw [hk₁]
        exact hpde
    rw [hsame]
    exact Nat.zero_add _

/-- What a part of the kernel's map leaves: the map `M'` in kern_pgdir. -/
def MapsTo (m : Machine) (s t : Kernel) (fl : List Nat) (M' : Nat → Word) : Prop :=
  ∃ fl', KernelDir m t fl' M' ∧ TablesTaken s t fl fl' ∧ Kernel.Paging s t

/-- There are fewer free pages than tables to make. -/
def Short (s : Kernel) (fl : List Nat) : Prop := fl.length < missing s

theorem Short.of_taken {fl' : List Nat} (h : Short t fl') (ht : TablesTaken s t fl fl') :
    Short s fl := by
  obtain ⟨taken, rfl, hlen⟩ := ht
  unfold Short at *
  rw [List.length_append]
  omega

/-- A part of the map that goes on where another left off. -/
theorem MapsTo.andThen {x : Kern Unit} {M' M'' : Nat → Word} (h : MapsTo m s t fl M')
    (hx : ∀ fl', KernelDir m t fl' M' →
      ReturnsUnless (Short t fl') x t fun _ u => MapsTo m t u fl' M'') :
    ReturnsUnless (Short s fl) x t fun _ u => MapsTo m s u fl M'' := by
  obtain ⟨fl', hd, htaken, hpag⟩ := h
  apply (hx fl' hd).mono
  · exact fun hs => hs.of_taken htaken
  · rintro ⟨⟩ u ⟨fl'', hd', htaken', hpag'⟩
    exact ⟨fl'', hd', htaken.trans htaken', hpag.trans hpag'⟩

/-- One round maps its page, unless there is no page for the table. -/
theorem KernelDir.mapPage (h : KernelDir m s fl M) (hx : x < 2 ^ 20) (hxe : x / 1024 ∈ kernEntries)
    (p : Nat) (perm : Word) :
    ReturnsUnless (Short s fl) (bootMapPage s.kernPgdir (page2pa x) (page2pa p) perm) s fun _ t =>
      MapsTo m s t fl (Function.update M x (pageEntry p perm)) := by
  have hk : s.kernPgdir ∈ (bootLedger m kernOwn).dirs := h.kernPgdir ▸ bootLedger_dirs
  have hown : pdx (page2pa x) ∈ kernOwn := by
    rw [pdx_page2pa hx]
    exact kernOwn_of_kernEntries hxe
  rcases pgdirWalk_spec h.balanced hk hown with ⟨hnone, rfl, hwalk⟩ | ⟨q, s₁, fl₁, hr, hwalk⟩
  · right
    rw [pdx_page2pa hx] at hnone
    refine ⟨Finset.card_pos.mpr ⟨x / 1024, by simp [hxe, hnone]⟩, fun a t => ?_⟩
    rw [bootMapPage, bind_ok hwalk]
    exact stop_ne_ok
  · left
    rw [pdx_page2pa hx] at hr
    rw [ptx_page2pa hx] at hwalk
    obtain ⟨hdir, htaken⟩ := h.storeEntry hxe hr (pageEntry p perm)
    exact Returns.step hwalk (Returns.of_ok (update_apply _ _)
      ⟨fl₁, hdir, htaken, hr.paging.trans Kernel.Paging.store⟩)

theorem mapRegion_zero (M : Nat → Word) (v p : Nat) (perm : Word) : mapRegion M v 0 p perm = M := by
  funext x
  rw [mapRegion, if_neg (by omega)]

theorem mapRegion_succ (M : Nat → Word) (v n p : Nat) (perm : Word) :
    mapRegion M v (n + 1) p perm =
      Function.update (mapRegion M v n p perm) (v + n) (pageEntry (p + n) perm) := by
  funext x
  by_cases hx : x = v + n
  · subst hx
    rw [Function.update_self, mapRegion, if_pos (by omega), Nat.add_sub_cancel_left]
  · rw [Function.update_of_ne hx, mapRegion, mapRegion]
    have hiff : (v ≤ x ∧ x < v + (n + 1)) ↔ (v ≤ x ∧ x < v + n) := by omega
    simp only [hiff]

section region

variable {v n p : Nat} {size perm : Word}

/-- boot_map_region of `n` pages, as its loop runs. -/
theorem bootMapRegion_rounds (hn : (size / pgsize).toNat = n) :
    bootMapRegion d (page2pa v) size (page2pa p) perm =
      forRange (fun k => bootMapPage d (page2pa (v + k)) (page2pa (p + k)) perm) n := by
  subst hn
  unfold bootMapRegion
  simp only [page2pa_offset]

theorem bootMapRegion_spec (h : KernelDir m s fl M) (hv : v + n ≤ 2 ^ 20)
    (hrange : ∀ x, v ≤ x → x < v + n → x / 1024 ∈ kernEntries)
    (hn : (size / pgsize).toNat = n) :
    ReturnsUnless (Short s fl) (bootMapRegion s.kernPgdir (page2pa v) size (page2pa p) perm) s
      fun _ t => MapsTo m s t fl (mapRegion M v n p perm) := by
  rw [bootMapRegion_rounds hn]
  refine forRange_returnsUnless (I := fun k t => MapsTo m s t fl (mapRegion M v k p perm)) ?_ ?_
  · rw [mapRegion_zero]
    exact ⟨fl, h, TablesTaken.refl s fl, Kernel.Paging.refl s⟩
  · intro k hk t ht
    rw [mapRegion_succ]
    apply ht.andThen
    intro fl' hd
    obtain ⟨-, -, -, hpag⟩ := ht
    rw [← hpag.kernPgdir]
    exact hd.mapPage (by omega) (hrange _ (by omega) (by omega)) (p + k) perm

end region

end mapPage

section mapKernel

variable {m : Machine} {s t : Kernel} {fl : List Nat} {w : Word}

/-- The physical page under the bottom of the kernel stack. -/
def stackPage (m : Machine) : Nat := pgnum (m.bootstack - kernbase)

/-- The kernel's map, entry by entry: which page each virtual page goes to, with which rights. -/
def kernelMap (m : Machine) (x : Nat) : Word :=
  if 955 * 1024 ≤ x ∧ x < 955 * 1024 + envsPages then
    pageEntry (heapBase m + 1 + pagesPages m + (x - 955 * 1024)) pteU
  else if 956 * 1024 ≤ x ∧ x < 956 * 1024 + pagesPages m then
    pageEntry (heapBase m + 1 + (x - 956 * 1024)) pteU
  else if 960 * 1024 - 8 ≤ x ∧ x < 960 * 1024 then
    pageEntry (stackPage m + (x - (960 * 1024 - 8))) pteW
  else if 960 * 1024 ≤ x ∧ x < 2 ^ 20 then
    pageEntry (x - 960 * 1024) pteW
  else 0#32

/-- The six regions, laid over each other, are the kernel's map. -/
theorem regions_eq_kernelMap (hfit : HeapFits m) :
    mapRegion (mapRegion (mapRegion (mapRegion (mapRegion (mapRegion (fun _ => 0#32)
      (956 * 1024) (pagesPages m) (heapBase m + 1) pteU)
      (960 * 1024 + (heapBase m + 1)) (pagesPages m) (heapBase m + 1) pteW)
      (955 * 1024) envsPages (heapBase m + 1 + pagesPages m) pteU)
      (960 * 1024 + (heapBase m + 1 + pagesPages m)) envsPages (heapBase m + 1 + pagesPages m) pteW)
      (960 * 1024 - 8) 8 (stackPage m) pteW)
      (960 * 1024) 65536 0 pteW = kernelMap m := by
  have hdet := detectedPages_le m
  have hpp := pagesPages_le m
  have hep := envsPages_eq
  unfold HeapFits heapEnd at hfit
  funext x
  simp only [mapRegion, kernelMap, Nat.zero_add]
  by_cases hk : 960 * 1024 ≤ x
  · by_cases hx : x < 2 ^ 20
    · rw [if_pos (by omega), if_neg (by omega), if_neg (by omega), if_neg (by omega), if_pos ⟨hk, hx⟩]
    · repeat rw [if_neg (by omega)]
  · rw [if_neg (c := 960 * 1024 ≤ x ∧ x < 960 * 1024 + 65536) (by omega)]
    by_cases hs : 960 * 1024 - 8 ≤ x
    · rw [if_pos (by omega), if_neg (by omega), if_neg (by omega), if_pos (by omega)]
    · rw [if_neg (by omega), if_neg (by omega)]
      by_cases he : 955 * 1024 ≤ x ∧ x < 955 * 1024 + envsPages
      · rw [if_pos he, if_pos he]
      · rw [if_neg he, if_neg he, if_neg (by omega)]
        by_cases hp : 956 * 1024 ≤ x ∧ x < 956 * 1024 + pagesPages m
        · rw [if_pos hp, if_pos hp]
        · rw [if_neg hp, if_neg hp, if_neg (by omega), if_neg (by omega)]

theorem heapVa_eq (k : Nat) : heapVa k = page2pa (960 * 1024 + k) := by
  have hk : kernbase = page2pa (960 * 1024) := by decide
  rw [heapVa, hk, page2pa_add]

theorem pages_of_size (hw : w.toNat + 4095 < 2 ^ 32) :
    (roundUp w pgsize / pgsize).toNat = chunkPages w := by
  have hp : pgsize.toNat = 4096 := rfl
  rw [BitVec.toNat_udiv, toNat_roundUp hw, hp]
  unfold chunkPages
  omega

theorem kernbase_le_bootstack (m : Machine) : kernbase ≤ m.bootstack := by
  obtain ⟨h1, -, -⟩ := m.bootstack_mem
  have hbe : (kernbase + extphysmem).toNat = 4027580416 := rfl
  rw [BitVec.le_def, hbe] at h1
  rw [BitVec.le_def, show kernbase.toNat = 4026531840 from rfl]
  omega

theorem bootstack_sub (m : Machine) : m.bootstack - kernbase = page2pa (stackPage m) := by
  have hal := m.bootstack_aligned
  rw [pgoff_eq] at hal
  have hle := kernbase_le_bootstack m
  have hsub : (m.bootstack - kernbase).toNat = m.bootstack.toNat - 4026531840 := by
    rw [BitVec.toNat_sub_of_le hle]
    rfl
  rw [BitVec.le_def, show kernbase.toNat = 4026531840 from rfl] at hle
  apply BitVec.eq_of_toNat_eq
  rw [stackPage, toNat_page2pa (pgnum_lt _), pgnum_eq, hsub]
  omega

theorem paddr_bootstack (m : Machine) : paddr m.bootstack s = .ok (page2pa (stackPage m)) s := by
  rw [paddr, bind_ok (check_true (kernbase_le_bootstack m) s), pure_apply, bootstack_sub]

theorem MapsTo.refl {M : Nat → Word} (h : KernelDir m s fl M) : MapsTo m s s fl M :=
  ⟨fl, h, TablesTaken.refl s fl, Kernel.Paging.refl s⟩

/-- The next region of the map. -/
theorem MapsTo.region {M : Nat → Word} (h : MapsTo m s t fl M) {v n p : Nat} {size perm : Word}
    (hv : v + n ≤ 2 ^ 20) (hrange : ∀ x, v ≤ x → x < v + n → x / 1024 ∈ kernEntries)
    (hn : (size / pgsize).toNat = n) :
    ReturnsUnless (Short s fl) (bootMapRegion s.kernPgdir (page2pa v) size (page2pa p) perm) t
      fun _ u => MapsTo m s u fl (mapRegion M v n p perm) := by
  have hkern : t.kernPgdir = s.kernPgdir := by
    obtain ⟨-, -, -, hpag⟩ := h
    exact hpag.kernPgdir
  apply h.andThen
  intro fl' hd
  rw [← hkern]
  exact bootMapRegion_spec hd hv hrange hn

/-- mem_init builds the kernel's map, unless it runs out of pages for its tables. -/
theorem mapKernel_spec (h : KernelDir m s fl fun _ => 0#32) (hb : BootHeap m s) :
    ReturnsUnless (Short s fl) (mapKernel m) s fun _ t => MapsTo m s t fl (kernelMap m) := by
  have hdet := detectedPages_le m
  have hpp := pagesPages_le m
  have hep := envsPages_eq
  have hfit := hb.fits
  unfold HeapFits heapEnd at hfit
  have hupages : upages = page2pa (956 * 1024) := by decide
  have huenvs : uenvs = page2pa (955 * 1024) := by decide
  have hstack : kstacktop - kstksize = page2pa (960 * 1024 - 8) := by decide
  have hbase : kernbase = page2pa (960 * 1024) := by decide
  have hzero : (0#32 : Word) = page2pa 0 := by decide
  have hps : (roundUp (pagesSize s) pgsize / pgsize).toNat = pagesPages m := by
    rw [pages_of_size, pagesSize, hb.npages, pagesPages]
    rw [pagesSize, hb.npages, sizeofPageInfo, BitVec.toNat_mul]
    simp only [BitVec.toNat_ofNat]
    omega
  have hes : (roundUp envsSize pgsize / pgsize).toNat = envsPages :=
    pages_of_size (by decide)
  rw [mapKernel]
  refine ReturnsUnless.step (read_apply s) ?_
  rw [hb.pagesVa, hb.envsVa, hupages, huenvs, hstack]
  refine ReturnsUnless.step (paddr_heapVa (by omega)) ?_
  refine ReturnsUnless.bind ((MapsTo.refl h).region (by omega) ?_ hps) ?_
  · intro x hx hxn
    rw [mem_kernEntries]
    omega
  rintro ⟨⟩ t₁ h₁
  rw [heapVa_eq]
  refine ReturnsUnless.bind (h₁.region (by omega) ?_ hps) ?_
  · intro x hx hxn
    rw [mem_kernEntries]
    omega
  rintro ⟨⟩ t₂ h₂
  refine ReturnsUnless.step (paddr_heapVa (by omega)) ?_
  refine ReturnsUnless.bind (h₂.region (by omega) ?_ hes) ?_
  · intro x hx hxn
    rw [mem_kernEntries]
    omega
  rintro ⟨⟩ t₃ h₃
  rw [heapVa_eq]
  refine ReturnsUnless.bind (h₃.region (by omega) ?_ hes) ?_
  · intro x hx hxn
    rw [mem_kernEntries]
    omega
  rintro ⟨⟩ t₄ h₄
  refine ReturnsUnless.step (paddr_bootstack m) ?_
  refine ReturnsUnless.bind (h₄.region (n := 8) (by omega) ?_ (by decide)) ?_
  · intro x hx hxn
    rw [mem_kernEntries]
    omega
  rintro ⟨⟩ t₅ h₅
  -- the last region ends with the address space
  rw [hbase, hzero]
  apply (h₅.region (n := 65536) (by omega) ?_ (by decide)).mono id
  · rintro ⟨⟩ t₆ h₆
    rwa [regions_eq_kernelMap hb.fits] at h₆
  · intro x hx hxn
    rw [mem_kernEntries]
    omega

end mapKernel
end Jos
