import Jos.Kern.Boot
import Jos.Kern.PmapSpec

/-! The state page_init leaves: where the boot heap ended and which pages are free. -/
namespace Jos

open Prog

section arithmetic

variable {a n : Word} {m : Machine}

theorem toNat_roundDown (a : Word) : (roundDown a pgsize).toNat = a.toNat / 4096 * 4096 := by
  have hm : (a % pgsize).toNat = a.toNat % 4096 := by rw [BitVec.toNat_umod]; rfl
  rw [roundDown, BitVec.toNat_sub_of_le (by rw [BitVec.le_def, hm]; exact Nat.mod_le _ _), hm]
  omega

theorem toNat_roundUp (h : a.toNat + 4095 < 2 ^ 32) :
    (roundUp a pgsize).toNat = (a.toNat + 4095) / 4096 * 4096 := by
  have hsum : (a + pgsize - 1#32).toNat = a.toNat + 4095 := by
    have hp : pgsize = 4096#32 := rfl
    rw [hp]
    bv_omega
  rw [roundUp, toNat_roundDown, hsum]

theorem nvramRead_lt (m : Machine) (r : Nat) : nvramRead m r < 65536 := by
  have h1 := (m.cmos r).isLt
  have h2 := (m.cmos (r + 1)).isLt
  unfold nvramRead
  apply Nat.or_lt_two_pow (n := 16)
  · omega
  · rw [Nat.shiftLeft_eq]
    omega

/-- The page count i386_detect_memory reports. -/
def detectedPages (m : Machine) : Nat :=
  let npagesExtmem := nvramRead m nvramExtlo * 1024 / 4096
  if npagesExtmem ≠ 0 then extphysmem.toNat / 4096 + npagesExtmem
  else nvramRead m nvramBaselo * 1024 / 4096

theorem detectedPages_le (m : Machine) : detectedPages m ≤ 16639 := by
  have h1 := nvramRead_lt m nvramExtlo
  have h2 := nvramRead_lt m nvramBaselo
  have he : extphysmem.toNat = 1048576 := rfl
  unfold detectedPages
  simp only [he]
  split <;> omega

/-- The pages of a request, rounded up. -/
@[irreducible] def chunkPages (n : Word) : Nat := (n.toNat + 4095) / 4096

theorem toNat_requiredPages (n : Word) :
    (n / pgsize + if n % pgsize = 0 then 0#32 else 1#32).toNat = chunkPages n := by
  have hlt := n.isLt
  have hd : (n / pgsize).toNat = n.toNat / 4096 := by rw [BitVec.toNat_udiv]; rfl
  have hm : n % pgsize = 0 ↔ n.toNat % 4096 = 0 := by
    rw [← BitVec.toNat_inj, BitVec.toNat_umod]
    rfl
  unfold chunkPages
  split
  · rename_i h0
    rw [hm] at h0
    rw [BitVec.toNat_add, hd]
    simp only [BitVec.toNat_ofNat]
    omega
  · rename_i h0
    rw [hm] at h0
    rw [BitVec.toNat_add, hd]
    simp only [BitVec.toNat_ofNat]
    omega

end arithmetic

section pageInit

variable {bootHeapEnd : Word} {n p : Nat} {s : Kernel}

/-- The free list page_init builds, highest page first. -/
def freePages (bootHeapEnd : Word) : Nat → List Nat
  | 0 => []
  | n + 1 => if InUse bootHeapEnd n then freePages bootHeapEnd n else n :: freePages bootHeapEnd n

theorem mem_freePages : p ∈ freePages bootHeapEnd n ↔ p < n ∧ ¬ InUse bootHeapEnd p := by
  induction n with
  | zero => simp [freePages]
  | succ n ih =>
    unfold freePages
    by_cases hn : InUse bootHeapEnd n
    · simp only [hn, if_true, ih]
      constructor
      · rintro ⟨h1, h2⟩
        exact ⟨by omega, h2⟩
      · rintro ⟨h1, h2⟩
        have hne : p ≠ n := by rintro rfl; exact h2 hn
        exact ⟨by omega, h2⟩
    · simp only [hn, if_false, List.mem_cons, ih]
      constructor
      · rintro (rfl | ⟨h1, h2⟩)
        · exact ⟨by omega, hn⟩
        · exact ⟨by omega, h2⟩
      · rintro ⟨h1, h2⟩
        by_cases hp : p = n
        · exact Or.inl hp
        · exact Or.inr ⟨by omega, h2⟩

/-- What page_init's loop has done after its first `n` rounds. -/
structure PageInitDone (bootHeapEnd : Word) (n : Nat) (s t : Kernel) : Prop where
  rest : t = { s with pages := t.pages, pageFreeList := t.pageFreeList }
  chain : Chain (fun p => (t.pages p).ppLink) t.pageFreeList (freePages bootHeapEnd n)
  ref : ∀ p < n, (t.pages p).ppRef = if InUse bootHeapEnd p then 1 else 0
  link : ∀ p < n, InUse bootHeapEnd p → (t.pages p).ppLink = none

theorem pageInitStep_done {t : Kernel} (h : PageInitDone bootHeapEnd n s t) :
    PageInitDone bootHeapEnd (n + 1) s (pageInitStep bootHeapEnd n t) := by
  have hnot : n ∉ freePages bootHeapEnd n := fun hm => absurd (mem_freePages.mp hm).1 (by omega)
  have hold : ∀ p ∈ freePages bootHeapEnd n, p ≠ n := by
    rintro p hp rfl
    exact hnot hp
  by_cases hn : InUse bootHeapEnd n
  · have hstep : pageInitStep bootHeapEnd n t = ((t.setRef n 0).setRef n 1).setLink n none := by
      simp [pageInitStep, hn]
    rw [hstep]
    refine ⟨?_, ?_, ?_, ?_⟩
    · rw [h.rest]
      rfl
    · simp only [freePages, hn, if_true]
      apply h.chain.congr
      intro p hp
      simp [Kernel.ppLink_setLink, hold p hp]
    · intro p hp
      simp only [Kernel.ppRef_setLink, Kernel.ppRef_setRef]
      by_cases he : p = n
      · simp [he, hn]
      · simp only [he, if_false]
        exact h.ref p (by omega)
    · intro p hp hu
      simp only [Kernel.ppLink_setLink, Kernel.ppLink_setRef]
      by_cases he : p = n
      · simp [he]
      · simp only [he, if_false]
        exact h.link p (by omega) hu
  · have hstep : pageInitStep bootHeapEnd n t =
        { (t.setRef n 0).setLink n t.pageFreeList with pageFreeList := some n } := by
      simp [pageInitStep, hn, Kernel.setRef]
    rw [hstep]
    refine ⟨?_, ?_, ?_, ?_⟩
    · rw [h.rest]
      rfl
    · simp only [freePages, hn, if_false]
      refine ⟨rfl, ?_⟩
      simp only [Kernel.ppLink_setLink, if_true]
      apply h.chain.congr
      intro p hp
      simp [hold p hp]
    · intro p hp
      simp only [Kernel.ppRef_setLink, Kernel.ppRef_setRef]
      by_cases he : p = n
      · simp [he, hn]
      · simp only [he, if_false]
        exact h.ref p (by omega)
    · intro p hp hu
      have he : p ≠ n := by rintro rfl; exact hn hu
      simp only [Kernel.ppLink_setLink, Kernel.ppLink_setRef, he, if_false]
      exact h.link p (by omega) hu

theorem pageInitLoop_done (h : s.pageFreeList = none) (n : Nat) :
    PageInitDone bootHeapEnd n s (pageInitLoop bootHeapEnd n s) := by
  induction n with
  | zero => exact ⟨rfl, h, by simp, by simp⟩
  | succ n ih => exact pageInitStep_done ih

end pageInit

section bootAlloc

variable {m : Machine} {s t : Kernel} {n a : Word} {i j k : Nat}

/-- The address of a page in the KERNBASE window. -/
def heapVa (k : Nat) : Word := kernbase + page2pa k

/-- The first page after the kernel image, where the boot heap starts. -/
def heapBase (m : Machine) : Nat := (m.kernEnd.toNat - kernbase.toNat + 4095) / 4096

theorem page2pa_eq (k : Nat) : page2pa k = BitVec.ofNat 32 k * 4096#32 := by
  apply BitVec.eq_of_toNat_eq
  simp [page2pa, BitVec.toNat_mul, BitVec.toNat_shiftLeft, Nat.shiftLeft_eq]

theorem page2pa_add (j k : Nat) : page2pa (j + k) = page2pa j + page2pa k := by
  simp only [page2pa_eq, BitVec.ofNat_add]
  apply BitVec.eq_of_toNat_eq
  simp only [BitVec.toNat_mul, BitVec.toNat_add, BitVec.toNat_ofNat]
  omega

theorem heapVa_add (k : Nat) (w : Word) :
    heapVa k + (w / pgsize + if w % pgsize = 0 then 0#32 else 1#32) * pgsize =
      heapVa (k + chunkPages w) := by
  have hr : (w / pgsize + if w % pgsize = 0 then 0#32 else 1#32) = BitVec.ofNat 32 (chunkPages w) := by
    apply BitVec.eq_of_toNat_eq
    have hlt := w.isLt
    rw [toNat_requiredPages, BitVec.toNat_ofNat, Nat.mod_eq_of_lt]
    unfold chunkPages
    omega
  have hp : BitVec.ofNat 32 (chunkPages w) * pgsize = page2pa (chunkPages w) := (page2pa_eq _).symm
  rw [hr, hp, heapVa, heapVa, page2pa_add, BitVec.add_assoc]

theorem toNat_heapVa (hk : k < 65536) : (heapVa k).toNat = kernbase.toNat + k * 4096 := by
  have hp := toNat_page2pa (p := k) (by omega)
  have hb : kernbase.toNat = 4026531840 := rfl
  rw [heapVa, BitVec.toNat_add, hp, hb]
  omega

theorem paddr_heapVa (hk : k < 65536) : paddr (heapVa k) s = .ok (page2pa k) s := by
  have hle : kernbase ≤ heapVa k := by
    rw [BitVec.le_def, toNat_heapVa hk]
    omega
  have hsub : heapVa k - kernbase = page2pa k := by
    rw [heapVa]
    rw [BitVec.add_comm]
    exact BitVec.add_sub_cancel _ _
  simp [paddr, bind_apply, check_true hle, pure_apply, hsub]

/-- The kernel's end, rounded up: past the top of memory it wraps to zero. -/
theorem roundUp_kernEnd (m : Machine) :
    heapBase m ≤ 65536 ∧ roundUp m.kernEnd pgsize = heapVa (heapBase m) := by
  have hgt := m.kernEnd_gt
  have hlt := m.kernEnd.isLt
  have hb : kernbase.toNat = 4026531840 := rfl
  rw [BitVec.lt_def, show (kernbase + extphysmem).toNat = 4027580416 from rfl] at hgt
  have hle : heapBase m ≤ 65536 := by
    unfold heapBase
    omega
  refine ⟨hle, ?_⟩
  apply BitVec.eq_of_toNat_eq
  by_cases hw : m.kernEnd.toNat + 4095 < 2 ^ 32
  · have hk : heapBase m < 65536 := by
      unfold heapBase
      omega
    rw [toNat_roundUp hw, toNat_heapVa hk, heapBase, hb]
    omega
  · have hk : heapBase m = 65536 := by
      unfold heapBase
      omega
    have hsum : (m.kernEnd + pgsize - 1#32).toNat < 4096 := by
      have hp : pgsize = 4096#32 := rfl
      rw [hp]
      bv_omega
    have hz : (heapVa 65536).toNat = 0 := by decide
    rw [hk, hz, roundUp, toNat_roundDown]
    omega

/-- boot_alloc hands out the next pages of the boot heap as long as the first of them is in memory
and in the KERNBASE window. -/
theorem bootAlloc_returns
    (hk : (if s.nextfree = 0 then roundUp m.kernEnd pgsize else s.nextfree) = heapVa k)
    (hle : k ≤ 65536) (hn : s.npages < 2 ^ 20) :
    bootAlloc m n s = .ok a t ↔ (k < 65536 ∧ k < s.npages) ∧ a = heapVa k ∧
      t = { s with nextfree := heapVa (k + chunkPages n) } := by
  have hstart : (if s.nextfree = 0 then { s with nextfree := roundUp m.kernEnd pgsize } else s) =
      { s with nextfree := heapVa k } := by
    split at hk
    · rename_i h0
      rw [if_pos h0, hk]
    · rename_i h0
      rw [if_neg h0, ← hk]
  simp only [bootAlloc, bind_apply, update_apply, read_apply, hstart]
  by_cases hlt : k < 65536
  · have hcmp : page2pa k < BitVec.ofNat 32 s.npages * pgsize ↔ k < s.npages := by
      have hp : BitVec.ofNat 32 s.npages * pgsize = page2pa s.npages := (page2pa_eq _).symm
      rw [hp, BitVec.lt_def, toNat_page2pa (by omega), toNat_page2pa (by omega)]
      omega
    simp only [paddr_heapVa hlt, check_apply, hcmp]
    by_cases hks : k < s.npages
    · simp only [hlt, hks, if_true, heapVa_add, pure_apply, Outcome.ok.injEq, true_and]
      exact and_congr eq_comm eq_comm
    · simp [hks]
  · have hk' : k = 65536 := by omega
    subst hk'
    have hp : paddr (heapVa 65536) { s with nextfree := heapVa 65536 } =
        .stop (.panic "PADDR called with invalid kva %08lx")
          { s with nextfree := heapVa 65536 } := by
      simp only [paddr, bind_apply, check_apply]
      rw [if_neg (by decide)]
    simp only [hp]
    constructor
    · intro h
      cases h
    · rintro ⟨⟨h, -⟩, -⟩
      omega

theorem bootAlloc_eq_ok
    (hk : (if s.nextfree = 0 then roundUp m.kernEnd pgsize else s.nextfree) = heapVa k)
    (hle : k ≤ 65536) (hn : s.npages ≤ 65536) :
    bootAlloc m n s = .ok a t ↔
      k < s.npages ∧ a = heapVa k ∧ t = { s with nextfree := heapVa (k + chunkPages n) } := by
  rw [bootAlloc_returns hk hle (by omega)]
  exact and_congr_left fun _ => ⟨fun h => h.2, fun h => ⟨by omega, h⟩⟩

end bootAlloc

section memInitEarly

variable {m : Machine} {mem : Nat → Nat → Word} {s : Kernel} {p : Nat}

def pagesPages (m : Machine) : Nat :=
  chunkPages (sizeofPageInfo * BitVec.ofNat 32 (detectedPages m))

def envsPages : Nat := chunkPages envsSize

/-- The page at which the boot heap ends: kern_pgdir, `pages` and `envs` lie below it. -/
def heapEnd (m : Machine) : Nat := heapBase m + 1 + pagesPages m + envsPages

/-- mem_init's first half returns exactly when the boot heap ends below the top of memory. -/
def HeapFits (m : Machine) : Prop := heapEnd m < detectedPages m

instance (m : Machine) : Decidable (HeapFits m) := inferInstanceAs (Decidable (_ < _))

/-- The pages page_init marked in use. -/
def Reserved (m : Machine) (p : Nat) : Prop := InUse (page2pa (heapEnd m)) p

instance (m : Machine) (p : Nat) : Decidable (Reserved m p) := inferInstanceAs (Decidable (InUse _ _))

/-- The state while the boot heap is filled, once kern_pgdir is there. -/
def bootState (m : Machine) (mem : Nat → Nat → Word) (nextfree pagesVa envsVa : Word) : Kernel :=
  let s := { bss mem with
    npages := detectedPages m
    npagesBasemem := nvramRead m nvramBaselo * 1024 / 4096
    nextfree := nextfree
    kernPgdir := heapBase m
    pagesVa := pagesVa
    envsVa := envsVa }
  (s.fill (heapBase m) 1024 0#32).store (heapBase m) (pdx uvpt) (selfEntry (heapBase m))

section bootState

variable {a b c w : Word}

theorem bootState_nextfree :
    { bootState m mem a b c with nextfree := w } = bootState m mem w b c := rfl

theorem bootState_pagesVa : { bootState m mem a b c with
    pagesVa := w, pages := fun _ => ⟨none, 0⟩ } = bootState m mem a w c := rfl

theorem bootState_envsVa : { bootState m mem a b c with
    envsVa := w, envs := fun _ => zeroEnv } = bootState m mem a b w := rfl

end bootState

/-- The state in which mem_init calls page_init, with the boot heap complete. -/
def beforePageInit (m : Machine) (mem : Nat → Nat → Word) : Kernel :=
  bootState m mem (heapVa (heapEnd m)) (heapVa (heapBase m + 1))
    (heapVa (heapBase m + 1 + pagesPages m))

/-- The state page_init leaves. -/
def afterPageInit (m : Machine) (mem : Nat → Nat → Word) : Kernel :=
  pageInitLoop (page2pa (heapEnd m)) (detectedPages m) (beforePageInit m mem)

theorem pgnum_heapVa {k : Nat} (hk : k < 65536) : pgnum (page2pa k) = k := pgnum_page2pa (by omega)

theorem heapVa_ne_zero {k : Nat} (hk : k < 65536) : heapVa k ≠ 0 := by
  intro h0
  have h1 := toNat_heapVa hk
  have hb : kernbase.toNat = 4026531840 := rfl
  rw [h0, hb] at h1
  simp at h1
  omega

/-- Going on after boot_alloc. -/
theorem bootAlloc_bind_eq_ok {β : Type} {f : Word → Kern β} {b : β} {t u w : Kernel} {c k : Nat}
    {n : Word} (hk : t.nextfree = heapVa k) (hlt : k < 65536) (hn : t.npages ≤ 65536)
    (hc : chunkPages n = c) (hw : { t with nextfree := heapVa (k + c) } = w) :
    (bootAlloc m n >>= f) t = .ok b u ↔ k < t.npages ∧ f (heapVa k) w = .ok b u := by
  have hk' : (if t.nextfree = 0 then roundUp m.kernEnd pgsize else t.nextfree) = heapVa k := by
    rw [hk, if_neg (heapVa_ne_zero hlt)]
  subst hc hw
  simp only [bind_eq_ok, bootAlloc_eq_ok hk' (by omega) hn]
  constructor
  · rintro ⟨a, t', ⟨hlt, rfl, rfl⟩, hf⟩
    exact ⟨hlt, hf⟩
  · rintro ⟨hlt, hf⟩
    exact ⟨_, _, ⟨hlt, rfl, rfl⟩, hf⟩

/-- Going on after the first boot_alloc, which starts the boot heap. -/
theorem bootAlloc_first_bind_eq_ok {β : Type} {f : Word → Kern β} {b : β} {t u : Kernel} {n : Word}
    (hk : t.nextfree = 0) (hn : t.npages ≤ 65536) :
    (bootAlloc m n >>= f) t = .ok b u ↔ heapBase m < t.npages ∧
      f (heapVa (heapBase m)) { t with nextfree := heapVa (heapBase m + chunkPages n) } = .ok b u := by
  obtain ⟨hbase, hround⟩ := roundUp_kernEnd m
  have hk' : (if t.nextfree = 0 then roundUp m.kernEnd pgsize else t.nextfree) = heapVa (heapBase m) := by
    rw [if_pos hk, hround]
  simp only [bind_eq_ok, bootAlloc_eq_ok hk' hbase hn]
  constructor
  · rintro ⟨a, t', ⟨hlt, rfl, rfl⟩, hf⟩
    exact ⟨hlt, hf⟩
  · rintro ⟨hlt, hf⟩
    exact ⟨_, _, ⟨hlt, rfl, rfl⟩, hf⟩

theorem pagesPages_le (m : Machine) : pagesPages m ≤ 33 := by
  have hnp := detectedPages_le m
  have hs : (sizeofPageInfo * BitVec.ofNat 32 (detectedPages m)).toNat = 8 * detectedPages m := by
    rw [sizeofPageInfo, BitVec.toNat_mul]
    simp only [BitVec.toNat_ofNat]
    omega
  rw [pagesPages, chunkPages, hs]
  omega

theorem envsPages_eq : envsPages = 24 := by
  unfold envsPages chunkPages
  decide

/-- mem_init's first half, in full: it panics, or it leaves exactly this state. -/
theorem memInitEarly_eq_ok :
    memInitEarly m (bss mem) = .ok () s ↔ HeapFits m ∧ s = afterPageInit m mem := by
  have hnp := detectedPages_le m
  have hpp := pagesPages_le m
  have hep := envsPages_eq
  have hdet : i386DetectMemory m (bss mem) = .ok () { bss mem with
      npages := detectedPages m, npagesBasemem := nvramRead m nvramBaselo * 1024 / 4096 } := rfl
  have hfits : HeapFits m ∧ s = afterPageInit m mem ↔ heapBase m < detectedPages m ∧
      heapBase m + 1 < detectedPages m ∧ heapBase m + 1 + pagesPages m < detectedPages m ∧
      heapEnd m < detectedPages m ∧ afterPageInit m mem = s := by
    unfold HeapFits heapEnd
    constructor
    · rintro ⟨h, rfl⟩
      exact ⟨by omega, by omega, by omega, h, rfl⟩
    · rintro ⟨-, -, -, h, rfl⟩
      exact ⟨h, rfl⟩
  have hone : chunkPages pgsize = 1 := by unfold chunkPages; decide
  have hzero : chunkPages 0#32 = 0 := by unfold chunkPages; decide
  have hn : detectedPages m ≤ 65536 := by omega
  let k := heapBase m + 1
  let b := bootState m mem
  rw [hfits, memInitEarly, bind_ok hdet]
  refine Iff.trans (bootAlloc_first_bind_eq_ok rfl hn) ?_
  refine and_congr_right fun (h₁ : heapBase m < detectedPages m) => ?_
  rw [bind_ok (paddr_heapVa (by omega)), pgnum_heapVa (by omega), hone, bind_ok (update_apply _ _),
    bind_ok (update_apply _ _)]
  -- from here on only the heap's end and the two array pointers change
  refine Iff.trans (bind_ok_iff (t := b (heapVa k) 0 0) rfl) ?_
  rw [bind_ok (read_apply _)]
  have hps : chunkPages (pagesSize (b (heapVa k) 0 0)) = pagesPages m := rfl
  refine Iff.trans (bootAlloc_bind_eq_ok rfl (by omega) hn hps bootState_nextfree) ?_
  refine and_congr_right fun (h₂ : k < detectedPages m) => ?_
  refine Iff.trans (bind_ok_iff (congrArg (Outcome.ok ()) bootState_pagesVa)) ?_
  have hes : chunkPages envsSize = envsPages := rfl
  refine Iff.trans (bootAlloc_bind_eq_ok rfl (by omega) hn hes bootState_nextfree) ?_
  refine and_congr_right fun (h₃ : k + pagesPages m < detectedPages m) => ?_
  refine Iff.trans (bind_ok_iff (congrArg (Outcome.ok ()) bootState_envsVa)) ?_
  have hend : k + pagesPages m + envsPages = heapEnd m := by rw [heapEnd]
  rw [hend, pageInit]
  refine Iff.trans (bootAlloc_bind_eq_ok rfl (by omega) hn hzero bootState_nextfree) ?_
  refine and_congr_right fun (h₄ : heapEnd m < detectedPages m) => ?_
  rw [bind_ok (paddr_heapVa (by omega)), update_eq_ok]
  exact Iff.rfl

theorem afterPageInit_done (m : Machine) (mem : Nat → Nat → Word) :
    PageInitDone (page2pa (heapEnd m)) (detectedPages m) (beforePageInit m mem)
      (afterPageInit m mem) :=
  pageInitLoop_done rfl _

theorem npages_afterPageInit : (afterPageInit m mem).npages = detectedPages m := by
  rw [(afterPageInit_done m mem).rest]
  rfl

theorem kernPgdir_afterPageInit : (afterPageInit m mem).kernPgdir = heapBase m := by
  rw [(afterPageInit_done m mem).rest]
  rfl

theorem mem_afterPageInit (i : Nat) (hi : i < 1024) : (afterPageInit m mem).mem (heapBase m) i =
    if i = 957 then selfEntry (heapBase m) else 0#32 := by
  have h957 : pdx uvpt = 957 := pdx_uvpt
  rw [(afterPageInit_done m mem).rest]
  simp [beforePageInit, bootState, Kernel.mem_store, Kernel.mem_fill, h957, hi]

theorem heapBase_gt (m : Machine) : 256 < heapBase m := by
  have hgt := m.kernEnd_gt
  have hb : kernbase.toNat = 4026531840 := rfl
  rw [BitVec.lt_def, show (kernbase + extphysmem).toNat = 4027580416 from rfl] at hgt
  unfold heapBase
  omega

theorem heapBase_lt_heapEnd (m : Machine) : heapBase m < heapEnd m := by
  unfold heapEnd
  omega

/-- kern_pgdir lies in the boot heap, so page_init keeps it off the free list. -/
theorem reserved_heapBase (h : HeapFits m) : Reserved m (heapBase m) := by
  have h1 := heapBase_gt m
  have h2 := heapBase_lt_heapEnd m
  have h3 := detectedPages_le m
  unfold HeapFits at h
  refine Or.inr (Or.inr ⟨?_, ?_⟩)
  · rw [BitVec.lt_def, toNat_page2pa (by omega), show extphysmem.toNat = 1048576 from rfl]
    omega
  · rw [BitVec.lt_def, toNat_page2pa (by omega), toNat_page2pa (by omega)]
    omega

/-- At boot kern_pgdir is the only directory and every other reserved page is simply held. -/
def bootLedger (m : Machine) (own : Finset Nat) : Ledger where
  dirs := {heapBase m}
  own := fun _ => own
  held := fun p => if Reserved m p ∧ p ≠ heapBase m then 1 else 0
  loose := ∅

theorem pde_boot {d i : Nat} (hd : d = heapBase m) (hi : i < 1024) (hne : i ≠ 957) :
    (afterPageInit m mem).pde d i = 0#32 := by
  subst hd
  rw [Kernel.pde, mem_afterPageInit i hi, if_neg hne]

/-- page_init establishes the allocator's invariant. -/
theorem balanced_boot (h : HeapFits m) {own : Finset Nat} (huser : ∀ i < 955, i ∈ own)
    (hown : ∀ i ∈ own, i < 1024 ∧ i ≠ 957) :
    Balanced (afterPageInit m mem) (bootLedger m own)
      (freePages (page2pa (heapEnd m)) (detectedPages m)) := by
  have hdone := afterPageInit_done m mem
  have hn : (afterPageInit m mem).npages = detectedPages m := npages_afterPageInit
  have hdet := detectedPages_le m
  have hpde : ∀ d ∈ (bootLedger m own).dirs, ∀ i ∈ own, (afterPageInit m mem).pde d i = 0#32 :=
    fun d hd i hi => pde_boot (Finset.mem_singleton.mp hd) (hown i hi).1 (hown i hi).2
  have hpte : ∀ d ∈ (bootLedger m own).dirs, ∀ i < 955, ∀ j,
      (afterPageInit m mem).pte d i j = 0#32 := by
    intro d hd i hi j
    exact Kernel.pte_of_no_table (by rw [hpde d hd i (huser i hi), target_zero])
  have href : ∀ p < detectedPages m,
      ((afterPageInit m mem).pages p).ppRef = if Reserved m p then 1 else 0 := hdone.ref
  have hbase : heapBase m < detectedPages m := (heapBase_lt_heapEnd m).trans h
  refine ⟨by omega, hdone.chain, ?free, by simp [bootLedger], ?link, ?count, ?dir,
    fun _ _ => huser, ?table, ?inj, ?mapped⟩
  case free =>
    intro p
    rw [mem_freePages, hn]
    constructor
    · rintro ⟨h1, h2⟩
      exact ⟨h1, (href p h1).trans (if_neg h2), by simp [bootLedger]⟩
    · rintro ⟨h1, h2, -⟩
      refine ⟨h1, fun (hu : Reserved m p) => ?_⟩
      rw [href p h1, if_pos hu] at h2
      exact absurd h2 (by decide)
  case link =>
    intro p hp hf
    rw [hn] at hp
    apply hdone.link p hp
    by_contra hu
    exact hf (mem_freePages.mpr ⟨hp, hu⟩)
  case count =>
    intro p hp
    rw [hn] at hp
    have hrefs : refs (afterPageInit m mem) (bootLedger m own) p = 0 := by
      apply RefCount.refs_eq_zero_iff.mpr
      rintro (⟨d, i⟩ | ⟨d, i, j⟩) hx
      · rw [Ledger.inl_mem_slots] at hx
        simp [names, hpde d hx.1 i hx.2]
      · rw [Ledger.inr_mem_slots] at hx
        simp [names, hpte d hx.1 i hx.2.1]
    rw [hrefs, href p hp]
    by_cases hpb : p = heapBase m
    · rw [if_pos (hpb ▸ reserved_heapBase h), Ledger.root_of_mem (by simp [bootLedger, hpb])]
      simp [bootLedger, hpb]
    · rw [Ledger.root_of_notMem (by simp [bootLedger, hpb])]
      by_cases hu : Reserved m p <;> simp [bootLedger, hpb, hu]
  case dir =>
    intro d hd
    rw [Finset.mem_singleton.mp hd, hn]
    exact hbase
  case table =>
    intro d hd i hi t ht
    simp [hpde d hd i hi] at ht
  case inj =>
    intro d hd i hi d' _ i' _ t ht
    simp [hpde d hd i hi] at ht
  case mapped =>
    intro d hd i hi j _ p hp
    simp [hpte d hd i hi j] at hp

end memInitEarly

/-- A machine with 5 MB of memory under a kernel that ends at 0xF0117000. -/
def smallMachine : Machine where
  cmos := fun r => if r = 24 then 16 else 0
  kernEnd := 0xF0117000#32
  bootstack := 0xF010D000#32
  kernEnd_gt := by decide
  bootstack_mem := by decide
  bootstack_aligned := by decide

theorem heapFits_smallMachine : HeapFits smallMachine := by
  unfold HeapFits heapEnd pagesPages envsPages chunkPages
  decide

theorem heapBase_smallMachine : heapBase smallMachine = 279 := by decide

end Jos
