import Jos.Kern.RangeCommands
import Jos.Kern.KernelSpace

/-! memxv on the page directory mem_init builds. -/
namespace Jos

open Prog

/-- The kernel's directory maps the page of the address. -/
def KernMapped (s : Kernel) (va : Word) : Prop := Has (s.entryOf s.kernPgdir va) pteP

instance (s : Kernel) (va : Word) : Decidable (KernMapped s va) := inferInstanceAs (Decidable (Has _ _))

/-- memxv prints its table without crashing the kernel: dashes for what is not mapped, and words all
four bytes of which are. -/
def MemxvSound (s : Kernel) (argv : List (List Byte)) (lo hi : Word) : Prop :=
  ∃ table, monMemxv argv s = .ok (.ok table) s ∧ Visits lo 4 hi (table.rows.map Prod.fst) ∧
    ∀ va w, (va, w) ∈ table.rows →
      (w = none ↔ ¬ KernMapped s va) ∧ (w ≠ none → ∀ k < 4, KernMapped s (va + BitVec.ofNat 32 k))

variable {m : Machine} {mem : Nat → Nat → Word} {s s₀ : Kernel} {fl : List Nat} {va lo hi : Word}
  {argv : List (List Byte)} {p : Nat} {w : Option Word}

theorem stackPage_le_heapBase (m : Machine) : stackPage m + 8 ≤ heapBase m := by
  obtain ⟨-, h2, h3⟩ := m.bootstack_mem
  have hb : kernbase.toNat = 4026531840 := rfl
  have hks : kstksize.toNat = 32768 := rfl
  have hle := kernbase_le_bootstack m
  have hsub : (m.bootstack - kernbase).toNat = m.bootstack.toNat - 4026531840 := by
    rw [BitVec.toNat_sub_of_le hle, hb]
  have hal := m.bootstack_aligned
  have hlt := m.bootstack.isLt
  rw [pgoff_eq] at hal
  rw [BitVec.le_def, hb] at hle
  rw [BitVec.le_def, BitVec.toNat_add, hks] at h2 h3
  rw [stackPage, pgnum_eq, hsub, heapBase, hb]
  omega

section entries

/-- An entry of the kernel's map names an existing page, except in the KERNBASE window, which goes
on behind the end of memory. -/
theorem kernelMap_target (hfit : HeapFits m) {x : Nat} (hx : target (kernelMap m x) = some p) :
    p < detectedPages m ↔ x < 960 * 1024 + detectedPages m := by
  have hdet := detectedPages_le m
  have hpp := pagesPages_le m
  have hep := envsPages_eq
  have hst := stackPage_le_heapBase m
  unfold HeapFits heapEnd at hfit
  rw [kernelMap] at hx
  split at hx
  · rw [target_pageEntry (by omega) pteU_lt] at hx
    obtain rfl := Option.some.inj hx
    omega
  · split at hx
    · rw [target_pageEntry (by omega) pteU_lt] at hx
      obtain rfl := Option.some.inj hx
      omega
    · split at hx
      · rw [target_pageEntry (by omega) pteW_lt] at hx
        obtain rfl := Option.some.inj hx
        omega
      · split at hx
        · rw [target_pageEntry (by omega) pteW_lt] at hx
          obtain rfl := Option.some.inj hx
          omega
        · rw [target_zero] at hx
          cases hx

/-- In the UVPT window, the entry of an address is a directory entry. -/
theorem entryOf_window (h : SelfMapped s p) (hva : pdx va = 957) :
    s.entryOf p va = s.pde p (ptx va) := by
  have hself : target (s.pde p (pdx va)) = some p := by
    rw [hva, Kernel.pde, h.self_at]
    exact target_eq_some.mpr ⟨has_selfEntry_P, pgnum_selfEntry h.lt⟩
  rw [Kernel.entryOf, Kernel.pte_of_target hself, Kernel.pde]

theorem Booting.entryOf_eq {M : Nat → Word} (h : Booting m s₀ s fl M) (hva : pdx va ≠ 957) :
    s.entryOf s.kernPgdir va = M (pgnum va) := by
  have hidx := pgnum_indices va
  have hown : pgnum va / 1024 ∈ kernOwn := by
    rw [hidx.1]
    exact mem_kernOwn.mpr ⟨pdx_lt va, hva⟩
  have hpte := h.dir.pte_eq hown
  rwa [hidx.1, hidx.2] at hpte

/-- A page that kern_pgdir maps exists, up to the end of memory in the KERNBASE window. -/
theorem Booting.entry_target (h : Booting m s₀ s fl (kernelMap m))
    (ht : target (s.entryOf s.kernPgdir va) = some p) :
    p < s.npages ↔ va.toNat < kernbase.toNat + s.npages * 4096 := by
  have hkb : kernbase.toNat = 960 * 1024 * 4096 := rfl
  by_cases hva : pdx va = 957
  · have hself := h.dir.selfMapped
    rw [entryOf_window hself hva] at ht
    obtain ⟨hP, rfl⟩ := target_eq_some.mp ht
    have hlt : pgnum (s.pde s.kernPgdir (ptx va)) < s.npages := by
      by_cases hi : ptx va = 957
      · rw [hi, Kernel.pde, hself.self_at, pgnum_selfEntry hself.lt]
        exact h.dir.balanced.dir_lt _ h.dir.dirs
      · exact hself.others _ (ptx_lt va) hi hP
    have hlow : va.toNat < kernbase.toNat := by
      rw [pdx_eq] at hva
      rw [hkb]
      omega
    exact ⟨fun _ => by omega, fun _ => hlt⟩
  · rw [h.entryOf_eq hva] at ht
    have hiff := kernelMap_target h.heap.fits ht
    rw [← h.heap.npages, pgnum_eq] at hiff
    rw [hkb]
    omega

theorem Booting.tableInRam (h : Booting m s₀ s fl (kernelMap m)) : TableInRam s va := by
  intro t ht
  obtain ⟨hP, rfl⟩ := target_eq_some.mp ht
  exact h.dir.selfMapped.table_lt hP

/-- After mem_init the processor walks the kernel's directory. -/
theorem Booting.cr3_eq (h : Booting m ((afterPageInit m mem).loadCr3 (heapBase m)) s fl (kernelMap m)) :
    s.cr3 = s.kernPgdir := by
  rw [h.dir.kernPgdir, h.rest]
  rfl

theorem Booting.walk (h : Booting m ((afterPageInit m mem).loadCr3 (heapBase m)) s fl (kernelMap m)) :
    (hwWalk s.mem s.cr3 va).isSome ↔ KernMapped s va := by
  have hpage : (hwWalk s.mem s.kernPgdir va).map (·.page) = _ := hwWalk_page
  rw [h.cr3_eq, KernMapped, Kernel.entryOf, ← Option.isSome_map (f := (·.page)), hpage]
  unfold target
  split <;> simp_all

/-- From KERNBASE on, everything is mapped. -/
theorem Booting.base_mapped (h : Booting m s₀ s fl (kernelMap m)) (hva : kernbase ≤ va) :
    KernMapped s va := by
  have hkb : kernbase.toNat = 960 * 1024 * 4096 := rfl
  rw [BitVec.le_def, hkb] at hva
  have hge : 960 * 1024 ≤ pgnum va := by
    rw [pgnum_eq]
    omega
  have hnum := pgnum_lt va
  have hdx : pdx va ≠ 957 := by
    have := ptx_lt va
    rw [pgnum_eq_indices] at hge
    omega
  obtain ⟨k, hk⟩ := Nat.exists_eq_add_of_le hge
  have hlt : k < 65536 := by omega
  rw [KernMapped, h.entryOf_eq hdx, hk, kernelMap_base m hlt]
  exact (target_eq_some.mp (target_pageEntry (by omega) pteW_lt)).1

end entries

theorem entryOf_samePage {d : Nat} {a b : Word} (h : pgnum a = pgnum b) :
    s.entryOf d a = s.entryOf d b := by
  have ha := pgnum_eq_indices a
  have hb := pgnum_eq_indices b
  have hlta := ptx_lt a
  have hltb := ptx_lt b
  rw [Kernel.entryOf, Kernel.entryOf, show pdx a = pdx b by omega, show ptx a = ptx b by omega]

/-- A round of memxv does no harm at an address below KERNBASE plus the size of memory, unless its
word runs out of a mapped page into one that is not mapped. -/
def MemxvFits (s : Kernel) (va : Word) : Prop :=
  va.toNat < kernbase.toNat + s.npages * 4096 ∧
    (KernMapped s va → 4092 < pgoff va → KernMapped s (va + 3))

/-- Four bytes lie in the page of the first and the page of the last. -/
theorem kernMapped_long (hva : va.toNat + 3 < 2 ^ 32) (h0 : KernMapped s va)
    (h3 : 4092 < pgoff va → KernMapped s (va + 3)) {k : Nat} (hk : k < 4) :
    KernMapped s (va + BitVec.ofNat 32 k) := by
  have hsum : (va + BitVec.ofNat 32 k).toNat = va.toNat + k := by
    rw [BitVec.toNat_add, BitVec.toNat_ofNat]
    omega
  have hlast : (va + 3).toNat = va.toNat + 3 := by
    rw [BitVec.toNat_add, show (3 : Word).toNat = 3 from rfl]
    omega
  rw [pgoff_eq] at h3
  unfold KernMapped at h0 h3 ⊢
  by_cases hpage : va.toNat % 4096 + k < 4096
  · rw [entryOf_samePage (b := va) (by rw [pgnum_eq, pgnum_eq, hsum]; omega)]
    exact h0
  · rw [entryOf_samePage (b := va + 3) (by rw [pgnum_eq, pgnum_eq, hsum, hlast]; omega)]
    exact h3 (by omega)

/-- After mem_init, that is when a round of memxv returns. -/
theorem Booting.memxvSafe_iff
    (h : Booting m ((afterPageInit m mem).loadCr3 (heapBase m)) s fl (kernelMap m)) :
    MemxvSafe s va ↔ MemxvFits s va := by
  have hkb : kernbase.toNat = 4026531840 := rfl
  have hmem : s.npages ≤ 16639 := h.heap.npages ▸ detectedPages_le m
  have hlong : LongMapped s va ↔ ∀ k < 4, KernMapped s (va + BitVec.ofNat 32 k) := by
    unfold LongMapped
    simp only [h.walk]
  constructor
  · rintro ⟨-, hpage⟩
    by_cases hP : KernMapped s va
    · obtain ⟨hlt, hload⟩ := hpage _ (target_eq_some.mpr ⟨hP, rfl⟩)
      exact ⟨(h.entry_target (target_eq_some.mpr ⟨hP, rfl⟩)).mp hlt,
        fun _ _ => hlong.mp hload 3 (by decide)⟩
    · refine ⟨?_, fun hP' => absurd hP' hP⟩
      have hlow : ¬ kernbase ≤ va := fun hle => hP (h.base_mapped hle)
      rw [BitVec.le_def] at hlow
      omega
  · rintro ⟨hlt, h3⟩
    refine ⟨h.tableInRam, fun p hp => ⟨(h.entry_target hp).mpr hlt, hlong.mpr fun k hk => ?_⟩⟩
    obtain ⟨hP, -⟩ := target_eq_some.mp hp
    exact kernMapped_long (by omega) hP (h3 hP) hk

theorem Booting.memxvFits
    (h : Booting m ((afterPageInit m mem).loadCr3 (heapBase m)) s fl (kernelMap m))
    (ha : readRange [] argv = .ok (lo, hi)) (hsound : MemxvSound s argv lo hi)
    (hva : InSteps lo 4 hi va) : MemxvFits s va := by
  obtain ⟨table, hrun, hvis, -⟩ := hsound
  exact h.memxvSafe_iff.mp (((monMemxv_ends_iff ha).mp ⟨table, s, hrun, hvis⟩).2 va hva)

/-- What a row of memxv shows. -/
theorem monMemxvEntry_row (h : monMemxvEntry va s = .ok w s) :
    (w = none ↔ ¬ KernMapped s va) ∧ (w ≠ none → LongMapped s va) := by
  rw [monMemxvEntry, bind_ok (read_apply s)] at h
  obtain ⟨⟨o, r⟩, u, hlook, h⟩ := bind_eq_ok.mp h
  obtain rfl := pageLookup_observes _ _ _ _ _ hlook
  have ho : o = target (u.entryOf u.kernPgdir va) := (pageLookup_agrees hlook).2.1
  cases o with
  | none =>
    obtain ⟨rfl, -⟩ := pure_eq_ok.mp h
    refine ⟨⟨fun _ hP => ?_, fun _ => rfl⟩, fun hn => absurd rfl hn⟩
    rw [target_eq_some.mpr ⟨hP, rfl⟩] at ho
    cases ho
  | some p =>
    obtain ⟨l, v, hload, h⟩ := bind_eq_ok.mp h
    obtain rfl := loadLong_observes _ _ _ _ hload
    obtain ⟨rfl, -⟩ := pure_eq_ok.mp h
    have hP : KernMapped v va := (target_eq_some.mp ho.symm).1
    refine ⟨?_, fun _ => loadLong_returns.mp ⟨l, hload⟩⟩
    exact ⟨fun hn => (by cases hn), fun hn => absurd hP hn⟩

/-- On the directory mem_init builds, memxv is sound exactly when each of its rounds fits. -/
theorem memInit_memxv_iff (h : memInit m (bss mem) = .ok () s) (ha : readRange [] argv = .ok (lo, hi)) :
    MemxvSound s argv lo hi ↔ ∀ va, InSteps lo 4 hi va → MemxvFits s va := by
  obtain ⟨fl, hb, -⟩ := memInit_booting h
  constructor
  · intro hsound va hva
    exact hb.memxvFits ha hsound hva
  · intro hfits
    have hlast := hfits _ (inSteps_lastStep (readRange_le ha))
    have hmem : s.npages ≤ 16639 := hb.heap.npages ▸ detectedPages_le m
    have hkb : kernbase.toNat = 4026531840 := rfl
    have hwrap : lastStep lo.toNat 4 hi.toNat + 4 < 2 ^ 32 := by
      have hlt := hlast.1
      rw [toNat_lastStep] at hlt
      rw [show (4 : Word).toNat = 4 from rfl] at hlt
      omega
    obtain ⟨table, t, hrun, hvis⟩ := (monMemxv_ends_iff ha).mpr
      ⟨hwrap, fun va hva => hb.memxvSafe_iff.mpr (hfits va hva)⟩
    have hsame := hrun
    rw [monMemxv, rangeCommand, readRange_usage _ ha] at hrun
    obtain ⟨rows, u, hrows, heq⟩ := bind_eq_ok.mp hrun
    obtain ⟨htable, rfl⟩ := pure_eq_ok.mp heq
    obtain rfl := Except.ok.inj htable
    obtain rfl := rangeLoop_observes monMemxvEntry_observes _ _ _ hrows
    refine ⟨_, hsame, hvis, fun va w hrow => ?_⟩
    obtain ⟨hnone, hlong⟩ := monMemxvEntry_row (rangeLoop_mem monMemxvEntry_observes hrows hrow)
    exact ⟨hnone, fun hw k hk => hb.walk.mp (hlong hw k hk)⟩

/-- The argument strings "memxv" and "f0000000". -/
def firstWord : List (List Byte) :=
  [[109, 101, 109, 120, 118], [102, 48, 48, 48, 48, 48, 48, 48]]

theorem memInit_memxv_smallMachine : ∃ s, memInit smallMachine (bss fun _ _ => 0) = .ok () s ∧
    readRange [] firstWord = .ok (kernbase, kernbase) ∧ MemxvSound s firstWord kernbase kernbase := by
  obtain ⟨s, hs⟩ := memInit_smallMachine fun _ _ => 0
  have ha : readRange [] firstWord = .ok (kernbase, kernbase) := by decide
  obtain ⟨fl, hb, -⟩ := memInit_booting hs
  have hmem : s.npages = 1280 := hb.heap.npages.trans detectedPages_smallMachine
  refine ⟨s, hs, ha, (memInit_memxv_iff hs ha).mpr fun va hva => ?_⟩
  obtain rfl : va = kernbase := BitVec.le_antisymm hva.1 hva.start_le
  have hoff : ¬ 4092 < pgoff kernbase := by decide
  exact ⟨by omega, fun _ h => absurd h hoff⟩

/-- The argument strings "memxv" and "f0500000". -/
def endOfMemory : List (List Byte) :=
  [[109, 101, 109, 120, 118], [102, 48, 53, 48, 48, 48, 48, 48]]

/-- The argument strings "memxv" and "eec17ffe". -/
def endOfEnvs : List (List Byte) :=
  [[109, 101, 109, 120, 118], [101, 101, 99, 49, 55, 102, 102, 101]]

/-- A machine with 5 MB: memxv panics at KERNBASE + 5 MB, and faults on the word that runs out of
the last page of UENVS. -/
theorem not_memInit_memxv : ∃ s, memInit smallMachine (bss fun _ _ => 0) = .ok () s ∧
    readRange [] endOfMemory = .ok (0xF0500000#32, 0xF0500000#32) ∧
    ¬ MemxvSound s endOfMemory 0xF0500000 0xF0500000 ∧
    readRange [] endOfEnvs = .ok (0xEEC17FFE#32, 0xEEC17FFE#32) ∧
    ¬ MemxvSound s endOfEnvs 0xEEC17FFE 0xEEC17FFE := by
  obtain ⟨s, hs⟩ := memInit_smallMachine fun _ _ => 0
  obtain ⟨fl, hb, -⟩ := memInit_booting hs
  have hmem : s.npages = 1280 := hb.heap.npages.trans detectedPages_smallMachine
  have hkb : kernbase.toNat = 4026531840 := rfl
  have h1 : readRange [] endOfMemory = .ok (0xF0500000#32, 0xF0500000#32) := by decide
  have h2 : readRange [] endOfEnvs = .ok (0xEEC17FFE#32, 0xEEC17FFE#32) := by decide
  refine ⟨s, hs, h1, fun h => ?_, h2, fun h => ?_⟩
  · have hlt := (hb.memxvFits h1 h (inSteps_start (BitVec.le_refl _))).1
    have hend : (0xF0500000#32).toNat = 4031774720 := rfl
    omega
  · -- the 24 pages of envs end at 0xEEC18000
    have hheap := heapBase_smallMachine
    have hpp := pagesPages_le smallMachine
    have hlast : 23 < envsPages := by
      rw [envsPages_eq]
      decide
    have hin : KernMapped s 0xEEC17FFE#32 := by
      rw [KernMapped, hb.entryOf_eq (by decide), show pgnum 0xEEC17FFE#32 = 955 * 1024 + 23 by decide,
        kernelMap_envs smallMachine hlast]
      exact (target_eq_some.mp (target_pageEntry (by omega) pteU_lt)).1
    have hout := (hb.memxvFits h2 h (inSteps_start (BitVec.le_refl _))).2 hin (by decide)
    rw [KernMapped, hb.entryOf_eq (by decide), kernelMap, envsPages_eq,
      show pgnum (0xEEC17FFE#32 + 3) = 955 * 1024 + 24 by decide] at hout
    simp at hout

end Jos
