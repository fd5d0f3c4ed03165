import Jos.Kern.SysRuns

/-! Which pages belong to which address space, and what a page in use belongs to. -/
namespace Jos

/-- kern_pgdir and its page tables. -/
def KernOwns (s : Kernel) (p : Nat) : Prop := p = s.kernPgdir ∨ IsKernTable s p

/-- No page is mapped below UTOP under two directories. -/
def SpacesApart (s : Kernel) (L : Ledger) : Prop :=
  ∀ d ∈ L.dirs, ∀ d' ∈ L.dirs, d ≠ d' → ∀ v < 955 * 1024, ∀ v' < 955 * 1024, ∀ p,
    target (s.entry d v) = some p → target (s.entry d' v') ≠ some p

/-- Directory `d` has the same entries in `t` as in `s`, and below UTOP so have its tables. -/
structure SpaceKept (s t : Kernel) (d : Nat) : Prop where
  pde : ∀ i < 1024, t.pde d i = s.pde d i
  entry : ∀ v < 955 * 1024, t.entry d v = s.entry d v

section same

variable {m : Machine} {s t u : Kernel} {L : Ledger} {fl efl : List Nat} {d d' e p : Nat} {w : Word}
  {V : Nat → Prop}

namespace SpaceKept

theorem refl (s : Kernel) (d : Nat) : SpaceKept s s d where
  pde := fun _ _ => rfl
  entry := fun _ _ => rfl

theorem trans (h : SpaceKept s t d) (h' : SpaceKept t u d) : SpaceKept s u d where
  pde := fun i hi => (h'.pde i hi).trans (h.pde i hi)
  entry := fun v hv => (h'.entry v hv).trans (h.entry v hv)

theorem of_mem (h : t.mem = s.mem) : SpaceKept s t d := by
  have hpde : t.pde = s.pde := by
    funext d i
    rw [Kernel.pde, h, Kernel.pde]
  refine ⟨fun i _ => by rw [hpde], fun v _ => ?_⟩
  rw [Kernel.entry, Kernel.entry, Kernel.pte, Kernel.pte, hpde, h]

theorem owns (h : SpaceKept s t d) : Owns t d p ↔ Owns s d p := by
  have hpde : (∃ i < 955, target (t.pde d i) = some p) ↔ ∃ i < 955, target (s.pde d i) = some p := by
    constructor
    · rintro ⟨i, hi, hp⟩
      exact ⟨i, hi, h.pde i (by omega) ▸ hp⟩
    · rintro ⟨i, hi, hp⟩
      exact ⟨i, hi, (h.pde i (by omega)).symm ▸ hp⟩
  have hentry : (∃ v < 955 * 1024, target (t.entry d v) = some p) ↔
      ∃ v < 955 * 1024, target (s.entry d v) = some p := by
    constructor
    · rintro ⟨v, hv, hp⟩
      exact ⟨v, hv, h.entry v hv ▸ hp⟩
    · rintro ⟨v, hv, hp⟩
      exact ⟨v, hv, (h.entry v hv).symm ▸ hp⟩
  rw [Owns, Owns, hpde, hentry]

theorem kernOwns (h : SpaceKept s t s.kernPgdir) (hk : t.kernPgdir = s.kernPgdir) :
    KernOwns t p ↔ KernOwns s p := by
  rw [KernOwns, KernOwns, hk, IsKernTable, IsKernTable, hk]
  constructor
  · rintro (rfl | ⟨i, hi, hne, hp⟩)
    · exact Or.inl rfl
    · exact Or.inr ⟨i, hi, hne, h.pde i hi ▸ hp⟩
  · rintro (rfl | ⟨i, hi, hne, hp⟩)
    · exact Or.inl rfl
    · exact Or.inr ⟨i, hi, hne, (h.pde i hi).symm ▸ hp⟩

end SpaceKept

theorem Remaps.spaceKept (h : Remaps s t L d V) (hb : Balanced s L fl) (hd' : d' ∈ L.dirs)
    (hne : d' ≠ d) : SpaceKept s t d' where
  pde := fun i _ => h.pde d' hd' i fun he => absurd he hne
  entry := fun _ hv => h.entry hb hd' hv fun he => absurd he hne

theorem Spares.spaceKept (h : Spares s t L d) (hb : Balanced s L fl) (hd' : d' ∈ L.dirs)
    (hne : d' ≠ d) : SpaceKept s t d' where
  pde := fun i _ => h.pde d' hd' hne i
  entry := fun v hv => h.pte d' hd' hne _ (hb.own_user d' hd' _ (by omega)) _ (Nat.mod_lt v (by decide))

theorem Balanced.spaceKept_storeData (h : Balanced s L fl) (hp : IsData s L p) (hd : d ∈ L.dirs)
    (j : Nat) (w : Word) : SpaceKept s (s.store p j w) d where
  pde := fun _ _ => pde_storeData hp hd
  entry := fun v _ => pte_storeData hp hd (h.own_user d hd _ (by omega))

/-- A page handed out was in no table. -/
theorem Balanced.spaceKept_handOut (h : Balanced s L (p :: fl)) (hd : d ∈ L.dirs) (flags : Word) :
    SpaceKept s (s.handOut flags p) d := by
  have hp : p ∈ p :: fl := List.mem_cons_self
  obtain ⟨hrefs, hdir, -⟩ := h.unreferenced (h.free_lt hp) (h.free_ref hp)
  have hmem : ∀ x ≠ p, (s.handOut flags p).mem x = s.mem x := by
    intro x hx
    unfold Kernel.handOut
    split
    · funext k
      exact Kernel.mem_fill_of_ne hx
    · rfl
  have hpde : ∀ i, (s.handOut flags p).pde d i = s.pde d i := by
    intro i
    rw [Kernel.pde, hmem d fun he => hdir (he ▸ hd), Kernel.pde]
  refine ⟨fun i _ => hpde i, fun v hv => ?_⟩
  apply Kernel.pte_congr (hpde _)
  intro x hx
  rw [hmem]
  rintro rfl
  exact Balanced.table_ne_of_refs hrefs hd (h.own_user d hd _ (by omega)) hx

theorem System.spaceKept_allocated (h : System m s L (p :: fl) (e :: efl)) (hd : d ∈ L.dirs)
    (parent : Word) : SpaceKept s ((s.setupVm e p).fillSlot e parent) d where
  pde := fun i _ => h.allocated_pde hd i parent
  entry := fun _ _ => h.allocated_pte hd (h.balanced.own_user d hd _ (by omega)) _ parent

end same

section owners

variable {m : Machine} {s t : Kernel} {L : Ledger} {fl efl : List Nat} {d d' i p v : Nat}

/-- The pages of an address space are counted. -/
theorem Balanced.owns_used (h : Balanced s L fl) (hd : d ∈ L.dirs) (ho : Owns s d p) :
    p < s.npages ∧ 0 < refs s L p + L.root p := by
  rcases ho with rfl | ⟨i, hi, hp⟩ | ⟨v, hv, hp⟩
  · exact ⟨h.dir_lt p hd, by rw [Ledger.root_of_mem hd]; omega⟩
  · have hown := h.own_user d hd i hi
    have hx : Sum.inl ⟨d, i⟩ ∈ L.slots := Ledger.inl_mem_slots.mpr ⟨hd, hown⟩
    have hpos : 0 < refs s L p := RefCount.refs_pos_iff.mpr ⟨_, hx, hp⟩
    exact ⟨(h.table d hd i hown p hp).1, by omega⟩
  · have hi : v / 1024 < 955 := by omega
    have hj : v % 1024 < 1024 := Nat.mod_lt v (by decide)
    have hx : Sum.inr (d, v / 1024, v % 1024) ∈ L.slots := Ledger.inr_mem_slots.mpr ⟨hd, hi, hj⟩
    have hpos : 0 < refs s L p := RefCount.refs_pos_iff.mpr ⟨_, hx, hp⟩
    exact ⟨h.mapped d hd _ hi _ hj p hp, by omega⟩

theorem Balanced.owns_ref (h : Balanced s L fl) (hd : d ∈ L.dirs) (ho : Owns s d p) :
    (s.pages p).ppRef ≠ 0 := by
  obtain ⟨hp, hpos⟩ := h.owns_used hd ho
  have hc := h.count p hp
  intro h0
  rw [h0] at hc
  change 0 = _ at hc
  omega

namespace System

theorem kernTable_own (h : System m s L fl efl) (hi : i < 1024) (hne : i ≠ pdx uvpt) :
    i ∈ L.own s.kernPgdir := by
  rw [h.own_kern, mem_kernOwn, ← pdx_uvpt]
  exact ⟨hi, hne⟩

/-- A mapped page is neither a directory nor a table. -/
theorem entry_data (h : System m s L fl efl) (hd : d ∈ L.dirs) (hv : v < 955 * 1024)
    (hp : target (s.entry d v) = some p) : IsData s L p ∧ L.held p = 0 :=
  h.data d hd _ (by omega) _ (Nat.mod_lt v (by decide)) p hp

/-- A page belongs to one address space only. -/
theorem owns_disjoint (h : System m s L fl efl) (ha : SpacesApart s L) (hd : d ∈ L.dirs)
    (hd' : d' ∈ L.dirs) (hne : d ≠ d') (ho : Owns s d p) : ¬ Owns s d' p := by
  have hb := h.balanced
  rcases ho with rfl | ⟨i, hi, hp⟩ | ⟨v, hv, hp⟩
  · rintro (rfl | ⟨i', hi', hp'⟩ | ⟨v', hv', hp'⟩)
    · exact hne rfl
    · exact (hb.table d' hd' i' (hb.own_user d' hd' i' hi') p hp').2 hd
    · exact (h.entry_data hd' hv' hp').1.1 hd
  · have hown := hb.own_user d hd i hi
    rintro (rfl | ⟨i', hi', hp'⟩ | ⟨v', hv', hp'⟩)
    · exact (hb.table d hd i hown p hp).2 hd'
    · exact hne (hb.table_inj d hd i hown d' hd' i' (hb.own_user d' hd' i' hi') p hp hp').1
    · exact (h.entry_data hd' hv' hp').1.2 d hd i hown hp
  · have hdata := (h.entry_data hd hv hp).1
    rintro (rfl | ⟨i', hi', hp'⟩ | ⟨v', hv', hp'⟩)
    · exact hdata.1 hd'
    · exact hdata.2 d' hd' i' (hb.own_user d' hd' i' hi') hp'
    · exact ha d hd d' hd' hne v hv v' hv' p hp hp'

/-- The kernel's own pages belong to no environment. -/
theorem owns_not_kern (h : System m s L fl efl) (hd : d ∈ L.dirs) (hne : d ≠ s.kernPgdir)
    (ho : Owns s d p) : ¬ KernOwns s p := by
  have hb := h.balanced
  rintro (rfl | ⟨k, hk, hku, hpk⟩)
  · rcases ho with he | ⟨i, hi, hp⟩ | ⟨v, hv, hp⟩
    · exact hne he.symm
    · exact (hb.table d hd i (hb.own_user d hd i hi) _ hp).2 h.mem_kern
    · exact (h.entry_data hd hv hp).1.1 h.mem_kern
  · have hown := h.kernTable_own hk hku
    rcases ho with rfl | ⟨i, hi, hp⟩ | ⟨v, hv, hp⟩
    · exact (hb.table _ h.mem_kern k hown p hpk).2 hd
    · exact hne (hb.table_inj d hd i (hb.own_user d hd i hi) _ h.mem_kern k hown p hp hpk).1
    · exact (h.entry_data hd hv hp).1.2 _ h.mem_kern k hown hpk

/-- While kern_pgdir maps nothing below UTOP, a page in use is held, the kernel's, or part of the
address space of an environment. -/
theorem referenced_iff (h : System m s L fl efl) (hbare : ∀ i < 955, target (s.pde s.kernPgdir i) = none)
    (hp : p < s.npages) : (s.pages p).ppRef ≠ 0 ↔ L.held p ≠ 0 ∨ KernOwns s p ∨
      ∃ d ∈ L.dirs, d ≠ s.kernPgdir ∧ Owns s d p := by
  have hb := h.balanced
  have hc := hb.count p hp
  constructor
  · intro hne
    have hpos : 0 < (s.pages p).ppRef.toNat := by
      rw [Nat.pos_iff_ne_zero]
      intro h0
      exact hne (BitVec.eq_of_toNat_eq h0)
    by_cases hheld : L.held p = 0
    swap
    · exact Or.inl hheld
    refine Or.inr ?_
    by_cases hroot : p ∈ L.dirs
    · by_cases hk : p = s.kernPgdir
      · exact Or.inl (Or.inl hk)
      · exact Or.inr ⟨p, hroot, hk, Or.inl rfl⟩
    rw [Ledger.root_of_notMem hroot] at hc
    have hrefs : 0 < refs s L p := by omega
    obtain ⟨x, hx, hname⟩ := RefCount.refs_pos_iff.mp hrefs
    rcases x with ⟨d, i⟩ | ⟨d, i, j⟩
    · rw [Ledger.inl_mem_slots] at hx
      obtain ⟨hd, hi⟩ := hx
      by_cases hk : d = s.kernPgdir
      · subst hk
        rw [h.own_kern, mem_kernOwn, ← pdx_uvpt] at hi
        exact Or.inl (Or.inr ⟨i, hi.1, hi.2, hname⟩)
      · rw [h.own_env d hd hk, Ledger.mem_userEntries] at hi
        exact Or.inr ⟨d, hd, hk, Or.inr (Or.inl ⟨i, hi, hname⟩)⟩
    · rw [Ledger.inr_mem_slots] at hx
      obtain ⟨hd, hi, hj⟩ := hx
      have hk : d ≠ s.kernPgdir := by
        rintro rfl
        rw [names, Kernel.pte_of_no_table (hbare i hi), target_zero] at hname
        cases hname
      refine Or.inr ⟨d, hd, hk, Or.inr (Or.inr ⟨i * 1024 + j, by omega, ?_⟩)⟩
      rw [Kernel.entry, show (i * 1024 + j) / 1024 = i by omega, show (i * 1024 + j) % 1024 = j by omega]
      exact hname
  · intro hused h0
    rw [h0] at hc
    change 0 = _ at hc
    rcases hused with hheld | (rfl | ⟨i, hi, hne, hname⟩) | ⟨d, hd, -, ho⟩
    · omega
    · rw [Ledger.root_of_mem h.mem_kern] at hc
      omega
    · have hx : Sum.inl ⟨s.kernPgdir, i⟩ ∈ L.slots :=
        Ledger.inl_mem_slots.mpr ⟨h.mem_kern, h.kernTable_own hi hne⟩
      have hpos : 0 < refs s L p := RefCount.refs_pos_iff.mpr ⟨_, hx, hname⟩
      omega
    · have hpos := (hb.owns_used hd ho).2
      omega

end System

end owners

section apart

variable {m : Machine} {s t : Kernel} {L L' : Ledger} {fl efl : List Nat} {d p : Nat}

namespace SpacesApart

theorem of_kept (h : SpacesApart s L) (hdirs : ∀ d ∈ L'.dirs, d ∈ L.dirs)
    (hkept : ∀ d ∈ L'.dirs, SpaceKept s t d) : SpacesApart t L' := by
  intro d hd d' hd' hne v hv v' hv' p hp
  rw [(hkept d hd).entry v hv] at hp
  rw [(hkept d' hd').entry v' hv']
  exact h d (hdirs d hd) d' (hdirs d' hd') hne v hv v' hv' p hp

/-- A new directory that maps nothing. -/
theorem addDir (h : SpacesApart s L) (hkept : ∀ d ∈ L.dirs, SpaceKept s t d)
    (hempty : ∀ v < 955 * 1024, t.entry p v = 0#32) : SpacesApart t (L.addDir p) := by
  have hnone : ∀ v < 955 * 1024, ∀ q, target (t.entry p v) ≠ some q := by
    intro v hv q hq
    rw [hempty v hv, target_zero] at hq
    cases hq
  intro d hd d' hd' hne v hv v' hv' q hq hq'
  rcases Ledger.mem_dirs_addDir.mp hd with rfl | hd
  · exact hnone v hv q hq
  rcases Ledger.mem_dirs_addDir.mp hd' with rfl | hd'
  · exact hnone v' hv' q hq'
  rw [(hkept d hd).entry v hv] at hq
  rw [(hkept d' hd').entry v' hv'] at hq'
  exact h d hd d' hd' hne v hv v' hv' q hq hq'

end SpacesApart

end apart

end Jos
