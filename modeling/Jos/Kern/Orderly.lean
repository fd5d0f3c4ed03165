import Jos.Kern.Owners

/-! Every page in use has one owner, and the kernel's own pages are those of the start. -/
namespace Jos

open Prog

/-- The state the run starts from: only kern_pgdir, which maps nothing below UTOP. -/
structure Origin (m : Machine) (s₀ : Kernel) : Prop where
  system : ∃ fl efl, System m s₀ (bootLedger m kernOwn) fl efl
  free : ∀ e, ¬ Live s₀ e
  bare : ∀ i < 955, target (s₀.pde s₀.kernPgdir i) = none
  kernRefs : ∀ p, refs s₀ (bootLedger m kernOwn) p = 0 ∨
    (refs s₀ (bootLedger m kernOwn) p = 1 ∧ IsKernTable s₀ p)

/-- The pages the kernel keeps outside its tables are referenced no more often than before. -/
def HeldKept (s t : Kernel) (L : Ledger) : Prop :=
  ∀ p < s.npages, L.held p ≠ 0 → (t.pages p).ppRef.toNat ≤ (s.pages p).ppRef.toNat

/-- Every address space apart from the others, and the kernel's own part as at the start. -/
structure Orderly (m : Machine) (s₀ s : Kernel) (L : Ledger) (fl efl : List Nat) : Prop where
  system : System m s L fl efl
  npages : s.npages = s₀.npages
  kernPgdir : s.kernPgdir = s₀.kernPgdir
  kern : SpaceKept s₀ s s₀.kernPgdir
  ref : HeldKept s₀ s L
  apart : SpacesApart s L

section orderly

variable {m : Machine} {mem : Nat → Nat → Word} {s₀ s t : Kernel} {L L' : Ledger}
  {fl fl' efl efl' : List Nat} {d e p : Nat} {V : Nat → Prop}

theorem Origin.of_start (hm : memInit m (bss mem) = .ok () s) (hi : envInit s = .ok () s₀) :
    Origin m s₀ := by
  obtain ⟨fl, efl, hb, hsys, hfree⟩ := system_start hm hi
  obtain ⟨s₁, hs₁, hrest⟩ := envInit_returns s
  rw [hi] at hs₁
  cases hs₁
  have hmem : s₀.mem = s.mem := by rw [hrest]
  have hk : s₀.kernPgdir = s.kernPgdir := by rw [hrest]
  have hkept : ∀ d, SpaceKept s s₀ d := fun d => SpaceKept.of_mem hmem
  have hpde : s₀.pde = s.pde := by
    funext d i
    rw [Kernel.pde, hmem, Kernel.pde]
  have hpte : s₀.pte = s.pte := by
    funext d i j
    rw [Kernel.pte, hpde, hmem, Kernel.pte]
  refine ⟨⟨fl, efl, hsys⟩, fun e he => he.2 (hfree e), ?_, ?_⟩
  · intro i hi
    rw [hpde, hk, Kernel.pde, hb.dir.user_empty hi, target_zero]
  · intro p
    have hrefs : refs s₀ (bootLedger m kernOwn) p = refs s (bootLedger m kernOwn) p := by
      apply Balanced.refs_congr
      rintro (⟨d, i⟩ | ⟨d, i, j⟩) -
      · rw [names, names, hpde]
      · rw [names, names, hpte]
    obtain ⟨htable, hother⟩ := hb.dir.refs_eq p
    rw [hrefs]
    by_cases ht : IsKernTable s p
    · refine Or.inr ⟨htable ht, ?_⟩
      rw [IsKernTable, hpde, hk]
      exact ht
    · exact Or.inl (hother ht)

theorem Origin.orderly (h₀ : Origin m s₀) : ∃ fl efl, Orderly m s₀ s₀ (bootLedger m kernOwn) fl efl := by
  obtain ⟨fl, efl, hsys⟩ := h₀.system
  refine ⟨fl, efl, hsys, rfl, rfl, SpaceKept.refl _ _, fun _ _ _ => le_refl _, ?_⟩
  intro d hd d' hd' hne
  rw [Finset.mem_singleton.mp hd, Finset.mem_singleton.mp hd'] at hne
  exact absurd rfl hne

namespace Orderly

theorem bare (h : Orderly m s₀ s L fl efl) (h₀ : Origin m s₀) :
    ∀ i < 955, target (s.pde s.kernPgdir i) = none := by
  intro i hi
  rw [h.kernPgdir, h.kern.pde i (by omega)]
  exact h₀.bare i hi

theorem kernOwns (h : Orderly m s₀ s L fl efl) : KernOwns s p ↔ KernOwns s₀ p :=
  h.kern.kernOwns h.kernPgdir

theorem held_eq (h : Orderly m s₀ s L fl efl) (h' : Orderly m s₀ t L' fl' efl') : L'.held = L.held :=
  h'.system.held.trans h.system.held.symm

/-- No page of an environment is one the kernel keeps outside its tables. -/
theorem unheld (h : Orderly m s₀ s L fl efl) (h₀ : Origin m s₀) (hd : d ∈ L.dirs)
    (hne : d ≠ s.kernPgdir) (ho : Owns s d p) : L.held p = 0 := by
  by_contra hheld
  obtain ⟨hp, hpos⟩ := h.system.balanced.owns_used hd ho
  obtain ⟨fl₀, efl₀, hsys₀⟩ := h₀.system
  have hle := h.ref p (h.npages ▸ hp) hheld
  have hc := h.system.balanced.count p hp
  have hc₀ := hsys₀.balanced.count p (h.npages ▸ hp)
  have hboot : (bootLedger m kernOwn).held p = L.held p := by rw [h.system.held]
  have hroot : (bootLedger m kernOwn).root p = 0 := by
    apply Ledger.root_of_notMem
    intro hm
    have hbase : p = heapBase m := Finset.mem_singleton.mp hm
    apply hheld
    rw [h.system.held]
    exact if_neg fun hc => hc.2 hbase
  -- a table of kern_pgdir would be the only other use of the page
  rcases h₀.kernRefs p with hz | ⟨hone, htable⟩
  · omega
  · exact h.system.owns_not_kern hd hne ho (h.kernOwns.mpr (Or.inr htable))

/-- A further state: what its kernel part and its counts have to keep. -/
theorem next (h : Orderly m s₀ s L fl efl) (ht : System m t L' fl' efl') (hn : t.npages = s.npages)
    (hk : SpaceKept s t s.kernPgdir) (href : HeldKept s t L) (ha : SpacesApart t L') :
    Orderly m s₀ t L' fl' efl' where
  system := ht
  npages := hn.trans h.npages
  kernPgdir := (ht.kernPgdir.trans h.system.kernPgdir.symm).trans h.kernPgdir
  kern := by
    rw [h.kernPgdir] at hk
    exact h.kern.trans hk
  ref := by
    intro p hp hheld
    rw [ht.held, ← h.system.held] at hheld
    exact (href p (h.npages ▸ hp) hheld).trans (h.ref p hp hheld)
  apart := ha

theorem remapped (h : Orderly m s₀ s L fl efl) (ht : System m t L' fl' efl) (hn : t.npages = s.npages)
    (hdirs : L'.dirs = L.dirs) (hd : d ∈ L.dirs) (hne : d ≠ s.kernPgdir) (hr : Remaps s t L d V)
    (href : HeldKept s t L) (hnew : ∀ v < 955 * 1024, V v → ∀ p, target (t.entry d v) = some p →
      ∀ d' ∈ L.dirs, d' ≠ d → ∀ v' < 955 * 1024, target (t.entry d' v') ≠ some p) :
    Orderly m s₀ t L' fl' efl := by
  have hb := h.system.balanced
  have hkept : ∀ d' ∈ L.dirs, d' ≠ d → SpaceKept s t d' := fun d' hd' hne => hr.spaceKept hb hd' hne
  have hself : ∀ v < 955 * 1024, ∀ p, target (t.entry d v) = some p → ∀ d' ∈ L.dirs, d' ≠ d →
      ∀ v' < 955 * 1024, target (t.entry d' v') ≠ some p := by
    intro v hv p hp d' hd' hne v' hv'
    by_cases hV : V v
    · exact hnew v hv hV p hp d' hd' hne v' hv'
    · rw [hr.entry hb hd hv fun _ => hV] at hp
      rw [(hkept d' hd' hne).entry v' hv']
      exact h.apart d hd d' hd' (Ne.symm hne) v hv v' hv' p hp
  refine h.next ht hn (hkept _ h.system.mem_kern (Ne.symm hne)) href ?_
  intro d₁ hd₁ d₂ hd₂ hdd v hv v' hv' p hp hp'
  rw [hdirs] at hd₁ hd₂
  by_cases h1 : d₁ = d
  · subst h1
    exact hself v hv p hp d₂ hd₂ (Ne.symm hdd) v' hv' hp'
  by_cases h2 : d₂ = d
  · subst h2
    exact hself v' hv' p hp' d₁ hd₁ h1 v hv hp
  rw [(hkept d₁ hd₁ h1).entry v hv] at hp
  rw [(hkept d₂ hd₂ h2).entry v' hv'] at hp'
  exact h.apart d₁ hd₁ d₂ hd₂ hdd v hv v' hv' p hp hp'

/-- When one address space changes, its pages are those of its old ones and of the unused ones that
are in use now. -/
theorem owns_iff (h₀ : Origin m s₀) (h : Orderly m s₀ s L fl efl) (h' : Orderly m s₀ t L' fl' efl')
    (hdirs : L'.dirs = L.dirs) (hd : d ∈ L.dirs) (hne : d ≠ s.kernPgdir)
    (hkept : ∀ d' ∈ L.dirs, d' ≠ d → SpaceKept s t d') (p : Nat) : Owns t d p ↔
      p < t.npages ∧ (t.pages p).ppRef ≠ 0 ∧ (Owns s d p ∨ (s.pages p).ppRef = 0) := by
  have hk : t.kernPgdir = s.kernPgdir := h'.kernPgdir.trans h.kernPgdir.symm
  have hn : t.npages = s.npages := h'.npages.trans h.npages.symm
  have hd' : d ∈ L'.dirs := hdirs ▸ hd
  have hne' : d ≠ t.kernPgdir := hk ▸ hne
  have hkern : KernOwns t p ↔ KernOwns s p := h'.kernOwns.trans h.kernOwns.symm
  have hheld := h.held_eq h'
  constructor
  · intro ho
    have hp := (h'.system.balanced.owns_used hd' ho).1
    refine ⟨hp, h'.system.balanced.owns_ref hd' ho, ?_⟩
    by_contra hnew
    rw [not_or] at hnew
    rcases (h.system.referenced_iff (h.bare h₀) (hn ▸ hp)).mp hnew.2 with hh | hks | ⟨x, hx, hxk, hox⟩
    · rw [← hheld] at hh
      exact hh (h'.unheld h₀ hd' hne' ho)
    · exact h'.system.owns_not_kern hd' hne' ho (hkern.mpr hks)
    · have hxd : x ≠ d := by
        rintro rfl
        exact hnew.1 hox
      have hox' := (hkept x hx hxd).owns.mpr hox
      exact h'.system.owns_disjoint h'.apart hd' (hdirs ▸ hx) (Ne.symm hxd) ho hox'
  · rintro ⟨hp, href, hold⟩
    have hps : p < s.npages := hn ▸ hp
    have hunused : (s.pages p).ppRef = 0 → ¬ (L.held p ≠ 0 ∨ KernOwns s p ∨
        ∃ d ∈ L.dirs, d ≠ s.kernPgdir ∧ Owns s d p) := by
      intro h0 hused
      exact (h.system.referenced_iff (h.bare h₀) hps).mpr hused h0
    rcases (h'.system.referenced_iff (h'.bare h₀) hp).mp href with hh | hkt | ⟨x, hx, hxk, hox⟩
    · rw [hheld] at hh
      rcases hold with ho | h0
      · exact absurd (h.unheld h₀ hd hne ho) hh
      · exact absurd (Or.inl hh) (hunused h0)
    · rcases hold with ho | h0
      · exact absurd (hkern.mp hkt) (h.system.owns_not_kern hd hne ho)
      · exact absurd (Or.inr (Or.inl (hkern.mp hkt))) (hunused h0)
    · by_cases hxd : x = d
      · exact hxd ▸ hox
      · rw [hdirs] at hx
        have hoxs := (hkept x hx hxd).owns.mp hox
        rcases hold with ho | h0
        · exact absurd hoxs (h.system.owns_disjoint h.apart hd hx (Ne.symm hxd) ho)
        · exact absurd (Or.inr (Or.inr ⟨x, hx, hk ▸ hxk, hoxs⟩)) (hunused h0)

end Orderly

end orderly

section calls

variable {m : Machine} {s₀ s t u : Kernel} {L L' : Ledger} {fl fl' efl efl' : List Nat}
  {d e n p q v x : Nat} {taken taken' : Nat → Set Nat} {b : Binary} {parent va perm : Word}

theorem ppRef_allocated : (((s.setupVm e p).fillSlot e parent).pages x).ppRef =
    (s.pages x).ppRef + if x = p then 1 else 0 := by
  change ((s.setupVm e p).pages x).ppRef = _
  rw [setupVm_rest]
  change ((((s.fill p 1024 0#32).take p).incRef p).pages x).ppRef = _
  rw [Kernel.ppRef_incRef, Kernel.ppRef_take]
  rfl

/-- A new environment has its directory, and nothing else. -/
theorem System.allocated_owns (h : System m s L (p :: fl) (e :: efl)) (parent : Word) :
    Owns ((s.setupVm e p).fillSlot e parent) p x ↔ x = p := by
  have hne : p ≠ s.kernPgdir := by
    rintro rfl
    exact h.balanced.free_dir (by simp) h.mem_kern
  constructor
  · rintro (rfl | ⟨i, hi, hx⟩ | ⟨v, hv, hx⟩)
    · rfl
    · have hpde : ((s.setupVm e p).fillSlot e parent).pde p i = (s.setupVm e p).mem p i := rfl
      rw [hpde, mem_setupVm hne, pdx_uvpt, pdx_utop, if_pos ⟨rfl, by omega⟩, if_neg (by omega),
        if_neg (by omega), target_zero] at hx
      cases hx
    · rw [h.allocated_empty parent hv, target_zero] at hx
      cases hx
  · exact Or.inl

namespace HeldKept

theorem trans (h : HeldKept s t L) (h' : HeldKept t u L) (hn : t.npages = s.npages) : HeldKept s u L := by
  intro p hp hheld
  exact (h' p (hn ▸ hp) hheld).trans (h p hp hheld)

theorem of_pages (h : t.pages = s.pages) : HeldKept s t L := by
  intro p _ _
  rw [h]

theorem of_region (h : RegionMapped s t L fl fl' d v n) (hb : Balanced s L fl) : HeldKept s t L := by
  intro p hp hheld
  have hle := h.ref p hp
  have hc := hb.count p hp
  omega

theorem of_allocated (h : Balanced s L (p :: fl)) : HeldKept s ((s.setupVm e p).fillSlot e parent) L := by
  intro x _ hheld
  have hp : p ∈ p :: fl := List.mem_cons_self
  have hxp : x ≠ p := by
    rintro rfl
    exact hheld (h.unreferenced (h.free_lt hp) (h.free_ref hp)).2.2
  rw [ppRef_allocated, if_neg hxp]
  simp

end HeldKept

/-- A page that is neither free nor part of the address space of `d` keeps its contents, and is still
neither. -/
def OthersKept (s t : Kernel) (fl fl' : List Nat) (d : Nat) : Prop :=
  ∀ p, p ∉ fl → ¬ Owns s d p → t.mem p = s.mem p ∧ p ∉ fl' ∧ ¬ Owns t d p

namespace OthersKept

theorem refl (s : Kernel) (fl : List Nat) (d : Nat) : OthersKept s s fl fl d := fun _ hp ho => ⟨rfl, hp, ho⟩

theorem trans {fl'' : List Nat} (h : OthersKept s t fl fl' d) (h' : OthersKept t u fl' fl'' d) :
    OthersKept s u fl fl'' d := by
  intro p hp ho
  obtain ⟨hmem, hp', ho'⟩ := h p hp ho
  obtain ⟨hmem', hp'', ho''⟩ := h' p hp' ho'
  exact ⟨hmem'.trans hmem, hp'', ho''⟩

theorem of_region (h : RegionMapped s t L fl fl' d v n) (hv : v + n ≤ 955 * 1024) :
    OthersKept s t fl fl' d := by
  intro p hp ho
  obtain ⟨hmem, ho'⟩ := h.kept p hp ho
  refine ⟨hmem, fun hf => ?_, ho'⟩
  rcases h.free p hf with hf | ⟨k, hk, he⟩
  · exact hp hf
  · exact ho (.inr (.inr ⟨v + k, by omega, he⟩))

theorem of_written {W : Word → Option Byte} (h : Written s t L d W) (hd : d ∈ L.dirs)
    (hown : ∀ i < 955, i ∈ L.own d) : OthersKept s t fl fl d := by
  refine fun p hp ho => ⟨h.mem p fun v hv he => ho (.inr (.inr ⟨v, hv, he⟩)), hp, fun ho' => ho ?_⟩
  rcases ho' with he | ⟨i, hi, he⟩ | ⟨v, hv, he⟩
  · exact .inl he
  · exact .inr (.inl ⟨i, hi, h.pde d hd i ▸ he⟩)
  · exact .inr (.inr ⟨v, hv, h.entry hd hown hv ▸ he⟩)

end OthersKept

/-- load_icode, at the end of any of its rounds. -/
theorem System.loadIcode_rounds (h : System m s L fl efl) (hl : Live s e) (hd : (s.envs e).envPgdir = some d)
    (hsole : Sole s d) (hb : b.BelowUtop) {k : Nat} (hk : k ≤ b.rounds) :
    Ensures (forRange (fun k => loadSegment e b (b.proghdr k)) k) (s.loadCr3 d) fun _ u =>
      ∃ fl', Loading m (s.loadCr3 d) u L fl' efl d ∧ OthersKept (s.loadCr3 d) u fl fl' d ∧
        HeldKept (s.loadCr3 d) u L := by
  have hdm := h.env_mem hl hd
  have hstart : Loading m (s.loadCr3 d) (s.loadCr3 d) L fl efl d :=
    ⟨h.loadCr3 d, Kernel.Paging.refl _, Remaps.of_mem rfl, hsole⟩
  refine forRange_ensures
    (I := fun _ u => ∃ fl', Loading m (s.loadCr3 d) u L fl' efl d ∧ OthersKept (s.loadCr3 d) u fl fl' d ∧
      HeldKept (s.loadCr3 d) u L)
    ⟨fl, hstart, OthersKept.refl _ _ _, HeldKept.of_pages rfl⟩ ?_
  rintro i hi u ⟨fl', hu, hkept, hheld⟩
  by_cases hload : (b.proghdr i).pType = elfProgLoad
  · have hbelow := hb i (by omega) hload
    refine (hu.segment hdm rfl hd hbelow hload).mono ?_
    rintro ⟨⟩ w ⟨t₁, fl₁, hr, hw, hu', -⟩
    have hend : pgnum (b.proghdr i).pVa + ((b.proghdr i).pMemsz.toNat + 4095) / 4096 ≤ 955 * 1024 := by
      have hle := hbelow.1
      rw [toNat_utop] at hle
      rw [pgnum_eq]
      omega
    have hpages : w.pages = t₁.pages := by rw [hw.rest]
    refine ⟨fl₁, hu', (hkept.trans (OthersKept.of_region hr hend)).trans ?_, ?_⟩
    · exact OthersKept.of_written hw hdm fun i hi => hr.balanced.own_user d hdm i hi
    · exact (hheld.trans (HeldKept.of_region hr hu.system.balanced) hu.paging.npages).trans
        (HeldKept.of_pages hpages) (hr.paging.npages.trans hu.paging.npages)
  · intro _ w hw
    rw [loadSegment, if_neg hload] at hw
    obtain ⟨-, rfl⟩ := pure_eq_ok.mp hw
    exact ⟨fl', hu, hkept, hheld⟩

theorem System.loadIcode_heldKept (h : System m s L fl efl) (hl : Live s e)
    (hd : (s.envs e).envPgdir = some d) (hsole : Sole s d) (hb : b.BelowUtop)
    (hrun : Jos.loadIcode e b s = .ok () t) : HeldKept s t L ∧ t.npages = s.npages := by
  obtain ⟨u, v, hloop, hstack, -, rfl⟩ := loadIcode_eq_ok hd hrun
  obtain ⟨fl₁, hu, -, hheld⟩ := h.loadIcode_rounds hl hd hsole hb le_rfl () u hloop
  obtain ⟨fl₂, hr, -⟩ := hu.stack (h.env_mem hl hd) hd hstack
  have hlast := HeldKept.of_region hr (hu.system.loadCr3 _).balanced
  exact ⟨hheld.trans hlast hu.paging.npages, hr.paging.npages.trans hu.paging.npages⟩

theorem Orderly.allocated (h : Orderly m s₀ s L (p :: fl) (e :: efl)) (parent : Word) :
    Orderly m s₀ ((s.setupVm e p).fillSlot e parent) (L.addDir p) fl efl := by
  have hkept : ∀ d ∈ L.dirs, SpaceKept s ((s.setupVm e p).fillSlot e parent) d :=
    fun d hd => h.system.spaceKept_allocated hd parent
  refine h.next (h.system.allocated parent) ?_ (hkept _ h.system.mem_kern)
    (HeldKept.of_allocated h.system.balanced)
    (h.apart.addDir hkept fun v hv => h.system.allocated_empty parent hv)
  change (s.setupVm e p).npages = _
  rw [setupVm_rest]

/-- env_create writes only pages that were free. -/
theorem System.envCreate_kept (h : System m s L fl efl) {type : EnvType} (hb : b.BelowUtop)
    (hrun : envCreate b type s = .ok () t) (hp : p ∉ fl) : t.mem p = s.mem p := by
  obtain ⟨e, efl', q, fl', u, rfl, rfl, rfl, hsys, hl, hd, hempty, hload⟩ := envCreate_eq_ok h hrun
  obtain ⟨hpq, hp'⟩ := not_or.mp (List.mem_cons.not.mp hp)
  have hqk : q ≠ s.kernPgdir := by
    rintro rfl
    exact h.balanced.free_dir List.mem_cons_self h.mem_kern
  have hstart : ((s.setupVm e q).fillSlot e 0).mem p = s.mem p := by
    funext j
    change (s.setupVm e q).mem p j = _
    rw [mem_setupVm hqk, if_neg fun hc => hpq hc.1]
  obtain ⟨v, w, hloop, hstack, -, rfl⟩ := loadIcode_eq_ok hd hload
  obtain ⟨fl₁, hv, hkept, -⟩ := hsys.loadIcode_rounds hl hd (Sole.of_empty hempty) hb le_rfl () v hloop
  obtain ⟨hmem, hfl₁, hown⟩ := hkept p hp' fun ho => hpq ((h.allocated_owns 0).mp ho)
  obtain ⟨fl₂, hr, -⟩ := hv.stack (hsys.env_mem hl hd) hd hstack
  exact ((hr.kept p hfl₁ hown).1.trans hmem).trans hstart

theorem System.reserved_notFree (h : System m s L fl efl) (hp : Reserved m p) : p ∉ fl := by
  intro hf
  have hheld := (h.balanced.unreferenced (h.balanced.free_lt hf) (h.balanced.free_ref hf)).2.2
  have hne : p ≠ heapBase m := by
    rintro rfl
    exact h.balanced.free_dir hf (h.kernPgdir ▸ h.mem_kern)
  rw [h.held] at hheld
  change (if Reserved m p ∧ p ≠ heapBase m then 1 else 0) = 0 at hheld
  rw [if_pos ⟨hp, hne⟩] at hheld
  cases hheld

/-- The image at `start`, as the kernel reads it in its own memory. -/
def Kernel.imageAt (s : Kernel) (start : Word) : Binary :=
  ⟨start, fun off => s.pageByte (pgnum (start + off - kernbase)) (pgoff (start + off))⟩

/-- An image linked into the kernel lies in reserved pages, so loading it leaves it as it is. -/
theorem SysRun.imageAt_envCreate {mem : Nat → Nat → Word} {type : EnvType} {start off : Word}
    (h : SysRun m mem s) (hb : (s.imageAt start).BelowUtop)
    (hrun : envCreate (s.imageAt start) type s = .ok () t)
    (hoff : Reserved m (pgnum (start + off - kernbase))) :
    (t.imageAt start).bytes off = (s.imageAt start).bytes off := by
  obtain ⟨L, fl, efl, hsys⟩ := h.system
  have hmem := hsys.envCreate_kept hb hrun (hsys.reserved_notFree hoff)
  simp only [Kernel.imageAt, Kernel.pageByte, hmem]

end calls

end Jos
