import Jos.Kern.System

/-! env_alloc and env_free on the address spaces: a directory comes, and goes with all its pages. -/
namespace Jos

open Prog

section setup

variable {m : Machine} {s t : Kernel} {L : Ledger} {fl efl : List Nat} {d e i j p q : Nat}
  {st : Option Nat} {parent : Word}

/-- The page env_setup_vm takes becomes a directory that is empty below UTOP. -/
theorem Balanced.setupVm (h : Balanced s L (p :: fl)) (hk : s.kernPgdir ∈ L.dirs) :
    Balanced (s.setupVm e p) (L.addDir p) fl := by
  have hpf : p ∈ p :: fl := by simp
  have hp : p < s.npages := h.free_lt hpf
  obtain ⟨hrefs, hdir, -⟩ := h.unreferenced hp (h.free_ref hpf)
  have hne : p ≠ s.kernPgdir := fun he => hdir (he ▸ hk)
  have hpl : p ∉ L.loose := ((h.mem_free p).mp hpf).2.2
  have htab : ∀ d ∈ L.dirs, ∀ i ∈ L.own d, target (s.pde d i) ≠ some p :=
    fun d hd i hi => Balanced.table_ne_of_refs hrefs hd hi
  have h1 := (h.fill hdir htab 1024 0#32).take
  have hnf : p ∉ fl := (List.nodup_cons.mp h.nodup).1
  have h2 := h1.incRef (p := p) hp hnf (by
    rw [Kernel.ppRef_take]
    change (s.pages p).ppRef.toNat < 65535
    rw [h.free_ref hpf]
    decide)
  rw [Ledger.settle_loosen hpl] at h2
  -- the copying stores to the new page only
  have hmem : ∀ x k, x ≠ p → (s.setupVm e p).mem x k = s.mem x k := by
    intro x k hx
    rw [mem_setupVm hne, if_neg fun hc => hx hc.1]
  have hpde : ∀ d ∈ L.dirs, ∀ i, (s.setupVm e p).pde d i = s.pde d i := by
    intro d hd i
    apply hmem
    rintro rfl
    exact hdir hd
  have hpde' : ∀ d ∈ L.dirs, ∀ i, (((s.fill p 1024 0#32).take p).incRef p).pde d i = s.pde d i := by
    intro d hd i
    apply Kernel.mem_fill_of_ne
    rintro rfl
    exact hdir hd
  have hrest := setupVm_rest s e p
  have h3 : Balanced (s.setupVm e p) (L.hold p) fl := by
    refine h2.congr ?_ ?_ ?_ ?_ ?_
    · rw [hrest]
      rfl
    · rw [hrest]
    · rw [hrest]
    · intro d hd i _
      rw [hpde d hd, hpde' d hd]
    · intro d hd i hi k _
      have hi' := h.own_user d hd i hi
      apply Kernel.pte_congr
      · rw [hpde d hd, hpde' d hd]
      · intro t ht
        rw [hpde' d hd] at ht
        have htp : t ≠ p := by
          rintro rfl
          exact htab d hd i hi' ht
        rw [hmem t k htp]
        exact (Kernel.mem_fill_of_ne htp).symm
  refine h3.addDir ?_ hdir ?_ ?_
  · rw [hrest]
    exact hp
  · intro d hd i hi
    rw [hpde d hd]
    exact htab d hd i hi
  · intro i hi
    rw [Kernel.pde, mem_setupVm hne, if_pos ⟨rfl, by omega⟩, pdx_uvpt, pdx_utop, if_neg (by omega),
      if_neg (by omega), target_zero]

theorem fillSlot_envs (s : Kernel) (e p : Nat) (parent : Word) : ((s.setupVm e p).fillSlot e parent).envs =
    Function.update s.envs e (newEnv (s.envs e) e p parent) := by
  have henvs : (s.setupVm e p).envs = Function.update s.envs e { s.envs e with envPgdir := some p } := by
    rw [setupVm_rest]
  change Function.update (s.setupVm e p).envs e { (s.setupVm e p).envs e with
    envId := nextEnvId ((s.setupVm e p).envs e).envId e
    envParentId := parent
    envType := .user
    envStatus := .runnable
    envRuns := 0
    envTf := freshTrapframe } = _
  rw [henvs, Function.update_idem, Function.update_self]
  rfl

theorem allocated_kernPgdir : ((s.setupVm e p).fillSlot e parent).kernPgdir = s.kernPgdir := by
  change (s.setupVm e p).kernPgdir = _
  rw [setupVm_rest]

/-- The new directory takes a free page, which no other directory reaches. -/
theorem System.allocated_pde (h : System m s L (p :: fl) efl) (hd : d ∈ L.dirs) (i : Nat) (parent : Word) :
    ((s.setupVm e p).fillSlot e parent).pde d i = s.pde d i := by
  have hpf : p ∈ p :: fl := List.mem_cons_self
  obtain ⟨-, hdir, -⟩ := h.balanced.unreferenced (h.balanced.free_lt hpf) (h.balanced.free_ref hpf)
  have hne : p ≠ s.kernPgdir := fun he => hdir (he ▸ h.mem_kern)
  change (s.setupVm e p).mem d i = _
  rw [mem_setupVm hne, if_neg, Kernel.pde]
  rintro ⟨rfl, -⟩
  exact hdir hd

theorem System.allocated_pte (h : System m s L (p :: fl) efl) (hd : d ∈ L.dirs) (hi : i ∈ L.own d)
    (j : Nat) (parent : Word) : ((s.setupVm e p).fillSlot e parent).pte d i j = s.pte d i j := by
  have hpf : p ∈ p :: fl := List.mem_cons_self
  obtain ⟨hrefs, hdir, -⟩ := h.balanced.unreferenced (h.balanced.free_lt hpf) (h.balanced.free_ref hpf)
  have hne : p ≠ s.kernPgdir := fun he => hdir (he ▸ h.mem_kern)
  apply Kernel.pte_congr (h.allocated_pde hd i parent)
  intro x hx
  change (s.setupVm e p).mem x j = _
  rw [mem_setupVm hne, if_neg]
  rintro ⟨rfl, -⟩
  exact Balanced.table_ne_of_refs hrefs hd hi hx

/-- env_alloc adds one empty address space. -/
theorem System.allocated (h : System m s L (p :: fl) (e :: efl)) (parent : Word) :
    System m ((s.setupVm e p).fillSlot e parent) (L.addDir p) fl efl := by
  have hpf : p ∈ p :: fl := by simp
  have hp : p < s.npages := h.balanced.free_lt hpf
  obtain ⟨hrefs, hdir, hheld⟩ := h.balanced.unreferenced hp (h.balanced.free_ref hpf)
  have hne : p ≠ s.kernPgdir := fun he => hdir (he ▸ h.mem_kern)
  have hfree : (s.envs e).envStatus = .free := ((h.envs.mem_free e).mp (by simp)).2
  have hlt : e < nenv := ((h.envs.mem_free e).mp (by simp)).1
  have henvs := fillSlot_envs s e p parent
  have hk : ((s.setupVm e p).fillSlot e parent).kernPgdir = s.kernPgdir := allocated_kernPgdir
  have hn : ((s.setupVm e p).fillSlot e parent).npages = s.npages := by
    change (s.setupVm e p).npages = _
    rw [setupVm_rest]
  have htable : EnvTable ((s.setupVm e p).fillSlot e parent) efl := by
    have hrun : envAlloc none parent s = .ok (0, some e) ((s.setupVm e p).fillSlot e parent) :=
      envAlloc_ok h.envs.chain.head_eq h.balanced.head_eq hp h.balanced.npages_le
    rcases envAlloc_allocates hrun with ⟨hr, -⟩ | ⟨-, e', he', ha⟩
    · exact absurd hr (by decide)
    · cases he'
      obtain ⟨efl', hcons, ht⟩ := h.envs.allocates ha
      cases hcons
      exact ht
  have hmem' : ((s.setupVm e p).fillSlot e parent).mem = (s.setupVm e p).mem :=
    rfl
  have hbal : Balanced ((s.setupVm e p).fillSlot e parent) (L.addDir p) fl :=
    (h.balanced.setupVm h.mem_kern).of_eq rfl rfl rfl rfl
  have hmem : ∀ x k, ((s.setupVm e p).fillSlot e parent).mem x k =
      if x = p ∧ k < 1024 then
        if k = 957 then selfEntry p else if 955 ≤ k then s.mem s.kernPgdir k else 0#32
      else s.mem x k := by
    intro x k
    have hset := mem_setupVm (e := e) (q := x) (j := k) hne
    rw [pdx_uvpt, pdx_utop] at hset
    rw [hmem', hset]
  have hpde := fun d hd i => h.allocated_pde (d := d) (e := e) hd i parent
  have hpte := fun d hd i hi j => h.allocated_pte (d := d) (e := e) (i := i) hd hi j parent
  generalize (s.setupVm e p).fillSlot e parent = t at *
  have hlow : ∀ i < 955, t.pde p i = 0#32 := by
    intro i hi
    rw [Kernel.pde, hmem, if_pos ⟨rfl, by omega⟩, if_neg (by omega), if_neg (by omega)]
  have hupp : ∀ i ∈ kernOwn, 955 ≤ i → t.pde p i = s.pde s.kernPgdir i := by
    intro i hi hu
    rw [mem_kernOwn] at hi
    rw [Kernel.pde, hmem, if_pos ⟨rfl, hi.1⟩, if_neg hi.2, if_pos hu, Kernel.pde]
  have hself : t.pde p 957 = selfEntry p := by
    rw [Kernel.pde, hmem, if_pos ⟨rfl, by omega⟩, if_pos rfl]
  have hlive : ∀ i, Live t i ↔ i = e ∨ Live s i := by
    intro i
    by_cases hi : i = e
    · subst hi
      simp [Live, henvs, newEnv, hlt]
    · simp [Live, henvs, hi]
  have hold : ∀ i, Live s i → t.envs i = s.envs i := by
    intro i hi
    rw [henvs, Function.update_of_ne]
    rintro rfl
    exact hi.2 hfree
  have hnew : (t.envs e).envPgdir = some p := by
    rw [henvs, Function.update_self]
    rfl
  have hown : ∀ d ∈ L.dirs, (L.addDir p).own d = L.own d := by
    intro d hd
    apply Ledger.own_addDir_of_ne
    rintro rfl
    exact hdir hd
  -- no environment had the new directory before
  have hunused : ∀ i, Live s i → (s.envs i).envPgdir ≠ some p := fun i hi hd => hdir (h.env_mem hi hd)
  refine ⟨htable, hbal, hk.trans h.kernPgdir, h.held, ?_, ?_, ?_, ?_, ?_, ?_, ?_, ?_, ?_, ?_,
    h.fits.trans_eq hn.symm⟩
  · intro d
    rw [Ledger.mem_dirs_addDir, h.dirs, Directory, Directory, hk]
    constructor
    · rintro (rfl | rfl | ⟨i, hi, hd⟩)
      · exact Or.inr ⟨e, (hlive e).mpr (Or.inl rfl), hnew⟩
      · exact Or.inl rfl
      · exact Or.inr ⟨i, (hlive i).mpr (Or.inr hi), (hold i hi) ▸ hd⟩
    · rintro (rfl | ⟨i, hi, hd⟩)
      · exact Or.inr (Or.inl rfl)
      · rcases (hlive i).mp hi with rfl | hi
        · rw [hnew] at hd
          exact Or.inl (Option.some.inj hd).symm
        · exact Or.inr (Or.inr ⟨i, hi, (hold i hi) ▸ hd⟩)
  · intro i hi
    rw [hk]
    rcases (hlive i).mp hi with rfl | hi
    · rw [hnew]
      exact fun hc => hne (Option.some.inj hc)
    · rw [hold i hi]
      exact h.env_ne i hi
  · intro i i' d hi hi' hd hd'
    rcases (hlive i).mp hi with rfl | hi
    · rcases (hlive i').mp hi' with rfl | hi'
      · rfl
      · rw [hnew] at hd
        cases hd
        rw [hold i' hi'] at hd'
        exact absurd hd' (hunused i' hi')
    · rw [hold i hi] at hd
      rcases (hlive i').mp hi' with rfl | hi'
      · rw [hnew] at hd'
        cases hd'
        exact absurd hd (hunused i hi)
      · rw [hold i' hi'] at hd'
        exact h.env_inj i i' d hi hi' hd hd'
  · rw [hk, Ledger.own_addDir_of_ne (Ne.symm hne), h.own_kern]
  · intro d hd hdk
    rw [hk] at hdk
    rcases Ledger.mem_dirs_addDir.mp hd with rfl | hm
    · exact Ledger.own_addDir_self
    · rw [hown d hm]
      exact h.own_env d hm hdk
  · intro d hd i hi hu
    rw [hk, hpde _ h.mem_kern]
    rcases Ledger.mem_dirs_addDir.mp hd with rfl | hm
    · exact hupp i hi hu
    · rw [hpde d hm]
      exact h.upper d hm i hi hu
  · intro d hd
    rcases Ledger.mem_dirs_addDir.mp hd with rfl | hm
    · exact hself
    · rw [hpde d hm]
      exact h.self d hm
  · intro i hi hu j hj
    rw [hk, hpte _ h.mem_kern i (h.own_kern ▸ hi)]
    exact h.kernel i hi hu j hj
  · intro d hd i hi
    rcases Ledger.mem_dirs_addDir.mp hd with rfl | hm
    · by_cases hu : 955 ≤ i
      · rw [hupp i hi hu]
        exact h.pdes _ h.mem_kern i hi
      · exact Or.inl (hlow i (by omega))
    · rw [hpde d hm]
      exact h.pdes d hm i hi
  · intro d hd i hi j hj q hq
    rcases Ledger.mem_dirs_addDir.mp hd with rfl | hm
    · rw [Kernel.pte_of_no_table (by rw [hlow i hi, target_zero]), target_zero] at hq
      cases hq
    · rw [hpte d hm i (h.balanced.own_user d hm i hi)] at hq
      obtain ⟨hdata, hz⟩ := h.data d hm i hi j hj q hq
      have hqp : q ≠ p := by
        rintro rfl
        exact (h.balanced.referenced_page hm hi hj hq).2.1 hpf
      refine ⟨⟨?_, ?_⟩, hz⟩
      · intro hmem
        exact (Ledger.mem_dirs_addDir.mp hmem).elim hqp hdata.1
      · intro d' hd' k hk' ht
        rcases Ledger.mem_dirs_addDir.mp hd' with rfl | hm'
        · rw [Ledger.own_addDir_self, Ledger.mem_userEntries] at hk'
          rw [hlow k hk', target_zero] at ht
          cases ht
        · rw [hown d' hm'] at hk'
          rw [hpde d' hm'] at ht
          exact hdata.2 d' hm' k hk' ht

/-- env_alloc finds no slot, finds no page, or takes the heads of both lists. -/
theorem System.envAlloc (h : System m s L fl efl) (st : Option Nat) (parent : Word) :
    (∃ r < 0, (efl = [] ∨ fl = []) ∧ Jos.envAlloc st parent s = .ok (r, st) s) ∨
    ∃ e efl' p fl', efl = e :: efl' ∧ fl = p :: fl' ∧
      Jos.envAlloc st parent s = .ok (0, some e) ((s.setupVm e p).fillSlot e parent) := by
  cases efl with
  | nil =>
    refine Or.inl ⟨-eNoFreeEnv, by decide, Or.inl rfl, ?_⟩
    have hnil : s.envFreeList = none := h.envs.chain.head_eq
    rw [Jos.envAlloc, bind_ok (read_apply s)]
    simp only [hnil]
    rfl
  | cons e efl =>
    have hhead : s.envFreeList = some e := h.envs.chain.head_eq
    cases fl with
    | nil =>
      refine Or.inl ⟨-eNoMem, by decide, Or.inr rfl, ?_⟩
      rw [Jos.envAlloc, bind_ok (read_apply s)]
      simp only [hhead]
      rw [bind_ok (envSetupVm_noMem h.balanced.head_eq), Prog.ite_apply, if_pos (by decide)]
      rfl
    | cons p fl =>
      exact Or.inr ⟨e, efl, p, fl, rfl, rfl, envAlloc_ok hhead h.balanced.head_eq
        (h.balanced.free_lt (by simp)) h.balanced.npages_le⟩

end setup

/-- Directory `d` may have lost entries; the other address spaces and all data are as before. -/
structure Spares (s t : Kernel) (L : Ledger) (d : Nat) : Prop where
  pde : ∀ d' ∈ L.dirs, d' ≠ d → ∀ i, t.pde d' i = s.pde d' i
  pte : ∀ d' ∈ L.dirs, d' ≠ d → ∀ i ∈ L.own d', ∀ j < 1024, t.pte d' i j = s.pte d' i j
  data : ∀ q, IsData s L q → t.mem q = s.mem q ∧ IsData t L q

section teardown

variable {m : Machine} {s t u : Kernel} {L : Ledger} {fl efl : List Nat} {d e i j n p q : Nat}

namespace Spares

theorem refl (s : Kernel) (L : Ledger) (d : Nat) : Spares s s L d where
  pde := fun _ _ _ _ => rfl
  pte := fun _ _ _ _ _ _ _ => rfl
  data := fun _ hq => ⟨rfl, hq⟩

theorem trans (h : Spares s t L d) (h' : Spares t u L d) : Spares s u L d where
  pde := fun d' hd' hn i => (h'.pde d' hd' hn i).trans (h.pde d' hd' hn i)
  pte := fun d' hd' hn i hi j hj => (h'.pte d' hd' hn i hi j hj).trans (h.pte d' hd' hn i hi j hj)
  data := by
    intro q hq
    obtain ⟨hm, hdata⟩ := h.data q hq
    obtain ⟨hm', hdata'⟩ := h'.data q hdata
    exact ⟨hm'.trans hm, hdata'⟩

/-- Only memory counts. -/
theorem of_mem (h : t.mem = s.mem) : Spares s t L d := by
  have hpde : t.pde = s.pde := by
    funext d i
    rw [Kernel.pde, h, Kernel.pde]
  have hpte : t.pte = s.pte := by
    funext d i j
    rw [Kernel.pte, hpde, h, Kernel.pte]
  refine ⟨fun _ _ _ _ => by rw [hpde], fun _ _ _ _ _ _ _ => by rw [hpte], fun q hq => ?_⟩
  exact ⟨by rw [h], isData_congr (fun _ _ _ _ => by rw [hpde]) hq⟩

end Spares

/-- Clearing an entry of a table of `d`. -/
theorem Balanced.spares_clearEntry (h : Balanced s L fl) (hd : d ∈ L.dirs) (hi : i < 955)
    (ht : target (s.pde d i) = some q) (hmem : t.mem = (s.store q j 0#32).mem) :
    Spares s t L d := by
  have hown := h.own_user d hd i hi
  have hpde : ∀ d' ∈ L.dirs, ∀ k, (s.store q j 0#32).pde d' k = s.pde d' k :=
    fun d' hd' k => h.pde_storeTable hd hown ht hd'
  have hstore : Spares s (s.store q j 0#32) L d := by
    refine ⟨fun d' hd' _ k => hpde d' hd' k, ?_, ?_⟩
    · intro d' hd' hn k hk l _
      rw [h.pte_storeTable hd hown ht hd' hk, if_neg fun hc => hn hc.1]
    · intro x hx
      refine ⟨?_, isData_congr (fun d' hd' k _ => hpde d' hd' k) hx⟩
      funext k
      apply Kernel.mem_store_of_ne
      rintro rfl
      exact hx.2 d hd i hown ht
  exact hstore.trans (Spares.of_mem hmem)

/-- Clearing an entry of `d` itself. -/
theorem Balanced.spares_clearTable (h : Balanced s L fl) (hd : d ∈ L.dirs)
    (hmem : t.mem = (s.store d i 0#32).mem) : Spares s t L d := by
  have hpde : ∀ d' ∈ L.dirs, ∀ k, (s.store d i 0#32).pde d' k =
      if d' = d ∧ k = i then 0#32 else s.pde d' k := fun _ _ _ => Kernel.mem_store
  have hstore : Spares s (s.store d i 0#32) L d := by
    refine ⟨?_, ?_, ?_⟩
    · intro d' hd' hn k
      rw [hpde d' hd', if_neg fun hc => hn hc.1]
    · intro d' hd' hn k hk l _
      apply Kernel.pte_congr
      · rw [hpde d' hd', if_neg fun hc => hn hc.1]
      · intro x hx
        apply Kernel.mem_store_of_ne
        rintro rfl
        exact (h.table d' hd' k hk x hx).2 hd
    · intro x hx
      refine ⟨?_, hx.1, fun d' hd' k hk ht => ?_⟩
      · funext k
        apply Kernel.mem_store_of_ne
        rintro rfl
        exact hx.1 hd
      · rw [hpde d' hd'] at ht
        split at ht
        · rw [target_zero] at ht
          cases ht
        · exact hx.2 d' hd' k hk ht
  exact hstore.trans (Spares.of_mem hmem)

theorem forRange_returns {body : Nat → Kern Unit} {I : Nat → Kernel → Prop} (h0 : I 0 s)
    (hstep : ∀ k < n, ∀ t, I k t → Returns (body k) t fun _ u => I (k + 1) u) :
    Returns (forRange body n) s fun _ t => I n t :=
  (forRange_returnsUnless (C := False) h0 fun k hk t ht => Or.inl (hstep k hk t ht)).returns id

/-- env_free's inner loop over the table in page `q`, once the first `n` entries are gone. -/
structure TableEmptied (m : Machine) (s t : Kernel) (L : Ledger) (efl : List Nat) (d i n : Nat) :
    Prop where
  system : ∃ fl, System m t L fl efl
  paging : Kernel.Paging s t
  spares : Spares s t L d
  pdes : ∀ k, t.pde d k = s.pde d k
  done : ∀ j < n, target (t.pte d i j) = none

/-- One entry of env_free's inner loop. -/
theorem freePte_emptied (h : TableEmptied m s t L efl d i n) (hd : d ∈ L.dirs) (hi : i < 955)
    (ht : target (s.pde d i) = some q) (hn : n < 1024) :
    Returns (freePte d q i n) t fun _ u => TableEmptied m s u L efl d i (n + 1) := by
  obtain ⟨fl, hsys⟩ := h.system
  have htable : target (t.pde d i) = some q := by rw [h.pdes, ht]
  have hpte : t.mem q n = t.pte d i n := (Kernel.pte_of_target htable).symm
  refine Returns.step (read_apply t) ?_
  by_cases hp : Has (t.mem q n) pteP
  · rw [if_pos hp, pgaddr_eq (by omega) hn]
    have hva : pdx (page2pa (i * 1024 + n)) = i := by
      rw [pdx_page2pa (by omega)]
      omega
    have hvt : ptx (page2pa (i * 1024 + n)) = n := by
      rw [ptx_page2pa (by omega)]
      omega
    have hspec := pageRemove_spec hsys.balanced hd (show pdx (page2pa (i * 1024 + n)) < 955 by omega)
    rw [hva, hvt] at hspec
    rcases hspec with ⟨hnone, -⟩ | ⟨q', p, hq', hpp, hrun⟩
    · rw [← hpte, target_eq_none] at hnone
      exact absurd hp hnone
    · rw [htable] at hq'
      cases hq'
      have hunmap : System m (t.unmap q (ptx (page2pa (i * 1024 + n))) p (page2pa (i * 1024 + n))) _ _ _ :=
        hsys.unmapped hd (by omega) (by rw [hva]; exact htable) (by rw [hva, hvt]; exact hpp)
      rw [hvt] at hunmap
      have hmem : (t.unmap q n p (page2pa (i * 1024 + n))).mem = (t.store q n 0#32).mem := by
        funext x k
        rw [Kernel.mem_unmap, Kernel.mem_store]
      have hown := hsys.balanced.own_user d hd i hi
      have hpde : ∀ k, (t.unmap q n p (page2pa (i * 1024 + n))).pde d k = t.pde d k := by
        intro k
        rw [Kernel.pde, hmem]
        exact hsys.balanced.pde_storeTable hd hown htable hd
      refine ⟨(), _, hrun, ⟨_, hunmap⟩, h.paging.trans Kernel.Paging.unmap,
        h.spares.trans (hsys.balanced.spares_clearEntry hd hi htable hmem), ?_, ?_⟩
      · intro k
        rw [hpde, h.pdes]
      · intro j hj
        have hstore : (t.unmap q n p (page2pa (i * 1024 + n))).pte d i j =
            (t.store q n 0#32).pte d i j := by
          rw [Kernel.pte, Kernel.pte, Kernel.pde, hmem, Kernel.pde]
        rw [hstore, hsys.balanced.pte_storeTable hd hown htable hd hown]
        by_cases hjn : j = n
        · rw [if_pos ⟨rfl, rfl, hjn⟩, target_zero]
        · rw [if_neg fun hc => hjn hc.2.2]
          exact h.done j (by omega)
  · rw [if_neg hp]
    refine ⟨(), t, rfl, h.system, h.paging, h.spares, h.pdes, ?_⟩
    intro j hj
    by_cases hjn : j = n
    · rw [hjn, ← hpte]
      exact target_eq_none.mpr hp
    · exact h.done j (by omega)

/-- page_decref of a page that is held. -/
theorem Balanced.drop_run (h : Balanced s (L.hold p) fl) (hp : p < s.npages) :
    pageDecref p s = .ok () (s.drop p) := by
  have hc := h.count p hp
  rw [Ledger.held_hold, if_pos rfl] at hc
  have hpf : p ∉ fl := by
    intro hm
    rw [h.free_ref hm] at hc
    simp at hc
  exact pageDecref_ok (h.link_null p hp hpf)

/-- Dropping an empty table leaves the address spaces in order. -/
theorem System.tableDropped (h : System m s L fl efl) (hd : d ∈ L.dirs) (hi : i < 955)
    (ht : target (s.pde d i) = some q) (hempty : ∀ j < 1024, target (s.pte d i j) = none) :
    pageDecref q (s.store d i 0#32) = .ok () ((s.store d i 0#32).drop q) ∧
      ∃ fl', System m ((s.store d i 0#32).drop q) L fl' efl := by
  have hown := h.balanced.own_user d hd i hi
  have hq : q < s.npages := (h.balanced.table d hd i hown q ht).1
  have hheld := h.balanced.clearTable hd hown ht hempty
  have hpde : ∀ d' k, ((s.store d i 0#32).drop q).pde d' k =
      if d' = d ∧ k = i then 0#32 else s.pde d' k := by
    intro d' k
    rw [Kernel.pde, Kernel.drop_mem]
    exact Balanced.pde_storeDir
  have hpte : ∀ d' ∈ L.dirs, ∀ k ∈ L.own d', ∀ j, ¬ (d' = d ∧ k = i) →
      ((s.store d i 0#32).drop q).pte d' k j = s.pte d' k j := by
    intro d' hd' k hk j hne
    rw [← h.balanced.pte_storeDir (w := 0#32) hd hown hd' hk hne, Kernel.pte, Kernel.pte, Kernel.pde,
      Kernel.drop_mem, Kernel.pde]
  refine ⟨hheld.drop_run hq, _, h.paging (Kernel.Paging.store.trans Kernel.Paging.drop)
    (hheld.drop hq) rfl rfl rfl ?_ ?_ ?_ ?_⟩
  · intro d' _ k hk _
    rw [hpde, if_neg]
    rintro ⟨-, rfl⟩
    omega
  · intro d' _ k _
    rw [hpde]
    split
    · exact Or.inr (Or.inl rfl)
    · exact Or.inl rfl
  · intro k hk hu j _
    apply hpte _ h.mem_kern k (h.own_kern ▸ hk)
    rintro ⟨-, rfl⟩
    omega
  · intro d' hd' k hk j hj x hx
    have hne : ¬ (d' = d ∧ k = i) := by
      rintro ⟨rfl, rfl⟩
      rw [Kernel.pte_of_no_table (by rw [hpde, if_pos ⟨rfl, rfl⟩, target_zero]), target_zero] at hx
      cases hx
    rw [hpte d' hd' k (h.balanced.own_user d' hd' k hk) j hne] at hx
    obtain ⟨hdata, hz⟩ := h.data d' hd' k hk j hj x hx
    refine ⟨⟨hdata.1, fun d'' hd'' l hl htl => ?_⟩, hz⟩
    rw [hpde] at htl
    split at htl
    · rw [target_zero] at htl
      cases htl
    · exact hdata.2 d'' hd'' l hl htl

/-- env_free's loop over the tables below UTOP, once the first `n` entries are gone. -/
structure SpaceEmptied (m : Machine) (s t : Kernel) (L : Ledger) (efl : List Nat) (d n : Nat) :
    Prop where
  system : ∃ fl, System m t L fl efl
  paging : Kernel.Paging s t
  spares : Spares s t L d
  done : ∀ i < n, target (t.pde d i) = none

theorem freePde_emptied (h : SpaceEmptied m s t L efl d n) (hd : d ∈ L.dirs)
    (he : (s.envs e).envPgdir = some d) (hn : n < 955) :
    Returns (freePde e n) t fun _ u => SpaceEmptied m s u L efl d (n + 1) := by
  obtain ⟨fl, hsys⟩ := h.system
  have hdir : envPgdir e t = .ok d t := envPgdir_ok (by rw [h.paging]; exact he)
  refine Returns.step hdir (Returns.step (read_apply t) ?_)
  by_cases hP : Has (t.mem d n) pteP
  · rw [if_pos hP]
    have ht : target (t.pde d n) = some (pgnum (t.mem d n)) := target_eq_some.mpr ⟨hP, rfl⟩
    have hq := (hsys.balanced.table d hd n (hsys.balanced.own_user d hd n hn) _ ht).1
    have hka : kaddr (pteAddr (t.mem d n)) t = .ok (pgnum (t.mem d n)) t := by
      rw [kaddr_ok (by rwa [pgnum_pteAddr]), pgnum_pteAddr]
    refine Returns.step hka ?_
    have hstart : TableEmptied m t t L efl d n 0 :=
      ⟨⟨fl, hsys⟩, Kernel.Paging.refl t, Spares.refl t L d, fun _ => rfl, fun _ hj => by omega⟩
    have hloop := forRange_returns (n := nptentries) hstart fun j hj u hu =>
      freePte_emptied hu hd hn ht hj
    refine Returns.bind hloop ?_
    rintro ⟨⟩ u hu
    obtain ⟨fl₁, hsys₁⟩ := hu.system
    have htu : target (u.pde d n) = some (pgnum (t.mem d n)) := by rw [hu.pdes, ht]
    obtain ⟨hrun, fl₂, hsys₂⟩ := hsys₁.tableDropped hd hn htu hu.done
    have hpa : pa2page (pteAddr (t.mem d n)) (u.store d n 0#32) =
        .ok (pgnum (t.mem d n)) (u.store d n 0#32) := by
      have hlt : pgnum (pteAddr (t.mem d n)) < (u.store d n 0#32).npages := by
        rw [pgnum_pteAddr]
        exact hq.trans_eq hu.paging.npages.symm
      rw [pa2page_ok hlt, pgnum_pteAddr]
    refine Returns.step (update_apply _ u) (Returns.step hpa (Returns.of_ok hrun ?_))
    have hmem : ((u.store d n 0#32).drop (pgnum (t.mem d n))).mem = (u.store d n 0#32).mem :=
      Kernel.drop_mem
    refine ⟨⟨fl₂, hsys₂⟩, h.paging.trans (hu.paging.trans (Kernel.Paging.store.trans Kernel.Paging.drop)),
      h.spares.trans (hu.spares.trans (hsys₁.balanced.spares_clearTable hd hmem)), ?_⟩
    intro i hi
    rw [Kernel.pde, hmem, Kernel.mem_store]
    by_cases hin : i = n
    · rw [if_pos ⟨rfl, hin⟩, target_zero]
    · rw [if_neg fun hc => hin hc.2]
      have hold := h.done i (by omega)
      rw [← hu.pdes i] at hold
      exact hold
  · rw [if_neg hP]
    refine ⟨(), t, rfl, h.system, h.paging, h.spares, ?_⟩
    intro i hi
    by_cases hin : i = n
    · rw [hin]
      exact target_eq_none.mpr hP
    · exact h.done i (by omega)

theorem leaveEnv_run (s : Kernel) (e : Nat) : ∃ cr3 log,
    leaveEnv e s = .ok () { s with cr3 := cr3, log := log } := by
  rw [leaveEnv, bind_ok (read_apply s), Prog.ite_apply]
  split
  · exact ⟨_, _, rfl⟩
  · exact ⟨s.cr3, s.log, rfl⟩

/-- The address space of `e` goes: its directory is dropped from the table. -/
theorem System.dropped (h : System m s L fl efl) (hl : Live s e) (hd : (s.envs e).envPgdir = some d)
    (hempty : ∀ i < 955, target (s.pde d i) = none) {fl' efl' : List Nat} (hb : Balanced t (L.dropDir d) fl')
    (ht : EnvTable t efl') (hn : t.npages = s.npages) (hm : t.mem = s.mem)
    (hk : t.kernPgdir = s.kernPgdir)
    (hlive : ∀ i, Live t i ↔ i ≠ e ∧ Live s i) (henvs : ∀ i ≠ e, t.envs i = s.envs i) :
    System m t (L.dropDir d) fl' efl' := by
  have hpde : t.pde = s.pde := by
    funext d i
    rw [Kernel.pde, hm, Kernel.pde]
  have hpte : t.pte = s.pte := by
    funext d i j
    rw [Kernel.pte, hpde, hm, Kernel.pte]
  have hdk : d ≠ s.kernPgdir := fun he => h.env_ne e hl (he ▸ hd)
  have hsub : ∀ x ∈ (L.dropDir d).dirs, x ∈ L.dirs := fun x hx => (Ledger.mem_dirs_dropDir.mp hx).2
  refine ⟨ht, hb, hk.trans h.kernPgdir, h.held, ?_, ?_, ?_, ?_, ?_, ?_, ?_, ?_, ?_, ?_,
    h.fits.trans_eq hn.symm⟩
  · intro x
    rw [Ledger.mem_dirs_dropDir, h.dirs, Directory, Directory, hk]
    constructor
    · rintro ⟨hne, rfl | ⟨i, hi, hx⟩⟩
      · exact Or.inl rfl
      · have hie : i ≠ e := by
          rintro rfl
          rw [hd] at hx
          exact hne (Option.some.inj hx).symm
        exact Or.inr ⟨i, (hlive i).mpr ⟨hie, hi⟩, (henvs i hie) ▸ hx⟩
    · rintro (rfl | ⟨i, hi, hx⟩)
      · exact ⟨Ne.symm hdk, Or.inl rfl⟩
      · obtain ⟨hie, hi⟩ := (hlive i).mp hi
        rw [henvs i hie] at hx
        refine ⟨?_, Or.inr ⟨i, hi, hx⟩⟩
        rintro rfl
        exact hie (h.env_inj i e x hi hl hx hd)
  · intro i hi
    obtain ⟨hie, hi⟩ := (hlive i).mp hi
    rw [henvs i hie, hk]
    exact h.env_ne i hi
  · intro i i' x hi hi'
    obtain ⟨hie, hi⟩ := (hlive i).mp hi
    obtain ⟨hie', hi'⟩ := (hlive i').mp hi'
    rw [henvs i hie, henvs i' hie']
    exact h.env_inj i i' x hi hi'
  · rw [hk]
    exact h.own_kern
  · intro x hx hne
    exact h.own_env x (hsub x hx) (hk ▸ hne)
  · intro x hx
    rw [hpde, hk]
    exact h.upper x (hsub x hx)
  · intro x hx
    rw [hpde]
    exact h.self x (hsub x hx)
  · rw [hpte, hk]
    exact h.kernel
  · intro x hx
    rw [hpde]
    exact h.pdes x (hsub x hx)
  · intro x hx i hi j hj q hq
    rw [hpte] at hq
    obtain ⟨hdata, hz⟩ := h.data x (hsub x hx) i hi j hj q hq
    refine ⟨⟨fun hm => hdata.1 (hsub q hm), fun d' hd' k hk' htk => ?_⟩, hz⟩
    rw [hpde] at htk
    exact hdata.2 d' (hsub d' hd') k hk' htk

/-- env_free of a live environment returns, and takes nothing but its own address space away. -/
theorem System.envFree (h : System m s L fl efl) (hl : Live s e) (hd : (s.envs e).envPgdir = some d) :
    Returns (Jos.envFree e) s fun _ t =>
      (∃ fl', System m t (L.dropDir d) fl' (e :: efl)) ∧ Spares s t L d ∧ t.npages = s.npages := by
  have hdm : d ∈ L.dirs := h.env_mem hl hd
  obtain ⟨cr3, log, hleave⟩ := leaveEnv_run s e
  have hs₀ : System m { s with cr3 := cr3, log := log } L fl efl :=
    h.congr (h.envs.congr rfl) rfl rfl rfl rfl rfl (fun _ => Iff.rfl) fun _ _ => rfl
  have hspare : Spares s { s with cr3 := cr3, log := log } L d := Spares.of_mem rfl
  generalize hs : ({ s with cr3 := cr3, log := log } : Kernel) = s₀ at hleave hs₀ hspare
  have henv₀ : s₀.envs = s.envs := by rw [← hs]
  have hpar₀ : s₀.npages = s.npages ∧ s₀.kernPgdir = s.kernPgdir := by rw [← hs]; exact ⟨rfl, rfl⟩
  have hstart : SpaceEmptied m s₀ s₀ L efl d 0 :=
    ⟨⟨fl, hs₀⟩, Kernel.Paging.refl s₀, Spares.refl s₀ L d, fun _ hi => by omega⟩
  obtain ⟨⟨⟩, u, hloop, hu⟩ := forRange_returns (n := pdx utop)
    (I := fun n t => SpaceEmptied m s₀ t L efl d n) hstart fun n hn v hv =>
      freePde_emptied hv hdm (e := e) (by rw [henv₀, hd]) (by rwa [pdx_utop] at hn)
  rw [pdx_utop] at hu
  obtain ⟨fl₁, hsys⟩ := hu.system
  have henvu : u.envs = s.envs := by rw [hu.paging, ← henv₀]
  have hnu : u.npages = s.npages := hu.paging.npages.trans hpar₀.1
  have hlu : Live u e := by rwa [Live, henvu]
  have hdu : (u.envs e).envPgdir = some d := by rw [henvu, hd]
  have hdlt : d < u.npages := hsys.balanced.dir_lt d hdm
  have hdk : d ≠ u.kernPgdir := fun he => hsys.env_ne e hlu (he ▸ hdu)
  -- the empty directory is left with one reference, which goes
  have hheld : Balanced (u.setEnv e { u.envs e with envPgdir := none }) ((L.dropDir d).hold d) fl₁ := by
    refine (hsys.balanced.dropDir hdm fun i hi => ?_).of_eq rfl rfl rfl rfl
    rw [hsys.own_env d hdm hdk, Ledger.mem_userEntries] at hi
    exact hu.done i hi
  have hpa : pa2page (page2pa d) (u.setEnv e { u.envs e with envPgdir := none }) =
      .ok d (u.setEnv e { u.envs e with envPgdir := none }) := by
    have hpg := pgnum_page2pa (hsys.balanced.page_lt hdlt)
    have hok := pa2page_ok (s := u.setEnv e { u.envs e with envPgdir := none }) (w := page2pa d)
      (by rw [hpg]; exact hdlt)
    rwa [hpg] at hok
  have hdec := hheld.drop_run hdlt
  have hdrop := hheld.drop hdlt
  have hmem : ((u.setEnv e { u.envs e with envPgdir := none }).drop d).mem = u.mem := Kernel.drop_mem
  have hpag : Kernel.Paging (u.setEnv e { u.envs e with envPgdir := none })
      ((u.setEnv e { u.envs e with envPgdir := none }).drop d) := Kernel.Paging.drop
  generalize (u.setEnv e { u.envs e with envPgdir := none }).drop d = v at hdec hdrop hmem hpag
  have hrun : ∃ t, Jos.envFree e s = .ok () t ∧ t.npages = v.npages ∧ t.pages = v.pages ∧
      t.pageFreeList = v.pageFreeList ∧ t.mem = v.mem ∧ t.kernPgdir = v.kernPgdir := by
    apply Exists.intro
    constructor
    · rw [Jos.envFree, bind_ok hleave, bind_ok hloop, bind_ok (envPgdirPa_ok hdu), modifyEnv,
        bind_ok (update_apply _ u), bind_ok hpa, bind_ok hdec, modifyEnv, bind_ok (update_apply _ v),
        bind_ok (update_apply _ _)]
      rfl
    · exact ⟨rfl, rfl, rfl, rfl, rfl⟩
  obtain ⟨t, hrun, hn, hp, hf, hm, hk⟩ := hrun
  obtain ⟨-, -, henvs⟩ := envFree_effect hrun
  have hlive : ∀ i, Live t i ↔ i ≠ e ∧ Live u i := by
    intro i
    by_cases hi : i = e
    · subst hi
      simp [Live, henvs]
    · simp [Live, henvs, henvu, hi]
  have hfinal := hsys.dropped hlu hdu hu.done (hdrop.of_eq hn hp hf hm) (h.envs.freed hl hrun)
    (hn.trans hpag.npages) (hm.trans hmem) (hk.trans hpag.kernPgdir) hlive (fun i hi => by
      rw [henvs, henvu, Function.update_of_ne hi])
  refine ⟨(), t, hrun, ⟨_, hfinal⟩, hspare.trans (hu.spares.trans (Spares.of_mem (hm.trans hmem))), ?_⟩
  rw [hn, hpag.npages]
  exact hnu

end teardown

end Jos
