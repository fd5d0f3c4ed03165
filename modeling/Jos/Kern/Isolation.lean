import Jos.Kern.FreshData

/-! Isolation: pages given out by the environment calls alone are never in two places. -/
namespace Jos

open Prog

/-- The calls that manage environments, and the stores of their programs. -/
def SysCall.ManagesEnvs : SysCall → Prop
  | .envAlloc _ _ => True
  | .envCreate _ _ => True
  | .envRun _ => True
  | .envFree _ => True
  | .userStore _ _ => True
  | _ => False

/-- The states reached from env_init by such calls that return. -/
inductive SpaceRun (m : Machine) (mem : Nat → Nat → Word) : Kernel → Prop
  | start {s t : Kernel} : memInit m (bss mem) = .ok () s → envInit s = .ok () t → SpaceRun m mem t
  | call {s t : Kernel} {c : SysCall} : SpaceRun m mem s → c.ManagesEnvs → c.Legal m s →
      c.exec s = .ok () t → SpaceRun m mem t

/-- No page is mapped twice below UTOP. -/
def Unshared (s : Kernel) (L : Ledger) : Prop :=
  ∀ d ∈ L.dirs, ∀ d' ∈ L.dirs, ∀ v < 955 * 1024, ∀ v' < 955 * 1024, ∀ p,
    target (s.entry d v) = some p → target (s.entry d' v') = some p → d = d' ∧ v = v'

/-- The address spaces of the environments are apart from each other and from the kernel. -/
structure Isolated (m : Machine) (s : Kernel) : Prop where
  unshared : ∀ e e' d d' va va' x x', Live s e → Live s e' → (s.envs e).envPgdir = some d →
    (s.envs e').envPgdir = some d' → va < utop → va' < utop → hwWalk s.mem d va = some x →
    hwWalk s.mem d' va' = some x' → x.page = x'.page → e = e' ∧ pgnum va = pgnum va'
  mapped : ∀ e d va x, Live s e → (s.envs e).envPgdir = some d → va < utop →
    hwWalk s.mem d va = some x →
      ¬ s.OnFreeList x.page ∧ ¬ Reserved m x.page ∧ ¬ InTables s x.page
  upper : ∀ e d i, Live s e → (s.envs e).envPgdir = some d → pdx utop ≤ i → i < 1024 → i ≠ pdx uvpt →
    s.pde d i = s.pde s.kernPgdir i
  self : ∀ e d, Live s e → (s.envs e).envPgdir = some d → target (s.pde d (pdx uvpt)) = some d
  write : ∀ e d va, Live s e → (s.envs e).envPgdir = some d → utop ≤ va → ¬ UserCanWrite s.mem d va
  read : ∀ e d va, Live s e → (s.envs e).envPgdir = some d → ulim ≤ va → ¬ UserCanRead s.mem d va

section isolation

variable {m : Machine} {mem : Nat → Nat → Word} {s t : Kernel} {L L' : Ledger} {fl efl : List Nat}
  {c : SysCall} {d e p : Nat} {va : Word}

namespace Unshared

theorem of_entries (h : Unshared s L) (hdirs : ∀ d ∈ L'.dirs, d ∈ L.dirs)
    (hsame : ∀ d ∈ L'.dirs, ∀ v < 955 * 1024, t.entry d v = s.entry d v) : Unshared t L' := by
  intro d hd d' hd' v hv v' hv' p hp hp'
  rw [hsame d hd v hv] at hp
  rw [hsame d' hd' v' hv'] at hp'
  exact h d (hdirs d hd) d' (hdirs d' hd') v hv v' hv' p hp hp'

theorem of_mem (h : Unshared s L) (hmem : t.mem = s.mem) : Unshared t L := by
  have hpde : t.pde = s.pde := by
    funext d i
    rw [Kernel.pde, hmem, Kernel.pde]
  refine h.of_entries (fun _ hd => hd) fun d _ v _ => ?_
  rw [Kernel.entry, Kernel.entry, Kernel.pte, Kernel.pte, hpde, hmem]

/-- A new directory that maps nothing. -/
theorem addDir (h : Unshared s L) (hsame : ∀ d ∈ L.dirs, ∀ v < 955 * 1024, t.entry d v = s.entry d v)
    (hempty : ∀ v < 955 * 1024, t.entry p v = 0#32) : Unshared t (L.addDir p) := by
  have hnone : ∀ v < 955 * 1024, ∀ q, target (t.entry p v) ≠ some q := by
    intro v hv q hq
    rw [hempty v hv, target_zero] at hq
    cases hq
  intro d hd d' hd' v hv v' hv' q hq hq'
  rcases Ledger.mem_dirs_addDir.mp hd with rfl | hd
  · exact absurd hq (hnone v hv q)
  rcases Ledger.mem_dirs_addDir.mp hd' with rfl | hd'
  · exact absurd hq' (hnone v' hv' q)
  rw [hsame d hd v hv] at hq
  rw [hsame d' hd' v' hv'] at hq'
  exact h d hd d' hd' v hv v' hv' q hq hq'

/-- A directory that has been given pages of its own. -/
theorem remaps (h : Unshared s L) (hsys : System m t L fl efl)
    (hr : Remaps s t L d (· < 955 * 1024)) (hd : d ∈ L.dirs) (hsole : Sole t d) : Unshared t L := by
  have hown : ∀ d' ∈ L.dirs, ∀ v v' p, v < 955 * 1024 → v' < 955 * 1024 → target (t.entry d v) = some p →
      target (t.entry d' v') = some p → d = d' ∧ v = v' := by
    intro d' hd' v v' p hv hv' hp hp'
    obtain ⟨-, -, huniq⟩ := hsys.balanced.sole hd (show v / 1024 < 955 by omega)
      (Nat.mod_lt v (by decide)) hp (hsole v hv p hp)
    obtain ⟨hdd, hi, hj⟩ := huniq d' hd' _ (show v' / 1024 < 955 by omega) _ (Nat.mod_lt v' (by decide)) hp'
    exact ⟨hdd.symm, by omega⟩
  intro d₁ hd₁ d₂ hd₂ v hv v' hv' p hp hp'
  by_cases h1 : d₁ = d
  · subst h1
    exact hown d₂ hd₂ v v' p hv hv' hp hp'
  by_cases h2 : d₂ = d
  · subst h2
    obtain ⟨hdd, hvv⟩ := hown d₁ hd₁ v' v p hv' hv hp' hp
    exact ⟨hdd.symm, hvv.symm⟩
  have hsame : ∀ d' ∈ L.dirs, d' ≠ d → ∀ v < 955 * 1024, t.entry d' v = s.entry d' v := by
    intro d' hd' hne v hv
    exact hr.pte d' hd' _ (hsys.balanced.own_user d' hd' _ (by omega)) _ (Nat.mod_lt v (by decide))
      fun he => absurd he hne
  rw [hsame d₁ hd₁ h1 v hv] at hp
  rw [hsame d₂ hd₂ h2 v' hv'] at hp'
  exact h d₁ hd₁ d₂ hd₂ v hv v' hv' p hp hp'

/-- Every call that manages environments keeps each page in one place. -/
theorem call (h : System m s L fl efl) (hu : Unshared s L) (hm : c.ManagesEnvs) (hc : c.Legal m s)
    (hrun : c.exec s = .ok () t) : ∃ L' fl' efl', System m t L' fl' efl' ∧ Unshared t L' := by
  have hentries : ∀ {q fl' efl' e} (parent : Word), System m s L (q :: fl') (e :: efl') → ∀ d ∈ L.dirs,
      ∀ v < 955 * 1024, ((s.setupVm e q).fillSlot e parent).entry d v = s.entry d v := by
    intro q fl' efl' e parent hs d hd v hv
    exact hs.allocated_pte hd (hs.balanced.own_user d hd _ (by omega)) _ parent
  cases c with
  | envAlloc newenvStore parentId =>
    obtain ⟨_, u, halloc, hpure⟩ := bind_eq_ok.mp hrun
    obtain ⟨-, rfl⟩ := pure_eq_ok.mp hpure
    rcases h.envAlloc newenvStore parentId with ⟨r, -, -, hok⟩ | ⟨e, efl', p, fl', rfl, rfl, hok⟩
    · rw [hok] at halloc
      cases halloc
      exact ⟨L, fl, efl, h, hu⟩
    · rw [hok] at halloc
      cases halloc
      exact ⟨_, _, _, h.allocated parentId,
      hu.addDir (hentries parentId h) fun v hv => h.allocated_empty parentId hv⟩
  | envCreate binary type =>
    obtain ⟨e, efl', p, fl', u, rfl, rfl, hueq, hsys, hl, hd, hempty, hload⟩ := envCreate_eq_ok h hrun
    obtain ⟨fl₁, ht, hr, hsole⟩ := hsys.loadIcode hl hd (Sole.of_empty hempty) hc () t hload
    have hnew : Unshared u (L.addDir p) := by
      refine hu.addDir (fun d hd v hv => ?_) hempty
      rw [hueq]
      exact hentries 0 h d hd v hv
    exact ⟨_, fl₁, efl', ht, hnew.remaps ht hr (hsys.env_mem hl hd) hsole⟩
  | envRun e =>
    have hmem : t.mem = s.mem := congrArg (·.2.2.2.1) (envRun_keeps e _ _ _ hrun)
    exact ⟨L, fl, efl, h.envRun hc hrun, hu.of_mem hmem⟩
  | envFree e =>
    obtain ⟨d, hd, -⟩ := h.env_dir hc
    obtain ⟨⟨fl', ht⟩, hspares, -⟩ := (h.envFree hc hd).ensures () t hrun
    refine ⟨_, fl', _, ht, hu.of_entries (fun d' hd' => ?_) fun d' hd' v hv => ?_⟩
    · exact (Ledger.mem_dirs_dropDir.mp hd').2
    · obtain ⟨hne, hmem⟩ := Ledger.mem_dirs_dropDir.mp hd'
      exact hspares.pte d' hmem hne _ (h.balanced.own_user d' hmem _ (by omega)) _ (Nat.mod_lt v (by decide))
  | userStore va b =>
    obtain ⟨e, -, hl, hd, hw⟩ := hc
    have hdm := h.env_mem hl hd
    have hva := h.userCanWrite_lt hdm hw
    obtain ⟨x, hx, -, rfl⟩ := storeByte_eq_ok hrun
    obtain ⟨hdata, -⟩ := h.data _ hdm _ hva _ (ptx_lt va) _ (hwWalk_eq_some.mp hx).1
    refine ⟨L, fl, efl, h.storeData hdata _ _, hu.of_entries (fun _ hd => hd) fun d' hd' v hv => ?_⟩
    exact pte_storeData hdata hd' (h.balanced.own_user d' hd' _ (by omega))
  | pageAlloc _ => exact absurd hm id
  | pageFree _ => exact absurd hm id
  | pageInsert _ _ _ _ => exact absurd hm id
  | pageRemove _ _ => exact absurd hm id

end Unshared

theorem SpaceRun.inv (h : SpaceRun m mem s) : ∃ L fl efl, System m s L fl efl ∧ Unshared s L := by
  induction h with
  | start hm hi =>
    obtain ⟨fl, efl, hb, hsys, -⟩ := system_start hm hi
    obtain ⟨t, ht, hrest⟩ := envInit_returns _
    rw [hi] at ht
    cases ht
    refine ⟨_, fl, efl, hsys, fun d hd d' hd' v hv v' hv' p hp => ?_⟩
    -- kern_pgdir is alone, and maps nothing below UTOP
    have hk := Finset.mem_singleton.mp hd
    rw [← hb.dir.kernPgdir] at hk
    rw [Kernel.entry, Kernel.pte_of_no_table, target_zero] at hp
    · cases hp
    · rw [hrest, hk]
      change target ((_ : Kernel).mem _ _) = none
      rw [hb.dir.user_empty (by omega), target_zero]
  | call hrun hm hc hcall ih =>
    obtain ⟨L, fl, efl, hsys, hu⟩ := ih
    exact hu.call hsys hm hc hcall

theorem isolated_of_system (h : System m s L fl efl) (hu : Unshared s L) : Isolated m s := by
  have hpdx : ∀ va < utop, pdx va < 955 := fun va hva => (lt_utop_iff va).mp hva
  constructor
  · intro e e' d d' va va' x x' hl hl' hd hd' hva hva' hx hx' hpage
    have hp := (hwWalk_eq_some.mp hx).1
    have hp' := (hwWalk_eq_some.mp hx').1
    rw [← hpage] at hp'
    obtain ⟨rfl, hv⟩ := hu d (h.env_mem hl hd) d' (h.env_mem hl' hd') (pgnum va)
      (System.pgnum_lt_utop (hpdx va hva)) (pgnum va') (System.pgnum_lt_utop (hpdx va' hva')) x.page
      (by rw [System.entry_pgnum]; exact hp) (by rw [System.entry_pgnum]; exact hp')
    exact ⟨h.env_inj e e' d hl hl' hd hd', hv⟩
  · intro e d va x hl hd hva hx
    have hdm := h.env_mem hl hd
    have hp := (hwWalk_eq_some.mp hx).1
    obtain ⟨hdata, hheld⟩ := h.data d hdm _ (hpdx va hva) _ (ptx_lt va) _ hp
    have hfree := (h.balanced.referenced_page hdm (hpdx va hva) (ptx_lt va) hp).2.1
    refine ⟨fun hf => hfree (h.balanced.onFreeList_iff.mp hf), fun hr => ?_, h.isData_iff.mp hdata⟩
    have hne : x.page ≠ heapBase m := by
      rintro he
      exact hdata.1 (by rw [he, ← h.kernPgdir]; exact h.mem_kern)
    rw [h.held] at hheld
    change (if Reserved m x.page ∧ x.page ≠ heapBase m then 1 else 0) = 0 at hheld
    rw [if_pos ⟨hr, hne⟩] at hheld
    cases hheld
  · intro e d i hl hd hi hlt hne
    rw [pdx_utop] at hi
    rw [pdx_uvpt] at hne
    exact h.upper d (h.env_mem hl hd) i (mem_kernOwn.mpr ⟨hlt, hne⟩) hi
  · intro e d hl hd
    have hdm := h.env_mem hl hd
    have hlt := h.balanced.dir_lt d hdm
    have hle := h.balanced.npages_le
    rw [pdx_uvpt, h.self d hdm, selfEntry, BitVec.or_assoc]
    exact target_entry (by omega) (by decide) (by decide)
  · intro e d va hl hd hva hw
    have hlow := h.userCanWrite_lt (h.env_mem hl hd) hw
    rw [BitVec.le_def] at hva
    have hlt := (lt_utop_iff va).mpr hlow
    rw [BitVec.lt_def] at hlt
    omega
  · intro e d va hl hd hva hr
    have hlow := h.userCanRead_lt (h.env_mem hl hd) hr
    have hlt := (lt_ulim_iff va).mpr hlow
    rw [BitVec.le_def] at hva
    rw [BitVec.lt_def] at hlt
    omega

/-- After every run of the environment calls, the environments are isolated. -/
theorem spaceRun_isolated (h : SpaceRun m mem s) : Isolated m s := by
  obtain ⟨L, fl, efl, hsys, hu⟩ := h.inv
  exact isolated_of_system hsys hu

end isolation

theorem spaceRun_isolated_smallMachine : ∃ s e d, SpaceRun smallMachine (fun _ _ => 0) s ∧ Live s e ∧
    (s.envs e).envPgdir = some d ∧ UserCanWrite s.mem d (ustacktop - pgsize) ∧ Isolated smallMachine s := by
  obtain ⟨s₀, s, t, e, d, h₀, h₁, hbelow, ht, hl, hd, hstack⟩ := bareEnv_smallMachine
  have hrun : SpaceRun smallMachine (fun _ _ => 0) t :=
    SpaceRun.call (.start h₀ h₁) (c := .envCreate bareImage .user) trivial hbelow ht
  exact ⟨t, e, d, hrun, hl, hd, hstack _ (by decide) (by decide), spaceRun_isolated hrun⟩

end Jos
