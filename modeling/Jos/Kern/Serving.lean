import Jos.Kern.Orderly

/-! The pages taken on behalf of each environment, call by call. -/
namespace Jos

open Prog

/-- The pages in use in `t` among those `before` and those that were not in use in `s`. -/
def inUse (s t : Kernel) (before : Set Nat) : Set Nat :=
  {p | p < t.npages ∧ (t.pages p).ppRef ≠ 0 ∧ (p ∈ before ∨ (s.pages p).ppRef = 0)}

/-- The pages taken on behalf of an environment are those of its address space. -/
structure Serving (m : Machine) (s₀ s : Kernel) (L : Ledger) (fl efl : List Nat) (taken : Nat → Set Nat) :
    Prop where
  orderly : Orderly m s₀ s L fl efl
  taken : ∀ e d, Live s e → (s.envs e).envPgdir = some d → ∀ p, p ∈ taken e ↔ Owns s d p

section calls

variable {m : Machine} {s₀ s t u : Kernel} {L L' : Ledger} {fl fl' efl efl' : List Nat}
  {d e n p q v x : Nat} {taken taken' : Nat → Set Nat} {b : Binary} {parent va perm : Word}

namespace Serving

theorem same (h : Serving m s₀ s L fl efl taken) (ht : Orderly m s₀ t L' fl' efl')
    (hlive : ∀ e, Live t e → Live s e)
    (hdir : ∀ e, Live t e → (t.envs e).envPgdir = (s.envs e).envPgdir)
    (hkept : ∀ e d, Live t e → (t.envs e).envPgdir = some d → SpaceKept s t d) :
    Serving m s₀ t L' fl' efl' taken := by
  refine ⟨ht, fun e d hl hd p => ?_⟩
  rw [h.taken e d (hlive e hl) (hdir e hl ▸ hd) p, (hkept e d hl hd).owns]

/-- The call changes the address space of one environment. -/
theorem changed (h₀ : Origin m s₀) (h : Serving m s₀ s L fl efl taken) (ht : Orderly m s₀ t L' fl' efl')
    (hdirs : L'.dirs = L.dirs) (henvs : t.envs = s.envs) (hl : Live s e)
    (hd : (s.envs e).envPgdir = some d) (hkept : ∀ d' ∈ L.dirs, d' ≠ d → SpaceKept s t d')
    (hself : taken' e = inUse s t (taken e)) (hother : ∀ e' ≠ e, taken' e' = taken e') :
    Serving m s₀ t L' fl' efl' taken' := by
  have hsys := h.orderly.system
  refine ⟨ht, fun e' d' hl' hd' p => ?_⟩
  rw [Live, henvs] at hl'
  rw [henvs] at hd'
  by_cases he : e' = e
  · subst he
    obtain rfl : d' = d := by
      rw [hd] at hd'
      exact (Option.some.inj hd').symm
    have hne : d' ≠ s.kernPgdir := fun hk => hsys.env_ne e' hl (hk ▸ hd)
    rw [hself, h.orderly.owns_iff h₀ ht hdirs (hsys.env_mem hl hd) hne hkept p, ← h.taken e' d' hl hd p]
    rfl
  · have hne : d' ≠ d := by
      rintro rfl
      exact he (hsys.env_inj e' e d' hl' hl hd' hd)
    rw [hother e' he, h.taken e' d' hl' hd' p, (hkept d' (hsys.env_mem hl' hd') hne).owns]

/-- The call sets up a new environment, whose pages were all unused before. -/
theorem created {x : Env} (h : Serving m s₀ s L (p :: fl) (e :: efl) taken)
    (ht : Orderly m s₀ t (L.addDir p) fl' efl) (henvs : t.envs = Function.update s.envs e x)
    (hx : x.envPgdir = some p) (hkept : ∀ d ∈ L.dirs, SpaceKept s t d)
    (hnew : ∀ q, Owns t p q ↔ q < t.npages ∧ (t.pages q).ppRef ≠ 0 ∧ (s.pages q).ppRef = 0)
    (hself : taken' e = inUse s t ∅) (hother : ∀ e', Live s e' → taken' e' = taken e') :
    Serving m s₀ t (L.addDir p) fl' efl taken' := by
  refine ⟨ht, fun e' d' hl' hd' q => ?_⟩
  by_cases he : e' = e
  · subst he
    rw [henvs, Function.update_self, hx] at hd'
    cases hd'
    rw [hself, hnew q]
    simp [inUse]
  · rw [Live, henvs, Function.update_of_ne he] at hl'
    rw [henvs, Function.update_of_ne he] at hd'
    rw [hother e' hl', h.taken e' d' hl' hd' q, (hkept d' (h.orderly.system.env_mem hl' hd')).owns]

theorem handOut (h : Serving m s₀ s L (p :: fl) efl taken) (flags : Word) :
    Serving m s₀ (s.handOut flags p) (L.loosen p) fl efl taken := by
  have hsys := h.orderly.system
  have hpaging : Kernel.Paging s (s.handOut flags p) := Kernel.Paging.handOut flags
  have henvs : (s.handOut flags p).envs = s.envs := by rw [hpaging]
  have hkept : ∀ d ∈ L.dirs, SpaceKept s (s.handOut flags p) d :=
    fun d hd => hsys.balanced.spaceKept_handOut hd flags
  have href : HeldKept s (s.handOut flags p) L := by
    intro x _ _
    unfold Kernel.handOut
    rw [Kernel.ppRef_take]
    split <;> exact le_refl _
  have ht := h.orderly.next (hsys.handOut flags) hpaging.npages (hkept _ hsys.mem_kern) href
    (h.orderly.apart.of_kept (fun _ hd => hd) hkept)
  refine h.same ht (fun e hl => ?_) (fun e _ => by rw [henvs]) fun e d hl hd => hkept d ?_
  · rwa [Live, henvs] at hl
  · rw [Live, henvs] at hl
    rw [henvs] at hd
    exact hsys.env_mem hl hd

theorem congr (h : Serving m s₀ s L fl efl taken) (hsys : System m t L' fl' efl') (hmem : t.mem = s.mem)
    (hn : t.npages = s.npages) (hdirs : L'.dirs = L.dirs)
    (href : ∀ x, (t.pages x).ppRef = (s.pages x).ppRef) (hlive : ∀ e, Live t e → Live s e)
    (hdir : ∀ e, Live t e → (t.envs e).envPgdir = (s.envs e).envPgdir) :
    Serving m s₀ t L' fl' efl' taken := by
  have hkept : ∀ d, SpaceKept s t d := fun d => SpaceKept.of_mem hmem
  have ht := h.orderly.next hsys hn (hkept _) (fun p _ _ => (congrArg _ (href p)).le)
    (h.orderly.apart.of_kept (fun _ hd => hdirs ▸ hd) fun d _ => hkept d)
  exact h.same ht hlive hdir fun _ d _ _ => hkept d

theorem inserted (h₀ : Origin m s₀) (h : Serving m s₀ s L fl efl taken) (hl : Live s e)
    (hd : (s.envs e).envPgdir = some d) (ha : Allocated m s p) (hdata : IsData s L p) (hva : pdx va < 955)
    (hperm : perm.toNat < 4096) (hcount : (s.pages p).ppRef.toNat < 65535)
    (hfrom : (s.pages p).ppRef = 0 ∨ p ∈ taken e) {s₁ : Kernel} {fl₁ : List Nat}
    (hready : TableReady s fl d (pdx va) q s₁ fl₁)
    (hself : taken' e = inUse s (s₁.mapAt q (ptx va) p va perm) (taken e))
    (hother : ∀ e' ≠ e, taken' e' = taken e') :
    ∃ fl', Serving m s₀ (s₁.mapAt q (ptx va) p va perm) (L.settle p) fl' efl taken' := by
  have hsys := h.orderly.system
  have hb := hsys.balanced
  have hdm := hsys.env_mem hl hd
  have hf := hsys.notMem_free ha
  have hheld := hsys.held_zero ha hdata.1
  obtain ⟨fl', ht⟩ := hsys.inserted hdm hva ha.1 hf hcount hperm hdata hheld hready
  have hr := hready.mapAt_remaps (p := p) perm hb hdm hva
  have hpaging : Kernel.Paging s (s₁.mapAt q (ptx va) p va perm) := hready.paging.trans Kernel.Paging.mapAt
  have hne : d ≠ s.kernPgdir := fun hk => hsys.env_ne e hl (hk ▸ hd)
  have href : HeldKept s (s₁.mapAt q (ptx va) p va perm) L := by
    intro x hx hxh
    have hxp : x ≠ p := by
      rintro rfl
      exact hxh hheld
    have hxf : x ∉ fl := fun hm => hxh (hb.unreferenced hx (hb.free_ref hm)).2.2
    have hle := hready.ppRef_mapAt perm hb hdm hva hx hxp
    rwa [if_neg hxf] at hle
  have hnew : ∀ v < 955 * 1024, v = pgnum va →
      ∀ x, target ((s₁.mapAt q (ptx va) p va perm).entry d v) = some x →
        ∀ d' ∈ L.dirs, d' ≠ d → ∀ v' < 955 * 1024,
          target ((s₁.mapAt q (ptx va) p va perm).entry d' v') ≠ some x := by
    rintro v - rfl x hx d' hd' hne v' hv' hp
    rw [System.entry_pgnum, hready.mapAt_entry perm hb hdm hva (hb.page_lt ha.1),
      target_entry (hb.page_lt ha.1) (toNat_or_lt hperm (by decide)) (has_or.mpr (Or.inr (by decide)))] at hx
    cases hx
    -- no other environment maps the page
    rw [hr.entry hb hd' hv' fun he => absurd he hne] at hp
    have ho : Owns s d' p := Or.inr (Or.inr ⟨v', hv', hp⟩)
    rcases hfrom with h0 | hmine
    · exact hb.owns_ref hd' ho h0
    · exact hsys.owns_disjoint h.orderly.apart hdm hd' (Ne.symm hne) ((h.taken e d hl hd p).mp hmine) ho
  have htidy : Orderly m s₀ _ _ _ efl := h.orderly.remapped ht hpaging.npages rfl hdm hne hr href hnew
  exact ⟨fl', h.changed h₀ htidy rfl (by rw [hpaging]) hl hd (fun d' hd' hne => hr.spaceKept hb hd' hne)
    hself hother⟩

theorem unmapped (h₀ : Origin m s₀) (h : Serving m s₀ s L fl efl taken) (hl : Live s e)
    (hd : (s.envs e).envPgdir = some d) (hva : pdx va < 955) (hq : target (s.pde d (pdx va)) = some q)
    (hp : target (s.pte d (pdx va) (ptx va)) = some p)
    (hself : taken' e = inUse s (s.unmap q (ptx va) p va) (taken e))
    (hother : ∀ e' ≠ e, taken' e' = taken e') :
    ∃ fl', Serving m s₀ (s.unmap q (ptx va) p va) L fl' efl taken' := by
  have hsys := h.orderly.system
  have hb := hsys.balanced
  have hdm := hsys.env_mem hl hd
  have ht := hsys.unmapped hdm hva hq hp
  have hr : Remaps s (s.unmap q (ptx va) p va) L d (· = pgnum va) := hb.unmap_remaps hdm hva hq
  have hpaging : Kernel.Paging s (s.unmap q (ptx va) p va) := Kernel.Paging.unmap
  have hne : d ≠ s.kernPgdir := fun hk => hsys.env_ne e hl (hk ▸ hd)
  have hheld : L.held p = 0 := (hsys.data d hdm _ hva _ (ptx_lt va) p hp).2
  have href : HeldKept s (s.unmap q (ptx va) p va) L := by
    intro x _ hxh
    have hxp : x ≠ p := by
      rintro rfl
      exact hxh hheld
    rw [Kernel.ppRef_unmap, if_neg hxp]
    simp
  have hnew : ∀ v < 955 * 1024, v = pgnum va → ∀ x, target ((s.unmap q (ptx va) p va).entry d v) = some x →
      ∀ d' ∈ L.dirs, d' ≠ d → ∀ v' < 955 * 1024, target ((s.unmap q (ptx va) p va).entry d' v') ≠ some x := by
    rintro v - rfl x hx
    -- the entry is gone
    have hdq : d ≠ q := by
      rintro rfl
      exact (hb.table d hdm _ (hb.own_user d hdm _ hva) d hq).2 hdm
    have hpde : target ((s.unmap q (ptx va) p va).pde d (pdx va)) = some q := by
      rw [Kernel.pde, Kernel.mem_unmap, if_neg fun he => hdq he.1]
      exact hq
    rw [System.entry_pgnum, Kernel.pte_of_target hpde, Kernel.mem_unmap, if_pos ⟨rfl, rfl⟩,
      target_zero] at hx
    cases hx
  have htidy : Orderly m s₀ _ _ _ efl := h.orderly.remapped ht hpaging.npages rfl hdm hne hr href hnew
  exact ⟨_, h.changed h₀ htidy rfl (by rw [hpaging]) hl hd (fun d' hd' hne => hr.spaceKept hb hd' hne)
    hself hother⟩

theorem envAlloc (h : Serving m s₀ s L (p :: fl) (e :: efl) taken) (parent : Word)
    (hself : taken' e = inUse s ((s.setupVm e p).fillSlot e parent) ∅)
    (hother : ∀ e', Live s e' → taken' e' = taken e') :
    Serving m s₀ ((s.setupVm e p).fillSlot e parent) (L.addDir p) fl efl taken' := by
  have hsys := h.orderly.system
  have ht := h.orderly.allocated parent
  refine h.created ht (fillSlot_envs s e p parent) rfl (fun d hd => hsys.spaceKept_allocated hd parent) ?_
    hself hother
  intro q
  have hp : p < s.npages := hsys.balanced.free_lt List.mem_cons_self
  have hr : (s.pages p).ppRef = 0 := hsys.balanced.free_ref List.mem_cons_self
  have hn := ht.npages.trans h.orderly.npages.symm
  rw [hsys.allocated_owns parent, ppRef_allocated, hn]
  constructor
  · rintro rfl
    rw [hr, if_pos rfl]
    exact ⟨hp, by decide, rfl⟩
  · rintro ⟨-, hne, h0⟩
    by_contra hq
    rw [h0, if_neg hq] at hne
    exact hne rfl

/-- env_create, once it has its slot and its page. -/
theorem envCreate {type : EnvType} (h₀ : Origin m s₀) (h : Serving m s₀ s L (p :: fl) (e :: efl) taken)
    (hu : u = ((s.setupVm e p).fillSlot e 0).setEnv e { newEnv (s.envs e) e p 0 with envType := type })
    (hb : b.BelowUtop) (hload : loadIcode e b u = .ok () t) (hself : taken' e = inUse s t ∅)
    (hother : ∀ e', Live s e' → taken' e' = taken e') :
    ∃ fl', Serving m s₀ t (L.addDir p) fl' efl taken' := by
  have hsys := h.orderly.system
  obtain ⟨hsysu, hl, hd, hempty⟩ := hsys.created type hu
  have hmem : u.mem = ((s.setupVm e p).fillSlot e 0).mem := by rw [hu]; rfl
  have hpages : u.pages = ((s.setupVm e p).fillSlot e 0).pages := by rw [hu]; rfl
  have hkeptu : ∀ d, SpaceKept ((s.setupVm e p).fillSlot e 0) u d := fun d => SpaceKept.of_mem hmem
  have halloc := h.orderly.allocated 0
  have hou : Orderly m s₀ u (L.addDir p) fl efl :=
    halloc.next hsysu (by rw [hu]; rfl) (hkeptu _) (HeldKept.of_pages hpages)
      (halloc.apart.of_kept (fun _ hd => hd) fun d _ => hkeptu d)
  have hsole : Sole u p := Sole.of_empty hempty
  obtain ⟨fl', ht, hr, hs⟩ := hsysu.loadIcode hl hd hsole hb () t hload
  obtain ⟨hheld, hn⟩ := hsysu.loadIcode_heldKept hl hd hsole hb hload
  have hdm := hsysu.env_mem hl hd
  have hne : p ≠ u.kernPgdir := fun hk => hsysu.env_ne e hl (hk ▸ hd)
  have hkept : ∀ d' ∈ (L.addDir p).dirs, d' ≠ p → SpaceKept u t d' :=
    fun d' hd' hne => hr.spaceKept hsysu.balanced hd' hne
  have hot : Orderly m s₀ t (L.addDir p) fl' efl := by
    refine hou.remapped ht hn rfl hdm hne hr hheld ?_
    intro v hv _ q hq d' hd' hdd v' hv' hq'
    obtain ⟨-, -, huniq⟩ := ht.balanced.sole hdm (show v / 1024 < 955 by omega)
      (Nat.mod_lt v (by decide)) hq (hs v hv q hq)
    exact hdd (huniq d' hd' _ (show v' / 1024 < 955 by omega) _ (Nat.mod_lt v' (by decide)) hq').1
  have henvs : t.envs = Function.update s.envs e { newEnv (s.envs e) e p 0 with
      envType := type
      envTf := { (u.envs e).envTf with tfEsp := ustacktop, tfEip := b.eEntry } } := by
    rw [(loadIcode_effect hload).envs, hu]
    simp only [Kernel.setEnv, fillSlot_envs, Function.update_idem, Function.update_self]
  refine ⟨fl', h.created hot henvs rfl (fun d' hd' => ?_) (fun q => ?_) hself hother⟩
  · have hdp : d' ≠ p := by
      rintro rfl
      exact hsys.balanced.free_dir List.mem_cons_self hd'
    exact ((hsys.spaceKept_allocated hd' 0).trans (hkeptu d')).trans
      (hkept d' (Ledger.mem_dirs_addDir.mpr (Or.inr hd')) hdp)
  · have hp : (s.pages p).ppRef = 0 := hsys.balanced.free_ref List.mem_cons_self
    rw [hou.owns_iff h₀ hot rfl hdm hne hkept q, (hkeptu p).owns, hsys.allocated_owns, hpages,
      ppRef_allocated]
    refine and_congr_right fun _ => and_congr_right fun _ => ?_
    by_cases hq : q = p
    · simp [hq, hp]
    · simp [hq]

end Serving

end calls

end Jos
