import Jos.Kern.FlushCalls

/-! env_alloc, load_icode, env_run and env_free leave nothing stale in the TLB. -/
namespace Jos

open Prog

section alloc

variable {m : Machine} {s t : Kernel} {L : Ledger} {fl efl : List Nat} {e p : Nat}

/-- The new directory is filled before any entry names it. -/
theorem OffWalk.copyDir (h : OffWalk s p) (n : Nat) :
    OffWalk (s.copyDir p n) p ∧ Flushed s (s.copyDir p n) := by
  induction n with
  | zero => exact ⟨h, Flushed.refl s⟩
  | succ n ih =>
    obtain ⟨hoff, hflushed⟩ := ih
    exact ⟨hoff.store hoff, hflushed.trans (Flushed.store_outside hoff)⟩

theorem System.flushed_setupVm (h : System m s L (p :: fl) efl) (hc : s.cr3 ∈ L.dirs) (e : Nat) :
    Flushed s (s.setupVm e p) := by
  have hoff : OffWalk s p := h.offWalk_free hc List.mem_cons_self
  have hfill : Flushed s (s.fill p 1024 0#32) := Flushed.fill hoff
  have hquiet : Flushed (s.fill p 1024 0#32) ((((s.fill p 1024 0#32).take p).incRef p).setEnv e
      { (((s.fill p 1024 0#32).take p).incRef p).envs e with envPgdir := some p }) :=
    Flushed.quiet rfl rfl rfl
  have hoff' : OffWalk ((((s.fill p 1024 0#32).take p).incRef p).setEnv e
      { (((s.fill p 1024 0#32).take p).incRef p).envs e with envPgdir := some p }) p :=
    hoff.fill.congr rfl rfl
  unfold Kernel.setupVm
  dsimp only
  generalize npdentries - pdx utop = n
  obtain ⟨hlast, hcopy⟩ := hoff'.copyDir n
  exact ((hfill.trans hquiet).trans hcopy).trans (Flushed.store_outside hlast)

theorem System.flushed_allocated (h : System m s L (p :: fl) efl) (hc : s.cr3 ∈ L.dirs) (e : Nat)
    (parent : Word) : Flushed s ((s.setupVm e p).fillSlot e parent) :=
  (h.flushed_setupVm hc e).trans (Flushed.quiet rfl rfl rfl)

end alloc

section load

variable {m : Machine} {s t u : Kernel} {L : Ledger} {fl efl : List Nat} {d e n : Nat} {va : Word}
  {c : Nat → Byte} {b : Byte} {bin : Binary} {ph : Proghdr}

namespace System

/-- A store below UTOP, which ends in a data page. -/
theorem flushed_storeByte (h : System m s L fl efl) (hc : s.cr3 ∈ L.dirs) (hva : pdx va < 955)
    (hrun : storeByte va b s = .ok () t) : System m t L fl efl ∧ t.cr3 = s.cr3 ∧ Flushed s t := by
  obtain ⟨x, hx, -, rfl⟩ := storeByte_eq_ok hrun
  have hp := (hwWalk_eq_some.mp hx).1
  obtain ⟨hdata, -⟩ := h.data _ hc _ hva _ (ptx_lt va) _ hp
  exact ⟨h.storeData hdata _ _, rfl, Flushed.store_outside (h.offWalk_data hc hdata)⟩

/-- A loop of stores that does not step over UTOP. -/
theorem flushed_stores (h : System m s L fl efl) (hc : s.cr3 ∈ L.dirs) {f : Nat → Word}
    (hf : ∀ k < n, (∀ j < k, pdx (f j) < 955) → pdx (f k) < 955 ∨ f k = utop)
    (hrun : forRange (fun k => storeByte (f k) (c k)) n s = .ok () t) : Flushed s t := by
  have hloop := forRange_ensures (n := n) (I := fun k t => (∀ j < k, pdx (f j) < 955) ∧
    System m t L fl efl ∧ t.cr3 = s.cr3 ∧ Flushed s t)
    ⟨fun j hj => absurd hj (Nat.not_lt_zero j), h, rfl, Flushed.refl s⟩ ?_ () t hrun
  · exact hloop.2.2.2
  rintro k hk t ⟨hbelow, ht, hcr, hflushed⟩ ⟨⟩ u hu
  have hct : t.cr3 ∈ L.dirs := hcr ▸ hc
  have hva : pdx (f k) < 955 := by
    rcases hf k hk hbelow with hva | hutop
    · exact hva
    · rw [hutop] at hu
      exact absurd hu (Loading.guard ht hct rfl)
  obtain ⟨hsys, hcu, hstore⟩ := ht.flushed_storeByte hct hva hu
  refine ⟨fun j hj => ?_, hsys, hcu.trans hcr, hflushed.trans hstore⟩
  by_cases hjk : j = k
  · exact hjk ▸ hva
  · exact hbelow j (by omega)

theorem flushed_storeUp (h : System m s L fl efl) (hc : s.cr3 ∈ L.dirs) (hva : va.toNat ≤ utop.toNat)
    (hrun : forRange (fun k => storeByte (va + BitVec.ofNat 32 k) (c k)) n s = .ok () t) :
    Flushed s t := by
  rw [toNat_utop] at hva
  refine h.flushed_stores hc (fun k _ hbelow => ?_) hrun
  have hle : va.toNat + k ≤ 955 * 2 ^ 22 := by
    induction k with
    | zero => exact hva
    | succ k ih =>
      have hk := ih (by omega) fun j hj => hbelow j (by omega)
      have hlast := hbelow k (by omega)
      rw [pdx_eq, BitVec.toNat_add, BitVec.toNat_ofNat] at hlast
      omega
  have hk : (va + BitVec.ofNat 32 k).toNat = va.toNat + k := by
    rw [BitVec.toNat_add, BitVec.toNat_ofNat]
    omega
  by_cases he : va.toNat + k = 955 * 2 ^ 22
  · exact Or.inr (BitVec.eq_of_toNat_eq (by rw [hk, he, toNat_utop]))
  · rw [pdx_eq, hk]
    exact Or.inl (by omega)

theorem flushed_memcpy {off len : Word} (h : System m s L fl efl) (hc : s.cr3 ∈ L.dirs)
    (hva : va.toNat ≤ utop.toNat)
    (hback : bin.start + off < va → va.toNat + len.toNat ≤ utop.toNat)
    (hrun : Jos.memcpy va bin off len s = .ok () t) : Flushed s t := by
  unfold Jos.memcpy at hrun
  dsimp only at hrun
  split at hrun
  · rename_i hover
    have hend := hback hover.1
    rw [toNat_utop] at hend
    refine h.flushed_stores hc (fun k hk _ => Or.inl ?_) hrun
    rw [pdx_eq, BitVec.toNat_add, BitVec.toNat_ofNat]
    omega
  · exact h.flushed_storeUp hc hva hrun

end System

/-- One segment: fresh pages, and its bytes stored in them. -/
theorem Loading.flushed_segment (h : Loading m s t L fl efl d) (hd : d ∈ L.dirs) (hcr : s.cr3 = d)
    (he : (s.envs e).envPgdir = some d) (hph : ph.pType = elfProgLoad → ph.BelowUtop bin)
    (hrun : loadSegment e bin ph t = .ok () u) : Flushed t u := by
  by_cases hload : ph.pType = elfProgLoad
  · obtain ⟨hmem, hfile⟩ := hph hload
    have het : (t.envs e).envPgdir = some d := by rw [h.paging, ← he]
    have hct : t.cr3 = d := by rw [h.paging, ← hcr]
    rw [loadSegment, if_pos hload] at hrun
    obtain ⟨_, t₁, halloc, hrun⟩ := bind_eq_ok.mp hrun
    obtain ⟨_, t₂, hcopy, hzero⟩ := bind_eq_ok.mp hrun
    have hrange : pgnum ph.pVa + (ph.pMemsz.toNat + 4095) / 4096 ≤ 955 * 1024 := by
      rw [toNat_utop] at hmem
      rw [pgnum_eq]
      omega
    obtain ⟨fl₁, hr⟩ := regionAlloc_mapped h.system.balanced het hd hmem () t₁ halloc
    have h₁ := h.region hd hrange hr
    obtain ⟨hend, h₂, -⟩ := h₁.memcpy hd hcr (by omega) hfile () t₂ hcopy
    have hc₁ : t₁.cr3 ∈ L.dirs := by
      rw [h₁.paging]
      exact hcr ▸ hd
    have hc₂ : t₂.cr3 ∈ L.dirs := by
      rw [h₂.paging]
      exact hcr ▸ hd
    have hva : (ph.pVa + ph.pFilesz).toNat ≤ utop.toNat := by
      rw [toNat_utop] at hend ⊢
      rw [BitVec.toNat_add]
      omega
    have hflushed := h.system.flushed_regionAlloc (hct ▸ hd) hd het hmem halloc
    exact (hflushed.trans (h₁.system.flushed_memcpy hc₁ (by omega) hfile hcopy)).trans
      (h₂.system.flushed_storeUp hc₂ hva hzero)
  · rw [loadSegment, if_neg hload] at hrun
    obtain ⟨-, rfl⟩ := pure_eq_ok.mp hrun
    exact Flushed.refl t

/-- load_icode empties the TLB twice, and ends in kern_pgdir. -/
theorem System.emptied_loadIcode (h : System m s L fl efl) (hl : Live s e)
    (hd : (s.envs e).envPgdir = some d) (hsole : Sole s d) (hb : bin.BelowUtop)
    (hrun : Jos.loadIcode e bin s = .ok () t) : Emptied s t ∧ t.cr3 = t.kernPgdir := by
  have hdm := h.env_mem hl hd
  obtain ⟨u, v, hloop, hstack, -, rfl⟩ := loadIcode_eq_ok hd hrun
  have hstart : Loading m (s.loadCr3 d) (s.loadCr3 d) L fl efl d :=
    ⟨h.loadCr3 d, Kernel.Paging.refl _, Remaps.of_mem rfl, hsole⟩
  obtain ⟨⟨fl₁, hu⟩, hflushed⟩ := forRange_ensures
    (I := fun _ u => (∃ fl', Loading m (s.loadCr3 d) u L fl' efl d) ∧ Flushed (s.loadCr3 d) u)
    ⟨⟨fl, hstart⟩, Flushed.refl _⟩ (by
      rintro k hk u ⟨⟨fl', hu⟩, hflushed⟩ ⟨⟩ w hw
      exact ⟨hu.step hdm rfl hd (hb k hk) () w hw,
        hflushed.trans (hu.flushed_segment hdm rfl hd (hb k hk) hw)⟩) () u hloop
  obtain ⟨fl₂, hr, -⟩ := hu.stack hdm hd hstack
  have hkern : (u.loadCr3 u.kernPgdir).cr3 ∈ L.dirs := hu.system.mem_kern
  have het : ((u.loadCr3 u.kernPgdir).envs e).envPgdir = some d := by
    change (u.envs e).envPgdir = some d
    rw [hu.paging, ← hd]
    rfl
  have hlast : Flushed (u.loadCr3 u.kernPgdir) v :=
    (hu.system.loadCr3 _).flushed_regionAlloc hkern hdm het (by decide) hstack
  have hemptied : Emptied s v :=
    ((Emptied.lcr3.trans hflushed).flushed.emptied Emptied.lcr3).trans hlast
  refine ⟨hemptied.trans (Flushed.quiet rfl rfl rfl), ?_⟩
  change v.cr3 = v.kernPgdir
  rw [hr.paging]
  rfl

end load

section run

variable {s t : Kernel} {d e : Nat}

theorem envRun_eq_ok (hrun : envRun e s = .ok () t) : ∃ (d : Nat) (u : Kernel),
    (u.envs e).envPgdir = some d ∧ u.mem = s.mem ∧ u.cr3 = s.cr3 ∧ u.log = s.log ∧ t = u.loadCr3 d := by
  rw [envRun] at hrun
  obtain ⟨_, u₁, hpre, hrun⟩ := bind_eq_ok.mp hrun
  obtain ⟨_, u₂, hcur, hrun⟩ := bind_eq_ok.mp hrun
  obtain ⟨_, u₃, hst, hrun⟩ := bind_eq_ok.mp hrun
  obtain ⟨_, u₄, hruns, hrun⟩ := bind_eq_ok.mp hrun
  obtain ⟨d, u₅, hpa, hload⟩ := bind_eq_ok.mp hrun
  obtain rfl := update_eq_ok.mp hpre
  obtain rfl := update_eq_ok.mp hcur
  obtain rfl := update_eq_ok.mp hst
  obtain rfl := update_eq_ok.mp hruns
  obtain rfl := envPgdirPa_observes e _ _ _ hpa
  obtain rfl := update_eq_ok.mp hload
  have hpre : s.preempt.mem = s.mem ∧ s.preempt.cr3 = s.cr3 ∧ s.preempt.log = s.log := by
    unfold Kernel.preempt
    split
    · exact ⟨rfl, rfl, rfl⟩
    · split
      · exact ⟨rfl, rfl, rfl⟩
      · exact ⟨rfl, rfl, rfl⟩
  refine ⟨d, _, ?_, ?_, ?_, ?_, rfl⟩
  · rw [envPgdirPa, bind_ok (read_apply _)] at hpa
    split at hpa
    · exact absurd hpa stop_ne_ok
    · rename_i pgdir hdir
      obtain ⟨rfl, -⟩ := pure_eq_ok.mp hpa
      exact hdir
  · exact hpre.1
  · exact hpre.2.1
  · exact hpre.2.2

theorem emptied_envRun (hrun : envRun e s = .ok () t) :
    Emptied s t ∧ (t.envs e).envPgdir = some t.cr3 := by
  obtain ⟨d, u, hd, hm, hc, hl, rfl⟩ := envRun_eq_ok hrun
  exact ⟨(Flushed.quiet hm hc hl).emptied Emptied.lcr3, hd⟩

end run

section free

variable {m : Machine} {s t u : Kernel} {L : Ledger} {fl efl : List Nat} {d e i n q last : Nat}

theorem flushed_freePte (h : TableEmptied m s t L efl d i n) (hc : s.cr3 ∈ L.dirs) (hd : d ∈ L.dirs)
    (hi : i < 955) (hn : n < 1024) (hrun : freePte d q i n t = .ok () u) : Flushed t u := by
  obtain ⟨fl, hsys⟩ := h.system
  have hct : t.cr3 ∈ L.dirs := by
    rw [h.paging]
    exact hc
  rw [freePte, bind_ok (read_apply t), Prog.ite_apply] at hrun
  split at hrun
  · rw [pgaddr_eq (by omega) hn] at hrun
    refine hsys.flushed_pageRemove hct hd ?_ hrun
    rw [pdx_page2pa (by omega)]
    omega
  · obtain ⟨-, rfl⟩ := pure_eq_ok.mp hrun
    exact Flushed.refl t

/-- The entries of one table. -/
theorem System.flushed_freeTable (h : System m s L fl efl) (hc : s.cr3 ∈ L.dirs) (hd : d ∈ L.dirs)
    (hi : i < 955) (ht : target (s.pde d i) = some q) (hlast : last ≤ 1024)
    (hrun : forRange (fun pteno => freePte d q i pteno) last s = .ok () t) :
    TableEmptied m s t L efl d i last ∧ Flushed s t := by
  have hstart : TableEmptied m s s L efl d i 0 :=
    ⟨⟨fl, h⟩, Kernel.Paging.refl s, Spares.refl s L d, fun _ => rfl,
      fun j hj => absurd hj (Nat.not_lt_zero j)⟩
  refine forRange_ensures (I := fun j u => TableEmptied m s u L efl d i j ∧ Flushed s u)
    ⟨hstart, Flushed.refl s⟩ ?_ () t hrun
  rintro j hj u ⟨hu, hflushed⟩ ⟨⟩ v hv
  exact ⟨(freePte_emptied hu hd hi ht (by omega)).ensures () v hv,
    hflushed.trans (flushed_freePte hu hc hd hi (by omega) hv)⟩

/-- One table, of a directory that is not loaded. -/
theorem flushed_freePde (h : SpaceEmptied m s t L efl d n) (hc : s.cr3 ∈ L.dirs) (hd : d ∈ L.dirs)
    (hne : d ≠ s.cr3) (he : (s.envs e).envPgdir = some d) (hn : n < 955)
    (hrun : freePde e n t = .ok () u) : Flushed t u := by
  obtain ⟨fl, hsys⟩ := h.system
  have hct : t.cr3 = s.cr3 := by rw [h.paging]
  have hdir : envPgdir e t = .ok d t := envPgdir_ok (by rw [h.paging]; exact he)
  rw [freePde, bind_ok hdir, bind_ok (read_apply t), Prog.ite_apply] at hrun
  split at hrun
  · rename_i hP
    have ht : target (t.pde d n) = some (pgnum (t.mem d n)) := target_eq_some.mpr ⟨hP, rfl⟩
    have hq := (hsys.balanced.table d hd n (hsys.balanced.own_user d hd n hn) _ ht).1
    have hka : kaddr (pteAddr (t.mem d n)) t = .ok (pgnum (t.mem d n)) t := by
      rw [kaddr_ok (by rwa [pgnum_pteAddr]), pgnum_pteAddr]
    have hlast : nptentries ≤ 1024 := by decide
    rw [bind_ok hka] at hrun
    generalize nptentries = last at hrun hlast
    obtain ⟨_, v, hloop, hrun⟩ := bind_eq_ok.mp hrun
    obtain ⟨_, v₁, hstore, hrun⟩ := bind_eq_ok.mp hrun
    obtain ⟨pp, v₂, hpa, hdec⟩ := bind_eq_ok.mp hrun
    obtain rfl := update_eq_ok.mp hstore
    obtain rfl := pa2page_observes _ _ _ _ hpa
    obtain ⟨hv, hflushed⟩ := hsys.flushed_freeTable (hct ▸ hc) hd hn ht hlast hloop
    obtain ⟨fl₁, hsys₁⟩ := hv.system
    have hcv : v.cr3 = s.cr3 := by rw [hv.paging, ← hct]
    have hoff : OffWalk v d := hsys₁.offWalk_dir (hcv ▸ hc) hd (hcv ▸ hne)
    exact (hflushed.trans (Flushed.store_outside hoff)).trans
      (Flushed.of_seenPart ((pageDecref_keepsBeside pp).comp Kernel.seenPart _ _ _ hdec))
  · obtain ⟨-, rfl⟩ := pure_eq_ok.mp hrun
    exact Flushed.refl t

theorem System.flushed_freeTables (h : System m s L fl efl) (hc : s.cr3 ∈ L.dirs) (hd : d ∈ L.dirs)
    (hne : d ≠ s.cr3) (he : (s.envs e).envPgdir = some d) (hlast : last ≤ 955)
    (hrun : forRange (freePde e) last s = .ok () t) :
    Kernel.Paging s t ∧ Flushed s t := by
  have hstart : SpaceEmptied m s s L efl d 0 :=
    ⟨⟨fl, h⟩, Kernel.Paging.refl s, Spares.refl s L d, fun i hi => absurd hi (Nat.not_lt_zero i)⟩
  have hloop := forRange_ensures (I := fun n u => SpaceEmptied m s u L efl d n ∧ Flushed s u)
    ⟨hstart, Flushed.refl s⟩ ?_ () t hrun
  · exact ⟨hloop.1.paging, hloop.2⟩
  rintro n hn u ⟨hu, hflushed⟩ ⟨⟩ v hv
  exact ⟨(freePde_emptied hu hd he (by omega)).ensures () v hv,
    hflushed.trans (flushed_freePde hu hc hd hne he (by omega) hv)⟩

/-- env_free leaves the address space before it takes it apart. -/
theorem System.flushed_envFree (h : System m s L fl efl) (hc : CurrentLoaded s) (hl : Live s e)
    (hrun : Jos.envFree e s = .ok () t) : Flushed s t ∧ t.kernPgdir = s.kernPgdir ∧
      (t.cr3 = s.kernPgdir ∨ s.curenv ≠ some e ∧ t.cr3 = s.cr3) := by
  obtain ⟨d, hd, hdm, hdk⟩ := h.env_dir hl
  have hlast : pdx utop ≤ 955 := pdx_utop.le
  rw [Jos.envFree] at hrun
  generalize pdx utop = last at hrun hlast
  obtain ⟨_, u, hleave, hrun⟩ := bind_eq_ok.mp hrun
  have hu : System m u L fl efl ∧ u.envs = s.envs ∧ u.kernPgdir = s.kernPgdir ∧ Flushed s u ∧
      u.cr3 ∈ L.dirs ∧ d ≠ u.cr3 ∧ (u.cr3 = s.kernPgdir ∨ s.curenv ≠ some e ∧ u.cr3 = s.cr3) := by
    rw [leaveEnv, bind_ok (read_apply s), Prog.ite_apply] at hleave
    split at hleave
    · obtain rfl := update_eq_ok.mp hleave
      exact ⟨h.loadCr3 _, rfl, rfl, Emptied.lcr3.flushed, h.mem_kern, hdk, Or.inl rfl⟩
    · rename_i hcur
      obtain ⟨-, rfl⟩ := pure_eq_ok.mp hleave
      refine ⟨h, rfl, rfl, Flushed.refl s, h.cr3_mem hc, ?_, Or.inr ⟨hcur, rfl⟩⟩
      rintro rfl
      rcases hc with hk | ⟨e', hcur', hl', hd'⟩
      · exact hdk hk
      · exact hcur (h.env_inj e' e _ hl' hl hd' hd ▸ hcur')
  obtain ⟨hsys, henvs, hk, hflushed, hcu, hne, hcr⟩ := hu
  obtain ⟨_, v, hloop, hrun⟩ := bind_eq_ok.mp hrun
  obtain ⟨hpaging, hflushed'⟩ := hsys.flushed_freeTables hcu hdm hne (henvs ▸ hd) hlast hloop
  -- the rest only touches the tables of pages and environments
  have hseen : t.seenPart = v.seenPart := by
    refine Keeps.bind (envPgdirPa_observes e).keeps (fun _ => ?_) v () t hrun
    refine Keeps.bind (keeps_update fun _ => rfl) fun _ => (pa2page_observes _).keeps.bind fun pp => ?_
    refine ((pageDecref_keepsBeside pp).comp Kernel.seenPart).bind fun _ => ?_
    refine Keeps.bind (keeps_update fun _ => rfl) fun _ => ?_
    exact Keeps.bind (keeps_update fun _ => rfl) fun _ => keeps_update fun _ => rfl
  refine ⟨(hflushed.trans hflushed').trans (Flushed.of_seenPart hseen), ?_⟩
  simp only [Kernel.seenPart, Prod.mk.injEq] at hseen
  rw [hseen.2.1, hseen.2.2.2, hpaging]
  exact ⟨hk, hcr⟩

end free

end Jos
