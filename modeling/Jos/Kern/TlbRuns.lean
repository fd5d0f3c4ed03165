import Jos.Kern.FlushEnvs
import Jos.Kern.Logged
import Jos.Kern.Orderly
import Jos.Kern.Uvpt

/-! TLB coherence over whole runs, and what mem_init's last self-test leaves behind. -/
namespace Jos

open Prog

/-- The event drops the TLB's entries of page `v`. -/
def HwEvent.Drops (v : Nat) : HwEvent → Prop
  | .store _ _ _ => False
  | .lcr3 _ => True
  | .invlpg va => v = pgnum va

namespace Processor

variable {c : Processor} {events : List HwEvent} {v q j : Nat} {x : Translation}

/-- What has been cached stays until it is dropped. -/
theorem tlb_sees (h : ∀ ev ∈ events, ¬ ev.Drops v) (hx : c.tlb v x) : (c.sees events).tlb v x := by
  induction events generalizing c with
  | nil => exact hx
  | cons ev events ih =>
    refine ih (fun ev' hev' => h ev' (List.mem_cons_of_mem _ hev')) ?_
    have hev := h ev List.mem_cons_self
    cases ev with
    | store p i w => exact Or.inl hx
    | lcr3 d => exact absurd trivial hev
    | invlpg va => exact Or.inl ⟨hev, hx⟩

theorem mem_sees (h : ∀ w, HwEvent.store q j w ∉ events) : (c.sees events).mem q j = c.mem q j := by
  induction events generalizing c with
  | nil => rfl
  | cons ev events ih =>
    refine (ih fun w hw => h w (List.mem_cons_of_mem _ hw)).trans ?_
    cases ev with
    | store p i w =>
      refine if_neg ?_
      rintro ⟨rfl, rfl⟩
      exact h w List.mem_cons_self
    | lcr3 d => rfl
    | invlpg va => rfl

theorem cr3_sees (h : ∀ d, HwEvent.lcr3 d ∉ events) : (c.sees events).cr3 = c.cr3 := by
  induction events generalizing c with
  | nil => rfl
  | cons ev events ih =>
    refine (ih fun d hd => h d (List.mem_cons_of_mem _ hd)).trans ?_
    cases ev with
    | store p i w => rfl
    | lcr3 d => exact absurd List.mem_cons_self (h d)
    | invlpg va => rfl

end Processor

section stale

variable {m : Machine} {mem : Nat → Nat → Word} {s : Kernel} {c : Processor}

/-- mem_init clears kern_pgdir's first entry at its end without flushing the window through which the
tables show: the page of the table that was there may still be cached. -/
theorem memInit_stale (hm : memInit m (bss mem) = .ok () s) (hc : c.At (bss mem)) :
    ¬ (c.sees s.log).UpToDate s := by
  obtain ⟨fl, hb, p, events, htrio, hlog⟩ := memInit_booting hm
  have hk : s.cr3 = s.kernPgdir := by
    rw [hb.dir.kernPgdir, hb.rest]
    rfl
  obtain ⟨events', hl, hleads⟩ := memInit_logged m _ _ _ hm
  obtain rfl : s.log = events' := hl
  obtain ⟨hmem, hcr⟩ := hleads c hc
  rw [hlog, Processor.sees_append] at hmem hcr ⊢
  generalize c.sees events = c at hmem hcr ⊢
  have hne : ∀ i, p i ≠ s.kernPgdir := htrio.ne_dir
  rw [Processor.cr3_sees (by simp [installedEvents])] at hcr
  have hkept : (c.sees (installedEvents p s.kernPgdir)).mem s.kernPgdir 957 = c.mem s.kernPgdir 957 :=
    Processor.mem_sees (by simp [installedEvents, (hne _).symm])
  have hself : c.mem s.kernPgdir 957 = selfEntry s.kernPgdir := by
    rw [← hkept, hmem]
    exact hb.dir.self
  have hlt : s.kernPgdir < 2 ^ 20 := hb.dir.balanced.page_lt (hb.dir.balanced.dir_lt _ hb.dir.dirs)
  have hnow : s.mem s.kernPgdir 957 = selfEntry s.kernPgdir := hb.dir.self
  have hcur : c.cr3 = s.kernPgdir := hcr.trans hk
  have hdx : pdx (page2pa (957 * 1024)) = 957 := pdx_page2pa (by decide)
  have htx : ptx (page2pa (957 * 1024)) = 0 := ptx_page2pa (by decide)
  have hflush : ¬ 957 * 1024 = pgnum pgsize := by decide
  -- with the test's page table in the first entry, the window shows it
  obtain ⟨x, hx⟩ : ∃ x, hwWalk (c.see (.store s.kernPgdir 0 (tableEntry (p 0)))).mem s.kernPgdir
      (page2pa (957 * 1024)) = some x := by
    rw [hwWalk_window hlt ((if_neg (by simp)).trans hself) hdx, htx]
    have hentry : (c.see (.store s.kernPgdir 0 (tableEntry (p 0)))).mem s.kernPgdir 0 = tableEntry (p 0) :=
      if_pos ⟨rfl, rfl⟩
    rw [hentry, if_pos (KernelDir.has_tableEntry (by decide) (by decide))]
    exact ⟨_, rfl⟩
  have hcached : (c.see (.store s.kernPgdir 0 (tableEntry (p 0)))).tlb (957 * 1024) x := by
    refine Or.inr ?_
    change hwWalk _ c.cr3 _ = some x
    rw [hcur]
    exact hx
  have hstale : (c.sees (installedEvents p s.kernPgdir)).tlb (957 * 1024) x := by
    refine Processor.tlb_sees (c := c.see _) ?_ hcached
    simp [HwEvent.Drops, hflush]
  intro hup
  have hgone := hup (957 * 1024) (by decide) x hstale
  rw [Processor.Walks, hk, hwWalk_window hlt hnow hdx, htx, hb.dir.user_empty (by decide),
    if_neg not_has_zero] at hgone
  cases hgone

end stale

/-- The calls that load cr3, whatever they are given. -/
def SysCall.Reloads : SysCall → Prop
  | .envCreate _ _ => True
  | .envRun _ => True
  | _ => False

/-- The runs from env_init's state `s₀` on, and whether a call has loaded cr3 in them. -/
inductive TlbRun (m : Machine) (mem : Nat → Nat → Word) (s₀ : Kernel) : Kernel → Prop → Prop
  | start {s : Kernel} : memInit m (bss mem) = .ok () s → envInit s = .ok () s₀ → TlbRun m mem s₀ s₀ False
  | call {s t : Kernel} {reloaded : Prop} {c : SysCall} : TlbRun m mem s₀ s reloaded → c.Legal m s →
      c.exec s = .ok () t → TlbRun m mem s₀ t (reloaded ∨ c.Reloads)

section steps

variable {m : Machine} {mem : Nat → Nat → Word} {s₀ s t : Kernel} {L : Ledger} {fl efl : List Nat}
  {e : Nat} {c : SysCall} {reloaded : Prop}

theorem CurrentLoaded.congr (h : CurrentLoaded s) (hk : t.kernPgdir = s.kernPgdir) (hcr : t.cr3 = s.cr3)
    (hcur : t.curenv = s.curenv) (henvs : ∀ e, s.curenv = some e → Live s e → t.envs e = s.envs e) :
    CurrentLoaded t := by
  rcases h with h | ⟨e, hc, hl, hd⟩
  · exact Or.inl (by rw [hcr, hk, h])
  · have he := henvs e hc hl
    exact Or.inr ⟨e, hcur.trans hc, by rwa [Live, he], by rw [he, hcr, hd]⟩

theorem CurrentLoaded.paging (h : CurrentLoaded s) (hp : Kernel.Paging s t) : CurrentLoaded t := by
  refine h.congr hp.kernPgdir ?_ ?_ fun e _ _ => ?_
  · rw [hp]
  · rw [hp]
  · rw [hp]

theorem CurrentLoaded.allocated (h : CurrentLoaded s) (he : ¬ Live s e) (p : Nat) (parent : Word) :
    CurrentLoaded ((s.setupVm e p).fillSlot e parent) := by
  refine h.congr allocated_kernPgdir ?_ ?_ fun i _ hi => ?_
  · change (s.setupVm e p).cr3 = s.cr3
    rw [setupVm_rest]
  · change (s.setupVm e p).curenv = s.curenv
    rw [setupVm_rest]
  · rw [fillSlot_envs, Function.update_of_ne]
    rintro rfl
    exact he hi

/-- One call: what it flushes, and which directory is loaded then. -/
theorem System.flushed_call (h : System m s L fl efl) (hcur : CurrentLoaded s) (hc : c.Legal m s)
    (hrun : c.exec s = .ok () t) : CurrentLoaded t ∧ Flushed s t ∧ (c.Reloads → Emptied s t) := by
  have hcr := h.cr3_mem hcur
  cases c with
  | pageAlloc allocFlags =>
    obtain ⟨_, u, halloc, hpure⟩ := bind_eq_ok.mp hrun
    obtain ⟨-, rfl⟩ := pure_eq_ok.mp hpure
    refine (and_assoc.mp ⟨?_, fun hr => hr.elim⟩)
    rcases pageAlloc_spec allocFlags h.balanced with ⟨rfl, hok⟩ | ⟨p, fl', rfl, hok, -⟩
    · rw [hok] at halloc
      cases halloc
      exact ⟨hcur, Flushed.refl s⟩
    · rw [hok] at halloc
      cases halloc
      exact ⟨hcur.paging (Kernel.Paging.handOut allocFlags), h.flushed_handOut hcr allocFlags⟩
  | pageFree pp =>
    obtain ⟨ha, hr⟩ := hc
    have hok : Jos.pageFree pp s = .ok () (s.push pp) :=
      pageFree_ok hr (h.balanced.link_null pp ha.1 (h.notMem_free ha))
    rw [SysCall.exec, hok] at hrun
    cases hrun
    exact ⟨hcur.paging Kernel.Paging.push, Flushed.quiet rfl rfl rfl, fun hr => hr.elim⟩
  | pageInsert pgdir pp va perm =>
    obtain ⟨hd, ha, -, hva, -, hcount⟩ := hc
    obtain ⟨_, u, hins, hpure⟩ := bind_eq_ok.mp hrun
    obtain ⟨-, rfl⟩ := pure_eq_ok.mp hpure
    refine (and_assoc.mp ⟨?_, fun hr => hr.elim⟩)
    have hdm := (h.dirs pgdir).mpr hd
    rw [lt_utop_iff] at hva
    rcases pageInsert_spec h.balanced hdm hva ha.1 (h.notMem_free ha) hcount perm with
      ⟨-, -, hok⟩ | ⟨q, s₁, fl₁, hready, hok⟩
    · rw [hok] at hins
      cases hins
      exact ⟨hcur, Flushed.refl s⟩
    · rw [hok] at hins
      cases hins
      exact ⟨hcur.paging (hready.paging.trans Kernel.Paging.mapAt),
        h.flushed_mapAt hcr hdm hva hready pp perm⟩
  | pageRemove pgdir va =>
    obtain ⟨hd, hva⟩ := hc
    have hdm := (h.dirs pgdir).mpr hd
    rw [lt_utop_iff] at hva
    refine (and_assoc.mp ⟨⟨?_, h.flushed_pageRemove hcr hdm hva hrun⟩, fun hr => hr.elim⟩)
    rcases pageRemove_spec h.balanced hdm hva with ⟨-, hok⟩ | ⟨q, p, ht, hp, hok⟩
    · rw [SysCall.exec, hok] at hrun
      cases hrun
      exact hcur
    · rw [SysCall.exec, hok] at hrun
      cases hrun
      exact hcur.paging Kernel.Paging.unmap
  | envAlloc newenvStore parentId =>
    obtain ⟨_, u, halloc, hpure⟩ := bind_eq_ok.mp hrun
    obtain ⟨-, rfl⟩ := pure_eq_ok.mp hpure
    refine (and_assoc.mp ⟨?_, fun hr => hr.elim⟩)
    rcases h.envAlloc newenvStore parentId with ⟨r, -, -, hok⟩ | ⟨e, efl', p, fl', rfl, rfl, hok⟩
    · rw [hok] at halloc
      cases halloc
      exact ⟨hcur, Flushed.refl s⟩
    · rw [hok] at halloc
      cases halloc
      have hfree : ¬ Live s e := fun hl => hl.2 ((h.envs.mem_free e).mp List.mem_cons_self).2
      exact ⟨hcur.allocated hfree p parentId, h.flushed_allocated hcr e parentId⟩
  | envCreate binary type =>
    obtain ⟨e, efl', p, fl', u, rfl, rfl, hu, hsys, hl, hd, hempty, hload⟩ := envCreate_eq_ok h hrun
    obtain ⟨hemptied, hk⟩ := hsys.emptied_loadIcode hl hd (Sole.of_empty hempty) hc hload
    have halloc : Flushed s u := by
      rw [hu]
      exact (h.flushed_allocated hcr e 0).trans (Flushed.quiet rfl rfl rfl)
    exact ⟨Or.inl hk, halloc.trans hemptied.flushed, fun _ => halloc.emptied hemptied⟩
  | envRun e =>
    obtain ⟨hemptied, hd⟩ := emptied_envRun hrun
    obtain ⟨-, hrunning, henvs⟩ := envRun_effect hrun
    refine ⟨Or.inr ⟨e, hrunning, ?_, hd⟩, hemptied.flushed, fun _ => hemptied⟩
    refine ⟨hc.1, ?_⟩
    rw [henvs, Function.update_self]
    simp
  | envFree e =>
    obtain ⟨hflushed, hk, hload⟩ := h.flushed_envFree hcur hc hrun
    obtain ⟨-, hsame, henvs⟩ := envFree_effect hrun
    refine ⟨?_, hflushed, fun hr => hr.elim⟩
    rcases hload with hload | ⟨hne, hload⟩
    · exact Or.inl (hload.trans hk.symm)
    · refine hcur.congr hk hload hsame fun i hi _ => ?_
      rw [henvs, Function.update_of_ne]
      rintro rfl
      exact hne hi
  | userStore va b =>
    obtain ⟨e, -, hl, hd, hw⟩ := hc
    have hdm := h.env_mem hl hd
    have hva := h.userCanWrite_lt hdm hw
    obtain ⟨x, -, -, rfl⟩ := storeByte_eq_ok hrun
    exact ⟨hcur.paging Kernel.Paging.store, (h.flushed_storeByte hcr hva hrun).2.2, fun hr => hr.elim⟩

/-- What a run keeps: the address spaces in order, the right directory loaded, and the TLB flushed. -/
structure RunFlushed (m : Machine) (s₀ s : Kernel) (reloaded : Prop) : Prop where
  system : ∃ L fl efl, System m s L fl efl
  loaded : CurrentLoaded s
  flushed : Flushed s₀ s
  emptied : reloaded → Emptied s₀ s

theorem TlbRun.flushed (h : TlbRun m mem s₀ s reloaded) : RunFlushed m s₀ s reloaded := by
  induction h with
  | start hm hi =>
    obtain ⟨fl, efl, hb, hsys, -⟩ := system_start hm hi
    refine ⟨⟨_, fl, efl, hsys⟩, Or.inl ?_, Flushed.refl _, fun hr => hr.elim⟩
    obtain ⟨s₁, hs₁, hrest⟩ := envInit_returns _
    rw [hi] at hs₁
    cases hs₁
    rw [hsys.kernPgdir, hrest, hb.rest]
    rfl
  | call _ hc hrun ih =>
    obtain ⟨L, fl, efl, hsys⟩ := ih.system
    obtain ⟨hloaded, hflushed, hemptied⟩ := hsys.flushed_call ih.loaded hc hrun
    refine ⟨hsys.call hc hrun, hloaded, ih.flushed.trans hflushed, ?_⟩
    rintro (hr | hr)
    · exact (ih.emptied hr).trans hflushed
    · exact ih.flushed.emptied (hemptied hr)

/-- Once a call has loaded cr3, the TLB holds nothing stale after any call; before that, nothing that
was not there at the start. The loaded directory is never that of a freed environment. -/
theorem tlbRun_upToDate (h : TlbRun m mem s₀ t reloaded) : CurrentLoaded t ∧
    ∀ c : Processor, c.At s₀ → c.UpToDate s₀ ∨ reloaded →
      (c.sees (t.log.drop s₀.log.length)).UpToDate t := by
  have hr := h.flushed
  refine ⟨hr.loaded, fun c hat hc => ?_⟩
  rcases hc with hc | hc
  · obtain ⟨events, hl, hflushed⟩ := hr.flushed
    rw [hl.1, List.drop_left]
    exact hflushed c hat hc
  · obtain ⟨events, hl, hemptied⟩ := hr.emptied hc
    rw [hl.1, List.drop_left]
    exact hemptied c hat

/-- On the small machine: env_alloc and env_run, whatever the TLB holds at the start. -/
theorem tlbRun_upToDate_smallMachine : ∃ s₀ t, CurrentLoaded t ∧ t.cr3 ≠ t.kernPgdir ∧
    ∀ c : Processor, c.At s₀ → (c.sees (t.log.drop s₀.log.length)).UpToDate t := by
  obtain ⟨s, s₀, fl, efl, hm, hi, hsys, hlen, hslots⟩ := start_smallMachine
  have hslot : 0 ∈ efl := hslots 0 (by decide)
  rcases hsys.envAlloc none 0 with ⟨r, -, hempty, -⟩ | ⟨e, efl', p, fl', rfl, rfl, hrun⟩
  · rcases hempty with rfl | rfl
    · cases hslot
    · simp at hlen
  · have hexec : (SysCall.envAlloc none 0).exec s₀ = .ok () ((s₀.setupVm e p).fillSlot e 0) := by
      rw [SysCall.exec, bind_ok hrun]
      rfl
    obtain ⟨hl, hd⟩ := hsys.allocated_live 0
    obtain ⟨t, hrun', hcr⟩ := envRun_returns hd
    have halloc := TlbRun.call (c := .envAlloc none 0) (.start hm hi) trivial hexec
    have hafter := TlbRun.call (c := .envRun e) halloc hl hrun'
    obtain ⟨hloaded, htlb⟩ := tlbRun_upToDate hafter
    refine ⟨s₀, t, hloaded, fun hk => ?_, fun c hc => htlb c hc (Or.inr (Or.inr trivial))⟩
    -- the new directory was a free page
    have hsame : p = s₀.kernPgdir := by
      rw [← hcr, hk, ((hsys.allocated 0).envRun hl hrun').kernPgdir, hsys.kernPgdir]
    exact hsys.balanced.free_dir List.mem_cons_self (hsame ▸ hsys.mem_kern)

/-- On the small machine: a first page_remove of an address that nothing is mapped at. -/
theorem not_tlbRun_upToDate : ∃ s₀ t, TlbRun smallMachine (fun _ _ => 0) s₀ s₀ False ∧
    (SysCall.pageRemove s₀.kernPgdir 0).Legal smallMachine s₀ ∧
    (SysCall.pageRemove s₀.kernPgdir 0).exec s₀ = .ok () t ∧
    ∀ c : Processor, c.At (bss fun _ _ => 0) → ¬ (c.sees t.log).UpToDate t := by
  obtain ⟨s, s₀, fl, efl, hm, hi, hsys, -, -⟩ := start_smallMachine
  have hstart : TlbRun smallMachine (fun _ _ => 0) s₀ s₀ False := .start hm hi
  obtain ⟨s₁, hs₁, hrest⟩ := envInit_returns s
  rw [hi] at hs₁
  cases hs₁
  have hbare := (Origin.of_start hm hi).bare 0 (by decide)
  have hrun : pageRemove s₀.kernPgdir 0 s₀ = .ok () s₀ := pageRemove_noTable hbare
  have hlog : s₀.log = s.log := by rw [hrest]
  have hmem : s₀.mem = s.mem := by rw [hrest]
  have hcr : s₀.cr3 = s.cr3 := by rw [hrest]
  refine ⟨s₀, s₀, hstart, ⟨Or.inl rfl, by decide⟩, hrun, fun c hc hup => memInit_stale hm hc ?_⟩
  rw [Processor.UpToDate, hlog, hmem, hcr] at hup
  exact hup

end steps

end Jos
