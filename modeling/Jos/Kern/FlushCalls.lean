import Jos.Kern.Flush

/-! page_insert, page_remove, env_create, env_run and env_free leave nothing stale in the TLB. -/
namespace Jos

open Prog

/-- cr3 names kern_pgdir, or the directory of the current environment. -/
def CurrentLoaded (s : Kernel) : Prop :=
  s.cr3 = s.kernPgdir ∨ ∃ e, s.curenv = some e ∧ Live s e ∧ (s.envs e).envPgdir = some s.cr3

section pages

variable {m : Machine} {s t u s₁ : Kernel} {L : Ledger} {fl fl₁ efl : List Nat}
  {d e i p q v x : Nat} {va perm flags : Word}

namespace System

theorem cr3_mem (h : System m s L fl efl) (hc : CurrentLoaded s) : s.cr3 ∈ L.dirs := by
  rcases hc with hk | ⟨e, -, hl, hd⟩
  · exact hk ▸ h.mem_kern
  · exact h.env_mem hl hd

/-- What an entry of the loaded directory names: itself, or an owned table. -/
theorem table_cases (h : System m s L fl efl) (hd : d ∈ L.dirs) (hi : i < 1024)
    (ht : target (s.pde d i) = some q) : q = d ∨ ∃ d' ∈ L.dirs, i ∈ L.own d' ∧ target (s.pde d' i) = some q ∧
      (i < 955 → d' = d) := by
  by_cases hself : i = 957
  · subst hself
    rw [h.self d hd, selfEntry, BitVec.or_assoc,
      target_entry (h.balanced.page_lt (h.balanced.dir_lt d hd)) (by decide) (by decide)] at ht
    exact Or.inl (Option.some.inj ht).symm
  · have hk : i ∈ kernOwn := mem_kernOwn.mpr ⟨hi, hself⟩
    by_cases hlow : i < 955
    · exact Or.inr ⟨d, hd, h.balanced.own_user d hd i hlow, ht, fun _ => rfl⟩
    · rw [h.upper d hd i hk (by omega)] at ht
      exact Or.inr ⟨_, h.mem_kern, h.own_kern ▸ hk, ht, fun hi' => absurd hi' hlow⟩

theorem offWalk (h : System m s L fl efl) (hc : s.cr3 ∈ L.dirs) (hp : p ≠ s.cr3)
    (hno : ∀ d ∈ L.dirs, ∀ i ∈ L.own d, target (s.pde d i) ≠ some p) : OffWalk s p := by
  refine ⟨hp, fun i hi ht => ?_⟩
  rcases h.table_cases hc hi ht with he | ⟨d, hd, hown, ht', -⟩
  · exact hp he
  · exact hno d hd i hown ht'

theorem offWalk_free (h : System m s L fl efl) (hc : s.cr3 ∈ L.dirs) (hp : p ∈ fl) : OffWalk s p := by
  obtain ⟨hrefs, hdir, -⟩ := h.balanced.unreferenced (h.balanced.free_lt hp) (h.balanced.free_ref hp)
  exact h.offWalk hc (fun he => hdir (he ▸ hc)) fun d hd i hi => Balanced.table_ne_of_refs hrefs hd hi

theorem offWalk_data (h : System m s L fl efl) (hc : s.cr3 ∈ L.dirs) (hp : IsData s L p) : OffWalk s p :=
  h.offWalk hc (fun he => hp.1 (he ▸ hc)) hp.2

/-- A directory that is not loaded. -/
theorem offWalk_dir (h : System m s L fl efl) (hc : s.cr3 ∈ L.dirs) (hd : d ∈ L.dirs) (hne : d ≠ s.cr3) :
    OffWalk s d :=
  h.offWalk hc hne fun d' hd' i hi ht => (h.balanced.table d' hd' i hi d ht).2 hd

/-- Changing an entry below UTOP of some table changes the walk of its own page only. -/
theorem walk_other (h : System m s L fl efl) (hc : s.cr3 ∈ L.dirs) (hd : d ∈ L.dirs) (hva : pdx va < 955)
    (ht : target (s.pde d (pdx va)) = some q) {w : Word} (hv : v < 2 ^ 20) (hne : v ≠ pgnum va)
    {x : Translation} (hx : Processor.Walks s.mem s.cr3 v x) :
    Processor.Walks (s.store q (ptx va) w).mem s.cr3 v x := by
  have hown := h.balanced.own_user d hd _ hva
  have hq := (h.balanced.table d hd _ hown q ht).2
  refine hx.of_entries (fun _ => ?_) fun hP _ => ?_
  · exact Kernel.mem_store_of_ne fun he => hq (he ▸ hc)
  · rw [Kernel.mem_store, if_neg]
    rintro ⟨hpage, hidx⟩
    have htv : target (s.pde s.cr3 (pdx (page2pa v))) = some q := target_eq_some.mpr ⟨hP, hpage⟩
    rcases h.table_cases hc (pdx_lt _) htv with he | ⟨d', hd', hown', ht', -⟩
    · exact hq (he ▸ hc)
    · -- the table belongs to one entry only
      obtain ⟨-, hi⟩ := h.balanced.table_inj d' hd' _ hown' d hd _ hown q ht' ht
      apply hne
      rw [← pgnum_page2pa hv, pgnum_eq_indices, pgnum_eq_indices, hi, hidx]

theorem flushed_handOut (h : System m s L (p :: fl) efl) (hc : s.cr3 ∈ L.dirs) (flags : Word) :
    Flushed s (s.handOut flags p) := by
  unfold Kernel.handOut
  split
  · have hfill : Flushed s (s.fill p 1024 0#32) := Flushed.fill (h.offWalk_free hc List.mem_cons_self)
    exact hfill.trans (Flushed.quiet rfl rfl rfl)
  · exact Flushed.quiet rfl rfl rfl

end System

theorem flushed_drop (s : Kernel) (p : Nat) : Flushed s (s.drop p) := by
  unfold Kernel.drop
  split
  · exact Flushed.quiet rfl rfl rfl
  · exact Flushed.quiet rfl rfl rfl

theorem drop_cr3 (s : Kernel) (p : Nat) : (s.drop p).cr3 = s.cr3 := by
  unfold Kernel.drop
  split <;> rfl

namespace System

/-- An entry is cleared, and its page flushed. -/
theorem flushed_unmap (h : System m s L fl efl) (hc : s.cr3 ∈ L.dirs) (hd : d ∈ L.dirs) (hva : pdx va < 955)
    (ht : target (s.pde d (pdx va)) = some q) (hm : t.mem = s.mem) (hcr : t.cr3 = s.cr3) (p : Nat) :
    Flushed t (t.unmap q (ptx va) p va) := by
  refine (flushed_drop t p).trans (Flushed.store_invlpg fun v hv hne x hx => ?_)
  have hmem : (t.drop p).mem = s.mem := Kernel.drop_mem.trans hm
  rw [drop_cr3, hcr, hmem] at hx
  have hwalk := h.walk_other hc hd hva ht (w := 0#32) hv hne hx
  have hstore : ((t.drop p).store q (ptx va) 0#32).mem = (s.store q (ptx va) 0#32).mem := by
    funext x k
    rw [Kernel.mem_store, Kernel.mem_store, hmem]
  rw [drop_cr3, hcr, hstore]
  exact hwalk

theorem flushed_pageRemove (h : System m s L fl efl) (hc : s.cr3 ∈ L.dirs) (hd : d ∈ L.dirs)
    (hva : pdx va < 955) (hrun : pageRemove d va s = .ok () t) : Flushed s t := by
  rcases pageRemove_spec h.balanced hd hva with ⟨-, hok⟩ | ⟨q, p, ht, -, hok⟩
  · rw [hok] at hrun
    cases hrun
    exact Flushed.refl s
  · rw [hok] at hrun
    cases hrun
    exact h.flushed_unmap hc hd hva ht rfl rfl p

/-- pgdir_walk's new table: a free page is zeroed, and put where no table was. -/
theorem flushed_withTable (h : System m s L (q :: fl) efl) (hc : s.cr3 ∈ L.dirs) (hd : d ∈ L.dirs)
    (ht : target (s.pde d i) = none) : Flushed s (s.withTable d i q) := by
  have hfill : Flushed s (s.fill q 1024 0#32) := Flushed.fill (h.offWalk_free hc List.mem_cons_self)
  have hquiet : Flushed (s.fill q 1024 0#32) (((s.fill q 1024 0#32).take q).incRef q) :=
    Flushed.quiet rfl rfl rfl
  refine (hfill.trans hquiet).trans (Flushed.store_absent ?_)
  have hdq : d ≠ q := by
    rintro rfl
    exact h.balanced.free_dir List.mem_cons_self hd
  have hmem : (((s.fill q 1024 0#32).take q).incRef q).mem d i = s.mem d i := Kernel.mem_fill_of_ne hdq
  rw [hmem]
  exact target_eq_none.mp ht

/-- page_insert, with its table there. -/
theorem flushed_mapAt (h : System m s L fl efl) (hc : s.cr3 ∈ L.dirs) (hd : d ∈ L.dirs) (hva : pdx va < 955)
    (hready : TableReady s fl d (pdx va) q s₁ fl₁) (p : Nat) (perm : Word) :
    Flushed s (s₁.mapAt q (ptx va) p va perm) := by
  rcases hready with ⟨ht, rfl, rfl⟩ | ⟨ht, rfl, rfl⟩
  · have hinc : Flushed s₁ (s₁.incRef p) := Flushed.quiet rfl rfl rfl
    cases hold : target (s₁.mem q (ptx va)) with
    | none =>
      rw [Kernel.mapAt, hold]
      exact hinc.trans (Flushed.store_absent (target_eq_none.mp hold))
    | some y =>
      rw [Kernel.mapAt, hold]
      have hunmap : Flushed (s₁.incRef p) ((s₁.incRef p).unmap q (ptx va) y va) :=
        h.flushed_unmap (t := s₁.incRef p) hc hd hva ht rfl rfl y
      refine (hinc.trans hunmap).trans (Flushed.store_absent ?_)
      rw [Kernel.mem_unmap, if_pos ⟨rfl, rfl⟩]
      exact target_eq_none.mp target_zero
  · have hzero : target ((s.withTable d (pdx va) q).mem q (ptx va)) = none := by
      have hdq : q ≠ d := by
        rintro rfl
        exact h.balanced.free_dir List.mem_cons_self hd
      rw [Kernel.withTable, Kernel.mem_store_of_ne hdq]
      change target ((s.fill q 1024 0#32).mem q (ptx va)) = none
      rw [Kernel.mem_fill, if_pos ⟨rfl, ptx_lt va⟩, target_zero]
    have hinc : Flushed (s.withTable d (pdx va) q) ((s.withTable d (pdx va) q).incRef p) :=
      Flushed.quiet rfl rfl rfl
    rw [Kernel.mapAt, hzero]
    exact ((h.flushed_withTable hc hd ht).trans hinc).trans (Flushed.store_absent (target_eq_none.mp hzero))

theorem flushed_regionPage (h : System m s L fl efl) (hc : s.cr3 ∈ L.dirs) (hd : d ∈ L.dirs)
    (he : (s.envs e).envPgdir = some d) (hva : pdx va < 955) (hrun : regionPage e va s = .ok () t) :
    Flushed s t := by
  rcases regionPage_eq h.balanced he hd hva with ⟨-, -, hno⟩ | ⟨p, fl₀, q, s₁, fl₁, rfl, hready, hok⟩
  · exact absurd hrun (hno t)
  · rw [hok] at hrun
    cases hrun
    have htake := h.handOut 0#32
    rw [Kernel.handOut, if_neg not_has_zero] at htake
    have hquiet : Flushed s (s.take p) := Flushed.quiet rfl rfl rfl
    exact hquiet.trans (htake.flushed_mapAt hc hd hva hready p _)

theorem flushed_regionAlloc {w : Word} (h : System m s L fl efl) (hc : s.cr3 ∈ L.dirs) (hd : d ∈ L.dirs)
    (he : (s.envs e).envPgdir = some d) (hlen : va.toNat + w.toNat ≤ utop.toNat)
    (hrun : regionAlloc e va w s = .ok () t) : Flushed s t := by
  rw [regionAlloc, regionRounds hlen, roundDown_eq] at hrun
  rw [toNat_utop] at hlen
  have hv : pgnum va + (w.toNat + 4095) / 4096 ≤ 955 * 1024 := by
    rw [pgnum_eq]
    omega
  have hloop := forRange_ensures (n := (w.toNat + 4095) / 4096)
    (I := fun k t => (∃ fl', RegionMapped s t L fl fl' d (pgnum va) k) ∧ Flushed s t)
    ⟨⟨fl, RegionMapped.refl h.balanced⟩, Flushed.refl s⟩ ?_ () t hrun
  · exact hloop.2
  rintro k hk t ⟨⟨fl', ht⟩, hflushed⟩ ⟨⟩ u hu
  rw [page2pa_offset] at hu
  have he' : (t.envs e).envPgdir = some d := by
    rw [ht.paging]
    exact he
  have hsys := h.regionMapped hd (by omega) ht
  have hc' : t.cr3 ∈ L.dirs := by
    rw [ht.paging]
    exact hc
  obtain ⟨fl'', hu'⟩ := regionPage_mapped ht.balanced he' hd (v := pgnum va + k) (by omega) () u hu
  have hpdx : pdx (page2pa (pgnum va + k)) < 955 := by
    rw [pdx_page2pa (by omega)]
    omega
  exact ⟨⟨fl'', RegionMapped.succ h.balanced hd (by omega) ht hu'⟩,
    hflushed.trans (hsys.flushed_regionPage hc' hd he' hpdx hu)⟩

end System

end pages

end Jos
