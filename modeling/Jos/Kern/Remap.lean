import Jos.Kern.PageLaws
import Jos.Kern.KernelMap

/-! What page_insert and page_remove leave alone: every other entry, and the memory of the pages
that stay mapped. -/
namespace Jos

open Prog

/-- The page is neither a directory nor a page table. -/
def IsData (s : Kernel) (L : Ledger) (q : Nat) : Prop :=
  q ∉ L.dirs ∧ ∀ d ∈ L.dirs, ∀ i ∈ L.own d, target (s.pde d i) ≠ some q

/-- Directory `d` may have been given other pages at the virtual pages `V` below UTOP, and tables for them;
the rest of the entries, and the data pages they map, are as before. -/
structure Remaps (s t : Kernel) (L : Ledger) (d : Nat) (V : Nat → Prop) : Prop where
  pde : ∀ d' ∈ L.dirs, ∀ i, (d' = d → 955 ≤ i) → t.pde d' i = s.pde d' i
  grow : ∀ i < 955, t.pde d i = s.pde d i ∨
    (target (s.pde d i) = none ∧ (∃ v, V v ∧ v / 1024 = i) ∧ ∃ q < 2 ^ 20, t.pde d i = tableEntry q)
  pte : ∀ d' ∈ L.dirs, ∀ i ∈ L.own d', ∀ j < 1024, (d' = d → ¬ V (i * 1024 + j)) →
    t.pte d' i j = s.pte d' i j
  data : ∀ d' ∈ L.dirs, ∀ i < 955, ∀ j < 1024, (d' = d → ¬ V (i * 1024 + j)) → ∀ q,
    target (s.pte d' i j) = some q → IsData s L q → t.mem q = s.mem q ∧ IsData t L q

section remaps

variable {s t u s₁ : Kernel} {L L' : Ledger} {fl fl₁ : List Nat} {d i j p q x : Nat}
  {V W : Nat → Prop} {va w : Word}

theorem tableEntry_eq (q : Nat) : tableEntry q = page2pa q ||| (pteP ||| pteU ||| pteW) := by
  simp only [tableEntry, BitVec.or_assoc]

theorem target_tableEntry (hq : q < 2 ^ 20) : target (tableEntry q) = some q := by
  rw [tableEntry_eq]
  exact target_entry hq (by decide) (by decide)

/-- The walk of an address depends on its two entries only. -/
theorem hwWalk_of_entries (hpde : t.pde d (pdx va) = s.pde d (pdx va))
    (hpte : t.pte d (pdx va) (ptx va) = s.pte d (pdx va) (ptx va)) :
    hwWalk t.mem d va = hwWalk s.mem d va := by
  apply Option.ext
  intro x
  rw [hwWalk_eq_some, hwWalk_eq_some, hpde, hpte]

theorem hwWalk_eq_none : hwWalk s.mem d va = none ↔ target (s.pte d (pdx va) (ptx va)) = none := by
  rw [← hwWalk_page, Option.map_eq_none_iff]

namespace Remaps

/-- Only memory counts. -/
theorem of_mem (h : t.mem = s.mem) : Remaps s t L d V := by
  have hpde : t.pde = s.pde := by
    funext d i
    simp only [Kernel.pde, h]
  have hpte : t.pte = s.pte := by
    funext d i j
    simp only [Kernel.pte, hpde, h]
  refine ⟨?_, ?_, ?_, ?_⟩
  · intro d' _ i _
    rw [hpde]
  · intro i _
    rw [hpde]
    exact Or.inl rfl
  · intro d' _ i _ j _ _
    rw [hpte]
  · intro d' _ i _ j _ _ q _ hq
    unfold IsData
    rw [h, hpde]
    exact ⟨rfl, hq⟩

theorem mono (h : Remaps s t L d V) (hvw : ∀ v, V v → W v) : Remaps s t L d W where
  pde := h.pde
  grow := fun i hi => (h.grow i hi).imp id fun ⟨hnone, ⟨v, hv, hvi⟩, hq⟩ => ⟨hnone, ⟨v, hvw v hv, hvi⟩, hq⟩
  pte := fun d' hd' i hi j hj hn => h.pte d' hd' i hi j hj fun he hv => hn he (hvw _ hv)
  data := fun d' hd' i hi j hj hn => h.data d' hd' i hi j hj fun he hv => hn he (hvw _ hv)

theorem trans (h : Remaps s t L d V) (h' : Remaps t u L d V)
    (hu : ∀ d' ∈ L.dirs, ∀ i < 955, i ∈ L.own d') : Remaps s u L d V where
  pde := fun d' hd' i hi => (h'.pde d' hd' i hi).trans (h.pde d' hd' i hi)
  grow := by
    intro i hi
    rcases h.grow i hi with hs | ⟨hnone, hv, q, hq, ht⟩
    · rw [← hs]
      exact h'.grow i hi
    · refine Or.inr ⟨hnone, hv, q, hq, ?_⟩
      rcases h'.grow i hi with hs | ⟨hnone', -⟩
      · rw [hs, ht]
      · rw [ht, target_tableEntry hq] at hnone'
        cases hnone'
  pte := fun d' hd' i hi j hj hn =>
    (h'.pte d' hd' i hi j hj hn).trans (h.pte d' hd' i hi j hj hn)
  data := by
    intro d' hd' i hi j hj hn q hq hdata
    obtain ⟨hm, hdata'⟩ := h.data d' hd' i hi j hj hn q hq hdata
    have hq' : target (t.pte d' i j) = some q := by
      rw [h.pte d' hd' i (hu d' hd' i hi) j hj hn, hq]
    obtain ⟨hm', hdata''⟩ := h'.data d' hd' i hi j hj hn q hq' hdata'
    exact ⟨hm'.trans hm, hdata''⟩

/-- Only the directories and their own entries count. -/
theorem ledger (h : Remaps s t L d V) (hd : L'.dirs = L.dirs) (ho : L'.own = L.own) :
    Remaps s t L' d V := by
  have hdata : ∀ v : Kernel, ∀ q, IsData v L' q ↔ IsData v L q := by
    intro v q
    unfold IsData
    rw [hd, ho]
  refine ⟨hd ▸ h.pde, h.grow, ?_, ?_⟩
  · rw [hd, ho]
    exact h.pte
  · rw [hd]
    simp only [hdata]
    exact h.data

/-- An address whose page has its old entry translates as before. -/
theorem walk_of_entry (h : Remaps s t L d V) (hva : pdx va < 955)
    (hpte : t.pte d (pdx va) (ptx va) = s.pte d (pdx va) (ptx va)) :
    hwWalk t.mem d va = hwWalk s.mem d va := by
  rcases h.grow (pdx va) hva with hpde | ⟨hnone, -⟩
  · exact hwWalk_of_entries hpde hpte
  · have hs : target (s.pte d (pdx va) (ptx va)) = none := by
      rw [Kernel.pte_of_no_table hnone, target_zero]
    rw [hwWalk_eq_none.mpr hs, hwWalk_eq_none.mpr (hpte ▸ hs)]

/-- An address outside the virtual pages translates as before. -/
theorem walk (h : Remaps s t L d V) (hd : d ∈ L.dirs) {d' : Nat} (hd' : d' ∈ L.dirs)
    (hown : pdx va ∈ L.own d') (hn : d' = d → ¬ V (pgnum va)) :
    hwWalk t.mem d' va = hwWalk s.mem d' va := by
  have hpte := h.pte d' hd' (pdx va) hown (ptx va) (ptx_lt va)
    fun he => pgnum_eq_indices va ▸ hn he
  by_cases hlow : d' = d ∧ pdx va < 955
  · obtain ⟨rfl, hlow⟩ := hlow
    exact h.walk_of_entry hlow hpte
  · exact hwWalk_of_entries (h.pde d' hd' (pdx va) fun he => by
      by_contra hlt
      exact hlow ⟨he, by omega⟩) hpte

end Remaps

theorem TableReady.pte_dirs (hr : TableReady s fl d i q s₁ fl₁) (h : Balanced s L fl)
    (hd : d ∈ L.dirs) (hi : i ∈ L.own d) {d' k l : Nat} (hd' : d' ∈ L.dirs) (hk : k ∈ L.own d')
    (hl : l < 1024) : s₁.pte d' k l = s.pte d' k l := by
  by_cases he : d' = d
  · subst he
    exact hr.pte h hd' hi hk hl
  · rcases hr with ⟨-, rfl, -⟩ | ⟨-, rfl, rfl⟩
    · rfl
    · obtain ⟨hrefs, hdir, -⟩ := h.unreferenced (h.free_lt (by simp)) (h.free_ref (p := q) (by simp))
      have hmem : ∀ x k, x ≠ q → x ≠ d → (s.withTable d i q).mem x k = s.mem x k := by
        intro x k hx hk
        rw [Kernel.withTable, Kernel.mem_store, if_neg fun hc => hk hc.1]
        exact Kernel.mem_fill_of_ne hx
      have hdq : d' ≠ q := by
        rintro rfl
        exact hdir hd'
      apply Kernel.pte_congr (hmem d' k hdq he)
      intro x hx
      apply hmem x l
      · rintro rfl
        exact Balanced.table_ne_of_refs hrefs hd' hk hx
      · rintro rfl
        exact (h.table d' hd' k hk x hx).2 hd

/-- A store to a page table below UTOP remaps one page. -/
theorem Balanced.remaps_storeTable (h : Balanced s L fl) (hd : d ∈ L.dirs) (hva : pdx va < 955)
    (ht : target (s.pde d (pdx va)) = some q)
    (hmem : ∀ x k, t.mem x k = if x = q ∧ k = ptx va then w else s.mem x k) :
    Remaps s t L d (· = pgnum va) := by
  have hown := h.own_user d hd _ hva
  have heq : t.mem = (s.store q (ptx va) w).mem := by
    funext x k
    exact hmem x k
  have hpde : ∀ d' ∈ L.dirs, ∀ i, t.pde d' i = s.pde d' i := by
    intro d' hd' i
    rw [Kernel.pde, heq]
    exact h.pde_storeTable hd hown ht hd'
  refine ⟨fun d' hd' i _ => hpde d' hd' i, fun i _ => Or.inl (hpde d hd i), ?_, ?_⟩
  · intro d' hd' i hi j hj hn
    have hpte : t.pte d' i j = (s.store q (ptx va) w).pte d' i j := by
      unfold Kernel.pte Kernel.pde
      rw [heq]
    rw [hpte, h.pte_storeTable hd hown ht hd' hi, if_neg]
    rintro ⟨rfl, rfl, rfl⟩
    exact hn rfl (pgnum_eq_indices va).symm
  · intro d' hd' i hi j hj hn x hx hdata
    refine ⟨?_, hdata.1, fun d'' hd'' k hk => ?_⟩
    · funext k
      rw [hmem, if_neg]
      rintro ⟨rfl, -⟩
      exact hdata.2 d hd _ hown ht
    · rw [hpde d'' hd'' k]
      exact hdata.2 d'' hd'' k hk

/-- A new page table remaps nothing. -/
theorem TableReady.remaps (hr : TableReady s fl d i q t fl₁) (h : Balanced s L fl) (hd : d ∈ L.dirs)
    (hi : i < 955) (hv : ∃ v, V v ∧ v / 1024 = i) : Remaps s t L d V := by
  have hown := h.own_user d hd i hi
  have hsrc := hr.source
  have hqlt : q < 2 ^ 20 := by
    rcases hsrc with hm | ht
    · exact h.page_lt (h.free_lt hm)
    · exact h.page_lt (h.table d hd i hown q ht).1
  refine ⟨?_, ?_, ?_, ?_⟩
  · intro d' hd' k hk
    apply hr.pde_of_ne h hd'
    rintro ⟨he, rfl⟩
    have := hk he
    omega
  · intro k hk
    rcases hr.pde h hd k with hs | ⟨rfl, ht⟩
    · exact Or.inl hs
    · rcases hr with ⟨-, rfl, -⟩ | ⟨hnone, -, -⟩
      · exact Or.inl rfl
      · exact Or.inr ⟨hnone, hv, q, hqlt, ht⟩
  · intro d' hd' k hk l hl _
    exact hr.pte_dirs h hd hown hd' hk hl
  · intro d' hd' k hk l hl _ x hx hdata
    rcases hr with ⟨-, rfl, -⟩ | ⟨hnone, rfl, rfl⟩
    · exact ⟨rfl, hdata⟩
    · have hxq : x ≠ q := by
        rintro rfl
        exact (h.referenced_page hd' hk hl hx).2.1 (by simp)
      have hxd : x ≠ d := by
        rintro rfl
        exact hdata.1 hd
      refine ⟨?_, hdata.1, fun d'' hd'' k' hk' hx' => ?_⟩
      · funext l
        rw [Kernel.withTable, Kernel.mem_store, if_neg fun hc => hxd hc.1]
        exact Kernel.mem_fill_of_ne hxq
      · by_cases he : d'' = d ∧ k' = i
        · obtain ⟨rfl, rfl⟩ := he
          rw [h.target_pde_withTable] at hx'
          exact hxq (Option.some.inj hx').symm
        · have hready : TableReady s (q :: fl₁) d i q (s.withTable d i q) fl₁ :=
            Or.inr ⟨hnone, rfl, rfl⟩
          rw [hready.pde_of_ne h hd'' he] at hx'
          exact hdata.2 d'' hd'' k' hk' hx'

/-- page_insert, once the table is there. -/
theorem TableReady.mapAt_remaps (perm : Word) (hr : TableReady s fl d (pdx va) q s₁ fl₁) (h : Balanced s L fl)
    (hd : d ∈ L.dirs) (hva : pdx va < 955) :
    Remaps s (s₁.mapAt q (ptx va) p va perm) L d (· = pgnum va) := by
  obtain ⟨hb, ht⟩ := hr.balanced h hd (h.own_user d hd _ hva)
  exact (hr.remaps (V := (· = pgnum va)) h hd hva ⟨_, rfl, (pgnum_indices va).1⟩).trans
    (hb.remaps_storeTable hd hva ht fun _ _ => Kernel.mem_mapAt) h.own_user

theorem Balanced.unmap_remaps (h : Balanced s L fl) (hd : d ∈ L.dirs) (hva : pdx va < 955)
    (ht : target (s.pde d (pdx va)) = some q) :
    Remaps s (s.unmap q (ptx va) p va) L d (· = pgnum va) :=
  h.remaps_storeTable hd hva ht fun _ _ => Kernel.mem_unmap

/-- The entry page_insert leaves. -/
theorem TableReady.mapAt_entry (perm : Word) (hr : TableReady s fl d (pdx va) q s₁ fl₁) (h : Balanced s L fl)
    (hd : d ∈ L.dirs) (hva : pdx va < 955) (hp : p < 2 ^ 20) :
    (s₁.mapAt q (ptx va) p va perm).pte d (pdx va) (ptx va) = page2pa p ||| (perm ||| pteP) := by
  obtain ⟨hb, ht⟩ := hr.balanced h hd (h.own_user d hd _ hva)
  have hdq : d ≠ q := by
    rintro rfl
    exact (hb.table d hd _ (h.own_user d hd _ hva) d ht).2 hd
  have hdir : target ((s₁.mapAt q (ptx va) p va perm).pde d (pdx va)) = some q := by
    rw [Kernel.pde, Kernel.mem_mapAt, if_neg fun he => hdq he.1]
    exact ht
  rw [Kernel.pte_of_target hdir, Kernel.mem_mapAt, if_pos ⟨rfl, rfl⟩, pteAddr_page2pa hp,
    BitVec.or_assoc]

/-- page_insert takes at most one page, for a table, and counts the page it maps. -/
theorem TableReady.ppRef_mapAt (perm : Word) (hr : TableReady s fl d (pdx va) q s₁ fl₁) (h : Balanced s L fl)
    (hd : d ∈ L.dirs) (hva : pdx va < 955) (hx : x < s.npages) (hxp : x ≠ p) :
    ((s₁.mapAt q (ptx va) p va perm).pages x).ppRef.toNat ≤
      if x ∈ fl then 1 else (s.pages x).ppRef.toNat := by
  obtain ⟨hb, ht⟩ := hr.balanced h hd (h.own_user d hd _ hva)
  have hs₁ : (s₁.pages x).ppRef.toNat ≤ if x ∈ fl then 1 else (s.pages x).ppRef.toNat := by
    by_cases hm : x ∈ fl
    · rw [if_pos hm]
      rcases hr with ⟨-, rfl, -⟩ | ⟨-, -, rfl⟩
      · rw [h.free_ref hm]
        decide
      · rw [Kernel.ppRef_withTable, h.free_ref hm]
        split <;> decide
    · rw [if_neg hm, hr.ppRef hm]
  refine le_trans ?_ hs₁
  rw [Kernel.ppRef_mapAt, if_neg hxp]
  split
  · rename_i hold
    have hne := (hb.referenced_page hd hva (ptx_lt va) (by rwa [Kernel.pte_of_target ht])).1
    bv_omega
  · bv_omega

end remaps

end Jos
