import Jos.Kern.PageCalls
import Jos.Kern.SelfTests

/-! The laws of page mapping: what page_insert, page_remove and page_lookup say of one another. -/
namespace Jos

open Prog

/-- page_lookup of `va` finds `pp`, through an entry with this word. -/
def LooksUp (s : Kernel) (pgdir : Nat) (va : Word) (pp : Nat) (w : Word) : Prop :=
  ∃ r, pageLookup pgdir va s = .ok (some pp, some r) s ∧ s.mem r.page r.idx = w

/-- page_lookup of `va` returns NULL. -/
def LooksUpNull (s : Kernel) (pgdir : Nat) (va : Word) : Prop :=
  ∃ r, pageLookup pgdir va s = .ok (none, r) s

/-- What the processor reads for `va'` under `d` is the entry of `va` under `pgdir`. -/
def SameEntry (s : Kernel) (pgdir : Nat) (va : Word) (d : Nat) (va' : Word) : Prop :=
  ptx va' = ptx va ∧ ∃ q, target (s.pde pgdir (pdx va)) = some q ∧ target (s.pde d (pdx va')) = some q

/-- `va` has no page table yet, and what the processor reads for `va'` under `d` is the entry that is to
name it, as in the UVPT window, or lies in the free page that becomes the table. -/
def ShowsNewTable (s : Kernel) (pgdir : Nat) (va : Word) (d : Nat) (va' : Word) : Prop :=
  target (s.pde pgdir (pdx va)) = none ∧ ∃ q, target (s.pde d (pdx va')) = some q ∧
    (q = pgdir ∧ ptx va' = pdx va ∨ s.pageFreeList = some q)

/-- No translation changes but that of the page of `va` under `pgdir`, and at most the `Shown` ones above
UTOP, where a directory may name any table. -/
def SameElsewhere (s t : Kernel) (D : Finset Nat) (pgdir : Nat) (va : Word) (Shown : Nat → Word → Prop) :
    Prop :=
  ∀ d ∈ D, ∀ va', (d = pgdir → pgnum va' ≠ pgnum va) → (utop ≤ va' → ¬ Shown d va') →
    hwWalk t.mem d va' = hwWalk s.mem d va'

/-- page_lookup and check_va2pa agree. -/
def LookupAgrees (s : Kernel) (pgdir : Nat) (va : Word) (o : Option Nat) : Prop :=
  checkVa2pa pgdir va s = .ok (match o with | none => noPage | some pp => page2pa pp) s ∧
    ∀ pp, o = some pp → page2pa pp ≠ noPage

structure MappingLaws (m : Machine) (s : Kernel) (D : Finset Nat) : Prop where
  insert : ∀ pgdir ∈ D, ∀ pp va perm, Allocated m s pp → va < utop → perm.toNat < 4096 →
    ∃ r t, pageInsert pgdir pp va perm s = .ok r t ∧
      ((r = 0 ∧ LooksUp t pgdir va pp (page2pa pp ||| (perm ||| pteP)) ∧ ¬ t.OnFreeList pp ∧
        SameElsewhere s t D pgdir va fun d va' =>
          SameEntry s pgdir va d va' ∨ ShowsNewTable s pgdir va d va') ∨ (r = -eNoMem ∧ t = s))
  remove : ∀ pgdir ∈ D, ∀ va < utop, ∃ t, pageRemove pgdir va s = .ok () t ∧
    LooksUpNull t pgdir va ∧ SameElsewhere s t D pgdir va (SameEntry s pgdir va)
  lookup : ∀ pgdir ∈ D, ∀ va < utop, ∃ o r, pageLookup pgdir va s = .ok (o, r) s
  agrees : ∀ pgdir va o r t, pageLookup pgdir va s = .ok (o, r) t →
    t = s ∧ LookupAgrees s pgdir va o

section lookup

variable {s t : Kernel} {d : Nat} {va : Word} {o : Option Nat} {r : Option PteRef}

theorem page2pa_ne_noPage (p : Nat) : page2pa p ≠ noPage := by
  intro h
  have hlow := congrArg pgoff h
  have h0 : pgoff (page2pa p) = 0 := by
    rw [pgoff_eq, page2pa, BitVec.toNat_shiftLeft, Nat.shiftLeft_eq]
    omega
  rw [h0] at hlow
  exact absurd hlow (by decide)

theorem kaddr_eq_ok {w : Word} {p : Nat} : kaddr w s = .ok p t ↔
    pgnum w < s.npages ∧ pgnum w = p ∧ s = t := by
  rw [kaddr, bind_ok (read_apply s), bind_eq_ok]
  constructor
  · rintro ⟨_, _, hcheck, hp⟩
    obtain ⟨hlt, rfl⟩ := check_eq_ok.mp hcheck
    exact ⟨hlt, pure_eq_ok.mp hp⟩
  · rintro ⟨hlt, rfl, rfl⟩
    exact ⟨(), s, check_eq_ok.mpr ⟨hlt, rfl⟩, rfl⟩

theorem pa2page_eq_ok {w : Word} {p : Nat} : pa2page w s = .ok p t ↔
    pgnum w < s.npages ∧ pgnum w = p ∧ s = t := by
  rw [pa2page, bind_ok (read_apply s), bind_eq_ok]
  constructor
  · rintro ⟨_, _, hcheck, hp⟩
    obtain ⟨hlt, rfl⟩ := check_eq_ok.mp hcheck
    exact ⟨hlt, pure_eq_ok.mp hp⟩
  · rintro ⟨hlt, rfl, rfl⟩
    exact ⟨(), s, check_eq_ok.mpr ⟨hlt, rfl⟩, rfl⟩

/-- page_lookup, when it does not panic, returns what the entries name, and the independent
walk comes to the same page. -/
theorem pageLookup_agrees (h : pageLookup d va s = .ok (o, r) t) :
    t = s ∧ o = target (s.pte d (pdx va) (ptx va)) ∧ LookupAgrees s d va o := by
  have hne : ∀ pp, o = some pp → page2pa pp ≠ noPage := fun pp _ => page2pa_ne_noPage pp
  rw [pageLookup, bind_eq_ok] at h
  obtain ⟨e, u, hwalk, h⟩ := h
  rw [pgdirWalk, bind_ok (read_apply s), Prog.ite_apply] at hwalk
  by_cases hP : Has (s.mem d (pdx va)) pteP
  · rw [if_pos hP, bind_eq_ok] at hwalk
    obtain ⟨tbl, _, hk, hwalk⟩ := hwalk
    obtain ⟨hlt, rfl, rfl⟩ := kaddr_eq_ok.mp hk
    obtain ⟨rfl, rfl⟩ := pure_eq_ok.mp hwalk
    rw [pgnum_pteAddr] at hlt
    have hdir : target (s.pde d (pdx va)) = some (pgnum (s.mem d (pdx va))) :=
      target_eq_some.mpr ⟨hP, rfl⟩
    have hva2pa := checkVa2pa_table hdir hlt
    rw [Kernel.pte_of_target hdir]
    simp only [pgnum_pteAddr] at h
    rw [bind_ok (read_apply s), Prog.ite_apply] at h
    by_cases hQ : Has (s.mem (pgnum (s.mem d (pdx va))) (ptx va)) pteP
    · rw [if_pos hQ, bind_eq_ok] at h
      obtain ⟨pp, _, hpp, h⟩ := h
      obtain ⟨-, rfl, rfl⟩ := pa2page_eq_ok.mp hpp
      obtain ⟨he, rfl⟩ := pure_eq_ok.mp h
      cases he
      refine ⟨rfl, (target_eq_some.mpr ⟨hQ, (pgnum_pteAddr _).symm⟩).symm, ?_, hne⟩
      simp only [hva2pa, hQ, if_true, pgnum_pteAddr, page2pa_pgnum]
    · rw [if_neg hQ] at h
      obtain ⟨he, rfl⟩ := pure_eq_ok.mp h
      cases he
      refine ⟨rfl, (target_eq_none.mpr hQ).symm, ?_, hne⟩
      rw [hva2pa, if_neg hQ]
  · rw [if_neg hP, Prog.ite_apply, if_neg (by simp)] at hwalk
    obtain ⟨rfl, rfl⟩ := pure_eq_ok.mp hwalk
    obtain ⟨he, rfl⟩ := pure_eq_ok.mp h
    cases he
    have hdir : target (s.pde d (pdx va)) = none := target_eq_none.mpr hP
    refine ⟨rfl, ?_, checkVa2pa_noTable hdir, hne⟩
    rw [Kernel.pte_of_no_table hdir, target_zero]

theorem LooksUp.walk {pp : Nat} {w : Word} (h : LooksUp s d va pp w) :
    (hwWalk s.mem d va).map (·.page) = some pp := by
  obtain ⟨r, hrun, -⟩ := h
  rw [hwWalk_page]
  exact (pageLookup_agrees hrun).2.1.symm

end lookup

section frames

variable {s t : Kernel} {L : Ledger} {fl fl₁ : List Nat} {d d' i j q : Nat} {va w perm : Word}
  {mem mem' : Nat → Nat → Word}

theorem utop_le (h : ¬ pdx va < 955) : utop ≤ va :=
  BitVec.not_lt.mp fun hlt => h ((lt_utop_iff va).mp hlt)

theorem hwWalk_congr (hpde : mem' d (pdx va) = mem d (pdx va))
    (hpte : ∀ x, target (mem d (pdx va)) = some x → mem' x (ptx va) = mem x (ptx va)) :
    hwWalk mem' d va = hwWalk mem d va := by
  by_cases hP : Has (mem d (pdx va)) pteP
  · simp only [hwWalk, hpde, hpte _ (target_eq_some.mpr ⟨hP, rfl⟩)]
  · rw [hwWalk_absent hP, hwWalk_absent (hpde ▸ hP)]

/-- A store to a page table below UTOP is seen at its own address only. -/
theorem Balanced.walk_storeTable (h : Balanced s L fl) (hd : d ∈ L.dirs) (hi : i < 955)
    (ht : target (s.pde d i) = some q)
    (hmem : ∀ x k, ¬ (x = q ∧ k = j) → t.mem x k = s.mem x k) (hd' : d' ∈ L.dirs)
    (hne : ¬ (d' = d ∧ pdx va = i ∧ ptx va = j))
    (hk : pdx va < 955 ∨ (target (s.pde d' (pdx va)) = some q → ptx va ≠ j)) :
    hwWalk t.mem d' va = hwWalk s.mem d' va := by
  have hown := h.own_user d hd i hi
  have hdq : d' ≠ q := by
    rintro rfl
    exact (h.table d hd i hown d' ht).2 hd'
  apply hwWalk_congr
  · exact hmem d' (pdx va) fun hk => hdq hk.1
  · intro x hx
    apply hmem
    rintro ⟨rfl, hj⟩
    rcases hk with hlt | hk
    · obtain ⟨rfl, rfl⟩ := h.table_inj d' hd' _ (h.own_user d' hd' _ hlt) d hd i hown x hx ht
      exact hne ⟨rfl, rfl, hj⟩
    · exact hk hx hj

/-- The table was free, or already behind the entry. -/
theorem TableReady.source (hr : TableReady s fl d i q t fl₁) :
    q ∈ fl ∨ target (s.pde d i) = some q := by
  rcases hr with ⟨ht, -, -⟩ | ⟨-, rfl, -⟩
  · exact Or.inr ht
  · exact Or.inl (by simp)

theorem TableReady.pde_of_ne (hr : TableReady s fl d i q t fl₁) (h : Balanced s L fl)
    (hd' : d' ∈ L.dirs) (hne : ¬ (d' = d ∧ j = i)) : t.pde d' j = s.pde d' j := by
  rcases hr with ⟨-, rfl, -⟩ | ⟨-, rfl, rfl⟩
  · rfl
  · have hdq : d' ≠ q := by
      rintro rfl
      exact (h.unreferenced (h.free_lt (by simp)) (h.free_ref (by simp))).2.1 hd'
    rw [Kernel.pde, Kernel.withTable, Kernel.mem_store, if_neg hne]
    exact Kernel.mem_fill_of_ne hdq

/-- Installing an empty page table changes no translation. -/
theorem TableReady.walk (hr : TableReady s fl d i q t fl₁) (h : Balanced s L fl) (hd : d ∈ L.dirs)
    (hi : i < 955) (hd' : d' ∈ L.dirs)
    (hk : pdx va < 955 ∨ (target (s.pde d i) = none → target (s.pde d' (pdx va)) ≠ some q ∧
      (target (s.pde d' (pdx va)) = some d → ptx va ≠ i))) :
    hwWalk t.mem d' va = hwWalk s.mem d' va := by
  rcases hr with ⟨-, rfl, -⟩ | ⟨hnone, rfl, rfl⟩
  · rfl
  · have hfree := h.unreferenced (h.free_lt (by simp)) (h.free_ref (p := q) (by simp))
    have hmem : ∀ x k, x ≠ q → ¬ (x = d ∧ k = i) → (s.withTable d i q).mem x k = s.mem x k := by
      intro x k hx hk
      rw [Kernel.withTable, Kernel.mem_store, if_neg hk]
      exact Kernel.mem_fill_of_ne hx
    by_cases he : d' = d ∧ pdx va = i
    · obtain ⟨rfl, rfl⟩ := he
      have h0 : hwWalk s.mem d' va = none := hwWalk_absent (target_eq_none.mp hnone)
      rw [h0]
      have hpte := h.pte_withTable hd (i := pdx va) (ptx_lt va)
      cases hw : hwWalk (s.withTable d' (pdx va) q).mem d' va with
      | none => rfl
      | some x =>
        have hx := (hwWalk_eq_some.mp hw).1
        rw [hpte, target_zero] at hx
        cases hx
    · have hdq : d' ≠ q := by
        rintro rfl
        exact hfree.2.1 hd'
      apply hwWalk_congr (hmem d' _ hdq he)
      intro x hx
      rcases hk with hlt | hk
      · have hown := h.own_user d' hd' _ hlt
        have hxq : x ≠ q := by
          rintro rfl
          exact Balanced.table_ne_of_refs hfree.1 hd' hown hx
        apply hmem x _ hxq
        rintro ⟨rfl, -⟩
        exact (h.table d' hd' _ hown x hx).2 hd
      · obtain ⟨hxq, hxd⟩ := hk hnone
        apply hmem x _ (fun he => hxq (he ▸ hx))
        rintro ⟨rfl, hj⟩
        exact hxd hx hj

theorem pgnum_eq_iff {v v' : Word} : pgnum v = pgnum v' ↔ pdx v = pdx v' ∧ ptx v = ptx v' := by
  rw [pgnum_eq_indices, pgnum_eq_indices]
  have := ptx_lt v
  have := ptx_lt v'
  omega

/-- The table was there, or the first free page has become it. -/
theorem TableReady.table_or_head (hr : TableReady s fl d i q t fl₁) (h : Balanced s L fl) :
    target (s.pde d i) = some q ∨ target (s.pde d i) = none ∧ s.pageFreeList = some q := by
  rcases hr with ⟨hq, -, -⟩ | ⟨hnone, rfl, -⟩
  · exact Or.inl hq
  · exact Or.inr ⟨hnone, h.head_eq⟩

/-- The new table, if one is made, and the entry stored to it change no other translation. -/
theorem TableReady.sameElsewhere {pp : Nat} {perm : Word} (hr : TableReady s fl d (pdx va) q t fl₁)
    (h : Balanced s L fl) (hd : d ∈ L.dirs) (hva : pdx va < 955) :
    SameElsewhere s (t.mapAt q (ptx va) pp va perm) L.dirs d va fun d' va' =>
      SameEntry s d va d' va' ∨ ShowsNewTable s d va d' va' := by
  obtain ⟨hb, ht⟩ := hr.balanced h hd (h.own_user d hd _ hva)
  have hsource := hr.table_or_head h
  intro d' hd' va' hne hk
  have hne' : ¬ (d' = d ∧ pdx va' = pdx va ∧ ptx va' = ptx va) := by
    rintro ⟨he, hi, hj⟩
    exact hne he (pgnum_eq_iff.mpr ⟨hi, hj⟩)
  have hstore : hwWalk (t.mapAt q (ptx va) pp va perm).mem d' va' = hwWalk t.mem d' va' := by
    refine hb.walk_storeTable hd hva ht (fun x k hx => ?_) hd' hne' ?_
    · rw [Kernel.mem_mapAt, if_neg hx]
    · by_cases hlow : pdx va' < 955
      · exact Or.inl hlow
      · refine Or.inr fun hx hj => ?_
        rw [hr.pde_of_ne h hd' fun he => hlow (he.2.trans_lt hva)] at hx
        have hshown := hk (utop_le hlow)
        rcases hsource with hq | ⟨hnone, hhead⟩
        · exact hshown (.inl ⟨hj, q, hq, hx⟩)
        · exact hshown (.inr ⟨hnone, q, hx, .inr hhead⟩)
  rw [hstore]
  apply hr.walk h hd hva hd'
  by_cases hlow : pdx va' < 955
  · exact Or.inl hlow
  · have hshown := hk (utop_le hlow)
    refine Or.inr fun hnone => ⟨fun hx => ?_, fun hx hj => ?_⟩
    · have hhead := (hsource.resolve_left fun hq => by simp [hnone] at hq).2
      exact hshown (.inr ⟨hnone, q, hx, .inr hhead⟩)
    · exact hshown (.inr ⟨hnone, d, hx, .inl ⟨rfl, hj⟩⟩)

end frames

namespace Books

variable {m : Machine} {s : Kernel} {L : Ledger} {fl : List Nat} {d pp : Nat} {va va' perm : Word}

theorem insert_laws (h : Books m s L fl) (hcount : (s.pages pp).ppRef.toNat < 65535)
    (hd : d ∈ L.dirs) (ha : Allocated m s pp) (hva : va < utop) (hperm : perm.toNat < 4096) :
    ∃ r t, pageInsert d pp va perm s = .ok r t ∧
      ((r = 0 ∧ LooksUp t d va pp (page2pa pp ||| (perm ||| pteP)) ∧ ¬ t.OnFreeList pp ∧
        SameElsewhere s t L.dirs d va fun d' va' =>
          SameEntry s d va d' va' ∨ ShowsNewTable s d va d' va') ∨ (r = -eNoMem ∧ t = s)) := by
  have hb := h.balanced
  have hf := h.notMem_free ha
  rw [lt_utop_iff] at hva
  rcases pageInsert_spec hb hd hva ha.1 hf hcount perm with
    ⟨-, -, hrun⟩ | ⟨q, s₁, fl₁, hready, hrun⟩
  · exact ⟨_, _, hrun, Or.inr ⟨rfl, rfl⟩⟩
  · refine ⟨_, _, hrun, Or.inl ⟨rfl, ?_⟩⟩
    obtain ⟨hb₁, ht⟩ := hready.balanced hb hd (h.own_iff.mpr hva)
    have hn := hready.paging.npages
    have hb₂ := hb₁.mapAt hd hva (ptx_lt va) ht (hn ▸ ha.1) (fun hm => hf (hready.mem_free hm))
      (hready.ppRef hf ▸ hcount) hperm va
    have hlt : pp < 2 ^ 20 := hb.page_lt ha.1
    have hdq : d ≠ q := by
      rintro rfl
      exact (hb₁.table d hd _ (h.own_iff.mpr hva) d ht).2 hd
    -- the entry page_insert leaves
    have hentry : (s₁.mapAt q (ptx va) pp va perm).mem q (ptx va) =
        page2pa pp ||| (perm ||| pteP) := by
      rw [Kernel.mem_mapAt, if_pos ⟨rfl, rfl⟩, pteAddr_page2pa hlt, BitVec.or_assoc]
    have htarget : target ((s₁.mapAt q (ptx va) pp va perm).mem q (ptx va)) = some pp := by
      rw [hentry]
      exact target_entry hlt (toNat_or_lt hperm (by decide)) (has_or.mpr (Or.inr (by decide)))
    have hdir : target ((s₁.mapAt q (ptx va) pp va perm).pde d (pdx va)) = some q := by
      rw [Kernel.pde, Kernel.mem_mapAt, if_neg fun he => hdq he.1]
      exact ht
    have hpte : target ((s₁.mapAt q (ptx va) pp va perm).pte d (pdx va) (ptx va)) = some pp := by
      rw [Kernel.pte_of_target hdir]
      exact htarget
    refine ⟨⟨⟨q, ptx va⟩, ?_, hentry⟩, ?_, ?_⟩
    · exact pageLookup_mapped hdir (hb₂.table d hd _ (h.own_iff.mpr hva) q hdir).1 htarget
        (hb₂.mapped d hd _ hva _ (ptx_lt va) pp hpte)
    · rw [hb₂.onFreeList_iff]
      exact (hb₂.referenced_page hd hva (ptx_lt va) hpte).2.1
    · exact hready.sameElsewhere hb hd hva

theorem remove_laws (h : Books m s L fl) (hd : d ∈ L.dirs) (hva : va < utop) :
    ∃ t, pageRemove d va s = .ok () t ∧ LooksUpNull t d va ∧
      SameElsewhere s t L.dirs d va (SameEntry s d va) := by
  have hb := h.balanced
  rw [lt_utop_iff] at hva
  rcases pageRemove_spec hb hd hva with ⟨hq, hrun⟩ | ⟨x, q, ht, hq, hrun⟩
  · refine ⟨_, hrun, ?_, fun _ _ _ _ _ => rfl⟩
    cases ht : target (s.pde d (pdx va)) with
    | none => exact ⟨_, pageLookup_noTable ht⟩
    | some x =>
      have hpte := Kernel.pte_of_target (j := ptx va) ht
      exact ⟨_, pageLookup_unmapped ht (hb.table d hd _ (h.own_iff.mpr hva) x ht).1 (hpte ▸ hq)⟩
  · obtain ⟨hx, hxd⟩ := hb.table d hd _ (h.own_iff.mpr hva) x ht
    have hdx : d ≠ x := by
      rintro rfl
      exact hxd hd
    have hdir : target ((s.unmap x (ptx va) q va).mem d (pdx va)) = some x := by
      rw [Kernel.mem_unmap, if_neg fun he => hdx he.1]
      exact ht
    have hn : (s.unmap x (ptx va) q va).npages = s.npages := Kernel.Paging.unmap.npages
    refine ⟨_, hrun, ⟨_, pageLookup_unmapped hdir (hn ▸ hx) ?_⟩, ?_⟩
    · rw [Kernel.mem_unmap, if_pos ⟨rfl, rfl⟩, target_zero]
    · intro d' hd' va' hne hk
      refine hb.walk_storeTable (j := ptx va) hd hva ht (fun y k hy => ?_) hd' ?_ ?_
      · rw [Kernel.mem_unmap, if_neg hy]
      · rintro ⟨he, hi, hj⟩
        exact hne he (pgnum_eq_iff.mpr ⟨hi, hj⟩)
      · by_cases hlow : pdx va' < 955
        · exact Or.inl hlow
        · refine Or.inr fun hy hj => ?_
          exact hk (utop_le hlow) ⟨hj, x, ht, hy⟩

theorem lookup_returns (h : Books m s L fl) (hd : d ∈ L.dirs) (hva : va < utop) :
    ∃ o r, pageLookup d va s = .ok (o, r) s := by
  have hb := h.balanced
  rw [lt_utop_iff] at hva
  cases ht : target (s.pde d (pdx va)) with
  | none => exact ⟨_, _, pageLookup_noTable ht⟩
  | some x =>
    have hx := (hb.table d hd _ (h.own_iff.mpr hva) x ht).1
    have hpte := Kernel.pte_of_target (j := ptx va) ht
    cases hq : target (s.pte d (pdx va) (ptx va)) with
    | none => exact ⟨_, _, pageLookup_unmapped ht hx (hpte ▸ hq)⟩
    | some q =>
      exact ⟨_, _, pageLookup_mapped ht hx (hpte ▸ hq) (hb.mapped d hd _ hva _ (ptx_lt va) q hq)⟩

end Books

variable {m : Machine} {mem : Nat → Nat → Word} {s : Kernel} {D : Finset Nat}

/-- The laws hold in every state a run of legal calls reaches. -/
theorem pageRun_mappingLaws (h : PageRun m mem s D) : MappingLaws m s D := by
  obtain ⟨hbound, L, fl, hbooks, rfl⟩ := h.books
  refine ⟨?_, ?_, ?_, ?_⟩
  · intro pgdir hd pp va perm ha hva hperm
    exact hbooks.insert_laws (Nat.lt_succ_of_le (hbound pp ha.1)) hd ha hva hperm
  · intro pgdir hd va hva
    exact hbooks.remove_laws hd hva
  · intro pgdir hd va hva
    exact hbooks.lookup_returns hd hva
  · intro pgdir va o r t hrun
    obtain ⟨ht, -, hagrees⟩ := pageLookup_agrees hrun
    exact ⟨ht, hagrees⟩

theorem memInitEarly_smallMachine (mem : Nat → Nat → Word) : memInitEarly smallMachine (bss mem) =
    .ok () (afterPageInit smallMachine mem) :=
  memInitEarly_eq_ok.mpr ⟨heapFits_smallMachine, rfl⟩

theorem two_free_smallMachine : ∃ p q fl, freePages (page2pa (heapEnd smallMachine))
    (detectedPages smallMachine) = p :: q :: fl := by
  have h1 : 1279 ∈ freePages (page2pa (heapEnd smallMachine)) (detectedPages smallMachine) := by
    rw [mem_freePages]
    unfold heapEnd pagesPages envsPages chunkPages
    decide
  have h2 : 1278 ∈ freePages (page2pa (heapEnd smallMachine)) (detectedPages smallMachine) := by
    rw [mem_freePages]
    unfold heapEnd pagesPages envsPages chunkPages
    decide
  generalize freePages (page2pa (heapEnd smallMachine)) (detectedPages smallMachine) = fl at h1 h2
  rcases fl with _ | ⟨p, _ | ⟨q, fl⟩⟩
  · cases h1
  · rw [List.mem_singleton] at h1 h2
    omega
  · exact ⟨p, q, fl, rfl⟩

/-- A run of one page_alloc on the small machine. -/
theorem first_alloc_smallMachine : ∃ s p L fl, PageRun smallMachine (fun _ _ => 0) s {279} ∧
    Books smallMachine s L fl ∧ L.dirs = {279} ∧ Allocated smallMachine s p ∧
    (s.pages p).ppRef = 0 ∧
    freePages (page2pa (heapEnd smallMachine)) (detectedPages smallMachine) = p :: fl ∧ fl ≠ [] ∧
    ∀ i < 1024, s.mem 279 i = if i = 957 then selfEntry 279 else 0#32 := by
  have hrun := PageRun.start (memInitEarly_smallMachine fun _ _ => 0)
  have hbooks := Books.start (fun _ _ => 0) heapFits_smallMachine
  have hmem : ∀ i < 1024, (afterPageInit smallMachine fun _ _ => 0).mem (heapBase smallMachine) i =
      if i = 957 then selfEntry (heapBase smallMachine) else 0#32 := mem_afterPageInit
  have hfree : ∀ p, p ∈ freePages (page2pa (heapEnd smallMachine)) (detectedPages smallMachine) ↔
      p < detectedPages smallMachine ∧ ¬ InUse (page2pa (heapEnd smallMachine)) p :=
    fun p => mem_freePages
  obtain ⟨p, q, fl, hfl⟩ := two_free_smallMachine
  rw [hfl] at hbooks hfree
  generalize afterPageInit smallMachine (fun _ _ => 0) = s at hrun hbooks hmem
  have hk : s.kernPgdir = 279 := hbooks.kernPgdir
  rw [heapBase_smallMachine] at hmem
  rw [hk] at hrun
  have hb := hbooks.balanced
  have halloc : PageCall.run (.alloc 0#32) s = .ok (.page (some p)) (s.take p) := by
    rw [PageCall.run, bind_ok (pageAlloc_plain hb.head_eq (by decide)), pure_apply]
  have hbound : Bounded (s.take p) := by
    intro x hx
    rw [Kernel.ppRef_take]
    exact hrun.books.1 x hx
  have hkept : Books.Kept smallMachine s _ _ (.alloc 0#32) := hbooks.alloc
  obtain ⟨r, t, L', fl', hcall, hbooks', hdirs, -, hfl'⟩ := hkept
  rw [halloc] at hcall
  cases hcall
  obtain rfl : fl' = q :: fl := hfl'
  refine ⟨s.take p, p, L', q :: fl, PageRun.call (c := .alloc 0#32) hrun True.intro halloc hbound,
    hbooks', hdirs, ⟨hb.free_lt (by simp), ?_, ?_⟩, ?_, hfl, by simp, hmem⟩
  · rw [hbooks'.onFreeList_iff]
    exact (List.nodup_cons.mp hb.nodup).1
  · intro hres
    exact absurd hres ((hfree p).mp (by simp)).2
  · rw [Kernel.ppRef_take]
    exact hb.free_ref (by simp)

/-- Mapping a page where nothing was counts it and a new table once more, and nothing else. -/
theorem Bounded.mapAt {L : Ledger} {fl fl₁ : List Nat} {s₁ : Kernel} {d i j p q : Nat} {va perm : Word}
    (h : Bounded s) (hb : Balanced s L fl) (hready : TableReady s fl d i q s₁ fl₁) (hp : p ∉ fl)
    (hcount : (s.pages p).ppRef.toNat < 65534) (hnone : target (s₁.mem q j) = none) :
    Bounded (s₁.mapAt q j p va perm) := by
  intro x hx
  have hn : (s₁.mapAt q j p va perm).npages = s.npages :=
    Kernel.Paging.mapAt.npages.trans hready.paging.npages
  rw [Kernel.ppRef_mapAt, hnone, if_neg (nofun : ¬ none = some x)]
  by_cases hxf : x ∈ fl
  · have hxp : x ≠ p := fun he => hp (he ▸ hxf)
    have hone : (s₁.pages x).ppRef = 0 ∨ (s₁.pages x).ppRef = 1 := by
      rcases hready with ⟨-, rfl, -⟩ | ⟨-, rfl, rfl⟩
      · exact .inl (hb.free_ref hxf)
      · rw [Kernel.ppRef_withTable, hb.free_ref hxf]
        split
        · exact .inr rfl
        · exact .inl rfl
    rw [if_neg hxp]
    rcases hone with h0 | h1
    · rw [h0]
      decide
    · rw [h1]
      decide
  · rw [hready.ppRef hxf]
    by_cases hxp : x = p
    · subst hxp
      rw [if_pos rfl]
      bv_omega
    · have hold := h x (hn ▸ hx)
      rw [if_neg hxp]
      bv_omega

/-- A run that allocates a page and maps it at 0x800000, which takes a page table. -/
theorem first_insert_smallMachine : ∃ s p, PageRun smallMachine (fun _ _ => 0) s {279} ∧
    LooksUp s 279 0x800000#32 p (page2pa p ||| 7#32) := by
  obtain ⟨s, p, L, fl, hrun, hbooks, hdirs, ha, hr, -, hne, hmem⟩ := first_alloc_smallMachine
  have hd : 279 ∈ L.dirs := by simp [hdirs]
  have hcount : (s.pages p).ppRef.toNat < 65535 := by
    rw [hr]
    decide
  have hnone : target (s.pde 279 (pdx 0x800000#32)) = none := by
    rw [Kernel.pde, hmem _ (pdx_lt _)]
    decide
  have hp := hbooks.notMem_free ha
  have hpdx : pdx 0x800000#32 < 955 := by decide
  rcases pageInsert_spec hbooks.balanced hd hpdx ha.1 hp hcount 6#32 with
    ⟨-, hnil, -⟩ | ⟨q, s₁, fl₁, hready, hins⟩
  · exact absurd hnil hne
  have hva : 0x800000#32 < utop := by decide
  have hperm : (6#32).toNat < 4096 := by decide
  obtain ⟨r, t, hins', hlaws⟩ := hbooks.insert_laws hcount hd ha hva hperm
  rw [hins] at hins'
  cases hins'
  rcases hlaws with ⟨-, hlook, -⟩ | ⟨hr, -⟩
  · refine ⟨_, p, PageRun.call (c := .insert 279 p 0x800000#32 6#32) hrun
      ⟨by simp, ha, hva, hperm⟩ (bind_ok hins) ?_, hlook⟩
    obtain ⟨hb₁, ht⟩ := hready.balanced hbooks.balanced hd (hbooks.own_iff.mpr (by decide))
    have hpte := hready.target_pte hbooks.balanced hd (ptx_lt 0x800000#32)
    rw [Kernel.pte_of_target ht, Kernel.pte_of_no_table hnone, target_zero] at hpte
    refine hrun.books.1.mapAt hbooks.balanced hready hp ?_ hpte
    rw [hr]
    decide
  · cases hr

/-- Of that run: the page and its table are in use, once each. -/
theorem pageRun_sound_smallMachine : ∃ s p fl, LooksUp s 279 0x800000#32 p (page2pa p ||| 7#32) ∧
    FreeListSound s {279} fl ∧ CountsExact s {279} ∧ CallsReturn smallMachine s {279} fl := by
  obtain ⟨s, p, hrun, hlook⟩ := first_insert_smallMachine
  obtain ⟨fl, hfree, hcounts, hcalls⟩ := pageRun_sound hrun
  exact ⟨s, p, fl, hlook, hfree, hcounts, hcalls⟩

theorem pageRun_mappingLaws_smallMachine : ∃ s p, LooksUp s 279 0x800000#32 p (page2pa p ||| 7#32) ∧
    MappingLaws smallMachine s {279} := by
  obtain ⟨s, p, hrun, hlook⟩ := first_insert_smallMachine
  exact ⟨s, p, hlook, pageRun_mappingLaws hrun⟩

/-- The first page table of kern_pgdir appears in its UVPT window as well: an address other
than the one inserted at gains a translation. -/
theorem not_insert_changes_one_translation :
    ¬ ∀ (m : Machine) (mem : Nat → Nat → Word) (s : Kernel) (D : Finset Nat), PageRun m mem s D →
      ∀ pgdir ∈ D, ∀ pp va perm t, Allocated m s pp → va < utop → perm.toNat < 4096 →
        pageInsert pgdir pp va perm s = .ok 0 t → ∀ d ∈ D, ∀ va',
          (d = pgdir → pgnum va' ≠ pgnum va) → hwWalk t.mem d va' = hwWalk s.mem d va' := by
  intro hall
  obtain ⟨s, p, L, fl, hrun, hbooks, hdirs, ha, hr, -, hne, hmem⟩ := first_alloc_smallMachine
  have hb := hbooks.balanced
  have hd : 279 ∈ L.dirs := by simp [hdirs]
  have hva : pdx 0#32 < 955 := by decide
  have hzero : s.pde 279 (pdx 0#32) = 0#32 := hmem 0 (by decide)
  have hnone : target (s.pde 279 (pdx 0#32)) = none := by rw [hzero, target_zero]
  have hcount : (s.pages p).ppRef.toNat < 65535 := by
    rw [hr]
    decide
  rcases pageInsert_spec hb hd hva ha.1 (hbooks.notMem_free ha) hcount 0#32 with
    ⟨-, hnil, -⟩ | ⟨x, s₁, fl₁, hready, hins⟩
  · exact hne hnil
  · have hsame := hall _ _ _ _ hrun 279 (by simp) p 0#32 0#32 _ ha (by decide) (by decide) hins
      279 (by simp) uvpt (by decide)
    obtain ⟨-, htab⟩ := hready.balanced hb hd (hbooks.own_iff.mpr hva)
    have hx : x ≠ 279 := by
      rintro rfl
      exact hready.source.elim (fun hm => hb.free_dir hm hd) (by simp [hnone])
    have hself : s.mem 279 (pdx uvpt) = selfEntry 279 := hmem 957 (by decide)
    have hdir : ∀ i, (s₁.mapAt x (ptx 0#32) p 0#32 0#32).mem 279 i = s₁.pde 279 i := by
      intro i
      rw [Kernel.mem_mapAt, if_neg fun he => hx he.1.symm]
      rfl
    have hpage : pgnum (selfEntry 279) = 279 := by decide
    have hself' : (s₁.mapAt x (ptx 0#32) p 0#32 0#32).mem 279 (pdx uvpt) = selfEntry 279 := by
      rw [hdir, hready.pde_of_ne hb hd (by decide)]
      exact hself
    have hbefore : hwWalk s.mem 279 uvpt = none := by
      apply hwWalk_unmapped
      rw [hself, hpage]
      exact target_eq_none.mp hnone
    have hP : Has (selfEntry 279) pteP := by decide
    rw [hbefore, hwWalk_mapped (hself' ▸ hP) ?_] at hsame
    · cases hsame
    · rw [hself', hpage, hdir]
      exact (target_eq_some.mp htab).1

end Jos
