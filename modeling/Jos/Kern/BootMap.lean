import Jos.Kern.Region
import Jos.Kern.MemInitSpec

/-! boot_map_region on any page directory: the region is mapped, and nothing else changes that is
not seen through a table of the region a second time. -/
namespace Jos

open Prog

/-- Entry `i` of the directory covers one of the pages v, ..., v + n - 1. -/
def Touches (v n i : Nat) : Prop := ∃ k < n, (v + k) / 1024 = i

/-- The free list is sound, and the entries of the region name tables of their own. -/
structure Mappable (s : Kernel) (d v n : Nat) (fl : List Nat) : Prop where
  npages_le : s.npages ≤ 65536
  chain : Chain (fun p => (s.pages p).ppLink) s.pageFreeList fl
  free_lt : ∀ p ∈ fl, p < s.npages
  free_ref : ∀ p ∈ fl, (s.pages p).ppRef = 0
  dir : d ∉ fl
  table : ∀ i, Touches v n i → ∀ t, target (s.pde d i) = some t →
    t ≠ d ∧ t ∉ fl ∧ ∀ i', Touches v n i' → target (s.pde d i') = some t → i' = i

section table

variable {s u : Kernel} {d v n i q t : Nat} {fl rest : List Nat} {va w : Word}

theorem target_tableEntry_withTable (hq : q < 2 ^ 20) :
    target ((s.withTable d i q).pde d i) = some q := by
  rw [Kernel.pde, Kernel.mem_withTable, if_pos ⟨rfl, rfl⟩]
  exact target_tableEntry hq

theorem pde_withTable_of_ne (hdq : d ≠ q) {i' : Nat} (h : i' ≠ i) :
    (s.withTable d i q).pde d i' = s.pde d i' := by
  rw [Kernel.pde, Kernel.mem_withTable, if_neg fun hc => h hc.2, if_neg fun hc => hdq hc.1, Kernel.pde]

/-- A new table leaves a smaller free list and a table of its own for its entry. -/
theorem Mappable.withTable (h : Mappable s d v n (q :: rest)) :
    Mappable (s.withTable d i q) d v n rest := by
  have hq : q < 2 ^ 20 := by
    have := h.free_lt q List.mem_cons_self
    have := h.npages_le
    omega
  have hdq : d ≠ q := fun hc => h.dir (hc ▸ List.mem_cons_self)
  obtain ⟨hqr, hnd⟩ := List.nodup_cons.mp h.chain.nodup
  have hne : ∀ p ∈ rest, p ≠ q := by
    rintro p hp rfl
    exact hqr hp
  refine ⟨h.npages_le, ?chain, ?free_lt, ?free_ref, ?dir, ?table⟩
  case chain =>
    apply h.chain.2.congr
    intro p hp
    change ((((s.fill q 1024 0#32).setLink q none).setRef q _).pages p).ppLink = _
    rw [Kernel.ppLink_setRef, Kernel.ppLink_setLink, if_neg (hne p hp)]
    rfl
  case free_lt => exact fun p hp => h.free_lt p (List.mem_cons_of_mem q hp)
  case free_ref =>
    intro p hp
    rw [Kernel.ppRef_withTable, if_neg (hne p hp), h.free_ref p (List.mem_cons_of_mem q hp)]
    rfl
  case dir => exact fun hc => h.dir (List.mem_cons_of_mem q hc)
  case table =>
    have hfree : ∀ i', Touches v n i' → target (s.pde d i') ≠ some q :=
      fun i' hi' hc => (h.table i' hi' q hc).2.1 List.mem_cons_self
    intro i₁ hi₁ t ht
    by_cases h₁ : i₁ = i
    · subst h₁
      rw [target_tableEntry_withTable hq] at ht
      obtain rfl := Option.some.inj ht
      refine ⟨hdq.symm, hqr, fun i' hi' ht' => ?_⟩
      by_contra hne'
      rw [pde_withTable_of_ne hdq hne'] at ht'
      exact hfree i' hi' ht'
    · rw [pde_withTable_of_ne hdq h₁] at ht
      obtain ⟨htd, htf, huniq⟩ := h.table i₁ hi₁ t ht
      refine ⟨htd, fun hc => htf (List.mem_cons_of_mem q hc), fun i' hi' ht' => ?_⟩
      by_cases h' : i' = i
      · subst h'
        rw [target_tableEntry_withTable hq] at ht'
        obtain rfl := Option.some.inj ht'
        exact absurd List.mem_cons_self htf
      · rw [pde_withTable_of_ne hdq h'] at ht'
        exact huniq i' hi' ht'

theorem pde_store_of_ne (h : t ≠ d) (j : Nat) (w : Word) (i' : Nat) :
    (s.store t j w).pde d i' = s.pde d i' :=
  Kernel.mem_store_of_ne h.symm

/-- Storing to a table of the region. -/
theorem Mappable.store (h : Mappable s d v n fl) (ht : t ≠ d) (j : Nat) (w : Word) :
    Mappable (s.store t j w) d v n fl where
  npages_le := h.npages_le
  chain := h.chain
  free_lt := h.free_lt
  free_ref := h.free_ref
  dir := h.dir
  table := by
    simp only [pde_store_of_ne ht]
    exact h.table

/-- pgdir_walk, when it returns an entry, has the table ready. -/
theorem Mappable.walk (h : Mappable s d v n fl) {r : PteRef}
    (hrun : pgdirWalk d va true s = .ok (some r) u) :
    ∃ t rest, r = ⟨t, ptx va⟩ ∧ TableReady s fl d (pdx va) t u rest := by
  cases ht : target (s.pde d (pdx va)) with
  | some t =>
    have hlt : t < s.npages := by
      obtain ⟨hP, rfl⟩ := target_eq_some.mp ht
      rw [Kernel.pde] at hP
      rw [pgdirWalk, bind_ok (read_apply s), Prog.ite_apply, if_pos hP] at hrun
      obtain ⟨tbl, _, hk, -⟩ := bind_eq_ok.mp hrun
      have hlt := (kaddr_eq_ok.mp hk).1
      rwa [pgnum_pteAddr] at hlt
    rw [pgdirWalk_present ht hlt] at hrun
    cases hrun
    exact ⟨t, fl, rfl, Or.inl ⟨ht, rfl, rfl⟩⟩
  | none =>
    cases fl with
    | nil =>
      rw [pgdirWalk_noMem ht h.chain] at hrun
      cases hrun
    | cons q rest =>
      rw [pgdirWalk_create ht h.chain.1 (h.free_lt q List.mem_cons_self) h.npages_le] at hrun
      cases hrun
      exact ⟨q, rest, rfl, Or.inr ⟨ht, rfl, rfl⟩⟩

end table

section region

variable {s u u' t : Kernel} {d v n p i j k x : Nat} {fl taken rest rest' : List Nat} {perm w : Word}

/-- What the processor reads for the address is not a directory entry that gets a table, as one sees it
through the directory, nor in the page that becomes a table, nor, through a second directory entry, the
entry of one of the region's pages. -/
def SeenOnce (s t : Kernel) (d v n : Nat) (a : Word) : Prop :=
  ∀ x, target (s.pde d (pdx a)) = some x →
    (x = d → target (s.pde d (ptx a)) = none → target (t.pde d (ptx a)) = none) ∧
    (∀ i, target (s.pde d i) = none → target (t.pde d i) ≠ some x) ∧
    ∀ k < n, target (s.pde d ((v + k) / 1024)) = some x → (v + k) % 1024 = ptx a → (v + k) / 1024 = pdx a

/-- Entry `j` of page `x` is none that the region's pages get. -/
def OffRegion (s : Kernel) (d v n : Nat) (taken : List Nat) (x j : Nat) : Prop :=
  x ≠ d ∧ x ∉ taken ∧ ∀ k < n, target (s.pde d ((v + k) / 1024)) = some x → (v + k) % 1024 ≠ j

/-- boot_map_region after its first `k` pages, with the pages taken for tables and those left. -/
structure RegionDone (s : Kernel) (d v n p : Nat) (perm : Word) (fl : List Nat) (k : Nat)
    (u : Kernel) (taken rest : List Nat) : Prop where
  mappable : Mappable u d v n rest
  split : fl = taken ++ rest
  taken_lt : ∀ q ∈ taken, q < 2 ^ 20
  pde : ∀ i, u.pde d i = s.pde d i ∨
    (Touches v n i ∧ target (s.pde d i) = none ∧ ∃ q ∈ taken, u.pde d i = tableEntry q)
  made : ∀ q ∈ taken, ∃ i, Touches v n i ∧ target (s.pde d i) = none ∧ u.pde d i = tableEntry q
  pte : ∀ i, Touches v n i → ∀ j < 1024, u.pte d i j =
    if v ≤ i * 1024 + j ∧ i * 1024 + j < v + k then pageEntry (p + (i * 1024 + j - v)) perm
    else s.pte d i j
  ref : ∀ q, (u.pages q).ppRef = if q ∈ taken then 1 else (s.pages q).ppRef
  mem : ∀ x j, OffRegion s d v n taken x j → u.mem x j = s.mem x j

theorem RegionDone.start (h : Mappable s d v n fl) : RegionDone s d v n p perm fl 0 s [] fl where
  mappable := h
  split := rfl
  taken_lt := by simp
  pde := fun _ => Or.inl rfl
  made := by simp
  pte := by
    intro i _ j _
    rw [if_neg (by omega)]
  ref := by simp
  mem := fun _ _ _ => rfl

/-- A table is made for an entry that had none; it holds no mapping yet. -/
theorem RegionDone.withTable (h : RegionDone s d v n p perm fl k u taken (x :: rest))
    (hi : Touches v n i) (hnone : target (u.pde d i) = none) :
    RegionDone s d v n p perm fl k (u.withTable d i x) (taken ++ [x]) rest := by
  have hm := h.mappable
  have hdx : d ≠ x := fun hc => hm.dir (hc ▸ List.mem_cons_self)
  have hxlt : x < 2 ^ 20 := by
    have := hm.free_lt x List.mem_cons_self
    have := hm.npages_le
    omega
  have hold : target (s.pde d i) = none := by
    rcases h.pde i with he | ⟨-, hs, -⟩
    · rw [← he, hnone]
    · exact hs
  have hnew : (u.withTable d i x).pde d i = tableEntry x := by
    rw [Kernel.pde, Kernel.mem_withTable, if_pos ⟨rfl, rfl⟩]
    rfl
  refine ⟨hm.withTable, ?split, ?taken_lt, ?pde, ?made, ?pte, ?ref, ?mem⟩
  case split => rw [h.split, List.append_assoc, List.singleton_append]
  case taken_lt =>
    intro q hq
    rcases List.mem_append.mp hq with hq | hq
    · exact h.taken_lt q hq
    · obtain rfl := List.mem_singleton.mp hq
      exact hxlt
  case pde =>
    intro i'
    by_cases hi' : i' = i
    · subst hi'
      exact Or.inr ⟨hi, hold, x, by simp, hnew⟩
    · rw [pde_withTable_of_ne hdx hi']
      rcases h.pde i' with he | ⟨htouch, hs, q, hq, he⟩
      · exact Or.inl he
      · exact Or.inr ⟨htouch, hs, q, by simp [hq], he⟩
  case made =>
    intro q hq
    rcases List.mem_append.mp hq with hq | hq
    · obtain ⟨i', htouch, hs, he⟩ := h.made q hq
      have hi' : i' ≠ i := by
        rintro rfl
        rw [he, target_tableEntry (h.taken_lt q hq)] at hnone
        cases hnone
      exact ⟨i', htouch, hs, (pde_withTable_of_ne hdx hi').trans he⟩
    · obtain rfl := List.mem_singleton.mp hq
      exact ⟨i, hi, hold, hnew⟩
  case pte =>
    intro i' htouch j hj
    rw [← h.pte i' htouch j hj]
    by_cases hi' : i' = i
    · subst hi'
      have ht : target ((u.withTable d i' x).pde d i') = some x := target_tableEntry_withTable hxlt
      rw [Kernel.pte_of_target ht, Kernel.mem_withTable, if_neg fun hc => hdx hc.1.symm,
        if_pos ⟨rfl, hj⟩, Kernel.pte_of_no_table hnone]
    · apply Kernel.pte_congr (pde_withTable_of_ne hdx hi')
      intro y hy
      obtain ⟨hyd, hyf, -⟩ := hm.table i' htouch y hy
      have hyx : y ≠ x := fun hc => hyf (hc ▸ List.mem_cons_self)
      rw [Kernel.mem_withTable, if_neg fun hc => hyd hc.1, if_neg fun hc => hyx hc.1]
  case ref =>
    intro q
    rw [Kernel.ppRef_withTable]
    by_cases hq : q = x
    · subst hq
      rw [hm.free_ref q List.mem_cons_self, if_pos rfl, if_pos (by simp)]
      rfl
    · have hmem : q ∈ taken ++ [x] ↔ q ∈ taken := by simp [hq]
      simp only [hq, if_false, h.ref q, hmem]
      exact BitVec.add_zero _
  case mem =>
    rintro y j ⟨hyd, hyt, hys⟩
    obtain ⟨hyt, hyx⟩ := not_or.mp (List.mem_append.not.mp hyt)
    rw [Kernel.mem_withTable, if_neg fun hc => hyd hc.1,
      if_neg fun hc => hyx (List.mem_singleton.mpr hc.1)]
    exact h.mem y j ⟨hyd, hyt, hys⟩

/-- One entry is stored in the table of its directory entry. -/
theorem RegionDone.store (h : RegionDone s d v n p perm fl k u taken rest) (hk : k < n)
    (ht : target (u.pde d ((v + k) / 1024)) = some x) :
    RegionDone s d v n p perm fl (k + 1)
      (u.store x ((v + k) % 1024) (pageEntry (p + k) perm)) taken rest := by
  have hm := h.mappable
  have hi : Touches v n ((v + k) / 1024) := ⟨k, hk, rfl⟩
  obtain ⟨hxd, hxf, huniq⟩ := hm.table _ hi x ht
  refine ⟨hm.store hxd _ _, h.split, h.taken_lt, ?pde, ?made, ?pte, h.ref, ?mem⟩
  case pde =>
    intro i'
    rw [pde_store_of_ne hxd]
    exact h.pde i'
  case made =>
    intro q hq
    obtain ⟨i', htouch, hs, he⟩ := h.made q hq
    exact ⟨i', htouch, hs, (pde_store_of_ne hxd _ _ _).trans he⟩
  case pte =>
    intro i' htouch j hj
    have hold := h.pte i' htouch j hj
    by_cases hi' : i' = (v + k) / 1024
    · have ht' : target ((u.store x ((v + k) % 1024) (pageEntry (p + k) perm)).pde d i') = some x := by
        rw [pde_store_of_ne hxd, hi', ht]
      rw [Kernel.pte_of_target ht', Kernel.mem_store]
      by_cases hj' : j = (v + k) % 1024
      · have hx : i' * 1024 + j = v + k := by omega
        rw [if_pos ⟨rfl, hj'⟩, hx, if_pos (by omega), Nat.add_sub_cancel_left]
      · have hu : u.pte d i' j = u.mem x j := Kernel.pte_of_target (by rw [hi', ht])
        have hiff : (v ≤ i' * 1024 + j ∧ i' * 1024 + j < v + (k + 1)) ↔
            (v ≤ i' * 1024 + j ∧ i' * 1024 + j < v + k) := by omega
        rw [if_neg fun hc => hj' hc.2, ← hu, hold]
        simp only [hiff]
    · have hsame : (u.store x ((v + k) % 1024) (pageEntry (p + k) perm)).pte d i' j = u.pte d i' j := by
        apply Kernel.pte_congr (pde_store_of_ne hxd _ _ _)
        intro y hy
        have hyx : y ≠ x := by
          rintro rfl
          exact hi' (huniq i' htouch hy)
        exact Kernel.mem_store_of_ne hyx
      have hiff : (v ≤ i' * 1024 + j ∧ i' * 1024 + j < v + (k + 1)) ↔
          (v ≤ i' * 1024 + j ∧ i' * 1024 + j < v + k) := by omega
      rw [hsame, hold]
      simp only [hiff]
  case mem =>
    intro y j hy
    have hyx : ¬ (y = x ∧ j = (v + k) % 1024) := by
      rintro ⟨rfl, hj⟩
      rcases h.pde ((v + k) / 1024) with he | ⟨-, -, q, hq, he⟩
      · exact hy.2.2 k hk (he ▸ ht) hj.symm
      · rw [he, target_tableEntry (h.taken_lt q hq)] at ht
        obtain rfl := Option.some.inj ht
        exact hy.2.1 hq
    rw [Kernel.mem_store, if_neg hyx]
    exact h.mem y j hy

/-- One round of the loop, if it does not panic. -/
theorem RegionDone.round (h : RegionDone s d v n p perm fl k u taken rest) (hk : k < n)
    (hv : v + n ≤ 2 ^ 20) :
    Ensures (bootMapPage d (page2pa (v + k)) (page2pa (p + k)) perm) u fun _ t =>
      ∃ taken rest, RegionDone s d v n p perm fl (k + 1) t taken rest := by
  rintro ⟨⟩ t hrun
  have hx : v + k < 2 ^ 20 := by omega
  obtain ⟨o, u₁, hwalk, hrun⟩ := bind_eq_ok.mp hrun
  cases o with
  | none => exact absurd hrun stop_ne_ok
  | some r =>
    obtain ⟨x, rest', rfl, hready⟩ := h.mappable.walk hwalk
    obtain rfl := update_eq_ok.mp hrun
    rw [ptx_page2pa hx]
    rw [pdx_page2pa hx] at hready
    rcases hready with ⟨htarget, rfl, rfl⟩ | ⟨hnone, rfl, rfl⟩
    · exact ⟨taken, rest', h.store hk htarget⟩
    · have hmade := h.withTable ⟨k, hk, rfl⟩ hnone
      have hlt : x < 2 ^ 20 := hmade.taken_lt x (by simp)
      exact ⟨taken ++ [x], rest', hmade.store hk (target_tableEntry_withTable hlt)⟩

theorem bootMapRegion_done (h : Mappable s d v n fl) (hv : v + n ≤ 2 ^ 20) {size : Word}
    (hn : (size / pgsize).toNat = n) :
    Ensures (bootMapRegion d (page2pa v) size (page2pa p) perm) s fun _ t =>
      ∃ taken rest, RegionDone s d v n p perm fl n t taken rest := by
  rw [bootMapRegion_rounds hn]
  refine forRange_ensures (I := fun k t => ∃ taken rest, RegionDone s d v n p perm fl k t taken rest)
    ⟨[], fl, RegionDone.start h⟩ ?_
  rintro k hk u ⟨taken, rest, hu⟩
  exact hu.round hk hv

/-- A translation through entries that are seen once is what it was. -/
theorem RegionDone.walk_eq (h : RegionDone s d v n p perm fl n t taken rest) {a : Word}
    (ha : pgnum a < v ∨ v + n ≤ pgnum a)
    (hseen : SeenOnce s t d v n a) :
    hwWalk t.mem d a = hwWalk s.mem d a := by
  have hidx := pgnum_eq_indices a
  cases htgt : target (s.pde d (pdx a)) with
  | none =>
    have hbefore : hwWalk s.mem d a = none := hwWalk_absent (target_eq_none.mp htgt)
    rw [hbefore]
    rcases h.pde (pdx a) with he | ⟨htouch, -, -⟩
    · rw [← he] at htgt
      exact hwWalk_absent (target_eq_none.mp htgt)
    · -- the new table maps the pages of the region only
      have hpte := h.pte (pdx a) htouch (ptx a) (ptx_lt a)
      rw [if_neg (by omega), Kernel.pte_of_no_table htgt] at hpte
      cases hw : hwWalk t.mem d a with
      | none => rfl
      | some y =>
        have htarget := (hwWalk_eq_some.mp hw).1
        rw [hpte, target_zero] at htarget
        cases htarget
  | some x =>
    obtain ⟨hxd, hxt, huniq⟩ := hseen x htgt
    have hpde : t.pde d (pdx a) = s.pde d (pdx a) := by
      rcases h.pde (pdx a) with he | ⟨-, hs, -⟩
      · exact he
      · rw [htgt] at hs
        cases hs
    have hpte : t.pte d (pdx a) (ptx a) = s.pte d (pdx a) (ptx a) := by
      by_cases htouch : Touches v n (pdx a)
      · rw [h.pte _ htouch _ (ptx_lt a), if_neg (by omega)]
      · apply Kernel.pte_congr hpde
        intro y hy
        obtain rfl : x = y := Option.some.inj (htgt.symm.trans hy)
        by_cases hd : x = d
        · subst hd
          rcases h.pde (ptx a) with he | ⟨-, hs, q, hq, he⟩
          · exact he
          · have hnone := hxd rfl hs
            rw [he, target_tableEntry (h.taken_lt q hq)] at hnone
            cases hnone
        · refine h.mem x _ ⟨hd, fun hm => ?_, fun k hk hkx hj => htouch ⟨k, hk, huniq k hk hkx hj⟩⟩
          obtain ⟨i, -, hs, he⟩ := h.made x hm
          exact hxt i hs (by rw [he, target_tableEntry (h.taken_lt x hm)])
    have hiff : ∀ y, hwWalk t.mem d a = some y ↔ hwWalk s.mem d a = some y := by
      intro y
      rw [hwWalk_eq_some, hwWalk_eq_some, hpde, hpte]
    exact Option.ext hiff

end region

section call

/-- What a call of boot_map_region may do. -/
structure RegionOnly (s t : Kernel) (d : Nat) (fl : List Nat) (va size pa perm : Word) : Prop where
  maps : ∀ k < size.toNat / 4096,
    t.entryOf d (va + BitVec.ofNat 32 k * pgsize) =
      (pa + BitVec.ofNat 32 k * pgsize) ||| (perm ||| pteP) ∧
    hwAddr t.mem d (va + BitVec.ofNat 32 k * pgsize) = some (pa + BitVec.ofNat 32 k * pgsize)
  frame : ∀ a, ¬ (va.toNat ≤ a.toNat ∧ a.toNat < va.toNat + size.toNat) →
    SeenOnce s t d (pgnum va) (size.toNat / 4096) a → hwWalk t.mem d a = hwWalk s.mem d a
  refs : ∃ taken rest, fl = taken ++ rest ∧
    (∀ q ∈ taken, ∃ i, target (s.pde d i) = none ∧ target (t.pde d i) = some q) ∧
    ∀ q, (t.pages q).ppRef = if q ∈ taken then 1 else (s.pages q).ppRef

variable {s t : Kernel} {d : Nat} {fl : List Nat} {va size pa perm : Word}

/-- A page-aligned address is that of its page. -/
theorem page2pa_of_aligned (h : pgoff va = 0) : page2pa (pgnum va) = va := by
  apply BitVec.eq_of_toNat_eq
  rw [toNat_page2pa (pgnum_lt va), pgnum_eq]
  rw [pgoff_eq] at h
  omega

/-- boot_map_region maps the region, also one that ends at 2^32, and leaves the translation of
every other page as it was, unless the page shows what the call writes a second time. -/
theorem bootMapRegion_regionOnly (hm : Mappable s d (pgnum va) (size.toNat / 4096) fl)
    (hva : pgoff va = 0) (hpa : pgoff pa = 0) (hsize : size.toNat % 4096 = 0)
    (hv : va.toNat + size.toNat ≤ 2 ^ 32) (hp : pa.toNat + size.toNat ≤ 2 ^ 32)
    (hperm : perm.toNat < 4096) :
    Ensures (bootMapRegion d va size pa perm) s fun _ t => RegionOnly s t d fl va size pa perm := by
  have hn : (size / pgsize).toNat = size.toNat / 4096 := by
    rw [BitVec.toNat_udiv]
    rfl
  have hvn : va.toNat = pgnum va * 4096 := by
    rw [pgoff_eq] at hva
    rw [pgnum_eq]
    omega
  have hpn : pa.toNat = pgnum pa * 4096 := by
    rw [pgoff_eq] at hpa
    rw [pgnum_eq]
    omega
  have hrun : Ensures (bootMapRegion d (page2pa (pgnum va)) size (page2pa (pgnum pa)) perm) s _ :=
    bootMapRegion_done hm (by omega) hn
  rw [page2pa_of_aligned hva, page2pa_of_aligned hpa] at hrun
  refine hrun.mono ?_
  rintro ⟨⟩ t ⟨taken, rest, hdone⟩
  refine ⟨?maps, ?frame, ?refs⟩
  case maps =>
    intro k hk
    have hvk : va + BitVec.ofNat 32 k * pgsize = page2pa (pgnum va + k) := by
      rw [← page2pa_offset, page2pa_of_aligned hva]
    have hpk : pa + BitVec.ofNat 32 k * pgsize = page2pa (pgnum pa + k) := by
      rw [← page2pa_offset, page2pa_of_aligned hpa]
    have hvlt : pgnum va + k < 2 ^ 20 := by omega
    have hplt : pgnum pa + k < 2 ^ 20 := by omega
    have hpte := hdone.pte ((pgnum va + k) / 1024) ⟨k, hk, rfl⟩ ((pgnum va + k) % 1024) (by omega)
    rw [show (pgnum va + k) / 1024 * 1024 + (pgnum va + k) % 1024 = pgnum va + k by omega,
      if_pos ⟨by omega, by omega⟩, Nat.add_sub_cancel_left] at hpte
    have hentry : t.entryOf d (page2pa (pgnum va + k)) = pageEntry (pgnum pa + k) perm := by
      rw [Kernel.entryOf, pdx_page2pa hvlt, ptx_page2pa hvlt, hpte]
    rw [hvk, hpk]
    constructor
    · rw [hentry, pageEntry, pteAddr_page2pa hplt, BitVec.or_assoc]
    · have htarget : target (t.entryOf d (page2pa (pgnum va + k))) = some (pgnum pa + k) := by
        rw [hentry]
        exact Balanced.target_newEntry hplt hperm
      have hpage : (hwWalk t.mem d (page2pa (pgnum va + k))).map (·.page) = some (pgnum pa + k) := by
        rw [hwWalk_page, ← Kernel.entryOf, htarget]
      obtain ⟨y, hy, hypage⟩ := Option.map_eq_some_iff.mp hpage
      have hoff : pgoff (page2pa (pgnum va + k)) = 0 := by
        rw [pgoff_eq, toNat_page2pa hvlt]
        omega
      rw [hwAddr, hy, Option.map_some, hypage, hoff]
      exact congrArg some (BitVec.add_zero _)
  case frame =>
    intro a ha hseen
    refine hdone.walk_eq ?_ hseen
    rw [pgnum_eq a]
    omega
  case refs =>
    refine ⟨taken, rest, hdone.split, fun q hq => ?_, hdone.ref⟩
    obtain ⟨i, -, hnone, he⟩ := hdone.made q hq
    exact ⟨i, hnone, by rw [he, target_tableEntry (hdone.taken_lt q hq)]⟩

/-- A directory of the page calls' books can be mapped in where it owns its tables, as kern_pgdir
does everywhere but in its own entry. -/
theorem Balanced.mappable {L : Ledger} {v n : Nat} (h : Balanced s L fl) (hd : d ∈ L.dirs)
    (hown : ∀ i, Touches v n i → i ∈ L.own d) : Mappable s d v n fl where
  npages_le := h.npages_le
  chain := h.chain
  free_lt := fun _ hp => h.free_lt hp
  free_ref := fun _ hp => h.free_ref hp
  dir := fun hf => (h.unreferenced (h.free_lt hf) (h.free_ref hf)).2.1 hd
  table := by
    intro i hi t ht
    obtain ⟨hlt, hdir⟩ := h.table d hd i (hown i hi) t ht
    refine ⟨fun hc => hdir (hc ▸ hd), (h.referenced_table hd (hown i hi) ht).2.1, fun i' hi' ht' => ?_⟩
    exact (h.table_inj d hd i' (hown i' hi') d hd i (hown i hi) t ht' ht).2

theorem touches_upages : ∀ i, Touches (pgnum upages) ((0x1000#32).toNat / 4096) i → i = 956 := by
  rintro i ⟨k, hk, rfl⟩
  have hv : pgnum upages = 956 * 1024 := by decide
  have hn : (0x1000#32).toNat / 4096 = 1 := by decide
  rw [hv]
  omega

theorem mappable_smallMachine :
    Mappable (afterPageInit smallMachine fun _ _ => 0) 279 (pgnum upages) ((0x1000#32).toNat / 4096)
      (freePages (page2pa (heapEnd smallMachine)) (detectedPages smallMachine)) := by
  have hdir : KernelDir smallMachine (afterPageInit smallMachine fun _ _ => 0) _ _ :=
    kernelDir_start heapFits_smallMachine
  refine hdir.balanced.mappable ?_ fun i hi => ?_
  · rw [← heapBase_smallMachine]
    exact bootLedger_dirs
  · rw [touches_upages i hi]
    exact mem_kernOwn.mpr (by decide)

/-- The first page mapped in kern_pgdir at UPAGES: its table appears in the directory. -/
theorem firstMap_smallMachine : ∃ p t,
    bootMapRegion 279 upages 0x1000#32 0#32 pteU (afterPageInit smallMachine fun _ _ => 0) = .ok () t ∧
    p < 2 ^ 20 ∧ t.mem 279 956 = tableEntry p ∧ t.mem 279 957 = selfEntry 279 := by
  obtain ⟨p, q, fl, hfl⟩ := two_free_smallMachine
  have hm := mappable_smallMachine
  have hmem : ∀ i < 1024, (afterPageInit smallMachine fun _ _ => 0).mem 279 i =
      if i = 957 then selfEntry 279 else 0#32 := by
    rw [← heapBase_smallMachine]
    exact mem_afterPageInit
  rw [hfl] at hm
  have hp : p ∈ p :: q :: fl := List.mem_cons_self
  have hdp : 279 ≠ p := fun hc => hm.dir (hc ▸ hp)
  have hlt : p < 2 ^ 20 := by
    have := hm.free_lt p hp
    have := hm.npages_le
    omega
  have hpdx : pdx upages = 956 := pdx_upages
  have hptx : ptx upages = 0 := by decide
  generalize afterPageInit smallMachine (fun _ _ => 0) = s at hm hmem
  have hnone : target (s.mem 279 (pdx upages)) = none := by
    rw [hpdx, hmem 956 (by decide), if_neg (by decide), target_zero]
  have hwalk : pgdirWalk 279 upages true s = .ok (some ⟨p, ptx upages⟩) (s.withTable 279 956 p) := by
    rw [← hpdx]
    exact pgdirWalk_create hnone hm.chain.1 (hm.free_lt p hp) hm.npages_le
  have hn : (0x1000#32 / pgsize).toNat = 1 := by decide
  have hva : upages + BitVec.ofNat 32 0 * pgsize = upages := by decide
  have hpa : 0#32 + BitVec.ofNat 32 0 * pgsize = 0#32 := by decide
  refine ⟨p, (s.withTable 279 956 p).store p (ptx upages) (pteAddr 0#32 ||| pteU ||| pteP), ?_, hlt,
    ?_, ?_⟩
  · rw [bootMapRegion, hn, forRange, forRange, bind_ok (pure_apply () s), hva, hpa, bootMapPage,
      bind_ok hwalk]
    exact update_apply _ _
  · rw [Kernel.mem_store_of_ne hdp, Kernel.mem_withTable, if_pos ⟨rfl, rfl⟩]
    rfl
  · rw [Kernel.mem_store_of_ne hdp, Kernel.mem_withTable, if_neg (by decide), if_neg fun hc => hdp hc.1,
      hmem 957 (by decide), if_pos rfl]

theorem bootMapRegion_regionOnly_smallMachine : ∃ t,
    bootMapRegion 279 upages 0x1000#32 0#32 pteU (afterPageInit smallMachine fun _ _ => 0) = .ok () t ∧
    RegionOnly (afterPageInit smallMachine fun _ _ => 0) t 279
      (freePages (page2pa (heapEnd smallMachine)) (detectedPages smallMachine))
      upages 0x1000#32 0#32 pteU := by
  obtain ⟨p, t, hrun, -⟩ := firstMap_smallMachine
  exact ⟨t, hrun, bootMapRegion_regionOnly mappable_smallMachine (by decide) (by decide) (by decide)
    (by decide) (by decide) (by decide) () t hrun⟩

/-- A new page table of kern_pgdir appears in its UVPT window: an address outside the region gains
a translation. -/
theorem not_bootMapRegion_frame :
    ¬ ∀ (s t : Kernel) (d : Nat) (va size pa perm : Word), pgoff va = 0 → pgoff pa = 0 →
      size.toNat % 4096 = 0 → va.toNat + size.toNat ≤ 2 ^ 32 → pa.toNat + size.toNat ≤ 2 ^ 32 →
      (va.toNat + size.toNat ≤ uvpt.toNat ∨ ulim.toNat ≤ va.toNat) → perm.toNat < 4096 →
      bootMapRegion d va size pa perm s = .ok () t →
      ∀ a, ¬ (va.toNat ≤ a.toNat ∧ a.toNat < va.toNat + size.toNat) →
        hwWalk t.mem d a = hwWalk s.mem d a := by
  intro hall
  obtain ⟨p, t, hrun, hlt, hdir, hself⟩ := firstMap_smallMachine
  have hsame := hall _ t 279 upages 0x1000#32 0#32 pteU (by decide) (by decide) (by decide) (by decide)
    (by decide) (by decide) (by decide) hrun (uvpt + 956#32 * pgsize) (by decide)
  have hpdx : pdx (uvpt + 956#32 * pgsize) = 957 := by decide
  have hptx : ptx (uvpt + 956#32 * pgsize) = 956 := by decide
  have hpage : pgnum (selfEntry 279) = 279 := by decide
  have hP : Has (selfEntry 279) pteP := by decide
  have hbefore : (afterPageInit smallMachine fun _ _ => 0).mem 279 957 = selfEntry 279 ∧
      (afterPageInit smallMachine fun _ _ => 0).mem 279 956 = 0#32 := by
    rw [← heapBase_smallMachine, mem_afterPageInit 957 (by decide), mem_afterPageInit 956 (by decide)]
    exact ⟨if_pos rfl, if_neg (by decide)⟩
  have hnone : hwWalk (afterPageInit smallMachine fun _ _ => 0).mem 279 (uvpt + 956#32 * pgsize) =
      none := by
    apply hwWalk_unmapped
    rw [hpdx, hptx, hbefore.1, hpage, hbefore.2]
    exact not_has_zero
  rw [hnone, hwWalk_mapped] at hsame
  · cases hsame
  · rw [hpdx, hself]
    exact hP
  · rw [hpdx, hptx, hself, hpage, hdir]
    exact (target_eq_some.mp (target_tableEntry hlt)).1

end call

end Jos
