import Jos.Kern.MemInitSpec
import Jos.Kern.PageLaws

/-! Pages mapped any number of times, and the 16-bit count of their references. -/
namespace Jos

open Prog

/-- page_insert and page_remove called any number of times, from any state the interface has set
up. page_insert is called on the pages that `Allowed` lets through. -/
inductive MapRun (m : Machine) (mem : Nat → Nat → Word) (Allowed : Kernel → Nat → Prop) :
    Kernel → Finset Nat → Prop
  | start {s : Kernel} {D : Finset Nat} : PageRun m mem s D → MapRun m mem Allowed s D
  | insert {s t : Kernel} {D : Finset Nat} {pgdir pp : Nat} {va perm : Word} {r : Int} :
    MapRun m mem Allowed s D → pgdir ∈ D → Allocated m s pp → va < utop → perm.toNat < 4096 →
    Allowed s pp → pageInsert pgdir pp va perm s = .ok r t → MapRun m mem Allowed t D
  | remove {s t : Kernel} {D : Finset Nat} {pgdir : Nat} {va : Word} :
    MapRun m mem Allowed s D → pgdir ∈ D → va < utop → pageRemove pgdir va s = .ok () t →
    MapRun m mem Allowed t D

/-- The count of the page can take one more reference. -/
def CountFits (s : Kernel) (p : Nat) : Prop := (s.pages p).ppRef.toNat < 65535

/-- Mapped pages are not free, page_remove returns, and the counts are the numbers of entries. -/
structure SharedSound (s : Kernel) (D : Finset Nat) : Prop where
  not_free : ∀ p, s.Mapped D p → ¬ s.OnFreeList p
  removes : ∀ pgdir ∈ D, ∀ va < utop, ∃ t, pageRemove pgdir va s = .ok () t
  counts : CountsExact s D

variable {m : Machine} {mem : Nat → Nat → Word} {s t : Kernel} {D : Finset Nat} {L : Ledger}
  {fl : List Nat}

theorem MapRun.books (h : MapRun m mem CountFits s D) : ∃ L fl, Books m s L fl ∧ L.dirs = D := by
  induction h with
  | start hrun => exact hrun.books.2
  | insert hrun hd ha hva hperm hfits hins ih =>
    obtain ⟨L, fl, hbooks, rfl⟩ := ih
    obtain ⟨r, t, L', fl', hcall, hbooks', hdirs, -⟩ := hbooks.insert hfits hd ha hva hperm
    rw [PageCall.run, bind_ok hins] at hcall
    cases hcall
    exact ⟨L', fl', hbooks', hdirs⟩
  | remove hrun hd hva hrem ih =>
    obtain ⟨L, fl, hbooks, rfl⟩ := ih
    obtain ⟨r, t, L', fl', hcall, hbooks', hdirs, -⟩ := hbooks.remove hd hva
    rw [PageCall.run, bind_ok hrem] at hcall
    cases hcall
    exact ⟨L', fl', hbooks', hdirs⟩

/-- As long as page_insert is not called on a page with 65535 references, sharing is sound. -/
theorem mapRun_sharedSound (h : MapRun m mem CountFits s D) : SharedSound s D := by
  obtain ⟨L, fl, hbooks, rfl⟩ := h.books
  refine ⟨?_, ?_, hbooks.countsExact⟩
  · intro p hp hfree
    exact (hbooks.freeListSound.unused p (hbooks.onFreeList_iff.mp hfree)).2.1 hp
  · intro pgdir hd va hva
    obtain ⟨t, hrun, -⟩ := hbooks.remove_laws hd hva
    exact ⟨t, hrun⟩

section wrap

variable {p k : Nat}

/-- Page `p` is mapped at the first `k` virtual pages of `d`, and nothing at the rest of the
first 65536; it has no other reference. -/
structure MappedTimes (m : Machine) (s : Kernel) (L : Ledger) (fl : List Nat) (d p k : Nat) : Prop where
  books : Books m s L fl
  dir : d ∈ L.dirs
  allocated : Allocated m s p
  count : (s.pages p).ppRef.toNat = k
  walk : ∀ x < 65536, (hwWalk s.mem d (page2pa x)).map (·.page) = if x < k then some p else none
  room : 64 ≤ fl.length + (k + 1023) / 1024

theorem pageRemove_panics {d q : Nat} {va : Word} (ht : target (s.mem d (pdx va)) = some q)
    (hq : q < s.npages) (hp : target (s.mem q (ptx va)) = some p) (hlt : p < s.npages)
    (hr : (s.pages p).ppRef = 0) : pageRemove d va s =
      .stop (.panic "page_remove found a page with negative ref count") s := by
  rw [pageRemove, bind_ok (pageLookup_mapped ht hq hp hlt)]
  change (read >>= _) s = _
  rw [bind_ok (read_apply s)]
  apply bind_stop
  rw [check_apply, if_neg (not_not.mpr hr)]

theorem page2pa_lt_utop {x : Nat} (hx : x < 65536) : page2pa x < utop := by
  rw [BitVec.lt_def, toNat_utop, toNat_page2pa (by omega)]
  omega

namespace MappedTimes

variable {d : Nat}

theorem target_pte (h : MappedTimes m s L fl d p k) {x : Nat} (hx : x < 65536) :
    target (s.pte d (x / 1024) (x % 1024)) = if x < k then some p else none := by
  rw [← h.walk x hx, hwWalk_page, pdx_page2pa (by omega), ptx_page2pa (by omega)]

/-- The table that maps the page before is there. -/
theorem table (h : MappedTimes m s L fl d p k) (hk : k < 65536) (hmod : k % 1024 ≠ 0) :
    target (s.pde d (k / 1024)) ≠ none := by
  intro hnone
  have hpte := h.target_pte (x := k - 1) (by omega)
  rw [if_pos (by omega), show (k - 1) / 1024 = k / 1024 by omega, Kernel.pte_of_no_table hnone,
    target_zero] at hpte
  cases hpte

theorem insert (h : MappedTimes m s L fl d p k) (hk : k < 65535) :
    ∃ t L' fl', pageInsert d p (page2pa k) 0#32 s = .ok 0 t ∧ L'.dirs = L.dirs ∧
      MappedTimes m t L' fl' d p (k + 1) := by
  have hcount : (s.pages p).ppRef.toNat < 65535 := by
    rw [h.count]
    exact hk
  have hva : page2pa k < utop := page2pa_lt_utop (by omega)
  have hpdx : pdx (page2pa k) = k / 1024 := pdx_page2pa (by omega)
  have hptx : ptx (page2pa k) = k % 1024 := ptx_page2pa (by omega)
  have hfree : target (s.pte d (pdx (page2pa k)) (ptx (page2pa k))) = none := by
    rw [hpdx, hptx, h.target_pte (by omega), if_neg (Nat.lt_irrefl k)]
  have hroom := h.room
  have htable : fl = [] → target (s.pde d (pdx (page2pa k))) ≠ none := by
    rintro rfl
    rw [hpdx]
    apply h.table (by omega)
    rw [List.length_nil] at hroom
    omega
  have hlow : pdx (page2pa k) < 955 := (lt_utop_iff _).mp hva
  have hpf := h.books.notMem_free h.allocated
  have hperm : (0#32 : Word).toNat < 4096 := by decide
  rcases pageInsert_spec h.books.balanced h.dir hlow h.allocated.1 hpf hcount 0#32 with
    ⟨hnone, hnil, -⟩ | ⟨q, s₁, fl₁, hready, hrun⟩
  · exact absurd hnone (htable hnil)
  · obtain ⟨r, t, L', fl', hcall, hbooks', hdirs, hchange⟩ :=
      h.books.insert hcount h.dir h.allocated hva hperm
    obtain ⟨r', t', hrun', hlaws⟩ :=
      h.books.insert_laws hcount h.dir h.allocated hva hperm
    rw [PageCall.run, bind_ok hrun] at hcall
    rw [hrun] at hrun'
    cases hcall
    cases hrun'
    rcases hlaws with ⟨-, hlook, hnot, hsame⟩ | ⟨hr, -⟩
    · refine ⟨_, L', fl', hrun, hdirs, hbooks', hdirs ▸ h.dir, ⟨?_, hnot, ?_⟩, ?_, ?_, ?_⟩
      · rw [Kernel.Paging.mapAt.npages, hready.paging.npages]
        exact h.allocated.1
      · intro hres
        rw [hbooks'.kernPgdir, ← h.books.kernPgdir]
        exact h.allocated.2.2 hres
      · obtain ⟨-, ht⟩ := hready.balanced h.books.balanced h.dir (h.books.own_iff.mpr hlow)
        have hpte := hready.target_pte h.books.balanced h.dir (ptx_lt (page2pa k))
        rw [Kernel.pte_of_target ht, hfree] at hpte
        have hk' := h.count
        rw [Kernel.ppRef_mapAt, hready.ppRef hpf, hpte, if_pos rfl, if_neg (by simp)]
        bv_omega
      · intro x hx
        by_cases hxk : x = k
        · subst hxk
          rw [hlook.walk, if_pos (Nat.lt_succ_self x)]
        · have hne : pgnum (page2pa x) ≠ pgnum (page2pa k) := by
            rw [pgnum_page2pa (by omega), pgnum_page2pa (by omega)]
            exact hxk
          have hlow := BitVec.not_le.mpr (page2pa_lt_utop hx)
          rw [hsame d h.dir _ (fun _ => hne) (fun hle => absurd hle hlow), h.walk x hx]
          by_cases hlt : x < k
          · rw [if_pos hlt, if_pos (by omega)]
          · rw [if_neg hlt, if_neg (by omega)]
      · rcases hchange with ⟨hr, -⟩ | ⟨-, fl₂, hfl', hfl₂⟩
        · cases hr
        · rw [hfl', returned, hfree]
          rcases hfl₂ with ⟨-, rfl⟩ | ⟨tbl, hnone, rfl, -⟩
          · change 64 ≤ fl₂.length + _
            omega
          · rw [hpdx] at hnone
            have hmod : k % 1024 = 0 := by
              by_contra hmod
              exact h.table (by omega) hmod hnone
            rw [List.length_cons] at hroom
            change 64 ≤ fl₂.length + _
            omega
    · cases hr

/-- The reference too many: page_insert returns, and the count is zero again. -/
theorem insert_wraps (h : MappedTimes m s L fl d p 65535) :
    ∃ t, pageInsert d p (page2pa 65535) 0#32 s = .ok 0 t ∧
      pageRemove d (page2pa 65535) t =
        .stop (.panic "page_remove found a page with negative ref count") t := by
  have hpdx : pdx (page2pa 65535) = 63 := pdx_page2pa (by decide)
  have hptx : ptx (page2pa 65535) = 1023 := ptx_page2pa (by decide)
  have hb := h.books.balanced
  have hfree := h.target_pte (x := 65535) (by decide)
  rw [if_neg (Nat.lt_irrefl _)] at hfree
  cases ht : target (s.pde d 63) with
  | none => exact absurd ht (h.table (by decide) (by decide))
  | some q =>
    have htab := hb.table d h.dir 63 (h.books.own_iff.mpr (by decide)) q ht
    have hmem : target (s.mem q 1023) = none := by
      rw [← Kernel.pte_of_target (j := 1023) ht]
      exact hfree
    have hdq : d ≠ q := by
      rintro rfl
      exact htab.2 h.dir
    have hwalk : pgdirWalk d (page2pa 65535) true s = .ok (some ⟨q, 1023⟩) s :=
      hptx ▸ pgdirWalk_present (hpdx ▸ ht) htab.1
    have hrem : pageRemove d (page2pa 65535) (s.incRef p) = .ok () (s.incRef p) :=
      pageRemove_unmapped (s := s.incRef p) (hpdx ▸ ht) htab.1 (hptx ▸ hmem)
    refine ⟨(s.incRef p).store q 1023 (pteAddr (page2pa p) ||| 0#32 ||| pteP), ?_, ?_⟩
    · rw [pageInsert, bind_ok hwalk]
      exact (bind_ok (incRef_apply p s)).trans ((bind_ok hrem).trans rfl)
    · have hdir : target (((s.incRef p).store q 1023
          (pteAddr (page2pa p) ||| 0#32 ||| pteP)).mem d (pdx (page2pa 65535))) = some q := by
        rw [Kernel.mem_store_of_ne hdq, hpdx]
        exact ht
      have hpte : target (((s.incRef p).store q 1023
          (pteAddr (page2pa p) ||| 0#32 ||| pteP)).mem q (ptx (page2pa 65535))) = some p := by
        rw [Kernel.mem_store, if_pos ⟨rfl, hptx⟩]
        exact Balanced.target_newEntry (hb.page_lt h.allocated.1) (by decide)
      apply pageRemove_panics hdir htab.1 hpte h.allocated.1
      have hwrap := h.count
      change ((s.incRef p).pages p).ppRef = 0
      rw [Kernel.ppRef_incRef, if_pos rfl]
      bv_omega

end MappedTimes

theorem mappedTimes_smallMachine {Allowed : Kernel → Nat → Prop}
    (hall : ∀ s p, CountFits s p → Allowed s p) (k : Nat) (hk : k ≤ 65535) : ∃ s L fl p,
    MapRun smallMachine (fun _ _ => 0) Allowed s {279} ∧ L.dirs = {279} ∧
      MappedTimes smallMachine s L fl 279 p k := by
  induction k with
  | zero =>
    obtain ⟨s, p, L, fl, hrun, hbooks, hdirs, ha, hr, hfl, -, hmem⟩ := first_alloc_smallMachine
    have hlen : 64 ≤ fl.length := by
      have hlow := roomy_smallMachine.2.1
      have hle := List.countP_le_length (p := (LowPage ·))
        (l := freePages (page2pa (heapEnd smallMachine)) (detectedPages smallMachine))
      rw [hfl, List.length_cons] at hle
      rw [hfl] at hlow
      omega
    refine ⟨s, L, fl, p, MapRun.start hrun, hdirs, hbooks, by simp [hdirs], ha, by rw [hr]; rfl, ?_,
      by omega⟩
    intro x hx
    have hzero : s.mem 279 (pdx (page2pa x)) = 0#32 := by
      rw [hmem _ (pdx_lt _), if_neg]
      rw [pdx_page2pa (by omega)]
      omega
    rw [if_neg (Nat.not_lt_zero x), hwWalk_absent (by simp [hzero])]
    rfl
  | succ k ih =>
    obtain ⟨s, L, fl, p, hrun, hdirs, h⟩ := ih (by omega)
    obtain ⟨t, L', fl', hins, hdirs', h'⟩ := h.insert (by omega)
    refine ⟨t, L', fl', p, ?_, hdirs'.trans hdirs, h'⟩
    have hfits : CountFits s p := by
      rw [CountFits, h.count]
      omega
    exact hrun.insert (by simp) h.allocated (page2pa_lt_utop (by omega)) (by decide) (hall s p hfits) hins

/-- One page at the first 2000 virtual pages, through two page tables. -/
theorem mapRun_sharedSound_smallMachine : ∃ s p, SharedSound s {279} ∧ (s.pages p).ppRef.toNat = 2000 ∧
    ∀ x < 2000, (hwWalk s.mem 279 (page2pa x)).map (·.page) = some p := by
  obtain ⟨s, L, fl, p, hrun, -, h⟩ := mappedTimes_smallMachine (fun _ _ => id) 2000 (by decide)
  refine ⟨s, p, mapRun_sharedSound hrun, h.count, fun x hx => ?_⟩
  rw [h.walk x (by omega), if_pos hx]

/-- 65536 mappings of one page leave its count at zero, and removing any of them panics. -/
theorem not_mapRun_sharedSound :
    ¬ ∀ (m : Machine) (mem : Nat → Nat → Word) (s : Kernel) (D : Finset Nat),
      MapRun m mem (fun _ _ => True) s D → SharedSound s D := by
  intro hall
  obtain ⟨s, L, fl, p, hrun, -, h⟩ := mappedTimes_smallMachine (fun _ _ _ => trivial) 65535 (Nat.le_refl _)
  obtain ⟨t, hins, hpanic⟩ := h.insert_wraps
  have hrun' := hrun.insert (by simp) h.allocated (page2pa_lt_utop (by decide)) (by decide) trivial hins
  obtain ⟨u, hrem⟩ := (hall _ _ _ _ hrun').removes 279 (by simp) _ (page2pa_lt_utop (x := 65535) (by decide))
  rw [hpanic] at hrem
  cases hrem

end wrap

end Jos
