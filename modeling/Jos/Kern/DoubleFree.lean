import Jos.Kern.PageCalls

/-! page_free of a page that is on the free list already. -/
namespace Jos

open Prog

/-- The page is the last one of the free list. -/
def EndsFreeList (s : Kernel) (p : Nat) : Prop := s.OnFreeList p ∧ (s.pages p).ppLink = none

/-- page_free panics on the page before it has changed anything. -/
def FreeCaught (s : Kernel) (p : Nat) : Prop := ∃ msg, pageFree p s = .stop (.panic msg) s

/-- The states page_alloc and page_free reach from page_init, with the pages given out and not
freed since. page_free is called on any page `Allowed` lets through; a panic ends the run. -/
inductive AllocRun (m : Machine) (mem : Nat → Nat → Word) (Allowed : Kernel → Nat → Prop) :
    Kernel → Finset Nat → Prop
  | start {s : Kernel} : memInitEarly m (bss mem) = .ok () s → AllocRun m mem Allowed s ∅
  | alloc {s t : Kernel} {out : Finset Nat} {flags : Word} {p : Nat} :
    AllocRun m mem Allowed s out → pageAlloc flags s = .ok (some p) t →
    AllocRun m mem Allowed t (insert p out)
  | full {s t : Kernel} {out : Finset Nat} {flags : Word} :
    AllocRun m mem Allowed s out → pageAlloc flags s = .ok none t → AllocRun m mem Allowed t out
  | free {s t : Kernel} {out : Finset Nat} {p : Nat} :
    AllocRun m mem Allowed s out → p < s.npages → Allowed s p → pageFree p s = .ok () t →
    AllocRun m mem Allowed t (out.erase p)

/-- The free list ends, repeats no page, and page_alloc gives out no page that is out. -/
def NoPageTwice (s : Kernel) (out : Finset Nat) : Prop :=
  (∃ fl, Chain (fun q => (s.pages q).ppLink) s.pageFreeList fl ∧ fl.Nodup) ∧
    ∀ flags p t, pageAlloc flags s = .ok (some p) t → p ∉ out

variable {m : Machine} {mem : Nat → Nat → Word} {s t : Kernel} {L : Ledger} {fl : List Nat}
  {out : Finset Nat} {p : Nat} {flags : Word} {Allowed : Kernel → Nat → Prop}

theorem pageFree_eq_ok : pageFree p s = .ok () t ↔
    (s.pages p).ppRef = 0 ∧ (s.pages p).ppLink = none ∧ s.push p = t := by
  constructor
  · intro h
    have hrest := h
    rw [pageFree, bind_ok (read_apply _)] at hrest
    obtain ⟨_, _, hcheck, hrest⟩ := bind_eq_ok.mp hrest
    obtain ⟨hr, rfl⟩ := check_eq_ok.mp hcheck
    obtain ⟨_, _, hcheck, -⟩ := bind_eq_ok.mp hrest
    obtain ⟨hl, rfl⟩ := check_eq_ok.mp hcheck
    rw [pageFree_ok hr hl] at h
    cases h
    exact ⟨hr, hl, rfl⟩
  · rintro ⟨hr, hl, rfl⟩
    exact pageFree_ok hr hl

theorem freeCaught_of_link (hr : (s.pages p).ppRef = 0) (hl : (s.pages p).ppLink ≠ none) :
    FreeCaught s p := by
  refine ⟨"Page freed but pp_link was non-null.", ?_⟩
  rw [pageFree, bind_ok (read_apply _), bind_ok (check_true hr _)]
  apply bind_stop
  rw [check_apply, if_neg hl]

/-- Linked in again, the last page of the list leads back to the first: the list has no end. -/
theorem push_last_endless (h : Balanced s L fl) (hp : p ∈ fl) (hl : (s.pages p).ppLink = none) :
    ¬ (s.push p).OnFreeList p := by
  rintro ⟨fl', hc, -⟩
  obtain ⟨as, bs, rfl⟩ := List.append_of_mem hp
  have hnd := h.nodup
  have hlast : Chain (fun q => (s.pages q).ppLink) (s.pages p).ppLink bs := (h.chain.drop).2
  rw [hl] at hlast
  obtain rfl := hlast.of_none
  have hlink : ∀ q ∈ as, ((s.push p).pages q).ppLink = (s.pages q).ppLink := by
    intro q hq
    have hne : q ≠ p := by
      rintro rfl
      exact (List.disjoint_of_nodup_append hnd hq) (by simp)
    exact Kernel.ppLink_setLink.trans (if_neg hne)
  have hself : ((s.push p).pages p).ppLink = s.pageFreeList :=
    Kernel.ppLink_setLink.trans (if_pos rfl)
  have hnd' := hc.nodup
  obtain ⟨ps, rfl, htail⟩ := hc.of_some
  rw [hself] at htail
  exact (List.nodup_cons.mp hnd').1 (htail.mem_of_prefix h.chain hlink)

/-- The books of such a run: the pages that are out are those handed out and not referenced. -/
theorem AllocRun.balanced (h : AllocRun m mem (fun s p => ¬ EndsFreeList s p) s out) :
    ∃ L fl, Balanced s L fl ∧ L.loose = out := by
  induction h with
  | start hinit =>
    obtain ⟨hfit, rfl⟩ := memInitEarly_eq_ok.mp hinit
    exact ⟨_, _, (Books.start _ hfit).balanced, rfl⟩
  | alloc hrun halloc ih =>
    obtain ⟨L, fl, hb, rfl⟩ := ih
    rcases pageAlloc_spec _ hb with ⟨-, hok⟩ | ⟨p, fl, rfl, hok, hb'⟩
    · rw [hok] at halloc
      cases halloc
    · rw [hok] at halloc
      cases halloc
      exact ⟨_, _, hb', rfl⟩
  | full hrun halloc ih =>
    obtain ⟨L, fl, hb, rfl⟩ := ih
    rcases pageAlloc_spec _ hb with ⟨-, hok⟩ | ⟨p, fl, rfl, hok, -⟩
    · rw [hok] at halloc
      cases halloc
      exact ⟨L, fl, hb, rfl⟩
    · rw [hok] at halloc
      cases halloc
  | free hrun hlt hnot hfree ih =>
    obtain ⟨L, fl, hb, rfl⟩ := ih
    obtain ⟨hr, hl, rfl⟩ := pageFree_eq_ok.mp hfree
    have hfl : _ ∉ fl := fun hp => hnot ⟨hb.onFreeList_iff.mpr hp, hl⟩
    refine ⟨_, _, hb.push ?_, rfl⟩
    by_contra hloose
    exact hfl ((hb.mem_free _).mpr ⟨hlt, hr, hloose⟩)

/-- As long as the last page of the free list is not freed again, no page is given out twice;
and freeing a listed page again is caught exactly when it is not that last page. -/
theorem doubleFree_caught_iff (h : AllocRun m mem (fun s p => ¬ EndsFreeList s p) s out) :
    NoPageTwice s out ∧ ∀ p, s.OnFreeList p →
      (FreeCaught s p ↔ ¬ EndsFreeList s p) ∧
      (EndsFreeList s p → ∃ t, pageFree p s = .ok () t ∧
        ¬ ∃ fl, Chain (fun q => (t.pages q).ppLink) t.pageFreeList fl) := by
  obtain ⟨L, fl, hb, rfl⟩ := h.balanced
  refine ⟨⟨⟨fl, hb.chain, hb.nodup⟩, ?_⟩, ?_⟩
  · intro flags p t halloc
    rcases pageAlloc_spec _ hb with ⟨-, hok⟩ | ⟨q, fl, rfl, hok, -⟩
    · rw [hok] at halloc
      cases halloc
    · rw [hok] at halloc
      cases halloc
      exact ((hb.mem_free _).mp (by simp)).2.2
  · intro p hp
    have hpf := hb.onFreeList_iff.mp hp
    have hr := hb.free_ref hpf
    refine ⟨⟨?_, ?_⟩, ?_⟩
    · rintro ⟨msg, hstop⟩ ⟨-, hl⟩
      rw [pageFree_ok hr hl] at hstop
      cases hstop
    · intro hnot
      exact freeCaught_of_link hr fun hl => hnot ⟨hp, hl⟩
    · rintro ⟨-, hl⟩
      refine ⟨_, pageFree_ok hr hl, ?_⟩
      rintro ⟨fl', hc⟩
      refine push_last_endless hb hpf hl ⟨fl', hc, ?_⟩
      obtain ⟨ps, rfl, -⟩ := Chain.of_some hc
      simp

theorem freePages_last {e : Word} {n : Nat} (h0 : InUse e 0) (h1 : ¬ InUse e 1) (hn : 2 ≤ n) :
    ∃ as, freePages e n = as ++ [1] := by
  induction n, hn using Nat.le_induction with
  | base => exact ⟨[], by simp [freePages, h0, h1]⟩
  | succ n hn ih =>
    obtain ⟨as, has⟩ := ih
    rw [freePages, has]
    split
    · exact ⟨as, rfl⟩
    · exact ⟨n :: as, rfl⟩

theorem endsFreeList_smallMachine (mem : Nat → Nat → Word) :
    EndsFreeList (afterPageInit smallMachine mem) 1 := by
  have hb := (Books.start mem heapFits_smallMachine).balanced
  have h0 : InUse (page2pa (heapEnd smallMachine)) 0 := Or.inl rfl
  have h1 : ¬ InUse (page2pa (heapEnd smallMachine)) 1 := by decide
  obtain ⟨as, has⟩ := freePages_last h0 h1 (n := detectedPages smallMachine) (by decide)
  have hc := hb.chain
  rw [has] at hc
  refine ⟨⟨_, hc, by simp⟩, ?_⟩
  exact (Chain.drop hc).2

theorem doubleFree_caught_smallMachine :
    FreeCaught (afterPageInit smallMachine fun _ _ => 0) 2 ↔
      ¬ EndsFreeList (afterPageInit smallMachine fun _ _ => 0) 2 := by
  have hinit : memInitEarly smallMachine (bss fun _ _ => 0) =
      .ok () (afterPageInit smallMachine fun _ _ => 0) :=
    memInitEarly_eq_ok.mpr ⟨heapFits_smallMachine, rfl⟩
  have hb := (Books.start (fun _ _ => 0) heapFits_smallMachine).balanced
  have hp : (2 : Nat) ∈ freePages (page2pa (heapEnd smallMachine)) (detectedPages smallMachine) := by
    rw [mem_freePages]
    decide
  exact ((doubleFree_caught_iff (AllocRun.start hinit)).2 2 (hb.onFreeList_iff.mpr hp)).1

/-- Page 1 is the last page page_init lists, and freeing it again is not caught. -/
theorem not_doubleFree_caught :
    ¬ ∀ (m : Machine) (mem : Nat → Nat → Word) (s : Kernel) (out : Finset Nat),
      AllocRun m mem (fun _ _ => True) s out → ∀ p, s.OnFreeList p → FreeCaught s p := by
  intro hall
  have hinit : memInitEarly smallMachine (bss fun _ _ => 0) =
      .ok () (afterPageInit smallMachine fun _ _ => 0) :=
    memInitEarly_eq_ok.mpr ⟨heapFits_smallMachine, rfl⟩
  have hb := (Books.start (fun _ _ => 0) heapFits_smallMachine).balanced
  have hlast := endsFreeList_smallMachine fun _ _ => 0
  obtain ⟨msg, hstop⟩ := hall _ _ _ _ (AllocRun.start hinit) 1 hlast.1
  rw [pageFree_ok (hb.free_ref (hb.onFreeList_iff.mp hlast.1)) hlast.2] at hstop
  cases hstop

end Jos
