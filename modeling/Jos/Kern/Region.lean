import Jos.Kern.Remap
import Jos.Kern.Env

/-! region_alloc: the pages it maps, and the ones it leaves out. -/
namespace Jos

open Prog

/-- The entry region_alloc makes for page `p`. -/
def userEntry (p : Nat) : Word := page2pa p ||| (pteU ||| pteW ||| pteP)

/-- The entry of virtual page `v` under directory `d`. -/
def Kernel.entry (s : Kernel) (d v : Nat) : Word := s.pte d (v / 1024) (v % 1024)

/-- The pages of the address space of `d`: its directory, its tables below UTOP, and the pages
mapped there. -/
def Owns (s : Kernel) (d p : Nat) : Prop :=
  p = d ∨ (∃ i < 955, target (s.pde d i) = some p) ∨ ∃ v < 955 * 1024, target (s.entry d v) = some p

/-- `t` is `s` after `n` pages from virtual page `v` on have been given fresh pages of their own. -/
structure RegionMapped (s t : Kernel) (L : Ledger) (fl fl' : List Nat) (d v n : Nat) : Prop where
  balanced : Balanced t L fl'
  paging : Kernel.Paging s t
  remaps : Remaps s t L d fun x => v ≤ x ∧ x < v + n
  entries : ∀ k < n, ∃ p < s.npages, t.entry d (v + k) = userEntry p ∧
    (t.pages p).ppRef.toNat ≤ 1 ∧ target (s.entry d (v + k)) ≠ some p ∧
    (p ∈ fl ∨ ∃ j < k, target (s.entry d (v + j)) = some p)
  ref : ∀ x < s.npages, (t.pages x).ppRef.toNat ≤ max 1 (s.pages x).ppRef.toNat
  free : ∀ x ∈ fl', x ∈ fl ∨ ∃ k < n, target (s.entry d (v + k)) = some x
  kept : ∀ x, x ∉ fl → ¬ Owns s d x → t.mem x = s.mem x ∧ ¬ Owns t d x
  length : fl.length ≤ fl'.length + 2 * n

section region

variable {s t u s₁ : Kernel} {L : Ledger} {fl fl' fl₁ : List Nat} {d e i j n p q v x : Nat}
  {va w perm : Word}

theorem forRange_ensures {body : Nat → Kern Unit} {I : Nat → Kernel → Prop} (h0 : I 0 s)
    (hstep : ∀ k < n, ∀ t, I k t → Ensures (body k) t fun _ u => I (k + 1) u) :
    Ensures (forRange body n) s fun _ t => I n t := by
  induction n with
  | zero =>
    intro _ t ht
    obtain ⟨-, rfl⟩ := pure_eq_ok.mp ht
    exact h0
  | succ n ih =>
    refine Ensures.bind (ih fun k hk => hstep k (by omega)) ?_
    rintro ⟨⟩ t ht
    exact hstep n (by omega) t ht

theorem entry_page2pa (hv : v < 2 ^ 20) : s.entry d v = s.pte d (pdx (page2pa v)) (ptx (page2pa v)) := by
  rw [pdx_page2pa hv, ptx_page2pa hv]
  rfl

theorem Balanced.length_freeAfterMap (s : Kernel) (fl : List Nat) (w : Word) (p : Nat) :
    fl.length ≤ (Balanced.freeAfterMap s fl w p).length := by
  unfold Balanced.freeAfterMap
  split
  · exact le_refl _
  · split
    · simp
    · exact le_refl _

/-- A page joins the free list by losing its mapping. -/
theorem Balanced.mem_freeAfterMap (hx : x ∈ Balanced.freeAfterMap s fl w p) : x ∈ fl ∨ target w = some x := by
  unfold Balanced.freeAfterMap at hx
  cases hw : target w with
  | none =>
    rw [hw] at hx
    exact Or.inl hx
  | some y =>
    simp only [hw] at hx
    split at hx
    · rcases List.mem_cons.mp hx with rfl | hx
      · exact Or.inr rfl
      · exact Or.inl hx
    · exact Or.inl hx

/-- region_alloc's loop body runs out of memory, or maps the page taken from the free list. -/
theorem regionPage_eq (h : Balanced s L fl) (he : (s.envs e).envPgdir = some d) (hd : d ∈ L.dirs)
    (hva : pdx va < 955) :
    (fl.length < 2 ∧ (fl ≠ [] → target (s.pde d (pdx va)) = none) ∧
      ∀ t, regionPage e va s ≠ .ok () t) ∨
    ∃ p fl₀ q s₁ fl₁, fl = p :: fl₀ ∧ TableReady (s.take p) fl₀ d (pdx va) q s₁ fl₁ ∧
      regionPage e va s = .ok () (s₁.mapAt q (ptx va) p va (pteU ||| pteW)) := by
  have hflags : ¬ Has 0#32 allocZero := not_has_zero
  rcases pageAlloc_spec 0#32 h with ⟨rfl, hrun⟩ | ⟨p, fl₀, rfl, hrun, hb⟩
  · refine Or.inl ⟨by simp, fun hne => absurd rfl hne, fun t => ?_⟩
    rw [regionPage, bind_ok hrun]
    exact stop_ne_ok
  · rw [Kernel.handOut, if_neg hflags] at hrun hb
    have hp : p < (s.take p).npages := h.free_lt (by simp)
    have hpf : p ∉ fl₀ := (List.nodup_cons.mp h.nodup).1
    have hr : ((s.take p).pages p).ppRef.toNat < 65535 := by
      rw [Kernel.ppRef_take, h.free_ref (by simp)]
      decide
    have hdir : envPgdir e (s.take p) = .ok d (s.take p) := envPgdir_ok he
    rcases pageInsert_spec hb hd hva hp hpf hr (pteU ||| pteW) with
      ⟨hnone, rfl, hins⟩ | ⟨q, s₁, fl₁, hready, hins⟩
    · refine Or.inl ⟨by simp, fun _ => hnone, fun t => ?_⟩
      rw [regionPage, bind_ok hrun]
      change (envPgdir e >>= _) _ ≠ _
      rw [bind_ok hdir, bind_ok hins, check_apply, if_neg (by decide)]
      intro hstop
      cases hstop
    · refine Or.inr ⟨p, fl₀, q, s₁, fl₁, rfl, hready, ?_⟩
      rw [regionPage, bind_ok hrun]
      change (envPgdir e >>= _) _ = _
      rw [bind_ok hdir, bind_ok hins, check_true (by decide)]

theorem Remaps.entry {V : Nat → Prop} (h : Remaps s t L d V) (hb : Balanced s L fl) {d' : Nat}
    (hd : d' ∈ L.dirs) (hv : v < 955 * 1024) (hn : d' = d → ¬ V v) :
    t.entry d' v = s.entry d' v := by
  have hv' : v / 1024 * 1024 + v % 1024 = v := by omega
  exact h.pte d' hd (v / 1024) (hb.own_user d' hd _ (by omega)) (v % 1024) (by omega)
    (by rwa [hv'])

/-- page_insert leaves every page alone that is not free, nor the directory, nor one of its tables. -/
theorem TableReady.mapAt_kept (perm : Word) (hr : TableReady s fl d (pdx va) q s₁ fl₁) (h : Balanced s L fl)
    (hd : d ∈ L.dirs) (hva : pdx va < 955) (hx : x ∉ fl) (hxd : x ≠ d)
    (hxt : ∀ i < 955, target (s.pde d i) ≠ some x) :
    (s₁.mapAt q (ptx va) p va perm).mem x = s.mem x ∧
      ∀ i < 955, target ((s₁.mapAt q (ptx va) p va perm).pde d i) ≠ some x := by
  obtain ⟨hb, ht⟩ := hr.balanced h hd (h.own_user d hd _ hva)
  have hxq : x ≠ q := by
    rintro rfl
    rcases hr.source with hm | hm
    · exact hx hm
    · exact hxt _ hva hm
  have hdq : d ≠ q := by
    rintro rfl
    exact (hb.table d hd _ (hb.own_user d hd _ hva) d ht).2 hd
  constructor
  · funext k
    rw [Kernel.mem_mapAt, if_neg fun hc => hxq hc.1]
    rcases hr with ⟨-, rfl, -⟩ | ⟨-, -, rfl⟩
    · rfl
    · rw [Kernel.mem_withTable, if_neg fun hc => hxd hc.1, if_neg fun hc => hxq hc.1]
  · intro i hi he
    rw [Kernel.pde, Kernel.mem_mapAt, if_neg fun hc => hdq hc.1] at he
    rcases hr.pde h hd i with hs | ⟨rfl, hs⟩
    · exact hxt i hi (hs ▸ he)
    · exact hxq (Option.some.inj (he.symm.trans ht))

/-- One round of region_alloc. -/
theorem regionPage_mapped (h : Balanced s L fl) (he : (s.envs e).envPgdir = some d) (hd : d ∈ L.dirs)
    (hv : v < 955 * 1024) : Ensures (regionPage e (page2pa v)) s fun _ t =>
      ∃ fl', RegionMapped s t L fl fl' d v 1 := by
  have hv20 : v < 2 ^ 20 := by omega
  have hva : pdx (page2pa v) < 955 := by
    rw [pdx_page2pa hv20]
    omega
  rcases regionPage_eq h he hd hva with ⟨-, -, hno⟩ | ⟨p, fl₀, q, s₁, fl₁, rfl, hready, hrun⟩
  · intro _ t ht
    exact absurd ht (hno t)
  · intro _ t ht
    rw [hrun] at ht
    cases ht
    have hp : p < s.npages := h.free_lt (by simp)
    have hpf : p ∉ fl₀ := (List.nodup_cons.mp h.nodup).1
    have hpl : p ∉ L.loose := ((h.mem_free p).mp (by simp)).2.2
    have hb := h.take
    have hd' : d ∈ (L.loosen p).dirs := hd
    obtain ⟨hb₁, ht⟩ := hready.balanced hb hd' (hb.own_user d hd' _ hva)
    have hr : (s₁.pages p).ppRef = 0 := by
      rw [hready.ppRef hpf, Kernel.ppRef_take]
      exact h.free_ref (by simp)
    have hb₂ := hb₁.mapAt hd' hva (ptx_lt (page2pa v)) ht (hready.paging.npages ▸ hp)
      (fun hm => hpf (hready.mem_free hm)) (by rw [hr]; decide)
      (show (pteU ||| pteW).toNat < 4096 by decide) (page2pa v)
    rw [Ledger.settle_loosen hpl] at hb₂
    have hold : target (s₁.pte d (pdx (page2pa v)) (ptx (page2pa v))) = target (s.entry d v) := by
      rw [hready.target_pte hb hd' (ptx_lt _), entry_page2pa hv20]
      rfl
    have htake : Remaps s (s.take p) L d (· = pgnum (page2pa v)) := Remaps.of_mem rfl
    have hrem := htake.trans ((hready.mapAt_remaps (p := p) (pteU ||| pteW) hb hd' hva).ledger
      (show L.dirs = (L.loosen p).dirs from rfl) rfl) h.own_user
    have hentry := hready.mapAt_entry (p := p) (pteU ||| pteW) hb hd' hva (h.page_lt hp)
    refine ⟨_, hb₂, ?_, ?_, ?_, ?_, ?_, ?_, ?_⟩
    · exact Kernel.Paging.take.trans (hready.paging.trans Kernel.Paging.mapAt)
    · refine hrem.mono ?_
      rintro x rfl
      rw [pgnum_page2pa hv20]
      omega
    · intro k hk
      obtain rfl : k = 0 := by omega
      refine ⟨p, hp, ?_, ?_, ?_, Or.inl (by simp)⟩
      · rw [Nat.add_zero, entry_page2pa hv20, hentry]
        rfl
      · rw [Kernel.ppRef_mapAt, hr, if_pos rfl]
        split <;> decide
      · rw [Nat.add_zero, entry_page2pa hv20]
        intro hq
        exact (h.referenced_page hd hva (ptx_lt _) hq).2.1 (by simp)
    · intro x hx
      by_cases hxp : x = p
      · subst hxp
        rw [Kernel.ppRef_mapAt, hr, if_pos rfl]
        refine le_trans ?_ (le_max_left _ _)
        split <;> decide
      · have hle := hready.ppRef_mapAt (pteU ||| pteW) hb hd' hva hx hxp
        refine le_trans hle ?_
        rw [Kernel.ppRef_take]
        split
        · exact le_max_left _ _
        · exact le_max_right _ _
    · intro x hx
      rcases Balanced.mem_freeAfterMap hx with hx | hx
      · exact Or.inl (List.mem_cons_of_mem p (hready.mem_free hx))
      · exact Or.inr ⟨0, by omega, hold ▸ hx⟩
    · intro x hx hown
      have hxp : x ≠ p := fun he => hx (he ▸ List.mem_cons_self)
      obtain ⟨hmem, hpde⟩ := hready.mapAt_kept (p := p) (pteU ||| pteW) hb hd' hva
        (fun hm => hx (List.mem_cons_of_mem p hm)) (fun he => hown (.inl he))
        fun i hi he => hown (.inr (.inl ⟨i, hi, he⟩))
      refine ⟨hmem, ?_⟩
      rintro (he | ⟨i, hi, he⟩ | ⟨v', hv', he⟩)
      · exact hown (.inl he)
      · exact hpde i hi he
      · by_cases hvv : v' = v
        · rw [hvv, entry_page2pa hv20, hentry,
            target_entry (h.page_lt hp) (by decide) (by decide)] at he
          exact hxp (Option.some.inj he).symm
        · rw [hrem.entry h hd hv' fun _ hc => hvv (hc.trans (pgnum_page2pa hv20))] at he
          exact hown (.inr (.inr ⟨v', hv', he⟩))
    · have hle₀ : fl₀.length ≤ fl₁.length + 1 := by
        rcases hready with ⟨-, -, rfl⟩ | ⟨-, rfl, -⟩
        · omega
        · exact le_of_eq List.length_cons
      have hle₁ := Balanced.length_freeAfterMap s₁ fl₁
        (s₁.pte d (pdx (page2pa v)) (ptx (page2pa v))) p
      rw [List.length_cons]
      omega

theorem regionPage_returns (h : Balanced s L fl) (he : (s.envs e).envPgdir = some d) (hd : d ∈ L.dirs)
    (hva : pdx va < 955) (hlen : 2 ≤ fl.length) : ∃ t, regionPage e va s = .ok () t := by
  rcases regionPage_eq h he hd hva with ⟨hlt, -⟩ | ⟨p, fl₀, q, s₁, fl₁, rfl, -, hrun⟩
  · omega
  · exact ⟨_, hrun⟩

namespace RegionMapped

theorem refl (h : Balanced s L fl) : RegionMapped s s L fl fl d v 0 where
  balanced := h
  paging := Kernel.Paging.refl s
  remaps := Remaps.of_mem rfl
  entries := fun k hk => absurd hk (Nat.not_lt_zero k)
  ref := fun _ _ => le_max_right _ _
  free := fun _ hx => Or.inl hx
  kept := fun _ _ hx => ⟨rfl, hx⟩
  length := by omega

theorem succ {fl'' : List Nat} (hb : Balanced s L fl) (hd : d ∈ L.dirs) (hv : v + n < 955 * 1024)
    (h : RegionMapped s t L fl fl' d v n) (h' : RegionMapped t u L fl' fl'' d (v + n) 1) :
    RegionMapped s u L fl fl'' d v (n + 1) := by
  have hn : t.npages = s.npages := h.paging.npages
  have hlast : t.entry d (v + n) = s.entry d (v + n) :=
    h.remaps.entry hb hd hv fun _ hc => by omega
  have hlen := h.length
  have hlen' := h'.length
  refine ⟨h'.balanced, h.paging.trans h'.paging, ?_, ?_, ?_, ?_, ?_, by omega⟩
  · refine (h.remaps.mono fun x hx => ?_).trans (h'.remaps.mono fun x hx => ?_) hb.own_user
    · omega
    · omega
  · intro k hk
    by_cases hkn : k = n
    · subst hkn
      obtain ⟨p, hp, hentry, href, hold, hfresh⟩ := h'.entries 0 (by omega)
      rw [Nat.add_zero] at hentry hold
      refine ⟨p, hn ▸ hp, hentry, href, hlast ▸ hold, ?_⟩
      rcases hfresh with hf | ⟨j, hj, -⟩
      · exact h.free p hf
      · omega
    · obtain ⟨p, hp, hentry, href, hold, hfresh⟩ := h.entries k (by omega)
      refine ⟨p, hp, ?_, ?_, hold, hfresh⟩
      · rw [h'.remaps.entry h.balanced hd (by omega) fun _ hc => by omega, hentry]
      · have hle := h'.ref p (hn ▸ hp)
        omega
  · intro x hx
    have h1 := h.ref x hx
    have h2 := h'.ref x (hn ▸ hx)
    omega
  · intro x hx
    rcases h'.free x hx with hx | ⟨k, hk, hx⟩
    · rcases h.free x hx with hx | ⟨k, hk, hx⟩
      · exact Or.inl hx
      · exact Or.inr ⟨k, by omega, hx⟩
    · obtain rfl : k = 0 := by omega
      rw [Nat.add_zero, hlast] at hx
      exact Or.inr ⟨n, by omega, hx⟩
  · intro x hx hown
    obtain ⟨hmem, hown'⟩ := h.kept x hx hown
    have hx' : x ∉ fl' := by
      intro hxf
      rcases h.free x hxf with hf | ⟨k, hk, he⟩
      · exact hx hf
      · exact hown (.inr (.inr ⟨v + k, by omega, he⟩))
    obtain ⟨hmem', hown''⟩ := h'.kept x hx' hown'
    exact ⟨hmem'.trans hmem, hown''⟩

/-- The fresh pages are counted once: each is mapped at its own page only. -/
theorem ref_eq_one (h : RegionMapped s t L fl fl' d v n) (hd : d ∈ L.dirs)
    (hv : v + n ≤ 955 * 1024) {k : Nat} (hk : k < n) (hp : p < s.npages)
    (hentry : t.entry d (v + k) = userEntry p) (href : (t.pages p).ppRef.toNat ≤ 1) :
    (t.pages p).ppRef = 1 := by
  have htarget : target (t.entry d (v + k)) = some p := by
    rw [hentry]
    exact target_entry (h.balanced.page_lt (h.paging.npages ▸ hp)) (by decide) (by decide)
  have hne := (h.balanced.referenced_page hd (show (v + k) / 1024 < 955 by omega)
    (show (v + k) % 1024 < 1024 by omega) htarget).1
  bv_omega

end RegionMapped

theorem regionLoop_mapped (h : Balanced s L fl) (he : (s.envs e).envPgdir = some d) (hd : d ∈ L.dirs)
    (hv : v + n ≤ 955 * 1024) :
    Ensures (forRange (fun k => regionPage e (page2pa v + BitVec.ofNat 32 k * pgsize)) n) s
      fun _ t => ∃ fl', RegionMapped s t L fl fl' d v n := by
  refine forRange_ensures (I := fun k t => ∃ fl', RegionMapped s t L fl fl' d v k)
    ⟨fl, RegionMapped.refl h⟩ ?_
  rintro k hk t ⟨fl', ht⟩
  rw [page2pa_offset]
  have he' : (t.envs e).envPgdir = some d := by
    rw [ht.paging]
    exact he
  refine (regionPage_mapped ht.balanced he' hd (v := v + k) (by omega)).mono ?_
  rintro ⟨⟩ u ⟨fl'', hu⟩
  exact ⟨fl'', RegionMapped.succ h hd (by omega) ht hu⟩

/-- With two free pages for each round, a page and a table, the loop gets to its end. -/
theorem regionLoop_returns (h : Balanced s L fl) (he : (s.envs e).envPgdir = some d) (hd : d ∈ L.dirs)
    (hv : v + n ≤ 955 * 1024) (hlen : 2 * n ≤ fl.length) :
    Returns (forRange (fun k => regionPage e (page2pa v + BitVec.ofNat 32 k * pgsize)) n) s
      fun _ t => ∃ fl', RegionMapped s t L fl fl' d v n := by
  refine (forRange_returnsUnless (C := False) (I := fun k t => ∃ fl', RegionMapped s t L fl fl' d v k)
    ⟨fl, RegionMapped.refl h⟩ ?_).returns id
  rintro k hk t ⟨fl', ht⟩
  have hfree := ht.length
  have he' : (t.envs e).envPgdir = some d := by
    rw [ht.paging]
    exact he
  have hva : pdx (page2pa (v + k)) < 955 := by
    rw [pdx_page2pa (by omega)]
    omega
  rw [page2pa_offset]
  obtain ⟨u, hrun⟩ := regionPage_returns ht.balanced he' hd hva (by omega)
  obtain ⟨fl'', hu⟩ := regionPage_mapped ht.balanced he' hd (v := v + k) (by omega) () u hrun
  exact Or.inl ⟨(), u, hrun, fl'', RegionMapped.succ h hd (by omega) ht hu⟩

theorem roundDown_eq (va : Word) : roundDown va pgsize = page2pa (pgnum va) := by
  apply BitVec.eq_of_toNat_eq
  rw [toNat_roundDown, toNat_page2pa (pgnum_lt va), pgnum_eq]

/-- The number of pages region_alloc maps. -/
theorem regionRounds (hlen : va.toNat + w.toNat ≤ utop.toNat) :
    pageRounds (roundDown va pgsize) (roundDown va pgsize + roundUp w pgsize) =
      (w.toNat + 4095) / 4096 := by
  rw [toNat_utop] at hlen
  rw [pageRounds, BitVec.toNat_add, toNat_roundUp (by omega), toNat_roundDown]
  omega

/-- region_alloc maps as many pages as the length rounded up has, from the first page of the
range on. -/
theorem regionAlloc_mapped (h : Balanced s L fl) (he : (s.envs e).envPgdir = some d)
    (hd : d ∈ L.dirs) (hlen : va.toNat + w.toNat ≤ utop.toNat) :
    Ensures (regionAlloc e va w) s fun _ t =>
      ∃ fl', RegionMapped s t L fl fl' d (pgnum va) ((w.toNat + 4095) / 4096) := by
  rw [regionAlloc, regionRounds hlen, roundDown_eq]
  apply regionLoop_mapped h he hd
  rw [toNat_utop] at hlen
  rw [pgnum_eq]
  omega

theorem regionAlloc_returns (h : Balanced s L fl) (he : (s.envs e).envPgdir = some d)
    (hd : d ∈ L.dirs) (hlen : va.toNat + w.toNat ≤ utop.toNat)
    (hfree : 2 * ((w.toNat + 4095) / 4096) ≤ fl.length) :
    Returns (regionAlloc e va w) s fun _ t =>
      ∃ fl', RegionMapped s t L fl fl' d (pgnum va) ((w.toNat + 4095) / 4096) := by
  rw [regionAlloc, regionRounds hlen, roundDown_eq]
  refine regionLoop_returns h he hd ?_ hfree
  rw [toNat_utop] at hlen
  rw [pgnum_eq]
  omega

end region

end Jos
