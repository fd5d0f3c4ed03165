import Jos.Kern.SysRuns

/-! Which requests region_alloc covers. -/
namespace Jos

open Prog

/-- One of the `len` bytes at `va` and on lies in virtual page `v`. -/
def Touched (va len : Word) (v : Nat) : Prop :=
  ∃ a : Word, va.toNat ≤ a.toNat ∧ a.toNat < va.toNat + len.toNat ∧ pgnum a = v

/-- Page `p`, now mapped at `v` only, was free: from the start, or since its place earlier in the
range was given to another page. -/
def FreshAt (s t : Kernel) (d : Nat) (va len : Word) (v p : Nat) : Prop :=
  (t.pages p).ppRef = 1 ∧ target (s.entry d v) ≠ some p ∧
    (s.OnFreeList p ∨ ∃ v' < v, Touched va len v' ∧ target (s.entry d v') = some p)

/-- What the window at UVPT shows at `a` is a page table that the range needs and `d` does not have yet. -/
def ShowsNewTables (s : Kernel) (d : Nat) (va len a : Word) : Prop :=
  pdx a = pdx uvpt ∧ target (s.pde d (ptx a)) = none ∧ ∃ v, Touched va len v ∧ v / 1024 = ptx a

/-- The pages of the range have fresh pages of their own, and nothing else is remapped but the pages of the
window at UVPT that show the new page tables. -/
structure CoversRange (s t : Kernel) (d : Nat) (va len : Word) : Prop where
  mapped : ∀ v, Touched va len v → ∃ p, t.entry d v = userEntry p ∧ FreshAt s t d va len v p
  distinct : ∀ v v' p, Touched va len v → Touched va len v' → target (t.entry d v) = some p →
    target (t.entry d v') = some p → v = v'
  others : ∀ d' a, Directory s d' → (d' = d → ¬ Touched va len (pgnum a) ∧ ¬ ShowsNewTables s d va len a) →
    hwWalk t.mem d' a = hwWalk s.mem d' a

section covers

variable {m : Machine} {mem : Nat → Nat → Word} {s t : Kernel} {L : Ledger} {fl fl' efl : List Nat}
  {d e n v : Nat} {va len : Word}

theorem touched_iff : Touched va len v ↔ 0 < len.toNat ∧ va.toNat / 4096 ≤ v ∧ v < 2 ^ 20 ∧
    v ≤ (va.toNat + len.toNat - 1) / 4096 := by
  have hva := va.isLt
  constructor
  · rintro ⟨a, h1, h2, rfl⟩
    have ha := a.isLt
    rw [pgnum_eq]
    omega
  · rintro ⟨hpos, h1, h2, h3⟩
    have hm : max va.toNat (v * 4096) < 2 ^ 32 := by omega
    have ha : (BitVec.ofNat 32 (max va.toNat (v * 4096))).toNat = max va.toNat (v * 4096) := by
      rw [BitVec.toNat_ofNat, Nat.mod_eq_of_lt hm]
    refine ⟨BitVec.ofNat 32 (max va.toNat (v * 4096)), ?_, ?_, ?_⟩
    · omega
    · omega
    · rw [pgnum_eq, ha]
      omega

/-- The condition under which the pages region_alloc maps are those of the range. -/
def RoundsUp (va len : Word) : Prop :=
  len = 0 ∨ va.toNat % 4096 + len.toNat ≤ (len.toNat + 4095) / 4096 * 4096

instance (va len : Word) : Decidable (RoundsUp va len) := inferInstanceAs (Decidable (_ ∨ _))

/-- Above UTOP, outside the window at UVPT, nothing is ever remapped. -/
theorem System.walk_upper {L' : Ledger} {fl' efl' : List Nat} (h : System m s L fl efl)
    (ht : System m t L' fl' efl') (hd : d ∈ L.dirs) (hd' : d ∈ L'.dirs)
    (hpde : t.pde t.kernPgdir (pdx va) = s.pde s.kernPgdir (pdx va)) (hu : 955 ≤ pdx va)
    (hne : pdx va ≠ 957) : hwWalk t.mem d va = hwWalk s.mem d va := by
  have hi : pdx va ∈ kernOwn := mem_kernOwn.mpr ⟨pdx_lt va, hne⟩
  refine hwWalk_of_entries ?_ ?_
  · rw [ht.upper d hd' _ hi hu, h.upper d hd _ hi hu, hpde]
  · rw [ht.pte_upper hd' hi hu (ptx_lt va), h.pte_upper hd hi hu (ptx_lt va)]

/-- The window at UVPT shows the directory's own entries. -/
theorem System.walk_window {L' : Ledger} {fl' efl' : List Nat} (h : System m s L fl efl)
    (ht : System m t L' fl' efl') (hd : d ∈ L.dirs) (hd' : d ∈ L'.dirs) (hw : pdx va = 957)
    (hpde : t.pde d (ptx va) = s.pde d (ptx va)) : hwWalk t.mem d va = hwWalk s.mem d va := by
  have hlt := h.balanced.page_lt (h.balanced.dir_lt d hd)
  have hself : ∀ {u : Kernel}, u.pde d 957 = selfEntry d → u.pte d 957 (ptx va) = u.pde d (ptx va) := by
    intro u hu
    refine Kernel.pte_of_target ?_
    rw [hu, selfEntry, BitVec.or_assoc]
    exact target_entry hlt (by decide) (by decide)
  refine hwWalk_of_entries ?_ ?_
  · rw [hw, ht.self d hd', h.self d hd]
  · rw [hw, hself (ht.self d hd'), hself (h.self d hd), hpde]

theorem Remaps.walk_others (hr : Remaps s t L d fun x => v ≤ x ∧ x < v + n)
    (h : System m s L fl efl) (ht : System m t L fl' efl) (hd : d ∈ L.dirs) {d' : Nat}
    (hd' : d' ∈ L.dirs) (hk : t.kernPgdir = s.kernPgdir)
    (hn : d' = d → ¬ (v ≤ pgnum va ∧ pgnum va < v + n))
    (hw : d' = d → pdx va = 957 → target (s.pde d (ptx va)) = none →
      ¬ ∃ x, (v ≤ x ∧ x < v + n) ∧ x / 1024 = ptx va) :
    hwWalk t.mem d' va = hwWalk s.mem d' va := by
  by_cases hu : 955 ≤ pdx va
  · by_cases hne : pdx va = 957
    · refine h.walk_window ht hd' hd' hne ?_
      by_cases hlow : d' = d ∧ ptx va < 955
      · obtain ⟨rfl, hlow⟩ := hlow
        exact (hr.grow _ hlow).resolve_right fun hnew => hw rfl hne hnew.1 hnew.2.1
      · exact hr.pde d' hd' _ fun he => not_lt.mp fun hlt => hlow ⟨he, hlt⟩
    · refine h.walk_upper ht hd' hd' ?_ hu hne
      rw [hk]
      exact hr.pde _ h.mem_kern _ fun _ => hu
  · exact hr.walk hd hd' (h.balanced.own_user d' hd' _ (by omega)) hn

/-- The rounds of region_alloc's loop stay below UTOP. -/
theorem pages_le_utop (hlen : va.toNat + len.toNat ≤ utop.toNat) :
    pgnum va + (len.toNat + 4095) / 4096 ≤ 955 * 1024 := by
  rw [toNat_utop] at hlen
  rw [pgnum_eq]
  omega

theorem roundsUp_iff : RoundsUp va len ↔
    len.toNat = 0 ∨ va.toNat % 4096 + len.toNat ≤ (len.toNat + 4095) / 4096 * 4096 :=
  or_congr_left BitVec.toNat_inj.symm

/-- What is mapped is touched, whatever the roundings do. -/
theorem touched_of_mapped (hlen : va.toNat + len.toNat ≤ utop.toNat) (h1 : pgnum va ≤ v)
    (h2 : v < pgnum va + (len.toNat + 4095) / 4096) : Touched va len v := by
  have hva := va.isLt
  rw [toNat_utop] at hlen
  rw [pgnum_eq] at h1 h2
  rw [touched_iff]
  omega

theorem mapped_of_touched (hup : RoundsUp va len) (hv : Touched va len v) :
    pgnum va ≤ v ∧ v < pgnum va + (len.toNat + 4095) / 4096 := by
  rw [touched_iff] at hv
  rw [roundsUp_iff] at hup
  rw [pgnum_eq]
  omega

/-- Where the roundings disagree, the last page of the range keeps its old entry. -/
theorem CoversRange.roundsUp (h : Balanced s L fl) (hd : d ∈ L.dirs)
    (hlen : va.toNat + len.toNat ≤ utop.toNat)
    (hr : RegionMapped s t L fl fl' d (pgnum va) ((len.toNat + 4095) / 4096))
    (hc : CoversRange s t d va len) : RoundsUp va len := by
  have hva := va.isLt
  rw [toNat_utop] at hlen
  by_contra hn
  rw [roundsUp_iff] at hn
  have hlast : Touched va len ((va.toNat + len.toNat - 1) / 4096) := by
    rw [touched_iff]
    omega
  obtain ⟨p, hentry, -, hold, hfree⟩ := hc.mapped _ hlast
  have hsame : t.entry d ((va.toNat + len.toNat - 1) / 4096) =
      s.entry d ((va.toNat + len.toNat - 1) / 4096) := by
    refine hr.remaps.entry h hd (by omega) fun _ hin => ?_
    rw [pgnum_eq] at hin
    omega
  have hpage : p < 2 ^ 20 := by
    rcases hfree with hf | ⟨v', -, -, hold'⟩
    · exact h.page_lt (h.free_lt (h.onFreeList_iff.mp hf))
    · rw [← (target_eq_some.mp hold').2]
      exact pgnum_lt _
  rw [← hsame, hentry] at hold
  exact hold (target_entry hpage (by decide) (by decide))

/-- A page of the range has a page that is counted once. -/
theorem RegionMapped.freshAt (hr : RegionMapped s t L fl fl' d (pgnum va) ((len.toNat + 4095) / 4096))
    (h : Balanced s L fl) (hd : d ∈ L.dirs) (hlen : va.toNat + len.toNat ≤ utop.toNat)
    (h1 : pgnum va ≤ v) (h2 : v < pgnum va + (len.toNat + 4095) / 4096) :
    ∃ p < 2 ^ 20, t.entry d v = userEntry p ∧ FreshAt s t d va len v p := by
  obtain ⟨p, hp, hentry, href, hold, hfresh⟩ := hr.entries (v - pgnum va) (by omega)
  have hone := hr.ref_eq_one hd (pages_le_utop hlen) (by omega) hp hentry href
  rw [show pgnum va + (v - pgnum va) = v by omega] at hentry hold
  refine ⟨p, h.page_lt hp, hentry, hone, hold, ?_⟩
  rcases hfresh with hf | ⟨j, hj, hj'⟩
  · exact Or.inl (h.onFreeList_iff.mpr hf)
  · exact Or.inr ⟨pgnum va + j, by omega, touched_of_mapped hlen (by omega) (by omega), hj'⟩

/-- region_alloc covers the range exactly when the two roundings agree. -/
theorem System.covers_iff (h : System m s L fl efl) (hd : d ∈ L.dirs)
    (hlen : va.toNat + len.toNat ≤ utop.toNat)
    (hr : RegionMapped s t L fl fl' d (pgnum va) ((len.toNat + 4095) / 4096)) :
    CoversRange s t d va len ↔ RoundsUp va len := by
  have hend := pages_le_utop hlen
  have ht := h.regionMapped hd hend hr
  refine ⟨fun hc => hc.roundsUp h.balanced hd hlen hr, fun hup => ⟨?_, ?_, ?_⟩⟩
  · intro v hv
    obtain ⟨h1, h2⟩ := mapped_of_touched hup hv
    obtain ⟨p, -, hentry⟩ := hr.freshAt h.balanced hd hlen h1 h2
    exact ⟨p, hentry⟩
  · intro v v' p hv hv' hp hp'
    obtain ⟨h1, h2⟩ := mapped_of_touched hup hv
    obtain ⟨-, h2'⟩ := mapped_of_touched hup hv'
    obtain ⟨q, hq, hentry, hone, -⟩ := hr.freshAt h.balanced hd hlen h1 h2
    have htarget : target (t.entry d v) = some q := by
      rw [hentry]
      exact target_entry hq (by decide) (by decide)
    rw [htarget] at hp
    cases hp
    obtain ⟨-, -, huniq⟩ := ht.balanced.sole hd (show v / 1024 < 955 by omega)
      (show v % 1024 < 1024 by omega) htarget hone
    obtain ⟨-, hi, hj⟩ := huniq d hd (v' / 1024) (by omega) (v' % 1024) (by omega) hp'
    omega
  · intro d' a hdir hn
    refine hr.remaps.walk_others h ht hd ((h.dirs d').mpr hdir) hr.paging.kernPgdir ?_ ?_
    · intro he ⟨h1, h2⟩
      exact (hn he).1 (touched_of_mapped hlen h1 h2)
    · rintro he hw hnone ⟨x, ⟨h1, h2⟩, hx⟩
      exact (hn he).2 ⟨hw.trans pdx_uvpt.symm, hnone, x, touched_of_mapped hlen h1 h2, hx⟩

/-- In every reachable state, region_alloc covers the requested range exactly when the two
roundings agree. -/
theorem sysRun_regionAlloc (h : SysRun m mem s) (he : Live s e) (hd : (s.envs e).envPgdir = some d)
    (hlen : va.toNat + len.toNat ≤ utop.toNat) (hrun : regionAlloc e va len s = .ok () t) :
    CoversRange s t d va len ↔ RoundsUp va len := by
  obtain ⟨L, fl, efl, hsys⟩ := h.system
  have hdm := hsys.env_mem he hd
  obtain ⟨fl', hr⟩ := regionAlloc_mapped hsys.balanced hd hdm hlen () t hrun
  exact hsys.covers_iff hdm hlen hr

/-- One page from 0x800000 on: the roundings agree, and the page is covered. -/
theorem sysRun_regionAlloc_smallMachine : ∃ s t e d, SysRun smallMachine (fun _ _ => 0) s ∧
    Live s e ∧ (s.envs e).envPgdir = some d ∧
    regionAlloc e 0x800000#32 4096#32 s = .ok () t ∧ CoversRange s t d 0x800000#32 4096#32 := by
  obtain ⟨s, e, d, L, fl, efl, hrun, hsys, hl, hd, hlen, -⟩ := emptyEnv_smallMachine
  obtain ⟨⟨⟩, t, ht, -⟩ := regionAlloc_returns hsys.balanced hd (hsys.env_mem hl hd)
    (show (0x800000#32).toNat + (4096#32).toNat ≤ utop.toNat by decide)
    (by simp only [BitVec.toNat_ofNat]; omega)
  exact ⟨s, t, e, d, hrun, hl, hd, ht, (sysRun_regionAlloc hrun hl hd (by decide) ht).mpr (by decide)⟩

/-- 4096 bytes from 0x800020 on reach into a second page, which stays unmapped. -/
theorem not_regionAlloc_covers : ¬ ∀ (m : Machine) (mem : Nat → Nat → Word) (s t : Kernel) (e d : Nat)
    (va len : Word), SysRun m mem s → Live s e → (s.envs e).envPgdir = some d →
    va.toNat + len.toNat ≤ utop.toNat → regionAlloc e va len s = .ok () t →
    CoversRange s t d va len := by
  intro hall
  obtain ⟨s, e, d, L, fl, efl, hrun, hsys, hl, hd, hlen, -⟩ := emptyEnv_smallMachine
  have hdm := hsys.env_mem hl hd
  obtain ⟨⟨⟩, t, ht, fl', hr⟩ := regionAlloc_returns hsys.balanced hd hdm
    (show (0x800020#32).toNat + (4096#32).toNat ≤ utop.toNat by decide)
    (by simp only [BitVec.toNat_ofNat]; omega)
  have hc := hall _ _ s t e d _ _ hrun hl hd (by decide) ht
  exact absurd ((hsys.covers_iff hdm (by decide) hr).mp hc) (by decide)

end covers

end Jos
