import Jos.Kern.Region
import Jos.Kern.EnvRuns

/-! The address spaces of the kernel and of the environments, and the invariant they keep. -/
namespace Jos

open Prog

/-- The page directories: kern_pgdir, and one for each live environment. -/
def Directory (s : Kernel) (d : Nat) : Prop :=
  d = s.kernPgdir ∨ ∃ e, Live s e ∧ (s.envs e).envPgdir = some d

/-- Every address space in order: the counts are exact, the directories are the table's, the part
above UTOP is the kernel's everywhere, and what is mapped below it is no kernel page. -/
structure System (m : Machine) (s : Kernel) (L : Ledger) (fl efl : List Nat) : Prop where
  envs : EnvTable s efl
  balanced : Balanced s L fl
  kernPgdir : s.kernPgdir = heapBase m
  held : L.held = (bootLedger m kernOwn).held
  dirs : ∀ d, d ∈ L.dirs ↔ Directory s d
  env_ne : ∀ e, Live s e → (s.envs e).envPgdir ≠ some s.kernPgdir
  env_inj : ∀ e e' d, Live s e → Live s e' → (s.envs e).envPgdir = some d →
    (s.envs e').envPgdir = some d → e = e'
  own_kern : L.own s.kernPgdir = kernOwn
  own_env : ∀ d ∈ L.dirs, d ≠ s.kernPgdir → L.own d = Ledger.userEntries
  upper : ∀ d ∈ L.dirs, ∀ i ∈ kernOwn, 955 ≤ i → s.pde d i = s.pde s.kernPgdir i
  self : ∀ d ∈ L.dirs, s.pde d 957 = selfEntry d
  kernel : ∀ i ∈ kernOwn, 955 ≤ i → ∀ j < 1024, s.pte s.kernPgdir i j = kernelMap m (i * 1024 + j)
  pdes : ∀ d ∈ L.dirs, ∀ i ∈ kernOwn, s.pde d i = 0#32 ∨ ∃ q, s.pde d i = tableEntry q
  data : ∀ d ∈ L.dirs, ∀ i < 955, ∀ j < 1024, ∀ p, target (s.pte d i j) = some p →
    IsData s L p ∧ L.held p = 0
  fits : heapEnd m < s.npages

section ledger

variable {s t : Kernel} {L : Ledger} {fl fl₁ : List Nat} {d d' i j p q : Nat} {w : Word}

/-- A page with one reference, from an entry below UTOP, is mapped there and used nowhere else. -/
theorem Balanced.sole (h : Balanced s L fl) (hd : d ∈ L.dirs) (hi : i < 955) (hj : j < 1024)
    (hp : target (s.pte d i j) = some p) (h1 : (s.pages p).ppRef = 1) :
    IsData s L p ∧ L.held p = 0 ∧ ∀ d' ∈ L.dirs, ∀ i' < 955, ∀ j' < 1024,
      target (s.pte d' i' j') = some p → d' = d ∧ i' = i ∧ j' = j := by
  have hx : Sum.inr (d, i, j) ∈ L.slots := Ledger.inr_mem_slots.mpr ⟨hd, hi, hj⟩
  have hpos : 0 < refs s L p := RefCount.refs_pos_iff.mpr ⟨_, hx, hp⟩
  have hc := h.count p (h.mapped d hd i hi j hj p hp)
  rw [h1] at hc
  change 1 = _ at hc
  have hone : refs s L p ≤ 1 := by omega
  have hroot : L.root p = 0 := by omega
  refine ⟨⟨?_, ?_⟩, by omega, ?_⟩
  · intro hm
    rw [Ledger.root_of_mem hm] at hroot
    cases hroot
  · intro d' hd' i' hi' ht
    have hy : Sum.inl ⟨d', i'⟩ ∈ L.slots := Ledger.inl_mem_slots.mpr ⟨hd', hi'⟩
    cases RefCount.unique_of_refs_le_one hone hx hy hp ht
  · intro d' hd' i' hi' j' hj' hp'
    have hy : Sum.inr (d', i', j') ∈ L.slots := Ledger.inr_mem_slots.mpr ⟨hd', hi', hj'⟩
    cases RefCount.unique_of_refs_le_one hone hx hy hp hp'
    exact ⟨rfl, rfl, rfl⟩

theorem pde_storeData (hp : IsData s L p) (hd : d ∈ L.dirs) : (s.store p j w).pde d i = s.pde d i := by
  apply Kernel.mem_store_of_ne
  rintro rfl
  exact hp.1 hd

theorem pte_storeData {k : Nat} (hp : IsData s L p) (hd : d ∈ L.dirs) (hi : i ∈ L.own d) :
    (s.store p k w).pte d i j = s.pte d i j := by
  apply Kernel.pte_congr (pde_storeData hp hd)
  intro t ht
  apply Kernel.mem_store_of_ne
  rintro rfl
  exact hp.2 d hd i hi ht

theorem isData_congr (hpde : ∀ d ∈ L.dirs, ∀ i ∈ L.own d, t.pde d i = s.pde d i)
    (hp : IsData s L p) : IsData t L p := by
  refine ⟨hp.1, fun d hd i hi => ?_⟩
  rw [hpde d hd i hi]
  exact hp.2 d hd i hi

/-- A store to a data page moves no reference. -/
theorem Balanced.storeData (h : Balanced s L fl) (hp : IsData s L p) : Balanced (s.store p j w) L fl := by
  refine h.congr rfl rfl rfl ?_ ?_
  · intro d hd i _
    exact pde_storeData hp hd
  · intro d hd i hi j' _
    exact pte_storeData hp hd (h.own_user d hd i hi)

/-- A page in use as data is not the one taken for a table. -/
theorem TableReady.isData (hr : TableReady s fl d i q t fl₁) (h : Balanced s L fl) (hd : d ∈ L.dirs)
    (hp : IsData s L p) (hf : p ∉ fl) : IsData t L p := by
  refine ⟨hp.1, fun d' hd' k hk ht => ?_⟩
  by_cases he : d' = d ∧ k = i
  · obtain ⟨rfl, rfl⟩ := he
    rcases hr with ⟨-, rfl, -⟩ | ⟨-, rfl, rfl⟩
    · exact hp.2 d' hd k hk ht
    · rw [h.target_pde_withTable] at ht
      cases ht
      simp at hf
  · rw [hr.pde_of_ne h hd' he] at ht
    exact hp.2 d' hd' k hk ht

/-- Filling a free page shows nowhere. -/
theorem Balanced.remaps_fill (h : Balanced s L fl) (hd : d ∈ L.dirs) (hp : p ∈ fl) (n : Nat) (w : Word)
    (V : Nat → Prop) : Remaps s (s.fill p n w) L d V := by
  obtain ⟨hrefs, hdir, -⟩ := h.unreferenced (h.free_lt hp) (h.free_ref hp)
  have hpde : ∀ d ∈ L.dirs, ∀ i, (s.fill p n w).pde d i = s.pde d i := by
    intro d hd i
    apply Kernel.mem_fill_of_ne
    rintro rfl
    exact hdir hd
  refine ⟨fun d' hd' i _ => hpde d' hd' i, fun i _ => Or.inl (hpde d hd i), ?_, ?_⟩
  · intro d' hd' i hi j _ _
    apply Kernel.pte_congr (hpde d' hd' i)
    intro t ht
    apply Kernel.mem_fill_of_ne
    rintro rfl
    exact Balanced.table_ne_of_refs hrefs hd' hi ht
  · intro d' hd' i hi j hj _ q hq hdata
    refine ⟨?_, isData_congr (fun d hd i _ => hpde d hd i) hdata⟩
    funext k
    apply Kernel.mem_fill_of_ne
    rintro rfl
    exact (h.referenced_page hd' hi hj hq).2.1 hp

end ledger

namespace System

variable {m : Machine} {s t : Kernel} {L L' : Ledger} {fl fl' efl efl' : List Nat}
  {d d' e i j p q : Nat} {V : Nat → Prop} {va w : Word}

theorem mem_kern (h : System m s L fl efl) : s.kernPgdir ∈ L.dirs :=
  (h.dirs _).mpr (Or.inl rfl)

theorem env_mem (h : System m s L fl efl) (he : Live s e) (hd : (s.envs e).envPgdir = some d) :
    d ∈ L.dirs :=
  (h.dirs d).mpr (Or.inr ⟨e, he, hd⟩)

theorem env_dir (h : System m s L fl efl) (he : Live s e) :
    ∃ d, (s.envs e).envPgdir = some d ∧ d ∈ L.dirs ∧ d ≠ s.kernPgdir := by
  obtain ⟨hlt, hm⟩ := h.envs.live_iff.mp he
  obtain ⟨d, hd⟩ := Option.ne_none_iff_exists'.mp (h.envs.live e hlt hm).2.2
  refine ⟨d, hd, h.env_mem he hd, ?_⟩
  rintro rfl
  exact h.env_ne e he hd

/-- The directories own the same tables everywhere but in kern_pgdir's upper part. -/
theorem own_eq (h : System m s L fl efl) (hd : d ∈ L.dirs) :
    L.own d = if d = s.kernPgdir then kernOwn else Ledger.userEntries := by
  by_cases hk : d = s.kernPgdir
  · rw [if_pos hk, hk, h.own_kern]
  · rw [if_neg hk, h.own_env d hd hk]

theorem own_sub (h : System m s L fl efl) (hd : d ∈ L.dirs) (hi : i ∈ L.own d) : i ∈ kernOwn := by
  rw [h.own_eq hd] at hi
  split at hi
  · exact hi
  · rw [Ledger.mem_userEntries] at hi
    rw [mem_kernOwn]
    omega

/-- Pages change hands: what the call has to keep of the address spaces. -/
theorem paging (h : System m s L fl efl) (hp : Kernel.Paging s t) (hb : Balanced t L' fl')
    (hdirs : L'.dirs = L.dirs) (hown : L'.own = L.own) (hheld : L'.held = L.held)
    (hupper : ∀ d ∈ L.dirs, ∀ i, 955 ≤ i → i < 1024 → t.pde d i = s.pde d i)
    (hlower : ∀ d ∈ L.dirs, ∀ i < 955, t.pde d i = s.pde d i ∨ t.pde d i = 0#32 ∨
      ∃ q, t.pde d i = tableEntry q)
    (hkern : ∀ i ∈ kernOwn, 955 ≤ i → ∀ j < 1024, t.pte s.kernPgdir i j = s.pte s.kernPgdir i j)
    (hdata : ∀ d ∈ L.dirs, ∀ i < 955, ∀ j < 1024, ∀ p, target (t.pte d i j) = some p →
      IsData t L p ∧ L.held p = 0) : System m t L' fl' efl := by
  have hk : t.kernPgdir = s.kernPgdir := hp.kernPgdir
  have henvs : t.envs = s.envs := by rw [hp]
  have hpart : t.envPart = s.envPart := by rw [hp]; rfl
  have hlive : ∀ e, Live t e ↔ Live s e := fun e => by rw [Live, Live, henvs]
  have hd : ∀ d, d ∈ L'.dirs ↔ d ∈ L.dirs := fun d => by rw [hdirs]
  refine ⟨?_, hb, hk.trans h.kernPgdir, hheld.trans h.held, ?_, ?_, ?_, ?_, ?_, ?_, ?_, ?_, ?_, ?_,
    h.fits.trans_eq hp.npages.symm⟩
  · exact h.envs.congr (congrArg (fun part : (Nat → Env) × Option Nat × Option Nat =>
      ((fun e => { part.1 e with envTf := zeroTrapframe }), part.2)) hpart)
  · intro d
    rw [hd, h.dirs, Directory, Directory, hk, henvs]
    simp only [hlive]
  · intro e he
    rw [henvs, hk]
    exact h.env_ne e ((hlive e).mp he)
  · intro e e' d he he'
    rw [henvs]
    exact h.env_inj e e' d ((hlive e).mp he) ((hlive e').mp he')
  · rw [hk, hown, h.own_kern]
  · intro d hm hne
    rw [hown]
    exact h.own_env d ((hd d).mp hm) (hk ▸ hne)
  · intro d hm i hi hu
    have hlt := (mem_kernOwn.mp hi).1
    rw [hk, hupper d ((hd d).mp hm) i hu hlt, hupper _ h.mem_kern i hu hlt]
    exact h.upper d ((hd d).mp hm) i hi hu
  · intro d hm
    rw [hupper d ((hd d).mp hm) 957 (by omega) (by omega)]
    exact h.self d ((hd d).mp hm)
  · intro i hi hu j hj
    rw [hk, hkern i hi hu j hj]
    exact h.kernel i hi hu j hj
  · intro d hm i hi
    by_cases hu : 955 ≤ i
    · rw [hupper d ((hd d).mp hm) i hu (mem_kernOwn.mp hi).1]
      exact h.pdes d ((hd d).mp hm) i hi
    · rcases hlower d ((hd d).mp hm) i (by omega) with hs | h0 | hq
      · rw [hs]
        exact h.pdes d ((hd d).mp hm) i hi
      · exact Or.inl h0
      · exact Or.inr hq
  · intro d hm i hi j hj p hp
    obtain ⟨hdata, hz⟩ := hdata d ((hd d).mp hm) i hi j hj p hp
    refine ⟨?_, hheld ▸ hz⟩
    unfold IsData
    rw [hdirs, hown]
    exact hdata

/-- One directory is given data pages below UTOP. -/
theorem remapped (h : System m s L fl efl) (hp : Kernel.Paging s t) (hb : Balanced t L' fl')
    (hdirs : L'.dirs = L.dirs) (hown : L'.own = L.own) (hheld : L'.held = L.held)
    (hr : Remaps s t L d V) (hV : ∀ v, V v → v < 955 * 1024)
    (hnew : ∀ v, V v → ∀ p, target (t.entry d v) = some p → IsData t L p ∧ L.held p = 0) :
    System m t L' fl' efl := by
  refine h.paging hp hb hdirs hown hheld ?_ ?_ ?_ ?_
  · intro d' hd' i hi _
    exact hr.pde d' hd' i fun _ => hi
  · intro d' hd' i hi
    by_cases he : d' = d
    · subst he
      rcases hr.grow i hi with hs | ⟨-, -, q, -, hq⟩
      · exact Or.inl hs
      · exact Or.inr (Or.inr ⟨q, hq⟩)
    · exact Or.inl (hr.pde d' hd' i fun hc => absurd hc he)
  · intro i hi hu j hj
    have hown : i ∈ L.own s.kernPgdir := h.own_kern ▸ hi
    refine hr.pte _ h.mem_kern i hown j hj fun _ hv => ?_
    have := hV _ hv
    omega
  · intro d' hd' i hi j hj p hp
    by_cases hv : d' = d ∧ V (i * 1024 + j)
    · obtain ⟨rfl, hv⟩ := hv
      apply hnew _ hv p
      rw [Kernel.entry, show (i * 1024 + j) / 1024 = i by omega,
        show (i * 1024 + j) % 1024 = j by omega]
      exact hp
    · have hn : d' = d → ¬ V (i * 1024 + j) := fun he hc => hv ⟨he, hc⟩
      rw [hr.pte d' hd' i (h.balanced.own_user d' hd' i hi) j hj hn] at hp
      obtain ⟨hdata, hz⟩ := h.data d' hd' i hi j hj p hp
      exact ⟨(hr.data d' hd' i hi j hj hn p hp hdata).2, hz⟩

/-- A store to a data page. -/
theorem storeData (h : System m s L fl efl) (hp : IsData s L p) (j : Nat) (w : Word) :
    System m (s.store p j w) L fl efl := by
  have hpde : ∀ d ∈ L.dirs, ∀ i, (s.store p j w).pde d i = s.pde d i :=
    fun d hd i => pde_storeData hp hd
  refine h.paging Kernel.Paging.store (h.balanced.storeData hp) rfl rfl rfl ?_ ?_ ?_ ?_
  · intro d hd i _ _
    exact hpde d hd i
  · intro d hd i _
    exact Or.inl (hpde d hd i)
  · intro i hi _ k _
    exact pte_storeData hp h.mem_kern (h.own_kern ▸ hi)
  · intro d hd i hi k hk q hq
    rw [pte_storeData hp hd (h.balanced.own_user d hd i hi)] at hq
    obtain ⟨hdata, hz⟩ := h.data d hd i hi k hk q hq
    exact ⟨isData_congr (fun d hd i _ => hpde d hd i) hdata, hz⟩

/-- The table changes and the address spaces do not. -/
theorem congr (h : System m s L fl efl) (ht : EnvTable t efl') (hn : t.npages = s.npages)
    (hp : t.pages = s.pages) (hf : t.pageFreeList = s.pageFreeList) (hm : t.mem = s.mem)
    (hk : t.kernPgdir = s.kernPgdir) (hlive : ∀ e, Live t e ↔ Live s e)
    (hdir : ∀ e, Live s e → (t.envs e).envPgdir = (s.envs e).envPgdir) :
    System m t L fl efl' := by
  have hpde : t.pde = s.pde := by
    funext d i
    rw [Kernel.pde, hm, Kernel.pde]
  have hpte : t.pte = s.pte := by
    funext d i j
    rw [Kernel.pte, hpde, hm, Kernel.pte]
  refine ⟨ht, h.balanced.of_eq hn hp hf hm, hk.trans h.kernPgdir, h.held, ?_, ?_, ?_, ?_, ?_, ?_, ?_,
    ?_, ?_, ?_, h.fits.trans_eq hn.symm⟩
  · intro d
    rw [h.dirs, Directory, Directory, hk]
    constructor
    · rintro (rfl | ⟨e, he, hd⟩)
      · exact Or.inl rfl
      · exact Or.inr ⟨e, (hlive e).mpr he, (hdir e he).trans hd⟩
    · rintro (rfl | ⟨e, he, hd⟩)
      · exact Or.inl rfl
      · exact Or.inr ⟨e, (hlive e).mp he, (hdir e ((hlive e).mp he)).symm.trans hd⟩
  · intro e he
    rw [hdir e ((hlive e).mp he), hk]
    exact h.env_ne e ((hlive e).mp he)
  · intro e e' d he he'
    rw [hdir e ((hlive e).mp he), hdir e' ((hlive e').mp he')]
    exact h.env_inj e e' d ((hlive e).mp he) ((hlive e').mp he')
  · rw [hk, h.own_kern]
  · intro d hd hne
    exact h.own_env d hd (hk ▸ hne)
  · rw [hk, hpde]
    exact h.upper
  · rw [hpde]
    exact h.self
  · rw [hk, hpte]
    exact h.kernel
  · rw [hpde]
    exact h.pdes
  · intro d hd i hi j hj p hp
    rw [hpte] at hp
    obtain ⟨hdata, hz⟩ := h.data d hd i hi j hj p hp
    exact ⟨isData_congr (fun d _ i _ => by rw [hpde]) hdata, hz⟩

end System

section rights

variable {m : Machine} {s : Kernel} {L : Ledger} {fl efl : List Nat} {d i j p q x : Nat} {va : Word}

theorem has_pageEntry {perm f : Word} (hf : f.toNat < 4096) :
    Has (pageEntry q perm) f ↔ Has (perm ||| pteP) f := by
  rw [pageEntry, ← page2pa_pgnum, BitVec.or_assoc, has_entry hf]

/-- Of the kernel's map the user may read what lies below ULIM, and write nothing. -/
theorem kernelMap_rights (m : Machine) (h : Has (kernelMap m x) pteU) :
    x < 958 * 1024 ∧ ¬ Has (kernelMap m x) pteW := by
  have hep := envsPages_eq
  have hpp := pagesPages_le m
  unfold kernelMap at h ⊢
  split at h
  · rw [if_pos (by assumption), has_pageEntry (by decide)]
    exact ⟨by omega, by decide⟩
  · rw [if_neg (by assumption)]
    split at h
    · rw [if_pos (by assumption), has_pageEntry (by decide)]
      exact ⟨by omega, by decide⟩
    · exfalso
      split at h
      · rw [has_pageEntry (by decide)] at h
        exact absurd h (by decide)
      · split at h
        · rw [has_pageEntry (by decide)] at h
          exact absurd h (by decide)
        · exact not_has_zero h

namespace System

/-- Above UTOP, every directory reaches the kernel's own tables. -/
theorem pte_upper (h : System m s L fl efl) (hd : d ∈ L.dirs) (hi : i ∈ kernOwn) (hu : 955 ≤ i)
    (hj : j < 1024) : s.pte d i j = kernelMap m (i * 1024 + j) := by
  rw [← h.kernel i hi hu j hj, Kernel.pte, Kernel.pte, h.upper d hd i hi hu]

theorem userWindow (h : System m s L fl efl) (hd : d ∈ L.dirs) (hva : pdx va = 957) :
    ¬ UserCanWrite s.mem d va := by
  apply not_userCanWrite
  rw [hva, h.self d hd, selfEntry, BitVec.or_assoc, has_entry (by decide)]
  decide

/-- What the user may write lies below UTOP. -/
theorem userCanWrite_lt (h : System m s L fl efl) (hd : d ∈ L.dirs) (hw : UserCanWrite s.mem d va) :
    pdx va < 955 := by
  by_contra hge
  by_cases hself : pdx va = 957
  · exact h.userWindow hd hself hw
  · have hi : pdx va ∈ kernOwn := mem_kernOwn.mpr ⟨pdx_lt va, hself⟩
    have hpte := h.pte_upper hd hi (by omega) (ptx_lt va)
    obtain ⟨x, hx, hu, hwr⟩ := hw
    obtain ⟨-, hxu, hxw⟩ := hwWalk_eq_some.mp hx
    rw [hu] at hxu
    rw [hwr] at hxw
    have hU := (of_decide_eq_true hxu.symm).2
    have hW := (of_decide_eq_true hxw.symm).2
    rw [hpte] at hU hW
    exact (kernelMap_rights m hU).2 hW

/-- What the user may read lies below ULIM. -/
theorem userCanRead_lt (h : System m s L fl efl) (hd : d ∈ L.dirs) (hr : UserCanRead s.mem d va) :
    pdx va < 958 := by
  by_contra hge
  have hi : pdx va ∈ kernOwn := mem_kernOwn.mpr ⟨pdx_lt va, by omega⟩
  have hU := (userCanRead_iff.mp hr).2.2
  rw [h.pte_upper hd hi (by omega) (ptx_lt va)] at hU
  have := (kernelMap_rights m hU).1
  omega

end System

end rights

section calls

variable {m : Machine} {s t s₁ : Kernel} {L : Ledger} {fl fl' fl₁ efl : List Nat}
  {d e i j n p pp q v : Nat} {va perm flags : Word} {mem : Nat → Nat → Word}

namespace System

/-- page_alloc. -/
theorem handOut (h : System m s L (p :: fl) efl) (flags : Word) :
    System m (s.handOut flags p) (L.loosen p) fl efl := by
  have hd := h.mem_kern
  have hp : p ∈ p :: fl := by simp
  rcases pageAlloc_spec flags h.balanced with ⟨hnil, -⟩ | ⟨p', fl', hcons, -, hb⟩
  · cases hnil
  · cases hcons
    have hpag : Kernel.Paging s (s.handOut flags p) := Kernel.Paging.handOut flags
    have hr : Remaps s (s.handOut flags p) L s.kernPgdir fun _ => False := by
      unfold Kernel.handOut
      split
      · exact (h.balanced.remaps_fill hd hp 1024 0#32 _).trans (Remaps.of_mem rfl)
          h.balanced.own_user
      · exact Remaps.of_mem rfl
    exact h.remapped hpag hb rfl rfl rfl hr (fun _ hv => hv.elim) fun _ hv => hv.elim

/-- page_free. -/
theorem pushed (h : System m s L fl efl) (hp : p ∈ L.loose) :
    System m (s.push p) (L.settle p) (p :: fl) efl := by
  have hr : Remaps s (s.push p) L s.kernPgdir fun _ => False := Remaps.of_mem rfl
  exact h.remapped Kernel.Paging.push (h.balanced.push hp) rfl rfl rfl hr (fun _ hv => hv.elim)
    fun _ hv => hv.elim

theorem entry_pgnum (s : Kernel) (d : Nat) (va : Word) :
    s.entry d (pgnum va) = s.pte d (pdx va) (ptx va) := by
  obtain ⟨hi, hj⟩ := pgnum_indices va
  rw [Kernel.entry, hi, hj]

theorem pgnum_lt_utop (hva : pdx va < 955) : pgnum va < 955 * 1024 := by
  have := ptx_lt va
  rw [pgnum_eq_indices]
  omega

/-- page_remove of a mapped page. -/
theorem unmapped (h : System m s L fl efl) (hd : d ∈ L.dirs) (hva : pdx va < 955)
    (ht : target (s.pde d (pdx va)) = some q) (hp : target (s.pte d (pdx va) (ptx va)) = some p) :
    System m (s.unmap q (ptx va) p va) L (if (s.pages p).ppRef = 1 then p :: fl else fl) efl := by
  have hb := h.balanced
  refine h.remapped Kernel.Paging.unmap (hb.unmap hd hva (ptx_lt va) ht hp va) rfl rfl rfl
    (hb.unmap_remaps hd hva ht) ?_ ?_
  · rintro v rfl
    exact pgnum_lt_utop hva
  · rintro v rfl x hx
    have hdq : d ≠ q := by
      rintro rfl
      exact (hb.table d hd _ (hb.own_user d hd _ hva) d ht).2 hd
    have hpde : target ((s.unmap q (ptx va) p va).pde d (pdx va)) = some q := by
      rw [Kernel.pde, Kernel.mem_unmap, if_neg fun he => hdq he.1]
      exact ht
    rw [entry_pgnum, Kernel.pte_of_target hpde, Kernel.mem_unmap, if_pos ⟨rfl, rfl⟩, target_zero] at hx
    cases hx

/-- page_insert of a data page. -/
theorem inserted (h : System m s L fl efl) (hd : d ∈ L.dirs) (hva : pdx va < 955)
    (hp : p < s.npages) (hf : p ∉ fl) (hr : (s.pages p).ppRef.toNat < 65535)
    (hperm : perm.toNat < 4096) (hdata : IsData s L p) (hheld : L.held p = 0)
    (hready : TableReady s fl d (pdx va) q s₁ fl₁) :
    ∃ fl', System m (s₁.mapAt q (ptx va) p va perm) (L.settle p) fl' efl := by
  have hb := h.balanced
  have hown := hb.own_user d hd _ hva
  obtain ⟨hb₁, ht⟩ := hready.balanced hb hd hown
  have hb₂ := hb₁.mapAt hd hva (ptx_lt va) ht (hready.paging.npages ▸ hp)
    (fun hm => hf (hready.mem_free hm)) (hready.ppRef hf ▸ hr) hperm va
  refine ⟨_, h.remapped (hready.paging.trans Kernel.Paging.mapAt) hb₂ rfl rfl rfl
    (hready.mapAt_remaps perm hb hd hva) ?_ ?_⟩
  · rintro v rfl
    exact pgnum_lt_utop hva
  · rintro v rfl x hx
    rw [entry_pgnum, hready.mapAt_entry perm hb hd hva (hb.page_lt hp),
      target_entry (hb.page_lt hp) (toNat_or_lt hperm (by decide)) (has_or.mpr (Or.inr (by decide)))] at hx
    cases hx
    refine ⟨isData_congr ?_ (hready.isData hb hd hdata hf), hheld⟩
    intro d' hd' i _
    rw [Kernel.pde, Kernel.mem_mapAt, if_neg]
    · rfl
    · rintro ⟨rfl, -⟩
      exact (hb₁.table d hd _ hown d' ht).2 hd'

/-- region_alloc. -/
theorem regionMapped (h : System m s L fl efl) (hd : d ∈ L.dirs) (hv : v + n ≤ 955 * 1024)
    (hr : RegionMapped s t L fl fl' d v n) : System m t L fl' efl := by
  refine h.remapped hr.paging hr.balanced rfl rfl rfl hr.remaps ?_ ?_
  · rintro x ⟨-, hx⟩
    omega
  · rintro x ⟨hx, hlt⟩ p' hp'
    obtain ⟨p, hp, hentry, href, -⟩ := hr.entries (x - v) (by omega)
    rw [show v + (x - v) = x by omega] at hentry
    have hpage : p < 2 ^ 20 := h.balanced.page_lt hp
    have htarget : target (t.entry d x) = some p := by
      rw [hentry]
      exact target_entry hpage (by decide) (by decide)
    rw [htarget] at hp'
    obtain rfl : p = p' := Option.some.inj hp'
    have h1 : (t.pages p).ppRef = 1 := by
      apply hr.ref_eq_one hd hv (k := x - v) (by omega) hp ?_ href
      rw [show v + (x - v) = x by omega, hentry]
    obtain ⟨hdata, hheld, -⟩ := hr.balanced.sole hd (show x / 1024 < 955 by omega)
      (show x % 1024 < 1024 by omega) htarget h1
    exact ⟨hdata, hheld⟩

end System

/-- mem_init and env_init leave the address spaces in order, with no environment in them. -/
theorem system_start (hm : memInit m (bss mem) = .ok () s) (hi : envInit s = .ok () t) :
    ∃ fl efl, Booting m ((afterPageInit m mem).loadCr3 (heapBase m)) s fl (kernelMap m) ∧
      System m t (bootLedger m kernOwn) fl efl ∧ ∀ e, (t.envs e).envStatus = .free := by
  obtain ⟨fl, hb, -⟩ := memInit_booting hm
  obtain ⟨⟨efl, htable⟩, -, hfree⟩ := envTable_start hm hi
  obtain ⟨t', ht', hrest⟩ := envInit_returns s
  rw [hi] at ht'
  cases ht'
  have hd := hb.dir
  have hlive : ∀ e, ¬ Live t e := fun e he => he.2 (hfree e)
  have hk : t.kernPgdir = s.kernPgdir := by rw [hrest]
  have hm : t.mem = s.mem := by rw [hrest]
  have hpde : t.pde = s.pde := by
    funext d i
    rw [Kernel.pde, hm, Kernel.pde]
  have hpte : t.pte = s.pte := by
    funext d i j
    rw [Kernel.pte, hpde, hm, Kernel.pte]
  have hdirs : ∀ d ∈ (bootLedger m kernOwn).dirs, d = s.kernPgdir := by
    intro d hmem
    rw [hd.kernPgdir]
    exact Finset.mem_singleton.mp hmem
  have hempty : ∀ i < 955, ∀ j, t.pte s.kernPgdir i j = 0#32 := by
    intro i hi j
    apply Kernel.pte_of_no_table
    rw [hpde, Kernel.pde, hd.user_empty hi, target_zero]
  have hfits : heapEnd m < t.npages := by
    have hn : t.npages = detectedPages m := (congrArg Kernel.npages hrest).trans hb.heap.npages
    rw [hn]
    exact hb.heap.fits
  refine ⟨fl, efl, hb, ⟨htable, ?_, hk.trans hd.kernPgdir, rfl, ?_, ?_, ?_, rfl, ?_, ?_, ?_, ?_, ?_, ?_,
    hfits⟩, hfree⟩
  · rw [hrest]
    exact hd.balanced.of_eq rfl rfl rfl rfl
  · intro d
    constructor
    · intro hmem
      exact Or.inl ((hdirs d hmem).trans hk.symm)
    · rintro (rfl | ⟨e, he, -⟩)
      · rw [hk]
        exact hd.dirs
      · exact absurd he (hlive e)
  · intro e he
    exact absurd he (hlive e)
  · intro e _ _ he
    exact absurd he (hlive e)
  · intro d hmem hne
    exact absurd ((hdirs d hmem).trans hk.symm) hne
  · intro d hmem i _ _
    rw [hdirs d hmem, hk]
  · intro d hmem
    rw [hdirs d hmem, hpde]
    exact hd.self
  · intro i hi _ j hj
    rw [hk, hpte]
    exact hd.maps i hi j hj
  · intro d hmem i hi
    rw [hdirs d hmem, hpde]
    rcases hd.pdes i hi with h0 | ⟨-, hq⟩
    · exact Or.inl h0
    · exact Or.inr hq
  · intro d hmem i hi j hj p hp
    rw [hdirs d hmem, hempty i hi j, target_zero] at hp
    cases hp

end calls

end Jos
