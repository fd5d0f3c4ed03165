import Jos.Kern.FreshData
import Jos.Kern.Serving

/-! env_free gives back what was taken on the environment's behalf: runs in which every page serves
one environment. -/
namespace Jos

open Prog

/-- Handed out by page_alloc, and not in use yet. -/
def InHand (s : Kernel) (p : Nat) : Prop :=
  p < s.npages ∧ (s.pages p).ppRef = 0 ∧ ¬ s.OnFreeList p

namespace SysCall

/-- The call sets up environment `e`, or changes its address space. -/
def OnBehalfOf (s : Kernel) (e : Nat) : SysCall → Prop
  | .pageInsert pgdir _ _ _ => Live s e ∧ (s.envs e).envPgdir = some pgdir
  | .pageRemove pgdir _ => Live s e ∧ (s.envs e).envPgdir = some pgdir
  | .envAlloc _ _ => s.envFreeList = some e
  | .envCreate _ _ => s.envFreeList = some e
  | _ => False

open Classical in
/-- The pages taken on behalf of each environment since its env_alloc, once the call has gone from
`s` to `t`. -/
noncomputable def takes (c : SysCall) (s t : Kernel) (taken : Nat → Set Nat) (e : Nat) : Set Nat :=
  if c.OnBehalfOf s e then inUse s t (if Live s e then taken e else ∅) else taken e

/-- Pages are mapped for environments only, and each is fresh or already this one's. -/
def Serves (s : Kernel) (taken : Nat → Set Nat) : SysCall → Prop
  | .pageInsert pgdir pp _ _ => ∃ e, Live s e ∧ (s.envs e).envPgdir = some pgdir ∧
      ((s.pages pp).ppRef = 0 ∨ pp ∈ taken e)
  | .pageRemove pgdir _ => ∃ e, Live s e ∧ (s.envs e).envPgdir = some pgdir
  | _ => True

end SysCall

/-- The runs from env_init's state `s₀` on, with the pages taken on behalf of each environment. -/
inductive ServiceRun (m : Machine) (mem : Nat → Nat → Word) (s₀ : Kernel) : Kernel → (Nat → Set Nat) → Prop
  | start {s : Kernel} : memInit m (bss mem) = .ok () s → envInit s = .ok () s₀ →
      ServiceRun m mem s₀ s₀ fun _ => ∅
  | call {s t : Kernel} {taken : Nat → Set Nat} {c : SysCall} : ServiceRun m mem s₀ s taken →
      c.Legal m s → c.Serves s taken → c.exec s = .ok () t → ServiceRun m mem s₀ t (c.takes s t taken)

/-- The pages `T` go back to the free list, each once, and no other count changes. -/
structure GivesBack (s t : Kernel) (T : Set Nat) : Prop where
  list : ∃ fl, Chain (fun p => (t.pages p).ppLink) t.pageFreeList fl ∧ fl.Nodup
  mem : ∀ p, t.OnFreeList p ↔ s.OnFreeList p ∨ p ∈ T
  used : ∀ p ∈ T, ¬ s.OnFreeList p
  zero : ∀ p ∈ T, (t.pages p).ppRef = 0
  others : ∀ p < s.npages, p ∉ T → (t.pages p).ppRef = (s.pages p).ppRef

section calls

variable {m : Machine} {s₀ s t u : Kernel} {L L' : Ledger} {fl fl' efl efl' : List Nat}
  {d e n p q v x : Nat} {taken taken' : Nat → Set Nat} {b : Binary} {parent va perm : Word}

theorem System.freed_count (h : System m s L fl efl) (ht : System m t (L.dropDir d) fl' efl')
    (hspare : Spares s t L d) (hd : d ∈ L.dirs) (hne : d ≠ s.kernPgdir) (hn : t.npages = s.npages)
    (hp : p < s.npages) (hno : ¬ Owns s d p) : (t.pages p).ppRef = (s.pages p).ppRef := by
  have hnames : ∀ x ∈ (L.dropDir d).slots, names t x = names s x := by
    rintro (⟨d', i⟩ | ⟨d', i, j⟩) hx
    · obtain ⟨hd', hi⟩ := Ledger.inl_mem_slots.mp hx
      obtain ⟨hdd, hd'⟩ := Ledger.mem_dirs_dropDir.mp hd'
      rw [names, names, hspare.pde d' hd' hdd i]
    · obtain ⟨hd', hi, hj⟩ := Ledger.inr_mem_slots.mp hx
      obtain ⟨hdd, hd'⟩ := Ledger.mem_dirs_dropDir.mp hd'
      rw [names, names, hspare.pte d' hd' hdd i (h.balanced.own_user d' hd' i hi) j hj]
  have hsub : (L.dropDir d).slots ⊆ L.slots := by
    rintro (⟨d', i⟩ | ⟨d', i, j⟩) hx
    · obtain ⟨hd', hi⟩ := Ledger.inl_mem_slots.mp hx
      exact Ledger.inl_mem_slots.mpr ⟨(Ledger.mem_dirs_dropDir.mp hd').2, hi⟩
    · obtain ⟨hd', hi⟩ := Ledger.inr_mem_slots.mp hx
      exact Ledger.inr_mem_slots.mpr ⟨(Ledger.mem_dirs_dropDir.mp hd').2, hi⟩
  -- the references that are gone are the environment's own
  have hrefs : refs t (L.dropDir d) p = refs s L p := by
    rw [Balanced.refs_congr hnames]
    refine (RefCount.refs_of_unnamed hsub ?_).symm
    rintro (⟨d', i⟩ | ⟨d', i, j⟩) hx hgone hname
    · obtain ⟨hd', hi⟩ := Ledger.inl_mem_slots.mp hx
      by_cases hdd : d' = d
      · subst hdd
        rw [h.own_env d' hd hne, Ledger.mem_userEntries] at hi
        exact hno (Or.inr (Or.inl ⟨i, hi, hname⟩))
      · exact hgone (Ledger.inl_mem_slots.mpr ⟨Ledger.mem_dirs_dropDir.mpr ⟨hdd, hd'⟩, hi⟩)
    · obtain ⟨hd', hi, hj⟩ := Ledger.inr_mem_slots.mp hx
      by_cases hdd : d' = d
      · subst hdd
        refine hno (Or.inr (Or.inr ⟨i * 1024 + j, by omega, ?_⟩))
        rw [Kernel.entry, show (i * 1024 + j) / 1024 = i by omega, show (i * 1024 + j) % 1024 = j by omega]
        exact hname
      · exact hgone (Ledger.inr_mem_slots.mpr ⟨Ledger.mem_dirs_dropDir.mpr ⟨hdd, hd'⟩, hi, hj⟩)
  have hroot : (L.dropDir d).root p = L.root p := by
    have hpd : p ≠ d := fun hpd => hno (Or.inl hpd)
    by_cases hmem : p ∈ L.dirs
    · rw [Ledger.root_of_mem hmem, Ledger.root_of_mem (Ledger.mem_dirs_dropDir.mpr ⟨hpd, hmem⟩)]
    · rw [Ledger.root_of_notMem hmem,
        Ledger.root_of_notMem fun hm => hmem (Ledger.mem_dirs_dropDir.mp hm).2]
  have hcount := ht.balanced.count p (hn ▸ hp)
  rw [hrefs, hroot] at hcount
  exact BitVec.eq_of_toNat_eq (hcount.trans (h.balanced.count p hp).symm)

/-- env_free gives the pages of the address space back. -/
theorem Serving.envFree (h₀ : Origin m s₀) (h : Serving m s₀ s L fl efl taken) (hl : Live s e) :
    Returns (Jos.envFree e) s fun _ t =>
      (∃ L' fl' efl', Serving m s₀ t L' fl' efl' taken) ∧ GivesBack s t (taken e) := by
  have hsys := h.orderly.system
  obtain ⟨d, hd, -⟩ := hsys.env_dir hl
  have hdm := hsys.env_mem hl hd
  have hne : d ≠ s.kernPgdir := fun hk => hsys.env_ne e hl (hk ▸ hd)
  obtain ⟨⟨⟩, t, hrun, ⟨fl', ht⟩, hspare, hn⟩ := hsys.envFree hl hd
  have hcount : ∀ p < s.npages, ¬ Owns s d p → (t.pages p).ppRef = (s.pages p).ppRef :=
    fun p hp hno => hsys.freed_count ht hspare hdm hne hn hp hno
  have hkept : ∀ d' ∈ L.dirs, d' ≠ d → SpaceKept s t d' :=
    fun d' hd' hdd => hspare.spaceKept hsys.balanced hd' hdd
  have hheld : HeldKept s t L := by
    intro p hp hpheld
    rw [hcount p hp fun ho => hpheld (h.orderly.unheld h₀ hdm hne ho)]
  have hot : Orderly m s₀ t (L.dropDir d) fl' (e :: efl) := by
    refine h.orderly.next ht hn (hkept _ hsys.mem_kern (Ne.symm hne)) hheld ?_
    refine h.orderly.apart.of_kept (fun _ hm => (Ledger.mem_dirs_dropDir.mp hm).2) fun d' hm => ?_
    exact hkept d' (Ledger.mem_dirs_dropDir.mp hm).2 (Ledger.mem_dirs_dropDir.mp hm).1
  obtain ⟨-, -, henvs⟩ := envFree_effect hrun
  have hlive : ∀ e', Live t e' → e' ≠ e := by
    rintro e' hl' rfl
    apply hl'.2
    rw [henvs, Function.update_self]
  refine ⟨(), t, hrun,
    ⟨_, _, _, h.same hot (fun e' hl' => ?_) (fun e' hl' => ?_) fun e' d' hl' hd' => ?_⟩, ?_⟩
  · have hee := hlive e' hl'
    rwa [Live, henvs, Function.update_of_ne hee] at hl'
  · rw [henvs, Function.update_of_ne (hlive e' hl')]
  · have hm := ht.env_mem hl' hd'
    exact hkept d' (Ledger.mem_dirs_dropDir.mp hm).2 (Ledger.mem_dirs_dropDir.mp hm).1
  -- a page of the environment has no other use
  have hzero : ∀ p, Owns s d p → p < s.npages ∧ (t.pages p).ppRef = 0 := by
    intro p ho
    obtain ⟨hp, -⟩ := hsys.balanced.owns_used hdm ho
    refine ⟨hp, ?_⟩
    by_contra hused
    rcases (ht.referenced_iff (hot.bare h₀) (hn ▸ hp)).mp hused with hh | hk | ⟨d', hm, hdk, ho'⟩
    · exact hh (h.orderly.unheld h₀ hdm hne ho)
    · exact hsys.owns_not_kern hdm hne ho (h.orderly.kernOwns.mpr (hot.kernOwns.mp hk))
    · obtain ⟨hdd, hd'⟩ := Ledger.mem_dirs_dropDir.mp hm
      exact hsys.owns_disjoint h.orderly.apart hdm hd' (Ne.symm hdd) ho ((hkept d' hd' hdd).owns.mp ho')
  have htaken := h.taken e d hl hd
  refine ⟨⟨fl', ht.balanced.chain, ht.balanced.chain.nodup⟩, fun p => ?_, fun p hp hfree => ?_,
    fun p hp => ?_, fun p hp hno => ?_⟩
  · rw [ht.balanced.onFreeList_iff, ht.balanced.mem_free, hsys.balanced.onFreeList_iff,
      hsys.balanced.mem_free, htaken, hn]
    constructor
    · rintro ⟨hp, h0, hloose⟩
      by_cases ho : Owns s d p
      · exact Or.inr ho
      · exact Or.inl ⟨hp, hcount p hp ho ▸ h0, hloose⟩
    · rintro (⟨hp, h0, hloose⟩ | ho)
      · have hno : ¬ Owns s d p := fun ho => hsys.balanced.owns_ref hdm ho h0
        exact ⟨hp, (hcount p hp hno).trans h0, hloose⟩
      · refine ⟨(hzero p ho).1, (hzero p ho).2, fun hloose => ?_⟩
        exact hsys.balanced.owns_ref hdm ho (hsys.balanced.loose p hloose).2
  · have ho := (htaken p).mp hp
    exact hsys.balanced.owns_ref hdm ho (hsys.balanced.free_ref (hsys.balanced.onFreeList_iff.mp hfree))
  · exact (hzero p ((htaken p).mp hp)).2
  · exact hcount p hp fun ho => hno ((htaken p).mpr ho)

/-! The pages taken, call by call. -/

namespace SysCall

variable {c : SysCall}

theorem takes_own (h : c.OnBehalfOf s e) (hl : Live s e) : c.takes s t taken e = inUse s t (taken e) := by
  rw [takes, if_pos h, if_pos hl]

theorem takes_new (h : c.OnBehalfOf s e) (hl : ¬ Live s e) : c.takes s t taken e = inUse s t ∅ := by
  rw [takes, if_pos h, if_neg hl]

theorem takes_other (h : ¬ c.OnBehalfOf s e) : c.takes s t taken e = taken e := if_neg h

theorem takes_none (h : ∀ e, ¬ c.OnBehalfOf s e) : c.takes s t taken = taken := by
  funext e
  exact takes_other (h e)

end SysCall

namespace Serving

variable {c : SysCall}

theorem retake (h : Serving m s₀ s L fl efl taken) (heq : ∀ e, Live s e → taken' e = taken e) :
    Serving m s₀ s L fl efl taken' := by
  refine ⟨h.orderly, fun e d hl hd p => ?_⟩
  rw [heq e hl, h.taken e d hl hd p]

theorem inUse_self (h : Serving m s₀ s L fl efl taken) (hl : Live s e) : inUse s s (taken e) = taken e := by
  obtain ⟨d, hd, -⟩ := h.orderly.system.env_dir hl
  have hdm := h.orderly.system.env_mem hl hd
  ext p
  constructor
  · rintro ⟨-, hused, hp | h0⟩
    · exact hp
    · exact absurd h0 hused
  · intro hp
    have ho := (h.taken e d hl hd p).mp hp
    have hb := h.orderly.system.balanced
    exact ⟨(hb.owns_used hdm ho).1, hb.owns_ref hdm ho, Or.inl hp⟩

theorem idle (h : Serving m s₀ s L fl efl taken) (c : SysCall) :
    Serving m s₀ s L fl efl (c.takes s s taken) := by
  refine h.retake fun e hl => ?_
  by_cases hon : c.OnBehalfOf s e
  · rw [SysCall.takes_own hon hl, h.inUse_self hl]
  · exact SysCall.takes_other hon

theorem envRun (h : Serving m s₀ s L fl efl taken) (hl : Live s e) (hrun : Jos.envRun e s = .ok () t) :
    Serving m s₀ t L fl efl taken := by
  obtain ⟨-, -, henvs⟩ := envRun_effect hrun
  have hkeep := envRun_keeps e _ _ _ hrun
  simp only [Kernel.pagePart, Prod.mk.injEq] at hkeep
  obtain ⟨hn, hp, -, hm, -⟩ := hkeep
  refine h.congr (h.orderly.system.envRun hl hrun) hm hn rfl (fun x => by rw [hp]) ?_ ?_
  · intro i hi
    by_cases hie : i = e
    · exact hie ▸ hl
    · rw [Live, henvs, Function.update_of_ne hie, preempt_envs] at hi
      by_cases hr : s.curenv = some i ∧ (s.envs i).envStatus = .running
      · refine ⟨hi.1, fun hfree => ?_⟩
        rw [hr.2] at hfree
        cases hfree
      · rwa [if_neg hr] at hi
  · intro i _
    rw [henvs]
    by_cases hie : i = e
    · simp [hie, preempt_envs]
    · simp [hie, preempt_envs]

theorem userStore {j : Nat} {w : Word} (h : Serving m s₀ s L fl efl taken) (hp : IsData s L p) :
    Serving m s₀ (s.store p j w) L fl efl taken := by
  have hsys := h.orderly.system
  have hkept : ∀ d ∈ L.dirs, SpaceKept s (s.store p j w) d :=
    fun d hd => hsys.balanced.spaceKept_storeData hp hd j w
  have ht := h.orderly.next (hsys.storeData hp j w) rfl (hkept _ hsys.mem_kern) (HeldKept.of_pages rfl)
    (h.orderly.apart.of_kept (fun _ hd => hd) hkept)
  exact h.same ht (fun _ hl => hl) (fun _ _ => rfl) fun e d hl hd => hkept d (hsys.env_mem hl hd)

/-- Every call of a run keeps the account. -/
theorem call (h₀ : Origin m s₀) (h : Serving m s₀ s L fl efl taken) (hc : c.Legal m s)
    (hserves : c.Serves s taken) (hrun : c.exec s = .ok () t) :
    ∃ L' fl' efl', Serving m s₀ t L' fl' efl' (c.takes s t taken) := by
  have hsys := h.orderly.system
  cases c with
  | pageAlloc allocFlags =>
    rw [SysCall.takes_none (c := .pageAlloc allocFlags) fun _ hon => hon]
    obtain ⟨_, u, halloc, hpure⟩ := bind_eq_ok.mp hrun
    obtain ⟨-, rfl⟩ := pure_eq_ok.mp hpure
    rcases pageAlloc_spec allocFlags hsys.balanced with ⟨rfl, hok⟩ | ⟨p, fl', rfl, hok, -⟩
    · rw [hok] at halloc
      cases halloc
      exact ⟨L, [], efl, h⟩
    · rw [hok] at halloc
      cases halloc
      exact ⟨_, _, _, h.handOut allocFlags⟩
  | pageFree pp =>
    rw [SysCall.takes_none (c := .pageFree pp) fun _ hon => hon]
    obtain ⟨ha, hr⟩ := hc
    have hf := hsys.notMem_free ha
    have hloose : pp ∈ L.loose := by
      by_contra hl
      exact hf ((hsys.balanced.mem_free pp).mpr ⟨ha.1, hr, hl⟩)
    have hok : Jos.pageFree pp s = .ok () (s.push pp) :=
      pageFree_ok hr (hsys.balanced.link_null pp ha.1 hf)
    rw [SysCall.exec, hok] at hrun
    cases hrun
    exact ⟨_, _, _, h.congr (hsys.pushed hloose) rfl rfl rfl (fun x => Kernel.ppRef_push) (fun _ hl => hl)
      fun _ _ => rfl⟩
  | pageInsert pgdir pp va perm =>
    obtain ⟨hd, ha, hdata, hva, hperm, hcount⟩ := hc
    obtain ⟨e, hl, hde, hfrom⟩ := hserves
    obtain ⟨_, u, hins, hpure⟩ := bind_eq_ok.mp hrun
    obtain ⟨-, rfl⟩ := pure_eq_ok.mp hpure
    have hdm := (hsys.dirs pgdir).mpr hd
    have hdata := hsys.isData_iff.mpr hdata
    have hf := hsys.notMem_free ha
    rw [lt_utop_iff] at hva
    rcases pageInsert_spec hsys.balanced hdm hva ha.1 hf hcount perm with
      ⟨-, -, hok⟩ | ⟨q, s₁, fl₁, hready, hok⟩
    · rw [hok] at hins
      cases hins
      exact ⟨L, fl, efl, h.idle _⟩
    · rw [hok] at hins
      cases hins
      obtain ⟨fl', hs⟩ := h.inserted h₀ hl hde ha hdata hva hperm hcount hfrom hready
        (SysCall.takes_own (c := .pageInsert pgdir pp va perm) ⟨hl, hde⟩ hl) fun e' he =>
          SysCall.takes_other fun hon => he (hsys.env_inj e' e pgdir hon.1 hl hon.2 hde)
      exact ⟨_, fl', efl, hs⟩
  | pageRemove pgdir va =>
    obtain ⟨hd, hva⟩ := hc
    obtain ⟨e, hl, hde⟩ := hserves
    have hdm := (hsys.dirs pgdir).mpr hd
    rw [lt_utop_iff] at hva
    rcases pageRemove_spec hsys.balanced hdm hva with ⟨-, hok⟩ | ⟨q, p, ht, hp, hok⟩
    · rw [SysCall.exec, hok] at hrun
      cases hrun
      exact ⟨L, fl, efl, h.idle _⟩
    · rw [SysCall.exec, hok] at hrun
      cases hrun
      obtain ⟨fl', hs⟩ := h.unmapped h₀ hl hde hva ht hp
        (SysCall.takes_own (c := .pageRemove pgdir va) ⟨hl, hde⟩ hl) fun e' he =>
          SysCall.takes_other fun hon => he (hsys.env_inj e' e pgdir hon.1 hl hon.2 hde)
      exact ⟨_, fl', efl, hs⟩
  | envAlloc newenvStore parentId =>
    obtain ⟨_, u, halloc, hpure⟩ := bind_eq_ok.mp hrun
    obtain ⟨-, rfl⟩ := pure_eq_ok.mp hpure
    rcases hsys.envAlloc newenvStore parentId with ⟨r, -, -, hok⟩ | ⟨e, efl', p, fl', rfl, rfl, hok⟩
    · rw [hok] at halloc
      cases halloc
      exact ⟨L, fl, efl, h.idle _⟩
    · rw [hok] at halloc
      cases halloc
      have hhead : s.envFreeList = some e := hsys.envs.chain.head_eq
      refine ⟨_, _, _, h.envAlloc parentId
        (SysCall.takes_new (c := .envAlloc newenvStore parentId) hhead fun hl => ?_) fun e' hl' =>
          SysCall.takes_other fun hon => ?_⟩
      · exact hl.2 ((hsys.envs.mem_free e).mp List.mem_cons_self).2
      · cases hhead.symm.trans hon
        exact hl'.2 ((hsys.envs.mem_free e).mp List.mem_cons_self).2
  | envCreate binary type =>
    obtain ⟨e, efl', p, fl', u, rfl, rfl, hu, -, -, -, -, hload⟩ := envCreate_eq_ok hsys hrun
    have hhead : s.envFreeList = some e := hsys.envs.chain.head_eq
    have hfree : ¬ Live s e := fun hl => hl.2 ((hsys.envs.mem_free e).mp List.mem_cons_self).2
    obtain ⟨fl₁, hs⟩ := h.envCreate h₀ hu hc hload
      (SysCall.takes_new (c := .envCreate binary type) hhead hfree) fun e' hl' =>
        SysCall.takes_other fun hon => by
          cases hhead.symm.trans hon
          exact hfree hl'
    exact ⟨_, fl₁, efl', hs⟩
  | envRun e =>
    rw [SysCall.takes_none (c := .envRun e) fun _ hon => hon]
    exact ⟨L, fl, efl, h.envRun hc hrun⟩
  | envFree e =>
    rw [SysCall.takes_none (c := .envFree e) fun _ hon => hon]
    exact ((h.envFree h₀ hc).ensures () t hrun).1
  | userStore va b =>
    rw [SysCall.takes_none (c := .userStore va b) fun _ hon => hon]
    obtain ⟨e, -, hl, hd, hw⟩ := hc
    have hdm := hsys.env_mem hl hd
    have hva := hsys.userCanWrite_lt hdm hw
    obtain ⟨x, hx, -, rfl⟩ := storeByte_eq_ok hrun
    have hp := (hwWalk_eq_some.mp hx).1
    obtain ⟨hdata, -⟩ := hsys.data _ hdm _ hva _ (ptx_lt va) _ hp
    exact ⟨L, fl, efl, h.userStore hdata⟩

end Serving

theorem ServiceRun.serving {mem : Nat → Nat → Word} (h : ServiceRun m mem s₀ s taken) :
    Origin m s₀ ∧ ∃ L fl efl, Serving m s₀ s L fl efl taken := by
  induction h with
  | start hm hi =>
    have h₀ := Origin.of_start hm hi
    obtain ⟨fl, efl, ho⟩ := h₀.orderly
    exact ⟨h₀, _, fl, efl, ho, fun e _ hl => absurd hl (h₀.free e)⟩
  | call hrun hc hserves hcall ih =>
    obtain ⟨h₀, L, fl, efl, hs⟩ := ih
    exact ⟨h₀, hs.call h₀ hc hserves hcall⟩

theorem Orderly.used_iff (h₀ : Origin m s₀) (h : Orderly m s₀ s L fl efl) (hnone : ∀ e, ¬ Live s e)
    (hp : p < s.npages) : (s.pages p).ppRef ≠ 0 ↔ (bootLedger m kernOwn).held p ≠ 0 ∨ KernOwns s₀ p := by
  rw [h.system.referenced_iff (h.bare h₀) hp, h.system.held, h.kernOwns]
  constructor
  · rintro (hheld | hkern | ⟨d, hd, hne, -⟩)
    · exact Or.inl hheld
    · exact Or.inr hkern
    · rcases (h.system.dirs d).mp hd with hk | ⟨e, hl, -⟩
      · exact absurd hk hne
      · exact absurd hl (hnone e)
  · rintro (hheld | hkern)
    · exact Or.inl hheld
    · exact Or.inr (Or.inl hkern)

theorem Orderly.settled (h₀ : Origin m s₀) (h : Orderly m s₀ s L fl efl) (hnone : ∀ e, ¬ Live s e)
    (hhand : ∀ p, ¬ InHand s p) (p : Nat) : s.OnFreeList p ↔ s₀.OnFreeList p := by
  obtain ⟨fl₀, efl₀, hstart₀⟩ := h₀.orderly
  have hstart : s₀.OnFreeList p ↔ p < s₀.npages ∧ (s₀.pages p).ppRef = 0 := by
    rw [hstart₀.system.balanced.onFreeList_iff, hstart₀.system.balanced.mem_free]
    exact ⟨fun hm => ⟨hm.1, hm.2.1⟩, fun hm => ⟨hm.1, hm.2, Finset.notMem_empty p⟩⟩
  have hend : s.OnFreeList p ↔ p < s.npages ∧ (s.pages p).ppRef = 0 := by
    constructor
    · intro hf
      have hm := (h.system.balanced.mem_free p).mp (h.system.balanced.onFreeList_iff.mp hf)
      exact ⟨hm.1, hm.2.1⟩
    · rintro ⟨hp, hr⟩
      by_contra hf
      exact hhand p ⟨hp, hr, hf⟩
  rw [hstart, hend, h.npages]
  refine and_congr_right fun hp => ?_
  have hused := h.used_iff h₀ hnone (h.npages ▸ hp)
  have hused₀ := hstart₀.used_iff h₀ h₀.free hp
  exact not_iff_not.mp (hused.trans hused₀.symm)

/-- What env_free gives back after a run. -/
structure ServiceSound (s₀ s : Kernel) (taken : Nat → Set Nat) : Prop where
  /-- exactly the pages taken on the environment's behalf -/
  free : ∀ e, Live s e → Returns (Jos.envFree e) s fun _ t => GivesBack s t (taken e)
  /-- no page was taken for two environments -/
  apart : ∀ e e', Live s e → Live s e' → e ≠ e' → ∀ p ∈ taken e, p ∉ taken e'
  /-- with every environment freed, and no page in a caller's hands, all are free that were at first -/
  settled : (∀ e, ¬ Live s e) → (∀ p, ¬ InHand s p) → ∀ p, s.OnFreeList p ↔ s₀.OnFreeList p

/-- For every run in which pages are mapped for one environment each. -/
theorem serviceRun_givesBack {mem : Nat → Nat → Word} (h : ServiceRun m mem s₀ s taken) :
    ServiceSound s₀ s taken := by
  obtain ⟨h₀, L, fl, efl, hs⟩ := h.serving
  refine ⟨fun e hl => ?_, fun e e' hl hl' hne p hp hp' => ?_, hs.orderly.settled h₀⟩
  · exact (hs.envFree h₀ hl).mono fun _ _ hq => hq.2
  · obtain ⟨d, hd, -⟩ := hs.orderly.system.env_dir hl
    obtain ⟨d', hd', -⟩ := hs.orderly.system.env_dir hl'
    have hdd : d ≠ d' := by
      rintro rfl
      exact hne (hs.orderly.system.env_inj e e' d hl hl' hd hd')
    exact hs.orderly.system.owns_disjoint hs.orderly.apart (hs.orderly.system.env_mem hl hd)
      (hs.orderly.system.env_mem hl' hd') hdd ((hs.taken e d hl hd p).mp hp)
      ((hs.taken e' d' hl' hd' p).mp hp')

/-- What env_create takes for an environment on the small machine: a directory, a page for the stack, and the
table between them. -/
theorem serviceRun_givesBack_smallMachine : ∃ s₀ s taken e d x, Live s e ∧
    (s.envs e).envPgdir = some d ∧ hwWalk s.mem d (ustacktop - 1) = some x ∧
    d ∈ taken e ∧ (∃ q ∈ taken e, target (s.pde d (pdx (ustacktop - 1))) = some q) ∧ x.page ∈ taken e ∧
    ServiceSound s₀ s taken := by
  obtain ⟨m₀, s₀, s, e, d, hm, hi, hbelow, hcreate, hl, hd, hstack⟩ := bareEnv_smallMachine
  have hservice := ServiceRun.call (c := .envCreate bareImage .user) (.start hm hi) hbelow trivial hcreate
  obtain ⟨h₀, L, fl, efl, hs⟩ := hservice.serving
  obtain ⟨x, hx, -⟩ := hstack (ustacktop - 1) (by decide) (by decide)
  have hpage := (hwWalk_eq_some.mp hx).1
  have hown : ∀ q, Owns s d q → q ∈ _ := fun q hq => (hs.taken e d hl hd q).mpr hq
  obtain ⟨q, hq⟩ : ∃ q, target (s.pde d (pdx (ustacktop - 1))) = some q := by
    cases hq : target (s.pde d (pdx (ustacktop - 1))) with
    | some q => exact ⟨q, rfl⟩
    | none =>
      rw [Kernel.pte_of_no_table hq, target_zero] at hpage
      cases hpage
  refine ⟨s₀, s, _, e, d, x, hl, hd, hx, hown d (.inl rfl), ⟨q, hown q (.inr (.inl ⟨_, by decide, hq⟩)), hq⟩,
    hown _ (.inr (.inr ⟨pgnum (ustacktop - 1), by decide, ?_⟩)), serviceRun_givesBack hservice⟩
  rw [System.entry_pgnum]
  exact hpage

end calls

end Jos
