import Jos.Kern.Load
import Jos.Kern.SharedPages

/-! Runs of the whole kernel from mem_init and env_init on: page calls, environment calls, and the
stores of user programs. -/
namespace Jos

open Prog

/-- The page holds a page directory or a page table. -/
def InTables (s : Kernel) (p : Nat) : Prop :=
  Directory s p ∨ ∃ d, Directory s d ∧ ∃ i < 1024, i ≠ pdx uvpt ∧ target (s.pde d i) = some p

inductive SysCall where
  | pageAlloc (allocFlags : Word)
  | pageFree (pp : Nat)
  | pageInsert (pgdir pp : Nat) (va perm : Word)
  | pageRemove (pgdir : Nat) (va : Word)
  | envAlloc (newenvStore : Option Nat) (parentId : Word)
  | envCreate (binary : Binary) (type : EnvType)
  | envRun (e : Nat)
  | envFree (e : Nat)
  | userStore (va : Word) (b : Byte)

namespace SysCall

def exec : SysCall → Kern Unit
  | .pageAlloc allocFlags => do
    let _ ← Jos.pageAlloc allocFlags
  | .pageFree pp => Jos.pageFree pp
  | .pageInsert pgdir pp va perm => do
    let _ ← Jos.pageInsert pgdir pp va perm
  | .pageRemove pgdir va => Jos.pageRemove pgdir va
  | .envAlloc newenvStore parentId => do
    let _ ← Jos.envAlloc newenvStore parentId
  | .envCreate binary type => Jos.envCreate binary type
  | .envRun e => Jos.envRun e
  | .envFree e => Jos.envFree e
  | .userStore va b => storeByte va b

/-- What the interfaces ask of their callers. The pages given to page_insert hold no page table,
and a user program stores where the processor lets it. -/
def Legal (m : Machine) (s : Kernel) : SysCall → Prop
  | .pageAlloc _ => True
  | .pageFree pp => Allocated m s pp ∧ (s.pages pp).ppRef = 0
  | .pageInsert pgdir pp va perm => Directory s pgdir ∧ Allocated m s pp ∧ ¬ InTables s pp ∧
      va < utop ∧ perm.toNat < 4096 ∧ CountFits s pp
  | .pageRemove pgdir va => Directory s pgdir ∧ va < utop
  | .envAlloc _ _ => True
  | .envCreate binary _ => binary.BelowUtop
  | .envRun e => Live s e
  | .envFree e => Live s e
  | .userStore va _ => ∃ e, s.curenv = some e ∧ Live s e ∧ (s.envs e).envPgdir = some s.cr3 ∧
      UserCanWrite s.mem s.cr3 va

end SysCall

/-- The states reached from env_init by legal calls that return. -/
inductive SysRun (m : Machine) (mem : Nat → Nat → Word) : Kernel → Prop
  | start {s t : Kernel} : memInit m (bss mem) = .ok () s → envInit s = .ok () t → SysRun m mem t
  | call {s t : Kernel} {c : SysCall} : SysRun m mem s → c.Legal m s → c.exec s = .ok () t →
      SysRun m mem t

section steps

variable {m : Machine} {mem : Nat → Nat → Word} {s t : Kernel} {L : Ledger} {fl efl : List Nat}
  {d e p pp : Nat} {va perm flags : Word} {c : SysCall} {bin : Binary} {type : EnvType} {st : Option Nat}
  {parent : Word} {b : Byte}

namespace System

theorem isData_iff (h : System m s L fl efl) : IsData s L p ↔ ¬ InTables s p := by
  constructor
  · rintro ⟨hdir, htab⟩ (hd | ⟨d, hd, i, hi, hne, ht⟩)
    · exact hdir ((h.dirs p).mpr hd)
    · have hown : i ∈ kernOwn := mem_kernOwn.mpr ⟨hi, by rwa [pdx_uvpt] at hne⟩
      have hdm := (h.dirs d).mpr hd
      by_cases hu : 955 ≤ i
      · rw [h.upper d hdm i hown hu] at ht
        exact htab _ h.mem_kern i (h.own_kern ▸ hown) ht
      · exact htab d hdm i (h.balanced.own_user d hdm i (by omega)) ht
  · intro hn
    refine ⟨fun hd => hn (Or.inl ((h.dirs p).mp hd)), fun d hd i hi ht => hn (Or.inr ?_)⟩
    have hown := mem_kernOwn.mp (h.own_sub hd hi)
    exact ⟨d, (h.dirs d).mp hd, i, hown.1, by rw [pdx_uvpt]; exact hown.2, ht⟩

theorem held_zero (h : System m s L fl efl) (ha : Allocated m s p) (hp : p ∉ L.dirs) : L.held p = 0 := by
  rw [h.held]
  apply if_neg
  rintro ⟨hr, -⟩
  exact hp (ha.2.2 hr ▸ h.mem_kern)

theorem notMem_free (h : System m s L fl efl) (ha : Allocated m s p) : p ∉ fl :=
  fun hm => ha.2.1 (h.balanced.onFreeList_iff.mpr hm)

/-- A new environment maps nothing below UTOP. -/
theorem allocated_empty (h : System m s L (p :: fl) (e :: efl)) (parent : Word) {v : Nat}
    (hv : v < 955 * 1024) : ((s.setupVm e p).fillSlot e parent).entry p v = 0#32 := by
  have hne : p ≠ s.kernPgdir := by
    rintro rfl
    exact h.balanced.free_dir (by simp) h.mem_kern
  apply Kernel.pte_of_no_table
  have hpde : ((s.setupVm e p).fillSlot e parent).pde p (v / 1024) = (s.setupVm e p).mem p (v / 1024) :=
    rfl
  rw [hpde, mem_setupVm hne, pdx_uvpt, pdx_utop, if_pos ⟨rfl, by omega⟩, if_neg (by omega),
    if_neg (by omega), target_zero]

theorem allocated_live (h : System m s L (p :: fl) (e :: efl)) (parent : Word) :
    Live ((s.setupVm e p).fillSlot e parent) e ∧
      (((s.setupVm e p).fillSlot e parent).envs e).envPgdir = some p := by
  have henvs := fillSlot_envs s e p parent
  have hlt : e < nenv := ((h.envs.mem_free e).mp (by simp)).1
  rw [Live, henvs, Function.update_self]
  exact ⟨⟨hlt, by simp [newEnv]⟩, rfl⟩

end System

/-- Setting fields of a live environment other than its status and its directory. -/
theorem System.setEnv {x : Env} (h : System m s L fl efl) (hlink : x.envLink = (s.envs e).envLink)
    (hid : x.envId = (s.envs e).envId) (hst : x.envStatus = (s.envs e).envStatus)
    (hdir : x.envPgdir = (s.envs e).envPgdir) : System m (s.setEnv e x) L fl efl := by
  have hsame : ∀ i, ((s.setEnv e x).envs i).envLink = (s.envs i).envLink ∧
      ((s.setEnv e x).envs i).envId = (s.envs i).envId ∧
      ((s.setEnv e x).envs i).envStatus = (s.envs i).envStatus ∧
      ((s.setEnv e x).envs i).envPgdir = (s.envs i).envPgdir := by
    intro i
    by_cases hi : i = e
    · subst hi
      simp [Kernel.setEnv, hlink, hid, hst, hdir]
    · simp [Kernel.setEnv, hi]
  have htable : EnvTable (s.setEnv e x) efl := by
    refine ⟨?_, ?_, ?_, ?_, h.envs.curenv_lt⟩
    · exact h.envs.chain.congr fun i _ => (hsame i).1
    · intro i
      rw [(hsame i).2.2.1]
      exact h.envs.mem_free i
    · intro i hi hm
      rw [(hsame i).2.1, (hsame i).2.2.2]
      exact h.envs.live i hi hm
    · intro i hi hr
      rw [(hsame i).2.2.1] at hr
      exact h.envs.running i hi hr
  refine h.congr htable rfl rfl rfl rfl rfl ?_ fun i _ => (hsame i).2.2.2
  intro i
  rw [Live, Live, (hsame i).2.2.1]

/-- env_create, given a slot and a page. -/
theorem System.envCreate_eq (h : System m s L (p :: fl) (e :: efl)) : envCreate bin type s =
    Jos.loadIcode e bin (((s.setupVm e p).fillSlot e 0).setEnv e
      { newEnv (s.envs e) e p 0 with envType := type }) := by
  have hrun : Jos.envAlloc none 0 s = .ok (0, some e) ((s.setupVm e p).fillSlot e 0) :=
    envAlloc_ok h.envs.chain.head_eq h.balanced.head_eq (h.balanced.free_lt (by simp)) h.balanced.npages_le
  have henvs := fillSlot_envs s e p 0
  rw [envCreate, bind_ok hrun]
  change (check _ _ >>= _) _ = _
  rw [bind_ok (check_true (le_refl _) _), modifyEnv, bind_ok (update_apply _ _), henvs,
    Function.update_self]
  rfl

/-- The environment env_create has set up before it loads the binary. -/
theorem System.created (h : System m s L (p :: fl) (e :: efl)) (type : EnvType) {u : Kernel}
    (hu : u = ((s.setupVm e p).fillSlot e 0).setEnv e { newEnv (s.envs e) e p 0 with envType := type }) :
    System m u (L.addDir p) fl efl ∧ Live u e ∧ (u.envs e).envPgdir = some p ∧
      ∀ v < 955 * 1024, u.entry p v = 0#32 := by
  subst hu
  have hsys := h.allocated (0 : Word)
  have henvs := fillSlot_envs s e p 0
  have hlt : e < nenv := ((h.envs.mem_free e).mp (by simp)).1
  refine ⟨?_, ⟨hlt, ?_⟩, ?_, fun v hv => h.allocated_empty (0 : Word) hv⟩
  · apply hsys.setEnv <;> rw [henvs, Function.update_self]
  · simp [Kernel.setEnv, newEnv]
  · simp [Kernel.setEnv, newEnv]

/-- What env_create has done before it loads the binary. -/
theorem envCreate_eq_ok (h : System m s L fl efl) (hrun : envCreate bin type s = .ok () t) :
    ∃ e efl' p fl' u, efl = e :: efl' ∧ fl = p :: fl' ∧
      u = ((s.setupVm e p).fillSlot e 0).setEnv e { newEnv (s.envs e) e p 0 with envType := type } ∧
      System m u (L.addDir p) fl' efl' ∧ Live u e ∧ (u.envs e).envPgdir = some p ∧
      (∀ v < 955 * 1024, u.entry p v = 0#32) ∧ loadIcode e bin u = .ok () t := by
  rcases h.envAlloc none 0 with ⟨r, -, -, hfail⟩ | ⟨e, efl', p, fl', rfl, rfl, -⟩
  · rw [envCreate, bind_ok hfail] at hrun
    exact absurd hrun stop_ne_ok
  · rw [h.envCreate_eq] at hrun
    obtain ⟨hsys, hl, hd, hempty⟩ := h.created type rfl
    exact ⟨e, efl', p, fl', _, rfl, rfl, rfl, hsys, hl, hd, hempty, hrun⟩

/-- The part of the state that env_run leaves alone. -/
def Kernel.pagePart (s : Kernel) :
    Nat × (Nat → PageInfo) × Option Nat × (Nat → Nat → Word) × Nat :=
  (s.npages, s.pages, s.pageFreeList, s.mem, s.kernPgdir)

theorem envRun_keeps (e : Nat) : Keeps Kernel.pagePart (envRun e) := by
  refine Keeps.bind (keeps_update fun s => ?_) fun _ => Keeps.bind (keeps_update fun _ => rfl) fun _ =>
    Keeps.bind (keeps_update fun _ => rfl) fun _ => Keeps.bind (keeps_update fun _ => rfl) fun _ =>
      (envPgdirPa_observes e).keeps.bind fun _ => keeps_update fun _ => rfl
  unfold Kernel.preempt
  split
  · rfl
  · split <;> rfl

/-- env_run changes the environment table and the loaded directory only. -/
theorem System.envRun (h : System m s L fl efl) (hl : Live s e) (hrun : Jos.envRun e s = .ok () t) :
    System m t L fl efl := by
  obtain ⟨-, -, henvs⟩ := envRun_effect hrun
  have hkeep := envRun_keeps e _ _ _ hrun
  simp only [Kernel.pagePart, Prod.mk.injEq] at hkeep
  obtain ⟨hn, hp, hf, hm, hk⟩ := hkeep
  refine h.congr (h.envs.ran hl hrun) hn hp hf hm hk ?_ ?_
  · intro i
    by_cases hi : i = e
    · subst hi
      simp [Live, henvs, hl.1, hl.2]
    · rw [Live, Live, henvs, Function.update_of_ne hi, preempt_envs]
      by_cases hr : s.curenv = some i ∧ (s.envs i).envStatus = .running
      · simp [hr]
      · simp [hr]
  · intro i _
    by_cases hi : i = e
    · simp [henvs, hi, preempt_envs]
    · simp [henvs, hi, preempt_envs]

/-- Every legal call that returns keeps the address spaces in order. -/
theorem System.call (h : System m s L fl efl) (hc : c.Legal m s) (hrun : c.exec s = .ok () t) :
    ∃ L' fl' efl', System m t L' fl' efl' := by
  cases c with
  | pageAlloc allocFlags =>
    obtain ⟨_, u, halloc, hpure⟩ := bind_eq_ok.mp hrun
    obtain ⟨-, rfl⟩ := pure_eq_ok.mp hpure
    rcases pageAlloc_spec allocFlags h.balanced with ⟨rfl, hok⟩ | ⟨p, fl', rfl, hok, -⟩
    · rw [hok] at halloc
      cases halloc
      exact ⟨L, [], efl, h⟩
    · rw [hok] at halloc
      cases halloc
      exact ⟨_, _, _, h.handOut allocFlags⟩
  | pageFree pp =>
    obtain ⟨ha, hr⟩ := hc
    have hf := h.notMem_free ha
    have hloose : pp ∈ L.loose := by
      by_contra hl
      exact hf ((h.balanced.mem_free pp).mpr ⟨ha.1, hr, hl⟩)
    have hok : Jos.pageFree pp s = .ok () (s.push pp) :=
      pageFree_ok hr (h.balanced.link_null pp ha.1 hf)
    rw [SysCall.exec, hok] at hrun
    cases hrun
    exact ⟨_, _, _, h.pushed hloose⟩
  | pageInsert pgdir pp va perm =>
    obtain ⟨hd, ha, hdata, hva, hperm, hcount⟩ := hc
    obtain ⟨_, u, hins, hpure⟩ := bind_eq_ok.mp hrun
    obtain ⟨-, rfl⟩ := pure_eq_ok.mp hpure
    have hdm := (h.dirs pgdir).mpr hd
    have hdata := h.isData_iff.mpr hdata
    have hf := h.notMem_free ha
    rw [lt_utop_iff] at hva
    rcases pageInsert_spec h.balanced hdm hva ha.1 hf hcount perm with
      ⟨-, -, hok⟩ | ⟨q, s₁, fl₁, hready, hok⟩
    · rw [hok] at hins
      cases hins
      exact ⟨L, fl, efl, h⟩
    · rw [hok] at hins
      cases hins
      obtain ⟨fl', hsys⟩ := h.inserted hdm hva ha.1 hf hcount hperm hdata
        (h.held_zero ha hdata.1) hready
      exact ⟨_, fl', efl, hsys⟩
  | pageRemove pgdir va =>
    obtain ⟨hd, hva⟩ := hc
    have hdm := (h.dirs pgdir).mpr hd
    rw [lt_utop_iff] at hva
    rcases pageRemove_spec h.balanced hdm hva with ⟨-, hok⟩ | ⟨q, p, ht, hp, hok⟩
    · rw [SysCall.exec, hok] at hrun
      cases hrun
      exact ⟨L, fl, efl, h⟩
    · rw [SysCall.exec, hok] at hrun
      cases hrun
      exact ⟨_, _, _, h.unmapped hdm hva ht hp⟩
  | envAlloc newenvStore parentId =>
    obtain ⟨_, u, halloc, hpure⟩ := bind_eq_ok.mp hrun
    obtain ⟨-, rfl⟩ := pure_eq_ok.mp hpure
    rcases h.envAlloc newenvStore parentId with ⟨r, -, -, hok⟩ | ⟨e, efl', p, fl', rfl, rfl, hok⟩
    · rw [hok] at halloc
      cases halloc
      exact ⟨L, fl, efl, h⟩
    · rw [hok] at halloc
      cases halloc
      exact ⟨_, _, _, h.allocated parentId⟩
  | envCreate binary type =>
    obtain ⟨e, efl', p, fl', u, rfl, rfl, -, hsys, hl, hd, hempty, hload⟩ := envCreate_eq_ok h hrun
    have hsole : Sole u p := Sole.of_empty hempty
    obtain ⟨fl₁, ht, -⟩ := hsys.loadIcode hl hd hsole hc () t hload
    exact ⟨_, fl₁, efl', ht⟩
  | envRun e =>
    exact ⟨L, fl, efl, h.envRun hc hrun⟩
  | envFree e =>
    obtain ⟨d, hd, -⟩ := h.env_dir hc
    obtain ⟨⟨fl', ht⟩, -⟩ := (h.envFree hc hd).ensures () t hrun
    exact ⟨_, fl', _, ht⟩
  | userStore va b =>
    obtain ⟨e, -, hl, hd, hw⟩ := hc
    have hdm := h.env_mem hl hd
    have hva := h.userCanWrite_lt hdm hw
    obtain ⟨x, hx, -, rfl⟩ := storeByte_eq_ok hrun
    have hp := (hwWalk_eq_some.mp hx).1
    obtain ⟨hdata, -⟩ := h.data _ hdm _ hva _ (ptx_lt va) _ hp
    exact ⟨L, fl, efl, h.storeData hdata _ _⟩

/-- The address spaces are in order after every run. -/
theorem SysRun.system (h : SysRun m mem s) : ∃ L fl efl, System m s L fl efl := by
  induction h with
  | start hm hi =>
    obtain ⟨fl, efl, -, hsys, -⟩ := system_start hm hi
    exact ⟨_, fl, efl, hsys⟩
  | call hrun hc hcall ih =>
    obtain ⟨L, fl, efl, hsys⟩ := ih
    exact hsys.call hc hcall

/-- The small machine after env_init: plenty of free pages, and every slot free. -/
theorem start_smallMachine : ∃ s₀ s fl efl, memInit smallMachine (bss fun _ _ => 0) = .ok () s₀ ∧
    envInit s₀ = .ok () s ∧ System smallMachine s (bootLedger smallMachine kernOwn) fl efl ∧
    69 ≤ fl.length ∧ ∀ e < nenv, e ∈ efl := by
  obtain ⟨s₀, h₀⟩ := memInit_smallMachine fun _ _ => 0
  obtain ⟨s₁, h₁, -⟩ := envInit_returns s₀
  obtain ⟨fl, efl, hb, hsys, hfree⟩ := system_start h₀ h₁
  have hlen := hb.length roomy_smallMachine
  exact ⟨s₀, s₁, fl, efl, h₀, h₁, hsys, by omega, fun e he => (hsys.envs.mem_free e).mpr ⟨he, hfree e⟩⟩

/-- On the small machine, an environment with nothing mapped, and plenty of free pages. -/
theorem emptyEnv_smallMachine : ∃ s e d L fl efl, SysRun smallMachine (fun _ _ => 0) s ∧
    System smallMachine s L fl efl ∧ Live s e ∧ (s.envs e).envPgdir = some d ∧ 68 ≤ fl.length ∧
    ∀ v < 955 * 1024, s.entry d v = 0#32 := by
  obtain ⟨s₀, s₁, fl, efl, h₀, h₁, hsys, hlen, hslots⟩ := start_smallMachine
  have hslot : 0 ∈ efl := hslots 0 (by decide)
  rcases hsys.envAlloc none 0 with ⟨r, -, hempty, -⟩ | ⟨e, efl', p, fl', rfl, rfl, hrun⟩
  · rcases hempty with rfl | rfl
    · cases hslot
    · simp at hlen
  · have hexec : (SysCall.envAlloc none 0).exec s₁ = .ok () ((s₁.setupVm e p).fillSlot e 0) := by
      rw [SysCall.exec, bind_ok hrun]
      rfl
    obtain ⟨hlive, hdir⟩ := hsys.allocated_live 0
    refine ⟨_, e, p, _, fl', efl', SysRun.call (c := .envAlloc none 0) (.start h₀ h₁) trivial hexec,
      hsys.allocated 0, hlive, hdir, ?_, fun v hv => hsys.allocated_empty 0 hv⟩
    rw [List.length_cons] at hlen
    omega

end steps

end Jos
