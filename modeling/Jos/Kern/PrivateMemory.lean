import Jos.Kern.Isolation
import Jos.Kern.Owners
import Jos.Kern.LoadImage
import Jos.Library.Replay

/-! Each program has a memory of its own: it changes by the program's own stores only, whatever the
other environments and the kernel do in between. -/
namespace Jos

open Prog Replay

/-- What a program finds at an address: the byte, and whether it may read and write it. -/
structure Cell where
  byte : Byte
  user : Bool
  write : Bool

/-- The memory of a program, below UTOP. -/
abbrev Memory := Word → Option Cell

def Memory.put (M : Memory) (st : Word × Byte) : Memory :=
  Function.update M st.1 ((M st.1).map fun c => { c with byte := st.2 })

def Kernel.memory (s : Kernel) (d : Nat) : Memory := fun va =>
  if va < utop then (hwWalk s.mem d va).map fun x => ⟨s.pageByte x.page (pgoff va), x.user, x.write⟩ else none

/-- A call that manages environments, and the environment that was current. -/
def SpaceStep (m : Machine) (s : Kernel) (a : Option Nat × SysCall) (t : Kernel) : Prop :=
  a.1 = s.curenv ∧ a.2.ManagesEnvs ∧ a.2.Legal m s ∧ a.2.exec s = .ok () t

/-- The store, when it is the program of `e` that makes it. -/
def storeOf (e : Nat) : Option Nat × SysCall → Option (Word × Byte)
  | (c, .userStore va b) => if c = some e then some (va, b) else none
  | _ => none

/-- Environment `e` is alive in an orderly system, with its id and directory. -/
structure Resident (m : Machine) (e d : Nat) (id : Word) (s : Kernel) : Prop where
  system : ∃ L fl efl, System m s L fl efl ∧ Unshared s L
  live : Live s e
  dir : (s.envs e).envPgdir = some d
  envId : (s.envs e).envId = id

section memory

variable {m : Machine} {s t u : Kernel} {L : Ledger} {fl efl : List Nat} {c d d' e p : Nat} {va : Word}
  {b : Byte} {x : Translation} {id : Word} {call : SysCall}

theorem memory_congr (h : ∀ va, pdx va < 955 →
    hwWalk t.mem d va = hwWalk s.mem d va ∧ t.byteAt d va = s.byteAt d va) : t.memory d = s.memory d := by
  funext va
  unfold Kernel.memory
  by_cases hva : va < utop
  · obtain ⟨hwalk, hbyte⟩ := h va ((lt_utop_iff va).mp hva)
    rw [if_pos hva, if_pos hva, hwalk]
    rw [Kernel.byteAt, Kernel.byteAt, hwalk] at hbyte
    cases hx : hwWalk s.mem d va with
    | none => rfl
    | some x =>
      rw [hx, Option.map_some, Option.map_some, Option.some.injEq] at hbyte
      rw [Option.map_some, Option.map_some, hbyte]
  · rw [if_neg hva, if_neg hva]

theorem SpaceKept.memory (h : SpaceKept s t d)
    (hpages : ∀ v < 955 * 1024, ∀ q, target (s.entry d v) = some q → t.mem q = s.mem q) :
    t.memory d = s.memory d := by
  refine memory_congr fun va hva => ?_
  have hentry := h.entry (pgnum va) (System.pgnum_lt_utop hva)
  rw [System.entry_pgnum, System.entry_pgnum] at hentry
  have hwalk := hwWalk_of_entries (h.pde _ (by omega)) hentry
  refine ⟨hwalk, ?_⟩
  rw [Kernel.byteAt, hwalk, Kernel.byteAt]
  cases hx : hwWalk s.mem d va with
  | none => rfl
  | some x =>
    have hpage := (hwWalk_eq_some.mp hx).1
    rw [← System.entry_pgnum] at hpage
    rw [Option.map_some, Option.map_some, Kernel.pageByte, Kernel.pageByte,
      hpages _ (System.pgnum_lt_utop hva) _ hpage]

theorem System.memory_allocated (h : System m s L (p :: fl) (e :: efl)) (hd : d ∈ L.dirs) (parent : Word) :
    ((s.setupVm e p).fillSlot e parent).memory d = s.memory d := by
  refine (h.spaceKept_allocated hd parent).memory fun v hv q hq => ?_
  have hne : q ≠ p := by
    rintro rfl
    have hzero := h.balanced.free_ref (p := q) (by simp)
    exact h.balanced.owns_ref hd (.inr (.inr ⟨v, hv, hq⟩)) hzero
  funext j
  have hpk : p ≠ s.kernPgdir := by
    rintro rfl
    exact h.balanced.owns_ref h.mem_kern (.inl rfl) (h.balanced.free_ref (by simp))
  change (s.setupVm e p).mem q j = _
  rw [mem_setupVm hpk, if_neg fun hc => hne hc.1]

theorem System.memory_poke (h : System m s L fl efl) (hu : Unshared s L) (hd : d ∈ L.dirs)
    (hva : pdx va < 955) (hx : hwWalk s.mem d va = some x) (hd' : d' ∈ L.dirs) :
    (s.poke x.page (pgoff va) b).memory d' =
      if d' = d then (s.memory d).put (va, b) else s.memory d' := by
  have hpage := (hwWalk_eq_some.mp hx).1
  obtain ⟨hdata, -⟩ := h.data d hd _ hva _ (ptx_lt va) _ hpage
  have hwalk : ∀ va', pdx va' < 955 → hwWalk (s.poke x.page (pgoff va) b).mem d' va' = hwWalk s.mem d' va' :=
    fun va' hva' => hwWalk_of_entries (pde_storeData hdata hd')
      (pte_storeData hdata hd' (h.balanced.own_user d' hd' _ hva'))
  -- no other virtual page shows the page that is stored to
  have hsole : ∀ va' x', pdx va' < 955 → hwWalk s.mem d' va' = some x' → x'.page = x.page →
      d' = d ∧ pgnum va' = pgnum va := by
    intro va' x' hva' hx' heq
    refine hu d' hd' d hd _ (System.pgnum_lt_utop hva') _ (System.pgnum_lt_utop hva) x.page ?_ ?_
    · rw [System.entry_pgnum, ← heq]
      exact (hwWalk_eq_some.mp hx').1
    · rw [System.entry_pgnum]
      exact hpage
  funext va'
  by_cases hlow : va' < utop
  · have hva' := (lt_utop_iff va').mp hlow
    have hcell : (s.poke x.page (pgoff va) b).memory d' va' = (hwWalk s.mem d' va').map fun x' =>
        ⟨if x'.page = x.page ∧ pgoff va' = pgoff va then b else s.pageByte x'.page (pgoff va'),
          x'.user, x'.write⟩ := by
      rw [Kernel.memory, if_pos hlow, hwalk va' hva']
      simp only [pageByte_poke]
    by_cases hsame : d' = d ∧ va' = va
    · obtain ⟨rfl, rfl⟩ := hsame
      rw [hcell, if_pos rfl, Memory.put, Function.update_self, Kernel.memory, if_pos hlow, hx]
      simp
    · have hold : (s.poke x.page (pgoff va) b).memory d' va' = s.memory d' va' := by
        rw [hcell, Kernel.memory, if_pos hlow]
        cases hx' : hwWalk s.mem d' va' with
        | none => rfl
        | some x' =>
          rw [Option.map_some, Option.map_some, if_neg]
          rintro ⟨hp, hoff⟩
          obtain ⟨hdd, hpg⟩ := hsole va' x' hva' hx' hp
          exact hsame ⟨hdd, va_eq_iff.mpr ⟨hpg, hoff⟩⟩
      rw [hold]
      split
      · next hdd =>
        subst hdd
        rw [Memory.put, Function.update_of_ne fun hv => hsame ⟨rfl, hv⟩]
      · rfl
  · have hne : va' ≠ va := by
      rintro rfl
      exact hlow ((lt_utop_iff _).mpr hva)
    split
    · next hdd =>
      subst hdd
      rw [Memory.put, Function.update_of_ne hne, Kernel.memory, Kernel.memory, if_neg hlow, if_neg hlow]
    · rw [Kernel.memory, Kernel.memory, if_neg hlow, if_neg hlow]

namespace Resident

theorem of_envs {x : Env} (h : Resident m e d id s) (ht : ∃ L fl efl, System m t L fl efl ∧ Unshared t L)
    (henvs : t.envs e = x) (hst : x.envStatus ≠ .free) (hdir : x.envPgdir = (s.envs e).envPgdir)
    (hid : x.envId = (s.envs e).envId) : Resident m e d id t where
  system := ht
  live := ⟨h.live.1, henvs ▸ hst⟩
  dir := by rw [henvs, hdir, h.dir]
  envId := by rw [henvs, hid, h.envId]

/-- No call but the environment's own end takes it away, and none but its program's stores touches its
memory. -/
theorem step (h : Resident m e d id s) (hkeep : call ≠ .envFree e)
    (hstep : SpaceStep m s (s.curenv, call) t) : Resident m e d id t ∧
      t.memory d = replay (storeOf e) Memory.put [(s.curenv, call)] (s.memory d) := by
  obtain ⟨-, hm, hc, hrun⟩ := hstep
  obtain ⟨L, fl, efl, hsys, hu⟩ := h.system
  have hlive := h.live
  have hd := hsys.env_mem hlive h.dir
  obtain ⟨L', fl', efl', hsys', hu'⟩ := Unshared.call hsys hu hm hc hrun
  have hafter : ∃ L fl efl, System m t L fl efl ∧ Unshared t L := ⟨L', fl', efl', hsys', hu'⟩
  -- a slot that is given out is not `e`'s
  have hslot : ∀ {c efl₁}, efl = c :: efl₁ → e ≠ c := by
    rintro c efl₁ rfl rfl
    exact (hsys.envs.live_iff.mp hlive).2 (by simp)
  cases call with
  | envAlloc newenvStore parentId =>
    rw [replay_cons_none rfl, replay_nil]
    obtain ⟨_, u, halloc, hpure⟩ := bind_eq_ok.mp hrun
    obtain ⟨-, rfl⟩ := pure_eq_ok.mp hpure
    rcases hsys.envAlloc newenvStore parentId with ⟨r, -, -, hok⟩ | ⟨c, efl₁, p, fl₁, rfl, rfl, hok⟩
    · rw [hok] at halloc
      cases halloc
      exact ⟨h, rfl⟩
    · rw [hok] at halloc
      cases halloc
      have hother := congrFun (fillSlot_envs s c p parentId) e
      rw [Function.update_of_ne (hslot rfl)] at hother
      exact ⟨h.of_envs hafter hother hlive.2 rfl rfl, hsys.memory_allocated hd parentId⟩
  | envCreate binary type =>
    rw [replay_cons_none rfl, replay_nil]
    obtain ⟨c, efl₁, p, fl₁, u, rfl, rfl, hueq, husys, hul, hud, hempty, hload⟩ := envCreate_eq_ok hsys hrun
    have hdu : d ∈ (L.addDir p).dirs := Finset.mem_insert_of_mem hd
    have hdp : d ≠ p := by
      rintro rfl
      exact hsys.balanced.owns_ref hd (.inl rfl) (hsys.balanced.free_ref (by simp))
    have hother : t.envs e = s.envs e := by
      rw [(loadIcode_effect hload).envs, Function.update_of_ne (hslot rfl), hueq]
      simp only [Kernel.setEnv, fillSlot_envs, Function.update_of_ne (hslot rfl)]
    refine ⟨h.of_envs hafter hother hlive.2 rfl rfl, ?_⟩
    obtain ⟨fl₂, -, hr, -⟩ := husys.loadIcode hul hud (Sole.of_empty hempty) hc () t hload
    have hfirst : u.memory d = s.memory d := by
      rw [hueq]
      exact hsys.memory_allocated hd 0
    rw [← hfirst]
    exact memory_congr fun va hva => husys.byteAt_remaps hr (husys.env_mem hul hud) hdu hva
      fun hdd => absurd hdd hdp
  | envRun c =>
    rw [replay_cons_none rfl, replay_nil]
    have hmem : t.mem = s.mem := congrArg (·.2.2.2.1) (envRun_keeps c _ _ _ hrun)
    obtain ⟨-, -, henvs⟩ := envRun_effect hrun
    refine ⟨h.of_envs hafter rfl ?_ ?_ ?_, (SpaceKept.of_mem hmem).memory fun _ _ _ _ => by rw [hmem]⟩
    · by_cases he : e = c
      · simp [henvs, he]
      · rw [henvs, Function.update_of_ne he, preempt_envs]
        split
        · exact EnvStatus.noConfusion
        · exact hlive.2
    · by_cases he : e = c
      · simp [henvs, he, preempt_envs]
      · rw [henvs, Function.update_of_ne he, preempt_envs]
    · by_cases he : e = c
      · simp [henvs, he, preempt_envs]
      · rw [henvs, Function.update_of_ne he, preempt_envs]
  | envFree c =>
    rw [replay_cons_none rfl, replay_nil]
    have hne : e ≠ c := by
      rintro rfl
      exact hkeep rfl
    obtain ⟨dc, hdc, hdcm, -⟩ := hsys.env_dir hc
    have hdd : d ≠ dc := by
      rintro rfl
      exact hne (hsys.env_inj _ _ _ hlive hc h.dir hdc)
    obtain ⟨-, hspares, -⟩ := (hsys.envFree hc hdc).ensures () t hrun
    obtain ⟨-, -, henvs⟩ := envFree_effect hrun
    have hother := congrFun henvs e
    rw [Function.update_of_ne hne] at hother
    refine ⟨h.of_envs hafter hother hlive.2 rfl rfl, ?_⟩
    refine (hspares.spaceKept hsys.balanced hd hdd).memory fun v hv q hq => ?_
    exact (hspares.data q (hsys.entry_data hd hv hq).1).1
  | userStore va b =>
    obtain ⟨c, hcur, hl, hdc, hw⟩ := hc
    have hdm := hsys.env_mem hl hdc
    have hva := hsys.userCanWrite_lt hdm hw
    obtain ⟨x, hx, -, rfl⟩ := storeByte_eq_ok hrun
    refine ⟨h.of_envs hafter rfl hlive.2 rfl rfl, ?_⟩
    rw [hsys.memory_poke hu hdm hva hx hd]
    by_cases he : c = e
    · subst he
      have hcr : d = s.cr3 := by
        have hdir := h.dir
        rw [hdc] at hdir
        cases hdir
        rfl
      rw [if_pos hcr, hcr, replay_cons_some (b := (va, b)) (by simp [storeOf, hcur]), replay_nil]
    · have hne : d ≠ s.cr3 := by
        rintro rfl
        exact he (hsys.env_inj _ _ _ hl hlive hdc h.dir)
      rw [if_neg hne, replay_cons_none (by simp [storeOf, hcur, he]), replay_nil]
  | pageAlloc _ => exact absurd hm not_false
  | pageFree _ => exact absurd hm not_false
  | pageInsert _ _ _ _ => exact absurd hm not_false
  | pageRemove _ _ => exact absurd hm not_false

end Resident

/-- In every run of the environment calls and of the programs' stores, the memory of an environment that
is not freed is what it was at first with its own program's stores made to it in turn. -/
theorem spaceRun_private {mem : Nat → Nat → Word} {calls : List (Option Nat × SysCall)}
    (hs : SpaceRun m mem s) (hl : Live s e) (hd : (s.envs e).envPgdir = some d)
    (hrun : Run (SpaceStep m) s calls t) (hkeep : ∀ a ∈ calls, a.2 ≠ .envFree e) :
    Live t e ∧ (t.envs e).envPgdir = some d ∧ (t.envs e).envId = (s.envs e).envId ∧
      t.memory d = replay (storeOf e) Memory.put calls (s.memory d) := by
  have hstart : Resident m e d (s.envs e).envId s := ⟨hs.inv, hl, hd, rfl⟩
  have hstep : ∀ s' (a : Option Nat × SysCall) t', Resident m e d (s.envs e).envId s' → a.2 ≠ .envFree e →
      SpaceStep m s' a t' → Resident m e d (s.envs e).envId t' ∧
        t'.memory d = replay (storeOf e) Memory.put [a] (s'.memory d) := by
    rintro s' ⟨c, call⟩ t' hres hne hone
    obtain rfl : c = s'.curenv := hone.1
    exact hres.step hne hone
  obtain ⟨ht, hmem⟩ := hrun.replays hstep hstart hkeep
  exact ⟨ht.live, ht.dir, ht.envId, hmem⟩

theorem spaceRun_private_smallMachine : ∃ s t e d, SpaceRun smallMachine (fun _ _ => 0) s ∧
    ∃ calls, Run (SpaceStep smallMachine) s calls t ∧
      t.memory d = replay (storeOf e) Memory.put calls (s.memory d) ∧
      calls.filterMap (storeOf e) = [(ustacktop - pgsize, 7#8)] := by
  obtain ⟨s₀, s₁, s, e, d, h₀, h₁, hbelow, hs, hl, hd, hstack⟩ := bareEnv_smallMachine
  have hrun : SpaceRun smallMachine (fun _ _ => 0) s :=
    .call (.start h₀ h₁) (c := .envCreate bareImage .user) trivial hbelow hs
  obtain ⟨u, hu, hcr⟩ := envRun_returns hd
  have hmem : u.mem = s.mem := congrArg (·.2.2.2.1) (envRun_keeps e _ _ _ hu)
  obtain ⟨-, hcur, henvs⟩ := envRun_effect hu
  have hlu : Live u e := ⟨hl.1, by simp [henvs]⟩
  have hdu : (u.envs e).envPgdir = some u.cr3 := by
    rw [hcr]
    simp [henvs, preempt_envs, hd]
  have hw : UserCanWrite u.mem u.cr3 (ustacktop - pgsize) := by
    rw [hcr, hmem]
    exact hstack _ (by decide) (by decide)
  obtain ⟨x, hx, -, hwx⟩ := id hw
  have hsteps : Run (SpaceStep smallMachine) s
      [(s.curenv, .envRun e), (u.curenv, .userStore (ustacktop - pgsize) 7#8)] _ :=
    .cons (t := u) ⟨rfl, trivial, hl, hu⟩
      (.cons ⟨rfl, trivial, ⟨e, hcur, hlu, hdu, hw⟩, storeByte_ok hx hwx⟩ .nil)
  refine ⟨s, _, e, d, hrun, _, hsteps, (spaceRun_private hrun hl hd hsteps (by simp)).2.2.2, ?_⟩
  have hown : storeOf e (u.curenv, .userStore (ustacktop - pgsize) 7#8) = some (ustacktop - pgsize, 7#8) :=
    if_pos hcur
  rw [List.filterMap_cons_none rfl, List.filterMap_cons_some hown, List.filterMap_nil]

end memory

end Jos
