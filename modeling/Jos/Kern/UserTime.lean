import Jos.Kern.Breakpoint
import Jos.Kern.FlushCalls
import Jos.Kern.PageLaws

/-! What user programs and their traps can change, from env_run on. -/
namespace Jos

open Prog

/-- While a program runs: it computes, it stores where the processor lets it, and its traps come back.
`n` counts the traps, and `typed` has the lines typed at the monitor while they are handled. -/
inductive UserTime (s : MonState) (r : Cpu) : MonState → Cpu → Nat → List TypedLine → Prop
  | enter : UserTime s r s r 0 []
  | compute {t : MonState} {r' r'' : Cpu} {n : Nat} {typed : List TypedLine} : UserTime s r t r' n typed →
      UserStep r' r'' → UserTime s r t r'' n typed
  | store {t : MonState} {k : Kernel} {r' : Cpu} {n : Nat} {typed : List TypedLine} {va : Word} {b : Byte} :
      UserTime s r t r' n typed → UserCanWrite t.kernel.mem t.kernel.cr3 va →
      storeByte va b t.kernel = .ok () k → UserTime s r { t with kernel := k } r' n typed
  | trap {t u : MonState} {r' r'' : Cpu} {n v : Nat} {typed lines : List TypedLine} {err console : Word}
      {ctx : MonContext} : UserTime s r t r' n typed → v ∈ userVectors →
      takeTrapTyped ctx console v err r' t = .ok r'' u →
      t.line.input = lines.flatMap TypedLine.chars ++ u.line.input →
      UserTime s r u r'' (n + 1) (typed ++ lines)

/-- The state without what a trap of environment `e` may change: its saved registers, and the address
user_mem_check reports. -/
def Kernel.besideTrap (e : Nat) (s : Kernel) : Kernel :=
  { s.setEnv e { s.envs e with envTf := zeroTrapframe } with userMemCheckAddr := 0 }

section traps

variable {s t u : Kernel} {w : Outside} {r r' : Cpu} {d e v : Nat} {err : Word} {tf : Trapframe}

theorem failAt_besideTrap (e : Nat) (va : Word) : Keeps (Kernel.besideTrap e) (failAt va) :=
  Keeps.bind (keeps_update fun _ => rfl) fun _ => keeps_pure _

theorem userMemScan_besideTrap (e c : Nat) (perm : Word) (n : Nat) (scanner : Word) :
    Keeps (Kernel.besideTrap e) (userMemScan c perm n scanner) := by
  induction n generalizing scanner with
  | zero => exact keeps_pure _
  | succ n ih =>
    refine (envPgdir_observes c).keeps.bind fun pgdir => (pageLookup_observes _ _).keeps.bind fun o => ?_
    rcases o with ⟨_ | pp, _ | pte⟩
    · exact failAt_besideTrap e scanner
    · exact failAt_besideTrap e scanner
    · exact failAt_besideTrap e scanner
    · exact keeps_read.bind fun _ => keeps_ite (ih _) (failAt_besideTrap e scanner)

theorem sysCputs_besideTrap (e : Nat) (a len : Word) : Keeps (Kernel.besideTrap e) (sysCputs a len) := by
  refine keeps_read.bind fun k => (deref_observes _).keeps.bind fun c => ?_
  refine Keeps.bind ?_ fun _ => Observes.keeps ?_
  · refine Keeps.bind ?_ fun r => keeps_ite (envDestroy_keeps c) (keeps_pure _)
    exact keeps_ite (failAt_besideTrap e a) (userMemScan_besideTrap e c _ _ _)
  · exact observes_ite (observes_pure _) (printString_observes _ _ _)

theorem sysEnvDestroy_besideTrap (e : Nat) (envid : Word) :
    Keeps (Kernel.besideTrap e) (sysEnvDestroy envid) := by
  refine (envid2env_observes _ _).keeps.bind fun o => keeps_ite (keeps_pure _) ?_
  exact (deref_observes _).keeps.bind fun c => (envDestroy_keeps c).bind fun _ => keeps_pure _

theorem syscall_besideTrap (e : Nat) (w : Outside) (no a1 a2 a3 a4 a5 : Word) :
    Keeps (Kernel.besideTrap e) (syscall w no a1 a2 a3 a4 a5) := by
  refine keeps_ite ?_ (keeps_ite (keeps_pure _) (keeps_ite sysGetenvid_observes.keeps
    (keeps_ite ?_ (keeps_pure _))))
  · exact (sysCputs_besideTrap e _ _).bind fun _ => keeps_pure _
  · exact (sysEnvDestroy_besideTrap e _).bind fun _ => keeps_pure _

theorem besideTrap_setTf (e : Nat) (s : Kernel) (tf : Trapframe) :
    (s.setEnv e { s.envs e with envTf := tf }).besideTrap e = s.besideTrap e := by
  simp [Kernel.besideTrap, Kernel.setEnv]

theorem trapDispatch_besideTrap (hw : w.session = []) (e : Nat) (tf : Trapframe) :
    Keeps (Kernel.besideTrap e) (trapDispatch w (some e) tf) := by
  refine keeps_ite ?_ (keeps_ite (keeps_ite (keeps_stop _) destroyCurenv_keeps) (keeps_ite ?_ ?_))
  · rw [hw]
    exact keeps_pure _
  · exact (syscall_besideTrap e _ _ _ _ _ _ _).bind fun ret => keeps_update fun s => besideTrap_setTf e s _
  · exact keeps_ite (keeps_stop _) destroyCurenv_keeps

theorem besideTrap_eq (h : t.besideTrap e = s.besideTrap e) : ∃ tf a, t = { s with
    envs := Function.update s.envs e { s.envs e with envTf := tf }
    userMemCheckAddr := a } := by
  refine ⟨(t.envs e).envTf, t.userMemCheckAddr, ?_⟩
  obtain ⟨⟩ := s
  obtain ⟨⟩ := t
  simp only [Kernel.besideTrap, Kernel.setEnv, Kernel.mk.injEq] at h ⊢
  obtain ⟨h1, h2, h3, h4, h5, h6, h7, h8, henvs, h10, h11, -, h13, h14, h15⟩ := h
  refine ⟨h1, h2, h3, h4, h5, h6, h7, h8, ?_, h10, h11, trivial, h13, h14, h15⟩
  funext i
  have hi := congrFun henvs i
  by_cases he : i = e
  · subst he
    rw [Function.update_self, Function.update_self] at hi
    rw [Function.update_self]
    simp only [Env.mk.injEq] at hi
    obtain ⟨-, hlink, hid, hpar, -, hst, hruns, hdir⟩ := hi
    rw [← hlink, ← hid, ← hpar, ← hst, ← hruns, ← hdir]
  · rw [Function.update_of_ne he, Function.update_of_ne he] at hi
    rw [Function.update_of_ne he, hi]

theorem envRun_again (hcur : u.curenv = some e) (hst : (u.envs e).envStatus = .running)
    (hd : (u.envs e).envPgdir = some d) : envRun e u = .ok () { u with
      envs := Function.update u.envs e { u.envs e with envRuns := (u.envs e).envRuns + 1 }
      cr3 := d
      log := u.log ++ [.lcr3 d] } := by
  have hpre : u.preempt = u.setEnv e { u.envs e with envStatus := .runnable } := by
    simp [Kernel.preempt, hcur, hst]
  have hx : ({ u.envs e with envStatus := .running } : Env) = u.envs e := by rw [← hst]
  rw [envRun, bind_ok (update_apply _ _), bind_ok (update_apply _ _), modifyEnv, bind_ok (update_apply _ _),
    modifyEnv, bind_ok (update_apply _ _), hpre]
  simp only [Kernel.setEnv, Function.update_self, Function.update_idem]
  rw [envPgdirPa, bind_apply, bind_ok (read_apply _)]
  simp only [Function.update_self, hd, pure_apply]
  rw [lcr3, update_apply]
  simp only [Kernel.loadCr3, hcur]
  rw [← hst]

/-- A trap that comes back has saved the registers, counted the return, and loaded the same
directory. -/
theorem takeTrap_effect (hcur : s.curenv = some e) (hst : (s.envs e).envStatus = .running)
    (hd : (s.envs e).envPgdir = some d) (hmode : UserMode r) (hv : v ∈ userVectors) (hw : w.session = [])
    (hrun : takeTrap (syscall w) w v err r s = .ok r' t) : UserMode r' ∧ ∃ tf a, t = { s with
      envs := Function.update s.envs e { s.envs e with envTf := tf, envRuns := (s.envs e).envRuns + 1 }
      userMemCheckAddr := a
      cr3 := d
      log := s.log ++ [.lcr3 d] } := by
  obtain ⟨code, c, htrap, hct, rfl⟩ := takeTrap_eq_ok hv hrun
  have hcs : (r.frame (BitVec.ofNat 32 v) code).tfCs &&& 3 = 3 := hmode.1
  have hframe := trap_mode htrap hcur hcs e
  rw [if_pos rfl, Kernel.modePart, Prod.mk.injEq] at hframe
  rw [trap] at htrap
  obtain ⟨_, u, henter, htrap⟩ := bind_eq_ok.mp htrap
  rw [trapEnter, Prog.ite_apply, if_pos hcs, bind_ok (read_apply s)] at henter
  simp only [hcur] at henter
  rw [modifyEnv, bind_ok (update_apply _ _)] at henter
  obtain ⟨tf, a, rfl⟩ :=
    besideTrap_eq ((trapDispatch_besideTrap hw e _ _ _ _ henter).trans (besideTrap_setTf e s _))
  have hsu : (Function.update s.envs e { s.envs e with envTf := tf } e).envStatus = .running := by
    rw [Function.update_self, hst]
  rw [bind_ok (read_apply _)] at htrap
  simp only [hcur] at htrap
  rw [bind_ok (check_true hsu _), envRun_again rfl hsu (by simpa using hd)] at htrap
  cases htrap
  obtain rfl : c = e := (Option.some.inj hct).symm
  refine ⟨UserInv.popped ⟨?_, ?_⟩ r, tf, a, ?_⟩
  · rw [hframe.1]
    exact hmode.1
  · rw [hframe.2]
    exact hmode.2
  · simp [hcur]

end traps

/-- What the program of environment `e`, with directory `d`, has done to the state in `n` traps: it has
stored to pages it may write, and its own record has changed. -/
structure Contained (m : Machine) (s t : Kernel) (e d n : Nat) : Prop where
  memory : ∀ p j, t.mem p j ≠ s.mem p j →
    ∃ va < utop, ∃ x, hwWalk s.mem d va = some x ∧ x.user = true ∧ x.write = true ∧ x.page = p
  kernel : ∀ p, s.OnFreeList p ∨ Reserved m p ∨ InTables s p → t.mem p = s.mem p
  walks : ∀ d', Directory s d' → ∀ va, hwWalk t.mem d' va = hwWalk s.mem d' va
  rest : ∃ tf a events, t = { s with
    envs := Function.update s.envs e
      { s.envs e with envTf := tf, envRuns := (s.envs e).envRuns + BitVec.ofNat 32 n }
    userMemCheckAddr := a
    mem := t.mem
    log := s.log ++ events }

section contained

variable {m : Machine} {mem : Nat → Nat → Word} {s s₀ t u : Kernel} {L : Ledger} {fl efl : List Nat}
  {r r' : Cpu} {d d' e n p : Nat} {va : Word} {x : Translation}

/-- A page that is mapped below UTOP is in use, and none of the kernel's. -/
theorem System.page_of_walk (h : System m s L fl efl) (hd : d ∈ L.dirs) (hva : pdx va < 955)
    (hx : hwWalk s.mem d va = some x) :
    IsData s L x.page ∧ ¬ s.OnFreeList x.page ∧ ¬ Reserved m x.page ∧ ¬ InTables s x.page := by
  have hp := (hwWalk_eq_some.mp hx).1
  obtain ⟨hdata, hheld⟩ := h.data d hd _ hva _ (ptx_lt va) _ hp
  have hfree := (h.balanced.referenced_page hd hva (ptx_lt va) hp).2.1
  refine ⟨hdata, fun hf => hfree (h.balanced.onFreeList_iff.mp hf), fun hr => ?_, h.isData_iff.mp hdata⟩
  have hne : x.page ≠ heapBase m := by
    rintro he
    exact hdata.1 (by rw [he, ← h.kernPgdir]; exact h.mem_kern)
  rw [h.held] at hheld
  change (if Reserved m x.page ∧ x.page ≠ heapBase m then 1 else 0) = 0 at hheld
  rw [if_pos ⟨hr, hne⟩] at hheld
  cases hheld

theorem System.walk_storeData (h : System m s L fl efl) (hd : d ∈ L.dirs) (hp : IsData s L p) (i : Nat)
    (w : Word) : hwWalk (s.store p i w).mem d va = hwWalk s.mem d va := by
  refine hwWalk_congr (pde_storeData hp hd) fun q hq => Kernel.mem_store_of_ne ?_
  rintro rfl
  rcases h.table_cases hd (pdx_lt va) hq with rfl | ⟨d', hd', hown, ht', -⟩
  · exact hp.1 hd
  · exact hp.2 d' hd' _ hown ht'

/-- The state that env_run has left, for the program of `e` with directory `d`. -/
structure Entered (m : Machine) (s : Kernel) (L : Ledger) (fl efl : List Nat) (e d : Nat) : Prop where
  system : System m s L fl efl
  curenv : s.curenv = some e
  running : (s.envs e).envStatus = .running
  pgdir : (s.envs e).envPgdir = some d
  cr3 : s.cr3 = d
  mem_dirs : d ∈ L.dirs

namespace Contained

theorem entered (h : Contained m s t e d n) (hs : Entered m s L fl efl e d)
    (hsys : System m t L fl efl) : Entered m t L fl efl e d := by
  obtain ⟨tf, a, events, ht⟩ := h.rest
  refine ⟨hsys, ?_, ?_, ?_, ?_, hs.mem_dirs⟩
  · rw [ht]
    exact hs.curenv
  · rw [ht]
    simpa using hs.running
  · rw [ht]
    simpa using hs.pgdir
  · rw [ht]
    exact hs.cr3

theorem refl (s : Kernel) (e d : Nat) : Contained m s s e d 0 := by
  refine ⟨fun p j h => absurd rfl h, fun _ _ => rfl, fun _ _ _ => rfl, ?_⟩
  exact ⟨(s.envs e).envTf, s.userMemCheckAddr, [], by simp⟩

theorem store {va : Word} {b : Byte} (h : Contained m s t e d n) (hs : Entered m s L fl efl e d)
    (hsys : System m t L fl efl) (hw : UserCanWrite t.mem t.cr3 va) (hrun : storeByte va b t = .ok () u) :
    System m u L fl efl ∧ Contained m s u e d n := by
  have ht := h.entered hs hsys
  rw [ht.cr3] at hw
  have hva := hsys.userCanWrite_lt hs.mem_dirs hw
  obtain ⟨y, hy, huser, hwrite⟩ := hw
  obtain ⟨x, hx, -, rfl⟩ := storeByte_eq_ok hrun
  rw [ht.cr3] at hx
  obtain rfl : y = x := Option.some.inj (hy.symm.trans hx)
  obtain ⟨hdata, -⟩ := hsys.page_of_walk hs.mem_dirs hva hx
  have hxs : hwWalk s.mem d va = some y := by
    rw [← h.walks d ((hs.system.dirs d).mp hs.mem_dirs) va]
    exact hx
  refine ⟨hsys.storeData hdata _ _, fun p j hne => ?_, fun p hp => ?_, fun d' hd' a => ?_, ?_⟩
  · by_cases hp : p = y.page
    · exact ⟨va, (lt_utop_iff va).mpr hva, y, hxs, huser, hwrite, hp.symm⟩
    · refine h.memory p j fun heq => hne ?_
      rw [← heq]
      exact Kernel.mem_store_of_ne hp
  · have hne : p ≠ y.page := by
      rintro rfl
      obtain ⟨-, hfree, hres, htab⟩ := hs.system.page_of_walk hs.mem_dirs hva hxs
      rcases hp with hp | hp | hp
      · exact hfree hp
      · exact hres hp
      · exact htab hp
    rw [← h.kernel p hp]
    funext j
    exact Kernel.mem_store_of_ne hne
  · rw [← h.walks d' hd' a]
    exact hsys.walk_storeData ((hs.system.dirs d').mpr hd') hdata _ _
  · obtain ⟨tf, a, events, hrest⟩ := h.rest
    refine ⟨tf, a, events ++ [.store y.page (pgoff va / 4)
      (setByte (t.mem y.page (pgoff va / 4)) (pgoff va % 4) b)], ?_⟩
    rw [Kernel.poke, Kernel.store]
    conv_lhs => rw [hrest]
    simp

theorem trap {w : Outside} {v : Nat} {err : Word} (h : Contained m s t e d n) (hs : Entered m s L fl efl e d)
    (hsys : System m t L fl efl) (hmode : UserMode r) (hv : v ∈ userVectors) (hw : w.session = [])
    (hrun : takeTrap (syscall w) w v err r t = .ok r' u) :
    System m u L fl efl ∧ UserMode r' ∧ Contained m s u e d (n + 1) := by
  have ht := h.entered hs hsys
  obtain ⟨hmode', tf, a, hu⟩ := takeTrap_effect ht.curenv ht.running ht.pgdir hmode hv hw hrun
  have hmem : u.mem = t.mem := by rw [hu]
  refine ⟨?_, hmode', ?_, ?_, ?_, ?_⟩
  · rw [hu]
    have hset : System m (t.setEnv e
        { t.envs e with envTf := tf, envRuns := (t.envs e).envRuns + 1 }) L fl efl :=
      hsys.setEnv rfl rfl rfl rfl
    exact hset.congr (hset.envs.congr rfl) rfl rfl rfl rfl rfl (fun _ => Iff.rfl) fun _ _ => rfl
  · rw [hmem]
    exact h.memory
  · rw [hmem]
    exact h.kernel
  · rw [hmem]
    exact h.walks
  · obtain ⟨tf', a', events, hrest⟩ := h.rest
    have henv : t.envs = Function.update s.envs e
        { s.envs e with envTf := tf', envRuns := (s.envs e).envRuns + BitVec.ofNat 32 n } := by rw [hrest]
    have hcount : (s.envs e).envRuns + BitVec.ofNat 32 n + 1 =
        (s.envs e).envRuns + BitVec.ofNat 32 (n + 1) := by
      rw [BitVec.add_assoc]
      exact congrArg _ (BitVec.ofNat_add n 1).symm
    refine ⟨tf, a, events ++ [.lcr3 d], ?_⟩
    rw [hu, henv, Function.update_self, Function.update_idem, hcount]
    conv_lhs => rw [hrest]
    rw [hs.cr3]
    simp

end Contained

/-- In the states of the kernel's own runs the saved registers go to user mode. -/
theorem SysRun.userInv (h : SysRun m mem s) : UserInv s none := by
  have hnone : ∀ (u : Kernel) (r : Cpu), (none : Option Cpu) = some r → UserMode r ∧
      ∃ c, u.curenv = some c ∧ Live u c ∧ (u.envs c).envStatus = .running := by
    intro u r hr
    cases hr
  induction h with
  | start hm hi => exact (UserRun.start hm hi).inv
  | @call s t c hrun hc hcall ih =>
    have hkeep : ∀ {α : Type} {x : Kern α} {a : α} {u v : Kernel}, UserInv u none → Keeps Kernel.envPart x →
        x u = .ok a v → UserInv v none := by
      intro α x a u v hu hx hv
      obtain ⟨henvs, hfree, hcur⟩ := envPart_eq_iff.mp (hx _ _ _ hv)
      obtain ⟨⟨efl, ht⟩, hframes, -⟩ := hu
      refine ⟨⟨efl, ht.congr (tablePart_of_envPart hx _ _ _ hv)⟩, fun i hi => ?_, hnone v⟩
      rw [henvs]
      exact hframes i (by rwa [Live, henvs] at hi)
    cases c with
    | pageAlloc allocFlags =>
      exact hkeep ih ((pageAlloc_keeps _).bind fun _ => keeps_pure _) hcall
    | pageFree pp => 
      exact hkeep ih ((pageFree_keepsBeside pp).comp fun u => (u.envs, u.envFreeList, u.curenv)) hcall
    | pageInsert pgdir pp va perm =>
      exact hkeep ih ((pageInsert_keeps _ _ _ _).bind fun _ => keeps_pure _) hcall
    | pageRemove pgdir va => exact hkeep ih (pageRemove_keeps _ _) hcall
    | envAlloc newenvStore parentId => exact ih.call (x := .alloc newenvStore parentId) trivial trivial hcall
    | envCreate binary type => exact ih.call (x := .create binary type) trivial trivial hcall
    | envRun e =>
      obtain ⟨⟨efl, ht⟩, hframes, -⟩ := ih
      have hrun : UserInv t (some (envPopTf (t.envs e).envTf bootCpu)) :=
        UserInv.entered ht (fun i hi => by rw [envRun_frames hcall]; exact hframes i hi) hc hcall bootCpu
      exact ⟨hrun.table, hrun.frames, hnone t⟩
    | envFree e => exact ih.call (x := .free e) trivial hc hcall
    | userStore va b => exact hkeep ih (storeByte_keeps va b) hcall

theorem SysRun.entered (h : SysRun m mem s₀) (hl : Live s₀ e) (hd : (s₀.envs e).envPgdir = some d)
    (hrun : envRun e s₀ = .ok () s) (k : Cpu) :
    UserMode (envPopTf (s.envs e).envTf k) ∧ ∃ L fl efl, Entered m s L fl efl e d := by
  obtain ⟨L, fl, efl, hsys⟩ := h.system
  obtain ⟨-, hcur, henvs⟩ := envRun_effect hrun
  obtain ⟨s', hrun', hcr⟩ := envRun_returns hd
  rw [hrun] at hrun'
  cases hrun'
  refine ⟨UserInv.popped ?_ k, L, fl, efl, hsys.envRun hl hrun, hcur, ?_, ?_, hcr, hsys.env_mem hl hd⟩
  · rw [envRun_frames hrun]
    exact h.userInv.frames e hl
  · rw [henvs, Function.update_self]
  · rw [henvs, Function.update_self, preempt_envs]
    exact hd

/-- What the program keeps, if nobody has changed a mapping: it runs in user mode, and what it has changed
is its own. -/
theorem UserTime.contained {s t : MonState} {typed : List TypedLine} (hs : Entered m s.kernel L fl efl e d)
    {r₀ : Cpu} (hmode : UserMode r₀) (hu : UserTime s r₀ t r n typed) (hno : typedMods typed = []) :
    UserMode r ∧ System m t.kernel L fl efl ∧ Contained m s.kernel t.kernel e d n := by
  induction hu with
  | enter => exact ⟨hmode, hs.system, Contained.refl s.kernel e d⟩
  | compute _ hstep ih =>
    obtain ⟨hm, hrest⟩ := ih hno
    exact ⟨⟨hstep.1, hstep.2.trans hm.2⟩, hrest⟩
  | store _ hw hstore ih =>
    obtain ⟨hm, hsys, hc⟩ := ih hno
    exact ⟨hm, hc.store hs hsys hw hstore⟩
  | trap _ hv htrap hin ih =>
    rw [typedMods, List.map_append, List.filterMap_append] at hno
    obtain ⟨hbefore, hnow⟩ := List.append_eq_nil_iff.mp hno
    obtain ⟨hm, hsys, hc⟩ := ih hbefore
    have hcur := (hc.entered hs hsys).curenv
    obtain ⟨lines, hlines, hrun⟩ := takeTrapTyped_eq_ok hm hcur hv htrap
    obtain rfl := TypedLine.lines_inj (hin.symm.trans hlines)
    obtain ⟨hsys', hm', hc'⟩ := hc.trap hs hsys hm hv hnow hrun
    exact ⟨hm', hsys', hc'⟩

/-- On the small machine, an environment that has just been entered. -/
theorem entered_smallMachine : ∃ s₀ s e d, SysRun smallMachine (fun _ _ => 0) s₀ ∧ Live s₀ e ∧
    (s₀.envs e).envPgdir = some d ∧ envRun e s₀ = .ok () s := by
  obtain ⟨s₀, e, d, L, fl, efl, hsys, -, hl, hd, -⟩ := emptyEnv_smallMachine
  obtain ⟨s, hrun, -⟩ := envRun_returns hd
  exact ⟨s₀, s, e, d, hsys, hl, hd, hrun⟩

/-- At any moment of a program's run, any trap it takes comes back with its registers and the answer, or
destroys the environment it should, or, where sys_cputs reads what is not mapped, faults; and a breakpoint
comes back when the operator leaves the monitor. -/
theorem userTime_trapOutcome {s t : MonState} {typed : List TypedLine} {v : Nat} (h : SysRun m mem s₀)
    (hl : Live s₀ e) (hd : (s₀.envs e).envPgdir = some d) (hrun : envRun e s₀ = .ok () s.kernel) {k : Cpu}
    (hu : UserTime s (envPopTf (s.kernel.envs e).envTf k) t r n typed) (hno : typedMods typed = [])
    (hv : v ∈ userVectors) (ctx : MonContext) (console err : Word) :
    TypedOutcome m ctx console t e d v err r := by
  obtain ⟨hmode, L, fl, efl, hs⟩ := h.entered hl hd hrun k
  obtain ⟨hm, hsys, hc⟩ := hu.contained hs hmode hno
  have ht := hc.entered hs hsys
  have hlive : Live t.kernel e := ⟨hl.1, by rw [ht.running]; decide⟩
  have hout := hsys.typedOutcome ht.curenv hlive ht.running (ht.cr3 ▸ ht.pgdir) hm hv ctx console err
  exact ht.cr3 ▸ hout

/-- On the small machine, the first page fault of a program. -/
theorem userTime_trapOutcome_smallMachine : ∃ (ctx : MonContext) (s : MonState) (e d : Nat) (r : Cpu),
    TypedOutcome smallMachine ctx 0 s e d 14 6 r := by
  obtain ⟨s₀, s, e, d, hsys, hl, hd, hrun⟩ := entered_smallMachine
  exact ⟨⟨0, fun _ => 0, ⟨0, 0, 0, 0⟩, id, 0⟩, ⟨⟨[], [], fun _ => 0⟩, s⟩, e, d, _,
    userTime_trapOutcome hsys hl hd hrun (k := bootCpu) .enter rfl (by decide) _ 0 6⟩

end contained

end Jos
