import Jos.Kern.MonitorRights
import Jos.Kern.TrapOutcome

/-! trap (kern/trap.c) with the monitor that reads what is typed: how a breakpoint comes back. -/
namespace Jos

open Prog

/-- trap_dispatch. -/
def trapDispatchTyped (ctx : MonContext) (w : Outside) (frame : Option Nat) (tf : Trapframe) :
    Prog MonStop MonState Unit :=
  if tf.tfTrapno = tBrkpt then do
    let _ ← monitorTyped ctx
    pure ()
  else
    onKernel (trapDispatch w frame tf)

/-- trap up to the return of trap_dispatch. -/
def trapEnterTyped (ctx : MonContext) (w : Outside) (tf : Trapframe) : Prog MonStop MonState Unit :=
  if tf.tfCs &&& 3 = 3 then do
    let s ← read
    match s.kernel.curenv with
    | none => stop (.kernel (.panic "assertion failed: curenv"))
    | some c => do
      onKernel (modifyEnv c fun x => { x with envTf := tf })
      trapDispatchTyped ctx w (some c) tf
  else
    trapDispatchTyped ctx w none tf

/-- A trap from user mode and back. `console` is what cons_getc has for a system call. -/
def takeTrapTyped (ctx : MonContext) (console : Word) (v : Nat) (err : Word) (r : Cpu) :
    Prog MonStop MonState Cpu :=
  match trapHandlers.getD v none with
  | none => stop (.kernel .spin)
  | some h => do
    onKernel (check (.panic "assertion failed: !(read_eflags() & FL_IF)") (r.eflags &&& flIf = 0))
    trapEnterTyped ctx ⟨[], console⟩ (trapFrame h v err r)
    onKernel (comeBack r)

/-- What changes a mapping among the lines typed at the monitor. -/
def typedMods (lines : List TypedLine) : List PgMod := (lines.map TypedLine.text).filterMap pgmodOf

/-- A breakpoint of environment `c` comes back with the kernel `k`: what is typed up to `rest` is a session
that ends with exit, and its commands have changed no more than rights. -/
def ResumesAfter (ctx : MonContext) (s : MonState) (c : Nat) (r : Cpu) (k : Kernel) (rest : List Byte) :
    Prop :=
  ∃ (lines : List TypedLine) (replies : List Reply) (u : Kernel),
    s.line.input = lines.flatMap TypedLine.chars ++ rest ∧
    Session ctx (s.kernel.saveTf c (r.frame tBrkpt 0#32)) (lines.map TypedLine.text) replies u ∧
    RightsOnly (s.kernel.saveTf c (r.frame tBrkpt 0#32)) u ∧ envRun c u = .ok () k

/-- The trap `v` of environment `c`, taken from the registers `r`. -/
structure TypedOutcome (m : Machine) (ctx : MonContext) (console : Word) (s : MonState) (c d v : Nat)
    (err : Word) (r : Cpu) : Prop where
  faults : CputsFaults s.kernel d v r →
    ∃ u, takeTrapTyped ctx console v err r s = .stop (.kernel kernelFault) { s with kernel := u }
  ends : ∀ e, TrapEnds s.kernel c d v r e → ∃ u tf,
    takeTrapTyped ctx console v err r s = .stop (.kernel .monitor) { s with kernel := u } ∧
      ¬ Live u e ∧ (∀ i, i ≠ e → u.envs i = (s.kernel.saveTf c tf).envs i) ∧ ∃ L fl efl, System m u L fl efl
  resumes : v ≠ 3 → ¬ CputsFaults s.kernel d v r → (∀ e, ¬ TrapEnds s.kernel c d v r e) → ∃ u,
    takeTrapTyped ctx console v err r s =
      .ok (if v = 48 then { r with eax := answer ⟨[], console⟩ s.kernel c r.eax } else r)
        { s with kernel := u }
  breakpoint : v = 3 → ∀ r' k rest,
    (∃ t, takeTrapTyped ctx console v err r s = .ok r' t ∧ t.kernel = k ∧ t.line.input = rest) ↔
      r' = r ∧ ResumesAfter ctx s c r k rest

section lines

variable {ls ls' : List TypedLine} {l l' : TypedLine} {a b : List Byte}

theorem TypedLine.chars_inj (h : l.chars ++ a = l'.chars ++ b) : l = l' ∧ a = b := by
  have htake : ∀ (l : TypedLine) (a : List Byte), (l.chars ++ a).takeWhile (Typed ·) = l.keys ∧
      (l.chars ++ a).dropWhile (Typed ·) = l.ends :: a := by
    intro l a
    have hkeys : ∀ c ∈ l.keys, decide (Typed c) = true := fun c hc => decide_eq_true (l.typed c hc)
    have hends : decide (Typed l.ends) = false := decide_eq_false l.not_typed
    rw [TypedLine.chars, List.append_assoc, List.singleton_append, List.takeWhile_append_of_pos hkeys,
      List.dropWhile_append_of_pos hkeys]
    simp [hends]
  obtain ⟨hkeys, hdrop⟩ := htake l a
  obtain ⟨hkeys', hdrop'⟩ := htake l' b
  rw [h] at hkeys hdrop
  obtain ⟨hends, hrest⟩ := List.cons.inj (hdrop.symm.trans hdrop')
  have hkeys := hkeys.symm.trans hkeys'
  refine ⟨?_, hrest⟩
  cases l
  cases l'
  cases hkeys
  cases hends
  rfl

theorem TypedLine.lines_inj (h : ls.flatMap TypedLine.chars ++ a = ls'.flatMap TypedLine.chars ++ a) :
    ls = ls' := by
  have hflat := List.append_cancel_right h
  induction ls generalizing ls' with
  | nil =>
    cases ls' with
    | nil => rfl
    | cons l' ls' => simp [TypedLine.chars] at hflat
  | cons l ls ih =>
    cases ls' with
    | nil => simp [TypedLine.chars] at hflat
    | cons l' ls' =>
      rw [List.flatMap_cons, List.flatMap_cons] at hflat
      obtain ⟨rfl, hrest⟩ := TypedLine.chars_inj hflat
      rw [ih (by rw [hrest]) hrest]

end lines

section traps

variable {m : Machine} {ctx : MonContext} {console err : Word} {s t : MonState} {k u : Kernel} {r r' : Cpu}
  {c d v : Nat} {L : Ledger} {fl efl : List Nat} {rest : List Byte} {w : Outside}

theorem onKernel_bind {α β : Type} (x : Kern α) (f : α → Kern β) (s : MonState) :
    onKernel (x >>= f) s = (onKernel x >>= fun a => onKernel (f a)) s :=
  zoom_bind (fun _ _ => rfl) fun _ _ _ => rfl

theorem onKernel_stop {α : Type} {x : Kern α} {e : Stop} (h : x s.kernel = .stop e k) :
    onKernel x s = .stop (.kernel e) { s with kernel := k } :=
  zoom_stop h

theorem takeTrapTyped_user (hmode : UserMode r) (hcur : s.kernel.curenv = some c) (hv : v ∈ userVectors) :
    takeTrapTyped ctx console v err r s =
      (trapDispatchTyped ctx ⟨[], console⟩ (some c) (r.trapFrame v err) >>= fun _ => onKernel (comeBack r))
        { s with kernel := s.kernel.saveTf c (r.trapFrame v err) } := by
  obtain ⟨h, hh⟩ := handler_of_mem hv
  have hcs : (r.trapFrame v err).tfCs &&& 3 = 3 := hmode.1
  have henter : trapEnterTyped ctx ⟨[], console⟩ (r.trapFrame v err) s =
      trapDispatchTyped ctx ⟨[], console⟩ (some c) (r.trapFrame v err)
        { s with kernel := s.kernel.saveTf c (r.trapFrame v err) } := by
    rw [trapEnterTyped, Prog.ite_apply, if_pos hcs, bind_ok (read_apply s)]
    simp only [hcur]
    exact bind_ok (onKernel_ok (update_apply _ s.kernel))
  rw [takeTrapTyped]
  simp only [hh]
  rw [trapFrame_eq hv hh, ← Cpu.trapFrame, bind_ok (onKernel_ok (check_true hmode.2 s.kernel)), bind_apply,
    henter, bind_apply]

theorem takeTrapTyped_other (hmode : UserMode r) (hcur : s.kernel.curenv = some c) (hv : v ∈ userVectors)
    (h3 : v ≠ 3) : takeTrapTyped ctx console v err r s =
      onKernel (takeTrap (syscall ⟨[], console⟩) ⟨[], console⟩ v err r) s := by
  have hno : (r.trapFrame v err).tfTrapno ≠ tBrkpt := fun hb => h3 ((trapno_eq_iff hv (by decide)).mp hb)
  rw [takeTrapTyped_user hmode hcur hv, trapDispatchTyped, if_neg hno]
  have htrap := takeTrap_user (s := s.kernel) (r := r) ⟨[], console⟩ err hmode hcur hv
  have hbind := onKernel_bind (trapDispatch ⟨[], console⟩ (some c) (r.trapFrame v err)) (fun _ => comeBack r)
    { s with kernel := s.kernel.saveTf c (r.trapFrame v err) }
  rw [← hbind]
  cases hrun : takeTrap (syscall ⟨[], console⟩) ⟨[], console⟩ v err r s.kernel with
  | ok a k => rw [onKernel_ok hrun, onKernel_ok (htrap.symm.trans hrun)]
  | stop e k => rw [onKernel_stop hrun, onKernel_stop (htrap.symm.trans hrun)]

theorem takeTrapTyped_breakpoint (hmode : UserMode r) (hcur : s.kernel.curenv = some c) :
    takeTrapTyped ctx console 3 err r s = (monitorTyped ctx >>= fun _ => onKernel (comeBack r))
      { s with kernel := s.kernel.saveTf c (r.frame tBrkpt 0#32) } := by
  have hframe : r.trapFrame 3 err = r.frame tBrkpt 0#32 := rfl
  have hno : (r.frame tBrkpt 0#32).tfTrapno = tBrkpt := rfl
  rw [takeTrapTyped_user hmode hcur (by decide), hframe, trapDispatchTyped, if_pos hno, bind_apply,
    bind_apply, bind_apply]
  cases monitorTyped ctx { s with kernel := s.kernel.saveTf c (r.frame tBrkpt 0#32) } with
  | ok a t => rfl
  | stop e t => rfl

theorem RightsOnly.same_envs {s t : Kernel} (h : RightsOnly s t) : t.curenv = s.curenv ∧ t.envs = s.envs := by
  obtain ⟨events, ht⟩ := h.rest
  rw [ht]
  exact ⟨rfl, rfl⟩

/-- A breakpoint comes back exactly when what is typed is a session that ends with exit. -/
theorem takeTrapTyped_breakpoint_eq_ok (hmode : UserMode r) (hcur : s.kernel.curenv = some c)
    (hst : (s.kernel.envs c).envStatus = .running) (hd : (s.kernel.envs c).envPgdir = some d) :
    (∃ t, takeTrapTyped ctx console 3 err r s = .ok r' t ∧ t.kernel = k ∧ t.line.input = rest) ↔
      r' = r ∧ ResumesAfter ctx s c r k rest := by
  rw [takeTrapTyped_breakpoint hmode hcur]
  have hself : (s.kernel.saveTf c (r.frame tBrkpt 0#32)).envs c =
      { s.kernel.envs c with envTf := r.frame tBrkpt 0#32 } := by rw [saveTf_envs, if_pos rfl]
  have hback : ∀ {u : Kernel}, RightsOnly (s.kernel.saveTf c (r.frame tBrkpt 0#32)) u → ∃ k,
      envRun c u = .ok () k ∧ comeBack r u = .ok r k := by
    intro u hu
    obtain ⟨hcu, henvs⟩ := hu.same_envs
    have hu' : u.envs c = { s.kernel.envs c with envTf := r.frame tBrkpt 0#32 } := by rw [henvs, hself]
    obtain ⟨k, hrun, -⟩ := envRun_returns (s := u) (e := c) (d := d) (by rw [hu']; exact hd)
    exact ⟨k, hrun, comeBack_eq (hcu.trans hcur) (by rw [hu']; exact hst) (by rw [hu']) hrun⟩
  constructor
  · rintro ⟨t, hrun, rfl, rfl⟩
    obtain ⟨replies, v, hmon, hrest⟩ := bind_eq_ok.mp hrun
    rw [monitorTyped, bind_ok (read_apply _)] at hmon
    obtain ⟨lines, hin, hsession⟩ := monitorLoop_session hmon
    obtain ⟨k, hk, rfl⟩ := zoom_eq_ok.mp hrest
    have hrights := monitor_rights hsession.monitor
    obtain ⟨k', hrun', hback'⟩ := hback hrights
    rw [hback'] at hk
    cases hk
    exact ⟨rfl, lines, replies, v.kernel, hin, hsession, hrights, hrun'⟩
  · rintro ⟨rfl, lines, replies, u, hin, hsession, hrights, hrun⟩
    obtain ⟨t, hmon, rfl, hrest⟩ := Session.monitorTyped
      (s := { s with kernel := s.kernel.saveTf c (r'.frame tBrkpt 0#32) }) hsession hin
    obtain ⟨k', hrun', hback'⟩ := hback hrights
    rw [hrun] at hrun'
    cases hrun'
    refine ⟨{ t with kernel := k }, ?_, rfl, hrest⟩
    rw [bind_ok hmon]
    exact onKernel_ok hback'

/-- A trap that comes back is one of the kernel's runs, with the changes typed at the monitor. -/
theorem takeTrapTyped_eq_ok (hmode : UserMode r) (hcur : s.kernel.curenv = some c) (hv : v ∈ userVectors)
    (hrun : takeTrapTyped ctx console v err r s = .ok r' t) : ∃ lines : List TypedLine,
      s.line.input = lines.flatMap TypedLine.chars ++ t.line.input ∧
      takeTrap (syscall ⟨typedMods lines, console⟩) ⟨typedMods lines, console⟩ v err r s.kernel =
        .ok r' t.kernel := by
  by_cases h3 : v = 3
  · subst h3
    rw [takeTrapTyped_breakpoint hmode hcur] at hrun
    obtain ⟨replies, u, hmon, hrest⟩ := bind_eq_ok.mp hrun
    rw [monitorTyped, bind_ok (read_apply _)] at hmon
    obtain ⟨lines, hin, hsession⟩ := monitorLoop_session hmon
    obtain ⟨k, hk, rfl⟩ := zoom_eq_ok.mp hrest
    refine ⟨lines, hin, ?_⟩
    have hno : (r.trapFrame 3 err).tfTrapno = tBrkpt := rfl
    rw [takeTrap_user _ err hmode hcur (by decide), trapDispatch, if_pos hno]
    exact (bind_ok hsession.monitor).trans hk
  · rw [takeTrapTyped_other hmode hcur hv h3] at hrun
    obtain ⟨k, hk, rfl⟩ := zoom_eq_ok.mp hrun
    exact ⟨[], rfl, hk⟩

/-- What becomes of any trap of the environment that runs, with whatever is typed at the monitor. -/
theorem System.typedOutcome (h : System m s.kernel L fl efl) (hcur : s.kernel.curenv = some c)
    (hl : Live s.kernel c) (hst : (s.kernel.envs c).envStatus = .running)
    (hd : (s.kernel.envs c).envPgdir = some s.kernel.cr3) (hmode : UserMode r) (hv : v ∈ userVectors)
    (ctx : MonContext) (console err : Word) : TypedOutcome m ctx console s c s.kernel.cr3 v err r := by
  by_cases h3 : v = 3
  · subst h3
    refine ⟨fun hf => absurd hf.1 (by decide), ?_, fun h3 => absurd rfl h3, fun _ r' k rest =>
      takeTrapTyped_breakpoint_eq_ok hmode hcur hst hd⟩
    rintro e (⟨hn, -, -⟩ | ⟨hn, -⟩ | ⟨hn, -⟩)
    · exact absurd rfl hn
    · exact absurd hn (by decide)
    · exact absurd hn (by decide)
  · have hout := h.trapOutcome hcur hl hst hd hmode hv h3 ⟨[], console⟩ err
    refine ⟨fun hf => ?_, fun e he => ?_, fun _ hf hends => ?_, fun heq => absurd heq h3⟩
    · obtain ⟨u, hu⟩ := hout.faults hf
      exact ⟨u, (takeTrapTyped_other hmode hcur hv h3).trans (onKernel_stop hu)⟩
    · obtain ⟨u, tf, hu, hrest⟩ := hout.ends e he
      exact ⟨u, tf, (takeTrapTyped_other hmode hcur hv h3).trans (onKernel_stop hu), hrest⟩
    · obtain ⟨u, hu⟩ := hout.resumes hf hends
      exact ⟨u, (takeTrapTyped_other hmode hcur hv h3).trans (onKernel_ok hu)⟩

end traps

end Jos
