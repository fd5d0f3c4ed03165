import Jos.Kern.MonitorLoop
import Jos.Kern.Ledger

/-! What can be typed at the monitor changes the rights of the kernel's mappings, and nothing else. -/
namespace Jos

open Prog

/-- The change a line asks for, if it is a pgmod command with right arguments. -/
def pgmodOf (text : List Byte) : Option PgMod :=
  match arguments text with
  | [] => none
  | name :: args =>
    if 15 ≤ args.length then
      none
    else
      match commands.find? fun c => c.name = name with
      | none => none
      | some c => if c.func = .pgmod then (readPgmod (name :: args)).toOption else none

/-- The entries differ in PTE_W and PTE_U at most. -/
def SameButRights (w w' : Word) : Prop := ∀ j < 32, j ≠ 1 → j ≠ 2 → w'.getLsbD j = w.getLsbD j

/-- Only rights have changed, in the tables the kernel's directory names. -/
structure RightsOnly (s t : Kernel) : Prop where
  bits : ∀ p i, SameButRights (s.mem p i) (t.mem p i)
  tables : ∀ p i, t.mem p i ≠ s.mem p i → ∃ j, target (s.pde s.kernPgdir j) = some p
  rest : ∃ events, t = { s with mem := t.mem, log := s.log ++ events }

section rights

variable {s t u : Kernel} {c : PgMod} {ctx : MonContext} {text : List Byte} {texts argv : List (List Byte)}
  {reply : Reply} {leave : Bool} {replies : List Reply} {w w' w'' : Word} {d : Nat} {va : Word}

theorem SameButRights.trans (h : SameButRights w w') (h' : SameButRights w' w'') : SameButRights w w'' := by
  intro j hj h1 h2
  rw [h' j hj h1 h2, h j hj h1 h2]

theorem SameButRights.has_P (h : SameButRights w w') : Has w' pteP ↔ Has w pteP := by
  rw [has_bit (by decide) pteP_bit, has_bit (by decide) pteP_bit,
    h 0 (by decide) (by decide) (by decide)]

theorem SameButRights.pgnum_eq (h : SameButRights w w') : pgnum w' = pgnum w := by
  unfold pgnum
  congr 1
  apply BitVec.eq_of_getLsbD_eq
  intro i hi
  rw [BitVec.getLsbD_ushiftRight, BitVec.getLsbD_ushiftRight]
  by_cases hlt : 12 + i < 32
  · exact h _ hlt (by omega) (by omega)
  · rw [BitVec.getLsbD_of_ge _ _ (by omega), BitVec.getLsbD_of_ge _ _ (by omega)]

theorem SameButRights.target_eq (h : SameButRights w w') : target w' = target w := by
  rw [target, target, h.pgnum_eq]
  exact if_congr h.has_P rfl rfl

theorem sameButRights_entry (c : PgMod) (w : Word) : SameButRights w (c.entry w) := by
  intro j hj h1 h2
  rw [c.entry_getLsbD hj, if_neg h1, if_neg h2]

theorem RightsOnly.refl (s : Kernel) : RightsOnly s s := by
  refine ⟨fun _ _ _ _ _ _ => rfl, fun _ _ h => absurd rfl h, [], ?_⟩
  rw [List.append_nil]

theorem RightsOnly.trans (h : RightsOnly s t) (h' : RightsOnly t u) : RightsOnly s u := by
  obtain ⟨es, hs⟩ := h.rest
  obtain ⟨es', hs'⟩ := h'.rest
  refine ⟨fun p i => (h.bits p i).trans (h'.bits p i), fun p i hne => ?_, es ++ es', ?_⟩
  · by_cases hst : t.mem p i = s.mem p i
    · obtain ⟨j, hj⟩ := h'.tables p i (hst ▸ hne)
      have hdir : t.kernPgdir = s.kernPgdir := by rw [hs]
      rw [Kernel.pde, hdir, (h.bits _ _).target_eq] at hj
      exact ⟨j, hj⟩
    · exact h.tables p i hst
  · rw [hs', hs, List.append_assoc]

/-- Every address of every directory leads where it led. -/
theorem RightsOnly.page_eq (h : RightsOnly s t) (d : Nat) (va : Word) :
    (hwWalk t.mem d va).map Translation.page = (hwWalk s.mem d va).map Translation.page := by
  unfold hwWalk
  have hpde := h.bits d (pdx va)
  dsimp only
  rw [hpde.pgnum_eq]
  have hpte := h.bits (pgnum (s.mem d (pdx va))) (ptx va)
  by_cases h1 : Has (s.mem d (pdx va)) pteP
  · rw [if_pos h1, if_pos (hpde.has_P.mpr h1)]
    by_cases h2 : Has (s.mem (pgnum (s.mem d (pdx va))) (ptx va)) pteP
    · rw [if_pos h2, if_pos (hpte.has_P.mpr h2), hpte.pgnum_eq]
      rfl
    · rw [if_neg h2, if_neg (mt hpte.has_P.mp h2)]
  · rw [if_neg h1, if_neg (mt hpde.has_P.mp h1)]

theorem monPgmod_rights (h : monPgmod c s = .ok () t) : RightsOnly s t := by
  rw [monPgmod, bind_ok (read_apply s)] at h
  by_cases haligned : c.va ≠ roundDown c.va pgsize
  · rw [Prog.ite_apply, if_pos haligned] at h
    obtain ⟨-, rfl⟩ := pure_eq_ok.mp h
    exact .refl s
  · rw [Prog.ite_apply, if_neg haligned] at h
    obtain ⟨o, u, hwalk, hrest⟩ := bind_eq_ok.mp h
    obtain rfl := pgdirWalk_observes _ _ _ _ _ hwalk
    cases ht : c.table u with
    | none =>
      rw [pgdirWalk_absent ht] at hwalk
      cases hwalk
      obtain ⟨-, rfl⟩ := pure_eq_ok.mp hrest
      exact .refl u
    | some p =>
      have hp := pgdirWalk_returns.mp ⟨o, hwalk⟩ p ht
      rw [pgdirWalk_present ht hp] at hwalk
      cases hwalk
      obtain rfl := update_eq_ok.mp hrest
      dsimp only
      rw [if_neg (or_pteP_ne_zero _)]
      change RightsOnly u (u.store p (ptx c.va) (c.entry (u.mem p (ptx c.va))))
      have hmem : ∀ q i, (u.store p (ptx c.va) (c.entry (u.mem p (ptx c.va)))).mem q i =
          if q = p ∧ i = ptx c.va then c.entry (u.mem p (ptx c.va)) else u.mem q i := fun _ _ => rfl
      refine ⟨fun q i => ?_, fun q i hne => ?_, _, rfl⟩
      · rw [hmem]
        split
        · next heq =>
          obtain ⟨rfl, rfl⟩ := heq
          exact sameButRights_entry c _
        · exact fun _ _ _ _ => rfl
      · rw [hmem] at hne
        split at hne
        · next heq => exact ⟨_, heq.1 ▸ ht⟩
        · exact absurd rfl hne

theorem monitor_rights {session : List PgMod} (h : monitor session s = .ok () t) : RightsOnly s t := by
  induction session generalizing s with
  | nil =>
    obtain ⟨-, rfl⟩ := pure_eq_ok.mp h
    exact .refl s
  | cons c session ih =>
    obtain ⟨⟨⟩, u, hc, hrest⟩ := bind_eq_ok.mp h
    exact (monPgmod_rights hc).trans (ih hrest)

/-- The other commands of the table only look. -/
theorem MonFunc.call_observes {func : MonFunc} (hf : func ≠ .pgmod) : Observes (func.call ctx argv) := by
  have hrange : ∀ {α : Type} (usage : List String) (header : String) (start : Word → Word) (step : Word)
      (row : Word → Kern α), (∀ u, Observes (row u)) →
      Observes (rangeCommand usage header start step row argv) := by
    intro α usage header start step row hrow
    rw [rangeCommand]
    cases readRange usage argv with
    | error msg => exact observes_pure _
    | ok bounds => exact (rangeLoop_observes hrow).bind fun _ => observes_pure _
  cases func with
  | help => exact observes_pure _
  | kerninfo => exact observes_pure _
  | meminfo => exact observes_pure _
  | exit => exact observes_pure _
  | pgmod => exact absurd rfl hf
  | backtrace =>
    have hframes : Observes (monBacktrace ctx.linked ctx.ptrdiff ctx.ebp) := by
      intro s lines t hrun
      exact (chainLoop_chain (fun _ _ _ _ => frameVisit_eq_ok) hrun).1
    exact hframes.bind fun _ => observes_pure _
  | showmappings => exact (hrange _ _ _ _ _ monShowmappingsEntry_observes).bind fun _ => observes_pure _
  | memxv => exact (hrange _ _ _ _ _ monMemxvEntry_observes).bind fun _ => observes_pure _
  | memxp => exact (hrange _ _ _ _ _ monMemxpEntry_observes).bind fun _ => observes_pure _

/-- A command is the change its line asks for. -/
theorem command_monitor (h : command ctx text s = .ok (reply, leave) t) :
    monitor (pgmodOf text).toList s = .ok () t := by
  rw [command] at h
  rw [pgmodOf]
  generalize arguments text = argv at h
  cases argv with
  | nil =>
    obtain ⟨-, rfl⟩ := pure_eq_ok.mp h
    rfl
  | cons name args =>
    dsimp only at h ⊢
    by_cases hmany : 15 ≤ args.length
    · rw [Prog.ite_apply, if_pos hmany] at h
      obtain ⟨-, rfl⟩ := pure_eq_ok.mp h
      rw [if_pos hmany]
      rfl
    · rw [Prog.ite_apply, if_neg hmany] at h
      rw [if_neg hmany]
      cases hfind : commands.find? fun c => c.name = name with
      | none =>
        rw [hfind] at h
        obtain ⟨-, rfl⟩ := pure_eq_ok.mp h
        rfl
      | some c =>
        rw [hfind] at h
        dsimp only at h ⊢
        by_cases hf : c.func = .pgmod
        · rw [hf] at h
          obtain ⟨msg, u, hmod, hlast⟩ := bind_eq_ok.mp h
          obtain ⟨-, rfl⟩ := pure_eq_ok.mp hlast
          rw [if_pos hf]
          cases hread : readPgmod (name :: args) with
          | error msg' =>
            rw [monPgmodArgs_error hread] at hmod
            cases hmod
            rfl
          | ok c =>
            have hone := (monPgmodArgs_eq hread).mp ⟨msg, hmod⟩
            change (monPgmod c >>= fun _ => pure ()) s = _
            rw [bind_ok hone]
            rfl
        · obtain rfl := MonFunc.call_observes hf _ _ _ h
          rw [if_neg hf]
          rfl

theorem monitor_append {ms ms' : List PgMod} (h : monitor ms s = .ok () t) :
    monitor (ms ++ ms') s = monitor ms' t := by
  induction ms generalizing s with
  | nil =>
    obtain ⟨-, rfl⟩ := pure_eq_ok.mp h
    rfl
  | cons c ms ih =>
    obtain ⟨⟨⟩, u, hc, hrest⟩ := bind_eq_ok.mp h
    rw [List.cons_append, monitor, bind_ok hc, ih hrest]

/-- A session changes what its pgmod commands change, one after the other. -/
theorem Session.monitor (h : Session ctx s texts replies t) :
    Jos.monitor (texts.filterMap pgmodOf) s = .ok () t := by
  have hcons : ∀ text texts, (text :: texts).filterMap pgmodOf =
      (pgmodOf text).toList ++ texts.filterMap pgmodOf := by
    intro text texts
    rw [List.filterMap_cons]
    cases pgmodOf text <;> rfl
  induction h with
  | leave h => rw [hcons, monitor_append (command_monitor h)]; rfl
  | stay h _ ih => rw [hcons, monitor_append (command_monitor h), ih]

end rights

/-- However long the monitor is used, and whatever is typed, when it returns the kernel is as the pgmod
commands among the lines leave it: only rights of mappings differ, and no address leads elsewhere. -/
theorem monitorTyped_rights {ctx : MonContext} {s t : MonState} {replies : List Reply}
    (h : monitorTyped ctx s = .ok replies t) :
    (∃ lines : List TypedLine, s.line.input = lines.flatMap TypedLine.chars ++ t.line.input ∧
      monitor ((lines.map TypedLine.text).filterMap pgmodOf) s.kernel = .ok () t.kernel) ∧
    RightsOnly s.kernel t.kernel ∧
    ∀ d va, (hwWalk t.kernel.mem d va).map Translation.page =
      (hwWalk s.kernel.mem d va).map Translation.page := by
  rw [monitorTyped, bind_ok (read_apply s)] at h
  obtain ⟨lines, hin, hsession⟩ := monitorLoop_session h
  have hrights := monitor_rights hsession.monitor
  exact ⟨⟨lines, hin, hsession.monitor⟩, hrights, hrights.page_eq⟩

/-- A directory that maps one page, at address 0. -/
def oneMapping : Kernel :=
  { bss fun p i => if p = 1 ∧ i = 0 then 0x2003#32 else if p = 2 ∧ i = 0 then 0x3001#32 else 0#32 with
    npages := 4
    kernPgdir := 1
    cr3 := 1 }

def pgmodLine : TypedLine :=
  ⟨ascii ['p', 'g', 'm', 'o', 'd', ' ', '0', ' ', '1', ' ', '0'], 13, by decide, by decide⟩

def exitLine : TypedLine := ⟨ascii ['e', 'x', 'i', 't'], 10, by decide, by decide⟩

/-- Two lines are typed, and the page is the user's. -/
theorem monitorTyped_rights_pgmod : ∃ (ctx : MonContext) (t : MonState),
    monitorTyped ctx ⟨⟨pgmodLine.chars ++ exitLine.chars, [], fun _ => 0⟩, oneMapping⟩ =
      .ok [.pgmod [], .goodbye] t ∧
    t.kernel.mem 2 0 = 0x3005#32 ∧ RightsOnly oneMapping t.kernel := by
  let ctx : MonContext := ⟨0, fun _ => 0, ⟨0, 0, 0, 0⟩, id, 0⟩
  have hpgmod : arguments pgmodLine.text =
      [ascii ['p', 'g', 'm', 'o', 'd'], ascii ['0'], ascii ['1'], ascii ['0']] := by decide
  have hexit : arguments exitLine.text = [ascii ['e', 'x', 'i', 't']] := by decide
  have hsession : Session ctx oneMapping ([pgmodLine, exitLine].map TypedLine.text) [.pgmod [], .goodbye]
      (oneMapping.store 2 0 0x3005#32) := by
    refine .stay (t := oneMapping.store 2 0 0x3005#32) ?_ (.leave ?_)
    · rw [command, hpgmod]
      rfl
    · rw [command, hexit]
      rfl
  obtain ⟨t, hrun, hkernel, -⟩ : ∃ t, monitorTyped ctx
      ⟨⟨pgmodLine.chars ++ exitLine.chars, [], fun _ => 0⟩, oneMapping⟩ = .ok [.pgmod [], .goodbye] t ∧
      t.kernel = oneMapping.store 2 0 0x3005#32 ∧ t.line.input = [] :=
    hsession.monitorTyped rfl
  refine ⟨ctx, t, hrun, ?_, (monitorTyped_rights hrun).2.1⟩
  rw [hkernel]
  rfl

end Jos
