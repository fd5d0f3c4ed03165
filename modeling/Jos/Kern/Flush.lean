import Jos.Kern.Tlb
import Jos.Kern.SysRuns

/-! What the TLB may hold follows the tables of the loaded directory: the rules for single stores and
control instructions. -/
namespace Jos

open Prog

namespace Processor

/-- The processor's memory and directory are the kernel's. -/
def At (c : Processor) (s : Kernel) : Prop := c.mem = s.mem ∧ c.cr3 = s.cr3

/-- Every translation that the TLB may hold is the one that the tables of the loaded directory give. -/
def UpToDate (c : Processor) (s : Kernel) : Prop := ∀ v < 2 ^ 20, ∀ x, c.tlb v x → Walks s.mem s.cr3 v x

variable {c : Processor} {s : Kernel} {events events' : List HwEvent} {d v : Nat}
  {mem mem' : Nat → Nat → Word} {x : Translation}

theorem sees_append : c.sees (events ++ events') = (c.sees events).sees events' := List.foldl_append

/-- Between present entries that have not changed, the walk goes the same way. -/
theorem Walks.of_entries (hw : Walks mem d v x)
    (hd : Has (mem d (pdx (page2pa v))) pteP → mem' d (pdx (page2pa v)) = mem d (pdx (page2pa v)))
    (ht : Has (mem d (pdx (page2pa v))) pteP →
      Has (mem (pgnum (mem d (pdx (page2pa v)))) (ptx (page2pa v))) pteP →
      mem' (pgnum (mem d (pdx (page2pa v)))) (ptx (page2pa v)) =
        mem (pgnum (mem d (pdx (page2pa v)))) (ptx (page2pa v))) : Walks mem' d v x := by
  unfold Walks at hw ⊢
  by_cases hpd : Has (mem d (pdx (page2pa v))) pteP
  swap
  · rw [hwWalk_absent hpd] at hw
    cases hw
  by_cases hpt : Has (mem (pgnum (mem d (pdx (page2pa v)))) (ptx (page2pa v))) pteP
  swap
  · rw [hwWalk_unmapped hpt] at hw
    cases hw
  rw [hwWalk_mapped hpd hpt] at hw
  have h1 := hd hpd
  have h2 := ht hpd hpt
  rw [hwWalk_mapped (by rwa [h1]) (by rwa [h1, h2]), h1, h2]
  exact hw

/-- No entry on the way of a walk has been changed that was present. -/
theorem Walks.grow (hw : Walks mem d v x) (h : ∀ q j, Has (mem q j) pteP → mem' q j = mem q j) :
    Walks mem' d v x :=
  hw.of_entries (h _ _) fun _ => h _ _

end Processor

/-- What the processor sees of the state. -/
def Kernel.seenPart (s : Kernel) : (Nat → Nat → Word) × Nat × List HwEvent × Nat :=
  (s.mem, s.cr3, s.log, s.kernPgdir)

/-- The events from `s` to `t`, which the processor has seen. -/
def Leads (s t : Kernel) (events : List HwEvent) : Prop :=
  t.log = s.log ++ events ∧ ∀ c : Processor, c.At s → (c.sees events).At t

/-- A TLB that is up to date in `s` is so in `t`. -/
def Flushed (s t : Kernel) : Prop :=
  ∃ events, Leads s t events ∧ ∀ c : Processor, c.At s → c.UpToDate s → (c.sees events).UpToDate t

/-- Any TLB is up to date in `t`: it has been emptied since `s`. -/
def Emptied (s t : Kernel) : Prop :=
  ∃ events, Leads s t events ∧ ∀ c : Processor, c.At s → (c.sees events).UpToDate t

/-- Page `p` is not on the way of any walk. -/
def OffWalk (s : Kernel) (p : Nat) : Prop :=
  p ≠ s.cr3 ∧ ∀ i < 1024, target (s.mem s.cr3 i) ≠ some p

section rules

variable {s t u : Kernel} {events events' : List HwEvent} {d p i n : Nat} {w va : Word}

theorem Leads.nil (hm : t.mem = s.mem) (hc : t.cr3 = s.cr3) (hl : t.log = s.log) : Leads s t [] := by
  refine ⟨by rw [hl, List.append_nil], fun c h => ?_⟩
  rw [Processor.At, hm, hc]
  exact h

theorem Leads.trans (h : Leads s t events) (h' : Leads t u events') : Leads s u (events ++ events') := by
  refine ⟨by rw [h'.1, h.1, List.append_assoc], fun c hc => ?_⟩
  rw [Processor.sees_append]
  exact h'.2 _ (h.2 c hc)

theorem Leads.store : Leads s (s.store p i w) [.store p i w] := by
  refine ⟨rfl, ?_⟩
  rintro ⟨mem, cr3, tlb⟩ ⟨rfl, rfl⟩
  exact ⟨rfl, rfl⟩

theorem Leads.emit : Leads s (s.emit (.invlpg va)) [.invlpg va] := ⟨rfl, fun _ h => h⟩

theorem Leads.lcr3 : Leads s (s.loadCr3 d) [.lcr3 d] := ⟨rfl, fun _ h => ⟨h.1, rfl⟩⟩

namespace Flushed

/-- Nothing that the processor could see. -/
theorem quiet (hm : t.mem = s.mem) (hc : t.cr3 = s.cr3) (hl : t.log = s.log) : Flushed s t :=
  ⟨[], Leads.nil hm hc hl, fun c _ h v hv x hx => by rw [hm, hc]; exact h v hv x hx⟩

theorem refl (s : Kernel) : Flushed s s := quiet rfl rfl rfl

theorem of_seenPart (h : t.seenPart = s.seenPart) : Flushed s t := by
  simp only [Kernel.seenPart, Prod.mk.injEq] at h
  exact quiet h.1 h.2.1 h.2.2.1

theorem trans (h : Flushed s t) (h' : Flushed t u) : Flushed s u := by
  obtain ⟨events, hl, hc⟩ := h
  obtain ⟨events', hl', hc'⟩ := h'
  refine ⟨events ++ events', hl.trans hl', fun c hat hcoh => ?_⟩
  rw [Processor.sees_append]
  exact hc' _ (hl.2 c hat) (hc c hat hcoh)

/-- A store that leaves every walk as it was. -/
theorem store (h : ∀ v x, Processor.Walks s.mem s.cr3 v x → Processor.Walks (s.store p i w).mem s.cr3 v x) :
    Flushed s (s.store p i w) := by
  refine ⟨_, Leads.store, ?_⟩
  rintro ⟨mem, cr3, tlb⟩ ⟨rfl, rfl⟩ hcoh v hv x hx
  rcases hx with hx | hx
  · exact h v x (hcoh v hv x hx)
  · exact hx

/-- A store to an entry that is not present flushes nothing, and need not. -/
theorem store_absent (h : ¬ Has (s.mem p i) pteP) : Flushed s (s.store p i w) := by
  refine store fun v x hx => hx.grow fun q j hP => ?_
  rw [Kernel.mem_store, if_neg]
  rintro ⟨rfl, rfl⟩
  exact h hP

/-- A store to a page that no walk goes through. -/
theorem store_outside (h : OffWalk s p) : Flushed s (s.store p i w) := by
  refine store fun v x hx => hx.of_entries (fun _ => ?_) fun hP _ => ?_
  · exact Kernel.mem_store_of_ne (Ne.symm h.1)
  · refine Kernel.mem_store_of_ne fun he => h.2 _ (pdx_lt _) (target_eq_some.mpr ⟨hP, he⟩)

/-- A store that changes the walk of one page, which is flushed then. -/
theorem store_invlpg (h : ∀ v < 2 ^ 20, v ≠ pgnum va → ∀ x, Processor.Walks s.mem s.cr3 v x →
    Processor.Walks (s.store p i w).mem s.cr3 v x) : Flushed s ((s.store p i w).emit (.invlpg va)) := by
  refine ⟨_, Leads.store.trans Leads.emit, ?_⟩
  rintro ⟨mem, cr3, tlb⟩ ⟨rfl, rfl⟩ hcoh v hv x hx
  rcases hx with ⟨hne, hx | hx⟩ | hx
  · exact h v hv hne x (hcoh v hv x hx)
  · exact hx
  · exact hx

end Flushed

theorem OffWalk.congr (h : OffWalk s p) (hm : t.mem = s.mem) (hc : t.cr3 = s.cr3) : OffWalk t p := by
  rw [OffWalk, hm, hc]
  exact h

/-- Storing outside changes no walk. -/
theorem OffWalk.store {q : Nat} (h : OffWalk s p) (hq : OffWalk s q) : OffWalk (s.store p i w) q := by
  refine ⟨hq.1, fun k hk => ?_⟩
  have hmem : (s.store p i w).mem s.cr3 k = s.mem s.cr3 k := Kernel.mem_store_of_ne (Ne.symm h.1)
  exact hmem ▸ hq.2 k hk

theorem fill_zero (s : Kernel) (p : Nat) (w : Word) : s.fill p 0 w = s := by
  have hmem : (s.fill p 0 w).mem = s.mem := by
    funext q j
    rw [Kernel.mem_fill, if_neg fun hc => Nat.not_lt_zero j hc.2]
  have hlog : (s.fill p 0 w).log = s.log := List.append_nil _
  change { s with mem := (s.fill p 0 w).mem, log := (s.fill p 0 w).log } = s
  rw [hmem, hlog]

theorem fill_succ (s : Kernel) (p n : Nat) (w : Word) : s.fill p (n + 1) w = (s.fill p n w).store p n w := by
  have hmem : (s.fill p (n + 1) w).mem = ((s.fill p n w).store p n w).mem := by
    funext q j
    rw [Kernel.mem_fill, Kernel.mem_store, Kernel.mem_fill]
    by_cases hn : q = p ∧ j = n
    · rw [if_pos (show q = p ∧ j < n + 1 by omega), if_pos hn]
    · rw [if_neg hn]
      exact if_congr (by omega) rfl rfl
  have hlog : (s.fill p (n + 1) w).log = ((s.fill p n w).store p n w).log := by
    change s.log ++ (List.range (n + 1)).map _ = s.log ++ (List.range n).map _ ++ [_]
    rw [List.range_succ, List.map_append, List.append_assoc]
    rfl
  have hrest : s.fill p (n + 1) w = { s with
      mem := (s.fill p (n + 1) w).mem
      log := (s.fill p (n + 1) w).log } := rfl
  rw [hrest, hmem, hlog]
  rfl

theorem OffWalk.fill (h : OffWalk s p) : OffWalk (s.fill p n w) p := by
  refine ⟨h.1, fun k hk => ?_⟩
  have hmem : (s.fill p n w).mem s.cr3 k = s.mem s.cr3 k := Kernel.mem_fill_of_ne (Ne.symm h.1)
  exact hmem ▸ h.2 k hk

theorem Flushed.fill (h : OffWalk s p) : Flushed s (s.fill p n w) := by
  induction n with
  | zero =>
    rw [fill_zero]
    exact Flushed.refl s
  | succ n ih =>
    rw [fill_succ]
    exact ih.trans (Flushed.store_outside h.fill)

namespace Emptied

theorem lcr3 : Emptied s (s.loadCr3 d) := by
  refine ⟨_, Leads.lcr3, ?_⟩
  rintro ⟨mem, cr3, tlb⟩ ⟨rfl, rfl⟩ v - x hx
  rcases hx with hx | hx
  · exact absurd hx id
  · exact hx

theorem flushed (h : Emptied s t) : Flushed s t := by
  obtain ⟨events, hl, hc⟩ := h
  exact ⟨events, hl, fun c hat _ => hc c hat⟩

theorem trans (h : Emptied s t) (h' : Flushed t u) : Emptied s u := by
  obtain ⟨events, hl, hc⟩ := h
  obtain ⟨events', hl', hc'⟩ := h'
  refine ⟨events ++ events', hl.trans hl', fun c hat => ?_⟩
  rw [Processor.sees_append]
  exact hc' _ (hl.2 c hat) (hc c hat)

end Emptied

theorem Flushed.emptied (h : Flushed s t) (h' : Emptied t u) : Emptied s u := by
  obtain ⟨events, hl, -⟩ := h
  obtain ⟨events', hl', hc'⟩ := h'
  refine ⟨events ++ events', hl.trans hl', fun c hat => ?_⟩
  rw [Processor.sees_append]
  exact hc' _ (hl.2 c hat)

end rules

end Jos
