import Jos.Kern.Hardware

/-! The translations the processor may have cached: what the tables under cr3 gave at any moment,
until lcr3 empties the TLB or invlpg drops the entries of a page. -/
namespace Jos

/-- The tables as the processor sees them, and the translations its TLB may hold, by page number. -/
structure Processor where
  mem : Nat → Nat → Word
  cr3 : Nat
  tlb : Nat → Translation → Prop

namespace Processor

/-- The walk for a whole page. -/
def Walks (mem : Nat → Nat → Word) (cr3 v : Nat) (x : Translation) : Prop :=
  hwWalk mem cr3 (page2pa v) = some x

/-- At each moment the processor may cache whatever its tables give. -/
def caching (c : Processor) : Processor :=
  { c with tlb := fun v x => c.tlb v x ∨ Walks c.mem c.cr3 v x }

def see (c : Processor) : HwEvent → Processor
  | .store p i w =>
    caching { c with mem := fun q j => if q = p ∧ j = i then w else c.mem q j }
  | .lcr3 d => caching { c with cr3 := d, tlb := fun _ _ => False }
  | .invlpg va => caching { c with tlb := fun v x => v ≠ pgnum va ∧ c.tlb v x }

def sees (c : Processor) (events : List HwEvent) : Processor := events.foldl see c

end Processor

/-- A processor whose TLB holds nothing but what the tables give now. -/
def Kernel.processor (s : Kernel) : Processor :=
  ⟨s.mem, s.cr3, Processor.Walks s.mem s.cr3⟩

/-- The processor may use this translation of the address in state `t`, its TLB having been up to
date in state `s`. -/
def Usable (s t : Kernel) (va : Word) (x : Translation) : Prop :=
  (s.processor.sees (t.log.drop s.log.length)).tlb (pgnum va) x

variable {s : Kernel} {mem : Nat → Nat → Word} {d p i : Nat} {w va a b : Word} {x : Translation}

theorem hwWalk_samePage (h : pgnum a = pgnum b) : hwWalk mem d a = hwWalk mem d b := by
  have ha := pgnum_eq_indices a
  have hb := pgnum_eq_indices b
  have hlta := ptx_lt a
  have hltb := ptx_lt b
  have hdx : pdx a = pdx b := by omega
  have htx : ptx a = ptx b := by omega
  unfold hwWalk
  rw [hdx, htx]

theorem walks_pgnum : Processor.Walks mem d (pgnum va) x ↔ hwWalk mem d va = some x := by
  have hpage : pgnum (page2pa (pgnum va)) = pgnum va := pgnum_page2pa (pgnum_lt va)
  rw [Processor.Walks, hwWalk_samePage hpage]

/-- A store alone flushes nothing: old and new translations are usable. -/
theorem usable_store : Usable s (s.store p i w) va x ↔
    hwWalk s.mem s.cr3 va = some x ∨ hwWalk (s.store p i w).mem s.cr3 va = some x := by
  have hlog : (s.store p i w).log.drop s.log.length = [.store p i w] := List.drop_left
  rw [Usable, hlog]
  exact or_congr walks_pgnum walks_pgnum

end Jos
