import Jos.Kern.Cprintf
import Jos.Kern.TrapInit
import Jos.Kern.UserTime

/-! i386_init (kern/init.c): from the cleared BSS to the first instruction of the user program. -/
namespace Jos

open Prog

/-- What i386_init works on: memory with the kernel's variables, the display adapter and the lines behind
the ports, the console, and the processor's tables. -/
structure Pc where
  kernel : Kernel
  video : Video
  lines : Lines
  console : Console
  tables : Tables

inductive InitStop where
  | kernel (why : Stop)
  | console (fault : CrtFault)
  | cprintf (why : PrintStop)
  | tables

namespace Pc

def onKernel {α : Type} : Kern α → Prog InitStop Pc α :=
  zoom .kernel Pc.kernel fun kernel s => { s with kernel := kernel }

def onConsole {ε α : Type} (g : ε → InitStop) : Prog ε Console α → Prog InitStop Pc α :=
  zoom g Pc.console fun console s => { s with console := console }

/-- What changes the tables, or ends in an exception that nobody handles. -/
def onTables (f : Tables → Option Tables) : Prog InitStop Pc Unit :=
  ⟨fun s => match f s.tables with
    | none => .stop .tables s
    | some t => .ok () { s with tables := t }⟩

def consInit : Prog InitStop Pc Bool := do
  update fun s =>
    let found := cgaInit s.video s.lines
    { s with video := found.1, console := { s.console with crt := found.2 } }
  onConsole .console Console.consInit

/-- env_init with its call of env_init_percpu. -/
def envInit : Prog InitStop Pc Unit := do
  onTables envInitPercpu
  onKernel Jos.envInit

end Pc

/-- The pages page_init finds free. -/
def freeAtBoot (m : Machine) : Nat := (freePages (page2pa (heapEnd m)) (detectedPages m)).length

section boot

variable {m : Machine} {mem : Nat → Nat → Word} {s t u : Kernel} {L : Ledger} {fl efl : List Nat}
  {d e p : Nat} {b : Binary}

/-- mem_init's tables cost 67 pages at most. -/
theorem Booting.length_le {s₀ : Kernel} {M : Nat → Word} (h : Booting m s₀ s fl M) :
    freeAtBoot m ≤ fl.length + 67 := by
  obtain ⟨taken, hperm, hlen⟩ := h.free
  have hlen' := hperm.length_eq
  rw [List.length_append] at hlen'
  rw [freeAtBoot]
  omega

section pc

variable {α : Type} {a : α} {k k' : Kernel} {v : Video} {l : Lines} {c c' : Console} {x y : Tables}

theorem Pc.onKernel_ok {prog : Kern α} (h : prog k = .ok a k') :
    Pc.onKernel prog ⟨k, v, l, c, x⟩ = .ok a ⟨k', v, l, c, x⟩ := zoom_ok h

end pc

end boot

end Jos
