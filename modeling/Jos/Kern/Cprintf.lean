import Jos.Kern.ConsInit
import Jos.Lib.Printf

/-! cprintf on the console (kern/printf.c): what is formatted comes out on the three devices. -/
namespace Jos

open Prog

/-- Why cprintf does not return. -/
inductive PrintStop where
  | format (why : Halt)
  | console (fault : CrtFault)

namespace Console

def putch (ch : Word) : Prog PrintStop Console Unit := mapStop .console (cputchar ch)

def printer (mem : Word → Option Byte) : Printer PrintStop Console where
  load a :=
    match mem a with
    | none => stop (.format .stray)
    | some b => pure b
  putch := putch
  spin := .format .spin
  stray := .format .stray

/-- vcprintf. putch moves its pointer to the count, and never the count. -/
def vcprintf (fuel : Nat) (mem : Word → Option Byte) (fmt : CharPtr) (ap : VaList) :
    Prog PrintStop Console Word := do
  (printer mem).vprintfmt fuel fmt ap
  pure 0

end Console

section cprintf

variable {m : Word → Option Byte} {fmt : CharPtr} {ap : VaList} {fuel : Nat} {out cs : List Word}
  {s t : Console} {scr : Screen} {c : Word}

end cprintf

end Jos
