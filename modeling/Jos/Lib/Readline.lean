import Jos.Library.Prog
import Jos.Inc.Mmu

/-! Line editing (lib/readline.c, with getchar and iscons of kern/console.c). -/
namespace Jos

open Prog

def buflen : Nat := 1024

/-- What is put out on the console: by cputchar, or by cprintf with "%s" or "read error: %e\n". -/
inductive ConsoleOut where
  | cputchar (c : Word)
  | prompt (s : List Byte)
  | readError (c : Word)
deriving DecidableEq

/-- What readline runs on. -/
structure LineIn where
  /-- what cons_getc returns, call by call; 0 when no character waits -/
  input : List Byte
  console : List ConsoleOut
  /-- readline's buffer -/
  buf : Nat → Byte

/-- An index outside the buffer, or no end of the waiting. -/
inductive LineFault where
  | badIndex (i : Int)
  | waits
deriving DecidableEq

/-- What getchar skips and takes of the input, and what it leaves. -/
def nextChar : List Byte → Option (Byte × List Byte)
  | [] => none
  | c :: rest => if c = 0 then nextChar rest else some (c, rest)

def getchar : Prog LineFault LineIn Word := do
  let s ← read
  match nextChar s.input with
  | none => stop .waits
  | some (c, rest) => do
    update fun s => { s with input := rest }
    pure (c.setWidth 32)

def putOut (out : ConsoleOut) : Prog LineFault LineIn Unit :=
  update fun s => { s with console := s.console ++ [out] }

/-- `if (echoing) cputchar(c)`. -/
def echoChar (echoing c : Word) : Prog LineFault LineIn Unit :=
  if echoing ≠ 0 then putOut (.cputchar c) else pure ()

/-- `buf[i] = c`. -/
def storeLine (i : Int) (c : Byte) : Prog LineFault LineIn Unit := do
  check (.badIndex i) (0 ≤ i ∧ i < buflen)
  update fun s => { s with buf := Function.update s.buf i.toNat c }

def iscons (_fdnum : Word) : Word := 1

/-- How readline goes on: with another character, or back to its caller, with NULL or the buffer. -/
inductive LineNext where
  | again (i : Int)
  | null
  | line
deriving DecidableEq

/-- A round of the loop, with the character read. -/
def readlineChar (echoing : Word) (i : Int) (c : Word) : Prog LineFault LineIn LineNext :=
  if c.toInt < 0 then do
    putOut (.readError c)
    pure .null
  else if (c = 8 ∨ c = 0x7F) ∧ 0 < i then do
    echoChar echoing 8
    pure (.again (i - 1))
  else if 32 ≤ c.toInt ∧ i < buflen - 1 then do
    echoChar echoing c
    storeLine i (c.setWidth 8)
    pure (.again (i + 1))
  else if c = 10 ∨ c = 13 then do
    echoChar echoing 10
    storeLine i 0
    pure .line
  else
    pure (.again i)

/-- One character: it is waited for and dealt with. -/
def readlineRound (echoing : Word) (i : Int) : Prog LineFault LineIn LineNext := do
  let c ← getchar
  readlineChar echoing i c

/-- The loop, for at most the given number of characters; whether it ends with the buffer. -/
def readlineLoop (echoing : Word) : Nat → Int → Prog LineFault LineIn Bool
  | 0, _ => stop .waits
  | rounds + 1, i => do
    match ← readlineRound echoing i with
    | .again i' => readlineLoop echoing rounds i'
    | .null => pure false
    | .line => pure true

/-- `if (prompt != NULL) cprintf("%s", prompt)`. -/
def showPrompt : Option (List Byte) → Prog LineFault LineIn Unit
  | none => pure ()
  | some text => putOut (.prompt text)

/-- readline; whether it returns its buffer rather than NULL. It cannot take more characters than
there are to come. -/
def readline (prompt : Option (List Byte)) : Prog LineFault LineIn Bool := do
  showPrompt prompt
  let s ← read
  readlineLoop (iscons 0) (s.input.length + 1) 0

end Jos
