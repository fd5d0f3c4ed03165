import Jos.Library.Prog
import Jos.Inc.Mmu

/-! The text screen (kern/console.c, with the sizes of kern/console.h). -/
namespace Jos

open Prog

def crtRows : Nat := 25

def crtCols : Nat := 80

def crtSize : Nat := crtRows * crtCols

/-- What cga_putc and cons_putc run on. -/
structure Crt where
  crtBuf : Nat → BitVec 16
  crtPos : BitVec 16
  addr6845 : Word
  /-- what has been written to the ports -/
  ports : List (Word × Byte)

/-- An index outside crt_buf, or too many cga_putc inside each other. -/
inductive CrtFault where
  | badCell (i : Nat)
  | deep
deriving DecidableEq

def outb (port : Word) (data : Byte) : Prog CrtFault Crt Unit :=
  update fun s => { s with ports := s.ports ++ [(port, data)] }

def loadCell (i : Nat) : Prog CrtFault Crt (BitVec 16) := do
  check (.badCell i) (i < crtSize)
  let s ← read
  pure (s.crtBuf i)

def storeCell (i : Nat) (c : BitVec 16) : Prog CrtFault Crt Unit := do
  check (.badCell i) (i < crtSize)
  update fun s => { s with crtBuf := Function.update s.crtBuf i c }

def setPos (f : BitVec 16 → BitVec 16) : Prog CrtFault Crt Unit :=
  update fun s => { s with crtPos := f s.crtPos }

/-- serial_putc, without the wait for the port. -/
def serialPutc (c : Word) : Prog CrtFault Crt Unit := outb 0x3F8 (c.setWidth 8)

/-- lpt_putc, without the wait for the port. -/
def lptPutc (c : Word) : Prog CrtFault Crt Unit := do
  outb 0x378 (c.setWidth 8)
  outb 0x37A 0x0D
  outb 0x37A 0x08

/-- memmove of `n` cells, to a lower place. -/
def moveCells : Nat → Nat → Nat → Prog CrtFault Crt Unit
  | _, _, 0 => pure ()
  | dst, src, n + 1 => do
    let c ← loadCell src
    storeCell dst c
    moveCells (dst + 1) (src + 1) n

/-- `for (i = ...; i < ...; i++) crt_buf[i] = 0x0700 | ' '`, for `n` cells. -/
def blankCells : Nat → Nat → Prog CrtFault Crt Unit
  | _, 0 => pure ()
  | i, n + 1 => do
    storeCell i 0x0720
    blankCells (i + 1) n

/-- `if (crt_pos >= CRT_SIZE)`: everything moves up by a row. -/
def cgaScroll : Prog CrtFault Crt Unit := do
  let s ← read
  if crtSize ≤ s.crtPos.toNat then do
    moveCells 0 crtCols (crtSize - crtCols)
    blankCells (crtSize - crtCols) crtCols
    setPos fun pos => pos - 80
  else
    pure ()

/-- Move that little blinky thing. -/
def cgaCursor : Prog CrtFault Crt Unit := do
  let s ← read
  outb s.addr6845 14
  outb (s.addr6845 + 1) ((s.crtPos >>> 8).setWidth 8)
  outb s.addr6845 15
  outb (s.addr6845 + 1) (s.crtPos.setWidth 8)

/-- If no attribute is given, then black on white. -/
def withAttribute (c : Word) : Word := if c &&& ~~~0xFF = 0 then c ||| 0x0700 else c

/-- `case '\b'`. -/
def cgaBackspace (c : Word) : Prog CrtFault Crt Unit := do
  let s ← read
  if 0 < s.crtPos then do
    setPos fun pos => pos - 1
    storeCell (s.crtPos - 1).toNat ((c &&& ~~~0xFF ||| 0x20).setWidth 16)
  else
    pure ()

/-- `case '\r'`. -/
def cgaReturn : Prog CrtFault Crt Unit := setPos fun pos => pos - pos % 80

/-- `default`: write the character. -/
def cgaWrite (c : Word) : Prog CrtFault Crt Unit := do
  let s ← read
  storeCell s.crtPos.toNat (c.setWidth 16)
  setPos fun pos => pos + 1

/-- The switch of cga_putc. -/
def cgaSwitch (consPutc : Word → Prog CrtFault Crt Unit) (c : Word) : Prog CrtFault Crt Unit :=
  match (c &&& 0xFF).toNat with
  | 8 => cgaBackspace c
  | 10 => do
    setPos fun pos => pos + 80
    -- fallthru
    cgaReturn
  | 13 => cgaReturn
  | 9 => do
    consPutc 0x20
    consPutc 0x20
    consPutc 0x20
    consPutc 0x20
    consPutc 0x20
  | _ => cgaWrite c

/-- cons_putc, over cga_putc. -/
def consPutcWith (cgaPutc : Word → Prog CrtFault Crt Unit) (c : Word) : Prog CrtFault Crt Unit := do
  serialPutc c
  lptPutc c
  cgaPutc c

/-- cga_putc, with at most so many cga_putc inside each other. -/
def cgaPutcFor : Nat → Word → Prog CrtFault Crt Unit
  | 0, _ => stop .deep
  | depth + 1, c => do
    cgaSwitch (consPutcWith (cgaPutcFor depth)) (withAttribute c)
    cgaScroll
    cgaCursor

/-- cga_putc. A tab puts out spaces, which put out nothing else. -/
def cgaPutc (c : Word) : Prog CrtFault Crt Unit := cgaPutcFor 2 c

/-- cons_putc. -/
def consPutc (c : Word) : Prog CrtFault Crt Unit := consPutcWith cgaPutc c

/-- One cga_putc after the other. -/
def cgaPutcs : List Word → Prog CrtFault Crt Unit
  | [] => pure ()
  | c :: cs => do
    cgaPutc c
    cgaPutcs cs

end Jos
