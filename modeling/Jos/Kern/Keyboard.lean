import Jos.Lib.Printfmt
import Mathlib.Logic.Function.Iterate

/-! Keyboard input (kern/console.c, with the key codes of inc/kbdreg.h). -/
namespace Jos

def keyHome : Byte := 0xE0

def keyEnd : Byte := 0xE1

def keyUp : Byte := 0xE2

def keyDn : Byte := 0xE3

def keyLf : Byte := 0xE4

def keyRt : Byte := 0xE5

def keyPgup : Byte := 0xE6

def keyPgdn : Byte := 0xE7

def keyIns : Byte := 0xE8

def keyDel : Byte := 0xE9

/-! The bits of the state word. -/

def kbdShift : Word := 1#32 <<< 0

def kbdCtl : Word := 1#32 <<< 1

def kbdAlt : Word := 1#32 <<< 2

def capslock : Word := 1#32 <<< 3

def numlock : Word := 1#32 <<< 4

def scrolllock : Word := 1#32 <<< 5

def e0esc : Word := 1#32 <<< 6

def shiftcode (data : Byte) : Word :=
  match data.toNat with
  | 0x1D => kbdCtl
  | 0x2A => kbdShift
  | 0x36 => kbdShift
  | 0x38 => kbdAlt
  | 0x9D => kbdCtl
  | 0xB8 => kbdAlt
  | _ => 0

def togglecode (data : Byte) : Word :=
  match data.toNat with
  | 0x3A => capslock
  | 0x45 => numlock
  | 0x46 => scrolllock
  | _ => 0

/-- The entries that normalmap and shiftmap share. -/
def specialmap (data : Byte) : Byte :=
  match data.toNat with
  | 0xC7 => keyHome
  | 0x9C => 10
  | 0xB5 => chr '/'
  | 0xC8 => keyUp
  | 0xC9 => keyPgup
  | 0xCB => keyLf
  | 0xCD => keyRt
  | 0xCF => keyEnd
  | 0xD0 => keyDn
  | 0xD1 => keyPgdn
  | 0xD2 => keyIns
  | 0xD3 => keyDel
  | _ => 0

def normalRows : List Byte :=
  [0, 0x1B, chr '1', chr '2', chr '3', chr '4', chr '5', chr '6',
    chr '7', chr '8', chr '9', chr '0', chr '-', chr '=', 8, 9,
    chr 'q', chr 'w', chr 'e', chr 'r', chr 't', chr 'y', chr 'u', chr 'i',
    chr 'o', chr 'p', chr '[', chr ']', 10, 0, chr 'a', chr 's',
    chr 'd', chr 'f', chr 'g', chr 'h', chr 'j', chr 'k', chr 'l', chr ';',
    39, 96, 0, 92, chr 'z', chr 'x', chr 'c', chr 'v',
    chr 'b', chr 'n', chr 'm', chr ',', chr '.', chr '/', 0, chr '*',
    0, chr ' ', 0, 0, 0, 0, 0, 0,
    0, 0, 0, 0, 0, 0, 0, chr '7',
    chr '8', chr '9', chr '-', chr '4', chr '5', chr '6', chr '+', chr '1',
    chr '2', chr '3', chr '0', chr '.', 0, 0, 0, 0]

def normalmap (data : Byte) : Byte := normalRows.getD data.toNat (specialmap data)

def shiftRows : List Byte :=
  [0, 0x1B, chr '!', chr '@', chr '#', chr '$', chr '%', chr '^',
    chr '&', chr '*', chr '(', chr ')', chr '_', chr '+', 8, 9,
    chr 'Q', chr 'W', chr 'E', chr 'R', chr 'T', chr 'Y', chr 'U', chr 'I',
    chr 'O', chr 'P', 123, 125, 10, 0, chr 'A', chr 'S',
    chr 'D', chr 'F', chr 'G', chr 'H', chr 'J', chr 'K', chr 'L', chr ':',
    34, chr '~', 0, chr '|', chr 'Z', chr 'X', chr 'C', chr 'V',
    chr 'B', chr 'N', chr 'M', chr '<', chr '>', chr '?', 0, chr '*',
    0, chr ' ', 0, 0, 0, 0, 0, 0,
    0, 0, 0, 0, 0, 0, 0, chr '7',
    chr '8', chr '9', chr '-', chr '4', chr '5', chr '6', chr '+', chr '1',
    chr '2', chr '3', chr '0', chr '.', 0, 0, 0, 0]

def shiftmap (data : Byte) : Byte := shiftRows.getD data.toNat (specialmap data)

/-- C(x). -/
def ctl (c : Char) : Byte := chr c - chr '@'

def ctlRows : List Byte :=
  [0, 0, 0, 0, 0, 0, 0, 0,
    0, 0, 0, 0, 0, 0, 0, 0,
    ctl 'Q', ctl 'W', ctl 'E', ctl 'R', ctl 'T', ctl 'Y', ctl 'U', ctl 'I',
    ctl 'O', ctl 'P', 0, 0, 13, 0, ctl 'A', ctl 'S',
    ctl 'D', ctl 'F', ctl 'G', ctl 'H', ctl 'J', ctl 'K', ctl 'L', 0,
    0, 0, 0, 28, ctl 'Z', ctl 'X', ctl 'C', ctl 'V',
    ctl 'B', ctl 'N', ctl 'M', 0, 0, ctl '/', 0, 0]

def ctlmap (data : Byte) : Byte :=
  ctlRows.getD data.toNat (match data.toNat with
    | 0x97 => keyHome
    | 0xB5 => ctl '/'
    | 0xC8 => keyUp
    | 0xC9 => keyPgup
    | 0xCB => keyLf
    | 0xCD => keyRt
    | 0xCF => keyEnd
    | 0xD0 => keyDn
    | 0xD1 => keyPgdn
    | 0xD2 => keyIns
    | 0xD3 => keyDel
    | _ => 0)

/-- charcode, at the SHIFT and CTL bits of the state. -/
def charcode (shift : Word) : Byte → Byte :=
  match (shift &&& (kbdCtl ||| kbdShift)).toNat with
  | 0 => normalmap
  | 1 => shiftmap
  | _ => ctlmap

/-- What kbd_proc_data runs on. -/
structure Kbd where
  shift : Word
  /-- the codes the controller has, the next one first -/
  data : List Byte
  /-- how often "Rebooting!" has been printed and the reset line pulled -/
  reboots : Nat
deriving DecidableEq

/-- Caps lock turns letters into those of the other case. -/
def capsConvert (shift : Word) (c : Byte) : Byte :=
  if Has shift capslock then
    if chr 'a' ≤ c ∧ c ≤ chr 'z' then
      c + (chr 'A' - chr 'a')
    else if chr 'A' ≤ c ∧ c ≤ chr 'Z' then
      c + (chr 'a' - chr 'A')
    else
      c
  else
    c

/-- kbd_proc_data from the make code on, with the index it stands for. -/
def kbdMake (k : Kbd) (data : Byte) : Word × Kbd :=
  let shift := (k.shift ||| shiftcode data) ^^^ togglecode data
  let c := capsConvert shift (charcode shift data)
  -- Ctrl-Alt-Del: reboot
  if ¬ Has (~~~shift) (kbdCtl ||| kbdAlt) ∧ c = keyDel then
    (c.setWidth 32, { k with shift := shift, reboots := k.reboots + 1 })
  else
    (c.setWidth 32, { k with shift := shift })

/-- kbd_proc_data. -/
def kbdProcData (k : Kbd) : Word × Kbd :=
  match k.data with
  | [] => (-1, k)
  | data :: rest =>
    if data = 0xE0 then
      (0, { k with shift := k.shift ||| e0esc, data := rest })
    else if data &&& 0x80 ≠ 0 then
      let code := if Has k.shift e0esc then data else data &&& 0x7F
      (0, { k with shift := k.shift &&& ~~~(shiftcode code ||| e0esc), data := rest })
    else if Has k.shift e0esc then
      kbdMake { k with shift := k.shift &&& ~~~e0esc, data := rest } (data ||| 0x80)
    else
      kbdMake { k with data := rest } data

end Jos
