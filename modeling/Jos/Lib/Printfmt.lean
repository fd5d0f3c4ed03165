import Jos.Library.Prog
import Jos.Inc.Mmu

/-! Formatted printing (lib/printfmt.c): vprintfmt and what it is made of, for any putch callback. -/
namespace Jos

open Prog

/-- A character constant. -/
abbrev chr (c : Char) : Byte := BitVec.ofNat 8 c.toNat

/-- A `const char *`: an address, or offset `i` of a string constant of the program. -/
inductive CharPtr where
  | mem (a : Word)
  | text (s : List Byte) (i : Int)

namespace CharPtr

def next : CharPtr → CharPtr
  | mem a => mem (a + 1)
  | text s i => text s (i + 1)

def prev : CharPtr → CharPtr
  | mem a => mem (a - 1)
  | text s i => text s (i - 1)

end CharPtr

/-- A va_list: the words from the next argument on. -/
abbrev VaList := Nat → Word

/-- The list behind an argument of `n` words. -/
def VaList.drop (ap : VaList) (n : Nat) : VaList := fun i => ap (i + n)

/-- The local variables that the flags of a %-escape sequence set. -/
structure Directive where
  padc : Byte
  width : Word
  precision : Word
  lflag : Word
  altflag : Bool
deriving DecidableEq

/-- Their values behind the '%'. -/
def Directive.start : Directive := ⟨chr ' ', -1, -1, 0, false⟩

/-- The label process_precision, with the value just read. -/
def Directive.processPrecision (d : Directive) (precision : Word) : Directive :=
  if d.width.toInt < 0 then
    { d with width := precision, precision := -1 }
  else
    { d with precision := precision }

/-- getuint. -/
def getuint (ap : VaList) (lflag : Word) : BitVec 64 × VaList :=
  if 2 ≤ lflag.toInt then
    (ap 1 ++ ap 0, ap.drop 2)
  else
    ((ap 0).setWidth 64, ap.drop 1)

/-- getint. -/
def getint (ap : VaList) (lflag : Word) : BitVec 64 × VaList :=
  if 2 ≤ lflag.toInt then
    (ap 1 ++ ap 0, ap.drop 2)
  else
    ((ap 0).signExtend 64, ap.drop 1)

/-- The characters of "0123456789abcdef". -/
def digitText : List Byte :=
  [chr '0', chr '1', chr '2', chr '3', chr '4', chr '5', chr '6', chr '7', chr '8', chr '9', chr 'a',
    chr 'b', chr 'c', chr 'd', chr 'e', chr 'f']

/-- The characters of "(null)". -/
def nullText : List Byte := [40, 110, 117, 108, 108, 41]

/-- The characters of "error %d". -/
def errorFormat : List Byte :=
  [chr 'e', chr 'r', chr 'r', chr 'o', chr 'r', chr ' ', chr '%', chr 'd']

def maxError : Int := 8

/-- error_string, by index. The address of entry INT_MIN wraps to that of entry 0. -/
def errorString (err : Word) : Option (List Byte) :=
  match err.toNat % 2 ^ 30 with
  | 1 => some [117, 110, 115, 112, 101, 99, 105, 102, 105, 101, 100, 32, 101, 114, 114, 111, 114]
  | 2 => some [98, 97, 100, 32, 101, 110, 118, 105, 114, 111, 110, 109, 101, 110, 116]
  | 3 => some [105, 110, 118, 97, 108, 105, 100, 32, 112, 97, 114, 97, 109, 101, 116, 101, 114]
  | 4 => some [111, 117, 116, 32, 111, 102, 32, 109, 101, 109, 111, 114, 121]
  | 5 => some [111, 117, 116, 32, 111, 102, 32, 101, 110, 118, 105, 114, 111, 110, 109, 101, 110, 116, 115]
  | 6 => some [115, 101, 103, 109, 101, 110, 116, 97, 116, 105, 111, 110, 32, 102, 97, 117, 108, 116]
  | _ => none

/-- `precision < 0 || --precision >= 0`: what precision is left, if the test holds. -/
def countDown (precision : Word) : Option Word :=
  if precision.toInt < 0 then
    some precision
  else if 0 ≤ (precision - 1).toInt then
    some (precision - 1)
  else
    none

/-- What vprintfmt runs on: loads from memory, and the callback. `spin` is what a loop ends in that
runs out of fuel, `stray` what a read outside a string constant ends in. -/
structure Printer (ε σ : Type) where
  load : Word → Prog ε σ Byte
  putch : Word → Prog ε σ Unit
  spin : ε
  stray : ε

namespace Printer

variable {ε σ : Type} (pr : Printer ε σ)

/-- `*p`. A string constant ends in a NUL. -/
def read : CharPtr → Prog ε σ Byte
  | .mem a => pr.load a
  | .text s i =>
    if 0 ≤ i ∧ i ≤ s.length then
      pure ((s ++ [0#8]).getD i.toNat 0#8)
    else
      stop pr.stray

/-- putch(padc, putdat), `n` times. -/
def putTimes (padc : Word) : Nat → Prog ε σ Unit
  | 0 => pure ()
  | n + 1 => do
    pr.putch padc
    putTimes padc n

/-- `for (; width > 0; width--) putch(padc, putdat)`, with the width it leaves. -/
def pad (padc width : Word) : Prog ε σ Word := do
  pr.putTimes padc width.toInt.toNat
  pure (if 0 < width.toInt then 0 else width)

def printnum : Nat → BitVec 64 → Word → Word → Word → Prog ε σ Unit
  | 0, _, _, _, _ => stop pr.spin
  | fuel + 1, num, base, width, padc => do
    let preceding : Prog ε σ Unit :=
      if base.setWidth 64 ≤ num then
        printnum fuel (num / base.setWidth 64) base (width - 1) padc
      else
        pr.putTimes padc (width - 1).toInt.toNat
    preceding
    pr.putch ((digitText.getD (num % base.setWidth 64).toNat 0#8).setWidth 32)

/-- No number of 64 bits has more digits. -/
def numberFuel : Nat := 64

/-- strnlen (lib/string.c). -/
def strnlen : Nat → CharPtr → Prog ε σ Word
  | 0, _ => pure 0
  | size + 1, s => do
    let c ← pr.read s
    if c = 0 then
      pure 0
    else do
      let n ← strnlen size s.next
      pure (n + 1)

/-- The middle loop of %s, with the width it leaves. -/
def putChars (altflag : Bool) : Nat → CharPtr → Word → Word → Prog ε σ Word
  | 0, _, _, _ => stop pr.spin
  | fuel + 1, p, precision, width => do
    let ch ← pr.read p
    if ch = 0 then
      pure width
    else
      match countDown precision with
      | none => pure width
      | some precision => do
        pr.putch (if altflag ∧ (ch.toInt < 32 ∨ 126 < ch.toInt) then (chr '?').setWidth 32
          else ch.signExtend 32)
        putChars altflag fuel p.next precision (width - 1)

/-- The padding before a string, with the width it leaves. -/
def padBefore (d : Directive) (p : CharPtr) : Prog ε σ Word :=
  if 0 < d.width.toInt ∧ d.padc ≠ chr '-' then do
    let n ← pr.strnlen d.precision.toNat p
    pr.pad (d.padc.signExtend 32) (d.width - n)
  else
    pure d.width

/-- case 's', with the pointer taken from the arguments. -/
def putString (fuel : Nat) (d : Directive) (p : CharPtr) : Prog ε σ Unit := do
  let width ← pr.padBefore d p
  let width ← pr.putChars d.altflag fuel p d.precision width
  let _ ← pr.pad ((chr ' ').setWidth 32) width
  pure ()

/-- The width loop behind its first digit `ch`: the number, and where it ends. -/
def readNumber : Nat → CharPtr → Byte → Word → Prog ε σ (Word × CharPtr)
  | 0, _, _, _ => stop pr.spin
  | fuel + 1, fmt, ch, precision => do
    let precision := precision * 10 + ch.signExtend 32 - 48
    let ch ← pr.read fmt
    if ch.toInt < 48 ∨ 57 < ch.toInt then
      pure (precision, fmt)
    else
      readNumber fuel fmt.next ch precision

/-- The label reswitch: the character that ends the flags, with the state of the scanner then. -/
def reswitch : Nat → CharPtr → VaList → Directive → Prog ε σ (Byte × CharPtr × VaList × Directive)
  | 0, _, _, _ => stop pr.spin
  | fuel + 1, fmt, ap, d => do
    let ch ← pr.read fmt
    if ch = chr '-' then
      reswitch fuel fmt.next ap { d with padc := chr '-' }
    else if ch = chr '0' then
      reswitch fuel fmt.next ap { d with padc := chr '0' }
    else if chr '1' ≤ ch ∧ ch ≤ chr '9' then do
      let (precision, fmt) ← pr.readNumber fuel fmt.next ch 0
      reswitch fuel fmt ap (d.processPrecision precision)
    else if ch = chr '*' then
      reswitch fuel fmt.next (ap.drop 1) (d.processPrecision (ap 0))
    else if ch = chr '.' then
      reswitch fuel fmt.next ap (if d.width.toInt < 0 then { d with width := 0 } else d)
    else if ch = chr '#' then
      reswitch fuel fmt.next ap { d with altflag := true }
    else if ch = chr 'l' then
      reswitch fuel fmt.next ap { d with lflag := d.lflag + 1 }
    else
      pure (ch, fmt.next, ap, d)

/-- `for (fmt--; fmt[-1] != '%'; fmt--)`, behind its first step. -/
def backUp : Nat → CharPtr → Prog ε σ CharPtr
  | 0, _ => stop pr.spin
  | fuel + 1, fmt => do
    let ch ← pr.read fmt.prev
    if ch = chr '%' then
      pure fmt
    else
      backUp fuel fmt.prev

/-- case 'e'. printfmt with "%s" passes its pointer on to case 's', with no flag set. -/
def putError (fuel : Nat) (printfmt : CharPtr → VaList → Prog ε σ Unit) (err : Word) : Prog ε σ Unit :=
  let err := if err.toInt < 0 then -err else err
  match if maxError ≤ err.toInt then none else errorString err with
  | none => printfmt (.text errorFormat 0) fun _ => err
  | some s => pr.putString fuel .start (.text s 0)

/-- The switch behind the flags: where scanning goes on, and the arguments left. `printfmt` is
vprintfmt itself, for the nested calls. -/
def convert (fuel : Nat) (printfmt : CharPtr → VaList → Prog ε σ Unit) (ch : Byte) (fmt : CharPtr)
    (ap : VaList) (d : Directive) : Prog ε σ (CharPtr × VaList) :=
  let number (num : BitVec 64) (base : Word) : Prog ε σ Unit :=
    pr.printnum numberFuel num base d.width (d.padc.signExtend 32)
  if ch = chr 'c' then do
    pr.putch (ap 0)
    pure (fmt, ap.drop 1)
  else if ch = chr 'e' then do
    pr.putError fuel printfmt (ap 0)
    pure (fmt, ap.drop 1)
  else if ch = chr 's' then do
    pr.putString fuel d (if ap 0 = 0 then .text nullText 0 else .mem (ap 0))
    pure (fmt, ap.drop 1)
  else if ch = chr 'd' then do
    let num := (getint ap d.lflag).1
    if num.toInt < 0 then do
      pr.putch ((chr '-').setWidth 32)
      number (-num) 10
      pure (fmt, (getint ap d.lflag).2)
    else do
      number num 10
      pure (fmt, (getint ap d.lflag).2)
  else if ch = chr 'u' then do
    number (getuint ap d.lflag).1 10
    pure (fmt, (getuint ap d.lflag).2)
  else if ch = chr 'o' then do
    number (getuint ap d.lflag).1 8
    pure (fmt, (getuint ap d.lflag).2)
  else if ch = chr 'p' then do
    pr.putch ((chr '0').setWidth 32)
    pr.putch ((chr 'x').setWidth 32)
    number ((ap 0).setWidth 64) 16
    pure (fmt, ap.drop 1)
  else if ch = chr 'x' then do
    number (getuint ap d.lflag).1 16
    pure (fmt, (getuint ap d.lflag).2)
  else if ch = chr '%' then do
    pr.putch ((chr '%').setWidth 32)
    pure (fmt, ap)
  else do
    pr.putch ((chr '%').setWidth 32)
    let fmt ← pr.backUp fuel fmt.prev
    pure (fmt, ap)

def vprintfmt : Nat → CharPtr → VaList → Prog ε σ Unit
  | 0, _, _ => stop pr.spin
  | fuel + 1, fmt, ap => do
    let ch ← pr.read fmt
    if ch = chr '%' then do
      let (ch, fmt, ap, d) ← pr.reswitch fuel fmt.next ap .start
      let (fmt, ap) ← pr.convert fuel (vprintfmt fuel) ch fmt ap d
      vprintfmt fuel fmt ap
    else if ch = 0 then
      pure ()
    else do
      pr.putch (ch.setWidth 32)
      vprintfmt fuel fmt.next ap

end Printer

end Jos
