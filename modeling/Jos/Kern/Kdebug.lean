import Jos.Library.ScanBack
import Jos.Inc.Memlayout

/-! Symbol lookup (kern/kdebug.c, with the stabs of inc/stab.h and strfind of lib/string.c), over any
way to read the stab array and the string table. -/
namespace Jos

open Prog

def nFun : Byte := 0x24#8

def nSline : Byte := 0x44#8

def nSo : Byte := 0x64#8

def nSol : Byte := 0x84#8

def nPsym : Byte := 0xA0#8

/-- struct Stab. -/
structure Stab where
  nStrx : Word
  nType : Byte
  nOther : Byte
  nDesc : BitVec 16
  nValue : Word
deriving DecidableEq

/-- A name: debuginfo_eip's own placeholder, or an offset into the string table. -/
inductive Name where
  | unknown
  | strx (off : Word)
deriving DecidableEq

structure Eipdebuginfo where
  eipFile : Name
  eipLine : Int
  eipFnName : Name
  eipFnNamelen : Int
  eipFnAddr : Word
  eipFnNarg : Int
deriving DecidableEq

/-- The stab array and the string table, with how the fields of a stab and the characters are read. -/
structure SymTables (ε σ : Type) where
  /-- what a loop that never ends is told apart by -/
  spin : ε
  nStrx : Int → Prog ε σ Word
  nType : Int → Prog ε σ Byte
  nDesc : Int → Prog ε σ (BitVec 16)
  nValue : Int → Prog ε σ Word
  /-- stab_end - stabs -/
  count : Int
  char : Word → Prog ε σ Byte
  /-- stabstr_end <= stabstr -/
  strEmpty : Bool
  /-- stabstr_end - stabstr -/
  strSize : Word

/-- The variables of stab_binsearch. Its ints never overflow: an address space holds less than 2^29
stabs. -/
structure Search where
  l : Int
  r : Int
  regionLeft : Int
  regionRight : Int
  anyMatches : Bool
  addr : Word
deriving DecidableEq

variable {ε σ : Type}

/-- Is stab `m` of the type? -/
def SymTables.hasType (t : SymTables ε σ) (type : Byte) (m : Int) : Prog ε σ Bool := do
  let ty ← t.nType m
  pure (ty = type)

/-- The loop of stab_binsearch, for at most the given number of rounds. -/
def binsearchLoop (t : SymTables ε σ) (type : Byte) : Nat → Search → Prog ε σ Search
  | 0, _ => stop t.spin
  | rounds + 1, q =>
    if q.l ≤ q.r then do
      let trueM := (q.l + q.r).tdiv 2
      let m ← scanBack (t.hasType type) q.l trueM
      if m < q.l then
        binsearchLoop t type rounds { q with l := trueM + 1 }
      else do
        let value ← t.nValue m
        if value < q.addr then
          binsearchLoop t type rounds { q with anyMatches := true, regionLeft := m, l := trueM + 1 }
        else if q.addr < value then
          binsearchLoop t type rounds { q with anyMatches := true, regionRight := m - 1, r := m - 1 }
        else
          binsearchLoop t type rounds
            { q with anyMatches := true, regionLeft := m, l := m, addr := q.addr + 1 }
    else
      pure q

/-- More rounds than the loop can take: a round makes the region smaller, or makes the key differ
from the stab at its left end, and a region of n stabs can do neither more than 2 * n + 1 times. -/
def searchRounds (left right : Int) : Nat := 2 * (right + 1 - left).toNat + 2

/-- stab_binsearch, returning what it leaves in `*region_left` and `*region_right`. -/
def stabBinsearch (t : SymTables ε σ) (left right : Int) (type : Byte) (addr : Word) :
    Prog ε σ (Int × Int) := do
  let q ← binsearchLoop t type (searchRounds left right) ⟨left, right, left, right, false, addr⟩
  if ¬ q.anyMatches then
    pure (q.regionLeft, q.regionLeft - 1)
  else do
    -- find rightmost region containing 'addr'
    let l ← scanBack (t.hasType type) (q.regionLeft + 1) q.regionRight
    pure (l, q.regionRight)

/-- strfind in the string table, from an offset on; a scan that has gone round all offsets goes on
for ever. -/
def strfindFor (t : SymTables ε σ) (c : Byte) : Nat → Word → Prog ε σ Word
  | 0, _ => stop t.spin
  | rounds + 1, s => do
    let b ← t.char s
    if b = 0 then
      pure s
    else if b = c then
      pure s
    else
      strfindFor t c rounds (s + 1)

/-- `strfind(name, ':') - name`. -/
def namelen (t : SymTables ε σ) : Name → Prog ε σ Int
  | .unknown => pure 9
  | .strx off => do
    let found ← strfindFor t 58 (2 ^ 32) off
    pure (found - off).toInt

/-- The name at an offset, if it lies in the string table. -/
def SymTables.name (t : SymTables ε σ) (strx : Word) (otherwise : Name) : Name :=
  if strx < t.strSize then .strx strx else otherwise

/-- Does the backward scan for the file name stop at stab `m`? -/
def SymTables.stopsFile (t : SymTables ε σ) (m : Int) : Prog ε σ Bool := do
  let ty ← t.nType m
  if ty = nSol then
    pure true
  else if ty = nSo then do
    let value ← t.nValue m
    pure (value ≠ 0)
  else
    pure false

/-- The number of N_PSYM stabs from `lline` on, below `rfun`. -/
def countParams (t : SymTables ε σ) (rfun : Int) : Nat → Int → Prog ε σ Int
  | 0, _ => pure 0
  | rounds + 1, lline =>
    if lline < rfun then do
      let ty ← t.nType lline
      if ty = nPsym then do
        let narg ← countParams t rfun rounds (lline + 1)
        pure (narg + 1)
      else
        pure 0
    else
      pure 0

/-- Search backwards from the line number for the relevant filename stab, and take its name. -/
def filename (t : SymTables ε σ) (lfile lline : Int) (file : Name) : Prog ε σ Name := do
  let lline ← scanBack t.stopsFile lfile lline
  if lfile ≤ lline then do
    let strx ← t.nStrx lline
    pure (t.name strx file)
  else
    pure file

/-- The number of arguments taken by the function, or 0 if there was no containing function. -/
def fnNarg (t : SymTables ε σ) (lfun rfun : Int) : Prog ε σ Int :=
  if lfun < rfun then countParams t rfun (rfun - lfun).toNat (lfun + 1) else pure 0

/-- debuginfo_eip from the length of the function name on, with the stabs [lline, rline] to look for
the line in. -/
def debuginfoLine (t : SymTables ε σ) (lfile lfun rfun lline rline : Int) (addr : Word)
    (info : Eipdebuginfo) : Prog ε σ (Int × Eipdebuginfo) := do
  -- ignore stuff after the colon
  let len ← namelen t info.eipFnName
  let (lline, rline) ← stabBinsearch t lline rline nSline addr
  if rline < lline then
    pure (-1, { info with eipFnNamelen := len })
  else do
    let desc ← t.nDesc lline
    let file ← filename t lfile lline info.eipFile
    let narg ← fnNarg t lfun rfun
    pure (0, { info with
      eipFnNamelen := len
      eipLine := desc.toNat
      eipFile := file
      eipFnNarg := narg })

/-- debuginfo_eip from the function search on, in the stabs [lfile, rfile] of the file. -/
def debuginfoFile (t : SymTables ε σ) (lfile rfile : Int) (addr : Word) (info : Eipdebuginfo) :
    Prog ε σ (Int × Eipdebuginfo) := do
  let (lfun, rfun) ← stabBinsearch t lfile rfile nFun addr
  if lfun ≤ rfun then do
    let strx ← t.nStrx lfun
    let value ← t.nValue lfun
    debuginfoLine t lfile lfun rfun lfun rfun (addr - value)
      { info with
        eipFnName := t.name strx info.eipFnName
        eipFnAddr := value }
  else
    -- couldn't find function stab: search the whole file for the line number
    debuginfoLine t lfile lfun rfun lfile rfile addr { info with eipFnAddr := addr }

/-- What `*info` holds at first. -/
def unknownInfo (addr : Word) : Eipdebuginfo := ⟨.unknown, 0, .unknown, 9, addr, 0⟩

/-- debuginfo_eip once it has its two tables, with the `*info` it leaves. -/
def debuginfoTables (t : SymTables ε σ) (addr : Word) : Prog ε σ (Int × Eipdebuginfo) := do
  let info := unknownInfo addr
  if t.strEmpty then
    pure (-1, info)
  else do
    let last ← t.char (t.strSize - 1)
    if last ≠ 0 then
      pure (-1, info)
    else do
      let (lfile, rfile) ← stabBinsearch t 0 (t.count - 1) nSo addr
      if lfile = 0 then
        pure (-1, info)
      else
        debuginfoFile t lfile rfile addr info

/-! Tables in memory of their own, every index checked. -/

/-- A symbol table, each part of which fits the address space. -/
structure DebugTables where
  stabs : List Stab
  stabstr : List Byte
  stabs_fit : 12 * stabs.length < 2 ^ 32
  stabstr_fits : stabstr.length < 2 ^ 32

/-- An index outside the stab array or the string table, or a loop that never ends. -/
inductive Fault where
  | badStab (m : Int)
  | badChar (off : Word)
  | spin
deriving DecidableEq

namespace DebugTables

/-- Stab `m` of the array; a default stab outside. -/
def entry (d : DebugTables) (m : Int) : Stab := (d.stabs[m.toNat]?).getD ⟨0, 0, 0, 0, 0⟩

/-- A field of stab `m`. -/
def field {α : Type} (d : DebugTables) (get : Stab → α) (m : Int) : Prog Fault Unit α := do
  check (.badStab m) (0 ≤ m ∧ m < d.stabs.length)
  pure (get (d.entry m))

def access (d : DebugTables) : SymTables Fault Unit where
  spin := .spin
  nStrx := d.field Stab.nStrx
  nType := d.field Stab.nType
  nDesc := d.field Stab.nDesc
  nValue := d.field Stab.nValue
  count := d.stabs.length
  char off := do
    check (.badChar off) (off.toNat < d.stabstr.length)
    pure ((d.stabstr[off.toNat]?).getD 0)
  strEmpty := d.stabstr.length = 0
  strSize := BitVec.ofNat 32 d.stabstr.length

end DebugTables

end Jos
