import Jos.Library.Prog
import Jos.Kern.Env

/-! The boot loader (boot/main.c, with the headers of inc/elf.h). -/
namespace Jos

open Prog

def sectsize : Word := 512

/-- ELFHDR, the scratch space. -/
def elfhdr : Word := 0x10000

/-- The physical memory, and the bytes of the disk. -/
structure BootState where
  mem : Word → Byte
  disk : Nat → Byte

/-- A kernel that is no ELF file, or a loop that has run round the address space. -/
inductive BootFault where
  | bad
  | spins
deriving DecidableEq

namespace BootState

def half (s : BootState) (a : Word) : BitVec 16 := s.mem (a + 1) ++ s.mem a

def long (s : BootState) (a : Word) : Word := s.half (a + 2) ++ s.half a

end BootState

/-- The sector that the drive is asked for, from what is written to its ports. -/
def lbaSector (offset : Word) : Nat :=
  let low : Byte := offset.setWidth 8
  let mid : Byte := (offset >>> 8).setWidth 8
  let high : Byte := (offset >>> 16).setWidth 8
  let device : Byte := ((offset >>> 24) ||| 0xE0).setWidth 8
  low.toNat + 2 ^ 8 * mid.toNat + 2 ^ 16 * high.toNat + 2 ^ 24 * (device &&& 0x0F).toNat

/-- The memory once the bytes of a sector have gone to `dst` and on. -/
def BootState.inSector (s : BootState) (dst : Word) (lba : Nat) (a : Word) : Byte :=
  if (a - dst).toNat < sectsize.toNat then
    s.disk (lba * sectsize.toNat + (a - dst).toNat)
  else
    s.mem a

/-- readsect, without the waits for the disk. -/
def readsect (dst offset : Word) : Prog BootFault BootState Unit :=
  update fun s => { s with mem := s.inSector dst (lbaSector offset) }

/-- The loop of readseg, for at most the given number of sectors. -/
def readsegLoop (endPa : Word) : Nat → Word → Word → Prog BootFault BootState Unit
  | 0, _, _ => stop .spins
  | rounds + 1, pa, offset =>
    if pa < endPa then do
      readsect pa offset
      readsegLoop endPa rounds (pa + sectsize) (offset + 1)
    else
      pure ()

/-- readseg. Below the end of its range there are no more sectors than the rounds given. -/
def readseg (pa count offset : Word) : Prog BootFault BootState Unit :=
  let endPa := pa + count
  -- round down to sector boundary
  let pa := pa &&& ~~~(sectsize - 1)
  -- translate from bytes to sectors, and kernel starts at sector 1
  let offset := offset / sectsize + 1
  readsegLoop endPa (endPa.toNat / sectsize.toNat + 2) pa offset

/-- `for (; ph < eph; ph++)`, for at most the given number of headers. The headers are read from the
scratch space, one by one. -/
def loadSegments (eph : Word) : Nat → Word → Prog BootFault BootState Unit
  | 0, _ => stop .spins
  | rounds + 1, ph =>
    if ph < eph then do
      let s ← read
      readseg (s.long (ph + 12)) (s.long (ph + 20)) (s.long (ph + 4))
      loadSegments eph rounds (ph + 32)
    else
      pure ()

/-- bootmain, up to the call of the entry point. -/
def bootmain : Prog BootFault BootState Word := do
  -- read 1st page off disk
  readseg elfhdr (sectsize * 8) 0
  let s ← read
  check .bad (s.long elfhdr = elfMagic)
  let ph := elfhdr + s.long (elfhdr + 28)
  let eph := ph + (s.half (elfhdr + 44)).setWidth 32 * 32
  loadSegments eph ((s.half (elfhdr + 44)).toNat + 1) ph
  let s ← read
  pure (s.long (elfhdr + 24))

end Jos
