import Jos.Inc.Mmu

/-! The virtual memory map (inc/memlayout.h), in the order the header defines it. -/
namespace Jos

def kernbase : Word := 0xF0000000#32

def iophysmem : Word := 0x0A0000#32

def extphysmem : Word := 0x100000#32

def kstacktop : Word := kernbase

def kstksize : Word := 8#32 * pgsize

def mmiolim : Word := kstacktop - ptsize

def mmiobase : Word := mmiolim - ptsize

def ulim : Word := mmiobase

/-- User read-only virtual page table. -/
def uvpt : Word := ulim - ptsize

/-- Read-only copies of the PageInfo structures. -/
def upages : Word := uvpt - ptsize

/-- Read-only copies of the environment structures. -/
def uenvs : Word := upages - ptsize

/-- Top of user-accessible virtual memory. -/
def utop : Word := uenvs

def ustacktop : Word := utop - 2#32 * pgsize

/-- The location of the user-level STABS data structure. -/
def ustabdata : Word := ptsize / 2#32

theorem pdx_utop : pdx utop = 955 := by decide

theorem pdx_upages : pdx upages = 956 := by decide

theorem pdx_uvpt : pdx uvpt = 957 := by decide

theorem pdx_ulim : pdx ulim = 958 := by decide

theorem pdx_kernbase : pdx kernbase = 960 := by decide

theorem toNat_utop : utop.toNat = 955 * 2 ^ 22 := by decide

theorem toNat_ulim : ulim.toNat = 958 * 2 ^ 22 := by decide

/-- An address lies below UTOP exactly when its directory index does. -/
theorem lt_utop_iff (va : Word) : va < utop ↔ pdx va < 955 := by
  rw [BitVec.lt_def, toNat_utop, pdx_eq]
  omega

theorem lt_ulim_iff (va : Word) : va < ulim ↔ pdx va < 958 := by
  rw [BitVec.lt_def, toNat_ulim, pdx_eq]
  omega

end Jos
