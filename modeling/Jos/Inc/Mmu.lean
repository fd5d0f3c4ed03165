import Mathlib.Tactic.Common
import Mathlib.Tactic.IntervalCases
import Mathlib.Data.Nat.Bitwise

/-! Machine words, linear addresses and page-table entries (inc/types.h, inc/mmu.h). -/
namespace Jos

/-- The 32-bit words of the machine: addresses, sizes and table entries. -/
abbrev Word := BitVec 32

abbrev Byte := BitVec 8

def pgsize : Word := 4096#32

def npdentries : Nat := 1024

def nptentries : Nat := 1024

def ptsize : Word := pgsize * 1024#32

/-- ROUNDDOWN(a, n). -/
def roundDown (a n : Word) : Word := a - a % n

/-- ROUNDUP(a, n), in 32-bit arithmetic throughout. -/
def roundUp (a n : Word) : Word := roundDown (a + n - 1#32) n

def pgnum (la : Word) : Nat := (la >>> 12).toNat

def pdx (la : Word) : Nat := ((la >>> 22) &&& 0x3FF#32).toNat

def ptx (la : Word) : Nat := ((la >>> 12) &&& 0x3FF#32).toNat

def pgoff (la : Word) : Nat := (la &&& 0xFFF#32).toNat

/-- PGADDR(d, t, o). -/
def pgaddr (d t o : Word) : Word := d <<< 22 ||| t <<< 12 ||| o

def pteP : Word := 0x001#32

def pteW : Word := 0x002#32

def pteU : Word := 0x004#32

def pteAddr (pte : Word) : Word := pte &&& ~~~0xFFF#32

/-- The interrupt enable flag. -/
def flIf : Word := 0x200#32

/-- The C truth value of `w & f`. -/
def Has (w f : Word) : Prop := w &&& f ≠ 0#32

instance (w f : Word) : Decidable (Has w f) := inferInstanceAs (Decidable (_ ≠ _))

/-- page2pa, with a PageInfo pointer given by its index in `pages`. -/
def page2pa (pp : Nat) : Word := BitVec.ofNat 32 pp <<< 12

variable {w f g : Word} {p q : Nat}

/-- A flag of one bit. -/
theorem has_bit {k : Nat} (hk : k < 32) (hf : ∀ i < 32, f.getLsbD i = decide (i = k)) :
    Has w f ↔ w.getLsbD k = true := by
  constructor
  · intro h
    by_contra hw
    refine h (BitVec.eq_of_getLsbD_eq fun i hi => ?_)
    rw [BitVec.getLsbD_and, hf i hi, BitVec.getLsbD_zero]
    by_cases hik : i = k
    · rw [hik, Bool.eq_false_iff.mpr hw, Bool.false_and]
    · rw [decide_eq_false hik, Bool.and_false]
  · intro h h0
    have hbit := congrArg (fun v : Word => v.getLsbD k) h0
    rw [BitVec.getLsbD_and, hf k hk, h] at hbit
    simp at hbit

/-- A char converts to an int and back. -/
theorem setWidth_char (c : Byte) : (c.setWidth 32).setWidth 8 = c := by
  rw [BitVec.setWidth_setWidth_of_le c (by decide), BitVec.setWidth_eq]

theorem setWidth_char_inj {c d : Byte} : c.setWidth 32 = d.setWidth 32 ↔ c = d := by
  constructor
  · intro h
    rw [← setWidth_char c, h, setWidth_char d]
  · rintro rfl
    rfl

theorem pgnum_eq (la : Word) : pgnum la = la.toNat / 4096 := by
  simp [pgnum, Nat.shiftRight_eq_div_pow]

theorem pdx_eq (la : Word) : pdx la = la.toNat / 2 ^ 22 := by
  have hlt := la.isLt
  have hm : ((la >>> 22) &&& 0x3FF#32).toNat = la.toNat / 2 ^ 22 % 1024 := by
    rw [BitVec.toNat_and, BitVec.toNat_ushiftRight, Nat.shiftRight_eq_div_pow]
    exact Nat.and_two_pow_sub_one_eq_mod _ 10
  rw [pdx, hm]
  omega

theorem ptx_eq (la : Word) : ptx la = la.toNat / 4096 % 1024 := by
  rw [ptx, BitVec.toNat_and, BitVec.toNat_ushiftRight, Nat.shiftRight_eq_div_pow]
  exact Nat.and_two_pow_sub_one_eq_mod _ 10

theorem pgoff_eq (la : Word) : pgoff la = la.toNat % 4096 := by
  rw [pgoff, BitVec.toNat_and]
  exact Nat.and_two_pow_sub_one_eq_mod _ 12

theorem pdx_lt (la : Word) : pdx la < 1024 := by
  have := la.isLt
  rw [pdx_eq]
  omega

theorem ptx_lt (la : Word) : ptx la < 1024 := by
  rw [ptx_eq]
  omega

theorem pgnum_lt (la : Word) : pgnum la < 2 ^ 20 := by
  have := la.isLt
  rw [pgnum_eq]
  omega

theorem pgnum_eq_indices (la : Word) : pgnum la = pdx la * 1024 + ptx la := by
  rw [pgnum_eq, pdx_eq, ptx_eq]
  omega

theorem pgnum_indices (la : Word) : pgnum la / 1024 = pdx la ∧ pgnum la % 1024 = ptx la := by
  rw [pgnum_eq, pdx_eq, ptx_eq]
  omega

theorem lowMask_testBit (i : Nat) : (0xFFF#32).getLsbD i = decide (i < 12) := by
  have h : (0xFFF#32).getLsbD i = (2 ^ 12 - 1).testBit i := by
    rw [BitVec.getLsbD]
    rfl
  rw [h, Nat.testBit_two_pow_sub_one]

theorem pteAddr_eq (w : Word) : pteAddr w = (w >>> 12) <<< 12 := by
  ext i hi
  have hm : (0xFFF#32)[i] = decide (i < 12) := by
    rw [← BitVec.getLsbD_eq_getElem, lowMask_testBit]
  simp only [pteAddr, BitVec.getElem_and, BitVec.getElem_not, hm, BitVec.getElem_shiftLeft]
  by_cases h : i < 12
  · simp [h]
  · simp [h, BitVec.getLsbD_eq_getElem hi, show 12 + (i - 12) = i by omega]

theorem toNat_pteAddr (w : Word) : (pteAddr w).toNat = w.toNat / 4096 * 4096 := by
  have := w.isLt
  simp only [pteAddr_eq, BitVec.toNat_shiftLeft, BitVec.toNat_ushiftRight, Nat.shiftLeft_eq,
    Nat.shiftRight_eq_div_pow]
  omega

@[simp] theorem pgnum_pteAddr (w : Word) : pgnum (pteAddr w) = pgnum w := by
  rw [pgnum_eq, pgnum_eq, toNat_pteAddr]
  omega

/-- The address of a page; 2^20 pages fill the address space. -/
theorem toNat_page2pa_mod (p : Nat) : (page2pa p).toNat = p % 2 ^ 20 * 4096 := by
  rw [page2pa, BitVec.toNat_shiftLeft, BitVec.toNat_ofNat, Nat.shiftLeft_eq]
  omega

theorem toNat_page2pa (hp : p < 2 ^ 20) : (page2pa p).toNat = p * 4096 := by
  rw [toNat_page2pa_mod, Nat.mod_eq_of_lt hp]

theorem pgnum_page2pa_mod (p : Nat) : pgnum (page2pa p) = p % 2 ^ 20 := by
  rw [pgnum_eq, toNat_page2pa_mod]
  omega

theorem pgnum_page2pa (hp : p < 2 ^ 20) : pgnum (page2pa p) = p := by
  rw [pgnum_eq, toNat_page2pa hp]
  omega

theorem pteAddr_page2pa (hp : p < 2 ^ 20) : pteAddr (page2pa p) = page2pa p := by
  apply BitVec.eq_of_toNat_eq
  rw [toNat_pteAddr, toNat_page2pa hp]
  omega

theorem page2pa_pgnum (w : Word) : page2pa (pgnum w) = pteAddr w := by
  apply BitVec.eq_of_toNat_eq
  rw [toNat_page2pa (pgnum_lt w), toNat_pteAddr, pgnum_eq]

theorem pgnum_or (a b : Word) : pgnum (a ||| b) = pgnum a ||| pgnum b := by
  simp [pgnum, Nat.shiftRight_or_distrib]

theorem pgnum_flags (hf : f.toNat < 4096) : pgnum f = 0 := by
  rw [pgnum_eq]
  omega

/-- An entry made of a page address and flag bits names that page. -/
theorem pgnum_entry (hp : p < 2 ^ 20) (hf : f.toNat < 4096) : pgnum (page2pa p ||| f) = p := by
  rw [pgnum_or, pgnum_page2pa hp, pgnum_flags hf, Nat.or_zero]

theorem has_or : Has (w ||| g) f ↔ Has w f ∨ Has g f := by
  unfold Has
  rw [show (w ||| g) &&& f = (w &&& f) ||| (g &&& f) by ext i hi; simp [Bool.and_or_distrib_right],
    ne_eq, BitVec.or_eq_zero_iff]
  tauto

theorem not_has_page2pa (hf : f.toNat < 4096) : ¬ Has (page2pa p) f := by
  unfold Has
  rw [not_not]
  ext i hi
  simp only [page2pa, BitVec.getElem_and, BitVec.getElem_shiftLeft, BitVec.getElem_zero]
  by_cases h : i < 12
  · simp [h]
  · have hb : f[i] = false := by
      rw [← BitVec.getLsbD_eq_getElem, BitVec.getLsbD]
      apply Nat.testBit_lt_two_pow
      calc f.toNat < 2 ^ 12 := hf
        _ ≤ 2 ^ i := Nat.pow_le_pow_right (by decide) (by omega)
    simp [hb]

/-- The flags of an entry made of a page address and flag bits. -/
theorem has_entry (hg : g.toNat < 4096) : Has (page2pa p ||| f) g ↔ Has f g := by
  rw [has_or]
  simp [not_has_page2pa hg]

/-- PGADDR of two indices is the address of the virtual page they stand for. -/
theorem pgaddr_eq (hp : p < 1024) (hq : q < 1024) :
    pgaddr (BitVec.ofNat 32 p) (BitVec.ofNat 32 q) 0 = page2pa (p * 1024 + q) := by
  change pgaddr _ _ 0#32 = _
  have hor := Nat.two_pow_add_eq_or_of_lt (i := 22) (b := q * 4096) (by omega) p
  apply BitVec.eq_of_toNat_eq
  rw [toNat_page2pa (by omega), pgaddr, BitVec.or_zero, BitVec.toNat_or, BitVec.toNat_shiftLeft,
    BitVec.toNat_shiftLeft, BitVec.toNat_ofNat, BitVec.toNat_ofNat, Nat.shiftLeft_eq, Nat.shiftLeft_eq,
    show p % 2 ^ 32 * 2 ^ 22 % 2 ^ 32 = 2 ^ 22 * p by omega,
    show q % 2 ^ 32 * 2 ^ 12 % 2 ^ 32 = q * 4096 by omega, ← hor]
  omega

@[simp] theorem not_has_zero : ¬ Has 0#32 f := by
  simp [Has]

theorem toNat_or_lt (hf : f.toNat < 4096) (hg : g.toNat < 4096) : (f ||| g).toNat < 4096 := by
  rw [BitVec.toNat_or]
  exact Nat.or_lt_two_pow (n := 12) hf hg

end Jos
