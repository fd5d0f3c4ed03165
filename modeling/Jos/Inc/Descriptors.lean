import Jos.Inc.Mmu
import Jos.Library.BitFields

/-! Segment and gate descriptors (inc/mmu.h): how the kernel writes them, and what the processor reads. -/
namespace Jos

open BitFields

structure Segdesc where
  sdLim15To0 : BitVec 16
  sdBase15To0 : BitVec 16
  sdBase23To16 : BitVec 8
  sdType : BitVec 4
  sdS : BitVec 1
  sdDpl : BitVec 2
  sdP : BitVec 1
  sdLim19To16 : BitVec 4
  sdAvl : BitVec 1
  sdRsv1 : BitVec 1
  sdDb : BitVec 1
  sdG : BitVec 1
  sdBase31To24 : BitVec 8
deriving DecidableEq

def segNull : Segdesc := ⟨0, 0, 0, 0, 0, 0, 0, 0, 0, 0, 0, 0, 0⟩

/-- SEG. -/
def seg (type : BitVec 4) (base lim : Word) (dpl : BitVec 2) : Segdesc :=
  ⟨((lim >>> 12) &&& 0xffff#32).setWidth 16, (base &&& 0xffff#32).setWidth 16,
    ((base >>> 16) &&& 0xff#32).setWidth 8, type, 1, dpl, 1, (lim >>> 28).setWidth 4, 0, 0, 1, 1,
    (base >>> 24).setWidth 8⟩

/-- SEG16. -/
def seg16 (type : BitVec 4) (base lim : Word) (dpl : BitVec 2) : Segdesc :=
  ⟨(lim &&& 0xffff#32).setWidth 16, (base &&& 0xffff#32).setWidth 16,
    ((base >>> 16) &&& 0xff#32).setWidth 8, type, 1, dpl, 1, (lim >>> 16).setWidth 4, 0, 0, 1, 0,
    (base >>> 24).setWidth 8⟩

/-- The bit fields of a struct Segdesc, in the order of its declaration. -/
def Segdesc.fields (d : Segdesc) : List Field :=
  [⟨_, d.sdLim15To0⟩, ⟨_, d.sdBase15To0⟩, ⟨_, d.sdBase23To16⟩, ⟨_, d.sdType⟩, ⟨_, d.sdS⟩, ⟨_, d.sdDpl⟩,
    ⟨_, d.sdP⟩, ⟨_, d.sdLim19To16⟩, ⟨_, d.sdAvl⟩, ⟨_, d.sdRsv1⟩, ⟨_, d.sdDb⟩, ⟨_, d.sdG⟩,
    ⟨_, d.sdBase31To24⟩]

/-- SEG for the assembler, two words and four bytes. -/
def asmSeg (type base lim : Word) : List Field :=
  [⟨16, ((lim >>> 12) &&& 0xffff#32).setWidth 16⟩, ⟨16, (base &&& 0xffff#32).setWidth 16⟩,
    ⟨8, ((base >>> 16) &&& 0xff#32).setWidth 8⟩, ⟨8, (0x90#32 ||| type).setWidth 8⟩,
    ⟨8, (0xC0#32 ||| ((lim >>> 28) &&& 0xf#32)).setWidth 8⟩, ⟨8, ((base >>> 24) &&& 0xff#32).setWidth 8⟩]

structure Gatedesc where
  gdOff15To0 : BitVec 16
  gdSel : BitVec 16
  gdArgs : BitVec 5
  gdRsv1 : BitVec 3
  gdType : BitVec 4
  gdS : BitVec 1
  gdDpl : BitVec 2
  gdP : BitVec 1
  gdOff31To16 : BitVec 16
deriving DecidableEq

def stsT32a : BitVec 4 := 0x9#4

def stsIg32 : BitVec 4 := 0xE#4

def stsTg32 : BitVec 4 := 0xF#4

/-- SETGATE. -/
def setgate (istrap : Bool) (sel : BitVec 16) (off : Word) (dpl : BitVec 2) : Gatedesc where
  gdOff15To0 := (off &&& 0xffff#32).setWidth 16
  gdSel := sel
  gdArgs := 0
  gdRsv1 := 0
  gdType := if istrap then stsTg32 else stsIg32
  gdS := 0
  gdDpl := dpl
  gdP := 1
  gdOff31To16 := (off >>> 16).setWidth 16

/-- The bit fields of a struct Gatedesc, in the order of its declaration. -/
def Gatedesc.fields (g : Gatedesc) : List Field :=
  [⟨_, g.gdOff15To0⟩, ⟨_, g.gdSel⟩, ⟨_, g.gdArgs⟩, ⟨_, g.gdRsv1⟩, ⟨_, g.gdType⟩, ⟨_, g.gdS⟩, ⟨_, g.gdDpl⟩,
    ⟨_, g.gdP⟩, ⟨_, g.gdOff31To16⟩]

/-- A segment as the processor uses it. -/
structure SegView where
  base : Word
  limit : Word
  type : BitVec 4
  s : BitVec 1
  dpl : BitVec 2
  p : BitVec 1
deriving DecidableEq

/-- The processor's reading of the eight bytes of a segment descriptor. The limit counts pages if bit 55
is set. -/
def readSegment (d : Nat) : SegView where
  base := (slice d 56 8 ++ slice d 32 8 ++ slice d 16 16).setWidth 32
  limit :=
    let lim : Word := (slice d 48 4 ++ slice d 0 16).setWidth 32
    if slice d 55 1 = 1 then lim <<< 12 ||| 0xfff#32 else lim
  type := slice d 40 4
  s := slice d 44 1
  dpl := slice d 45 2
  p := slice d 47 1

/-- A gate as the processor uses it. -/
structure GateView where
  sel : BitVec 16
  off : Word
  type : BitVec 4
  s : BitVec 1
  dpl : BitVec 2
  p : BitVec 1
deriving DecidableEq

/-- The processor's reading of the eight bytes of a gate descriptor. -/
def readGate (d : Nat) : GateView where
  sel := slice d 16 16
  off := (slice d 48 16 ++ slice d 0 16).setWidth 32
  type := slice d 40 4
  s := slice d 44 1
  dpl := slice d 45 2
  p := slice d 47 1

section read

variable {w base lim off : Word} {type : BitVec 4} {dpl : BitVec 2} {sel : BitVec 16} {istrap : Bool}
  {a b m n : Nat}

theorem and_mask16 (x : BitVec 16) : x &&& 0xffff#16 = x := BitVec.and_allOnes

theorem and_mask8 (x : BitVec 8) : x &&& 0xff#8 = x := BitVec.and_allOnes

/-- Two neighbouring parts of a word, put together again. -/
theorem join_shift (h : a = b + n) :
    (w >>> a).setWidth m ++ (w >>> b).setWidth n = (w >>> b).setWidth (m + n) := by
  apply BitVec.eq_of_getLsbD_eq
  intro i hi
  simp only [BitVec.getLsbD_append, BitVec.getLsbD_setWidth, BitVec.getLsbD_ushiftRight]
  by_cases hlow : i < n
  · simp [hlow, hi]
  · simp [hlow, hi, show i - n < m by omega, show a + (i - n) = b + i by omega]

theorem join_zero : (w >>> n).setWidth m ++ w.setWidth n = w.setWidth (m + n) := by
  have h := join_shift (w := w) (m := m) (Nat.zero_add n).symm
  rwa [BitVec.ushiftRight_zero] at h

theorem join_base : (w >>> 24).setWidth 8 ++ (w >>> 16).setWidth 8 ++ w.setWidth 16 = w := by
  have hhigh : (w >>> 24).setWidth 8 ++ (w >>> 16).setWidth 8 = (w >>> 16).setWidth 16 := join_shift rfl
  rw [hhigh]
  exact join_zero.trans (BitVec.setWidth_eq w)

theorem shift_back : ((w >>> 12).setWidth 20).setWidth 32 <<< 12 ||| 0xfff#32 = w ||| 0xfff#32 := by
  apply BitVec.eq_of_getLsbD_eq
  intro i hi
  have hm : (0xfff#32).getLsbD i = decide (i < 12) := lowMask_testBit i
  simp only [BitVec.getLsbD_or, BitVec.getLsbD_shiftLeft, hm, BitVec.getLsbD_setWidth,
    BitVec.getLsbD_ushiftRight]
  by_cases h12 : i < 12
  · simp [h12]
  · simp [h12, hi, show i - 12 < 20 by omega, show i - 12 < 32 by omega, show 12 + (i - 12) = i by omega]

/-- The processor finds the base and the rights as given, and the limit up to the end of its page. -/
theorem readSegment_seg : readSegment (pack (seg type base lim dpl).fields) =
    ⟨base, lim ||| 0xfff#32, type, 1, dpl, 1⟩ := by
  have hlim : (lim >>> 28).setWidth 4 ++ (lim >>> 12).setWidth 16 = (lim >>> 12).setWidth 20 := join_shift rfl
  simp [readSegment, Segdesc.fields, seg, slice_rest, and_mask16, and_mask8, join_base, hlim, shift_back]

/-- A segment of less than 1 MB, whose limit counts bytes. -/
theorem readSegment_seg16 (s : BitVec 1) (h : lim.toNat < 2 ^ 20) :
    readSegment (pack { seg16 type base lim dpl with sdS := s }.fields) = ⟨base, lim, type, s, dpl, 1⟩ := by
  have hlim : (lim >>> 16).setWidth 4 ++ lim.setWidth 16 = lim.setWidth 20 := join_zero
  have hback : (lim.setWidth 20).setWidth 32 = lim := by
    apply BitVec.eq_of_toNat_eq
    rw [BitVec.toNat_setWidth, BitVec.toNat_setWidth]
    omega
  simp [readSegment, Segdesc.fields, seg16, slice_rest, and_mask16, and_mask8, join_base, hlim, hback]

/-- The processor finds the handler, however its address is split. -/
theorem readGate_setgate : readGate (pack (setgate istrap sel off dpl).fields) =
    ⟨sel, off, if istrap then stsTg32 else stsIg32, 0, dpl, 1⟩ := by
  have hoff : (off >>> 16).setWidth 16 ++ off.setWidth 16 = off := join_zero.trans (BitVec.setWidth_eq off)
  simp [readGate, Gatedesc.fields, setgate, slice_rest, and_mask16, hoff]

/-- The assembler's SEG and the compiler's come to the same eight bytes. -/
theorem pack_asmSeg : pack (asmSeg (type.setWidth 32) base lim) = pack (seg type base lim 0).fields := by
  have htype := type.isLt
  have hlim : lim.toNat >>> 28 < 16 := by
    rw [Nat.shiftRight_eq_div_pow]
    have := lim.isLt
    omega
  have hlow : lim.toNat >>> 28 &&& 15 = lim.toNat >>> 28 := by
    rw [show (15 : Nat) = 2 ^ 4 - 1 by rfl, Nat.and_two_pow_sub_one_eq_mod]
    omega
  have h1 : 144 ||| type.toNat = 144 + type.toNat :=
    (Nat.two_pow_add_eq_or_of_lt (i := 4) htype 9).symm
  have h2 : 192 ||| lim.toNat >>> 28 = 192 + lim.toNat >>> 28 :=
    (Nat.two_pow_add_eq_or_of_lt (i := 4) hlim 12).symm
  simp [asmSeg, Segdesc.fields, pack, seg, and_mask16, and_mask8]
  rw [Nat.mod_eq_of_lt (by omega : type.toNat < 256), Nat.mod_eq_of_lt (by omega : lim.toNat >>> 28 < 256),
    hlow, h1, h2]
  omega

end read

end Jos
