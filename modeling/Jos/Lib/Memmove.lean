import Jos.Library.BlockMove
import Jos.Inc.Mmu

/-! memmove and memcpy (lib/string.c): the string instructions of the ASM branch and the byte loops
of the other one. -/
namespace Jos

open BlockMove

/-- What the string instructions work on: their registers, the direction flag and memory. -/
structure MovsCpu where
  edi : Word
  esi : Word
  ecx : Word
  df : Bool
  mem : Word → Byte

namespace MovsCpu

/-- movsb and movsl, for the operand size `k`. -/
def movs (k : Nat) (c : MovsCpu) : MovsCpu :=
  let step := if c.df then -BitVec.ofNat 32 k else BitVec.ofNat 32 k
  { c with
    mem := block k c.edi c.esi c.mem
    edi := c.edi + step
    esi := c.esi + step }

/-- The instruction behind `rep`: once for each count in ecx. -/
def repMovs (k : Nat) (c : MovsCpu) : MovsCpu := { (movs k)^[c.ecx.toNat] c with ecx := 0 }

end MovsCpu

/-- (int)s%4 == 0 && (int)d%4 == 0 && n%4 == 0 -/
def WordAligned (s d n : Word) : Prop := s.srem 4#32 = 0#32 ∧ d.srem 4#32 = 0#32 ∧ n % 4#32 = 0#32

instance (s d n : Word) : Decidable (WordAligned s d n) := inferInstanceAs (Decidable (_ ∧ _ ∧ _))

/-- memmove, as it is compiled. -/
def MovsCpu.memmove (dst src n : Word) (c : MovsCpu) : MovsCpu :=
  if src < dst ∧ dst < src + n then
    let s := src + n
    let d := dst + n
    let c :=
      if WordAligned s d n then
        { c with df := true, edi := d - 4, esi := s - 4, ecx := n / 4 }.repMovs 4
      else
        { c with df := true, edi := d - 1, esi := s - 1, ecx := n }.repMovs 1
    { c with df := false }
  else if WordAligned src dst n then
    { c with df := false, edi := dst, esi := src, ecx := n / 4 }.repMovs 4
  else
    { c with df := false, edi := dst, esi := src, ecx := n }.repMovs 1

def MovsCpu.memcpy (dst src n : Word) (c : MovsCpu) : MovsCpu := MovsCpu.memmove dst src n c

/-- `while (n-- > 0) *--d = *--s;` -/
def bytesDown : Nat → Word → Word → (Word → Byte) → Word → Byte
  | 0, _, _, m => m
  | n + 1, d, s, m => bytesDown n (d - 1) (s - 1) (Function.update m (d - 1) (m (s - 1)))

/-- `while (n-- > 0) *d++ = *s++;` -/
def bytesUp : Nat → Word → Word → (Word → Byte) → Word → Byte
  | 0, _, _, m => m
  | n + 1, d, s, m => bytesUp n (d + 1) (s + 1) (Function.update m d (m s))

/-- memmove without ASM. -/
def memmoveBytes (dst src n : Word) (m : Word → Byte) : Word → Byte :=
  if src < dst ∧ dst < src + n then
    bytesDown n.toNat (dst + n) (src + n) m
  else
    bytesUp n.toNat dst src m

/-- The range is moved, whatever the overlap, the direction flag is left clear, and the byte loops
leave the same memory. -/
def MovesRange (move : Word → Word → Word → MovsCpu → MovsCpu) (dst src n : Word) (c : MovsCpu) : Prop :=
  Moved n.toNat dst src c.mem (move dst src n c).mem ∧ (move dst src n c).df = false ∧
    (move dst src n c).mem = memmoveBytes dst src n c.mem

variable {dst src n d s : Word} {m : Word → Byte} {c : MovsCpu} {k q : Nat}

theorem iterate_movs (k q : Nat) (c : MovsCpu) : ((MovsCpu.movs k)^[q] c).mem =
      moves k (if c.df then -BitVec.ofNat 32 k else BitVec.ofNat 32 k) q c.edi c.esi c.mem ∧
    ((MovsCpu.movs k)^[q] c).df = c.df := by
  induction q generalizing c with
  | zero => exact ⟨rfl, rfl⟩
  | succ q ih =>
    rw [Function.iterate_succ_apply]
    exact ih (c.movs k)

theorem repMovs_mem (k : Nat) (c : MovsCpu) : (c.repMovs k).mem =
    moves k (if c.df then -BitVec.ofNat 32 k else BitVec.ofNat 32 k) c.ecx.toNat c.edi c.esi c.mem :=
  (iterate_movs k _ c).1

theorem repMovs_df (k : Nat) (c : MovsCpu) : (c.repMovs k).df = c.df := (iterate_movs k _ c).2

theorem update_eq_block : Function.update m d (m s) = block 1 d s m := by
  funext a
  by_cases ha : a = d
  · subst ha
    have hself : (a - a).toNat < 1 := by
      rw [BitVec.sub_self]
      exact Nat.one_pos
    have hblock : block 1 a s m a = m (s + (a - a)) := if_pos hself
    rw [Function.update_self, hblock, BitVec.sub_self, BitVec.add_zero]
  · have hne : (a - d).toNat ≠ 0 := by
      intro h0
      have hzero : a - d = 0#32 := BitVec.eq_of_toNat_eq h0
      exact ha (by rw [← BitVec.sub_add_cancel a d, hzero, BitVec.zero_add])
    rw [Function.update_of_ne ha, block_out (by omega)]

theorem bytesUp_eq_moves (q : Nat) : bytesUp q d s m = moves 1 (BitVec.ofNat 32 1) q d s m := by
  induction q generalizing d s m with
  | zero => rfl
  | succ q ih =>
    rw [bytesUp, ih, update_eq_block]
    rfl

theorem bytesDown_eq_moves (q : Nat) :
    bytesDown q d s m = moves 1 (-BitVec.ofNat 32 1) q (d - 1) (s - 1) m := by
  induction q generalizing d s m with
  | zero => rfl
  | succ q ih =>
    rw [bytesDown, ih, update_eq_block, moves, ← BitVec.sub_eq_add_neg, ← BitVec.sub_eq_add_neg]
    rfl

/-- Upwards is safe unless the destination starts inside the source. -/
theorem clearUp_of_not_overlap (hs : src.toNat + n.toNat ≤ 2 ^ 32)
    (hd : dst.toNat + n.toNat ≤ 2 ^ 32) (h : ¬ (src < dst ∧ dst < src + n)) :
    ClearUp n.toNat dst src := by
  intro i hi
  have hn := n.isLt
  rw [BitVec.toNat_sub, BitVec.toNat_add, BitVec.toNat_ofNat]
  by_cases hlt : src < dst
  · -- the source ends below 2^32, or the destination would not fit above it
    have hge : src + n ≤ dst := BitVec.not_lt.mp fun hd => h ⟨hlt, hd⟩
    rw [BitVec.le_def, BitVec.toNat_add] at hge
    rw [BitVec.lt_def] at hlt
    omega
  · rw [BitVec.lt_def] at hlt
    omega

/-- Downwards is safe when the destination starts behind the source. -/
theorem clearDown_of_lt (hd : dst.toNat + n.toNat ≤ 2 ^ 32) (h : src < dst) :
    ClearDown n.toNat dst src := by
  intro e he i hi
  have hn := n.isLt
  rw [BitVec.lt_def] at h
  rw [BitVec.toNat_sub, BitVec.toNat_add, BitVec.toNat_add, BitVec.toNat_ofNat, BitVec.toNat_ofNat]
  omega

/-- Whole words make up the length. -/
theorem WordAligned.length (h : WordAligned s d n) : (n / 4).toNat * 4 = n.toNat := by
  have h4 : n.toNat % 4 = 0 := by
    have := congrArg BitVec.toNat h.2.2
    simpa using this
  rw [BitVec.toNat_udiv]
  change n.toNat / 4 * 4 = n.toNat
  omega

theorem memmove_mem (hs : src.toNat + n.toNat ≤ 2 ^ 32) (hd : dst.toNat + n.toNat ≤ 2 ^ 32) (c : MovsCpu) :
    (MovsCpu.memmove dst src n c).mem = block n.toNat dst src c.mem := by
  have hlt := n.isLt
  have hn : BitVec.ofNat 32 n.toNat = n := by rw [BitVec.ofNat_toNat, BitVec.setWidth_eq]
  unfold MovsCpu.memmove
  by_cases hover : src < dst ∧ dst < src + n
  · have hclear := clearDown_of_lt hd hover.1
    rw [if_pos hover]
    by_cases ha : WordAligned (src + n) (dst + n) n
    · have hmoves := moves_down (m := c.mem) ha.length (by omega) hclear
      rw [hn] at hmoves
      simp only [if_pos ha, repMovs_mem, if_true]
      exact hmoves
    · have hmoves := moves_down (m := c.mem) (Nat.mul_one _) (by omega) hclear
      rw [hn] at hmoves
      simp only [if_neg ha, repMovs_mem, if_true]
      exact hmoves
  · have hclear := clearUp_of_not_overlap hs hd hover
    rw [if_neg hover]
    by_cases ha : WordAligned src dst n
    · have hmoves := moves_up (m := c.mem) ha.length (by omega) hclear
      simp only [if_pos ha, repMovs_mem, Bool.false_eq_true, if_false]
      exact hmoves
    · have hmoves := moves_up (m := c.mem) (Nat.mul_one _) (by omega) hclear
      simp only [if_neg ha, repMovs_mem, Bool.false_eq_true, if_false]
      exact hmoves

theorem memmove_df (dst src n : Word) (c : MovsCpu) : (MovsCpu.memmove dst src n c).df = false := by
  unfold MovsCpu.memmove
  split
  · rfl
  · split <;> exact repMovs_df _ _

theorem memmoveBytes_eq (hs : src.toNat + n.toNat ≤ 2 ^ 32) (hd : dst.toNat + n.toNat ≤ 2 ^ 32)
    (m : Word → Byte) : memmoveBytes dst src n m = block n.toNat dst src m := by
  have hlt := n.isLt
  have hn : BitVec.ofNat 32 n.toNat = n := by rw [BitVec.ofNat_toNat, BitVec.setWidth_eq]
  unfold memmoveBytes
  by_cases hover : src < dst ∧ dst < src + n
  · have hclear := clearDown_of_lt hd hover.1
    have hmoves := moves_down (m := m) (Nat.mul_one _) (by omega) hclear
    rw [hn] at hmoves
    rw [if_pos hover, bytesDown_eq_moves]
    exact hmoves
  · have hclear := clearUp_of_not_overlap hs hd hover
    have hmoves := moves_up (m := m) (Nat.mul_one _) (by omega) hclear
    rw [if_neg hover, bytesUp_eq_moves]
    exact hmoves

theorem movesRange_memmove (hs : src.toNat + n.toNat ≤ 2 ^ 32) (hd : dst.toNat + n.toNat ≤ 2 ^ 32)
    (c : MovsCpu) : MovesRange MovsCpu.memmove dst src n c := by
  refine ⟨?_, memmove_df dst src n c, ?_⟩
  · rw [memmove_mem hs hd]
    exact moved_block (by omega)
  · rw [memmove_mem hs hd, memmoveBytes_eq hs hd]

/-- For every overlap and every alignment, and for memcpy as for memmove. -/
theorem memmove_memcpy_correct (hs : src.toNat + n.toNat ≤ 2 ^ 32)
    (hd : dst.toNat + n.toNat ≤ 2 ^ 32) (c : MovsCpu) :
    MovesRange MovsCpu.memmove dst src n c ∧ MovesRange MovsCpu.memcpy dst src n c :=
  ⟨movesRange_memmove hs hd c, movesRange_memmove hs hd c⟩

/-- Twelve bytes moved up by one word. -/
theorem memmove_memcpy_correct_overlap :
    MovesRange MovsCpu.memmove 0x1004 0x1000 12 ⟨0, 0, 0, false, fun a => a.setWidth 8⟩ ∧
      MovesRange MovsCpu.memcpy 0x1004 0x1000 12 ⟨0, 0, 0, false, fun a => a.setWidth 8⟩ :=
  memmove_memcpy_correct (by decide) (by decide) _

end Jos
