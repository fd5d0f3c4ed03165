import Jos.Library.BlockFill
import Jos.Inc.Mmu

/-! memset (lib/string.c): stosl and stosb in the ASM branch, and the byte loop of the other one. -/
namespace Jos

open BlockMove

/-- What the store instructions work on: their registers, the direction flag and memory. -/
structure StosCpu where
  edi : Word
  eax : Word
  ecx : Word
  df : Bool
  mem : Word → Byte

namespace StosCpu

/-- stosb and stosl, for the operand size `k`. -/
def stos (k : Nat) (c : StosCpu) : StosCpu :=
  { c with
    mem := fillBlock k c.edi (fun i => (c.eax >>> (8 * i)).setWidth 8) c.mem
    edi := c.edi + if c.df then -BitVec.ofNat 32 k else BitVec.ofNat 32 k }

/-- The instruction behind `rep`: once for each count in ecx. -/
def repStos (k : Nat) (c : StosCpu) : StosCpu := { (stos k)^[c.ecx.toNat] c with ecx := 0 }

/-- `c &= 0xFF; c = (c<<24)|(c<<16)|(c<<8)|c;` -/
def spread (c : Word) : Word :=
  let c := c &&& 0xFF#32
  (c <<< 24) ||| (c <<< 16) ||| (c <<< 8) ||| c

/-- memset, as it is compiled: its result, and what the instructions leave. The asm statements say that
they read their operands, not that they change them. -/
def memset (v c n : Word) (r : StosCpu) : Word × StosCpu :=
  if n = 0 then
    (v, r)
  else if v.srem 4#32 = 0#32 ∧ n % 4#32 = 0#32 then
    (v, { r with df := false, edi := v, eax := spread c, ecx := n / 4 }.repStos 4)
  else
    (v, { r with df := false, edi := v, eax := c, ecx := n }.repStos 1)

end StosCpu

/-- `*p++ = c;`, once for each round. -/
def memsetRounds (c : Byte) : Nat → Word → (Word → Byte) → Word → Byte
  | 0, _, m => m
  | n + 1, p, m => memsetRounds c n (p + 1) (Function.update m p c)

/-- memset without ASM: `m = n; while (--m >= 0)`, where m is an int. -/
def memsetBytes (v c n : Word) (m : Word → Byte) : Word × (Word → Byte) :=
  (v, memsetRounds (c.setWidth 8) n.toInt.toNat v m)

variable {v c n : Word} {m : Word → Byte} {k q : Nat}

theorem iterate_stos (k q : Nat) (r : StosCpu) (hdf : r.df = false) : ((StosCpu.stos k)^[q] r).mem =
    fills k (fun i => (r.eax >>> (8 * i)).setWidth 8) q r.edi r.mem := by
  induction q generalizing r with
  | zero => rfl
  | succ q ih =>
    rw [Function.iterate_succ_apply, ih (r.stos k) hdf, fills]
    simp [StosCpu.stos, hdf]

theorem iterate_stos_edi (k q : Nat) (r : StosCpu) (hdf : r.df = false) :
    ((StosCpu.stos k)^[q] r).edi = r.edi + BitVec.ofNat 32 (q * k) := by
  induction q generalizing r with
  | zero => simp
  | succ q ih =>
    rw [Function.iterate_succ_apply, ih (r.stos k) hdf, Nat.succ_mul, Nat.add_comm, BitVec.ofNat_add,
      ← BitVec.add_assoc]
    simp [StosCpu.stos, hdf]

theorem repStos_mem (k : Nat) (r : StosCpu) (hdf : r.df = false) : (r.repStos k).mem =
    fills k (fun i => (r.eax >>> (8 * i)).setWidth 8) r.ecx.toNat r.edi r.mem :=
  iterate_stos k _ r hdf

/-- Each byte of the word that stosl stores. -/
theorem spread_byte (c : Word) {i : Nat} (hi : i < 4) :
    (StosCpu.spread c >>> (8 * i)).setWidth 8 = c.setWidth 8 := by
  have hmask : ∀ j, (c &&& 0xFF#32).getLsbD j = (c.getLsbD j && decide (j < 8)) := by
    intro j
    rw [BitVec.getLsbD_and, BitVec.getLsbD_ofNat, show 0xFF = 2 ^ 8 - 1 from rfl,
      Nat.testBit_two_pow_sub_one]
    by_cases hj : j < 32
    · simp [hj]
    · simp [hj, show ¬ j < 8 by omega]
  refine BitVec.eq_of_getLsbD_eq fun j hj => ?_
  simp only [StosCpu.spread, BitVec.getLsbD_setWidth, BitVec.getLsbD_ushiftRight, BitVec.getLsbD_or,
    BitVec.getLsbD_shiftLeft, hmask]
  interval_cases i <;> interval_cases j <;> simp

theorem toNat_div_four (h : n % 4#32 = 0#32) : (n / 4).toNat * 4 = n.toNat := by
  have h4 : n.toNat % 4 = 0 := by
    have := congrArg BitVec.toNat h
    simpa using this
  rw [BitVec.toNat_udiv]
  change n.toNat / 4 * 4 = n.toNat
  omega

/-- The instructions leave edi behind the buffer. -/
theorem memset_edi (v c : Word) (r : StosCpu) (hn : n ≠ 0) : (StosCpu.memset v c n r).2.edi = v + n := by
  rw [StosCpu.memset, if_neg hn]
  split
  · next ha =>
    have hedi := iterate_stos_edi 4 (n / 4).toNat
      { r with df := false, edi := v, eax := StosCpu.spread c, ecx := n / 4 } rfl
    rw [toNat_div_four ha.2] at hedi
    exact hedi.trans (by simp)
  · have hedi := iterate_stos_edi 1 n.toNat { r with df := false, edi := v, eax := c, ecx := n } rfl
    rw [Nat.mul_one] at hedi
    exact hedi.trans (by simp)

/-- The compiled memset sets exactly the bytes from `v` on. -/
theorem memset_mem (v c n : Word) (r : StosCpu) :
    (StosCpu.memset v c n r).2.mem = fillBlock n.toNat v (fun _ => c.setWidth 8) r.mem := by
  unfold StosCpu.memset
  have hlt := n.isLt
  by_cases h0 : n = 0
  · subst h0
    rw [if_pos rfl]
    exact fillBlock_zero.symm
  rw [if_neg h0]
  by_cases ha : v.srem 4#32 = 0#32 ∧ n % 4#32 = 0#32
  · have hlen := toNat_div_four ha.2
    rw [if_pos ha, repStos_mem 4 _ rfl, fills_eq (by decide) (by dsimp only; omega)]
    dsimp only
    rw [hlen]
    exact fillBlock_congr fun i _ => spread_byte c (Nat.mod_lt i (by decide))
  · rw [if_neg ha, repStos_mem 1 _ rfl, fills_eq (by decide) (by dsimp only; omega)]
    dsimp only
    rw [Nat.mul_one]
    refine fillBlock_congr fun i _ => ?_
    rw [Nat.mod_one, Nat.mul_zero, BitVec.ushiftRight_zero]

theorem update_eq_fillBlock (b : Byte) (v : Word) (m : Word → Byte) :
    Function.update m v b = fillBlock 1 v (fun _ => b) m := by
  funext a
  unfold fillBlock
  by_cases ha : a = v
  · subst ha
    rw [Function.update_self, BitVec.sub_self, if_pos (by decide)]
  · have hne : (a - v).toNat ≠ 0 := by
      intro h0
      have hzero : a - v = 0#32 := BitVec.eq_of_toNat_eq h0
      exact ha (by rw [← BitVec.sub_add_cancel a v, hzero, BitVec.zero_add])
    rw [Function.update_of_ne ha, if_neg (by omega)]

theorem memsetRounds_eq (b : Byte) {n : Nat} (hn : n ≤ 2 ^ 32) (v : Word) (m : Word → Byte) :
    memsetRounds b n v m = fillBlock n v (fun _ => b) m := by
  have hfills : ∀ n v m, memsetRounds b n v m = fills 1 (fun _ => b) n v m := by
    intro n
    induction n with
    | zero => exact fun _ _ => rfl
    | succ n ih =>
      intro v m
      rw [memsetRounds, ih, update_eq_fillBlock, fills]
      rfl
  rw [hfills, fills_eq (by decide) (by omega), Nat.mul_one]

/-- The byte loop does the same, unless the length is negative as an int. -/
theorem memsetBytes_eq (v c n : Word) (hn : n.toNat < 2 ^ 31) (m : Word → Byte) :
    (memsetBytes v c n m).2 = fillBlock n.toNat v (fun _ => c.setWidth 8) m := by
  have hint : n.toInt.toNat = n.toNat := by
    rw [BitVec.toInt_eq_toNat_of_lt (by omega)]
    rfl
  rw [memsetBytes, hint, memsetRounds_eq _ (by omega)]

end Jos
