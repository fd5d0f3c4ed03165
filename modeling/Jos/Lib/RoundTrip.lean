import Jos.Lib.Strtol
import Mathlib.Data.List.TakeWhile

/-! Numbers printed by vprintfmt (lib/printfmt.c) and read back by strtol (lib/string.c). -/
namespace Jos

open Prog Numeral

/-- The conversions that print one 32-bit number. -/
inductive Printed where
  | num (k : NumConv)
  | p

namespace Printed

def char : Printed → Byte
  | num k => k.char
  | p => chr 'p'

def base : Printed → Nat
  | num k => k.base
  | p => 16

/-- Printed without a sign and without the prefix 0x. -/
def Unmarked (ap : VaList) : Printed → Prop
  | num k => 0 ≤ argValue k .int ap
  | p => False

end Printed

/-- The character of a digit. -/
def digitChar (i : Nat) : Byte := digitText.getD i 0#8

section digits

variable {s t : List Byte} {ds : List Nat} {b i n x : Nat} {base : Word} {c : Byte}

/-- The bases the conversions print in. -/
def PrintBase (b : Nat) : Prop := b = 8 ∨ b = 10 ∨ b = 16

theorem digitValue_digitChar (hi : i < 16) : digitValue (digitChar i) = some (BitVec.ofNat 32 i) := by
  interval_cases i <;> decide

theorem digitChar_ne (hi : i < 16) : digitChar i ≠ 32 ∧ digitChar i ≠ 9 ∧ digitChar i ≠ chr '+' ∧
    digitChar i ≠ chr '-' ∧ digitChar i ≠ 120 := by
  interval_cases i <;> decide

theorem PrintBase.le (hb : PrintBase b) : 8 ≤ b ∧ b ≤ 16 := by
  rcases hb with rfl | rfl | rfl <;> decide

theorem PrintBase.toNat (hb : PrintBase b) : (BitVec.ofNat 32 b).toNat = b := by
  have := hb.le
  rw [BitVec.toNat_ofNat]
  omega

theorem isDigitBelow_digitChar (hb : PrintBase b) (hi : i < b) :
    isDigitBelow (BitVec.ofNat 32 b) (digitChar i) = true := by
  have hle := hb.le
  rw [isDigitBelow, digitValue_digitChar (by omega)]
  apply decide_eq_true
  rw [BitVec.lt_def, hb.toNat, BitVec.toNat_ofNat]
  omega

theorem not_hexPrefix (h0 : base ≠ 0) (h16 : base ≠ 16) (t : List Byte) : ¬ HexPrefix base t :=
  fun h => h.1.elim h0 h16

theorem numberBase_print (hb : PrintBase b) (t : List Byte) :
    numberBase (BitVec.ofNat 32 b) t = BitVec.ofNat 32 b := by
  unfold numberBase
  rcases hb with rfl | rfl | rfl
  · rw [if_neg (not_hexPrefix (by decide) (by decide) t), if_neg (by decide)]
  · rw [if_neg (not_hexPrefix (by decide) (by decide) t), if_neg (by decide)]
  · by_cases h : HexPrefix (BitVec.ofNat 32 16) t
    · rw [if_pos h]
      rfl
    · rw [if_neg h, if_neg (by decide)]

theorem takeWhile_digits (hb : PrintBase b) (hds : ∀ i ∈ ds, i < b) :
    (ds.map digitChar).takeWhile (isDigitBelow (BitVec.ofNat 32 b)) = ds.map digitChar := by
  rw [List.takeWhile_eq_self_iff]
  intro c hc
  obtain ⟨i, hi, rfl⟩ := List.mem_map.mp hc
  exact isDigitBelow_digitChar hb (hds i hi)

theorem runValue_digits (hb : PrintBase b) (hds : ∀ i ∈ ds, i < b) :
    runValue (BitVec.ofNat 32 b) (ds.map digitChar) = value b ds := by
  have hle := hb.le
  have hmap : (ds.map digitChar).map (fun c => ((digitValue c).getD 0).toNat) = ds.map id := by
    rw [List.map_map]
    apply List.map_congr_left
    intro i hi
    have hlt := hds i hi
    rw [Function.comp_apply, digitValue_digitChar (by omega), Option.getD_some, BitVec.toNat_ofNat, id]
    omega
  rw [runValue, hb.toNat, hmap, List.map_id]

/-- strtol reads a string of digits to its end, once it has found where they start. -/
theorem strtol_digits (hb : PrintBase b) (hds : ∀ i ∈ ds, i < b)
    (hplace : digitPlace (BitVec.ofNat 32 b) s = ds.map digitChar) :
    strtol s (BitVec.ofNat 32 b) =
      (if IsNegative s then -BitVec.ofNat 32 (value b ds) else BitVec.ofNat 32 (value b ds), []) := by
  have hrun : digitRun (BitVec.ofNat 32 b) s = ds.map digitChar := by
    rw [digitRun, hplace, numberBase_print hb, takeWhile_digits hb hds]
  rw [strtol_eq, hrun, hplace, numberBase_print hb, runValue_digits hb hds, List.drop_length]

/-- Digits are not taken for the prefix 0x. -/
theorem not_hexPrefix_digits (hds : ∀ i ∈ ds, i < 16) : ¬ HexPrefix base (ds.map digitChar) := by
  rintro ⟨-, h⟩
  match ds with
  | [] => cases h
  | [i] => simp at h
  | i :: j :: ds =>
    have hj : digitChar j = 120 := (List.cons.inj (List.cons.inj h).2).1
    exact (digitChar_ne (hds j (by simp))).2.2.2.2 hj

/-- Blanks before the digits. -/
theorem strtol_blanks (hb : PrintBase b) (hds : ∀ j ∈ i :: ds, j < b) (n : Nat) :
    strtol (List.replicate n (chr ' ') ++ (i :: ds).map digitChar) (BitVec.ofNat 32 b) =
      (BitVec.ofNat 32 (value b (i :: ds)), []) := by
  have hle := hb.le
  have hds' : ∀ j ∈ i :: ds, j < 16 := fun j hj => by
    have := hds j hj
    omega
  obtain ⟨h32, h9, hplus, hminus, -⟩ := digitChar_ne (hds' i (by simp))
  have hblanks : afterBlanks (List.replicate n (chr ' ') ++ (i :: ds).map digitChar) =
      (i :: ds).map digitChar := by
    rw [afterBlanks, List.dropWhile_append_of_pos]
    · rw [List.map_cons, List.dropWhile_cons, if_neg]
      simpa using ⟨h32, h9⟩
    · intro c hc
      rw [List.eq_of_mem_replicate hc]
      decide
  have hsign : afterSign (List.replicate n (chr ' ') ++ (i :: ds).map digitChar) =
      (i :: ds).map digitChar := by
    rw [afterSign, hblanks, List.map_cons]
    exact if_neg fun h => h.elim hplus hminus
  have hneg : ¬ IsNegative (List.replicate n (chr ' ') ++ (i :: ds).map digitChar) := by
    rw [IsNegative, hblanks, List.map_cons, List.head?_cons]
    exact fun h => hminus (Option.some.inj h)
  have hplace : digitPlace (BitVec.ofNat 32 b) (List.replicate n (chr ' ') ++ (i :: ds).map digitChar) =
      (i :: ds).map digitChar := by
    rw [digitPlace, hsign, if_neg (not_hexPrefix_digits hds')]
  rw [strtol_digits hb hds hplace, if_neg hneg]

/-- A minus sign before the digits. -/
theorem strtol_minus (hb : PrintBase b) (hds : ∀ i ∈ ds, i < b) :
    strtol (chr '-' :: ds.map digitChar) (BitVec.ofNat 32 b) = (-BitVec.ofNat 32 (value b ds), []) := by
  have hle := hb.le
  have hds' : ∀ j ∈ ds, j < 16 := fun j hj => by
    have := hds j hj
    omega
  have hblanks : afterBlanks (chr '-' :: ds.map digitChar) = chr '-' :: ds.map digitChar := by
    rw [afterBlanks, List.dropWhile_cons, if_neg (by decide)]
  have hsign : afterSign (chr '-' :: ds.map digitChar) = ds.map digitChar := by
    rw [afterSign, hblanks]
    exact if_pos (Or.inr rfl)
  have hneg : IsNegative (chr '-' :: ds.map digitChar) := by
    rw [IsNegative, hblanks, List.head?_cons]
  have hplace : digitPlace (BitVec.ofNat 32 b) (chr '-' :: ds.map digitChar) = ds.map digitChar := by
    rw [digitPlace, hsign, if_neg (not_hexPrefix_digits hds')]
  rw [strtol_digits hb hds hplace, if_pos hneg]

/-- The prefix 0x before the digits. -/
theorem strtol_prefix (hds : ∀ i ∈ ds, i < 16) :
    strtol (chr '0' :: chr 'x' :: ds.map digitChar) 16 = (BitVec.ofNat 32 (value 16 ds), []) := by
  have hblanks : afterBlanks (chr '0' :: chr 'x' :: ds.map digitChar) =
      chr '0' :: chr 'x' :: ds.map digitChar := by
    rw [afterBlanks, List.dropWhile_cons, if_neg (by decide)]
  have hsign : afterSign (chr '0' :: chr 'x' :: ds.map digitChar) =
      chr '0' :: chr 'x' :: ds.map digitChar := by
    rw [afterSign, hblanks]
    exact if_neg (by decide)
  have hneg : ¬ IsNegative (chr '0' :: chr 'x' :: ds.map digitChar) := by
    rw [IsNegative, hblanks, List.head?_cons]
    decide
  have hplace : digitPlace 16 (chr '0' :: chr 'x' :: ds.map digitChar) = ds.map digitChar := by
    rw [digitPlace, hsign, if_pos ⟨Or.inr rfl, rfl⟩]
    rfl
  have hread : strtol (chr '0' :: chr 'x' :: ds.map digitChar) (BitVec.ofNat 32 16) = _ :=
    strtol_digits (Or.inr (Or.inr rfl)) hds hplace
  rw [if_neg hneg] at hread
  exact hread

end digits

section roundTrip

variable {m : Word → Option Byte} {ap : VaList} {zero : Bool} {w : Option Nat} {k : NumConv}
  {b n x : Nat} {v : Int}

theorem numberText_eq (b x : Nat) : numberText b x = (numeral b x).map digitChar := rfl

/-- Zeros before the digits are digits too. -/
theorem zeros_numberText (b x n : Nat) : List.replicate n (chr '0') ++ numberText b x =
    (List.replicate n 0 ++ numeral b x).map digitChar := by
  rw [List.map_append, List.map_replicate]
  rfl

theorem zeros_lt (hb : PrintBase b) {i : Nat} (hi : i ∈ List.replicate n 0 ++ numeral b x) : i < b := by
  have hle := hb.le
  rcases List.mem_append.mp hi with hz | hd
  · rw [List.eq_of_mem_replicate hz]
    omega
  · exact lt_base (by omega) hd

/-- No width, no padding. -/
theorem numberPads_none (hn : n ≤ 64) : numberPads (fieldWidth none) n = 0 := by
  rw [numberPads, fieldWidth, BitVec.toInt_eq_toNat_cond, BitVec.toNat_sub, BitVec.toNat_ofNat,
    show (-1 : Word).toNat = 4294967295 from rfl]
  split <;> omega

theorem NumConv.printBase (k : NumConv) : PrintBase k.base := by
  cases k with
  | d => exact Or.inr (Or.inl rfl)
  | u => exact Or.inr (Or.inl rfl)
  | o => exact Or.inl rfl
  | x => exact Or.inr (Or.inr rfl)

theorem ofInt_argValue (k : NumConv) (ap : VaList) : BitVec.ofInt 32 (argValue k .int ap) = ap 0 := by
  unfold argValue
  dsimp only
  split
  · exact BitVec.ofInt_toInt
  · rw [BitVec.ofInt_natCast, BitVec.ofNat_toNat, BitVec.setWidth_eq]

/-- The padding of a field that is filled with zeros, or not filled. -/
theorem padding_eq (hzero : zero = true ∨ n = 0) :
    List.replicate n (padChar zero) = List.replicate n (chr '0') := by
  rcases hzero with rfl | rfl <;> rfl

theorem strtol_field (hb : PrintBase b) (hzero : zero = true ∨ n = 0) (hv : 0 ≤ v) :
    strtol (List.replicate n (padChar zero) ++ numberText b v.natAbs) (BitVec.ofNat 32 b) =
      (BitVec.ofInt 32 v, []) := by
  have hne : List.replicate n 0 ++ numeral b v.natAbs ≠ [] := fun h => by
    have hpos := length_pos b v.natAbs
    rw [(List.append_eq_nil_iff.mp h).2] at hpos
    exact absurd hpos (by decide)
  have hval : BitVec.ofNat 32 v.natAbs = BitVec.ofInt 32 v := by
    rw [← BitVec.ofInt_natCast, Int.natAbs_of_nonneg hv]
  have hlt := fun i hi => zeros_lt (n := n) (x := v.natAbs) hb (i := i) hi
  rw [padding_eq hzero, zeros_numberText, ← hval]
  have hread := value_zeros b n (numeral b v.natAbs)
  rw [value_numeral] at hread
  cases hds : List.replicate n 0 ++ numeral b v.natAbs with
  | nil => exact absurd hds hne
  | cons i ds =>
    rw [hds] at hread hlt
    have h := strtol_blanks hb hlt 0
    rwa [hread] at h

theorem strtol_spaces (hb : PrintBase b) (hv : 0 ≤ v) (n : Nat) :
    strtol (List.replicate n (chr ' ') ++ numberText b v.natAbs) (BitVec.ofNat 32 b) =
      (BitVec.ofInt 32 v, []) := by
  have hval : BitVec.ofNat 32 v.natAbs = BitVec.ofInt 32 v := by
    rw [← BitVec.ofInt_natCast, Int.natAbs_of_nonneg hv]
  have hlt := fun i hi => zeros_lt (n := 0) (x := v.natAbs) hb (i := i) hi
  have hread := value_numeral b v.natAbs
  rw [numberText_eq, ← hval]
  cases hds : numeral b v.natAbs with
  | nil =>
    have hpos := length_pos b v.natAbs
    rw [hds] at hpos
    exact absurd hpos (by decide)
  | cons i ds =>
    rw [hds] at hread
    rw [List.replicate_zero, List.nil_append, hds] at hlt
    have h := strtol_blanks hb hlt n
    rwa [hread] at h

theorem strtol_negative (hb : PrintBase b) (hzero : zero = true ∨ n = 0) (hv : v < 0) :
    strtol (chr '-' :: (List.replicate n (padChar zero) ++ numberText b v.natAbs)) (BitVec.ofNat 32 b) =
      (BitVec.ofInt 32 v, []) := by
  have hval : -BitVec.ofNat 32 v.natAbs = BitVec.ofInt 32 v := by
    rw [← BitVec.ofInt_natCast, ← BitVec.ofInt_neg]
    congr 1
    omega
  have h := strtol_minus hb fun i hi => zeros_lt (n := n) (x := v.natAbs) hb (i := i) hi
  rw [value_zeros, value_numeral] at h
  rw [padding_eq hzero, zeros_numberText, ← hval]
  exact h

theorem strtol_pointer (hzero : zero = true ∨ n = 0) (x : Word) :
    strtol (chr '0' :: chr 'x' :: (List.replicate n (padChar zero) ++ numberText 16 x.toNat)) 16 =
      (x, []) := by
  have h : strtol (chr '0' :: chr 'x' :: (List.replicate n 0 ++ numeral 16 x.toNat).map digitChar) 16 = _ :=
    strtol_prefix fun i hi => zeros_lt (Or.inr (Or.inr rfl)) hi
  rw [value_zeros, value_numeral, BitVec.ofNat_toNat, BitVec.setWidth_eq] at h
  rw [padding_eq hzero, zeros_numberText]
  exact h

/-- A number printed in one of these ways is read back, and its end is found: any conversion, with
any width, filled with zeros; filled with spaces when it has no sign and no prefix. -/
theorem printed_parses (m : Word → Option Byte) (ap : VaList) (k : Printed) (zero : Bool)
    (w : Option Nat) (hw : ∀ n, w = some n → 1 ≤ n) (hspace : zero = true ∨ w = none ∨ k.Unmarked ap) :
    ∃ s, Prints m (fieldDirective k.char zero w 0) ap 1 (chars s) ∧
      strtol s (BitVec.ofNat 32 k.base) = (ap 0, []) := by
  have hpads : ∀ n ≤ 64, zero = true ∨ w = none → zero = true ∨ numberPads (fieldWidth w) n = 0 := by
    rintro n hn (hz | rfl)
    · exact Or.inl hz
    · exact Or.inr (numberPads_none hn)
  cases k with
  | p =>
    have hlen : (numberText 16 (ap 0).toNat).length ≤ 64 := length_numberText_le (by decide) (by
      have := (ap 0).isLt
      omega)
    have hprint := prints_pointer (m := m) hw zero ap
    rw [codeField, signText, if_neg (by omega), Int.natAbs_natCast, chars_nil, List.nil_append,
      ← chars_replicate, ← chars_append, ← chars_append] at hprint
    refine ⟨_, hprint, ?_⟩
    have hz := hpads _ hlen (hspace.imp_right fun h => h.resolve_right id)
    exact strtol_pointer hz (ap 0)
  | num k =>
    have hlen := length_numberText_le k.two_le_base (natAbs_argValue_lt k .int ap)
    have hprint := prints_codeField (m := m) hw k .int zero ap
    rw [codeField, ← chars_replicate, ← chars_append, ← chars_append] at hprint
    refine ⟨_, hprint, ?_⟩
    rw [← ofInt_argValue k ap]
    by_cases hv : argValue k .int ap < 0
    · have hz := hpads _ hlen (hspace.imp_right fun h => h.resolve_right fun hu => by
        change 0 ≤ argValue k .int ap at hu
        omega)
      rw [signText, if_pos hv]
      exact strtol_negative k.printBase hz hv
    · have hpos : 0 ≤ argValue k .int ap := by omega
      rw [signText, if_neg hv, List.nil_append]
      cases zero with
      | true => exact strtol_field k.printBase (Or.inl rfl) hpos
      | false => exact strtol_spaces k.printBase hpos _

end roundTrip

theorem printed_parses_pointer : ∃ s, Prints (fun _ => none) (fieldDirective (chr 'p') true (some 8) 0)
      (fun _ => 0xF0100000) 1 (chars s) ∧
    strtol s (BitVec.ofNat 32 16) = (0xF0100000, []) :=
  printed_parses (fun _ => none) (fun _ => 0xF0100000) .p true (some 8)
    (fun n hn => Option.some.inj hn ▸ by decide) (Or.inl rfl)

end Jos
