import Jos.Lib.NumberField

/-! What printnum prints: the padding, and the numeral behind it. -/
namespace Jos

open Prog Numeral

/-- What printnum should put out: `max 0 (width - d)` pad characters, and the `d` digits of the number. -/
def PrintsNumber (base width padc : Word) (num : BitVec 64) (out : List Word) : Prop :=
  ∃ ds text, IsNumeral base.toNat num.toNat ds ∧ ds.map (digitText[·]?) = text.map some ∧
    out = List.replicate (max 0 (width.toInt - ds.length)).toNat padc ++ chars text

variable {m : Word → Option Byte} {base width padc : Word} {num : BitVec 64} {n k : Nat} {out : List Word}

theorem digitText_getElem? (h : n < 16) : digitText[n]? = some (digitText.getD n 0#8) := by
  have hlen : digitText.length = 16 := rfl
  rw [List.getD_eq_getElem?_getD, List.getElem?_eq_getElem (by omega), Option.getD_some]

/-- In a base up to 16 every digit has a character. -/
theorem numberText_chars (hk : 2 ≤ k) (hk' : k ≤ 16) :
    (numeral k n).map (digitText[·]?) = (numberText k n).map some := by
  rw [numberText, List.map_map]
  refine List.map_congr_left fun d hd => ?_
  have hlt := lt_base hk hd
  exact digitText_getElem? (by omega)

/-- The number's text is what it should print, behind the padding. -/
theorem printsNumber_iff (hb : 2 ≤ base.toNat) (hb' : base.toNat ≤ 16) :
    PrintsNumber base width padc num out ↔
      out = List.replicate (max 0 (width.toInt - (numeral base.toNat num.toNat).length)).toNat padc ++
        chars (numberText base.toNat num.toNat) := by
  constructor
  · rintro ⟨ds, text, hds, htext, hout⟩
    rw [hds.eq_numeral hb, numberText_chars hb hb'] at htext
    have heq := List.map_injective_iff.mpr (Option.some_injective Byte) htext
    rw [hout, hds.eq_numeral hb, heq]
  · intro hout
    exact ⟨_, _, isNumeral_numeral hb num.toNat, numberText_chars hb hb', hout⟩

/-- The int that counts the padding down wraps when it falls below the least int. -/
theorem numberPads_eq_max_iff (hn : 0 < n) (hn' : n ≤ 64) :
    numberPads width n = (max 0 (width.toInt - n)).toNat ↔ -2 ^ 31 ≤ width.toInt - n := by
  have hlt := width.isLt
  rw [numberPads, BitVec.toInt_eq_toNat_cond, BitVec.toInt_eq_toNat_cond, BitVec.toNat_sub,
    BitVec.toNat_ofNat]
  split <;> split <;> omega

/-- For every number, base, width and pad character: printnum prints the padding and the numeral
exactly when the width less the number of digits is an int. -/
theorem printnum_prints_iff (m : Word → Option Byte) (num : BitVec 64) (base width padc : Word)
    (hb : 2 ≤ base.toNat) (hb' : base.toNat ≤ 16) :
    (∃ out, Emits ((screen m).printnum Printer.numberFuel num base width padc) () out ∧
        PrintsNumber base width padc num out) ↔
      -2 ^ 31 ≤ width.toInt - (numeral base.toNat num.toNat).length := by
  have hprint := emits_number (m := m) hb num width padc
  have hpos := length_pos base.toNat num.toNat
  have hlen : (numeral base.toNat num.toNat).length ≤ 64 :=
    length_le hb (Nat.lt_of_lt_of_le num.isLt (Nat.pow_le_pow_left hb 64)) (by decide)
  rw [← numberPads_eq_max_iff hpos hlen]
  constructor
  · rintro ⟨out, hout, hspec⟩
    rw [printsNumber_iff hb hb', (hout.det hprint).2] at hspec
    exact replicate_append_inj.mp hspec
  · intro hpads
    refine ⟨_, hprint, ?_⟩
    rw [printsNumber_iff hb hb', hpads]

/-- 255 in base 16, in a field of four. -/
theorem printnum_prints_ff : ∃ out,
    Emits ((screen fun _ => none).printnum Printer.numberFuel 255 16 4 48) () out ∧
      PrintsNumber 16 4 48 255 out :=
  (printnum_prints_iff (fun _ => none) 255 16 4 48 (by decide) (by decide)).mpr (by decide)

/-- With the least width, the zero is printed behind 2^31 - 1 pad characters. -/
theorem not_printnum_prints : ¬ ∃ out,
    Emits ((screen fun _ => none).printnum Printer.numberFuel 0 10 0x80000000 32) () out ∧
      PrintsNumber 10 0x80000000 32 0 out := by
  rintro ⟨out, hout, hspec⟩
  have hprint : Emits ((screen fun _ => none).printnum Printer.numberFuel 0 10 0x80000000 32) () _ :=
    emits_number (by decide) 0 0x80000000 32
  rw [printsNumber_iff (by decide) (by decide), (hout.det hprint).2] at hspec
  have hpads := replicate_append_inj.mp hspec
  revert hpads
  decide

end Jos
