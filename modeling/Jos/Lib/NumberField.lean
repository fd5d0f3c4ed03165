import Jos.Lib.FormatRules

/-! The numeric conversions of vprintfmt: digits, padding, sign and width. -/
namespace Jos

open Prog Numeral

/-- The digits of a number as printnum writes them. -/
def numberText (base : Nat) (num : Nat) : List Byte :=
  (numeral base num).map fun i => digitText.getD i 0#8

/-- The pad characters printnum writes before `n` digits. -/
def numberPads (width : Word) (n : Nat) : Nat := (width - BitVec.ofNat 32 n).toInt.toNat

/-- The characters a callback is given for a text. -/
def chars (s : List Byte) : List Word := s.map (·.setWidth 32)

section printnum

variable {m : Word → Option Byte} {base width padc : Word} {num : BitVec 64} {fuel n k : Nat}
  {s t : List Byte}

@[simp] theorem chars_nil : chars [] = [] := rfl

theorem chars_append : chars (s ++ t) = chars s ++ chars t := List.map_append

theorem chars_replicate {c : Byte} : chars (List.replicate n c) = List.replicate n (c.setWidth 32) :=
  List.map_replicate

theorem chars_injective (h : chars s = chars t) : s = t := by
  exact List.map_injective_iff.mpr (fun _ _ hc => setWidth_char_inj.mp hc) h

@[simp] theorem length_numberText : (numberText k n).length = (numeral k n).length :=
  List.length_map ..

theorem numberText_of_lt (h : n < k) : numberText k n = [digitText.getD n 0#8] := by
  rw [numberText, numeral_of_lt h]
  rfl

theorem numberText_of_le (hk : 2 ≤ k) (h : k ≤ n) :
    numberText k n = numberText k (n / k) ++ [digitText.getD (n % k) 0#8] := by
  rw [numberText, numeral_of_le hk h, List.map_append]
  rfl

theorem numberPads_succ : numberPads (width - 1) n = numberPads width (n + 1) := by
  have h : width - 1 - BitVec.ofNat 32 n = width - BitVec.ofNat 32 (n + 1) := by
    rw [BitVec.ofNat_add]
    grind
  rw [numberPads, h, numberPads]

/-- printnum writes the padding and then the numeral, for every number its fuel suffices for. -/
theorem emits_printnum (hb : 2 ≤ base.toNat) (hfuel : num.toNat < base.toNat ^ fuel) (hpos : 0 < fuel) :
    Emits ((screen m).printnum fuel num base width padc) ()
      (List.replicate (numberPads width (numeral base.toNat num.toNat).length) padc ++
        chars (numberText base.toNat num.toNat)) := by
  have hbase : (base.setWidth 64).toNat = base.toNat := by
    rw [BitVec.toNat_setWidth]
    have := base.isLt
    omega
  induction fuel generalizing num width with
  | zero => omega
  | succ fuel ih =>
    rw [Printer.printnum, BitVec.toNat_umod, hbase]
    by_cases hle : base.setWidth 64 ≤ num
    · have hlen : base.toNat ≤ num.toNat := by
        rw [BitVec.le_def, hbase] at hle
        exact hle
      have hdiv : (num / base.setWidth 64).toNat = num.toNat / base.toNat := by
        rw [BitVec.toNat_udiv, hbase]
      have hlt : (num / base.setWidth 64).toNat < base.toNat ^ fuel := by
        rw [hdiv, Nat.div_lt_iff_lt_mul (by omega)]
        rwa [Nat.pow_succ] at hfuel
      have hfuel' : 0 < fuel := by
        rcases Nat.eq_zero_or_pos fuel with rfl | hp
        · rw [Nat.zero_add, Nat.pow_one] at hfuel
          omega
        · exact hp
      have hrec : Emits ((screen m).printnum fuel (num / base.setWidth 64) base (width - 1) padc) () _ :=
        ih hlt hfuel'
      rw [hdiv, numberPads_succ] at hrec
      rw [if_pos hle, numeral_of_le hb hlen, List.length_append, List.length_singleton,
        numberText_of_le hb hlen, chars_append, ← List.append_assoc]
      exact hrec.bind (emits_putch _)
    · have hlen : num.toNat < base.toNat := by
        rw [BitVec.le_def, hbase] at hle
        omega
      rw [if_neg hle, numeral_of_lt hlen, numberText_of_lt hlen, Nat.mod_eq_of_lt hlen]
      exact (emits_putTimes padc _).bind (emits_putch _)

/-- The fuel of the numeric conversions is enough for 64 bits in any base. -/
theorem emits_number (hb : 2 ≤ base.toNat) (num : BitVec 64) (width padc : Word) :
    Emits ((screen m).printnum Printer.numberFuel num base width padc) ()
      (List.replicate (numberPads width (numeral base.toNat num.toNat).length) padc ++
        chars (numberText base.toNat num.toNat)) := by
  refine emits_printnum hb ?_ (by decide)
  exact Nat.lt_of_lt_of_le num.isLt (Nat.pow_le_pow_left hb 64)

end printnum

/-- The numeric conversions that take a width. -/
inductive NumConv where
  | d
  | u
  | o
  | x
deriving DecidableEq

namespace NumConv

def char : NumConv → Byte
  | d => chr 'd'
  | u => chr 'u'
  | o => chr 'o'
  | x => chr 'x'

def base : NumConv → Nat
  | d => 10
  | u => 10
  | o => 8
  | x => 16

end NumConv

/-- The long flags of a conversion: none, l or ll. -/
inductive ArgSize where
  | int
  | long
  | longLong
deriving DecidableEq

namespace ArgSize

def count : ArgSize → Nat
  | int => 0
  | long => 1
  | longLong => 2

/-- The argument words taken. -/
def words : ArgSize → Nat
  | int => 1
  | long => 1
  | longLong => 2

end ArgSize

/-- The argument as the number it stands for. -/
def argValue (k : NumConv) (size : ArgSize) (ap : VaList) : Int :=
  match size with
  | .longLong => if k = .d then (ap 1 ++ ap 0).toInt else (ap 1 ++ ap 0).toNat
  | _ => if k = .d then (ap 0).toInt else (ap 0).toNat

/-- The decimal numeral of a width or a precision. -/
def decimal (w : Nat) : List Byte := (numeral 10 w).map digitByte

def widthText : Option Nat → List Byte
  | none => []
  | some w => decimal w

/-- A %-escape sequence: the zero flag, a width, long flags, and the conversion. -/
def fieldDirective (ch : Byte) (zero : Bool) (w : Option Nat) (longs : Nat) : List Byte :=
  chr '%' :: ((if zero then [chr '0'] else []) ++ (widthText w ++ (List.replicate longs (chr 'l') ++ [ch])))

/-- A numeric conversion with a width. -/
def numberDirective (k : NumConv) (size : ArgSize) (zero : Bool) (w : Nat) : List Byte :=
  fieldDirective k.char zero (some w) size.count

/-- Wherever the directive stands in a format, vprintfmt puts out `field` for it and goes on behind
it, with the arguments from the `n`th on. -/
def Prints (m : Word → Option Byte) (directive : List Byte) (ap : VaList) (n : Nat)
    (field : List Word) : Prop :=
  ∀ rest p out, p.Holds m (directive ++ rest) →
    Formats m (p.skip directive.length) (ap.drop n) out → Formats m p ap (field ++ out)

/-- The sign of a number. -/
def signText (v : Int) : List Byte := if v < 0 then [chr '-'] else []

/-- A field of a given width: spaces, the sign, zeros, the digits. -/
def numberField (zero : Bool) (w base : Nat) (v : Int) : List Byte :=
  let digits := numberText base v.natAbs
  let pads := w - (signText v ++ digits).length
  if zero then
    signText v ++ (List.replicate pads (chr '0') ++ digits)
  else
    List.replicate pads (chr ' ') ++ (signText v ++ digits)

section fields

variable {m : Word → Option Byte} {p q : CharPtr} {ap : VaList} {d : Directive} {k : NumConv}
  {size : ArgSize} {zero : Bool} {w n : Nat} {field field' : List Word} {directive : List Byte}
  {e : Byte × CharPtr × VaList × Directive} {c : Byte}

theorem Prints.unique (hdir : ∀ c ∈ directive, c ≠ 0) (h : Prints m directive ap n field)
    (h' : Prints m directive ap n field') : field = field' := by
  have hholds : (CharPtr.text directive 0).Holds m (directive ++ []) := by
    rw [List.append_nil]
    exact CharPtr.holds_text hdir
  have hend : Formats m _ (ap.drop n) [] :=
    formats_end (CharPtr.holds_nil.mp (CharPtr.holds_append.mp hholds).2)
  have he := (h [] _ [] hholds hend).unique (h' [] _ [] hholds hend)
  rwa [List.append_nil, List.append_nil] at he

theorem natAbs_toInt_of_neg {x : BitVec 64} (h : x.toInt < 0) : (-x).toNat = x.toInt.natAbs := by
  have hx := x.isLt
  rw [BitVec.toNat_neg]
  rw [BitVec.toInt_eq_toNat_cond] at h ⊢
  split at h <;> omega

theorem natAbs_toInt_of_nonneg {x : BitVec 64} (h : 0 ≤ x.toInt) : x.toNat = x.toInt.natAbs := by
  have hx := x.isLt
  rw [BitVec.toInt_eq_toNat_cond] at h ⊢
  split at h <;> omega

/-- The text of a number behind its sign, padded to what is left of the width. -/
def codeField (padc width : Word) (base : Nat) (v : Int) : List Word :=
  chars (signText v) ++ (List.replicate (numberPads width (numberText base v.natAbs).length) padc ++
    chars (numberText base v.natAbs))

theorem emits_codeField {base : Word} {num : BitVec 64} {v : Int} (hb : 2 ≤ base.toNat) (hv : 0 ≤ v)
    (hnum : num.toNat = v.natAbs) (padc width : Word) :
    Emits ((screen m).printnum Printer.numberFuel num base width padc) ()
      (codeField padc width base.toNat v) := by
  have h := emits_number (m := m) hb num width padc
  rw [codeField, signText, if_neg (by omega), length_numberText, ← hnum]
  exact h

/-- d, u, o and x. -/
theorem converts_number (hl : d.lflag = BitVec.ofNat 32 size.count) :
    Converts m k.char q ap d q (ap.drop size.words)
      (codeField (d.padc.signExtend 32) d.width k.base (argValue k size ap)) := by
  refine settles_of_forall fun fuel => ?_
  have hwide : 2 ≤ d.lflag.toInt ↔ size = .longLong := by
    rw [hl]
    cases size <;> decide
  have hrest : (if 2 ≤ d.lflag.toInt then ap.drop 2 else ap.drop 1) = ap.drop size.words := by
    cases size <;> simp [hwide, ArgSize.words]
  have huint : (getuint ap d.lflag).2 = ap.drop size.words := by
    rw [← hrest, getuint]
    split <;> rfl
  have hint : (getint ap d.lflag).2 = ap.drop size.words := by
    rw [← hrest, getint]
    split <;> rfl
  have hunsigned : ∀ k ≠ NumConv.d,
      (getuint ap d.lflag).1.toNat = (argValue k size ap).natAbs ∧ 0 ≤ argValue k size ap := by
    intro k hk
    unfold getuint argValue
    have hw := (ap 0).isLt
    cases size <;> simp [hwide, hk, BitVec.toNat_setWidth] <;> omega
  have hsigned : (getint ap d.lflag).1.toInt = argValue .d size ap := by
    unfold getint argValue
    cases size <;> simp [hwide, BitVec.toInt_signExtend_of_le]
  simp only [Printer.convert, hint, huint]
  cases k with
  | d =>
    rw [NumConv.char, if_neg (by decide), if_neg (by decide), if_neg (by decide), if_pos rfl, hsigned]
    by_cases hneg : argValue .d size ap < 0
    · have hnum : (-(getint ap d.lflag).1).toNat = (argValue .d size ap).natAbs :=
        hsigned ▸ natAbs_toInt_of_neg (hsigned ▸ hneg)
      have hten : 2 ≤ (10 : Word).toNat := by decide
      have hdigits := emits_number (m := m) hten (-(getint ap d.lflag).1) d.width (d.padc.signExtend 32)
      rw [hnum, ← length_numberText] at hdigits
      rw [if_pos hneg, codeField, signText, if_pos hneg]
      exact (emits_putch _).bind (hdigits.finish (emits_pure _))
    · have hpos : 0 ≤ argValue .d size ap := by omega
      have hnum := hsigned ▸ natAbs_toInt_of_nonneg (hsigned ▸ hpos)
      rw [if_neg hneg]
      exact Emits.finish (emits_codeField (by decide) hpos hnum _ _) (emits_pure _)
  | u =>
    obtain ⟨hnum, hpos⟩ := hunsigned .u (by decide)
    rw [NumConv.char, if_neg (by decide), if_neg (by decide), if_neg (by decide), if_neg (by decide),
      if_pos rfl]
    exact Emits.finish (emits_codeField (by decide) hpos hnum _ _) (emits_pure _)
  | o =>
    obtain ⟨hnum, hpos⟩ := hunsigned .o (by decide)
    rw [NumConv.char, if_neg (by decide), if_neg (by decide), if_neg (by decide), if_neg (by decide),
      if_neg (by decide), if_pos rfl]
    exact Emits.finish (emits_codeField (by decide) hpos hnum _ _) (emits_pure _)
  | x =>
    obtain ⟨hnum, hpos⟩ := hunsigned .x (by decide)
    rw [NumConv.char, if_neg (by decide), if_neg (by decide), if_neg (by decide), if_neg (by decide),
      if_neg (by decide), if_neg (by decide), if_neg (by decide), if_pos rfl]
    exact Emits.finish (emits_codeField (by decide) hpos hnum _ _) (emits_pure _)

/-- p: the prefix 0x, and the padding behind it. -/
theorem converts_pointer : Converts m (chr 'p') q ap d q (ap.drop 1)
    (chars [chr '0', chr 'x'] ++ codeField (d.padc.signExtend 32) d.width 16 (ap 0).toNat) := by
  refine settles_of_forall fun fuel => ?_
  have hnum : ((ap 0).setWidth 64).toNat = ((ap 0).toNat : Int).natAbs := by
    rw [BitVec.toNat_setWidth, Int.natAbs_natCast]
    have := (ap 0).isLt
    omega
  have hsixteen : 2 ≤ (16 : Word).toNat := by decide
  have hdigits := emits_codeField (m := m) hsixteen (Int.natCast_nonneg _) hnum (d.padc.signExtend 32)
    d.width
  simp only [Printer.convert]
  rw [if_neg (by decide), if_neg (by decide), if_neg (by decide), if_neg (by decide),
    if_neg (by decide), if_neg (by decide), if_pos trivial]
  exact (emits_putch _).bind ((emits_putch _).bind (hdigits.finish (emits_pure _)))

theorem decimal_lt {i : Nat} (hi : i ∈ numeral 10 w) : i < 10 := lt_base (by decide) hi

theorem digitByte_ne_zero {i : Nat} (hi : i < 10) : digitByte i ≠ 0 := by
  intro h0
  have hnat := toNat_digitByte hi
  rw [h0] at hnat
  change 0 = _ at hnat
  omega

theorem decimal_ne_zero (hc : c ∈ decimal w) : c ≠ 0 := by
  obtain ⟨i, hi, rfl⟩ := List.mem_map.mp hc
  exact digitByte_ne_zero (decimal_lt hi)

/-- A width or precision of at least 1, up to a character that is no digit. -/
theorem scans_decimal (hw : 1 ≤ w) (hspan : p.Spans m (decimal w))
    (hend : (p.skip (decimal w).length).At m c) (hc : ¬ IsDigit c)
    (hs : Scans m (p.skip (decimal w).length) ap (d.processPrecision (BitVec.ofNat 32 w)) e) :
    Scans m p ap d e := by
  obtain ⟨j, ds, hds, hj⟩ := head_ne_zero (b := 10) (n := w) (by omega)
  have hdec : decimal w = (j :: ds).map digitByte := by rw [decimal, hds]
  have hval : value 10 (j :: ds) = w := by rw [← hds, value_numeral]
  rw [hdec, List.length_map] at hend hs
  rw [hdec] at hspan
  rw [← hval] at hs
  exact scans_number (fun i hi => decimal_lt (hds ▸ hi)) hj hspan hend hc hs

/-- The long flags, one by one. -/
theorem scans_long (hspan : p.Spans m (List.replicate n (chr 'l')))
    (hs : Scans m (p.skip n) ap { d with lflag := d.lflag + BitVec.ofNat 32 n } e) :
    Scans m p ap d e := by
  induction n generalizing p d with
  | zero =>
    rw [BitVec.add_zero] at hs
    exact hs
  | succ n ih =>
    obtain ⟨hat, -, hrest⟩ := hspan
    refine scans_flag hat rfl (ih hrest ?_)
    rw [CharPtr.skip_succ] at hs
    have hsum : d.lflag + 1 + BitVec.ofNat 32 n = d.lflag + BitVec.ofNat 32 (n + 1) := by
      rw [BitVec.ofNat_add]
      grind
    rw [hsum]
    exact hs

theorem NumConv.char_endsFlags (k : NumConv) : EndsFlags k.char := by
  cases k <;> decide

theorem NumConv.char_ne_zero (k : NumConv) : k.char ≠ 0 := by
  cases k <;> decide

/-- The padding character of a directive. -/
def padChar (zero : Bool) : Byte := if zero then chr '0' else chr ' '

/-- The width in an int. -/
def fieldWidth : Option Nat → Word
  | none => -1
  | some w => BitVec.ofNat 32 w

/-- The scanner's state behind the flags of a directive. -/
def fieldState (zero : Bool) (w : Option Nat) (longs : Nat) : Directive :=
  ⟨padChar zero, fieldWidth w, -1, BitVec.ofNat 32 longs, false⟩

theorem fieldDirective_ne_zero {ch : Byte} {w : Option Nat} (hch : ch ≠ 0)
    (hc : c ∈ fieldDirective ch zero w n) : c ≠ 0 := by
  simp only [fieldDirective, List.mem_cons, List.mem_append, List.mem_replicate, List.not_mem_nil,
    or_false] at hc
  rcases hc with rfl | hz | hd | ⟨-, rfl⟩ | rfl
  · decide
  · cases zero with
    | false => cases hz
    | true =>
      rw [List.mem_singleton.mp hz]
      decide
  · cases w with
    | none => cases hd
    | some w => exact decimal_ne_zero hd
  · decide
  · exact hch

/-- The long flags and the conversion. -/
theorem scans_conversion {rest : List Byte} {ch : Byte} (hch : EndsFlags ch)
    (hspan : p.Spans m (List.replicate n (chr 'l') ++ ch :: rest)) :
    Scans m p ap d (ch, p.skip (n + 1), ap, { d with lflag := d.lflag + BitVec.ofNat 32 n }) := by
  obtain ⟨hlong, hchar, -⟩ := CharPtr.spans_append.mp hspan
  rw [List.length_replicate] at hchar
  rw [CharPtr.skip_add]
  exact scans_long hlong (scans_end hchar hch)

/-- The width, the long flags and the conversion. -/
theorem scans_width {rest : List Byte} {ch : Byte} {w : Option Nat} (hw : ∀ k, w = some k → 1 ≤ k)
    (hch : EndsFlags ch)
    (hspan : p.Spans m (widthText w ++ (List.replicate n (chr 'l') ++ ch :: rest))) (hd : d.width = -1)
    (hprec : d.precision = -1) :
    Scans m p ap d (ch, p.skip ((widthText w).length + (n + 1)), ap,
      { d with width := fieldWidth w, lflag := d.lflag + BitVec.ofNat 32 n }) := by
  obtain ⟨padc, width, precision, lflag, altflag⟩ := d
  subst hd hprec
  cases w with
  | none =>
    rw [widthText, List.length_nil, Nat.zero_add]
    exact scans_conversion hch hspan
  | some w =>
    obtain ⟨hdec, hrest⟩ := CharPtr.spans_append.mp hspan
    have hnext : ∃ c, (p.skip (decimal w).length).At m c ∧ ¬ IsDigit c := by
      cases n with
      | zero => exact ⟨_, hrest.1, hch.2⟩
      | succ n => exact ⟨_, hrest.1, by decide⟩
    obtain ⟨c, hat, hc⟩ := hnext
    refine scans_decimal (hw w rfl) hdec hat hc ?_
    rw [CharPtr.skip_add]
    exact scans_conversion hch hrest

theorem scans_field {rest : List Byte} {ch : Byte} {w : Option Nat} (hw : ∀ k, w = some k → 1 ≤ k)
    (hch : EndsFlags ch) (hspan : p.Spans m (fieldDirective ch zero w n ++ rest)) :
    Scans m p.next ap .start (ch, p.skip (fieldDirective ch zero w n).length, ap,
      fieldState zero w n) := by
  have hsize : (0 : Word) + BitVec.ofNat 32 n = BitVec.ofNat 32 n := BitVec.zero_add _
  rw [fieldDirective, List.cons_append, List.append_assoc, List.append_assoc, List.append_assoc,
    List.singleton_append] at hspan
  obtain ⟨-, -, hflags⟩ := hspan
  cases zero with
  | false =>
    have h : Scans m p.next ap .start _ := scans_width hw hch hflags rfl rfl
    simp only [fieldDirective, List.length_cons, List.length_append, List.length_replicate,
      List.length_nil, Bool.false_eq_true, if_false, Nat.zero_add, CharPtr.skip_succ]
    rw [Directive.start, hsize] at h
    exact h
  | true =>
    obtain ⟨hzero, -, hrest⟩ := hflags
    have h : Scans m p.next.next ap { Directive.start with padc := chr '0' } _ :=
      scans_width hw hch hrest rfl rfl
    simp only [fieldDirective, List.length_cons, List.length_append, List.length_replicate,
      List.length_nil, if_true, Nat.zero_add, CharPtr.skip_succ]
    rw [Directive.start, hsize] at h
    rw [Nat.add_comm 1, CharPtr.skip_succ]
    exact scans_flag hzero rfl h

theorem signExtend_padChar (zero : Bool) : (padChar zero).signExtend 32 = (padChar zero).setWidth 32 := by
  cases zero <;> decide

/-- A directive whose conversion goes on where it finds itself. -/
theorem prints_field {ch : Byte} {w : Option Nat} {longs : Nat} (hw : ∀ k, w = some k → 1 ≤ k)
    (hch : EndsFlags ch)
    (hconv : ∀ q, Converts m ch q ap (fieldState zero w longs) q (ap.drop n) field) :
    Prints m (fieldDirective ch zero w longs) ap n field := by
  intro rest p out hp hout
  have hspan := (CharPtr.holds_append.mp hp).1
  have hspan' : p.Spans m (fieldDirective ch zero w longs ++ []) := by
    rwa [List.append_nil]
  exact formats_escape hspan.1 (scans_field hw hch hspan') (hconv _) hout

/-- What vprintfmt puts out for d, u, o and x. -/
theorem prints_codeField {w : Option Nat} (hw : ∀ k, w = some k → 1 ≤ k) (k : NumConv) (size : ArgSize)
    (zero : Bool) (ap : VaList) :
    Prints m (fieldDirective k.char zero w size.count) ap size.words
      (codeField ((padChar zero).setWidth 32) (fieldWidth w) k.base (argValue k size ap)) := by
  refine prints_field hw k.char_endsFlags fun q => ?_
  rw [← signExtend_padChar]
  exact converts_number (d := fieldState zero w size.count) rfl

/-- What vprintfmt puts out for p. -/
theorem prints_pointer {w : Option Nat} (hw : ∀ k, w = some k → 1 ≤ k) (zero : Bool) (ap : VaList) :
    Prints m (fieldDirective (chr 'p') zero w 0) ap 1
      (chars [chr '0', chr 'x'] ++
        codeField ((padChar zero).setWidth 32) (fieldWidth w) 16 (ap 0).toNat) := by
  refine prints_field hw (by decide) fun q => ?_
  rw [← signExtend_padChar]
  exact converts_pointer

theorem natAbs_argValue_lt (k : NumConv) (size : ArgSize) (ap : VaList) :
    (argValue k size ap).natAbs < 2 ^ 64 := by
  have h0 := (ap 0).isLt
  have hq := (ap 1 ++ ap 0).isLt
  have hs := BitVec.two_mul_toInt_lt (x := ap 0)
  have hs' := BitVec.le_two_mul_toInt (x := ap 0)
  have hl := BitVec.two_mul_toInt_lt (x := ap 1 ++ ap 0)
  have hl' := BitVec.le_two_mul_toInt (x := ap 1 ++ ap 0)
  unfold argValue
  cases size <;> dsimp only <;> split <;> omega

theorem length_numberText_le {base v : Nat} (hb : 2 ≤ base) (hv : v < 2 ^ 64) :
    (numberText base v).length ≤ 64 := by
  rw [length_numberText]
  exact length_le hb (Nat.lt_of_lt_of_le hv (Nat.pow_le_pow_left hb 64)) (by decide)

/-- The padding is what the width leaves, unless the width wraps around. -/
theorem numberPads_eq_iff (hn : n ≤ 64) :
    numberPads (BitVec.ofNat 32 w) n = w - n ↔ w < 2 ^ 31 + n := by
  rw [numberPads, BitVec.toInt_eq_toNat_cond, BitVec.toNat_sub, BitVec.toNat_ofNat, BitVec.toNat_ofNat]
  split <;> omega

/-- Behind a sign, the padding is one too long as soon as there is any. -/
theorem numberPads_eq_pred_iff (hn : n ≤ 64) :
    numberPads (BitVec.ofNat 32 w) n = w - (n + 1) ↔ w ≤ n := by
  rw [numberPads, BitVec.toInt_eq_toNat_cond, BitVec.toNat_sub, BitVec.toNat_ofNat, BitVec.toNat_ofNat]
  split <;> omega

theorem replicate_append_inj {α : Type} {a : α} {s : List α} {i j : Nat} :
    List.replicate i a ++ s = List.replicate j a ++ s ↔ i = j := by
  rw [List.append_left_inj]
  exact ⟨fun h => by simpa using congrArg List.length h, fun h => h ▸ rfl⟩

/-- What is put out is the field of the given width, unless a sign stands before padding. -/
theorem codeField_eq_iff {v : Int} {base : Nat} (hb : 2 ≤ base) (hv : v.natAbs < 2 ^ 64) :
    codeField ((padChar zero).setWidth 32) (BitVec.ofNat 32 w) base v = chars (numberField zero w base v) ↔
      w ≤ (numberText base v.natAbs).length ∨
        (0 ≤ v ∧ w < 2 ^ 31 + (numberText base v.natAbs).length) := by
  have hn := length_numberText_le hb hv
  have hcode : codeField ((padChar zero).setWidth 32) (BitVec.ofNat 32 w) base v =
      chars (signText v ++ (List.replicate
        (numberPads (BitVec.ofNat 32 w) (numberText base v.natAbs).length) (padChar zero) ++
          numberText base v.natAbs)) := by
    rw [codeField, chars_append, chars_append, chars_replicate]
  have hiff : codeField ((padChar zero).setWidth 32) (BitVec.ofNat 32 w) base v =
      chars (numberField zero w base v) ↔ signText v ++ (List.replicate
        (numberPads (BitVec.ofNat 32 w) (numberText base v.natAbs).length) (padChar zero) ++
          numberText base v.natAbs) = numberField zero w base v := by
    rw [hcode]
    exact ⟨chars_injective, fun h => h ▸ rfl⟩
  rw [hiff]
  unfold numberField
  generalize numberText base v.natAbs = digits at hn ⊢
  by_cases hneg : v < 0
  · have hsign : signText v = [chr '-'] := if_pos hneg
    rw [hsign]
    cases zero with
    | true =>
      simp only [padChar, if_true, List.singleton_append, List.length_cons, List.cons.injEq, true_and]
      rw [replicate_append_inj, numberPads_eq_pred_iff hn]
      omega
    | false =>
      simp only [padChar, Bool.false_eq_true, if_false, List.singleton_append, List.length_cons]
      constructor
      · intro h
        rcases Nat.eq_zero_or_pos (w - (digits.length + 1)) with h0 | hpos
        · rw [h0, List.replicate_zero, List.nil_append, List.cons.injEq] at h
          have hlen := congrArg List.length h.2
          rw [List.length_append, List.length_replicate] at hlen
          have hpads := (numberPads_eq_iff (w := w) hn).mpr (by omega)
          omega
        · obtain ⟨i, hi⟩ : ∃ i, w - (digits.length + 1) = i + 1 := ⟨w - (digits.length + 1) - 1, by omega⟩
          rw [hi, List.replicate_succ, List.cons_append, List.cons.injEq] at h
          exact absurd h.1 (by decide)
      · intro h
        have hw : w ≤ digits.length := by omega
        have hpads := (numberPads_eq_pred_iff hn).mpr hw
        rw [hpads, show w - (digits.length + 1) = 0 by omega]
        rfl
  · have hsign : signText v = [] := if_neg hneg
    rw [hsign]
    have hpad : numberPads (BitVec.ofNat 32 w) digits.length = w - digits.length ↔ _ :=
      numberPads_eq_iff hn
    cases zero with
    | true =>
      simp only [padChar, if_true, List.nil_append]
      rw [replicate_append_inj, hpad]
      omega
    | false =>
      simp only [padChar, Bool.false_eq_true, if_false, List.nil_append]
      rw [replicate_append_inj, hpad]
      omega

theorem NumConv.two_le_base (k : NumConv) : 2 ≤ k.base := by
  cases k <;> decide

theorem prints_numberField_iff (hw : 1 ≤ w) :
    Prints m (numberDirective k size zero w) ap size.words
        (chars (numberField zero w k.base (argValue k size ap))) ↔
      w ≤ (numberText k.base (argValue k size ap).natAbs).length ∨ (0 ≤ argValue k size ap ∧
        w < 2 ^ 31 + (numberText k.base (argValue k size ap).natAbs).length) := by
  have hcode := prints_codeField (m := m) (w := some w) (fun i hi => Option.some.inj hi ▸ hw) k size zero ap
  rw [← codeField_eq_iff k.two_le_base (natAbs_argValue_lt k size ap)]
  constructor
  · intro h
    exact hcode.unique (fun c hc => fieldDirective_ne_zero k.char_ne_zero hc) h
  · intro h
    rw [← h]
    exact hcode

end fields

/-- A field has its width exactly when no padding is called for, or the number has no sign; and the
width must not wrap around in an int. -/
theorem numberField_iff (m : Word → Option Byte) (ap : VaList) (k : NumConv) (size : ArgSize)
    (zero : Bool) (w : Nat) (hw : 1 ≤ w) :
    Prints m (numberDirective k size zero w) ap size.words
        (chars (numberField zero w k.base (argValue k size ap))) ↔
      w ≤ (numberText k.base (argValue k size ap).natAbs).length ∨ (0 ≤ argValue k size ap ∧
        w < 2 ^ 31 + (numberText k.base (argValue k size ap).natAbs).length) :=
  prints_numberField_iff hw

theorem numberField_five : Prints (fun _ => none) (numberDirective .d .int true 5) (fun _ => 42) 1
    (chars [chr '0', chr '0', chr '0', chr '4', chr '2']) :=
  (numberField_iff (fun _ => none) (fun _ => 42) .d .int true 5 (by decide)).mpr
    (Or.inr ⟨by decide, by decide⟩)

/-- "%5d" of -42 is given six characters, and its sign stands before the spaces. -/
theorem not_numberField : ¬ ∀ (m : Word → Option Byte) (ap : VaList) (k : NumConv) (size : ArgSize)
    (zero : Bool) (w : Nat), 1 ≤ w → Prints m (numberDirective k size zero w) ap size.words
      (chars (numberField zero w k.base (argValue k size ap))) := by
  intro hall
  have h := hall (fun _ => none) (fun _ => -42) .d .int false 5 (by decide)
  rw [prints_numberField_iff (by decide)] at h
  revert h
  decide

end Jos
