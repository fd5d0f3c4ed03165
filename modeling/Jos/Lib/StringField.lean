import Jos.Lib.NumberField

/-! The %s conversion of vprintfmt: what is shown of a string, and the spaces around it. -/
namespace Jos

open Prog Numeral

def IsPrintable (c : Byte) : Prop := 32 ≤ c.toNat ∧ c.toNat ≤ 126

instance (c : Byte) : Decidable (IsPrintable c) := inferInstanceAs (Decidable (_ ∧ _))

/-- The character of a string as the callback is given it. -/
def shownChar (altflag : Bool) (c : Byte) : Word :=
  if altflag = true ∧ ¬ IsPrintable c then (chr '?').setWidth 32 else c.signExtend 32

/-- How many characters a precision shows of `n`. -/
def shownCount (precision : Word) (n : Nat) : Nat :=
  if precision.toInt < 0 then n else min precision.toNat n

/-- The spaces before a string of which strnlen counts `n` characters. -/
def leadPads (d : Directive) (n : Nat) : Nat :=
  if 0 < d.width.toInt ∧ d.padc ≠ chr '-' then (d.width - BitVec.ofNat 32 n).toInt.toNat else 0

/-- The width those spaces leave. -/
def widthLeft (d : Directive) (n : Nat) : Word :=
  if 0 < d.width.toInt ∧ d.padc ≠ chr '-' then
    if 0 < (d.width - BitVec.ofNat 32 n).toInt then 0 else d.width - BitVec.ofNat 32 n
  else
    d.width

section loops

variable {m : Word → Option Byte} {p q : CharPtr} {s : List Byte} {d : Directive}
  {precision width w : Word} {altflag : Bool} {n size : Nat} {c : Byte}

theorem isPrintable_iff_toInt : IsPrintable c ↔ ¬ (c.toInt < 32 ∨ 126 < c.toInt) := by
  have hc := c.isLt
  rw [IsPrintable, BitVec.toInt_eq_toNat_cond]
  split <;> omega

theorem emits_pad (padc width : Word) :
    Emits ((screen m).pad padc width) (if 0 < width.toInt then 0 else width)
      (List.replicate width.toInt.toNat padc) := by
  rw [Printer.pad]
  exact (emits_putTimes padc _).finish (emits_pure _)

/-- strnlen stops at the NUL, or when it has looked at `size` characters. -/
theorem emits_strnlen (h : p.Holds m s) :
    Emits ((screen m).strnlen size p) (BitVec.ofNat 32 (min size s.length)) [] := by
  induction size generalizing p s with
  | zero =>
    rw [Nat.zero_min]
    exact emits_pure 0
  | succ size ih =>
    rw [Printer.strnlen]
    cases s with
    | nil =>
      refine (emits_read h.head).step ?_
      rw [List.headD_nil, if_pos rfl, List.length_nil, Nat.min_zero]
      exact emits_pure 0
    | cons c s =>
      obtain ⟨hat, hne, hrest⟩ := CharPtr.holds_cons.mp h
      refine (emits_read hat).step ?_
      rw [if_neg hne, List.length_cons, Nat.succ_min_succ]
      refine (ih hrest).step ?_
      rw [Nat.succ_eq_add_one, BitVec.ofNat_add]
      exact emits_pure _

/-- A precision that is counted down, once for each character. -/
theorem countDown_eq (precision : Word) : (precision = 0 ∧ countDown precision = none) ∨
    ∃ next, countDown precision = some next ∧
      ∀ n, shownCount precision (n + 1) = shownCount next n + 1 := by
  have hp := precision.isLt
  rw [countDown]
  by_cases hneg : precision.toInt < 0
  · rw [if_pos hneg]
    refine Or.inr ⟨precision, rfl, fun n => ?_⟩
    rw [shownCount, shownCount, if_pos hneg, if_pos hneg]
  · rw [if_neg hneg]
    by_cases hzero : precision = 0
    · subst hzero
      exact Or.inl ⟨rfl, if_neg (by decide)⟩
    · have hnat : precision.toNat ≠ 0 := fun h => hzero (BitVec.eq_of_toNat_eq h)
      have hpred : (precision - 1).toNat = precision.toNat - 1 := by
        rw [BitVec.toNat_sub, show (1 : Word).toNat = 1 from rfl]
        omega
      have hint : ¬ (precision - 1).toInt < 0 := by
        rw [BitVec.toInt_eq_toNat_cond] at hneg ⊢
        rw [hpred]
        split at hneg <;> split <;> omega
      rw [if_pos (by omega)]
      refine Or.inr ⟨precision - 1, rfl, fun n => ?_⟩
      rw [shownCount, shownCount, if_neg hneg, if_neg hint, hpred]
      omega

theorem shownCount_zero (n : Nat) : shownCount 0 n = 0 := by
  rw [shownCount, if_neg (by decide)]
  exact Nat.zero_min n

/-- The middle loop shows what the precision lets it, and counts the width down by as much. -/
theorem emits_putChars (h : p.Holds m s) (altflag : Bool) (precision width : Word) :
    Settles fun fuel => Emits ((screen m).putChars altflag fuel p precision width)
      (width - BitVec.ofNat 32 (shownCount precision s.length))
      ((s.take (shownCount precision s.length)).map (shownChar altflag)) := by
  induction s generalizing p precision width with
  | nil =>
    refine ⟨1, fun fuel hfuel => ?_⟩
    obtain ⟨k, rfl⟩ : ∃ k, fuel = k + 1 := ⟨fuel - 1, by omega⟩
    have hcount : shownCount precision 0 = 0 := by
      rw [shownCount, Nat.min_zero, ite_self]
    rw [Printer.putChars, List.length_nil, hcount, BitVec.sub_zero]
    refine (emits_read h.head).step ?_
    rw [List.headD_nil, if_pos rfl]
    exact emits_pure width
  | cons c s ih =>
    obtain ⟨hat, hne, hrest⟩ := CharPtr.holds_cons.mp h
    rcases countDown_eq precision with ⟨rfl, hnone⟩ | ⟨next, hsome, hcount⟩
    · refine ⟨1, fun fuel hfuel => ?_⟩
      obtain ⟨k, rfl⟩ : ∃ k, fuel = k + 1 := ⟨fuel - 1, by omega⟩
      rw [Printer.putChars, shownCount_zero, BitVec.sub_zero]
      refine (emits_read hat).step ?_
      rw [if_neg hne, hnone]
      exact emits_pure width
    · refine (ih hrest next (width - 1)).succ fun fuel hfuel => ?_
      rw [Printer.putChars]
      refine (emits_read hat).step ?_
      rw [if_neg hne, hsome, List.length_cons, hcount, List.take_succ_cons, List.map_cons]
      have hshown : (if altflag = true ∧ (c.toInt < 32 ∨ 126 < c.toInt) then (chr '?').setWidth 32
          else c.signExtend 32) = shownChar altflag c := by
        have hiff : c.toInt < 32 ∨ 126 < c.toInt ↔ ¬ IsPrintable c := by
          rw [isPrintable_iff_toInt, not_not]
        exact if_congr (and_congr_right' hiff) rfl rfl
      have hwidth : width - BitVec.ofNat 32 (shownCount next s.length + 1) =
          width - 1 - BitVec.ofNat 32 (shownCount next s.length) := by
        rw [BitVec.ofNat_add]
        grind
      dsimp only
      rw [hshown, hwidth]
      exact (emits_putch _).bind hfuel

/-- The characters a string conversion puts out. -/
def shown (d : Directive) (s : List Byte) : List Word :=
  (s.take (shownCount d.precision s.length)).map (shownChar d.altflag)

/-- What %s puts out: spaces or other padding, what is shown of the string, and spaces. -/
theorem emits_putString (h : p.Holds m s) :
    Settles fun fuel => Emits ((screen m).putString fuel d p) ()
      (List.replicate (leadPads d (min d.precision.toNat s.length)) (d.padc.signExtend 32) ++
        (shown d s ++ List.replicate (widthLeft d (min d.precision.toNat s.length) -
          BitVec.ofNat 32 (shownCount d.precision s.length)).toInt.toNat ((chr ' ').setWidth 32))) := by
  have hbefore : Emits ((screen m).padBefore d p) (widthLeft d (min d.precision.toNat s.length))
      (List.replicate (leadPads d (min d.precision.toNat s.length)) (d.padc.signExtend 32)) := by
    rw [Printer.padBefore, widthLeft, leadPads]
    by_cases hcond : 0 < d.width.toInt ∧ d.padc ≠ chr '-'
    · rw [if_pos hcond, if_pos hcond, if_pos hcond]
      exact (emits_strnlen h).step (emits_pad _ _)
    · rw [if_neg hcond, if_neg hcond, if_neg hcond]
      exact emits_pure _
  have hmiddle := emits_putChars h d.altflag d.precision (widthLeft d (min d.precision.toNat s.length))
  refine hmiddle.mono fun fuel hchars => ?_
  rw [Printer.putString]
  refine hbefore.bind (hchars.bind ?_)
  exact (emits_pad _ _).finish (emits_pure ())

end loops

/-- A width or a precision as a directive gives it. -/
inductive Amount where
  | absent
  | star
  | numeral (n : Nat)
deriving DecidableEq

namespace Amount

def text : Amount → List Byte
  | absent => []
  | star => [chr '*']
  | numeral n => decimal n

/-- The argument words it takes. -/
def words : Amount → Nat
  | star => 1
  | _ => 0

/-- It is an int of at least 0, and a numeral does not start with 0. -/
def Fits (arg : Word) : Amount → Prop
  | absent => True
  | star => 0 ≤ arg.toInt
  | numeral n => 1 ≤ n ∧ n < 2 ^ 31

def word (arg : Word) : Amount → Word
  | absent => -1
  | star => arg
  | numeral n => BitVec.ofNat 32 n

def value (arg : Word) : Amount → Option Nat
  | absent => none
  | star => some arg.toNat
  | numeral n => some n

/-- The effect of reading it on the scanner. -/
def apply (arg : Word) (d : Directive) : Amount → Directive
  | absent => d
  | star => d.processPrecision arg
  | numeral n => d.processPrecision (BitVec.ofNat 32 n)

end Amount

def precisionText : Amount → List Byte
  | .absent => []
  | a => chr '.' :: a.text

/-- A string conversion with its flags, a width and a precision. -/
def stringDirective (flags : List Byte) (w p : Amount) : List Byte :=
  chr '%' :: (flags ++ (w.text ++ (precisionText p ++ [chr 's'])))

/-- The argument of %s is the string `s`. -/
def ArgString (m : Word → Option Byte) (arg : Word) (s : List Byte) : Prop :=
  if arg = 0 then s = nullText else (CharPtr.mem arg).Holds m s

/-- What a precision lets through of a string. -/
def cut (p : Option Nat) (s : List Byte) : List Byte :=
  match p with
  | none => s
  | some n => s.take n

/-- The field of a string: what its precision lets through, with '?' for what cannot be printed, and
spaces up to the width. -/
def stringField (left altflag : Bool) (w p : Option Nat) (s : List Byte) : List Word :=
  let text := (cut p s).map (shownChar altflag)
  let spaces := List.replicate (w.getD 0 - text.length) ((chr ' ').setWidth 32)
  if left then text ++ spaces else spaces ++ text

/-- The value of the int width when the string is put out. -/
def scannedWidth (w p : Option Nat) : Int :=
  match w, p with
  | some w, _ => w
  | none, some _ => 0
  | none, none => -1

/-- Counting off the characters, the width does not run around to a positive number. -/
def StaysBelow (left : Bool) (w p : Option Nat) (count : Nat) : Prop :=
  if left = true ∨ scannedWidth w p ≤ 0 then
    count ≤ scannedWidth w p + 2 ^ 31 ∨ count = scannedWidth w p + 2 ^ 32
  else
    count ≤ scannedWidth w p + 2 ^ 31 ∧
      (2 * count ≤ scannedWidth w p + 2 ^ 31 ∨ scannedWidth w p + 2 ^ 32 ≤ 2 * count)

instance (left : Bool) (w p : Option Nat) (count : Nat) : Decidable (StaysBelow left w p count) :=
  inferInstanceAs (Decidable (if left = true ∨ scannedWidth w p ≤ 0 then _ else _))

section fields

variable {m : Word → Option Byte} {p : CharPtr} {ap : VaList} {d : Directive} {s t flags : List Byte}
  {w a : Amount} {c : Byte} {e : Byte × CharPtr × VaList × Directive} {n i j : Nat}

theorem VaList.drop_drop : (ap.drop i).drop j = ap.drop (i + j) := by
  funext k
  simp only [VaList.drop]
  congr 1
  omega

theorem VaList.drop_apply : ap.drop i j = ap (j + i) := rfl

/-- The flags '-' and '#', in any number and order. -/
theorem scans_stringFlags (hflags : ∀ c ∈ flags, c = chr '-' ∨ c = chr '#') (hspan : p.Spans m flags)
    (hs : Scans m (p.skip flags.length) ap
      { d with
        padc := if chr '-' ∈ flags then chr '-' else d.padc
        altflag := d.altflag || decide (chr '#' ∈ flags) } e) :
    Scans m p ap d e := by
  induction flags generalizing p d with
  | nil =>
    simp only [List.not_mem_nil, if_false, decide_false, Bool.or_false] at hs
    exact hs
  | cons c flags ih =>
    obtain ⟨hat, -, hrest⟩ := hspan
    rw [List.length_cons, CharPtr.skip_succ] at hs
    have htail : ∀ c ∈ flags, c = chr '-' ∨ c = chr '#' := fun c hc => hflags c (List.mem_cons_of_mem _ hc)
    rcases hflags c (by simp) with rfl | rfl
    · refine scans_flag hat rfl (ih htail hrest ?_)
      have hne : ¬ chr '#' = chr '-' := by decide
      simp only [List.mem_cons, true_or, if_true, hne, false_or] at hs
      simp only [ite_self]
      exact hs
    · refine scans_flag hat rfl (ih htail hrest ?_)
      have hne : ¬ chr '-' = chr '#' := by decide
      simp only [List.mem_cons, true_or, decide_true, Bool.or_true, hne, false_or] at hs
      simp only [Bool.true_or]
      exact hs

/-- A width or precision of any kind. -/
theorem scans_amount (ha : a.Fits (ap 0)) (hspan : p.Spans m a.text)
    (hend : (p.skip a.text.length).At m c) (hc : ¬ IsDigit c)
    (hs : Scans m (p.skip a.text.length) (ap.drop a.words) (a.apply (ap 0) d) e) :
    Scans m p ap d e := by
  cases a with
  | absent => exact hs
  | star => exact scans_flag hspan.1 rfl hs
  | numeral n => exact scans_decimal ha.1 hspan hend hc hs

/-- The scanner's state behind the flags. -/
def flagState (flags : List Byte) : Directive :=
  { Directive.start with
    padc := if chr '-' ∈ flags then chr '-' else chr ' '
    altflag := decide (chr '#' ∈ flags) }

/-- The scanner's state behind a directive of %s. -/
def stringState (flags : List Byte) (w q : Amount) (ap : VaList) : Directive :=
  { flagState flags with
    width := if w = .absent ∧ q ≠ .absent then 0 else w.word (ap 0)
    precision := q.word (ap w.words) }

theorem Amount.Fits.nonneg {arg : Word} (ha : a.Fits arg) (hne : a ≠ .absent) : 0 ≤ (a.word arg).toInt := by
  cases a with
  | absent => exact absurd rfl hne
  | star => exact ha
  | numeral n =>
    have hn : n < 2 ^ 31 := ha.2
    rw [Amount.word, BitVec.toInt_eq_toNat_cond, BitVec.toNat_ofNat]
    split <;> omega

theorem Amount.apply_eq {arg : Word} (hne : a ≠ .absent) :
    a.apply arg d = d.processPrecision (a.word arg) := by
  cases a with
  | absent => exact absurd rfl hne
  | star => rfl
  | numeral n => rfl

/-- A width is the first number of a directive. -/
theorem apply_width {arg : Word} (hwidth : d.width = -1) (hprec : d.precision = -1) :
    w.apply arg d = { d with width := w.word arg } := by
  obtain ⟨padc, width, precision, lflag, altflag⟩ := d
  subst hwidth hprec
  cases w <;> rfl

/-- A precision is a number behind a '.', which keeps it from being taken for the width. -/
theorem apply_precision {arg : Word} (arg' : Word) (d : Directive) (hw : w.Fits arg)
    (hwidth : d.width = w.word arg) (hne : a ≠ .absent) :
    a.apply arg' (if d.width.toInt < 0 then { d with width := 0 } else d) =
      { d with width := if w = .absent then 0 else w.word arg, precision := a.word arg' } := by
  rw [Amount.apply_eq hne]
  by_cases habsent : w = .absent
  · subst habsent
    have hneg : d.width.toInt < 0 := by
      rw [hwidth, Amount.word]
      decide
    rw [if_pos hneg, if_pos rfl]
    rfl
  · have hpos := hw.nonneg habsent
    have hneg : ¬ d.width.toInt < 0 := by
      rw [hwidth]
      omega
    rw [if_neg hneg, if_neg habsent, Directive.processPrecision, if_neg hneg, ← hwidth]

theorem scans_string {q : Amount} {rest : List Byte} (hflags : ∀ c ∈ flags, c = chr '-' ∨ c = chr '#')
    (hw : w.Fits (ap 0)) (hq : q.Fits (ap w.words))
    (hspan : p.Spans m (stringDirective flags w q ++ rest)) :
    Scans m p.next ap .start (chr 's', p.skip (stringDirective flags w q).length,
      ap.drop (w.words + q.words), stringState flags w q ap) := by
  rw [stringDirective, List.cons_append, List.append_assoc, List.append_assoc, List.append_assoc,
    List.singleton_append] at hspan
  obtain ⟨-, -, hspan⟩ := hspan
  obtain ⟨hspanf, hspan⟩ := CharPtr.spans_append.mp hspan
  obtain ⟨hspanw, hspan⟩ := CharPtr.spans_append.mp hspan
  obtain ⟨hspanq, hat, -⟩ := CharPtr.spans_append.mp hspan
  rw [stringDirective, List.length_cons, List.length_append, List.length_append, List.length_append,
    List.length_singleton, CharPtr.skip_succ, CharPtr.skip_add, CharPtr.skip_add, CharPtr.skip_add,
    ← VaList.drop_drop]
  refine scans_stringFlags hflags hspanf ?_
  change Scans m _ ap (flagState flags) _
  have hwidth : w.apply (ap 0) (flagState flags) = { flagState flags with width := w.word (ap 0) } :=
    apply_width rfl rfl
  by_cases hne : q = .absent
  · subst hne
    have hstate : { flagState flags with width := w.word (ap 0) } = stringState flags w .absent ap := by
      simp only [stringState, ne_eq, not_true_eq_false, and_false, if_false]
      rfl
    refine scans_amount hw hspanw hat (by decide) ?_
    rw [hwidth, hstate]
    exact scans_end hat (by decide)
  · have htext : precisionText q = chr '.' :: q.text := by
      cases q with
      | absent => exact absurd rfl hne
      | star => rfl
      | numeral n => rfl
    rw [htext] at hspanq hat ⊢
    obtain ⟨hdot, -, hspanq⟩ := hspanq
    rw [List.length_cons, CharPtr.skip_succ] at hat ⊢
    have harg : ap.drop w.words 0 = ap w.words := by
      rw [VaList.drop_apply, Nat.zero_add]
    rw [← harg] at hq
    refine scans_amount hw hspanw hdot (by decide) (scans_flag hdot rfl ?_)
    refine scans_amount hq hspanq hat (by decide) ?_
    have hstate : q.apply (ap w.words) (if (w.word (ap 0)).toInt < 0 then { flagState flags with width := 0 }
        else { flagState flags with width := w.word (ap 0) }) = stringState flags w q ap := by
      have hprec := apply_precision (ap w.words) { flagState flags with width := w.word (ap 0) } hw rfl hne
      rw [stringState]
      simp only [ne_eq, hne, not_false_eq_true, and_true]
      exact hprec
    rw [hwidth, harg, hstate]
    exact scans_end hat (by decide)

/-- Where the argument of %s points to its string. -/
theorem holds_argString {arg : Word} (h : ArgString m arg s) :
    (if arg = 0 then CharPtr.text nullText 0 else CharPtr.mem arg).Holds m s := by
  unfold ArgString at h
  split at h
  · next h0 =>
    rw [if_pos h0, h]
    exact CharPtr.holds_text (by decide)
  · next h0 =>
    rw [if_neg h0]
    exact h

theorem length_argString {arg : Word} (h : ArgString m arg s) : s.length < 2 ^ 32 := by
  unfold ArgString at h
  split at h
  · rw [h]
    decide
  · exact CharPtr.length_lt h

/-- What the code puts out for a string of which it counts `n` characters. -/
def codeString (d : Directive) (n : Nat) (text : List Word) : List Word :=
  List.replicate (leadPads d n) (d.padc.signExtend 32) ++
    (text ++ List.replicate (widthLeft d n - BitVec.ofNat 32 n).toInt.toNat ((chr ' ').setWidth 32))

/-- A precision, in the word that the scanner has of it. -/
theorem shownCount_word {arg : Word} (ha : a.Fits arg) (hlen : s.length < 2 ^ 32) :
    s.take (shownCount (a.word arg) s.length) = cut (a.value arg) s ∧
      shownCount (a.word arg) s.length = (cut (a.value arg) s).length ∧
      min (a.word arg).toNat s.length = (cut (a.value arg) s).length := by
  by_cases hne : a = .absent
  · subst hne
    have hcount : shownCount (-1) s.length = s.length := if_pos (by decide)
    have hall : (-1 : Word).toNat = 4294967295 := rfl
    simp only [Amount.word, Amount.value, cut, hcount, hall]
    refine ⟨List.take_length, trivial, ?_⟩
    omega
  · have hpos := ha.nonneg hne
    have hval : a.value arg = some (a.word arg).toNat := by
      cases a with
      | absent => exact absurd rfl hne
      | star => rfl
      | numeral n =>
        have hn : n < 2 ^ 31 := ha.2
        rw [Amount.value, Amount.word, BitVec.toNat_ofNat, Nat.mod_eq_of_lt (by omega)]
    have hcount : shownCount (a.word arg) s.length = min (a.word arg).toNat s.length :=
      if_neg (by omega)
    rw [hval, cut, hcount, List.length_take]
    refine ⟨?_, rfl, rfl⟩
    rw [List.take_eq_take_iff]
    omega

theorem converts_of_putString {q : CharPtr} {out : List Word} (h : Settles fun fuel =>
    Emits ((screen m).putString fuel d (if ap 0 = 0 then .text nullText 0 else .mem (ap 0))) () out) :
    Converts m (chr 's') q ap d q (ap.drop 1) out := by
  refine h.mono fun fuel hfuel => ?_
  simp only [Printer.convert]
  rw [if_neg (by decide), if_neg (by decide), if_pos trivial]
  exact hfuel.finish (emits_pure _)

theorem converts_string {q : CharPtr} (hs : ArgString m (ap 0) s) {arg : Word} (ha : a.Fits arg)
    (hprec : d.precision = a.word arg) :
    Converts m (chr 's') q ap d q (ap.drop 1) (codeString d (cut (a.value arg) s).length
      ((cut (a.value arg) s).map (shownChar d.altflag))) := by
  obtain ⟨htake, hcount, hmin⟩ := shownCount_word ha (length_argString hs)
  have hput := emits_putString (d := d) (holds_argString hs)
  rw [shown, hprec, htake, hcount, hmin] at hput
  exact converts_of_putString hput

theorem toInt_sub_ofNat (x : Word) (hn : n < 2 ^ 32) : (x - BitVec.ofNat 32 n).toInt =
    if -2 ^ 31 ≤ x.toInt - n then x.toInt - n else x.toInt - n + 2 ^ 32 := by
  have hx := x.isLt
  rw [BitVec.toInt_eq_toNat_cond, BitVec.toInt_eq_toNat_cond, BitVec.toNat_sub, BitVec.toNat_ofNat]
  split <;> split <;> split <;> omega

/-- The width as the scanner has it, as a number. -/
theorem toInt_width {q : Amount} (hw : w.Fits (ap 0)) : (stringState flags w q ap).width.toInt =
    scannedWidth (w.value (ap 0)) (q.value (ap w.words)) := by
  rw [stringState]
  dsimp only
  cases w with
  | absent =>
    cases q with
    | absent => rfl
    | star => rfl
    | numeral n => rfl
  | star =>
    have hpos : 0 ≤ (ap 0).toInt := hw
    rw [if_neg fun h => by cases h.1]
    change (ap 0).toInt = ((ap 0).toNat : Int)
    rw [BitVec.toInt_eq_toNat_cond] at hpos ⊢
    split at hpos
    · next hlt => rw [if_pos hlt]
    · omega
  | numeral n =>
    have hn : n < 2 ^ 31 := hw.2
    rw [if_neg fun h => by cases h.1]
    change (BitVec.ofNat 32 n).toInt = (n : Int)
    rw [BitVec.toInt_eq_toNat_cond, BitVec.toNat_ofNat]
    split <;> omega

theorem scannedWidth_ge (w p : Option Nat) : -1 ≤ scannedWidth w p := by
  cases w with
  | none =>
    cases p with
    | none => decide
    | some p => exact show (-1 : Int) ≤ 0 by decide
  | some w =>
    change -1 ≤ (w : Int)
    omega

theorem toNat_scannedWidth (w p : Option Nat) : (scannedWidth w p).toNat = w.getD 0 := by
  cases w with
  | none => cases p <;> rfl
  | some w => rfl

/-- The pads around a string are those of the field as long as the width stays below zero, and more
as soon as it does not. -/
theorem pads_spec {left : Bool} {w p : Option Nat} (hwidth : d.width.toInt = scannedWidth w p)
    (hleft : d.padc = chr '-' ↔ left = true) (hn : n < 2 ^ 32) :
    (StaysBelow left w p n → leadPads d n = (if left then 0 else w.getD 0 - n) ∧
      (widthLeft d n - BitVec.ofNat 32 n).toInt.toNat = if left then w.getD 0 - n else 0) ∧
    (¬ StaysBelow left w p n →
      leadPads d n + (widthLeft d n - BitVec.ofNat 32 n).toInt.toNat ≠ w.getD 0 - n) := by
  have hge := scannedWidth_ge w p
  have hlt : scannedWidth w p < 2 ^ 31 := by
    rw [← hwidth]
    have := BitVec.two_mul_toInt_lt (x := d.width)
    omega
  rw [← toNat_scannedWidth w p]
  have hrest := toInt_sub_ofNat (widthLeft d n) hn
  have hfirst := toInt_sub_ofNat d.width hn
  unfold StaysBelow
  generalize scannedWidth w p = v at hwidth hge hlt ⊢
  rw [hwidth] at hfirst
  by_cases hcond : left = true ∨ v ≤ 0
  · have hno : ¬ (0 < d.width.toInt ∧ d.padc ≠ chr '-') := by
      rw [hwidth]
      rintro ⟨hpos, hpad⟩
      rcases hcond with hl | hv
      · exact hpad (hleft.mpr hl)
      · omega
    rw [widthLeft, if_neg hno, hwidth] at hrest
    rw [if_pos hcond, leadPads, if_neg hno, widthLeft, if_neg hno, hrest]
    by_cases hlow : -2 ^ 31 ≤ v - (n : Int)
    · rw [if_pos hlow]
      cases left with
      | true =>
        simp only [if_true, true_and]
        omega
      | false =>
        have hv : v ≤ 0 := hcond.resolve_left (by decide)
        simp only [Bool.false_eq_true, if_false]
        omega
    · rw [if_neg hlow]
      cases left with
      | true =>
        simp only [if_true, true_and]
        omega
      | false =>
        have hv : v ≤ 0 := hcond.resolve_left (by decide)
        simp only [Bool.false_eq_true, if_false]
        omega
  · have hl : left = false := by
      cases left with
      | true => exact absurd (Or.inl rfl) hcond
      | false => rfl
    have hv : ¬ v ≤ 0 := fun h => hcond (Or.inr h)
    have hyes : 0 < d.width.toInt ∧ d.padc ≠ chr '-' := by
      rw [hwidth]
      refine ⟨by omega, fun hpad => ?_⟩
      rw [hl] at hleft
      exact absurd (hleft.mp hpad) (by decide)
    subst hl
    rw [widthLeft, if_pos hyes] at hrest
    rw [if_neg hcond, leadPads, if_pos hyes, widthLeft, if_pos hyes, hrest]
    simp only [Bool.false_eq_true, if_false]
    by_cases hlow : -2 ^ 31 ≤ v - (n : Int)
    · rw [if_pos hlow] at hfirst
      by_cases hpads : 0 < v - (n : Int)
      · rw [hfirst, if_pos hpads]
        have hz : (0 : Word).toInt = 0 := rfl
        rw [hz]
        by_cases hrest' : (-2 ^ 31 : Int) ≤ 0 - n
        · rw [if_pos hrest']
          omega
        · omega
      · rw [hfirst, if_neg hpads, hfirst]
        by_cases hrest' : (-2 ^ 31 : Int) ≤ v - n - n
        · rw [if_pos hrest']
          omega
        · rw [if_neg hrest']
          omega
    · rw [if_neg hlow] at hfirst
      have hpads : 0 < v - (n : Int) + 2 ^ 32 := by omega
      rw [hfirst, if_pos hpads]
      refine ⟨fun h => ?_, fun _ => ?_⟩
      · omega
      · omega

theorem prints_codeString {q : Amount} (hflags : ∀ c ∈ flags, c = chr '-' ∨ c = chr '#')
    (hw : w.Fits (ap 0)) (hq : q.Fits (ap w.words)) (hs : ArgString m (ap (w.words + q.words)) s) :
    Prints m (stringDirective flags w q) ap (w.words + q.words + 1)
      (codeString (stringState flags w q ap) (cut (q.value (ap w.words)) s).length
        ((cut (q.value (ap w.words)) s).map (shownChar (decide (chr '#' ∈ flags))))) := by
  intro rest p out hp hout
  have hspan := (CharPtr.holds_append.mp hp).1
  have hspan' : p.Spans m (stringDirective flags w q ++ []) := by
    rwa [List.append_nil]
  have harg : ArgString m ((ap.drop (w.words + q.words)) 0) s := by
    rwa [VaList.drop_apply, Nat.zero_add]
  rw [← VaList.drop_drop] at hout
  exact formats_escape hspan.1 (scans_string hflags hw hq hspan') (converts_string harg hq rfl) hout

theorem stringDirective_ne_zero {q : Amount} (hflags : ∀ c ∈ flags, c = chr '-' ∨ c = chr '#')
    (hc : c ∈ stringDirective flags w q) : c ≠ 0 := by
  have hamount : ∀ {a : Amount}, c ∈ a.text → c ≠ 0 := by
    intro a ha
    cases a with
    | absent => cases ha
    | star =>
      rw [List.mem_singleton.mp ha]
      decide
    | numeral n => exact decimal_ne_zero ha
  have hprec : c ∈ precisionText q → c ≠ 0 := by
    intro hq
    cases q with
    | absent => cases hq
    | star =>
      rcases List.mem_cons.mp hq with rfl | hq
      · decide
      · exact hamount hq
    | numeral n =>
      rcases List.mem_cons.mp hq with rfl | hq
      · decide
      · exact hamount hq
  simp only [stringDirective, List.mem_cons, List.mem_append, List.not_mem_nil, or_false] at hc
  rcases hc with rfl | hf | hw | hq | rfl
  · decide
  · rcases hflags c hf with rfl | rfl <;> decide
  · exact hamount hw
  · exact hprec hq
  · decide

/-- The spaces stand where they should, and are as many, exactly when the width stays below. -/
theorem codeString_eq_iff {left altflag : Bool} {w p : Option Nat}
    (hwidth : d.width.toInt = scannedWidth w p) (hleft : d.padc = chr '-' ↔ left = true)
    (hpadc : d.padc = chr '-' ∨ d.padc = chr ' ') (hlen : s.length < 2 ^ 32) :
    codeString d (cut p s).length ((cut p s).map (shownChar altflag)) = stringField left altflag w p s ↔
      StaysBelow left w p (cut p s).length := by
  have hcut : (cut p s).length ≤ s.length := by
    cases p with
    | none => exact Nat.le_refl _
    | some n =>
      rw [cut, List.length_take]
      exact Nat.min_le_right _ _
  have hn : (cut p s).length < 2 ^ 32 := Nat.lt_of_le_of_lt hcut hlen
  obtain ⟨hright, hwrong⟩ := pads_spec (d := d) hwidth hleft hn
  have hlead : List.replicate (leadPads d (cut p s).length) (d.padc.signExtend 32) =
      List.replicate (leadPads d (cut p s).length) ((chr ' ').setWidth 32) := by
    rcases hpadc with hp | hp
    · have hzero : leadPads d (cut p s).length = 0 := if_neg fun h => h.2 hp
      rw [hzero]
      rfl
    · rw [hp]
      rfl
  rw [codeString, stringField, hlead, List.length_map]
  constructor
  · intro he
    by_contra hnot
    apply hwrong hnot
    have hlens := congrArg List.length he
    cases left with
    | true =>
      simp only [if_true, List.length_append, List.length_replicate, List.length_map] at hlens
      omega
    | false =>
      simp only [Bool.false_eq_true, if_false, List.length_append, List.length_replicate,
        List.length_map] at hlens
      omega
  · intro h
    obtain ⟨hl, ht⟩ := hright h
    rw [hl, ht]
    cases left with
    | true => simp
    | false => simp

theorem prints_stringField_iff {q : Amount} (hflags : ∀ c ∈ flags, c = chr '-' ∨ c = chr '#')
    (hw : w.Fits (ap 0)) (hq : q.Fits (ap w.words)) (hs : ArgString m (ap (w.words + q.words)) s) :
    Prints m (stringDirective flags w q) ap (w.words + q.words + 1)
        (stringField (decide (chr '-' ∈ flags)) (decide (chr '#' ∈ flags)) (w.value (ap 0))
          (q.value (ap w.words)) s) ↔
      StaysBelow (decide (chr '-' ∈ flags)) (w.value (ap 0)) (q.value (ap w.words))
        (cut (q.value (ap w.words)) s).length := by
  have hcode := prints_codeString hflags hw hq hs
  have hpadc : (stringState flags w q ap).padc = if chr '-' ∈ flags then chr '-' else chr ' ' := rfl
  have hleft : (stringState flags w q ap).padc = chr '-' ↔ decide (chr '-' ∈ flags) = true := by
    rw [hpadc, decide_eq_true_iff]
    split
    · next h => exact iff_of_true rfl h
    · next h => exact iff_of_false (by decide) h
  have hspace : (stringState flags w q ap).padc = chr '-' ∨ (stringState flags w q ap).padc = chr ' ' := by
    rw [hpadc]
    split
    · exact Or.inl rfl
    · exact Or.inr rfl
  rw [← codeString_eq_iff (toInt_width hw) hleft hspace (length_argString hs)]
  constructor
  · intro h
    exact hcode.unique (fun c hc => stringDirective_ne_zero hflags hc) h
  · intro h
    rw [← h]
    exact hcode

end fields

/-- A string field is exact unless so many characters are shown that the int width, counted down past
zero, runs around. -/
theorem stringField_iff (m : Word → Option Byte) (ap : VaList) (flags : List Byte) (w q : Amount)
    (s : List Byte) (hflags : ∀ c ∈ flags, c = chr '-' ∨ c = chr '#') (hw : w.Fits (ap 0))
    (hq : q.Fits (ap w.words)) (hs : ArgString m (ap (w.words + q.words)) s) :
    Prints m (stringDirective flags w q) ap (w.words + q.words + 1)
        (stringField (decide (chr '-' ∈ flags)) (decide (chr '#' ∈ flags)) (w.value (ap 0))
          (q.value (ap w.words)) s) ↔
      StaysBelow (decide (chr '-' ∈ flags)) (w.value (ap 0)) (q.value (ap w.words))
        (cut (q.value (ap w.words)) s).length :=
  prints_stringField_iff hflags hw hq hs

/-- "%-5.2s" of a NULL pointer. -/
theorem stringField_null : Prints (fun _ => none) (stringDirective [chr '-'] (.numeral 5) (.numeral 2))
    (fun _ => 0) 1 (chars [chr '(', chr 'n', chr ' ', chr ' ', chr ' ']) :=
  (stringField_iff (fun _ => none) (fun _ => 0) [chr '-'] (.numeral 5) (.numeral 2) nullText (by decide)
    ⟨by decide, by decide⟩ ⟨by decide, by decide⟩ rfl).mpr (by decide)

/-- A memory that holds `n` characters 'a' from address 1 on. -/
def manyChars (n : Nat) : Word → Option Byte := fun a => if a.toNat ≤ n then some (chr 'a') else some 0

theorem holds_manyChars (hn : n + 1 < 2 ^ 32) :
    (CharPtr.mem 1).Holds (manyChars n) (List.replicate n (chr 'a')) := by
  have hnat : ∀ j ≤ n, ((1 : Word) + BitVec.ofNat 32 j).toNat = j + 1 := fun j hj => by
    rw [BitVec.toNat_add, BitVec.toNat_ofNat, show (1 : Word).toNat = 1 from rfl]
    omega
  rw [CharPtr.holds_mem_iff]
  constructor
  · intro j hj
    rw [List.length_replicate] at hj
    rw [List.getElem_replicate, manyChars, hnat j (by omega), if_pos (by omega)]
    exact ⟨rfl, by decide⟩
  · rw [List.length_replicate, manyChars, hnat n (Nat.le_refl n), if_neg (by omega)]

/-- "%1s" of a string of 2^30 + 1 characters: its 2^30 + 1 are taken off the width twice. -/
theorem not_stringField : ¬ ∀ (m : Word → Option Byte) (ap : VaList) (flags : List Byte) (w q : Amount)
    (s : List Byte), (∀ c ∈ flags, c = chr '-' ∨ c = chr '#') → w.Fits (ap 0) → q.Fits (ap w.words) →
    ArgString m (ap (w.words + q.words)) s →
    Prints m (stringDirective flags w q) ap (w.words + q.words + 1)
      (stringField (decide (chr '-' ∈ flags)) (decide (chr '#' ∈ flags)) (w.value (ap 0))
        (q.value (ap w.words)) s) := by
  intro hall
  have hflags : ∀ c ∈ ([] : List Byte), c = chr '-' ∨ c = chr '#' := by simp
  have hw : (Amount.numeral 1).Fits 1 := ⟨by decide, by decide⟩
  have hq : Amount.absent.Fits 1 := trivial
  have hs : ArgString (manyChars (2 ^ 30 + 1)) 1 (List.replicate (2 ^ 30 + 1) (chr 'a')) := by
    rw [ArgString, if_neg (by decide)]
    exact holds_manyChars (by decide)
  have h := hall (manyChars (2 ^ 30 + 1)) (fun _ => 1) [] (.numeral 1) .absent _ hflags hw hq hs
  rw [prints_stringField_iff hflags hw hq hs] at h
  simp only [Amount.value, cut, List.length_replicate] at h
  revert h
  decide

end Jos
