import Jos.Library.Output
import Jos.Library.Numeral
import Jos.Lib.Printfmt
import Mathlib.Tactic.IntervalCases

/-! What vprintfmt puts out, rule by rule: the text of the format, the flags, the numbers. -/
namespace Jos

open Prog Numeral

/-- Why a run of vprintfmt does not return. -/
inductive Halt where
  | spin
  | stray
deriving DecidableEq

/-- A callback that keeps what it is given, over a memory of which only a part may be read. -/
def screen (mem : Word → Option Byte) : Printer Halt (List Word) where
  load a :=
    match mem a with
    | none => stop .stray
    | some b => pure b
  putch := emit
  spin := .spin
  stray := .stray

/-- A load that returns is one of the memory that may be read. -/
theorem screen_load_eq_ok {mem : Word → Option Byte} {a : Word} {c : Byte} {l l' : List Word}
    (h : (screen mem).load a l = .ok c l') : mem a = some c ∧ l' = l := by
  unfold screen at h
  dsimp only at h
  cases ha : mem a with
  | none =>
    rw [ha] at h
    exact absurd h stop_ne_ok
  | some d =>
    rw [ha] at h
    obtain ⟨rfl, rfl⟩ := pure_eq_ok.mp h
    exact ⟨rfl, rfl⟩

theorem screen_load_ok {mem : Word → Option Byte} {a : Word} {c : Byte} (h : mem a = some c)
    (l : List Word) : (screen mem).load a l = .ok c l := by
  unfold screen
  dsimp only
  rw [h]
  rfl

/-- Every list is a longest run and what comes behind it. -/
theorem exists_run {α : Type} (P : α → Prop) (t : List α) :
    ∃ w u, t = w ++ u ∧ (∀ c ∈ w, P c) ∧ ∀ c ∈ u.head?, ¬ P c := by
  induction t with
  | nil => exact ⟨[], [], rfl, by simp, by simp⟩
  | cons c t ih =>
    by_cases hc : P c
    · obtain ⟨w, u, rfl, hw, hu⟩ := ih
      refine ⟨c :: w, u, rfl, fun d hd => ?_, hu⟩
      rcases List.mem_cons.mp hd with rfl | hd
      · exact hc
      · exact hw d hd
    · refine ⟨[], c :: t, rfl, by simp, fun d hd => ?_⟩
      rw [List.head?_cons, Option.mem_some_iff] at hd
      exact hd ▸ hc

namespace CharPtr

/-- Reading the pointer gives `c`. -/
def At (m : Word → Option Byte) : CharPtr → Byte → Prop
  | mem a, c => m a = some c
  | text s i, c => 0 ≤ i ∧ i ≤ s.length ∧ (s ++ [0#8]).getD i.toNat 0#8 = c

/-- The characters of `s` stand at the pointer. -/
def Spans (m : Word → Option Byte) : CharPtr → List Byte → Prop
  | _, [] => True
  | p, c :: s => p.At m c ∧ c ≠ 0 ∧ Spans m p.next s

def skip (p : CharPtr) (n : Nat) : CharPtr := next^[n] p

/-- The string at the pointer is `s`. -/
def Holds (m : Word → Option Byte) (p : CharPtr) (s : List Byte) : Prop :=
  p.Spans m s ∧ (p.skip s.length).At m 0

variable {m : Word → Option Byte} {p : CharPtr} {c : Byte} {s t : List Byte} {n k : Nat}

@[simp] theorem skip_zero : p.skip 0 = p := rfl

theorem skip_succ : p.skip (n + 1) = p.next.skip n := rfl

theorem skip_add : p.skip (n + k) = (p.skip n).skip k := by
  rw [skip, skip, skip, Nat.add_comm n k, Function.iterate_add_apply]

@[simp] theorem prev_next : p.next.prev = p := by
  cases p with
  | mem a => exact congrArg mem (BitVec.add_sub_cancel a 1)
  | text s i => simp [next, prev]

theorem spans_append : p.Spans m (s ++ t) ↔ p.Spans m s ∧ (p.skip s.length).Spans m t := by
  induction s generalizing p with
  | nil => simp [Spans]
  | cons c s ih =>
    rw [List.cons_append, Spans, Spans, ih, List.length_cons, skip_succ, and_assoc, and_assoc]

theorem holds_cons : p.Holds m (c :: s) ↔ p.At m c ∧ c ≠ 0 ∧ p.next.Holds m s := by
  rw [Holds, Holds, Spans, List.length_cons, skip_succ, and_assoc, and_assoc]

theorem holds_append : p.Holds m (s ++ t) ↔ p.Spans m s ∧ (p.skip s.length).Holds m t := by
  rw [Holds, Holds, spans_append, List.length_append, skip_add, and_assoc]

theorem holds_nil : p.Holds m [] ↔ p.At m 0 := by
  simp [Holds, Spans]

/-- What stands first in a string, its NUL included. -/
theorem Holds.head (h : p.Holds m s) : p.At m (s.headD 0) := by
  cases s with
  | nil => exact holds_nil.mp h
  | cons c s => exact (holds_cons.mp h).1

theorem skip_text (i : Int) : (text s i).skip n = text s (i + n) := by
  induction n generalizing i with
  | zero => simp
  | succ n ih =>
    rw [skip_succ, next, ih, Int.add_assoc, Int.add_comm 1]
    rfl

theorem add_ofNat_succ (a : Word) (i : Nat) :
    a + BitVec.ofNat 32 i + 1 = a + BitVec.ofNat 32 (i + 1) := by
  rw [BitVec.add_assoc, BitVec.ofNat_add]
  rfl

theorem succ_add_ofNat (a : Word) (i : Nat) :
    a + 1 + BitVec.ofNat 32 i = a + BitVec.ofNat 32 (i + 1) := by
  rw [← add_ofNat_succ]
  grind

/-- A string in memory, character by character. -/
theorem holds_mem_iff {a : Word} : (mem a).Holds m s ↔
    (∀ j (hj : j < s.length), m (a + BitVec.ofNat 32 j) = some s[j] ∧ s[j] ≠ 0) ∧
      m (a + BitVec.ofNat 32 s.length) = some 0 := by
  induction s generalizing a with
  | nil =>
    rw [holds_nil]
    simp [At]
  | cons c s ih =>
    rw [holds_cons, next, ih, At, succ_add_ofNat]
    constructor
    · rintro ⟨hc, hne, hrest, hend⟩
      refine ⟨fun j hj => ?_, hend⟩
      cases j with
      | zero => exact ⟨by rw [BitVec.add_zero]; exact hc, hne⟩
      | succ j =>
        have h := hrest j (by simpa using hj)
        rw [succ_add_ofNat] at h
        exact h
    · rintro ⟨hall, hend⟩
      have hzero := hall 0 (by simp)
      rw [BitVec.add_zero] at hzero
      refine ⟨hzero.1, hzero.2, fun j hj => ?_, hend⟩
      rw [succ_add_ofNat]
      exact hall (j + 1) (by simpa using hj)

/-- A string in memory does not go around it. -/
theorem length_lt {a : Word} (h : (mem a).Holds m s) : s.length < 2 ^ 32 := by
  obtain ⟨hall, hend⟩ := holds_mem_iff.mp h
  by_contra hlt
  have hmod : BitVec.ofNat 32 s.length = BitVec.ofNat 32 (s.length % 2 ^ 32) := by
    apply BitVec.eq_of_toNat_eq
    rw [BitVec.toNat_ofNat, BitVec.toNat_ofNat, Nat.mod_mod]
  have hc := hall (s.length % 2 ^ 32) (by omega)
  rw [← hmod, hend] at hc
  exact hc.2 (Option.some.inj hc.1).symm

theorem spans_text (h : ∀ c ∈ t, c ≠ 0) : (text (s ++ t) s.length).Spans m t := by
  induction t generalizing s with
  | nil => trivial
  | cons c t ih =>
    have hrest := ih (s := s ++ [c]) fun c' hc => h c' (List.mem_cons_of_mem _ hc)
    rw [List.append_assoc, List.singleton_append, List.length_append, List.length_singleton] at hrest
    refine ⟨⟨by omega, ?_, ?_⟩, h c (by simp), hrest⟩
    · rw [List.length_append]
      omega
    · simp

/-- A string constant is the string it says, as long as no NUL is written in it. -/
theorem holds_text (h : ∀ c ∈ s, c ≠ 0) : (text s 0).Holds m s := by
  refine ⟨spans_text (s := []) h, ?_⟩
  rw [skip_text]
  refine ⟨by omega, by omega, ?_⟩
  simp

end CharPtr

section rules

variable {m : Word → Option Byte} {p q r : CharPtr} {c ch : Byte} {ap ap' ap'' : VaList}
  {d d' : Directive} {out out' : List Word} {s : List Byte} {n v : Nat}
  {e : Byte × CharPtr × VaList × Directive}

theorem emits_read (h : p.At m c) : Emits ((screen m).read p) c [] := by
  cases p with
  | mem a =>
    have hm : m a = some c := h
    have hload : (screen m).read (.mem a) = pure c := by
      simp only [Printer.read, screen, hm]
    rw [hload]
    exact emits_pure c
  | text s i =>
    obtain ⟨h0, hl, rfl⟩ := h
    rw [Printer.read, if_pos ⟨h0, hl⟩]
    exact emits_pure _

theorem emits_putch (w : Word) : Emits ((screen m).putch w) () [w] := emits_emit w

theorem emits_putTimes (w : Word) (n : Nat) :
    Emits ((screen m).putTimes w n) () (List.replicate n w) := by
  induction n with
  | zero => exact emits_pure ()
  | succ n ih => exact (emits_putch w).bind ih

/-- vprintfmt, given the format at `p`, puts out `out`. -/
def Formats (m : Word → Option Byte) (p : CharPtr) (ap : VaList) (out : List Word) : Prop :=
  Settles fun fuel => Emits ((screen m).vprintfmt fuel p ap) () out

/-- The flags at `p` lead the scanner to `e`. -/
def Scans (m : Word → Option Byte) (p : CharPtr) (ap : VaList) (d : Directive)
    (e : Byte × CharPtr × VaList × Directive) : Prop :=
  Settles fun fuel => Emits ((screen m).reswitch fuel p ap d) e []

/-- The conversion `ch` puts out `out` and goes on at `r` with the arguments `ap'`. -/
def Converts (m : Word → Option Byte) (ch : Byte) (q : CharPtr) (ap : VaList) (d : Directive)
    (r : CharPtr) (ap' : VaList) (out : List Word) : Prop :=
  Settles fun fuel =>
    Emits ((screen m).convert fuel ((screen m).vprintfmt fuel) ch q ap d) (r, ap') out

theorem Formats.unique (h : Formats m p ap out) (h' : Formats m p ap out') : out = out' := by
  obtain ⟨fuel, hf, hf'⟩ := h.exists_both h'
  exact (hf.det hf').2

theorem formats_end (h : p.At m 0) : Formats m p ap [] := by
  refine ⟨1, fun fuel hfuel => ?_⟩
  obtain ⟨k, rfl⟩ : ∃ k, fuel = k + 1 := ⟨fuel - 1, by omega⟩
  rw [Printer.vprintfmt]
  refine (emits_read h).step ?_
  rw [if_neg (by decide), if_pos rfl]
  exact emits_pure ()

/-- An ordinary character. -/
theorem formats_char (h : p.At m c) (h0 : c ≠ 0) (hc : c ≠ chr '%') (hrest : Formats m p.next ap out) :
    Formats m p ap (c.setWidth 32 :: out) := by
  refine hrest.succ fun fuel hf => ?_
  rw [Printer.vprintfmt]
  refine (emits_read h).step ?_
  rw [if_neg hc, if_neg h0]
  exact (emits_putch _).bind hf

/-- A %-escape sequence: its flags, its conversion, and what comes behind. -/
theorem formats_escape (h : p.At m (chr '%')) (hscan : Scans m p.next ap .start (ch, q, ap', d))
    (hconv : Converts m ch q ap' d r ap'' out) (hrest : Formats m r ap'' out') :
    Formats m p ap (out ++ out') := by
  refine (hscan.and (hconv.and hrest)).succ fun fuel ⟨hs, hc, hr⟩ => ?_
  rw [Printer.vprintfmt]
  refine (emits_read h).step ?_
  rw [if_pos rfl]
  refine hs.step ?_
  exact hc.bind hr

/-! The flags. -/

def IsDigit (c : Byte) : Prop := chr '0' ≤ c ∧ c ≤ chr '9'

instance (c : Byte) : Decidable (IsDigit c) := inferInstanceAs (Decidable (_ ∧ _))

/-- The effect of a flag of one character. -/
def flagStep (c : Byte) (ap : VaList) (d : Directive) : Option (VaList × Directive) :=
  if c = chr '-' then
    some (ap, { d with padc := chr '-' })
  else if c = chr '0' then
    some (ap, { d with padc := chr '0' })
  else if c = chr '*' then
    some (ap.drop 1, d.processPrecision (ap 0))
  else if c = chr '.' then
    some (ap, if d.width.toInt < 0 then { d with width := 0 } else d)
  else if c = chr '#' then
    some (ap, { d with altflag := true })
  else if c = chr 'l' then
    some (ap, { d with lflag := d.lflag + 1 })
  else
    none

theorem scans_flag (h : p.At m c) (hf : flagStep c ap d = some (ap', d'))
    (hs : Scans m p.next ap' d' e) : Scans m p ap d e := by
  refine hs.succ fun fuel hr => ?_
  rw [Printer.reswitch]
  refine (emits_read h).step ?_
  unfold flagStep at hf
  split at hf
  · cases hf
    rwa [if_pos (by assumption)]
  next hminus =>
  rw [if_neg hminus]
  split at hf
  · cases hf
    rwa [if_pos (by assumption)]
  next hzero =>
  rw [if_neg hzero]
  have hnum : ¬ (chr '1' ≤ c ∧ c ≤ chr '9') := by
    rintro ⟨hlo, hhi⟩
    split at hf
    · next hc => exact absurd (hc ▸ hlo) (by decide)
    split at hf
    · next hc => exact absurd (hc ▸ hlo) (by decide)
    split at hf
    · next hc => exact absurd (hc ▸ hlo) (by decide)
    split at hf
    · next hc => exact absurd (hc ▸ hhi) (by decide)
    · cases hf
  rw [if_neg hnum]
  split at hf
  · cases hf
    rwa [if_pos (by assumption)]
  next hstar =>
  rw [if_neg hstar]
  split at hf
  · cases hf
    rwa [if_pos (by assumption)]
  next hdot =>
  rw [if_neg hdot]
  split at hf
  · cases hf
    rwa [if_pos (by assumption)]
  next halt =>
  rw [if_neg halt]
  split at hf
  · cases hf
    rwa [if_pos (by assumption)]
  · cases hf

/-- The flags of one character. -/
def flagChars : List Byte := [chr '-', chr '0', chr '*', chr '.', chr '#', chr 'l']

/-- The character ends the flags. -/
def EndsFlags (c : Byte) : Prop := c ∉ flagChars ∧ ¬ IsDigit c

instance (c : Byte) : Decidable (EndsFlags c) := inferInstanceAs (Decidable (_ ∧ _))

theorem flagStep_isSome (h : c ∈ flagChars) : ∃ ap' d', flagStep c ap d = some (ap', d') := by
  simp only [flagChars, List.mem_cons, List.not_mem_nil, or_false] at h
  rcases h with rfl | rfl | rfl | rfl | rfl | rfl <;> exact ⟨_, _, rfl⟩

/-- The first character that is no flag. -/
theorem scans_end (h : p.At m c) (hc : EndsFlags c) : Scans m p ap d (c, p.next, ap, d) := by
  refine ⟨1, fun fuel hfuel => ?_⟩
  obtain ⟨k, rfl⟩ : ∃ k, fuel = k + 1 := ⟨fuel - 1, by omega⟩
  rw [Printer.reswitch]
  refine (emits_read h).step ?_
  obtain ⟨hflag, hdigit⟩ := hc
  simp only [flagChars, List.mem_cons, List.not_mem_nil, or_false, not_or] at hflag
  obtain ⟨h1, h2, h3, h4, h5, h6⟩ := hflag
  have hnum : ¬ (chr '1' ≤ c ∧ c ≤ chr '9') := fun hc =>
    hdigit ⟨BitVec.le_trans (by decide) hc.1, hc.2⟩
  rw [if_neg h1, if_neg h2, if_neg hnum, if_neg h3, if_neg h4, if_neg h5, if_neg h6]
  exact emits_pure _

/-- The character of a decimal digit. -/
def digitByte (i : Nat) : Byte := BitVec.ofNat 8 (48 + i)

theorem toNat_digitByte {i : Nat} (hi : i < 10) : (digitByte i).toNat = 48 + i := by
  rw [digitByte, BitVec.toNat_ofNat]
  omega

theorem isDigit_digitByte {i : Nat} (hi : i < 10) : IsDigit (digitByte i) := by
  have h := toNat_digitByte hi
  constructor <;> rw [BitVec.le_def]
  · change 48 ≤ _
    omega
  · change _ ≤ 57
    omega

/-- As a signed character, as an unsigned one. -/
theorem isDigit_iff_toInt : IsDigit c ↔ ¬ (c.toInt < 48 ∨ 57 < c.toInt) := by
  have hc := c.isLt
  rw [IsDigit, BitVec.le_def, BitVec.le_def, BitVec.toInt_eq_toNat_cond]
  change 48 ≤ c.toNat ∧ c.toNat ≤ 57 ↔ _
  split <;> omega

theorem add_digitByte {i : Nat} (hi : i < 10) (v : Nat) :
    BitVec.ofNat 32 v * 10 + (digitByte i).signExtend 32 - 48 = BitVec.ofNat 32 (v * 10 + i) := by
  have hdigit : (digitByte i).signExtend 32 = BitVec.ofNat 32 (48 + i) := by
    interval_cases i <;> decide
  rw [hdigit, BitVec.ofNat_add, BitVec.ofNat_add, BitVec.ofNat_mul]
  grind

/-- The width loop reads to the last digit of the run. -/
theorem emits_readNumber (ds : List Nat) (hds : ∀ i ∈ ds, i < 10) (hspan : p.Spans m (ds.map digitByte))
    (hend : (p.skip ds.length).At m c) (hc : ¬ IsDigit c) {i : Nat} (hi : i < 10) {fuel : Nat}
    (hfuel : ds.length < fuel) :
    Emits ((screen m).readNumber fuel p (digitByte i) (BitVec.ofNat 32 v))
      (BitVec.ofNat 32 (ds.foldl (fun v d => v * 10 + d) (v * 10 + i)), p.skip ds.length) [] := by
  induction ds generalizing p i v fuel with
  | nil =>
    obtain ⟨k, rfl⟩ : ∃ k, fuel = k + 1 := ⟨fuel - 1, by omega⟩
    rw [Printer.readNumber, add_digitByte hi]
    refine (emits_read hend).step ?_
    rw [if_pos (by_contra fun hn => hc (isDigit_iff_toInt.mpr hn))]
    exact emits_pure _
  | cons j ds ih =>
    obtain ⟨k, rfl⟩ : ∃ k, fuel = k + 1 := ⟨fuel - 1, by omega⟩
    obtain ⟨hat, -, hrest⟩ := hspan
    have hj : j < 10 := hds j (by simp)
    rw [Printer.readNumber, add_digitByte hi]
    refine (emits_read hat).step ?_
    rw [if_neg (isDigit_iff_toInt.mp (isDigit_digitByte hj))]
    exact ih (fun i hi => hds i (List.mem_cons_of_mem _ hi)) hrest hend hj (by simpa using hfuel)

/-- A number that does not start with 0, up to the first character that is no digit. -/
theorem scans_number {j : Nat} {ds : List Nat} (hds : ∀ i ∈ j :: ds, i < 10) (hj : j ≠ 0)
    (hspan : p.Spans m ((j :: ds).map digitByte)) (hend : (p.skip (j :: ds).length).At m c)
    (hc : ¬ IsDigit c)
    (hs : Scans m (p.skip (j :: ds).length) ap
      (d.processPrecision (BitVec.ofNat 32 (value 10 (j :: ds)))) e) : Scans m p ap d e := by
  obtain ⟨hat, -, hrest⟩ := hspan
  have hj10 : j < 10 := hds j (by simp)
  have hnat := toNat_digitByte hj10
  have hfuel : Settles fun fuel => ds.length < fuel := ⟨ds.length + 1, fun fuel h => h⟩
  refine (hfuel.and hs).succ fun fuel ⟨hlt, hr⟩ => ?_
  have hread := emits_readNumber ds (fun i hi => hds i (List.mem_cons_of_mem _ hi)) hrest hend hc hj10
    (v := 0) hlt
  rw [Printer.reswitch]
  refine (emits_read hat).step ?_
  rw [if_neg, if_neg, if_pos]
  · exact hread.step hr
  · constructor <;> rw [BitVec.le_def, hnat]
    · change 49 ≤ _
      omega
    · change _ ≤ 57
      omega
  · intro h0
    rw [h0] at hnat
    change 48 = _ at hnat
    omega
  · intro h0
    rw [h0] at hnat
    change 45 = _ at hnat
    omega

end rules

end Jos
