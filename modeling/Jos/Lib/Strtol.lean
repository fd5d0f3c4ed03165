import Jos.Kern.Pgmod
import Jos.Lib.NumberField

/-! strtol (lib/string.c) against its grammar, and against what vprintfmt prints. -/
namespace Jos

open Prog Numeral

/-! The grammar: blanks, a sign, a prefix, and the longest run of digits. -/

def afterBlanks (s : List Byte) : List Byte := s.dropWhile fun c => c = 32#8 ∨ c = 9#8

def IsNegative (s : List Byte) : Prop := (afterBlanks s).head? = some (chr '-')

instance (s : List Byte) : Decidable (IsNegative s) := inferInstanceAs (Decidable (_ = _))

def afterSign (s : List Byte) : List Byte :=
  match afterBlanks s with
  | [] => []
  | c :: t => if c = chr '+' ∨ c = chr '-' then t else c :: t

/-- The string starts with the prefix 0x, and the base allows it. -/
def HexPrefix (base : Word) (t : List Byte) : Prop := (base = 0 ∨ base = 16) ∧ t.take 2 = [48, 120]

instance (base : Word) (t : List Byte) : Decidable (HexPrefix base t) :=
  inferInstanceAs (Decidable (_ ∧ _))

/-- The base the digits are read in. -/
def numberBase (base : Word) (t : List Byte) : Word :=
  if HexPrefix base t then
    16
  else if base = 0 then
    if t.take 1 = [48] then 8 else 10
  else
    base

/-- Where the digits have to start. The 0 that makes a number octal is a digit itself. -/
def digitPlace (base : Word) (s : List Byte) : List Byte :=
  if HexPrefix base (afterSign s) then (afterSign s).drop 2 else afterSign s

def isDigitBelow (b : Word) (c : Byte) : Bool :=
  match digitValue c with
  | none => false
  | some dig => dig < b

def digitRun (base : Word) (s : List Byte) : List Byte :=
  (digitPlace base s).takeWhile (isDigitBelow (numberBase base (afterSign s)))

def runValue (b : Word) (run : List Byte) : Nat :=
  value b.toNat (run.map fun c => ((digitValue c).getD 0).toNat)

/-- The number a string stands for, modulo 2^32, and what comes behind its last digit; without any
digit, zero and the whole string. -/
def parsedNumber (s : List Byte) (base : Word) : Word × List Byte :=
  let run := digitRun base s
  let val := BitVec.ofNat 32 (runValue (numberBase base (afterSign s)) run)
  if run = [] then
    (0, s)
  else
    (if IsNegative s then -val else val, (digitPlace base s).drop run.length)

variable {s t : List Byte} {base b : Word} {c : Byte} {v : Nat}

theorem skipBlanks_eq (s : List Byte) : skipBlanks s = afterBlanks s := by
  unfold afterBlanks
  induction s with
  | nil => rfl
  | cons c s ih =>
    rw [skipBlanks, List.dropWhile_cons]
    by_cases hc : c = 32#8 ∨ c = 9#8
    · rw [if_pos hc, if_pos (decide_eq_true hc), ih]
    · rw [if_neg hc, if_neg (by rwa [decide_eq_true_iff])]

/-- The digit loop reads the longest run. -/
theorem strtolDigits_eq (b : Word) (s : List Byte) (v : Nat) :
    strtolDigits b s (BitVec.ofNat 32 v) =
      (BitVec.ofNat 32 (((s.takeWhile (isDigitBelow b)).map fun c => ((digitValue c).getD 0).toNat).foldl
        (fun v d => v * b.toNat + d) v), s.drop (s.takeWhile (isDigitBelow b)).length) := by
  induction s generalizing v with
  | nil => rfl
  | cons c s ih =>
    rw [strtolDigits, List.takeWhile_cons]
    cases hd : digitValue c with
    | none =>
      have hno : isDigitBelow b c = false := by rw [isDigitBelow, hd]
      rw [if_neg (by rw [hno]; decide)]
      rfl
    | some dig =>
      dsimp only
      by_cases hlt : dig < b
      · have hyes : isDigitBelow b c = true := by
          rw [isDigitBelow, hd]
          exact decide_eq_true hlt
        have hval : BitVec.ofNat 32 v * b + dig = BitVec.ofNat 32 (v * b.toNat + dig.toNat) := by
          rw [BitVec.ofNat_add, BitVec.ofNat_mul, BitVec.ofNat_toNat, BitVec.ofNat_toNat,
            BitVec.setWidth_eq, BitVec.setWidth_eq]
        rw [if_neg (BitVec.not_le.mpr hlt), if_pos hyes, hval, ih]
        simp [hd]
      · have hno : isDigitBelow b c = false := by
          rw [isDigitBelow, hd]
          exact decide_eq_false hlt
        rw [if_pos (BitVec.not_lt.mp hlt), if_neg (by rw [hno]; decide)]
        rfl

/-- What strtol reads is the run, wherever it starts and however long it is. -/
theorem strtol_eq (s : List Byte) (base : Word) : strtol s base =
    (if IsNegative s then
        -BitVec.ofNat 32 (runValue (numberBase base (afterSign s)) (digitRun base s))
      else
        BitVec.ofNat 32 (runValue (numberBase base (afterSign s)) (digitRun base s)),
      (digitPlace base s).drop (digitRun base s).length) := by
  have hsign : (if (afterBlanks s).take 1 = [43] ∨ (afterBlanks s).take 1 = [45] then
      (afterBlanks s).drop 1 else afterBlanks s) = afterSign s := by
    unfold afterSign
    cases afterBlanks s with
    | nil => rfl
    | cons c t =>
      simp only [List.take_succ_cons, List.take_zero, List.cons.injEq, and_true, List.drop_succ_cons,
        List.drop_zero]
      rfl
  have hneg : (afterBlanks s).take 1 = [45] ↔ IsNegative s := by
    unfold IsNegative
    cases afterBlanks s with
    | nil => simp
    | cons c t =>
      simp only [List.take_succ_cons, List.take_zero, List.cons.injEq, and_true, List.head?_cons,
        Option.some.injEq]
      rfl
  have hdigits : strtolDigits (strtolBase base (afterSign s)).1 (strtolBase base (afterSign s)).2 0 =
      (BitVec.ofNat 32 (runValue (numberBase base (afterSign s)) (digitRun base s)),
        (digitPlace base s).drop (digitRun base s).length) := by
    unfold digitRun digitPlace numberBase strtolBase runValue value
    generalize afterSign s = t
    by_cases hhex : HexPrefix base t
    · have hcond : (base = 0 ∨ base = 16) ∧ t.take 2 = [48, 120] := hhex
      simp only [if_pos hhex, if_pos hcond]
      exact strtolDigits_eq 16 (t.drop 2) 0
    · have hcond : ¬ ((base = 0 ∨ base = 16) ∧ t.take 2 = [48, 120]) := hhex
      simp only [if_neg hhex, if_neg hcond]
      by_cases h0 : base = 0
      · by_cases hoct : t.take 1 = [48]
        · rw [if_pos ⟨h0, hoct⟩, if_pos h0, if_pos hoct]
          cases t with
          | nil => cases hoct
          | cons c t =>
            have hc : c = 48 := by simpa using hoct
            subst hc
            have hzero : isDigitBelow 8 48 = true := by decide
            rw [List.takeWhile_cons, if_pos hzero]
            exact strtolDigits_eq 8 t 0
        · rw [if_neg (fun h => hoct h.2), if_pos h0, if_pos h0, if_neg hoct]
          exact strtolDigits_eq 10 t 0
      · rw [if_neg (fun h => h0 h.1), if_neg h0, if_neg h0]
        exact strtolDigits_eq base t 0
  simp only [strtol, skipBlanks_eq, hsign]
  simp only [hneg, hdigits]

/-- The text the commands print when their first argument is no number. -/
def notHexNumber : List String := ["Error: First argument must be a hex number.\n"]

/-- The places where showmappings, memxv, memxp and pgmod expect a number. -/
inductive NumberArg where
  | addr
  | lowAddr
  | highAddr
  | pgmodAddr
  | user
  | write

/-- What the commands take for a number: something was read. -/
def Accepted (s : List Byte) : Prop := (strtol s 16).2 ≠ s

instance (s : List Byte) : Decidable (Accepted s) := inferInstanceAs (Decidable (_ ≠ _))

def AcceptedPage (s : List Byte) : Prop := Accepted s ∧ (strtol s 16).1 = roundDown (strtol s 16).1 pgsize

instance (s : List Byte) : Decidable (AcceptedPage s) := inferInstanceAs (Decidable (_ ∧ _))

/-- The commands turn the string down there, behind arguments they have taken. -/
def Rejected (s : List Byte) : NumberArg → Prop
  | .addr => ∀ usage name, readRange usage [name, s] = .error notHexNumber
  | .lowAddr => ∀ usage name hi, readRange usage [name, s, hi] = .error notHexNumber
  | .highAddr => ∀ usage name lo, Accepted lo →
    readRange usage [name, lo, s] = .error ["Error: Argument <high_addr> must be a hex number.\n"]
  | .pgmodAddr => ∀ name user write, readPgmod [name, s, user, write] = .error notHexNumber
  | .user => ∀ name addr write, AcceptedPage addr →
    readPgmod [name, addr, s, write] = .error ["Error: Second argument must be 0 or 1.\n"]
  | .write => ∀ name addr user, AcceptedPage addr → Accepted user →
    readPgmod [name, addr, user, s] = .error ["Error: Third argument must be 0 or 1.\n"]

/-- strtol returns the number and its end, and the commands turn down exactly the strings that
contain no digit where it has to start. -/
def ReadsNumbers (s : List Byte) (base : Word) : Prop :=
  strtol s base = parsedNumber s base ∧ (base = 16 → ∀ a, Rejected s a ↔ digitRun 16 s = [])

theorem length_afterSign_le (s : List Byte) : (afterSign s).length ≤ s.length := by
  have hdrop : (afterBlanks s).length ≤ s.length := (List.dropWhile_sublist _).length_le
  unfold afterSign
  cases h : afterBlanks s with
  | nil => exact Nat.zero_le _
  | cons c t =>
    rw [h, List.length_cons] at hdrop
    dsimp only
    split
    · omega
    · rw [List.length_cons]
      omega

theorem length_digitPlace_le (base : Word) (s : List Byte) : (digitPlace base s).length ≤ s.length := by
  have h := length_afterSign_le s
  unfold digitPlace
  split
  · rw [List.length_drop]
    omega
  · exact h

/-- The end pointer is left at the start only by a string with nothing before its digits and no
digit there. -/
theorem strtol_end_eq_iff : (strtol s base).2 = s ↔ digitRun base s = [] ∧ digitPlace base s = s := by
  have hle := length_digitPlace_le base s
  have hrun : (digitRun base s).length ≤ (digitPlace base s).length :=
    (List.takeWhile_prefix _).length_le
  rw [strtol_eq]
  constructor
  · intro h
    dsimp only at h
    have hlen := congrArg List.length h
    rw [List.length_drop] at hlen
    have hnil : digitRun base s = [] := by
      rw [← List.length_eq_zero_iff]
      by_contra hpos
      omega
    rw [hnil] at h
    exact ⟨hnil, h⟩
  · rintro ⟨hnil, hplace⟩
    rw [hnil]
    exact hplace

section arguments

variable {usage : List String} {name lo hi addr user write : List Byte}

theorem readRange_addr : readRange usage [name, s] = .error notHexNumber ↔ (strtol s 16).2 = s := by
  unfold readRange
  dsimp only
  split
  · next h => exact ⟨fun _ => h, fun _ => rfl⟩
  · next h => exact ⟨fun he => (by cases he), fun he => absurd he h⟩

theorem readRange_low : readRange usage [name, s, hi] = .error notHexNumber ↔ (strtol s 16).2 = s := by
  unfold readRange
  dsimp only
  split
  · next h => exact ⟨fun _ => h, fun _ => rfl⟩
  · next h =>
    refine ⟨fun he => ?_, fun he => absurd he h⟩
    repeat' split at he
    all_goals simp [notHexNumber] at he

theorem readRange_high (h : Accepted lo) : readRange usage [name, lo, s] =
    .error ["Error: Argument <high_addr> must be a hex number.\n"] ↔ (strtol s 16).2 = s := by
  unfold readRange
  dsimp only
  rw [if_neg h]
  split
  · next h => exact ⟨fun _ => h, fun _ => rfl⟩
  · next h =>
    refine ⟨fun he => ?_, fun he => absurd he h⟩
    split at he
    all_goals simp at he

theorem readPgmod_addr : readPgmod [name, s, user, write] = .error notHexNumber ↔ (strtol s 16).2 = s := by
  unfold readPgmod
  dsimp only
  split
  · next h => exact ⟨fun _ => h, fun _ => rfl⟩
  · next h =>
    refine ⟨fun he => ?_, fun he => absurd he h⟩
    repeat' split at he
    all_goals simp [notHexNumber] at he

theorem readPgmod_user (h : AcceptedPage addr) : readPgmod [name, addr, s, write] =
    .error ["Error: Second argument must be 0 or 1.\n"] ↔ (strtol s 16).2 = s := by
  have hbool : ∀ b : Bool, b = false ∨ b = true := by decide
  unfold readPgmod
  dsimp only
  rw [if_neg h.1, if_neg (not_not.mpr h.2)]
  split
  · next hs => exact ⟨fun _ => hs.resolve_right (not_not.mpr (hbool _)), fun _ => rfl⟩
  · next hs =>
    refine ⟨fun he => ?_, fun he => absurd (.inl he) hs⟩
    split at he
    all_goals simp at he

theorem readPgmod_write (h : AcceptedPage addr) (hu : Accepted user) : readPgmod [name, addr, user, s] =
    .error ["Error: Third argument must be 0 or 1.\n"] ↔ (strtol s 16).2 = s := by
  have hbool : ∀ b : Bool, b = false ∨ b = true := by decide
  unfold readPgmod
  dsimp only
  rw [if_neg h.1, if_neg (not_not.mpr h.2), if_neg fun hor => hor.elim hu (not_not.mpr (hbool _))]
  split
  · next hs => exact ⟨fun _ => hs.resolve_right (not_not.mpr (hbool _)), fun _ => rfl⟩
  · next hs => exact ⟨fun he => (by cases he), fun he => absurd (.inl he) hs⟩

/-- Every place has the same check. -/
theorem rejected_iff (a : NumberArg) : Rejected s a ↔ (strtol s 16).2 = s := by
  have hzero : Accepted [48] := by decide
  have hpage : AcceptedPage [48] := by decide
  cases a with
  | addr => exact ⟨fun h => readRange_addr.mp (h [] []), fun h _ _ => readRange_addr.mpr h⟩
  | lowAddr => exact ⟨fun h => readRange_low.mp (h [] [] []), fun h _ _ _ => readRange_low.mpr h⟩
  | highAddr =>
    exact ⟨fun h => (readRange_high hzero).mp (h [] [] _ hzero),
      fun h _ _ _ hlo => (readRange_high hlo).mpr h⟩
  | pgmodAddr => exact ⟨fun h => readPgmod_addr.mp (h [] [] []), fun h _ _ _ => readPgmod_addr.mpr h⟩
  | user =>
    exact ⟨fun h => (readPgmod_user hpage).mp (h [] _ [] hpage),
      fun h _ _ _ haddr => (readPgmod_user haddr).mpr h⟩
  | write =>
    exact ⟨fun h => (readPgmod_write hpage hzero).mp (h [] _ _ hpage hzero),
      fun h _ _ _ haddr huser => (readPgmod_write haddr huser).mpr h⟩

end arguments

theorem readsNumbers_iff : ReadsNumbers s base ↔ digitRun base s ≠ [] ∨ digitPlace base s = s := by
  unfold ReadsNumbers
  simp only [rejected_iff]
  constructor
  · rintro ⟨h, -⟩
    by_cases hnil : digitRun base s = []
    · refine Or.inr (strtol_end_eq_iff.mp ?_).2
      rw [h, parsedNumber, if_pos hnil]
    · exact Or.inl hnil
  · intro h
    constructor
    · unfold parsedNumber
      by_cases hnil : digitRun base s = []
      · have hplace := h.resolve_left (fun hne => hne hnil)
        have hzero : ∀ b : Word, runValue b [] = 0 := fun _ => rfl
        rw [if_pos hnil, strtol_eq, hnil, hzero, hplace]
        split <;> rfl
      · rw [if_neg hnil, strtol_eq]
    · rintro rfl _
      rw [strtol_end_eq_iff]
      exact ⟨fun he => he.1, fun hnil => ⟨hnil, h.resolve_left (fun hne => hne hnil)⟩⟩

/-- strtol does not step back over what it has skipped, so a string without a digit is read right,
and turned down, only when nothing was skipped. -/
theorem strtol_readsNumbers_iff (s : List Byte) (base : Word) :
    ReadsNumbers s base ↔ digitRun base s ≠ [] ∨ digitPlace base s = s :=
  readsNumbers_iff

/-- A bare sign is taken for the number 0. -/
theorem not_strtol_readsNumbers : ¬ ∀ (s : List Byte) (base : Word), (∀ c ∈ s, c ≠ 0) →
    base = 0 ∨ (2 ≤ base.toNat ∧ base.toNat ≤ 36) → ReadsNumbers s base := by
  intro hall
  have h := hall [45] 16 (by decide) (by decide)
  rw [readsNumbers_iff] at h
  revert h
  decide

end Jos
