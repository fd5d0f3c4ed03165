import Jos.Lib.FormatRules
import Mathlib.Data.List.TakeWhile

/-! The kernel monitor's command interpreter (kern/monitor.c): runcmd, with the strcmp and strchr of
lib/string.c it uses. -/
namespace Jos

open Prog

/-- The characters of a string constant. -/
def ascii (s : List Char) : List Byte := s.map chr

/-- strchr on a string constant: what is left of it from the character on. -/
def strchr : List Byte → Byte → Option (List Byte)
  | [], _ => none
  | c :: s, ch => if c = ch then some (c :: s) else strchr s ch

/-- strcmp with a string constant. -/
def strcmp (mem : Word → Byte) : Word → List Byte → Word
  | p, [] => (mem p).setWidth 32
  | p, c :: q =>
    if mem p ≠ 0 ∧ mem p = c then
      strcmp mem (p + 1) q
    else
      (mem p).setWidth 32 - c.setWidth 32

/-- The functions of the commands. -/
inductive MonFunc where
  | help
  | kerninfo
  | meminfo
  | backtrace
  | showmappings
  | pgmod
  | memxv
  | memxp
  | exit
deriving DecidableEq

structure Command where
  name : List Byte
  func : MonFunc

def commands : List Command :=
  [⟨ascii ['h', 'e', 'l', 'p'], .help⟩,
    ⟨ascii ['k', 'e', 'r', 'n', 'i', 'n', 'f', 'o'], .kerninfo⟩,
    ⟨ascii ['m', 'e', 'm', 'i', 'n', 'f', 'o'], .meminfo⟩,
    ⟨ascii ['b', 'a', 'c', 'k', 't', 'r', 'a', 'c', 'e'], .backtrace⟩,
    ⟨ascii ['s', 'h', 'o', 'w', 'm', 'a', 'p', 'p', 'i', 'n', 'g', 's'], .showmappings⟩,
    ⟨ascii ['s', 'm'], .showmappings⟩,
    ⟨ascii ['p', 'g', 'm', 'o', 'd'], .pgmod⟩,
    ⟨ascii ['m', 'e', 'm', 'x', 'v'], .memxv⟩,
    ⟨ascii ['m', 'e', 'm', 'x', 'p'], .memxp⟩,
    ⟨ascii ['e', 'x', 'i', 't'], .exit⟩]

/-- WHITESPACE. -/
def whitespace : List Byte := ascii ['\t', '\r', '\n', ' ']

def maxArgs : Nat := 16

/-- `while (*buf && strchr(WHITESPACE, *buf)) *buf++ = 0`. -/
def gobble : Nat → (Word → Byte) → Word → Option ((Word → Byte) × Word)
  | 0, _, _ => none
  | fuel + 1, mem, buf =>
    if mem buf ≠ 0 ∧ (strchr whitespace (mem buf)).isSome then
      gobble fuel (Function.update mem buf 0) (buf + 1)
    else
      some (mem, buf)

/-- `while (*buf && !strchr(WHITESPACE, *buf)) buf++`. -/
def scanArg : Nat → (Word → Byte) → Word → Option Word
  | 0, _, _ => none
  | fuel + 1, mem, buf =>
    if mem buf ≠ 0 ∧ (strchr whitespace (mem buf)).isNone then
      scanArg fuel mem (buf + 1)
    else
      some buf

/-- What the parsing loop of runcmd comes to. -/
inductive Parsed where
  | tooMany (mem : Word → Byte)
  | args (argc : Nat) (argv : Nat → Word) (mem : Word → Byte)

/-- The parsing loop, with the `argv[argc] = 0` behind it. -/
def parseArgs : Nat → (Word → Byte) → Word → Nat → (Nat → Word) → Option Parsed
  | 0, _, _, _, _ => none
  | fuel + 1, mem, buf, argc, argv =>
    match gobble fuel mem buf with
    | none => none
    | some (mem, buf) =>
      if mem buf = 0 then
        some (.args argc (Function.update argv argc 0) mem)
      else if argc = maxArgs - 1 then
        some (.tooMany mem)
      else
        match scanArg fuel mem buf with
        | none => none
        | some arg => parseArgs fuel mem arg (argc + 1) (Function.update argv argc buf)

/-- What runcmd does in the end: nothing, one of its two messages, or a command. -/
inductive Reaction where
  | nothing
  | tooMany
  | unknown (name : Word)
  | invoke (func : MonFunc) (argc : Nat) (argv : Nat → Word)

/-- The lookup in the table of commands. -/
def lookupCommand (mem : Word → Byte) (argc : Nat) (argv : Nat → Word) : List Command → Reaction
  | [] => .unknown (argv 0)
  | c :: cs =>
    if strcmp mem (argv 0) c.name = 0 then
      .invoke c.func argc argv
    else
      lookupCommand mem argc argv cs

/-- runcmd, from what the array argv holds at first, with the memory it leaves to the command. -/
def runcmd (fuel : Nat) (mem : Word → Byte) (buf : Word) (argv : Nat → Word) :
    Option (Reaction × (Word → Byte)) :=
  match parseArgs fuel mem buf 0 (Function.update argv 0 0) with
  | none => none
  | some (.tooMany mem) => some (.tooMany, mem)
  | some (.args argc argv mem) =>
    if argc = 0 then
      some (.nothing, mem)
    else
      some (lookupCommand mem argc argv commands, mem)

/-! The runs of a text. -/

def IsBlank (c : Byte) : Prop := c ∈ whitespace

instance (c : Byte) : Decidable (IsBlank c) := inferInstanceAs (Decidable (_ ∈ _))

/-- A run starts at a character that is not blank, with a blank or nothing before it. -/
def StartsRun (s : List Byte) (j : Nat) : Prop :=
  (∃ c ∈ s[j]?, ¬ IsBlank c) ∧ ∀ c ∈ (s.take j).getLast?, IsBlank c

instance (s : List Byte) (j : Nat) : Decidable (StartsRun s j) := inferInstanceAs (Decidable (_ ∧ _))

/-- Where the runs start. -/
def runStarts (s : List Byte) : List Nat := (List.range s.length).filter (StartsRun s ·)

/-- The run at a place. -/
def runAt (s : List Byte) (j : Nat) : List Byte := (s.drop j).takeWhile (¬ IsBlank ·)

/-- What runcmd is for: the runs of the text become the arguments, each a string where it stands,
and name the command. -/
def RunsText (mem : Word → Byte) (buf : Word) (argv : Nat → Word) (s : List Byte) : Prop :=
  let starts := runStarts s
  Settles fun fuel =>
    (15 < starts.length → ∃ mem', runcmd fuel mem buf argv = some (.tooMany, mem')) ∧
    (starts.length ≤ 15 → ∃ argv' mem',
      parseArgs fuel mem buf 0 (Function.update argv 0 0) = some (.args starts.length argv' mem') ∧
      (∀ i (hi : i < starts.length), argv' i = buf + BitVec.ofNat 32 starts[i] ∧
        (CharPtr.mem (argv' i)).Holds (fun a => some (mem' a)) (runAt s starts[i])) ∧
      argv' starts.length = 0 ∧
      (∀ a, mem' a ≠ mem a → mem' a = 0 ∧ ∃ j, a = buf + BitVec.ofNat 32 j ∧ ∃ c ∈ s[j]?, IsBlank c) ∧
      runcmd fuel mem buf argv = some (match starts with
        | [] => .nothing
        | j :: _ =>
          match commands.find? fun c => c.name = runAt s j with
          | none => .unknown (argv' 0)
          | some c => .invoke c.func starts.length argv', mem'))

section text

variable {mem : Word → Byte} {buf : Word} {s t w : List Byte} {c : Byte} {i j k argc fuel : Nat}
  {argv : Nat → Word} {js : List Nat}

theorem isSome_strchr : (strchr t c).isSome = true ↔ c ∈ t := by
  induction t with
  | nil => simp [strchr]
  | cons d t ih =>
    rw [strchr, List.mem_cons]
    by_cases hd : d = c
    · simp [hd]
    · rw [if_neg hd, ih]
      exact ⟨Or.inr, fun h => h.resolve_left fun he => hd he.symm⟩

theorem isNone_strchr : (strchr whitespace c).isNone = true ↔ ¬ IsBlank c := by
  rw [IsBlank, ← isSome_strchr]
  cases strchr whitespace c <;> simp

theorem toNat_offset (hi : i < 2 ^ 32) : (buf + BitVec.ofNat 32 i - buf).toNat = i := by
  rw [BitVec.add_comm, BitVec.add_sub_cancel, BitVec.toNat_ofNat, Nat.mod_eq_of_lt hi]

/-- The memory with the blanks among the first `i` characters of the text zeroed. -/
def cleared (mem : Word → Byte) (buf : Word) (s : List Byte) (i : Nat) : Word → Byte := fun a =>
  if (a - buf).toNat < i ∧ ∃ c ∈ s[(a - buf).toNat]?, IsBlank c then 0 else mem a

theorem cleared_zero : cleared mem buf s 0 = mem := by
  funext a
  exact if_neg fun h => Nat.not_lt_zero _ h.1

theorem cleared_blank (hi : i < 2 ^ 32) (hc : s[i]? = some c) (hb : IsBlank c) :
    Function.update (cleared mem buf s i) (buf + BitVec.ofNat 32 i) 0 = cleared mem buf s (i + 1) := by
  funext a
  by_cases ha : a = buf + BitVec.ofNat 32 i
  · subst ha
    rw [Function.update_self, cleared, toNat_offset hi, if_pos ⟨Nat.lt_succ_self i, c, hc, hb⟩]
  · rw [Function.update_of_ne ha, cleared, cleared]
    have hne : (a - buf).toNat ≠ i := fun he => ha (by
      rw [← he, BitVec.ofNat_toNat, BitVec.setWidth_eq, BitVec.add_comm, BitVec.sub_add_cancel])
    refine if_congr (and_congr_left' ?_) rfl rfl
    omega

theorem cleared_not_blank (hc : s[i]? = some c) (hb : ¬ IsBlank c) :
    cleared mem buf s (i + 1) = cleared mem buf s i := by
  funext a
  rw [cleared, cleared]
  have hiff : ((a - buf).toNat < i + 1 ∧ ∃ c ∈ s[(a - buf).toNat]?, IsBlank c) ↔
      (a - buf).toNat < i ∧ ∃ c ∈ s[(a - buf).toNat]?, IsBlank c := by
    constructor
    · rintro ⟨hlt, c', hc', hb'⟩
      refine ⟨?_, c', hc', hb'⟩
      by_contra hge
      have he : (a - buf).toNat = i := by omega
      rw [he, Option.mem_def, hc] at hc'
      exact hb (Option.some.inj hc' ▸ hb')
    · rintro ⟨hlt, hex⟩
      exact ⟨Nat.lt_succ_of_lt hlt, hex⟩
  rw [if_congr hiff rfl rfl]

/-- What the loops read at the place they have reached. -/
theorem cleared_head (h : (CharPtr.mem buf).Holds (fun a => some (mem a)) s) (hdrop : s.drop i = t)
    (hi : i ≤ s.length) (hk : k ≤ i) : cleared mem buf s k (buf + BitVec.ofNat 32 i) = t.headD 0 := by
  have hlen := CharPtr.length_lt h
  obtain ⟨hall, hend⟩ := CharPtr.holds_mem_iff.mp h
  rw [cleared, toNat_offset (by omega), if_neg fun hc => Nat.not_lt.mpr hk hc.1, ← hdrop]
  rcases Nat.lt_or_eq_of_le hi with hlt | rfl
  · rw [List.drop_eq_getElem_cons hlt]
    exact Option.some.inj (hall i hlt).1
  · rw [List.drop_length]
    exact Option.some.inj hend

theorem getElem?_of_drop (hdrop : s.drop i = c :: t) : s[i]? = some c := by
  rw [← List.head?_drop, hdrop]
  rfl

theorem drop_succ_of_drop (hdrop : s.drop i = c :: t) : s.drop (i + 1) = t := by
  rw [← List.drop_drop, hdrop]
  rfl

theorem lt_of_drop (hdrop : s.drop i = c :: t) : i < s.length := by
  have hsome := getElem?_of_drop hdrop
  exact (List.getElem?_eq_some_iff.mp hsome).1

theorem ne_zero_of_drop (h : (CharPtr.mem buf).Holds (fun a => some (mem a)) s)
    (hdrop : s.drop i = c :: t) : c ≠ 0 := by
  have hlt := lt_of_drop hdrop
  have hget := (List.getElem?_eq_some_iff.mp (getElem?_of_drop hdrop)).2
  rw [← hget]
  exact ((CharPtr.holds_mem_iff.mp h).1 i hlt).2

/-- The blanks are gobbled up to the next run, or to the end. -/
theorem gobble_eq (h : (CharPtr.mem buf).Holds (fun a => some (mem a)) s) (hi : i ≤ s.length)
    (hdrop : s.drop i = w ++ t) (hw : ∀ c ∈ w, IsBlank c) (ht : ∀ c ∈ t.head?, ¬ IsBlank c)
    (hfuel : w.length < fuel) :
    gobble fuel (cleared mem buf s i) (buf + BitVec.ofNat 32 i) =
      some (cleared mem buf s (i + w.length), buf + BitVec.ofNat 32 (i + w.length)) := by
  induction w generalizing i fuel with
  | nil =>
    obtain ⟨k, rfl⟩ : ∃ k, fuel = k + 1 := ⟨fuel - 1, by omega⟩
    rw [gobble, cleared_head h hdrop hi (Nat.le_refl i), if_neg]
    · rfl
    · rintro ⟨hne, hblank⟩
      cases t with
      | nil => exact hne rfl
      | cons c t => exact ht c rfl (isSome_strchr.mp hblank)
  | cons c w ih =>
    obtain ⟨k, rfl⟩ : ∃ k, fuel = k + 1 := ⟨fuel - 1, by omega⟩
    have hlen := CharPtr.length_lt h
    have hlt := lt_of_drop hdrop
    have hb := hw c (by simp)
    rw [gobble, cleared_head h hdrop hi (Nat.le_refl i),
      if_pos ⟨ne_zero_of_drop h hdrop, isSome_strchr.mpr hb⟩,
      cleared_blank (by omega) (getElem?_of_drop hdrop) hb, CharPtr.add_ofNat_succ,
      ih hlt (drop_succ_of_drop hdrop) (fun c hc => hw c (List.mem_cons_of_mem _ hc))
        (by simpa using hfuel), List.length_cons, Nat.add_comm w.length, ← Nat.add_assoc]

/-- A run is scanned to its end, and nothing is written. -/
theorem scanArg_eq (h : (CharPtr.mem buf).Holds (fun a => some (mem a)) s) (hi : i ≤ s.length)
    (hk : k ≤ i) (hdrop : s.drop i = w ++ t) (hw : ∀ c ∈ w, ¬ IsBlank c) (ht : ∀ c ∈ t.head?, IsBlank c)
    (hfuel : w.length < fuel) :
    scanArg fuel (cleared mem buf s k) (buf + BitVec.ofNat 32 i) =
      some (buf + BitVec.ofNat 32 (i + w.length)) := by
  induction w generalizing i fuel with
  | nil =>
    obtain ⟨k, rfl⟩ : ∃ k, fuel = k + 1 := ⟨fuel - 1, by omega⟩
    rw [scanArg, cleared_head h hdrop hi hk, if_neg]
    · rfl
    · rintro ⟨hne, hblank⟩
      cases t with
      | nil => exact hne rfl
      | cons c t => exact isNone_strchr.mp hblank (ht c rfl)
  | cons c w ih =>
    obtain ⟨k, rfl⟩ : ∃ k, fuel = k + 1 := ⟨fuel - 1, by omega⟩
    have hb := hw c (by simp)
    rw [scanArg, cleared_head h hdrop hi hk,
      if_pos ⟨ne_zero_of_drop h hdrop, isNone_strchr.mpr hb⟩, CharPtr.add_ofNat_succ,
      ih (lt_of_drop hdrop) (by omega) (drop_succ_of_drop hdrop)
        (fun c hc => hw c (List.mem_cons_of_mem _ hc)) (by simpa using hfuel), List.length_cons,
      Nat.add_comm w.length, ← Nat.add_assoc]

theorem cleared_run (hdrop : s.drop i = w ++ t) (hw : ∀ c ∈ w, ¬ IsBlank c) :
    cleared mem buf s (i + w.length) = cleared mem buf s i := by
  induction w generalizing i with
  | nil => rfl
  | cons c w ih =>
    have hrest := ih (drop_succ_of_drop hdrop) fun c hc => hw c (List.mem_cons_of_mem _ hc)
    rw [List.length_cons, Nat.add_comm w.length, ← Nat.add_assoc, hrest,
      cleared_not_blank (getElem?_of_drop hdrop) (hw c (by simp))]

/-- The starts of the runs from the `i`th character on. A run that has not ended yet is not counted
again. -/
def startsFrom : Bool → Nat → List Byte → List Nat
  | _, _, [] => []
  | fresh, i, c :: s =>
    if IsBlank c then
      startsFrom true (i + 1) s
    else if fresh then
      i :: startsFrom false (i + 1) s
    else
      startsFrom false (i + 1) s

theorem runStarts_append (pre t : List Byte) :
    (List.range' pre.length t.length).filter (StartsRun (pre ++ t) ·) =
      startsFrom (decide (∀ c ∈ pre.getLast?, IsBlank c)) pre.length t := by
  induction t generalizing pre with
  | nil => rfl
  | cons c t ih =>
    have hrest := ih (pre ++ [c])
    rw [List.append_assoc, List.singleton_append, List.length_append, List.length_singleton,
      List.getLast?_concat] at hrest
    have hlast : (∀ c' ∈ some c, IsBlank c') ↔ IsBlank c := by simp
    have hstart : StartsRun (pre ++ c :: t) pre.length ↔
        ¬ IsBlank c ∧ ∀ c ∈ pre.getLast?, IsBlank c := by
      simp [StartsRun]
    rw [List.length_cons, List.range'_succ, List.filter_cons, hrest, startsFrom]
    by_cases hc : IsBlank c
    · rw [if_neg (by rw [decide_eq_true_iff, hstart]; exact fun h => h.1 hc), if_pos hc,
        decide_eq_true (hlast.mpr hc)]
    · rw [if_neg hc, decide_eq_false (fun h => hc (hlast.mp h))]
      by_cases hpre : ∀ c ∈ pre.getLast?, IsBlank c
      · rw [if_pos (by rw [decide_eq_true_iff, hstart]; exact ⟨hc, hpre⟩), if_pos (decide_eq_true hpre)]
      · rw [if_neg (by rw [decide_eq_true_iff, hstart]; exact fun h => hpre h.2),
          if_neg (by rw [decide_eq_true_iff]; exact hpre)]

theorem runStarts_eq (s : List Byte) : runStarts s = startsFrom true 0 s := by
  have h := runStarts_append [] s
  rw [runStarts, List.range_eq_range']
  exact h

theorem startsFrom_blanks {fresh : Bool} (hw : ∀ c ∈ w, IsBlank c) (hne : w ≠ []) :
    startsFrom fresh i (w ++ t) = startsFrom true (i + w.length) t := by
  induction w generalizing i fresh with
  | nil => exact absurd rfl hne
  | cons c w ih =>
    rw [List.cons_append, startsFrom, if_pos (hw c (by simp)), List.length_cons, Nat.add_comm w.length,
      ← Nat.add_assoc]
    cases w with
    | nil => rfl
    | cons d w => exact ih (fun c hc => hw c (List.mem_cons_of_mem _ hc)) (List.cons_ne_nil d w)

theorem startsFrom_run (hw : ∀ c ∈ w, ¬ IsBlank c) :
    startsFrom false i (w ++ t) = startsFrom false (i + w.length) t := by
  induction w generalizing i with
  | nil => rfl
  | cons c w ih =>
    rw [List.cons_append, startsFrom, if_neg (hw c (by simp)), if_neg (by decide),
      ih fun c hc => hw c (List.mem_cons_of_mem _ hc), List.length_cons, Nat.add_comm w.length,
      ← Nat.add_assoc]

/-- Behind a run, the next character is a blank. -/
theorem startsFrom_end (ht : ∀ c ∈ t.head?, IsBlank c) : startsFrom false i t = startsFrom true i t := by
  cases t with
  | nil => rfl
  | cons c t =>
    have hc : IsBlank c := ht c rfl
    rw [startsFrom, startsFrom, if_pos hc, if_pos hc]

/-- The array behind its first `argc` entries, with the runs that start at `js`, and a NULL. -/
def fillArgv (buf : Word) (argc : Nat) (argv : Nat → Word) : List Nat → Nat → Word
  | [] => Function.update argv argc 0
  | j :: js => fillArgv buf (argc + 1) (Function.update argv argc (buf + BitVec.ofNat 32 j)) js

theorem fillArgv_old (hk : k < argc) : fillArgv buf argc argv js k = argv k := by
  induction js generalizing argc argv with
  | nil => exact Function.update_of_ne (Nat.ne_of_lt hk) _ _
  | cons j js ih =>
    rw [fillArgv, ih (Nat.lt_succ_of_lt hk), Function.update_of_ne (Nat.ne_of_lt hk)]

theorem fillArgv_get (hk : k < js.length) :
    fillArgv buf argc argv js (argc + k) = buf + BitVec.ofNat 32 js[k] := by
  induction js generalizing argc argv k with
  | nil => exact absurd hk (Nat.not_lt_zero k)
  | cons j js ih =>
    rw [fillArgv]
    cases k with
    | zero =>
      rw [Nat.add_zero]
      exact (fillArgv_old (Nat.lt_succ_self argc)).trans (Function.update_self ..)
    | succ k =>
      have hk' : argc + (k + 1) = argc + 1 + k := by omega
      rw [hk', ih (by simpa using hk)]
      rfl

theorem fillArgv_end : fillArgv buf argc argv js (argc + js.length) = 0 := by
  induction js generalizing argc argv with
  | nil => exact Function.update_self ..
  | cons j js ih =>
    rw [fillArgv, List.length_cons, Nat.add_comm js.length, ← Nat.add_assoc]
    exact ih

/-- The parsing loop from any place between two runs: the runs still to come are stored behind the
arguments already there, unless they are too many. -/
theorem parseArgs_eq (argv : Nat → Word) (h : (CharPtr.mem buf).Holds (fun a => some (mem a)) s)
    (hi : i ≤ s.length) (hdrop : s.drop i = t) (hargc : argc ≤ 15) (hfuel : t.length + 1 < fuel) :
    (argc + (startsFrom true i t).length ≤ 15 →
      parseArgs fuel (cleared mem buf s i) (buf + BitVec.ofNat 32 i) argc argv =
        some (.args (argc + (startsFrom true i t).length)
          (fillArgv buf argc argv (startsFrom true i t)) (cleared mem buf s s.length))) ∧
    (15 < argc + (startsFrom true i t).length → ∃ mem',
      parseArgs fuel (cleared mem buf s i) (buf + BitVec.ofNat 32 i) argc argv = some (.tooMany mem')) := by
  induction hn : t.length using Nat.strong_induction_on generalizing i t argc argv fuel with
  | _ n ih =>
    obtain ⟨k, rfl⟩ : ∃ k, fuel = k + 1 := ⟨fuel - 1, by omega⟩
    -- blanks, then a run, then what is left
    obtain ⟨w, u, rfl, hw, hu⟩ := exists_run IsBlank t
    have hlen : i + w.length + u.length = s.length := by
      have hsplit := congrArg List.length hdrop
      rw [List.length_drop, List.length_append] at hsplit
      omega
    have hdropu : s.drop (i + w.length) = u := by
      rw [← List.drop_drop, hdrop, List.drop_left]
    have hstarts : startsFrom true i (w ++ u) = startsFrom true (i + w.length) u := by
      rcases List.eq_nil_or_concat w with rfl | ⟨w', c, rfl⟩
      · rfl
      · exact startsFrom_blanks hw (by simp)
    rw [List.length_append] at hfuel hn
    have hgobble : gobble k _ _ = _ := gobble_eq h hi hdrop hw hu (by omega)
    have hread := cleared_head h hdropu (by omega) (Nat.le_refl _)
    rw [parseArgs, hgobble, hstarts]
    dsimp only
    rw [hread]
    cases u with
    | nil =>
      rw [List.length_nil, Nat.add_zero] at hlen
      rw [hlen, if_pos (show ([] : List Byte).headD 0 = 0 from rfl), startsFrom, List.length_nil]
      exact ⟨fun _ => rfl, fun hlt => absurd hlt (by omega)⟩
    | cons c u =>
      have hc : ¬ IsBlank c := hu c rfl
      obtain ⟨r, v, rfl, hr, hv⟩ := exists_run (¬ IsBlank ·) u
      have hend : ∀ c ∈ v.head?, IsBlank c := fun c hc => not_not.mp (hv c hc)
      have hrun : ∀ d ∈ c :: r, ¬ IsBlank d := by
        rintro d (_ | hd)
        · exact hc
        · exact hr d (by assumption)
      have hfirst : startsFrom true (i + w.length) (c :: (r ++ v)) =
          (i + w.length) :: startsFrom true (i + w.length + (c :: r).length) v := by
        rw [startsFrom, if_neg hc, if_pos rfl, startsFrom_run hr, startsFrom_end hend, List.length_cons,
          Nat.add_comm r.length, ← Nat.add_assoc]
      have hdropv : s.drop (i + w.length + (c :: r).length) = v := by
        rw [← List.drop_drop, hdropu, ← List.cons_append, List.drop_left]
      rw [List.length_cons, List.length_append] at hfuel hn hlen
      have hscan : scanArg k _ _ = _ :=
        scanArg_eq h (by omega) (Nat.le_refl _) hdropu hrun hend (by rw [List.length_cons]; omega)
      have hne : c ≠ 0 := ne_zero_of_drop h hdropu
      rw [List.headD_cons, if_neg hne, hfirst, List.length_cons, hscan]
      by_cases hmax : argc = maxArgs - 1
      · rw [if_pos hmax]
        refine ⟨fun hle => ?_, fun _ => ⟨_, rfl⟩⟩
        change argc = 15 at hmax
        omega
      · rw [if_neg hmax]
        change argc ≠ 15 at hmax
        have hargc' : argc + 1 ≤ 15 := by omega
        rw [Nat.add_comm _ 1, ← Nat.add_assoc, ← cleared_run hdropu hrun]
        exact ih v.length (by omega) _ (by rw [List.length_cons]; omega) hdropv hargc' (by omega) rfl

/-- What changes in memory are blanks of the text, and they become NULs. -/
theorem cleared_ne {a : Word} (hne : cleared mem buf s i a ≠ mem a) :
    cleared mem buf s i a = 0 ∧ ∃ j, a = buf + BitVec.ofNat 32 j ∧ ∃ c ∈ s[j]?, IsBlank c := by
  unfold cleared at hne ⊢
  split at hne
  · next h =>
    rw [if_pos h]
    refine ⟨rfl, (a - buf).toNat, ?_, h.2⟩
    rw [BitVec.ofNat_toNat, BitVec.setWidth_eq, BitVec.add_comm, BitVec.sub_add_cancel]
  · exact absurd rfl hne

/-- Once all blanks are zeroed, every run of the text is a string. -/
theorem holds_runAt (h : (CharPtr.mem buf).Holds (fun a => some (mem a)) s) (hj : j < s.length) :
    (CharPtr.mem (buf + BitVec.ofNat 32 j)).Holds (fun a => some (cleared mem buf s s.length a))
      (runAt s j) := by
  have hlen := CharPtr.length_lt h
  obtain ⟨hall, hend⟩ := CharPtr.holds_mem_iff.mp h
  have hsum : ∀ k, buf + BitVec.ofNat 32 j + BitVec.ofNat 32 k = buf + BitVec.ofNat 32 (j + k) := fun k => by
    rw [BitVec.add_assoc, BitVec.ofNat_add]
  have hle : (runAt s j).length ≤ s.length - j := by
    rw [← List.length_drop]
    exact (List.takeWhile_prefix _).length_le
  rw [CharPtr.holds_mem_iff]
  refine ⟨fun k hk => ?_, ?_⟩
  · have hlt : j + k < s.length := by omega
    have hget : (runAt s j)[k] = s[j + k] := by
      have hstart : runAt s j <+: s.drop j := List.takeWhile_prefix _
      rw [hstart.getElem hk, List.getElem_drop]
    have hblank : ¬ IsBlank s[j + k] := by
      have hmem := List.mem_takeWhile_imp (List.getElem_mem hk)
      rw [hget] at hmem
      exact of_decide_eq_true hmem
    rw [hsum, hget, cleared, toNat_offset (by omega), if_neg]
    · exact hall (j + k) hlt
    · rintro ⟨-, c, hc, hb⟩
      rw [List.getElem?_eq_getElem hlt, Option.mem_some_iff] at hc
      exact hblank (hc ▸ hb)
  · have hrest : ∀ c ∈ s[j + (runAt s j).length]?, IsBlank c := by
      have hsplit : s.drop j = runAt s j ++ (s.drop j).dropWhile (¬ IsBlank ·) :=
        List.takeWhile_append_dropWhile.symm
      intro c hc
      rw [← List.getElem?_drop, hsplit, List.getElem?_append_right (Nat.le_refl _), Nat.sub_self,
        ← List.head?_eq_getElem?, Option.mem_def] at hc
      have hnot := List.head?_dropWhile_not (¬ IsBlank ·) (s.drop j)
      rw [hc] at hnot
      exact not_not.mp (of_decide_eq_false hnot)
    rw [hsum, cleared, toNat_offset (by omega)]
    rcases Nat.lt_or_ge (j + (runAt s j).length) s.length with hlt | hge
    · rw [if_pos ⟨hlt, _, List.getElem?_eq_getElem hlt, hrest _ (List.getElem?_eq_getElem hlt)⟩]
    · have he : j + (runAt s j).length = s.length := by omega
      rw [he, if_neg (fun hc => absurd hc.1 (Nat.lt_irrefl _)), hend]

theorem sub_setWidth_eq_zero {d : Byte} : c.setWidth 32 - d.setWidth 32 = (0 : Word) ↔ c = d := by
  bv_omega

/-- strcmp tells a string from every other. -/
theorem strcmp_eq_zero_iff {p : Word} {q : List Byte} (h : (CharPtr.mem p).Holds (fun a => some (mem a)) s)
    (hq : ∀ c ∈ q, c ≠ 0) : strcmp mem p q = 0 ↔ q = s := by
  induction q generalizing p s with
  | nil =>
    have hhead : mem p = s.headD 0 := Option.some.inj h.head
    rw [strcmp, hhead]
    cases s with
    | nil => simp
    | cons c s =>
      have hc := (CharPtr.holds_cons.mp h).2.1
      have hz : c.setWidth 32 ≠ (0 : Word) := by bv_omega
      rw [List.headD_cons]
      exact ⟨fun he => absurd he hz, fun he => by cases he⟩
  | cons d q ih =>
    have hd : d ≠ 0 := hq d (by simp)
    have hhead : mem p = s.headD 0 := Option.some.inj h.head
    rw [strcmp, hhead]
    cases s with
    | nil =>
      have hz : (0 : Byte).setWidth 32 - d.setWidth 32 ≠ (0 : Word) := fun he =>
        hd (sub_setWidth_eq_zero.mp he).symm
      rw [List.headD_nil, if_neg fun he => he.1 rfl]
      exact ⟨fun he => absurd he hz, fun he => by cases he⟩
    | cons c s =>
      obtain ⟨-, hc, hrest⟩ := CharPtr.holds_cons.mp h
      rw [List.headD_cons, List.cons.injEq]
      by_cases hcd : c = d
      · rw [if_pos ⟨hc, hcd⟩, ih hrest fun c hc => hq c (List.mem_cons_of_mem _ hc)]
        exact ⟨fun he => ⟨hcd.symm, he⟩, fun he => he.2⟩
      · rw [if_neg fun he => hcd he.2, sub_setWidth_eq_zero]
        exact ⟨fun he => absurd he hcd, fun he => absurd he.1.symm hcd⟩

/-- The lookup finds the first command of that name. -/
theorem lookupCommand_eq {cs : List Command}
    (h : (CharPtr.mem (argv 0)).Holds (fun a => some (mem a)) t)
    (hcs : ∀ c ∈ cs, ∀ x ∈ c.name, x ≠ 0) :
    lookupCommand mem argc argv cs =
      match cs.find? fun c => c.name = t with
      | none => .unknown (argv 0)
      | some c => .invoke c.func argc argv := by
  induction cs with
  | nil => rfl
  | cons c cs ih =>
    have hcmp := strcmp_eq_zero_iff h (hcs c (by simp))
    rw [lookupCommand, List.find?_cons]
    by_cases hname : c.name = t
    · rw [if_pos (hcmp.mpr hname), decide_eq_true hname]
    · rw [if_neg fun he => hname (hcmp.mp he), decide_eq_false hname]
      exact ih fun c hc => hcs c (List.mem_cons_of_mem _ hc)

theorem commands_ne_zero : ∀ c ∈ commands, ∀ x ∈ c.name, x ≠ 0 := by
  simp [commands, ascii, chr]

theorem mem_runStarts (hj : j ∈ runStarts s) : j < s.length :=
  List.mem_range.mp (List.mem_of_mem_filter hj)

end text

/-- The text of a command is split at its blanks, whatever they are and wherever they stand, and the
first run names the command. -/
theorem runcmd_runsText (mem : Word → Byte) (buf : Word) (argv : Nat → Word) (s : List Byte)
    (h : (CharPtr.mem buf).Holds (fun a => some (mem a)) s) : RunsText mem buf argv s := by
  refine ⟨s.length + 2, fun fuel hfuel => ?_⟩
  have hparse := parseArgs_eq (Function.update argv 0 0) h (Nat.zero_le _) rfl (Nat.zero_le 15)
    (show s.length + 1 < fuel by omega)
  rw [cleared_zero, BitVec.add_zero, List.drop_zero, Nat.zero_add, ← runStarts_eq] at hparse
  obtain ⟨hfit, hmany⟩ := hparse
  constructor
  · intro hlt
    obtain ⟨mem', hrun⟩ := hmany hlt
    exact ⟨mem', by rw [runcmd, hrun]⟩
  · intro hle
    have hargs : ∀ i (hi : i < (runStarts s).length),
        fillArgv buf 0 (Function.update argv 0 0) (runStarts s) i =
          buf + BitVec.ofNat 32 (runStarts s)[i] := fun i hi => by
      rw [← fillArgv_get hi, Nat.zero_add]
    refine ⟨_, _, hfit hle, fun i hi => ⟨hargs i hi, ?_⟩, ?_, fun a ha => cleared_ne ha, ?_⟩
    · rw [hargs i hi]
      exact holds_runAt h (mem_runStarts (List.getElem_mem hi))
    · have hnull : fillArgv buf 0 (Function.update argv 0 0) (runStarts s) (0 + (runStarts s).length) = 0 :=
        fillArgv_end
      rwa [Nat.zero_add] at hnull
    · rw [runcmd, hfit hle]
      cases hstarts : runStarts s with
      | nil => rfl
      | cons j js =>
        rw [hstarts] at hargs
        have hfirst := hargs 0 (by simp)
        have hholds := holds_runAt h (mem_runStarts (hstarts ▸ List.mem_cons_self))
        rw [List.getElem_cons_zero] at hfirst
        rw [← hfirst] at hholds
        dsimp only
        rw [if_neg (by simp), lookupCommand_eq hholds commands_ne_zero]

/-- A line as it is typed: three words, with blanks before, between and behind them. -/
def typedBlanks : List Byte := ascii "  sm  8 \t 9 ".toList

theorem runcmd_runsText_blanks : runStarts typedBlanks = [2, 6, 10] ∧
    RunsText (fun a => (typedBlanks[a.toNat]?).getD 0) 0 (fun _ => 0) typedBlanks :=
  ⟨by decide, runcmd_runsText _ _ _ _ (CharPtr.holds_mem_iff.mpr (by decide))⟩

end Jos
