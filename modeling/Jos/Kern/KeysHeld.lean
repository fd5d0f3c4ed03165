import Jos.Kern.Keyboard
import Mathlib.Data.List.Infix

/-! The keys that are held, and what the keyboard state says of them. -/
namespace Jos

/-- A key: its make code, and whether its codes stand behind an 0xE0. -/
structure Key where
  extended : Bool
  code : Byte
  make : 1 ≤ code ∧ code ≤ 0x58
deriving DecidableEq

inductive KeyEvent where
  | press (k : Key)
  | release (k : Key)
deriving DecidableEq

namespace KeyEvent

def key : KeyEvent → Key
  | press k => k
  | release k => k

def isPress : KeyEvent → Bool
  | press _ => true
  | release _ => false

/-- The make code, or the break code. -/
def lastCode : KeyEvent → Byte
  | press k => k.code
  | release k => k.code ||| 0x80

/-- The codes the keyboard sends. -/
def codes (e : KeyEvent) : List Byte := if e.key.extended then [0xE0, e.lastCode] else [e.lastCode]

end KeyEvent

def codes (es : List KeyEvent) : List Byte := es.flatMap KeyEvent.codes

/-- Was the last event of one of the keys a press? -/
def latest (P : Key → Bool) (es : List KeyEvent) : Bool :=
  es.foldl (fun b e => if P e.key then e.isPress else b) false

/-- The key is down. -/
def Down (es : List KeyEvent) (k : Key) : Prop := latest (· = k) es = true

/-- Presses and releases of keys; a key is released only while it is down. -/
inductive KeyRun : List KeyEvent → Prop
  | nil : KeyRun []
  | press {es : List KeyEvent} (h : KeyRun es) (k : Key) : KeyRun (es ++ [.press k])
  | release {es : List KeyEvent} {k : Key} (h : KeyRun es) (hk : Down es k) : KeyRun (es ++ [.release k])

/-- The kinds of keys that are held. -/
inductive Modifier where
  | shift
  | ctl
  | alt
deriving DecidableEq

namespace Modifier

def mask : Modifier → Word
  | shift => kbdShift
  | ctl => kbdCtl
  | alt => kbdAlt

/-- The left and the right key of the kind. -/
def isKey : Modifier → Key → Bool
  | shift, k => !k.extended && (k.code = 0x2A || k.code = 0x36)
  | ctl, k => k.code = 0x1D
  | alt, k => k.code = 0x38

end Modifier

/-- The keys that switch something on and off. -/
inductive Toggle where
  | capslock
  | numlock
  | scrolllock
deriving DecidableEq

namespace Toggle

def mask : Toggle → Word
  | .capslock => Jos.capslock
  | .numlock => Jos.numlock
  | .scrolllock => Jos.scrolllock

def isKey : Toggle → Key → Bool
  | .capslock, k => !k.extended && k.code = 0x3A
  | .numlock, k => !k.extended && k.code = 0x45
  | .scrolllock, k => !k.extended && k.code = 0x46

/-- How often a key has been pressed. -/
def presses (τ : Toggle) (es : List KeyEvent) : Nat := es.countP fun e => τ.isKey e.key && e.isPress

end Toggle

/-- kbd_proc_data has been called `n` times. -/
def kbdRun (n : Nat) (k : Kbd) : Kbd := (fun k => (kbdProcData k).2)^[n] k

section held

variable {es : List KeyEvent} {e : KeyEvent} {k k' : Key} {P : Key → Bool} {μ : Modifier} {τ : Toggle}

theorem latest_concat : latest P (es ++ [e]) = if P e.key then e.isPress else latest P es :=
  List.foldl_append

theorem down_press_self : Down (es ++ [.press k]) k := by
  rw [Down, latest_concat]
  exact if_pos (decide_eq_true rfl)

theorem down_concat_of_ne (h : e.key ≠ k) : Down (es ++ [e]) k ↔ Down es k := by
  rw [Down, latest_concat, if_neg (by simpa using h), Down]

theorem not_down_release : ¬ Down (es ++ [.release k]) k := by
  rw [Down, latest_concat]
  simp [KeyEvent.key, KeyEvent.isPress]

/-- When the last event was a press, its key is down. -/
theorem exists_down (h : latest P es = true) : ∃ k, P k = true ∧ Down es k := by
  induction es using List.reverseRecOn with
  | nil => cases h
  | append_singleton es e ih =>
    rw [latest_concat] at h
    by_cases hP : P e.key = true
    · rw [if_pos hP] at h
      cases e with
      | press k => exact ⟨k, hP, down_press_self⟩
      | release k => cases h
    · rw [if_neg hP] at h
      obtain ⟨k, hk, hdown⟩ := ih h
      refine ⟨k, hk, (down_concat_of_ne ?_).mpr hdown⟩
      rintro rfl
      exact hP hk

/-- No key of the kind is released while another one is down. -/
def TwinsApart (P : Key → Bool) (es : List KeyEvent) : Prop :=
  ∀ pre k, pre ++ [.release k] <+: es → P k = true → ∀ k', P k' = true → k' ≠ k → ¬ Down pre k'

theorem TwinsApart.init (h : TwinsApart P (es ++ [e])) : TwinsApart P es :=
  fun pre k hpre => h pre k (hpre.trans (List.prefix_append es [e]))

/-- Then the last event of the kind was a press exactly when one of its keys is down. -/
theorem TwinsApart.latest_iff (h : TwinsApart P es) : latest P es = true ↔ ∃ k, P k = true ∧ Down es k := by
  refine ⟨exists_down, ?_⟩
  induction es using List.reverseRecOn with
  | nil =>
    rintro ⟨k, -, hdown⟩
    cases hdown
  | append_singleton es e ih =>
    rintro ⟨k, hk, hdown⟩
    rw [latest_concat]
    cases e with
    | press k' =>
      by_cases hP : P k' = true
      · exact if_pos hP
      · rw [KeyEvent.key, if_neg hP]
        refine ih h.init ⟨k, hk, (down_concat_of_ne ?_).mp hdown⟩
        rintro rfl
        exact hP hk
    | release k' =>
      have hne : k' ≠ k := by
        rintro rfl
        exact not_down_release hdown
      have hbefore := (down_concat_of_ne (e := .release k') hne).mp hdown
      by_cases hP : P k' = true
      · exact absurd hbefore (h es k' (List.prefix_refl _) hP k hk (Ne.symm hne))
      · rw [KeyEvent.key, if_neg hP]
        exact ih h.init ⟨k, hk, hbefore⟩

theorem presses_concat :
    τ.presses (es ++ [e]) = τ.presses es + if τ.isKey e.key && e.isPress then 1 else 0 := by
  rw [Toggle.presses, List.countP_append, List.countP_singleton, Toggle.presses]

end held

/-! What one event does to the state. -/

/-- The index of a key's make code in the tables. -/
def Key.index (k : Key) : Byte := if k.extended then k.code ||| 0x80 else k.code

/-- What an event makes of the state word. -/
def KeyEvent.shifts : KeyEvent → Word → Word
  | press k, w => ((w &&& ~~~e0esc) ||| shiftcode k.index) ^^^ togglecode k.index
  | release k, w => w &&& ~~~(shiftcode k.index ||| e0esc)

section step

variable {k : Key} {e : KeyEvent} {s : Kbd} {rest : List Byte} {w : Word} {i n m : Nat}

theorem kbdRun_add (n m : Nat) (s : Kbd) : kbdRun (n + m) s = kbdRun m (kbdRun n s) := by
  rw [kbdRun, Nat.add_comm, Function.iterate_add_apply]
  rfl

theorem kbdProcData_e0 (h : s.data = 0xE0 :: rest) :
    (kbdProcData s).2 = { s with shift := s.shift ||| e0esc, data := rest } := by
  rw [kbdProcData, h]
  rfl

/-- Make codes are below 0x80 and are not the prefix; with bit 7 set they are neither. -/
theorem Key.code_facts (k : Key) : k.code ≠ 0xE0 ∧ k.code &&& 0x80 = 0 ∧ k.code ||| 0x80 ≠ 0xE0 ∧
    (k.code ||| 0x80) &&& 0x80 ≠ 0 ∧ (k.code ||| 0x80) &&& 0x7F = k.code := by
  have hall : ∀ code : Byte, 1 ≤ code → code ≤ 0x58 → code ≠ 0xE0 ∧ code &&& 0x80 = 0 ∧
      code ||| 0x80 ≠ 0xE0 ∧ (code ||| 0x80) &&& 0x80 ≠ 0 ∧ (code ||| 0x80) &&& 0x7F = code := by
    decide
  exact hall k.code k.make.1 k.make.2

/-- A make code without a prefix. -/
theorem kbdMake_shift (s : Kbd) (data : Byte) : ∃ r, (kbdMake s data).2 =
    ⟨(s.shift ||| shiftcode data) ^^^ togglecode data, s.data, r⟩ := by
  unfold kbdMake
  dsimp only
  split
  · exact ⟨s.reboots + 1, rfl⟩
  · exact ⟨s.reboots, rfl⟩

theorem and_not_self (h : ¬ Has w e0esc) : w &&& ~~~e0esc = w := by
  have hw : w &&& e0esc = 0#32 := not_not.mp h
  ext i hi
  have hbit := congrArg (fun v : Word => v[i]) hw
  simp only [BitVec.getElem_and, BitVec.getElem_zero, BitVec.getElem_not] at hbit ⊢
  revert hbit
  cases w[i] <;> cases e0esc[i] <;> decide

theorem has_or_e0esc : Has (w ||| e0esc) e0esc := by
  intro h
  have hbit := congrArg (fun v : Word => v.getLsbD 6) h
  simp [e0esc] at hbit

/-- The prefix leaves no trace behind the code. -/
theorem KeyEvent.shifts_or_e0esc : e.shifts (w ||| e0esc) = e.shifts w := by
  cases e with
  | press k =>
    have h : (w ||| e0esc) &&& ~~~e0esc = w &&& ~~~e0esc := by
      ext i hi
      simp only [BitVec.getElem_and, BitVec.getElem_or, BitVec.getElem_not]
      cases w[i] <;> cases e0esc[i] <;> rfl
    rw [shifts, shifts, h]
  | release k =>
    ext i hi
    simp only [shifts, BitVec.getElem_and, BitVec.getElem_or, BitVec.getElem_not]
    cases w[i] <;> cases e0esc[i] <;> cases (shiftcode k.index)[i] <;> rfl

/-- The code of an event, behind its prefix if it has one. -/
theorem kbdProcData_code (hdata : s.data = e.lastCode :: rest)
    (hE : Has s.shift e0esc ↔ e.key.extended = true) :
    ∃ r, (kbdProcData s).2 = ⟨e.shifts s.shift, rest, r⟩ := by
  obtain ⟨h1, h2, h3, h4, h5⟩ := e.key.code_facts
  cases e with
  | press k =>
    rw [kbdProcData, hdata]
    dsimp only [KeyEvent.lastCode, KeyEvent.key] at h1 h2 hE ⊢
    rw [if_neg h1, if_neg (not_not.mpr h2)]
    by_cases hext : k.extended = true
    · obtain ⟨r, hr⟩ := kbdMake_shift { s with shift := s.shift &&& ~~~e0esc, data := rest } (k.code ||| 0x80)
      rw [if_pos (hE.mpr hext), hr]
      refine ⟨r, ?_⟩
      rw [KeyEvent.shifts, Key.index, if_pos hext]
    · have hno : ¬ Has s.shift e0esc := fun h => hext (hE.mp h)
      obtain ⟨r, hr⟩ := kbdMake_shift { s with data := rest } k.code
      rw [if_neg hno, hr]
      refine ⟨r, ?_⟩
      rw [KeyEvent.shifts, Key.index, if_neg hext, and_not_self hno]
  | release k =>
    rw [kbdProcData, hdata]
    dsimp only [KeyEvent.lastCode, KeyEvent.key] at h3 h4 h5 hE ⊢
    rw [if_neg h3, if_pos h4]
    refine ⟨s.reboots, ?_⟩
    rw [KeyEvent.shifts, Key.index]
    by_cases hext : k.extended = true
    · rw [if_pos hext, if_pos (hE.mpr hext)]
    · rw [if_neg hext, if_neg (fun h => hext (hE.mp h)), h5]

/-- One event, from a state without a prefix. -/
theorem kbdRun_event (hE : ¬ Has s.shift e0esc) (hdata : s.data = e.codes ++ rest) :
    ∃ r, kbdRun e.codes.length s = ⟨e.shifts s.shift, rest, r⟩ := by
  unfold KeyEvent.codes at hdata ⊢
  by_cases hext : e.key.extended = true
  · rw [if_pos hext] at hdata ⊢
    have hdata' : (Kbd.mk (s.shift ||| e0esc) (e.lastCode :: rest) s.reboots).data = e.lastCode :: rest := rfl
    obtain ⟨r, hr⟩ := kbdProcData_code hdata' ⟨fun _ => hext, fun _ => has_or_e0esc⟩
    rw [KeyEvent.shifts_or_e0esc] at hr
    have hprefix := kbdProcData_e0 (show s.data = 0xE0 :: (e.lastCode :: rest) from hdata)
    refine ⟨r, ?_⟩
    rw [← hr, ← hprefix]
    rfl
  · rw [if_neg hext] at hdata ⊢
    obtain ⟨r, hr⟩ := kbdProcData_code hdata ⟨fun h => absurd h hE, fun h => absurd h hext⟩
    exact ⟨r, hr⟩

end step

/-! The bits of the state word. -/

theorem has_shift_bit {w : Word} {i : Nat} (hi : i < 32) : Has w (1#32 <<< i) ↔ w.getLsbD i = true := by
  refine has_bit hi fun j hj => ?_
  rw [← BitVec.twoPow_eq, BitVec.getLsbD_twoPow, decide_eq_true hi, Bool.true_and]
  exact decide_eq_decide.mpr eq_comm

namespace Modifier

def bit : Modifier → Nat
  | shift => 0
  | ctl => 1
  | alt => 2

theorem mask_eq (μ : Modifier) : μ.mask = 1#32 <<< μ.bit := by
  cases μ <;> rfl

theorem bit_lt (μ : Modifier) : μ.bit < 32 := by
  cases μ <;> decide

end Modifier

namespace Toggle

def bit : Toggle → Nat
  | capslock => 3
  | numlock => 4
  | scrolllock => 5

theorem mask_eq (τ : Toggle) : τ.mask = 1#32 <<< τ.bit := by
  cases τ <;> rfl

theorem bit_lt (τ : Toggle) : τ.bit < 32 := by
  cases τ <;> decide

end Toggle

section bits

variable {k : Key} {e : KeyEvent} {w : Word} {μ : Modifier} {τ : Toggle} {es : List KeyEvent}

/-- What the tables say of a key. -/
theorem Key.shiftcode_bit (k : Key) (μ : Modifier) : (shiftcode k.index).getLsbD μ.bit = μ.isKey k := by
  have hall : ∀ ext : Bool, ∀ c : Byte, 1 ≤ c → c ≤ 0x58 →
      (shiftcode (if ext then c ||| 0x80 else c)).getLsbD 0 = (!ext && (c = 0x2A || c = 0x36)) ∧
      (shiftcode (if ext then c ||| 0x80 else c)).getLsbD 1 = decide (c = 0x1D) ∧
      (shiftcode (if ext then c ||| 0x80 else c)).getLsbD 2 = decide (c = 0x38) := by
    decide
  obtain ⟨h0, h1, h2⟩ := hall k.extended k.code k.make.1 k.make.2
  cases μ with
  | shift => exact h0
  | ctl => exact h1
  | alt => exact h2

theorem Key.togglecode_bit (k : Key) (τ : Toggle) : (togglecode k.index).getLsbD τ.bit = τ.isKey k := by
  have hall : ∀ ext : Bool, ∀ c : Byte, 1 ≤ c → c ≤ 0x58 →
      (togglecode (if ext then c ||| 0x80 else c)).getLsbD 3 = (!ext && c = 0x3A) ∧
      (togglecode (if ext then c ||| 0x80 else c)).getLsbD 4 = (!ext && c = 0x45) ∧
      (togglecode (if ext then c ||| 0x80 else c)).getLsbD 5 = (!ext && c = 0x46) := by
    decide
  obtain ⟨h3, h4, h5⟩ := hall k.extended k.code k.make.1 k.make.2
  cases τ with
  | capslock => exact h3
  | numlock => exact h4
  | scrolllock => exact h5

/-- The two tables have different bits, and neither that of the prefix. -/
theorem table_bits (data : Byte) :
    (∀ μ : Modifier, (togglecode data).getLsbD μ.bit = false) ∧
    (∀ τ : Toggle, (shiftcode data).getLsbD τ.bit = false) ∧
    (shiftcode data).getLsbD 6 = false ∧ (togglecode data).getLsbD 6 = false := by
  have hall : ∀ data : Byte, (togglecode data).getLsbD 0 = false ∧ (togglecode data).getLsbD 1 = false ∧
      (togglecode data).getLsbD 2 = false ∧ (shiftcode data).getLsbD 3 = false ∧
      (shiftcode data).getLsbD 4 = false ∧ (shiftcode data).getLsbD 5 = false ∧
      (shiftcode data).getLsbD 6 = false ∧ (togglecode data).getLsbD 6 = false := by
    decide
  obtain ⟨h0, h1, h2, h3, h4, h5, h6, h7⟩ := hall data
  refine ⟨fun μ => ?_, fun τ => ?_, h6, h7⟩
  · cases μ with
    | shift => exact h0
    | ctl => exact h1
    | alt => exact h2
  · cases τ with
    | capslock => exact h3
    | numlock => exact h4
    | scrolllock => exact h5

theorem e0esc_bit (i : Nat) : e0esc.getLsbD i = decide (i = 6) := by
  by_cases hi : i < 32
  · interval_cases i <;> rfl
  · rw [BitVec.getLsbD_of_ge e0esc i (by omega)]
    exact (decide_eq_false (by omega)).symm

/-- An event sets, or clears, the bit of its kind. -/
theorem KeyEvent.shifts_modifier (e : KeyEvent) (w : Word) (μ : Modifier) :
    (e.shifts w).getLsbD μ.bit = if μ.isKey e.key then e.isPress else w.getLsbD μ.bit := by
  have hbit : μ.bit ≠ 6 := by
    cases μ <;> decide
  have hlt := μ.bit_lt
  cases e with
  | press k =>
    rw [shifts, BitVec.getLsbD_xor, BitVec.getLsbD_or, BitVec.getLsbD_and, BitVec.getLsbD_not, e0esc_bit,
      k.shiftcode_bit, (table_bits k.index).1, decide_eq_true hlt, decide_eq_false hbit, key, isPress]
    cases μ.isKey k <;> simp
  | release k =>
    rw [shifts, BitVec.getLsbD_and, BitVec.getLsbD_not, BitVec.getLsbD_or, e0esc_bit, k.shiftcode_bit,
      decide_eq_true hlt, decide_eq_false hbit, key, isPress]
    cases μ.isKey k <;> simp

/-- A make code of a toggle key flips its bit, nothing else touches it. -/
theorem KeyEvent.shifts_toggle (e : KeyEvent) (w : Word) (τ : Toggle) :
    (e.shifts w).getLsbD τ.bit = Bool.xor (w.getLsbD τ.bit) (τ.isKey e.key && e.isPress) := by
  have hbit : τ.bit ≠ 6 := by
    cases τ <;> decide
  have hlt := τ.bit_lt
  cases e with
  | press k =>
    rw [shifts, BitVec.getLsbD_xor, BitVec.getLsbD_or, BitVec.getLsbD_and, BitVec.getLsbD_not, e0esc_bit,
      k.togglecode_bit, (table_bits k.index).2.1, decide_eq_true hlt, decide_eq_false hbit, key, isPress]
    simp
  | release k =>
    rw [shifts, BitVec.getLsbD_and, BitVec.getLsbD_not, BitVec.getLsbD_or, e0esc_bit,
      (table_bits k.index).2.1, decide_eq_true hlt, decide_eq_false hbit, isPress]
    simp

/-- Behind a whole code, the prefix is forgotten. -/
theorem KeyEvent.shifts_e0esc (e : KeyEvent) (w : Word) : ¬ Has (e.shifts w) e0esc := by
  have h6 : (e.shifts w).getLsbD 6 = false := by
    cases e with
    | press k =>
      rw [shifts, BitVec.getLsbD_xor, BitVec.getLsbD_or, BitVec.getLsbD_and, BitVec.getLsbD_not, e0esc_bit,
        (table_bits k.index).2.2.1, (table_bits k.index).2.2.2]
      simp
    | release k =>
      rw [shifts, BitVec.getLsbD_and, BitVec.getLsbD_not, BitVec.getLsbD_or, e0esc_bit]
      simp
  rw [e0esc, has_shift_bit (by decide), h6]
  exact Bool.false_ne_true

end bits

/-! Whole runs. -/

/-- What the state word says behind a sequence of events. -/
structure KeysSound (es : List KeyEvent) (w : Word) : Prop where
  /-- the latest code of the kind was a make code -/
  modifiers : ∀ μ : Modifier, Has w μ.mask ↔ latest μ.isKey es = true
  /-- then some key of the kind is down -/
  only : ∀ μ : Modifier, Has w μ.mask → ∃ k, μ.isKey k = true ∧ Down es k
  /-- and exactly then, if no key of the kind has been released while the other was down -/
  exact : ∀ μ : Modifier, TwinsApart μ.isKey es → (Has w μ.mask ↔ ∃ k, μ.isKey k = true ∧ Down es k)
  toggles : ∀ τ : Toggle, Has w τ.mask ↔ τ.presses es % 2 = 1
  settled : ¬ Has w e0esc

variable {es : List KeyEvent} {w : Word}

/-- The state word as a function of the events. -/
def shiftAfter (es : List KeyEvent) : Word := es.foldl (fun w e => e.shifts w) 0

theorem shiftAfter_concat {e : KeyEvent} : shiftAfter (es ++ [e]) = e.shifts (shiftAfter es) :=
  List.foldl_append

theorem shiftAfter_settled (es : List KeyEvent) : ¬ Has (shiftAfter es) e0esc := by
  induction es using List.reverseRecOn with
  | nil => decide
  | append_singleton es e ih =>
    rw [shiftAfter_concat]
    exact e.shifts_e0esc _

theorem shiftAfter_modifier (es : List KeyEvent) (μ : Modifier) :
    (shiftAfter es).getLsbD μ.bit = latest μ.isKey es := by
  induction es using List.reverseRecOn with
  | nil => cases μ <;> rfl
  | append_singleton es e ih => rw [shiftAfter_concat, KeyEvent.shifts_modifier, latest_concat, ih]

theorem shiftAfter_toggle (es : List KeyEvent) (τ : Toggle) :
    (shiftAfter es).getLsbD τ.bit = decide (τ.presses es % 2 = 1) := by
  induction es using List.reverseRecOn with
  | nil => cases τ <;> rfl
  | append_singleton es e ih =>
    rw [shiftAfter_concat, KeyEvent.shifts_toggle, presses_concat, ih]
    cases τ.isKey e.key && e.isPress with
    | false => simp
    | true =>
      rcases Nat.mod_two_eq_zero_or_one (τ.presses es) with h | h
      · have hodd : (τ.presses es + 1) % 2 = 1 := by omega
        simp [h, hodd]
      · have heven : (τ.presses es + 1) % 2 = 0 := by omega
        simp [h, heven]

theorem shiftAfter_sound (es : List KeyEvent) : KeysSound es (shiftAfter es) where
  modifiers := fun μ => by rw [μ.mask_eq, has_shift_bit μ.bit_lt, shiftAfter_modifier]
  only := fun μ h => by
    rw [μ.mask_eq, has_shift_bit μ.bit_lt, shiftAfter_modifier] at h
    exact exists_down h
  exact := fun μ h => by rw [μ.mask_eq, has_shift_bit μ.bit_lt, shiftAfter_modifier, h.latest_iff]
  toggles := fun τ => by rw [τ.mask_eq, has_shift_bit τ.bit_lt, shiftAfter_toggle, decide_eq_true_iff]
  settled := shiftAfter_settled es

theorem codes_concat {e : KeyEvent} : codes (es ++ [e]) = codes es ++ e.codes := by
  rw [codes, codes, List.flatMap_append, List.flatMap_singleton]

/-- The codes of all events, read one by one. -/
theorem kbdRun_codes (es : List KeyEvent) (rest : List Byte) :
    ∃ r, kbdRun (codes es).length ⟨0, codes es ++ rest, 0⟩ = ⟨shiftAfter es, rest, r⟩ := by
  induction es using List.reverseRecOn generalizing rest with
  | nil => exact ⟨0, rfl⟩
  | append_singleton es e ih =>
    obtain ⟨r, hr⟩ := ih (e.codes ++ rest)
    rw [codes_concat, List.length_append, kbdRun_add, List.append_assoc, hr, shiftAfter_concat]
    exact kbdRun_event (s := ⟨shiftAfter es, e.codes ++ rest, r⟩) (shiftAfter_settled es) rfl

/-- For every sequence of presses and releases, and whatever codes come next: kbd_proc_data has read
the codes of the sequence, its state is as it should be, and a prefix that comes next is noted and
changes nothing else. -/
theorem kbdRun_keysSound (es : List KeyEvent) (rest : List Byte) :
    ∃ w r, kbdRun (codes es).length ⟨0, codes es ++ rest, 0⟩ = ⟨w, rest, r⟩ ∧ KeysSound es w ∧
      ∀ rest', rest = 0xE0 :: rest' →
        kbdRun ((codes es).length + 1) ⟨0, codes es ++ rest, 0⟩ = ⟨w ||| e0esc, rest', r⟩ := by
  obtain ⟨r, hr⟩ := kbdRun_codes es rest
  refine ⟨shiftAfter es, r, hr, shiftAfter_sound es, ?_⟩
  rintro rest' rfl
  rw [kbdRun_add, hr]
  exact kbdProcData_e0 rfl

def leftShift : Key := ⟨false, 0x2A, by decide⟩

def rightShift : Key := ⟨false, 0x36, by decide⟩

/-- Both shift keys are pressed and one is released: no bit says that the other is still down. -/
theorem not_modifiers_follow :
    KeyRun [.press leftShift, .press rightShift, .release rightShift] ∧
    Modifier.shift.isKey leftShift = true ∧
    Down [.press leftShift, .press rightShift, .release rightShift] leftShift ∧
    codes [.press leftShift, .press rightShift, .release rightShift] = [0x2A, 0x36, 0xB6] ∧
    kbdRun 3 ⟨0, [0x2A, 0x36, 0xB6], 0⟩ = ⟨0, [], 0⟩ ∧ ¬ Has 0 Modifier.shift.mask := by
  refine ⟨?_, rfl, rfl, rfl, rfl, by decide⟩
  have h0 := KeyRun.nil.press leftShift
  have h1 := h0.press rightShift
  exact h1.release (k := rightShift) rfl

end Jos
