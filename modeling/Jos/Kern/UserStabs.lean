import Jos.Kern.Strays
import Jos.Kern.Monitor

/-! debuginfo_eip for a user address (kern/kdebug.c), whose tables are where the record at USTABDATA
says. -/
namespace Jos

open Prog

/-- struct UserStabData. -/
structure UserStabData where
  stabs : Word
  stabEnd : Word
  stabstr : Word
  stabstrEnd : Word
deriving DecidableEq

/-- What a byte is read from: the record, or the tables it points to. -/
inductive Access where
  | record
  | table
deriving DecidableEq

/-- Why a lookup does not return: it reads what it is not allowed to, or the kernel stops. -/
inductive LookupStop where
  | refused (va : Word)
  | kernel (why : Stop)
deriving DecidableEq

/-- A load, where only some accesses are allowed. -/
def lookByte (may : Access → Word → Bool) (a : Access) (va : Word) : Prog LookupStop Kernel Byte := do
  check (.refused va) (may a va = true)
  mapStop .kernel (loadByte va)

/-- A load of `n` bytes, the lowest first. -/
def lookBits (may : Access → Word → Bool) (a : Access) :
    (n : Nat) → Word → Prog LookupStop Kernel (BitVec (8 * n))
  | 0, _ => pure 0#0
  | n + 1, va => do
    let low ← lookByte may a va
    let high ← lookBits may a n (va + 1)
    pure (high ++ low)

/-- `*usd` -/
def userStabData (may : Access → Word → Bool) : Prog LookupStop Kernel UserStabData := do
  let stabs ← lookBits may .record 4 ustabdata
  let stabEnd ← lookBits may .record 4 (ustabdata + 4)
  let stabstr ← lookBits may .record 4 (ustabdata + 8)
  let stabstrEnd ← lookBits may .record 4 (ustabdata + 12)
  pure ⟨stabs, stabEnd, stabstr, stabstrEnd⟩

/-- Where a field lies in a struct Stab, and its size. -/
def Field.offset : Field → Nat
  | .strx => 0
  | .type => 4
  | .desc => 6
  | .value => 8

def Field.size : Field → Nat
  | .strx => 4
  | .type => 1
  | .desc => 2
  | .value => 4

/-- The address of a field of `stabs[m]`. -/
def fieldAddr (stabs : Word) (m : Int) (φ : Field) : Word :=
  stabs + BitVec.ofInt 32 (12 * m + φ.offset)

/-- The tables the record points to; `ptrdiff` makes the number of stabs of the number of bytes. -/
def userTables (may : Access → Word → Bool) (ptrdiff : Word → Word) (u : UserStabData) :
    SymTables LookupStop Kernel where
  spin := .kernel .spin
  nStrx m := lookBits may .table 4 (fieldAddr u.stabs m .strx)
  nType m := lookBits may .table 1 (fieldAddr u.stabs m .type)
  nDesc m := lookBits may .table 2 (fieldAddr u.stabs m .desc)
  nValue m := lookBits may .table 4 (fieldAddr u.stabs m .value)
  count := (ptrdiff (u.stabEnd - u.stabs)).toInt
  char off := lookByte may .table (u.stabstr + off)
  strEmpty := u.stabstrEnd ≤ u.stabstr
  strSize := u.stabstrEnd - u.stabstr

/-- debuginfo_eip, with the kernel's own tables as they are linked in. -/
def debuginfoEip (linked : SymTables LookupStop Kernel) (ptrdiff : Word → Word)
    (may : Access → Word → Bool) (addr : Word) : Prog LookupStop Kernel (Int × Eipdebuginfo) :=
  if ulim ≤ addr then
    debuginfoTables linked addr
  else do
    let u ← userStabData may
    debuginfoTables (userTables may ptrdiff u) addr

/-- The difference of two pointers to stabs, from the number of bytes between them. C defines it
within one array only, of less than 2^31 bytes; otherwise it may be anything. -/
def PtrDiff (ptrdiff : Word → Word) : Prop :=
  ∀ n : Nat, 12 * n < 2 ^ 31 → ptrdiff (BitVec.ofNat 32 (12 * n)) = BitVec.ofNat 32 n

/-! What the user has in memory, and may read of it. -/

namespace Kernel

/-- The byte at an address; zero where nothing is mapped. -/
def peek (s : Kernel) (va : Word) : Byte :=
  match loadByte va s with
  | .ok b _ => b
  | .stop _ _ => 0

def peekBits (s : Kernel) : (n : Nat) → Word → BitVec (8 * n)
  | 0, _ => 0#0
  | n + 1, va => peekBits s n (va + 1) ++ s.peek va

def userStabData (s : Kernel) : UserStabData :=
  ⟨s.peekBits 4 ustabdata, s.peekBits 4 (ustabdata + 4), s.peekBits 4 (ustabdata + 8),
    s.peekBits 4 (ustabdata + 12)⟩

def stabAt (s : Kernel) (stabs : Word) (m : Int) : Stab where
  nStrx := s.peekBits 4 (fieldAddr stabs m .strx)
  nType := s.peekBits 1 (fieldAddr stabs m .type)
  nOther := s.peek (fieldAddr stabs m .type + 1)
  nDesc := s.peekBits 2 (fieldAddr stabs m .desc)
  nValue := s.peekBits 4 (fieldAddr stabs m .value)

/-- user_mem_check lets the current environment read the byte. -/
def accepts (s : Kernel) (va : Word) : Bool :=
  match s.curenv with
  | none => false
  | some e =>
    match userMemCheck e va 1#32 pteU s with
    | .ok r _ => r = 0
    | .stop _ _ => false

end Kernel

/-- Each of the `n` bytes from an address on is accepted. -/
def AllAccepted (s : Kernel) (va : Word) (n : Nat) : Prop :=
  ∀ k < n, s.accepts (va + BitVec.ofNat 32 k) = true

def RecordAccessible (s : Kernel) : Prop := AllAccepted s ustabdata 16

/-- The stab array and the string table are wholly accessible. Going up from the beginning, an end
before it is reached only through the kernel. -/
structure TablesAccessible (s : Kernel) (u : UserStabData) : Prop where
  stabs : AllAccepted s u.stabs (u.stabEnd - u.stabs).toNat
  strings : AllAccepted s u.stabstr (u.stabstrEnd - u.stabstr).toNat

def FieldAccessible (s : Kernel) (u : UserStabData) (p : Int × Field) : Prop :=
  AllAccepted s (fieldAddr u.stabs p.1 p.2) p.2.size

/-- The lookup never trusts user memory: whatever C makes of a pointer difference, it reads only
what user_mem_check accepts, it returns -1 without a single access when the record is not wholly
accessible, and having read only the record when the tables are not. -/
structure NeverTrusts (linked : SymTables LookupStop Kernel) (s : Kernel) (addr : Word) : Prop where
  accepted : ∀ ptrdiff, PtrDiff ptrdiff → ∀ va t,
    debuginfoEip linked ptrdiff (fun _ => s.accepts) addr s ≠ .stop (.refused va) t
  record : ¬ RecordAccessible s → ∀ ptrdiff, PtrDiff ptrdiff →
    ∃ info t, debuginfoEip linked ptrdiff (fun _ _ => false) addr s = .ok (-1, info) t
  tables : RecordAccessible s → ¬ TablesAccessible s s.userStabData → ∀ ptrdiff, PtrDiff ptrdiff →
    ∃ info t, debuginfoEip linked ptrdiff (fun a _ => a = .record) addr s = .ok (-1, info) t

/-- The current environment's address space is loaded, and maps the last page of all, as every
environment's does. -/
structure InUser (s : Kernel) (e d : Nat) : Prop where
  env : s.curenv = some e
  pgdir : (s.envs e).envPgdir = some d
  loaded : s.cr3 = d
  installed : Installed s d
  top : (hwWalk s.mem d 0xFFFFFFFF#32).isSome

variable {s : Kernel} {e d n : Nat} {va addr : Word} {u : UserStabData} {a : Access}
  {may : Access → Word → Bool} {ptrdiff : Word → Word} {linked : SymTables LookupStop Kernel}

theorem InUser.accepts_iff (h : InUser s e d) :
    s.accepts va = true ↔ ∃ t, userMemCheck e va 1#32 pteU s = .ok 0 t := by
  unfold Kernel.accepts
  rw [h.env]
  dsimp only
  cases userMemCheck e va 1#32 pteU s with
  | stop why t =>
    constructor
    · intro h0
      cases h0
    · rintro ⟨t', h0⟩
      cases h0
  | ok r t =>
    constructor
    · intro hr
      obtain rfl := of_decide_eq_true hr
      exact ⟨t, rfl⟩
    · rintro ⟨t', h'⟩
      cases h'
      rfl

/-- The kernel's addresses are not accepted, but for the last byte of all, where the end of the range
wraps around. -/
theorem InUser.not_accepts (h : InUser s e d) (hlim : ulim ≤ va) (hmax : va ≠ 0xFFFFFFFF#32) :
    s.accepts va = false := by
  have hover : ulim < va + 1#32 := by
    bv_omega
  rw [← Bool.not_eq_true, h.accepts_iff, userMemCheck_above s e pteU hover]
  rintro ⟨t, ht⟩
  cases ht

/-- What is accepted is mapped. -/
theorem InUser.mapped (h : InUser s e d) (ha : s.accepts va = true) :
    ∃ b, loadByte va s = .ok b s := by
  rw [loadByte_returns, h.loaded]
  by_cases hlt : va < ulim
  · have hle : va.toNat + (1#32 : Word).toNat ≤ ulim.toNat := hlt
    obtain ⟨t, ht⟩ := h.accepts_iff.mp ha
    rcases userMemCheck_below h.pgdir h.installed hle pteU with ⟨hall, -⟩ | ⟨b, -, -, -, hrun⟩
    · have hpass := hall va ⟨Nat.le_refl _, Nat.lt_succ_self _⟩
      have hpage : (hwWalk s.mem d va).map (·.page) = some _ :=
        hwWalk_page.trans (target_eq_some.mpr ⟨hpass.1, rfl⟩)
      rw [← Option.isSome_map, hpage]
      rfl
    · rw [hrun] at ht
      cases ht
  · by_cases hmax : va = 0xFFFFFFFF#32
    · rw [hmax]
      exact h.top
    · rw [h.not_accepts (BitVec.not_lt.mp hlt) hmax] at ha
      cases ha

/-! Guarded loads. -/

/-- The reason to stop is an access that is not allowed. -/
def IsRefused (why : LookupStop) : Prop := ∃ va, why = .refused va

theorem peek_eq {b : Byte} (h : loadByte va s = .ok b s) : s.peek va = b := by
  unfold Kernel.peek
  rw [h]

theorem lookByte_ok (hmay : may a va = true) (h : ∃ b, loadByte va s = .ok b s) :
    lookByte may a va s = .ok (s.peek va) s := by
  obtain ⟨b, hb⟩ := h
  rw [lookByte, bind_ok (check_true hmay s), peek_eq hb]
  exact mapStop_ok hb

theorem lookByte_refused (hmay : may a va = false) : lookByte may a va s = .stop (.refused va) s := by
  have hcheck : (check (.refused va) (may a va = true) : Prog LookupStop Kernel Unit) s =
      .stop (.refused va) s := by
    rw [check_apply, hmay, if_neg Bool.false_ne_true]
  rw [lookByte, bind_stop hcheck]

/-- The addresses of `n` bytes. -/
def bytesFrom : Nat → Word → List Word
  | 0, _ => []
  | n + 1, va => va :: bytesFrom n (va + 1)

theorem mem_bytesFrom {b : Word} : b ∈ bytesFrom n va ↔ ∃ k < n, b = va + BitVec.ofNat 32 k := by
  induction n generalizing va with
  | zero => exact ⟨fun h => absurd h List.not_mem_nil, fun ⟨k, hk, _⟩ => absurd hk (Nat.not_lt_zero k)⟩
  | succ n ih =>
    have hsucc : ∀ k, va + 1 + BitVec.ofNat 32 k = va + BitVec.ofNat 32 (k + 1) := by
      intro k
      bv_omega
    rw [bytesFrom, List.mem_cons, ih]
    constructor
    · rintro (rfl | ⟨k, hk, rfl⟩)
      · exact ⟨0, Nat.succ_pos n, (BitVec.add_zero _).symm⟩
      · exact ⟨k + 1, Nat.succ_lt_succ hk, hsucc k⟩
    · rintro ⟨k, hk, rfl⟩
      cases k with
      | zero => exact Or.inl (BitVec.add_zero _)
      | succ k => exact Or.inr ⟨k, Nat.lt_of_succ_lt_succ hk, (hsucc k).symm⟩

/-- A load demands that its bytes are allowed, where what is allowed is mapped. -/
theorem lookBits_demands (h : ∀ b ∈ bytesFrom n va, may a b = true → ∃ v, loadByte b s = .ok v s) :
    Demands (fun b => may a b = true) IsRefused s (bytesFrom n va) (lookBits may a n va)
      (· = s.peekBits n va) := by
  induction n generalizing va with
  | zero => exact .of_ok rfl rfl
  | succ n ih =>
    have hlow : Demands (fun b => may a b = true) IsRefused s [va] (lookByte may a va)
        (· = s.peek va) := by
      refine demands_one (fun hmay => lookByte_ok hmay (h va List.mem_cons_self hmay)) fun hmay => ?_
      exact ⟨_, ⟨va, rfl⟩, lookByte_refused (Bool.not_eq_true _ ▸ hmay)⟩
    unfold lookBits
    refine hlow.bind fun low _ hl => ?_
    subst hl
    refine (ih fun b hb => h b (List.mem_cons_of_mem va hb)).bind_ok fun high _ hh => ?_
    subst hh
    exact ⟨_, rfl, rfl⟩

theorem lookBits_ok (h : ∀ k < n, may a (va + BitVec.ofNat 32 k) = true ∧
      ∃ v, loadByte (va + BitVec.ofNat 32 k) s = .ok v s) :
    lookBits may a n va s = .ok (s.peekBits n va) s := by
  have hall : ∀ b ∈ bytesFrom n va, may a b = true ∧ ∃ v, loadByte b s = .ok v s := by
    intro b hb
    obtain ⟨k, hk, rfl⟩ := mem_bytesFrom.mp hb
    exact h k hk
  obtain ⟨w, hw, rfl⟩ := (lookBits_demands fun b hb _ => (hall b hb).2).returns_of_met
    fun b hb => (hall b hb).1
  exact hw

/-- The accepted bytes can be loaded. -/
theorem InUser.lookBits_ok (h : InUser s e d) (hmay : ∀ b, s.accepts b = true → may a b = true)
    (hall : AllAccepted s va n) : lookBits may a n va s = .ok (s.peekBits n va) s :=
  Jos.lookBits_ok fun k hk => ⟨hmay _ (hall k hk), h.mapped (hall k hk)⟩

theorem InUser.lookBits_refused (h : InUser s e d) (hmay : ∀ b, may a b = s.accepts b)
    (hnot : ¬ AllAccepted s va n) : ∃ why, IsRefused why ∧ lookBits may a n va s = .stop why s := by
  refine (lookBits_demands fun b _ hb => h.mapped (hmay b ▸ hb)).stops_of_not fun hmet => hnot ?_
  intro k hk
  rw [← hmay]
  exact hmet _ (mem_bytesFrom.mpr ⟨k, hk, rfl⟩)

/-- The tables' stabs can be read where the user may read them. -/
theorem InUser.answers (h : InUser s e d) (ptrdiff : Word → Word) (u : UserStabData) :
    Answers (userTables (fun _ => s.accepts) ptrdiff u) s (s.stabAt u.stabs) (FieldAccessible s u)
      IsRefused where
  gives := by
    intro i φ hi
    cases φ with
    | strx => exact h.lookBits_ok (fun _ hb => hb) hi
    | type => exact h.lookBits_ok (fun _ hb => hb) hi
    | desc => exact h.lookBits_ok (fun _ hb => hb) hi
    | value => exact h.lookBits_ok (fun _ hb => hb) hi
  refuses := by
    intro i φ hi
    cases φ with
    | strx => exact h.lookBits_refused (fun _ => rfl) hi
    | type => exact h.lookBits_refused (fun _ => rfl) hi
    | desc => exact h.lookBits_refused (fun _ => rfl) hi
    | value => exact h.lookBits_refused (fun _ => rfl) hi

end Jos
