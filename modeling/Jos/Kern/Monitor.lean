import Jos.Library.RangeLoop
import Jos.Kern.EnvTable

/-! The monitor's page commands (kern/monitor.c): showmappings, pgmod, memxv and memxp, each from
its argument strings, and the numbers they read with strtol (lib/string.c). -/
namespace Jos

open Prog

/-! Numbers. A string is the list of its characters, without the final NUL. -/

/-- The value of a digit character, in any base. -/
def digitValue (c : Byte) : Option Word :=
  if 48#8 ≤ c ∧ c ≤ 57#8 then
    some (c.setWidth 32 - 48#32)
  else if 97#8 ≤ c ∧ c ≤ 122#8 then
    some (c.setWidth 32 - 97#32 + 10#32)
  else if 65#8 ≤ c ∧ c ≤ 90#8 then
    some (c.setWidth 32 - 65#32 + 10#32)
  else
    none

def skipBlanks : List Byte → List Byte
  | [] => []
  | c :: s => if c = 32#8 ∨ c = 9#8 then skipBlanks s else c :: s

/-- The digits at the front of a string, after the value read so far; overflow is not detected. -/
def strtolDigits (base : Word) : List Byte → Word → Word × List Byte
  | [], val => (val, [])
  | c :: s, val =>
    match digitValue c with
    | none => (val, c :: s)
    | some dig => if base ≤ dig then (val, c :: s) else strtolDigits base s (val * base + dig)

/-- The base strtol reads in, and the string behind its prefix. -/
def strtolBase (base : Word) (s : List Byte) : Word × List Byte :=
  if (base = 0 ∨ base = 16) ∧ s.take 2 = [48, 120] then
    (16, s.drop 2)
  else if base = 0 ∧ s.take 1 = [48] then
    (8, s.drop 1)
  else if base = 0 then
    (10, s)
  else
    (base, s)

/-- strtol, with the string its end pointer is left at. -/
def strtol (s : List Byte) (base : Word) : Word × List Byte :=
  let s := skipBlanks s
  let neg := s.take 1 = [45]
  let s := if s.take 1 = [43] ∨ neg then s.drop 1 else s
  let (base, s) := strtolBase base s
  let (val, rest) := strtolDigits base s 0
  (if neg then -val else val, rest)

/-! The range commands. -/

/-- What a range command prints: its header line, then what each round of its loop prints, with the
loop variable. Before that it may stop at a message. -/
structure Table (α : Type) where
  header : String
  rows : List (Word × α)

/-- The two bounds of a range command, with the texts printed when the arguments are wrong. -/
def readRange (usage : List String) (argv : List (List Byte)) : Except (List String) (Word × Word) :=
  match argv with
  | [_, loStr] =>
    let (lo, argEnd) := strtol loStr 16
    if argEnd = loStr then
      .error ["Error: First argument must be a hex number.\n"]
    else
      .ok (lo, lo)
  | [_, loStr, hiStr] =>
    let (lo, argEnd) := strtol loStr 16
    if argEnd = loStr then
      .error ["Error: First argument must be a hex number.\n"]
    else
      let (hi, argEnd) := strtol hiStr 16
      if argEnd = hiStr then
        .error ["Error: Argument <high_addr> must be a hex number.\n"]
      else if hi < lo then
        .error ["Error: Argument <high_addr> must be greater than <low_addr>\n"]
      else
        .ok (lo, hi)
  | _ => .error usage

/-- A round of a range command changes nothing, so a loop whose variable has gone round all words
never ends. -/
def rangeFuel : Nat := 2 ^ 32 + 1

/-- A range command: its arguments, then one row for each value of the loop variable. -/
def rangeCommand {α : Type} (usage : List String) (header : String) (start : Word → Word)
    (step : Word) (row : Word → Kern α) (argv : List (List Byte)) :
    Kern (Except (List String) (Table α)) :=
  match readRange usage argv with
  | .error msg => pure (.error msg)
  | .ok (lo, hi) => do
    let rows ← rangeLoop .spin hi step row rangeFuel (start lo)
    pure (.ok ⟨header, rows⟩)

/-- A line of showmappings. -/
inductive Mapping where
  | noTable
  | noPage
  | page (pa : Word) (user write : Bool)
deriving DecidableEq

def monShowmappingsEntry (va : Word) : Kern Mapping := do
  let s ← read
  match ← pgdirWalk s.kernPgdir va false with
  | none => pure .noTable
  | some pgtableEntry =>
    let s ← read
    let paWflags := s.mem pgtableEntry.page pgtableEntry.idx
    if Has paWflags pteP then
      pure (.page (pteAddr paWflags) (Has paWflags pteU) (Has paWflags pteW))
    else
      pure .noPage

def showmappingsUsage : List String :=
  ["Show virtual memory mappings.\n", "Remember that the arguments are virtual addresses, ",
    "not virtual page numbers.\n\n", "Usage:\n", "showmappings <addr>\n",
    "showmappings <low_addr> <high_addr>\n"]

def monShowmappings : List (List Byte) → Kern (Except (List String) (Table Mapping)) :=
  rangeCommand showmappingsUsage "VA          PA          PERMS\n" (roundDown · pgsize) pgsize
    monShowmappingsEntry

/-- Load the four bytes at an address, aligned or not, through the directory in cr3. -/
def loadLong (va : Word) : Kern Word := do
  let b0 ← loadByte va
  let b1 ← loadByte (va + 1)
  let b2 ← loadByte (va + 2)
  let b3 ← loadByte (va + 3)
  pure (b3 ++ b2 ++ b1 ++ b0)

/-- A round of memxv: the word at the address, or dashes where page_lookup finds nothing. -/
def monMemxvEntry (va : Word) : Kern (Option Word) := do
  let s ← read
  match ← pageLookup s.kernPgdir va with
  | (some _, _) => do
    let w ← loadLong va
    pure (some w)
  | (none, _) => pure none

def memxvUsage : List String :=
  ["Examine a range of virtual memory.\n\n", "Usage:\n", "memxv <addr>\n",
    "memxv <low_addr> <high_addr>\n"]

def monMemxv : List (List Byte) → Kern (Except (List String) (Table (Option Word))) :=
  rangeCommand memxvUsage "VA          VALUE\n" id 4 monMemxvEntry

/-- A round of memxp: the word at the address, or `none` for "Address out of range." -/
def monMemxpEntry (pa : Word) : Kern (Option Word) := do
  let s ← read
  if pgnum pa < s.npages then do
    let _ ← kaddr pa
    let w ← loadLong (pa + kernbase)
    pure (some w)
  else
    pure none

def memxpUsage : List String :=
  ["Examine a range of physical memory.\n\n", "Usage:\n", "memxv <addr>\n",
    "memxv <low_addr> <high_addr>\n"]

def monMemxp : List (List Byte) → Kern (Except (List String) (Table (Option Word))) :=
  rangeCommand memxpUsage "PA          VALUE\n" id 4 monMemxpEntry

/-! When a round of each command returns. -/

/-- KADDR accepts the address of the page table, if there is one. -/
def TableInRam (s : Kernel) (va : Word) : Prop :=
  ∀ t, target (s.pde s.kernPgdir (pdx va)) = some t → t < s.npages

/-- The four bytes at the address are mapped by the loaded directory. -/
def LongMapped (s : Kernel) (va : Word) : Prop :=
  ∀ k < 4, (hwWalk s.mem s.cr3 (va + BitVec.ofNat 32 k)).isSome

/-- The page the kernel's directory maps at the address, if any, has a PageInfo, and the word can
be loaded. -/
def MemxvSafe (s : Kernel) (va : Word) : Prop :=
  TableInRam s va ∧ ∀ p, target (s.entryOf s.kernPgdir va) = some p → p < s.npages ∧ LongMapped s va

def MemxpSafe (s : Kernel) (pa : Word) : Prop := pgnum pa < s.npages → LongMapped s (pa + kernbase)

variable {s t : Kernel} {va pa lo hi : Word} {argv : List (List Byte)} {usage : List String} {d : Nat}

/-- pgdir_walk without creation returns unless KADDR rejects the page table. -/
theorem pgdirWalk_returns :
    (∃ o, pgdirWalk d va false s = .ok o s) ↔ ∀ t, target (s.pde d (pdx va)) = some t → t < s.npages := by
  cases h : target (s.pde d (pdx va)) with
  | none => exact ⟨fun _ t ht => (by cases ht), fun _ => ⟨none, pgdirWalk_absent h⟩⟩
  | some t =>
    constructor
    · rintro ⟨o, ho⟩ t' ht'
      obtain rfl := Option.some.inj ht'
      obtain ⟨hP, rfl⟩ := target_eq_some.mp h
      rw [Kernel.pde] at hP
      rw [pgdirWalk, bind_ok (read_apply s), Prog.ite_apply, if_pos hP] at ho
      obtain ⟨tbl, _, hk, -⟩ := bind_eq_ok.mp ho
      have hlt := (kaddr_eq_ok.mp hk).1
      rwa [pgnum_pteAddr] at hlt
    · intro hlt
      exact ⟨_, pgdirWalk_present h (hlt t rfl)⟩

/-- page_lookup returns unless KADDR rejects the page table or pa2page the page. -/
theorem pageLookup_returns :
    (∃ o, pageLookup d va s = .ok o s) ↔ (∀ t, target (s.pde d (pdx va)) = some t → t < s.npages) ∧
      ∀ p, target (s.entryOf d va) = some p → p < s.npages := by
  unfold Kernel.entryOf
  constructor
  · rintro ⟨o, ho⟩
    have ho' := ho
    rw [pageLookup] at ho'
    obtain ⟨r, u, hwalk, hrest⟩ := bind_eq_ok.mp ho'
    obtain rfl := pgdirWalk_observes d va s r u hwalk
    have htable := pgdirWalk_returns.mp ⟨r, hwalk⟩
    refine ⟨htable, fun p hp => ?_⟩
    cases ht : target (u.pde d (pdx va)) with
    | none => simp [Kernel.pte_of_no_table ht] at hp
    | some t =>
      rw [pgdirWalk_present ht (htable t ht)] at hwalk
      obtain rfl := (Outcome.ok.inj hwalk).1
      rw [Kernel.pte_of_target ht] at hp
      obtain ⟨hP, rfl⟩ := target_eq_some.mp hp
      simp only [bind_ok (read_apply u), hP, if_true] at hrest
      obtain ⟨pp, _, hpp, -⟩ := bind_eq_ok.mp hrest
      have hlt := (pa2page_eq_ok.mp hpp).1
      rwa [pgnum_pteAddr] at hlt
  · rintro ⟨htable, hpage⟩
    cases ht : target (s.pde d (pdx va)) with
    | none => exact ⟨_, pageLookup_noTable ht⟩
    | some t =>
      rw [Kernel.pte_of_target ht] at hpage
      cases hp : target (s.mem t (ptx va)) with
      | none => exact ⟨_, pageLookup_unmapped ht (htable t ht) hp⟩
      | some p => exact ⟨_, pageLookup_mapped ht (htable t ht) hp (hpage p hp)⟩

theorem loadByte_returns : (∃ b, loadByte va s = .ok b s) ↔ (hwWalk s.mem s.cr3 va).isSome := by
  simp only [loadByte, bind_ok (read_apply s)]
  cases hwWalk s.mem s.cr3 va with
  | none => simp [stop_apply]
  | some x => simp [pure_apply]

theorem loadLong_observes (va : Word) : Observes (loadLong va) :=
  (loadByte_observes _).bind fun _ => (loadByte_observes _).bind fun _ =>
    (loadByte_observes _).bind fun _ => (loadByte_observes _).bind fun _ => observes_pure _

theorem loadLong_returns : (∃ w, loadLong va s = .ok w s) ↔ LongMapped s va := by
  constructor
  · rintro ⟨w, hw⟩
    rw [loadLong] at hw
    obtain ⟨b0, s0, h0, hw⟩ := bind_eq_ok.mp hw
    obtain rfl := loadByte_observes _ _ _ _ h0
    obtain ⟨b1, s1, h1, hw⟩ := bind_eq_ok.mp hw
    obtain rfl := loadByte_observes _ _ _ _ h1
    obtain ⟨b2, s2, h2, hw⟩ := bind_eq_ok.mp hw
    obtain rfl := loadByte_observes _ _ _ _ h2
    obtain ⟨b3, s3, h3, -⟩ := bind_eq_ok.mp hw
    obtain rfl := loadByte_observes _ _ _ _ h3
    intro k hk
    interval_cases k
    · simpa using loadByte_returns.mp ⟨b0, h0⟩
    · exact loadByte_returns.mp ⟨b1, h1⟩
    · exact loadByte_returns.mp ⟨b2, h2⟩
    · exact loadByte_returns.mp ⟨b3, h3⟩
  · intro h
    obtain ⟨b0, h0⟩ : ∃ b, loadByte va s = .ok b s := loadByte_returns.mpr (by simpa using h 0 (by omega))
    obtain ⟨b1, h1⟩ : ∃ b, loadByte (va + 1) s = .ok b s := loadByte_returns.mpr (h 1 (by omega))
    obtain ⟨b2, h2⟩ : ∃ b, loadByte (va + 2) s = .ok b s := loadByte_returns.mpr (h 2 (by omega))
    obtain ⟨b3, h3⟩ : ∃ b, loadByte (va + 3) s = .ok b s := loadByte_returns.mpr (h 3 (by omega))
    refine ⟨b3 ++ b2 ++ b1 ++ b0, ?_⟩
    rw [loadLong, bind_ok h0, bind_ok h1, bind_ok h2, bind_ok h3]
    rfl

theorem monShowmappingsEntry_observes (va : Word) : Observes (monShowmappingsEntry va) := by
  refine observes_read.bind fun s => (pgdirWalk_observes _ _).bind fun o => ?_
  cases o with
  | none => exact observes_pure _
  | some r => exact observes_read.bind fun t => observes_ite (observes_pure _) (observes_pure _)

theorem monShowmappingsEntry_returns :
    (∃ r, monShowmappingsEntry va s = .ok r s) ↔ TableInRam s va := by
  unfold TableInRam
  rw [← pgdirWalk_returns]
  constructor
  · rintro ⟨r, hr⟩
    rw [monShowmappingsEntry, bind_ok (read_apply s)] at hr
    obtain ⟨o, u, hwalk, -⟩ := bind_eq_ok.mp hr
    obtain rfl := pgdirWalk_observes _ _ _ _ _ hwalk
    exact ⟨o, hwalk⟩
  · rintro ⟨o, hwalk⟩
    rw [monShowmappingsEntry, bind_ok (read_apply s), bind_ok hwalk]
    cases o with
    | none => exact ⟨_, rfl⟩
    | some r =>
      simp only [bind_ok (read_apply s), Prog.ite_apply, pure_apply]
      split <;> exact ⟨_, rfl⟩

theorem monMemxvEntry_observes (va : Word) : Observes (monMemxvEntry va) := by
  refine observes_read.bind fun s => (pageLookup_observes _ _).bind fun o => ?_
  rcases o with ⟨_ | p, r⟩
  · exact observes_pure _
  · exact (loadLong_observes va).bind fun _ => observes_pure _

theorem monMemxvEntry_returns : (∃ r, monMemxvEntry va s = .ok r s) ↔ MemxvSafe s va := by
  have hlook : (∃ o, pageLookup s.kernPgdir va s = .ok o s) ↔ TableInRam s va ∧
      ∀ p, target (s.entryOf s.kernPgdir va) = some p → p < s.npages := pageLookup_returns
  constructor
  · rintro ⟨w, hw⟩
    rw [monMemxvEntry, bind_ok (read_apply s)] at hw
    obtain ⟨⟨o, r⟩, u, hrun, hw⟩ := bind_eq_ok.mp hw
    obtain rfl := pageLookup_observes _ _ _ _ _ hrun
    obtain ⟨htable, hpage⟩ := hlook.mp ⟨_, hrun⟩
    refine ⟨htable, fun p hp => ⟨hpage p hp, ?_⟩⟩
    obtain rfl : o = some p := (pageLookup_agrees hrun).2.1.trans hp
    obtain ⟨l, v, hl, -⟩ := bind_eq_ok.mp hw
    obtain rfl := loadLong_observes _ _ _ _ hl
    exact loadLong_returns.mp ⟨l, hl⟩
  · rintro ⟨htable, hpage⟩
    obtain ⟨⟨o, r⟩, hrun⟩ := hlook.mpr ⟨htable, fun p hp => (hpage p hp).1⟩
    rw [monMemxvEntry, bind_ok (read_apply s), bind_ok hrun]
    cases o with
    | none => exact ⟨_, rfl⟩
    | some p =>
      obtain ⟨w, hw⟩ := loadLong_returns.mpr (hpage p (pageLookup_agrees hrun).2.1.symm).2
      exact ⟨some w, by simp only [bind_ok hw, pure_apply]⟩

theorem monMemxpEntry_observes (pa : Word) : Observes (monMemxpEntry pa) :=
  observes_read.bind fun _ => observes_ite
    ((kaddr_observes _).bind fun _ => (loadLong_observes _).bind fun _ => observes_pure _)
    (observes_pure _)

theorem monMemxpEntry_returns : (∃ r, monMemxpEntry pa s = .ok r s) ↔ MemxpSafe s pa := by
  unfold MemxpSafe
  rw [monMemxpEntry, bind_ok (read_apply s), Prog.ite_apply, ← loadLong_returns]
  by_cases h : pgnum pa < s.npages
  · rw [if_pos h, bind_ok (kaddr_ok h)]
    constructor
    · rintro ⟨r, hr⟩ -
      obtain ⟨w, u, hw, -⟩ := bind_eq_ok.mp hr
      obtain rfl := loadLong_observes _ _ _ _ hw
      exact ⟨w, hw⟩
    · intro hload
      obtain ⟨w, hw⟩ := hload h
      exact ⟨some w, bind_ok hw⟩
  · rw [if_neg h]
    exact ⟨fun _ hlt => absurd hlt h, fun _ => ⟨none, rfl⟩⟩

end Jos
