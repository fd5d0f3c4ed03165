import Jos.Kern.EnvInit
import Jos.Kern.SyscallAbi

/-! trap_init (kern/trap.c): the gates of the IDT, and where the processor goes from user mode. -/
namespace Jos

open BitFields

/-- trap_init's loop over the first `n` vectors. -/
def gateLoop (handlers : Nat → Word) (idt : Nat → Gatedesc) : Nat → Nat → Gatedesc
  | 0 => idt
  | n + 1 => Function.update (gateLoop handlers idt n) n (setgate true gdKt (handlers n) 0)

/-- ltr of a task state segment that is not busy; it is then. -/
def ltr (sel : BitVec 16) (t : Tables) : Option Tables := do
  let d ← t.lookup sel
  if d.s = 0 ∧ d.type = stsT32a ∧ d.p = 1 then
    let i := sel.toNat / 8
    some { t with tr := some d, gdt := Function.update t.gdt i { t.gdt i with sdType := 0xB } }
  else
    none

/-- sizeof(struct Taskstate) - 1. -/
def tsLimit : Word := 103#32

/-- The TSS slot of the GDT. -/
def tssDesc (tsVa : Word) : Segdesc := { seg16 stsT32a tsVa tsLimit 0 with sdS := 0 }

/-- lidt(&idt_pd). -/
def lidt (t : Tables) : Tables := { t with idtr := some 2047#16 }

/-- trap_init_percpu, with the address of `ts`. -/
def trapInitPercpu (tsVa : Word) (t : Tables) : Option Tables := do
  let t ← ltr gdTss0 { t with
    ts := Function.update t.ts tsVa ⟨kstacktop, gdKd⟩
    gdt := Function.update t.gdt 5 (tssDesc tsVa) }
  some (lidt t)

/-- trap_init, with the words of trap_handlers. -/
def trapInit (handlers : Nat → Word) (tsVa : Word) (t : Tables) : Option Tables :=
  let idt := gateLoop handlers t.idt 49
  let idt := Function.update idt 3 (setgate true gdKt (handlers 3) 3)
  let idt := Function.update idt 48 (setgate true gdKt (handlers 48) 3)
  trapInitPercpu tsVa { t with idt := idt }

/-- What becomes of the tables on the way from boot.S to the end of trap_init. -/
def startTables (handlers : Nat → Word) (tsVa : Word) (real : Segs) : Option Tables := do
  let t ← protcseg (imageTables real)
  let t ← envInitPercpu t
  trapInit handlers tsVa t

/-- The words of trap_handlers (kern/trapentry.S), given where the assembler put each handler. -/
def handlerWord (addr : TrapHandler → Word) (v : Nat) : Word :=
  match trapHandlers.getD v none with
  | none => 0
  | some h => addr h

namespace Tables

variable (t : Tables)

/-- The processor's checks of the gate for vector `v`, in user mode; `soft` for the instructions that
ask for a vector. The vector and error code of the exception otherwise. -/
def gate (soft : Bool) (v : Nat) : Except (Nat × Word) GateView :=
  let g := readGate (pack (t.idt v).fields)
  let err := BitVec.ofNat 32 (8 * v + 2)
  if (∀ limit ∈ t.idtr, limit.toNat < 8 * v + 7) ∨ g.s ≠ 0 ∨ g.type ∉ [0x5#4, 0x6#4, 0x7#4, 0xE#4, 0xF#4] then
    .error (13, err)
  else if soft ∧ g.dpl.toNat < 3 then
    .error (13, err)
  else if g.p = 0 then
    .error (11, err)
  else
    .ok g

/-- Where the processor goes on. -/
structure Entry where
  vector : Nat
  err : Word
  cs : BitVec 16
  eip : Word
  ss : BitVec 16
  esp : Word
  /-- The interrupt flag stays as it is. -/
  isTrap : Bool
deriving DecidableEq

/-- Through the gate into ring 0, on the stack the task state names. -/
def toRing0 (v : Nat) (err : Word) (g : GateView) : Option Entry := do
  let code ← t.lookup g.sel
  let tss ← t.tr
  let stack := t.ts tss.base
  let data ← t.lookup stack.tsSs0
  if code.s = 1 ∧ code.type &&& 0xC#4 = 0x8#4 ∧ code.dpl = 0 ∧ code.p = 1 ∧ g.off ≤ code.limit ∧
      9#32 ≤ tss.limit ∧ data.s = 1 ∧ data.type &&& 0xA#4 = 0x2#4 ∧ data.dpl = 0 ∧ data.p = 1 ∧
      stack.tsSs0 &&& 3 = 0 then
    some ⟨v, err, g.sel, g.off, stack.tsSs0, stack.tsEsp0, g.type = stsTg32⟩
  else
    none

end Tables

/-- What takes a user program into the kernel: an exception, or `int n`. -/
inductive Event where
  | exception (v : Nat) (err : Word)
  | software (n : BitVec 8)

/-- The processor's way from user mode. `none` when it meets a second exception on it. -/
def Tables.take (t : Tables) : Event → Option Tables.Entry
  | .exception v err =>
    match t.gate false v with
    | .ok g => t.toRing0 v err g
    | .error _ => none
  | .software n =>
    match t.gate true n.toNat with
    | .ok g => t.toRing0 n.toNat 0 g
    | .error (v, err) =>
      match t.gate false v with
      | .ok g => t.toRing0 v err g
      | .error _ => none

namespace Event

/-- Any exception that the processor raises, with its error code if it has one; any `int`. -/
def FromUser : Event → Prop
  | exception v err => v ∈ userVectors ∧ v ≠ 48 ∧ (pushesError v = false → err = 0)
  | software _ => True

/-- Two gates are open to `int`; the others raise a general protection fault. -/
def vector : Event → Nat
  | exception v _ => v
  | software n => if n = 3 ∨ n = 48 then n.toNat else 13

def err : Event → Word
  | exception _ err => err
  | software n => if n = 3 ∨ n = 48 then 0 else BitVec.ofNat 32 (8 * n.toNat + 2)

end Event

section gates

variable {handlers : Nat → Word} {idt : Nat → Gatedesc} {tsVa : Word} {n v : Nat} {addr : TrapHandler → Word}

theorem gateLoop_eq (n v : Nat) : gateLoop handlers idt n v =
    if v < n then setgate true gdKt (handlers v) 0 else idt v := by
  induction n with
  | zero => rfl
  | succ n ih =>
    rw [gateLoop]
    by_cases hv : v = n
    · rw [hv, Function.update_self, if_pos (Nat.lt_succ_self n)]
    · rw [Function.update_of_ne hv, ih]
      simp only [show v < n + 1 ↔ v < n by omega]

/-- The gates of trap_init. -/
def initGate (handlers : Nat → Word) (v : Nat) : Gatedesc :=
  if v < 49 then setgate true gdKt (handlers v) (if v = 3 ∨ v = 48 then 3 else 0) else emptyGate

/-- The tables trap_init leaves. -/
def initTables (handlers : Nat → Word) (tsVa : Word) : Tables where
  gdt := Function.update kernGdt 5 { tssDesc tsVa with sdType := 0xB }
  idt := initGate handlers
  ts := Function.update (fun _ => ⟨0, 0⟩) tsVa ⟨kstacktop, gdKd⟩
  gdtr := (.kernel, 47#16)
  idtr := some 2047#16
  tr := some ⟨tsVa, tsLimit, stsT32a, 0, 0, 1⟩
  segs := kernSegs

theorem trapInit_idt : Function.update (Function.update (gateLoop handlers (fun _ => emptyGate) 49) 3
    (setgate true gdKt (handlers 3) 3)) 48 (setgate true gdKt (handlers 48) 3) = initGate handlers := by
  funext v
  by_cases h48 : v = 48
  · rw [h48, Function.update_self]
    rfl
  rw [Function.update_of_ne h48]
  by_cases h3 : v = 3
  · rw [h3, Function.update_self]
    rfl
  rw [Function.update_of_ne h3, gateLoop_eq]
  simp [initGate, h3, h48]

theorem readSegment_tssDesc : readSegment (pack (tssDesc tsVa).fields) = ⟨tsVa, tsLimit, stsT32a, 0, 0, 1⟩ :=
  readSegment_seg16 0 (by decide)

theorem ltr_tss {t : Tables} (hg : t.gdtr = (.kernel, 47#16)) (h : t.gdt 5 = tssDesc tsVa) :
    ltr gdTss0 t = some { t with
      tr := some ⟨tsVa, tsLimit, stsT32a, 0, 0, 1⟩
      gdt := Function.update t.gdt 5 { tssDesc tsVa with sdType := 0xB } } := by
  have hlook : t.lookup gdTss0 = some ⟨tsVa, tsLimit, stsT32a, 0, 0, 1⟩ := by
    rw [Tables.lookup, hg, if_pos (by decide), ← readSegment_tssDesc, ← h, Tables.gdtEntry, hg]
    rfl
  rw [ltr, hlook, Option.bind_eq_bind, Option.bind_some, if_pos ⟨rfl, rfl, rfl⟩, ← h]
  rfl

theorem trapInitPercpu_eq {t : Tables} (hg : t.gdtr = (.kernel, 47#16)) :
    trapInitPercpu tsVa t = some { t with
      ts := Function.update t.ts tsVa ⟨kstacktop, gdKd⟩
      idtr := some 2047#16
      tr := some ⟨tsVa, tsLimit, stsT32a, 0, 0, 1⟩
      gdt := Function.update t.gdt 5 { tssDesc tsVa with sdType := 0xB } } := by
  have hself : Function.update t.gdt 5 (tssDesc tsVa) 5 = tssDesc tsVa := Function.update_self ..
  have hltr := ltr_tss (t := { t with
    ts := Function.update t.ts tsVa ⟨kstacktop, gdKd⟩
    gdt := Function.update t.gdt 5 (tssDesc tsVa) }) hg hself
  rw [trapInitPercpu, hltr, Function.update_idem]
  rfl

/-- trap_init, from the tables env_init_percpu leaves. -/
theorem trapInit_eq (real : Segs) :
    trapInit handlers tsVa { imageTables real with gdtr := (.kernel, 47#16), segs := kernSegs } =
      some (initTables handlers tsVa) := by
  refine (trapInitPercpu_eq rfl).trans ?_
  rw [initTables, ← trapInit_idt]
  rfl

theorem startTables_eq (real : Segs) : startTables handlers tsVa real = some (initTables handlers tsVa) := by
  rw [startTables, protcseg_eq]
  refine Eq.trans ?_ (trapInit_eq real)
  exact congrArg (· >>= trapInit handlers tsVa) (envInitPercpu_eq rfl)

end gates

section take

variable {handlers : Nat → Word} {tsVa err : Word} {v : Nat} {addr : TrapHandler → Word} {ev : Event}

/-- A gate that is there lets an exception through, and `int` as well if it is open to the user. -/
theorem gate_ok (soft : Bool) (hv : v < 49) (hs : soft = true → v = 3 ∨ v = 48) :
    (initTables handlers tsVa).gate soft v =
    .ok ⟨gdKt, handlers v, stsTg32, 0, if v = 3 ∨ v = 48 then 3 else 0, 1⟩ := by
  have hread : readGate (pack ((initTables handlers tsVa).idt v).fields) =
      ⟨gdKt, handlers v, stsTg32, 0, if v = 3 ∨ v = 48 then 3 else 0, 1⟩ := by
    change readGate (pack (initGate handlers v).fields) = _
    rw [initGate, if_pos hv, readGate_setgate]
    rfl
  have hgate : ¬ ((∀ limit ∈ (initTables handlers tsVa).idtr, limit.toNat < 8 * v + 7) ∨ (0 : BitVec 1) ≠ 0 ∨
      stsTg32 ∉ [0x5#4, 0x6#4, 0x7#4, 0xE#4, 0xF#4]) := by
    simp [initTables, stsTg32]
    omega
  have hopen : ¬ (soft = true ∧ (if v = 3 ∨ v = 48 then (3 : BitVec 2) else 0).toNat < 3) := by
    rintro ⟨h1, h2⟩
    rw [if_pos (hs h1)] at h2
    exact absurd h2 (by decide)
  rw [Tables.gate, hread]
  simp only
  rw [if_neg hgate, if_neg hopen, if_neg (by decide)]

/-- Every other gate turns `int` away. -/
theorem gate_closed (h3 : ¬ (v = 3 ∨ v = 48)) :
    (initTables handlers tsVa).gate true v = .error (13, BitVec.ofNat 32 (8 * v + 2)) := by
  rw [Tables.gate]
  by_cases h49 : v < 49
  · have hread : readGate (pack ((initTables handlers tsVa).idt v).fields) =
        ⟨gdKt, handlers v, stsTg32, 0, 0, 1⟩ := by
      change readGate (pack (initGate handlers v).fields) = _
      rw [initGate, if_pos h49, if_neg h3, readGate_setgate]
      rfl
    simp only [hread]
    split
    · rfl
    · rw [if_pos ⟨trivial, by decide⟩]
  · have hread : (initTables handlers tsVa).idt v = emptyGate := if_neg h49
    simp only [hread]
    rw [if_pos (Or.inr (Or.inr (by decide)))]

/-- The segments the kernel uses, and those it gives to the user. -/
theorem lookup_gdt {sel : BitVec 16} {type : BitVec 4} {dpl : BitVec 2} (hti : sel.toNat / 4 % 2 = 0)
    (hi : sel.toNat / 8 < 5) (hseg : kernGdt (sel.toNat / 8) = seg type 0 0xffffffff#32 dpl) :
    (initTables handlers tsVa).lookup sel = some (flatSeg type dpl) :=
  lookup_kernel rfl hti (by omega) ((Function.update_of_ne (by omega) _ _).trans hseg)

theorem toRing0_eq (v : Nat) (err off : Word) (dpl : BitVec 2) :
    (initTables handlers tsVa).toRing0 v err ⟨gdKt, off, stsTg32, 0, dpl, 1⟩ =
      some ⟨v, err, gdKt, off, gdKd, kstacktop, true⟩ := by
  have hcode : (initTables handlers tsVa).lookup gdKt = some (flatSeg 0xA#4 0) :=
    lookup_gdt (by decide) (by decide) rfl
  have hdata : (initTables handlers tsVa).lookup gdKd = some (flatSeg 0x2#4 0) :=
    lookup_gdt (by decide) (by decide) rfl
  have htr : (initTables handlers tsVa).tr = some ⟨tsVa, tsLimit, stsT32a, 0, 0, 1⟩ := rfl
  have hts : (initTables handlers tsVa).ts tsVa = ⟨kstacktop, gdKd⟩ := by simp [initTables]
  have hoff : off ≤ 0xffffffff#32 := by
    rw [BitVec.le_def]
    have := off.isLt
    change _ ≤ 2 ^ 32 - 1
    omega
  simp only [Tables.toRing0, hcode, htr, hts, hdata, Option.bind_eq_bind, Option.bind_some]
  rw [if_pos ⟨rfl, by decide, rfl, rfl, hoff, by decide, rfl, by decide, rfl, rfl, by decide⟩]
  rfl

section events

variable {t : Tables} {g : GateView} {n : BitVec 8}

theorem take_exception (h : t.gate false v = .ok g) : t.take (.exception v err) = t.toRing0 v err g := by
  unfold Tables.take
  simp only [h]

theorem take_software (h : t.gate true n.toNat = .ok g) : t.take (.software n) = t.toRing0 n.toNat 0 g := by
  unfold Tables.take
  simp only [h]

/-- An `int` that is turned away takes the gate of the exception. -/
theorem take_denied (h : t.gate true n.toNat = .error (v, err)) (hg : t.gate false v = .ok g) :
    t.take (.software n) = t.toRing0 v err g := by
  unfold Tables.take
  simp only [h, hg]

end events

/-- Where every event of a user program arrives. -/
theorem take_eq (hev : ev.FromUser) : (initTables handlers tsVa).take ev =
    some ⟨ev.vector, ev.err, gdKt, handlers ev.vector, gdKd, kstacktop, true⟩ := by
  cases ev with
  | exception v err =>
    have hv : v < 49 := by
      have hall : ∀ x ∈ userVectors, x < 49 := by decide
      exact hall v hev.1
    rw [take_exception (gate_ok false hv (by simp)), toRing0_eq, Event.vector, Event.err]
  | software n =>
    by_cases hn : n = 3 ∨ n = 48
    · have hn' : n.toNat = 3 ∨ n.toNat = 48 := hn.imp (congrArg BitVec.toNat) (congrArg BitVec.toNat)
      have hlt : n.toNat < 49 := by omega
      rw [take_software (gate_ok true hlt fun _ => hn'), toRing0_eq, Event.vector, Event.err, if_pos hn,
        if_pos hn]
    · have hn' : ¬ (n.toNat = 3 ∨ n.toNat = 48) := by
        rintro (h | h)
        · exact hn (.inl (BitVec.eq_of_toNat_eq h))
        · exact hn (.inr (BitVec.eq_of_toNat_eq h))
      have h13 : 13 < 49 := by decide
      rw [take_denied (gate_closed hn') (gate_ok false h13 (by simp)), toRing0_eq, Event.vector, Event.err,
        if_neg hn, if_neg hn]

theorem FromUser.vector_mem (h : ev.FromUser) : ev.vector ∈ userVectors := by
  cases ev with
  | exception v err => exact h.1
  | software n =>
    by_cases hn : n = 3 ∨ n = 48
    · rcases hn with rfl | rfl <;> decide
    · rw [Event.vector, if_neg hn]
      decide

/-- The error code is zero where the processor pushes none. -/
theorem FromUser.err_eq (h : ev.FromUser) : (if pushesError ev.vector then ev.err else 0#32) = ev.err := by
  cases ev with
  | exception v err =>
    cases hp : pushesError v with
    | false => simp [Event.vector, Event.err, hp, h.2.2 hp]
    | true => simp [Event.vector, hp]
  | software n =>
    by_cases hn : n = 3 ∨ n = 48
    · rcases hn with rfl | rfl <;> rfl
    · have hv : (Event.software n).vector = 13 := if_neg hn
      rw [hv]
      rfl

/-- Wherever the linker put the handlers and the task state: after trap_init, everything that takes a user
program into the kernel gets to the handler of its vector on the kernel stack, with the interrupt flag as
it was, and the frame built there names the vector and has its error code. A program raises a general
protection fault by asking for any vector but those of breakpoints and system calls. -/
theorem trapInit_takes (addr : TrapHandler → Word) (tsVa : Word) (real : Segs) :
    ∃ t, startTables (handlerWord addr) tsVa real = some t ∧ ∀ ev : Event, ev.FromUser →
      ev.vector ∈ userVectors ∧ ∃ h, trapHandlers.getD ev.vector none = some h ∧
        t.take ev = some ⟨ev.vector, ev.err, gdKt, addr h, gdKd, kstacktop, true⟩ ∧
        ∀ r, trapFrame h ev.vector ev.err r = r.frame (BitVec.ofNat 32 ev.vector) ev.err := by
  refine ⟨_, startTables_eq real, fun ev hev => ⟨FromUser.vector_mem hev, ?_⟩⟩
  have hall : ∀ v ∈ userVectors, (trapHandlers.getD v none).isSome := by decide
  obtain ⟨h, hh⟩ := Option.isSome_iff_exists.mp (hall _ (FromUser.vector_mem hev))
  refine ⟨h, hh, ?_, fun r => ?_⟩
  · rw [take_eq hev, handlerWord, hh]
  · rw [trapFrame_eq (FromUser.vector_mem hev) hh, FromUser.err_eq hev]

/-- A program that asks for the page fault vector. -/
theorem trapInit_takes_softint : ∃ t h,
    startTables (handlerWord fun _ => 0xF0103000#32) 0xF0120000#32 bootSegs = some t ∧
      t.take (.software 14) = some ⟨13, 0x72, gdKt, 0xF0103000#32, gdKd, kstacktop, true⟩ ∧
      ∀ r, trapFrame h 13 0x72 r = r.frame 13 0x72 := by
  obtain ⟨t, ht, htake⟩ := trapInit_takes (fun _ => 0xF0103000#32) 0xF0120000#32 bootSegs
  obtain ⟨-, h, -, hentry, hframe⟩ := htake (.software 14) trivial
  exact ⟨t, h, ht, hentry, hframe⟩

end take

end Jos
