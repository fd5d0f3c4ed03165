import Jos.Inc.Descriptors
import Jos.Kern.Trap

/-! The processor's tables, and its segments: as boot/boot.S sets them up, and then env_init_percpu
(kern/env.c). -/
namespace Jos

open BitFields

def gdKd : BitVec 16 := 0x10#16

def gdTss0 : BitVec 16 := 0x28#16

def staX : BitVec 4 := 0x8#4

def staW : BitVec 4 := 0x2#4

def staR : BitVec 4 := 0x2#4

/-- The part of a struct Taskstate that the processor reads on its way into the kernel. -/
structure Taskstate where
  tsEsp0 : Word
  tsSs0 : BitVec 16

/-- The segments in the segment registers. -/
structure Segs where
  cs : SegView
  ds : SegView
  es : SegView
  ss : SegView
  fs : SegView
  gs : SegView

/-- The two descriptor tables that lgdt is given. -/
inductive GdtName where
  | boot
  | kernel
deriving DecidableEq

/-- The kernel's tables, and the processor's registers that have to do with them: GDTR and IDTR with their
limits, the task register and the segment registers. -/
structure Tables where
  gdt : Nat → Segdesc
  idt : Nat → Gatedesc
  /-- the task state segments, by their addresses -/
  ts : Word → Taskstate
  gdtr : GdtName × BitVec 16
  idtr : Option (BitVec 16)
  tr : Option SegView
  segs : Segs

/-- The gdt of boot.S. -/
def bootGdt (i : Nat) : List Field :=
  if i = 1 then asmSeg ((staX ||| staR).setWidth 32) 0 0xffffffff#32
  else if i = 2 then asmSeg (staW.setWidth 32) 0 0xffffffff#32
  else []

/-- The six entries of gdt (kern/env.c). -/
def kernGdt (i : Nat) : Segdesc :=
  if i = 1 then seg (staX ||| staR) 0 0xffffffff#32 0
  else if i = 2 then seg staW 0 0xffffffff#32 0
  else if i = 3 then seg (staX ||| staR) 0 0xffffffff#32 3
  else if i = 4 then seg staW 0 0xffffffff#32 3
  else segNull

def emptyGate : Gatedesc := ⟨0, 0, 0, 0, 0, 0, 0, 0, 0⟩

/-- The tables as the kernel image has them, with the processor still in real mode. -/
def imageTables (real : Segs) : Tables where
  gdt := kernGdt
  idt _ := emptyGate
  ts _ := ⟨0, 0⟩
  gdtr := (.boot, 0)
  idtr := none
  tr := none
  segs := real

namespace Tables

/-- The eight bytes of an entry of the GDT. -/
def gdtEntry (t : Tables) (i : Nat) : Nat :=
  match t.gdtr.1 with
  | .boot => pack (bootGdt i)
  | .kernel => pack (t.gdt i).fields

/-- The descriptor a selector names. There is no LDT. -/
def lookup (t : Tables) (sel : BitVec 16) : Option SegView :=
  if sel.toNat / 4 % 2 = 0 ∧ 8 * (sel.toNat / 8) + 7 ≤ t.gdtr.2.toNat then
    some (readSegment (t.gdtEntry (sel.toNat / 8)))
  else
    none

/-- A load of DS, ES, FS or GS at privilege level 0, with a selector that is not null. -/
def kernData (t : Tables) (sel : BitVec 16) : Option SegView := do
  let d ← t.lookup sel
  if d.s = 1 ∧ d.type &&& 0xA#4 ≠ 0x8#4 ∧ (d.type &&& 0xC#4 = 0xC#4 ∨ sel.toNat % 4 ≤ d.dpl.toNat) ∧
      d.p = 1 then
    some d
  else
    none

/-- A load of SS at privilege level 0. -/
def kernStack (t : Tables) (sel : BitVec 16) : Option SegView := do
  let d ← t.lookup sel
  if d.s = 1 ∧ d.type &&& 0xA#4 = 0x2#4 ∧ sel.toNat % 4 = 0 ∧ d.dpl = 0 ∧ d.p = 1 then some d else none

/-- A far jump at privilege level 0. -/
def kernCode (t : Tables) (sel : BitVec 16) : Option SegView := do
  let d ← t.lookup sel
  if d.s = 1 ∧ d.type &&& 0x8#4 = 0x8#4 ∧ d.dpl = 0 ∧ (d.type &&& 0x4#4 = 0x4#4 ∨ sel.toNat % 4 = 0) ∧
      d.p = 1 then
    some d
  else
    none

end Tables

def protModeCseg : BitVec 16 := 0x8#16

def protModeDseg : BitVec 16 := 0x10#16

/-- boot.S from lgdt to the call of bootmain. -/
def protcseg (t : Tables) : Option Tables := do
  let t := { t with gdtr := (.boot, 0x17#16) }
  let cs ← t.kernCode protModeCseg
  let ds ← t.kernData protModeDseg
  let es ← t.kernData protModeDseg
  let fs ← t.kernData protModeDseg
  let gs ← t.kernData protModeDseg
  let ss ← t.kernStack protModeDseg
  some { t with segs := ⟨cs, ds, es, ss, fs, gs⟩ }

/-- env_init_percpu. Its lldt(0) finds no LDT either. -/
def envInitPercpu (t : Tables) : Option Tables := do
  let t := { t with gdtr := (.kernel, 47#16) }
  let gs ← t.kernData (gdUd ||| 3)
  let fs ← t.kernData (gdUd ||| 3)
  let es ← t.kernData gdKd
  let ds ← t.kernData gdKd
  let ss ← t.kernStack gdKd
  let cs ← t.kernCode gdKt
  some { t with segs := ⟨cs, ds, es, ss, fs, gs⟩ }

/-- A segment that covers all addresses, each at its own. -/
def flatSeg (type : BitVec 4) (dpl : BitVec 2) : SegView := ⟨0, 0xffffffff#32, type, 1, dpl, 1⟩

/-- What boot.S runs bootmain and the kernel's entry on. -/
def bootSegs : Segs :=
  ⟨flatSeg (staX ||| staR) 0, flatSeg staW 0, flatSeg staW 0, flatSeg staW 0, flatSeg staW 0, flatSeg staW 0⟩

/-- What the kernel runs on. -/
def kernSegs : Segs := { bootSegs with fs := flatSeg staW 3, gs := flatSeg staW 3 }

section segments

variable {t : Tables} {sel : BitVec 16} {type : BitVec 4} {dpl : BitVec 2}

theorem readSegment_flat : readSegment (pack (seg type 0 0xffffffff#32 dpl).fields) = flatSeg type dpl := by
  rw [readSegment_seg]
  rfl

theorem lookup_boot (ht : t.gdtr = (.boot, 0x17#16)) (hti : sel.toNat / 4 % 2 = 0) (hi : sel.toNat / 8 < 3)
    (hseg : bootGdt (sel.toNat / 8) = asmSeg (type.setWidth 32) 0 0xffffffff#32) :
    t.lookup sel = some (flatSeg type 0) := by
  have hlim : (GdtName.boot, 0x17#16).2.toNat = 23 := rfl
  rw [Tables.lookup, ht, if_pos ⟨hti, by omega⟩, Tables.gdtEntry, ht]
  simp only [hseg]
  rw [pack_asmSeg, readSegment_flat]

/-- The kernel's GDT has six entries. -/
theorem lookup_limit (ht : t.gdtr = (.kernel, 47#16)) (sel : BitVec 16) : t.lookup sel =
    if sel.toNat / 4 % 2 = 0 ∧ sel.toNat / 8 < 6 then
      some (readSegment (pack (t.gdt (sel.toNat / 8)).fields))
    else
      none := by
  have hlim : 8 * (sel.toNat / 8) + 7 ≤ (GdtName.kernel, 47#16).2.toNat ↔ sel.toNat / 8 < 6 := by
    change _ ≤ 47 ↔ _
    omega
  rw [Tables.lookup, Tables.gdtEntry, ht]
  simp only [hlim]

theorem lookup_kernel (ht : t.gdtr = (.kernel, 47#16)) (hti : sel.toNat / 4 % 2 = 0) (hi : sel.toNat / 8 < 6)
    (hseg : t.gdt (sel.toNat / 8) = seg type 0 0xffffffff#32 dpl) :
    t.lookup sel = some (flatSeg type dpl) := by
  rw [lookup_limit ht, if_pos ⟨hti, hi⟩, hseg, readSegment_flat]

theorem kernData_eq (h : t.lookup sel = some (flatSeg staW dpl)) (hdpl : sel.toNat % 4 ≤ dpl.toNat) :
    t.kernData sel = some (flatSeg staW dpl) := by
  have htype : staW &&& 0xA#4 ≠ 0x8#4 := by decide
  rw [Tables.kernData, h, Option.bind_eq_bind, Option.bind_some, if_pos ⟨rfl, htype, .inr hdpl, rfl⟩]

theorem kernStack_eq (h : t.lookup sel = some (flatSeg staW 0)) (hrpl : sel.toNat % 4 = 0) :
    t.kernStack sel = some (flatSeg staW 0) := by
  rw [Tables.kernStack, h, Option.bind_eq_bind, Option.bind_some, if_pos ⟨rfl, by decide, hrpl, rfl, rfl⟩]

theorem kernCode_eq (h : t.lookup sel = some (flatSeg (staX ||| staR) 0)) (hrpl : sel.toNat % 4 = 0) :
    t.kernCode sel = some (flatSeg (staX ||| staR) 0) := by
  rw [Tables.kernCode, h, Option.bind_eq_bind, Option.bind_some,
    if_pos ⟨rfl, by decide, rfl, .inr hrpl, rfl⟩]

theorem protcseg_eq (t : Tables) :
    protcseg t = some { t with gdtr := (.boot, 0x17#16), segs := bootSegs } := by
  generalize hu : { t with gdtr := (.boot, 0x17#16) } = u
  have hg : u.gdtr = (.boot, 0x17#16) := by rw [← hu]
  have hcode : u.lookup protModeCseg = some (flatSeg (staX ||| staR) 0) :=
    lookup_boot hg (by decide) (by decide) rfl
  have hdata : u.lookup protModeDseg = some (flatSeg staW 0) := lookup_boot hg (by decide) (by decide) rfl
  rw [protcseg, hu, kernCode_eq hcode (by decide), kernData_eq hdata (by decide),
    kernStack_eq hdata (by decide)]
  simp only [Option.bind_eq_bind, Option.bind_some]
  rw [← hu]
  rfl

/-- The kernel's own descriptors are good for its segment registers, and the segments it uses are the ones
that boot.S gave it. -/
theorem envInitPercpu_eq (h : t.gdt = kernGdt) :
    envInitPercpu t = some { t with gdtr := (.kernel, 47#16), segs := kernSegs } := by
  generalize hu : { t with gdtr := (.kernel, 47#16) } = u
  have hg : u.gdtr = (.kernel, 47#16) := by rw [← hu]
  have hgdt : u.gdt = kernGdt := by rw [← hu]; exact h
  have hlook : ∀ (sel : BitVec 16) (type dpl), sel.toNat / 4 % 2 = 0 → sel.toNat / 8 < 6 →
      kernGdt (sel.toNat / 8) = seg type 0 0xffffffff#32 dpl → u.lookup sel = some (flatSeg type dpl) :=
    fun sel type dpl hti hi hseg => lookup_kernel hg hti hi (by rw [hgdt, hseg])
  have huser := hlook (gdUd ||| 3) staW 3 (by decide) (by decide) rfl
  have hdata := hlook gdKd staW 0 (by decide) (by decide) rfl
  have hcode := hlook gdKt (staX ||| staR) 0 (by decide) (by decide) rfl
  rw [envInitPercpu, hu, kernData_eq huser (by decide), kernData_eq hdata (by decide),
    kernStack_eq hdata (by decide), kernCode_eq hcode (by decide)]
  simp only [Option.bind_eq_bind, Option.bind_some]
  rw [← hu]
  rfl

end segments

end Jos
