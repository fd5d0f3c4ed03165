import Jos.Kern.TrapInit

/-! What a user program can do with its segment registers, under the tables trap_init leaves. -/
namespace Jos

open BitFields

/-- The outcome of loading a segment register: the segment, none for a null selector, or an exception. -/
inductive SegLoad where
  | segment (d : SegView)
  | null
  | fault (v : Nat) (err : Word)
  | gate -- on to another segment or task
deriving DecidableEq

namespace Tables

variable (t : Tables)

/-- The error code of a fault with a selector. -/
def selErr (sel : BitVec 16) : Word := (sel &&& 0xfffc#16).setWidth 32

/-- A load of DS, ES, FS or GS in user mode. -/
def loadData (sel : BitVec 16) : SegLoad :=
  if sel &&& 0xfffc#16 = 0 then
    .null
  else
    match t.lookup sel with
    | none => .fault 13 (selErr sel)
    | some d =>
      if d.s = 0 ∨ d.type &&& 0xA#4 = 0x8#4 then -- neither data nor code to read
        .fault 13 (selErr sel)
      else if d.type &&& 0xC#4 ≠ 0xC#4 ∧ d.dpl.toNat < 3 then
        .fault 13 (selErr sel)
      else if d.p = 0 then
        .fault 11 (selErr sel)
      else
        .segment d

/-- A load of SS in user mode. -/
def loadStack (sel : BitVec 16) : SegLoad :=
  if sel &&& 0xfffc#16 = 0 then
    .fault 13 0
  else
    match t.lookup sel with
    | none => .fault 13 (selErr sel)
    | some d =>
      if sel &&& 3 ≠ 3 ∨ d.s = 0 ∨ d.type &&& 0xA#4 ≠ 0x2#4 ∨ d.dpl ≠ 3 then
        .fault 13 (selErr sel)
      else if d.p = 0 then
        .fault 12 (selErr sel)
      else
        .segment d

/-- A far jump or call in user mode. -/
def loadCode (sel : BitVec 16) : SegLoad :=
  if sel &&& 0xfffc#16 = 0 then
    .fault 13 0
  else
    match t.lookup sel with
    | none => .fault 13 (selErr sel)
    | some d =>
      if d.s = 0 then
        if d.dpl ≠ 3 then .fault 13 (selErr sel) else .gate
      else if d.type &&& 0x8#4 = 0 ∨ (d.type &&& 0x4#4 = 0 ∧ d.dpl ≠ 3) then
        .fault 13 (selErr sel)
      else if d.p = 0 then
        .fault 11 (selErr sel)
      else
        .segment d

end Tables

section selectors

variable {handlers : Nat → Word} {tsVa : Word} {sel : BitVec 16}

theorem and_selMask : (sel &&& 0xfffc#16).toNat = sel.toNat / 4 * 4 := by
  have hmask : ∀ i < 16, (0xfffc#16).getLsbD i = decide (2 ≤ i) := by decide
  have heq : sel &&& 0xfffc#16 = (sel >>> 2) <<< 2 := by
    apply BitVec.eq_of_getLsbD_eq
    intro i hi
    rw [BitVec.getLsbD_and, hmask i hi, BitVec.getLsbD_shiftLeft, BitVec.getLsbD_ushiftRight]
    by_cases h2 : i < 2
    · simp [h2, show ¬ 2 ≤ i by omega]
    · simp [hi, h2, show 2 ≤ i by omega, show 2 + (i - 2) = i by omega]
  have hlt := sel.isLt
  rw [heq, BitVec.toNat_shiftLeft, BitVec.toNat_ushiftRight, Nat.shiftRight_eq_div_pow, Nat.shiftLeft_eq]
  omega

theorem isNull_iff : sel &&& 0xfffc#16 = 0 ↔ sel.toNat / 4 = 0 := by
  rw [← BitVec.toNat_inj, and_selMask]
  change sel.toNat / 4 * 4 = 0 ↔ _
  omega

/-- The descriptors there are. -/
theorem lookup_eq (h0 : sel.toNat / 4 ≠ 0) : (initTables handlers tsVa).lookup sel =
    if sel.toNat / 4 = 2 then some (flatSeg 0xA#4 0)
    else if sel.toNat / 4 = 4 then some (flatSeg 0x2#4 0)
    else if sel.toNat / 4 = 6 then some (flatSeg 0xA#4 3)
    else if sel.toNat / 4 = 8 then some (flatSeg 0x2#4 3)
    else if sel.toNat / 4 = 10 then some ⟨tsVa, tsLimit, 0xB#4, 0, 0, 1⟩
    else none := by
  by_cases hin : sel.toNat / 4 % 2 = 0 ∧ sel.toNat / 8 < 6
  · obtain ⟨hti, hlt⟩ := hin
    have hgdt : ∀ i < 5, sel.toNat / 8 = i → ∀ type dpl, kernGdt i = seg type 0 0xffffffff#32 dpl →
        (initTables handlers tsVa).lookup sel = some (flatSeg type dpl) := by
      rintro i hi rfl type dpl hseg
      exact lookup_gdt hti hi hseg
    obtain h | h | h | h | h : sel.toNat / 4 = 2 ∨ sel.toNat / 4 = 4 ∨ sel.toNat / 4 = 6 ∨
        sel.toNat / 4 = 8 ∨ sel.toNat / 4 = 10 := by omega
    · simp only [h, hgdt 1 (by decide) (by omega) _ _ rfl]
      rfl
    · simp only [h, hgdt 2 (by decide) (by omega) _ _ rfl]
      rfl
    · simp only [h, hgdt 3 (by decide) (by omega) _ _ rfl]
      rfl
    · simp only [h, hgdt 4 (by decide) (by omega) _ _ rfl]
      rfl
    · have htss : (initTables handlers tsVa).gdt 5 = { seg16 0xB#4 tsVa tsLimit 0 with sdS := 0 } := by
        simp only [initTables, Function.update_self]
        rfl
      rw [lookup_limit rfl, if_pos ⟨hti, hlt⟩, show sel.toNat / 8 = 5 by omega, htss,
        readSegment_seg16 0 (by decide), h]
      rfl
  · rw [lookup_limit rfl, if_neg hin]
    simp only [show sel.toNat / 4 ≠ 2 by omega, show sel.toNat / 4 ≠ 4 by omega,
      show sel.toNat / 4 ≠ 6 by omega, show sel.toNat / 4 ≠ 8 by omega,
      show sel.toNat / 4 ≠ 10 by omega, if_false]

/-- After trap_init, whatever a user program puts into its segment registers. It gets no segment but its
own code and data, which translate no address; a null selector for data; or a general protection fault
that names the selector. -/
theorem trapInit_selectors (handlers : Nat → Word) (tsVa : Word) (real : Segs) :
    ∃ t, startTables handlers tsVa real = some t ∧ ∀ sel : BitVec 16,
      (t.loadData sel = if sel.toNat / 4 = 0 then .null
        else if sel.toNat / 4 = gdUt.toNat / 4 then .segment (flatSeg (staX ||| staR) 3)
        else if sel.toNat / 4 = gdUd.toNat / 4 then .segment (flatSeg staW 3)
        else .fault 13 (Tables.selErr sel)) ∧
      (t.loadStack sel = if sel.toNat / 4 = 0 then .fault 13 0
        else if sel = gdUd ||| 3 then .segment (flatSeg staW 3)
        else .fault 13 (Tables.selErr sel)) ∧
      t.loadCode sel = if sel.toNat / 4 = 0 then .fault 13 0
        else if sel.toNat / 4 = gdUt.toNat / 4 then .segment (flatSeg (staX ||| staR) 3)
        else .fault 13 (Tables.selErr sel) := by
  refine ⟨_, startTables_eq real, fun sel => ?_⟩
  have hut : gdUt.toNat / 4 = 6 := rfl
  have hud : gdUd.toNat / 4 = 8 := rfl
  rw [hut, hud, Tables.loadData, Tables.loadStack, Tables.loadCode]
  by_cases h0 : sel.toNat / 4 = 0
  · simp only [if_pos (isNull_iff.mpr h0), if_pos h0, and_self]
  have hne : sel.toNat / 4 ≠ 8 → ¬ sel = gdUd ||| 3#16 := by
    rintro h rfl
    exact h rfl
  simp only [if_neg fun h => h0 (isNull_iff.mp h), if_neg h0, lookup_eq h0]
  obtain h | h | h | h | h | h : sel.toNat / 4 = 2 ∨ sel.toNat / 4 = 4 ∨ sel.toNat / 4 = 6 ∨
      sel.toNat / 4 = 8 ∨ sel.toNat / 4 = 10 ∨ ¬ (sel.toNat / 4 = 2 ∨ sel.toNat / 4 = 4 ∨
        sel.toNat / 4 = 6 ∨ sel.toNat / 4 = 8 ∨ sel.toNat / 4 = 10) := by omega
  · simp [h, hne (by omega), flatSeg]
  · simp [h, hne (by omega), flatSeg]
  · simp [h, hne (by omega), flatSeg, staX, staR]
  · have hsel : sel = 0x20#16 ∨ sel = 0x21#16 ∨ sel = 0x22#16 ∨ sel = 0x23#16 := by
      simp only [← BitVec.toNat_inj]
      simp
      omega
    rcases hsel with rfl | rfl | rfl | rfl <;> exact ⟨rfl, rfl, rfl⟩
  · simp [h, hne (by omega)]
  · simp only [not_or] at h
    simp [h, hne h.2.2.2.1]

end selectors

end Jos
