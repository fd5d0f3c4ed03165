import Jos.Kern.Monitor

/-! When the loops of showmappings, memxv and memxp end. -/
namespace Jos

open Prog

/-- The command prints its table, and its loop has taken the values of the range. -/
def Ends {α : Type} (x : Kern (Except (List String) (Table α))) (s : Kernel)
    (start step hi : Word) : Prop :=
  ∃ table t, x s = .ok (.ok table) t ∧ Visits start step hi (table.rows.map Prod.fst)

variable {α : Type} {s : Kernel} {lo hi step : Word} {argv : List (List Byte)} {usage : List String}
  {header : String} {start : Word → Word} {row : Word → Kern α} {safe : Word → Prop}

/-- Which arguments are accepted does not depend on the usage text. -/
theorem readRange_usage (usage : List String) (h : readRange [] argv = .ok (lo, hi)) :
    readRange usage argv = .ok (lo, hi) := by
  unfold readRange at h ⊢
  split at h
  · exact h
  · exact h
  · cases h

theorem readRange_le (h : readRange usage argv = .ok (lo, hi)) : lo ≤ hi := by
  unfold readRange at h
  split at h
  · simp only at h
    split at h
    · cases h
    · cases h
      exact BitVec.le_refl _
  · simp only at h
    split at h
    · cases h
    · split at h
      · cases h
      · split at h
        · cases h
        · rename_i hlt
          cases h
          exact BitVec.not_lt.mp hlt
  · cases h

/-- One statement for the three commands. -/
theorem rangeCommand_ends_iff (h : readRange [] argv = .ok (lo, hi)) (hpos : 0 < step.toNat)
    (hdvd : step.toNat ∣ 2 ^ 32) (hstart : start lo ≤ lo) (hobs : ∀ u, Observes (row u))
    (hrow : ∀ u, (∃ r, row u s = .ok r s) ↔ safe u) :
    Ends (rangeCommand usage header start step row argv) s (start lo) step hi ↔
      lastStep (start lo).toNat step.toNat hi.toNat + step.toNat < 2 ^ 32 ∧
        ∀ u, InSteps (start lo) step hi u → safe u := by
  have hle : start lo ≤ hi := BitVec.le_trans hstart (readRange_le h)
  have hloop : (∃ rows t, rangeLoop .spin hi step row rangeFuel (start lo) s = .ok rows t ∧
      Visits (start lo) step hi (rows.map Prod.fst)) ↔ _ :=
    rangeLoop_ends_iff hpos hdvd hle hobs (Nat.lt_succ_self _)
  simp only [hrow] at hloop
  rw [← hloop]
  unfold Ends
  rw [rangeCommand, readRange_usage usage h]
  constructor
  · rintro ⟨table, t, hrun, hvis⟩
    obtain ⟨rows, u, hrows, heq⟩ := bind_eq_ok.mp hrun
    obtain ⟨htable, rfl⟩ := pure_eq_ok.mp heq
    obtain rfl := Except.ok.inj htable
    exact ⟨rows, u, hrows, hvis⟩
  · rintro ⟨rows, t, hrows, hvis⟩
    exact ⟨⟨header, rows⟩, t, bind_ok hrows, hvis⟩

theorem roundDown_le (a : Word) : roundDown a pgsize ≤ a := by
  rw [BitVec.le_def, toNat_roundDown]
  omega

/-- From a page boundary, the last page of a range ends below 2^32 exactly when the bound is not
in the last page. -/
theorem lastStep_pages (h : lo ≤ hi) :
    lastStep (roundDown lo pgsize).toNat pgsize.toNat hi.toNat + pgsize.toNat < 2 ^ 32 ↔
      hi < 0xFFFFF000#32 := by
  rw [BitVec.le_def] at h
  have hlt := hi.isLt
  rw [toNat_roundDown, BitVec.lt_def, show pgsize.toNat = 4096 from rfl,
    show (0xFFFFF000#32).toNat = 4294963200 from rfl, lastStep]
  omega

theorem monShowmappings_ends_iff (h : readRange [] argv = .ok (lo, hi)) :
    Ends (monShowmappings argv) s (roundDown lo pgsize) pgsize hi ↔
      hi < 0xFFFFF000#32 ∧ ∀ va, InSteps (roundDown lo pgsize) pgsize hi va → TableInRam s va := by
  have hcmd : Ends (monShowmappings argv) s (roundDown lo pgsize) pgsize hi ↔ _ :=
    rangeCommand_ends_iff h (by decide) (by decide) (roundDown_le lo)
      monShowmappingsEntry_observes fun _ => monShowmappingsEntry_returns
  rw [hcmd, lastStep_pages (readRange_le h)]

theorem monMemxv_ends_iff (h : readRange [] argv = .ok (lo, hi)) :
    Ends (monMemxv argv) s lo 4 hi ↔
      lastStep lo.toNat 4 hi.toNat + 4 < 2 ^ 32 ∧ ∀ va, InSteps lo 4 hi va → MemxvSafe s va :=
  rangeCommand_ends_iff h (by decide) (by decide) (BitVec.le_refl lo)
    monMemxvEntry_observes fun _ => monMemxvEntry_returns

theorem monMemxp_ends_iff (h : readRange [] argv = .ok (lo, hi)) :
    Ends (monMemxp argv) s lo 4 hi ↔
      lastStep lo.toNat 4 hi.toNat + 4 < 2 ^ 32 ∧ ∀ pa, InSteps lo 4 hi pa → MemxpSafe s pa :=
  rangeCommand_ends_iff h (by decide) (by decide) (BitVec.le_refl lo)
    monMemxpEntry_observes fun _ => monMemxpEntry_returns

/-- showmappings ends unless the bound lies in the last page; memxv and memxp end unless the last
value of the range is one of the last four addresses. That is all, as long as no round panics. -/
theorem rangeCommands_end_iff (h : readRange [] argv = .ok (lo, hi)) :
    (Ends (monShowmappings argv) s (roundDown lo pgsize) pgsize hi ↔
      hi < 0xFFFFF000#32 ∧ ∀ va, InSteps (roundDown lo pgsize) pgsize hi va → TableInRam s va) ∧
    (Ends (monMemxv argv) s lo 4 hi ↔
      lastStep lo.toNat 4 hi.toNat + 4 < 2 ^ 32 ∧ ∀ va, InSteps lo 4 hi va → MemxvSafe s va) ∧
    (Ends (monMemxp argv) s lo 4 hi ↔
      lastStep lo.toNat 4 hi.toNat + 4 < 2 ^ 32 ∧ ∀ pa, InSteps lo 4 hi pa → MemxpSafe s pa) :=
  ⟨monShowmappings_ends_iff h, monMemxv_ends_iff h, monMemxp_ends_iff h⟩

/-- The argument strings "showmappings", "0" and "1fff". -/
def twoPages : List (List Byte) :=
  [[115, 104, 111, 119, 109, 97, 112, 112, 105, 110, 103, 115], [48], [49, 102, 102, 102]]

theorem rangeCommands_end_twoPages :
    Ends (monShowmappings twoPages) (bss fun _ _ => 0) 0 pgsize 0x1FFF := by
  have h : readRange [] twoPages = .ok (0x0#32, 0x1FFF#32) := by decide
  refine (rangeCommands_end_iff h).1.mpr ⟨by decide, fun va _ t ht => ?_⟩
  rw [Kernel.pde, show (bss fun _ _ => 0).mem = fun _ _ => 0#32 from rfl, target_zero] at ht
  cases ht

/-- The argument strings "memxv" and "ffffffff". -/
def lastByte : List (List Byte) :=
  [[109, 101, 109, 120, 118], [102, 102, 102, 102, 102, 102, 102, 102]]

/-- Asked for the last address alone, each of the three loops goes on for ever. -/
theorem not_rangeCommands_end : readRange [] lastByte = .ok (0xFFFFFFFF#32, 0xFFFFFFFF#32) ∧
    ∀ s, ¬ Ends (monShowmappings lastByte) s 0xFFFFF000 pgsize 0xFFFFFFFF ∧
      ¬ Ends (monMemxv lastByte) s 0xFFFFFFFF 4 0xFFFFFFFF ∧
      ¬ Ends (monMemxp lastByte) s 0xFFFFFFFF 4 0xFFFFFFFF := by
  have h : readRange [] lastByte = .ok (0xFFFFFFFF#32, 0xFFFFFFFF#32) := by decide
  refine ⟨h, fun s => ?_⟩
  exact ⟨fun he => absurd ((monShowmappings_ends_iff h).mp he).1 (by decide),
    fun he => absurd ((monMemxv_ends_iff h).mp he).1 (by decide),
    fun he => absurd ((monMemxp_ends_iff h).mp he).1 (by decide)⟩

end Jos
