import Jos.Kern.UserOutput
import Jos.Lib.StringField

/-! sys_cputs: the range that user_mem_assert checks, and what cprintf("%.*s", len, s) reads. -/
namespace Jos

open Prog

/-- The characters of "%.*s". -/
def cputsFormat : List Byte := [chr '%', chr '.', chr '*', chr 's']

def cputsArgs (len s : Word) : VaList := fun i => if i = 0 then len else s

/-- The bytes in memory from `va` to the end of the range, and no others. -/
def Kernel.within (s : Kernel) (va len : Word) : Word → Option Byte :=
  fun a => if InRange va len a then s.byteAt s.cr3 a else none

/-- Once user_mem_assert lets sys_cputs continue, whatever is read through the pointer lies in the
range and is mapped. -/
def CputsReadsChecked (s : Kernel) (e : Nat) (va len : Word) : Prop :=
  ∀ t, userMemAssert e va len pteU s = .ok () t →
    ∃ out, Formats (t.within va len) (.text cputsFormat 0) (cputsArgs len va) out

/-- The end of the range, computed in 32 bits, is not above ULIM, and the user may read up to it. -/
def LetThrough (s : Kernel) (d : Nat) (va len : Word) : Prop :=
  ¬ ulim < va + len ∧ ∀ a : Word, va.toNat ≤ a.toNat → a.toNat < (va + len).toNat → UserCanRead s.mem d a

/-- A string with its NUL lies in the range, wholly mapped. -/
def EndsWithin (s : Kernel) (va len : Word) : Prop :=
  ∃ text, (CharPtr.mem va).Holds (s.within va len) text

section reads

variable {m : Word → Option Byte} {a va len precision width r : Word} {text : List Byte}
  {l l' out : List Word} {altflag : Bool} {fuel : Nat}

/-- putChars returns at the NUL, or one character behind the precision. -/
theorem string_of_putChars
    (h : (screen m).putChars altflag fuel (.mem a) precision width l = .ok r l') :
    (∃ text, (CharPtr.mem a).Holds m text) ∨
      (0 ≤ precision.toInt ∧ ∀ j ≤ precision.toNat, (m (a + BitVec.ofNat 32 j)).isSome) := by
  induction fuel generalizing a precision width l with
  | zero => exact absurd h stop_ne_ok
  | succ fuel ih =>
    rw [Printer.putChars] at h
    obtain ⟨ch, l₁, hread, hnext⟩ := bind_eq_ok.mp h
    obtain ⟨hm, rfl⟩ := screen_load_eq_ok hread
    by_cases hz : ch = 0
    · subst hz
      exact Or.inl ⟨[], CharPtr.holds_nil.mpr hm⟩
    rw [if_neg hz] at hnext
    have hfirst : (m (a + BitVec.ofNat 32 0)).isSome := by
      rw [BitVec.add_zero, hm]
      rfl
    have hcons : (∃ text, (CharPtr.mem (a + 1)).Holds m text) → ∃ text, (CharPtr.mem a).Holds m text := by
      rintro ⟨text, ht⟩
      exact ⟨ch :: text, CharPtr.holds_cons.mpr ⟨hm, hz, ht⟩⟩
    unfold countDown at hnext
    by_cases hneg : precision.toInt < 0
    · rw [if_pos hneg] at hnext
      obtain ⟨_, l₂, -, hrest⟩ := bind_eq_ok.mp hnext
      rcases ih hrest with hend | ⟨hpos, -⟩
      · exact Or.inl (hcons hend)
      · omega
    rw [if_neg hneg] at hnext
    by_cases hmore : 0 ≤ (precision - 1).toInt
    · rw [if_pos hmore] at hnext
      obtain ⟨_, l₂, -, hrest⟩ := bind_eq_ok.mp hnext
      rcases ih hrest with hend | ⟨-, hall⟩
      · exact Or.inl (hcons hend)
      · refine Or.inr ⟨by omega, fun j hj => ?_⟩
        cases j with
        | zero => exact hfirst
        | succ j =>
          have hpred : (precision - 1).toNat + 1 = precision.toNat := by
            rw [BitVec.toNat_sub, show (1 : Word).toNat = 1 from rfl]
            omega
          have hlater := hall j (by omega)
          rwa [CharPtr.succ_add_ofNat] at hlater
    · have hzero : precision.toNat = 0 := by
        rw [BitVec.toInt_eq_toNat_cond] at hneg hmore
        rw [BitVec.toNat_sub, show (1 : Word).toNat = 1 from rfl] at hmore
        split at hneg <;> split at hmore <;> omega
      refine Or.inr ⟨by omega, fun j hj => ?_⟩
      obtain rfl : j = 0 := by omega
      exact hfirst

/-- The scanner's state at the 's' of "%.*s". -/
def cputsDirective (len : Word) : Directive := { Directive.start with width := 0, precision := len }

theorem scans_cputs (m : Word → Option Byte) (len va : Word) : (CharPtr.text cputsFormat 0).At m (chr '%') ∧
    Scans m (CharPtr.text cputsFormat 0).next (cputsArgs len va) .start
      (chr 's', (CharPtr.text cputsFormat 0).skip 4, (cputsArgs len va).drop 1, cputsDirective len) ∧
    ((CharPtr.text cputsFormat 0).skip 4).At m 0 := by
  have hholds : (CharPtr.text cputsFormat 0).Holds m cputsFormat := CharPtr.holds_text (by decide)
  obtain ⟨hpercent, -, hrest⟩ := CharPtr.holds_cons.mp hholds
  obtain ⟨hdot, -, hrest⟩ := CharPtr.holds_cons.mp hrest
  obtain ⟨hstar, -, hrest⟩ := CharPtr.holds_cons.mp hrest
  obtain ⟨hs, -, hrest⟩ := CharPtr.holds_cons.mp hrest
  refine ⟨hpercent, ?_, CharPtr.holds_nil.mp hrest⟩
  exact scans_flag hdot rfl (scans_flag hstar rfl (scans_end hs (by decide)))

/-- A string that ends, or the text for NULL, can be printed. -/
theorem formats_cputs (h : ArgString m va text) :
    ∃ out, Formats m (.text cputsFormat 0) (cputsArgs len va) out := by
  obtain ⟨hpercent, hscan, hend⟩ := scans_cputs m len va
  have harg : ArgString m ((cputsArgs len va).drop 1 0) text := h
  have hput := emits_putString (d := cputsDirective len) (holds_argString harg)
  exact ⟨_, formats_escape hpercent hscan (converts_of_putString hput) (formats_end hend)⟩

/-- What is printed ends at a NUL, or all of the first len + 1 bytes have been read. -/
theorem string_of_formats (h : Formats m (.text cputsFormat 0) (cputsArgs len va) out) (hva : va ≠ 0) :
    (∃ text, (CharPtr.mem va).Holds m text) ∨
      (0 ≤ len.toInt ∧ ∀ j ≤ len.toNat, (m (va + BitVec.ofNat 32 j)).isSome) := by
  obtain ⟨hpercent, ⟨n, hscan⟩, -⟩ := scans_cputs m len va
  obtain ⟨k, hrun⟩ := h
  have hscan := hscan (max n k) (le_max_left n k) []
  have hrun := hrun (max n k + 1) (by omega) []
  rw [Printer.vprintfmt, bind_ok (emits_read hpercent []), if_pos rfl, List.append_nil, bind_ok hscan] at hrun
  obtain ⟨_, l₁, hconv, -⟩ := bind_eq_ok.mp hrun
  simp only [Printer.convert] at hconv
  rw [if_neg (by decide), if_neg (by decide), if_pos trivial] at hconv
  obtain ⟨_, l₂, hput, -⟩ := bind_eq_ok.mp hconv
  have harg : (cputsArgs len va).drop 1 0 = va := rfl
  rw [harg, if_neg hva, Printer.putString] at hput
  obtain ⟨_, l₃, -, hput⟩ := bind_eq_ok.mp hput
  obtain ⟨_, l₄, hchars, -⟩ := bind_eq_ok.mp hput
  exact string_of_putChars hchars

end reads

section checked

variable {m : Machine} {mem : Nat → Nat → Word} {s t : Kernel} {L : Ledger} {fl efl : List Nat} {d e : Nat}
  {va len : Word}

/-- user_mem_assert returns just when the range is let through, and changes nothing. -/
theorem userMemAssert_eq_ok (h : System m s L fl efl) (he : (s.envs e).envPgdir = some d) (hd : d ∈ L.dirs) :
    userMemAssert e va len pteU s = .ok () t ↔ LetThrough s d va len ∧ t = s := by
  have hperm : pteU ||| pteU = pteU := by decide
  have hfault : (-eFault : Int) < 0 := by decide
  have hfails : ∀ u, userMemCheck e va len pteU s = .ok (-eFault) u →
      userMemAssert e va len pteU s ≠ .ok () t := by
    intro u hu hrun
    rw [userMemAssert, hperm, bind_ok hu, if_pos hfault] at hrun
    exact envDestroy_ne_ok hrun
  have hpasses : userMemCheck e va len pteU s = .ok 0 s →
      (userMemAssert e va len pteU s = .ok () t ↔ t = s) := by
    intro hrun
    rw [userMemAssert, hperm, bind_ok hrun, if_neg (by decide)]
    constructor
    · intro hok
      exact (pure_eq_ok.mp hok).2.symm
    · rintro rfl
      rfl
  by_cases hlim : ulim < va + len
  · exact iff_of_false (hfails _ (userMemCheck_above s e pteU hlim)) fun hc => hc.1.1 hlim
  have hscan : userMemCheck e va len pteU s = userMemScan e pteU ((va + len).toNat - va.toNat) va s := by
    rw [userMemCheck, Prog.ite_apply, if_neg hlim]
  have hle : (va + len).toNat ≤ ulim.toNat := by
    rw [BitVec.lt_def] at hlim
    omega
  by_cases hempty : (va + len).toNat ≤ va.toNat
  · -- nothing to scan: the range is empty, or wraps around
    rw [Nat.sub_eq_zero_of_le hempty] at hscan
    rw [hpasses hscan]
    exact ⟨fun ht => ⟨⟨hlim, fun a h1 h2 => by omega⟩, ht⟩, And.right⟩
  have hmax := ulim_lt_two_pow
  have hat : ∀ k < (va + len).toNat - va.toNat, (va + BitVec.ofNat 32 k).toNat = va.toNat + k := by
    intro k hk
    rw [BitVec.toNat_add, BitVec.toNat_ofNat]
    omega
  rcases userMemScan_spec he (h.installed hd) pteU ((va + len).toNat - va.toNat) va (by omega) with
    ⟨hall, hrun⟩ | ⟨k, hk, -, hfail, hrun⟩
  · rw [hpasses (hscan.trans hrun)]
    refine ⟨fun ht => ⟨⟨hlim, fun a h1 h2 => ?_⟩, ht⟩, And.right⟩
    have hpass := hall (a.toNat - va.toNat) (by omega)
    have ha : va + BitVec.ofNat 32 (a.toNat - va.toNat) = a := by
      apply BitVec.eq_of_toNat_eq
      rw [hat _ (by omega)]
      omega
    rw [ha] at hpass
    exact h.userCanRead_of_passes hd hpass
  · refine iff_of_false (hfails _ (hscan.trans hrun)) ?_
    rintro ⟨⟨-, hread⟩, -⟩
    have hk' := hat k hk
    exact hfail (System.passes_of_userCanRead (hread _ (by omega) (by omega)))

/-- The byte behind the range is not in it. -/
theorem not_inRange_end : ¬ InRange va len (va + len) := by
  have := len.isLt
  unfold InRange
  rw [BitVec.toNat_add]
  omega

theorem cputsReadsChecked_iff_of_system (h : System m s L fl efl) (he : (s.envs e).envPgdir = some s.cr3)
    (hd : s.cr3 ∈ L.dirs) : CputsReadsChecked s e va len ↔
      va = 0 ∨ ¬ LetThrough s s.cr3 va len ∨ EndsWithin s va len := by
  constructor
  · intro hreads
    by_cases hva : va = 0
    · exact Or.inl hva
    by_cases hlet : LetThrough s s.cr3 va len
    · obtain ⟨out, hout⟩ := hreads s ((userMemAssert_eq_ok h he hd).mpr ⟨hlet, rfl⟩)
      rcases string_of_formats hout hva with hend | ⟨-, hall⟩
      · exact Or.inr (Or.inr hend)
      · have hlast := hall len.toNat (Nat.le_refl _)
        rw [BitVec.ofNat_toNat, BitVec.setWidth_eq, Kernel.within, if_neg not_inRange_end] at hlast
        cases hlast
    · exact Or.inr (Or.inl hlet)
  · intro hcond t hrun
    obtain ⟨hlet, rfl⟩ := (userMemAssert_eq_ok h he hd).mp hrun
    by_cases hva : va = 0
    · subst hva
      exact formats_cputs rfl
    · rcases hcond with hzero | hnot | ⟨text, htext⟩
      · exact absurd hzero hva
      · exact absurd hlet hnot
      · have harg : ArgString (t.within va len) va text := by
          rw [ArgString, if_neg hva]
          exact htext
        exact formats_cputs harg

/-- sys_cputs reads only what it has checked when its text ends there, as the precision counts the
characters only after they have been read. -/
theorem sysRun_cputsReadsChecked_iff (h : SysRun m mem s) (hl : Live s e)
    (he : (s.envs e).envPgdir = some s.cr3) : CputsReadsChecked s e va len ↔
      va = 0 ∨ ¬ LetThrough s s.cr3 va len ∨ EndsWithin s va len := by
  obtain ⟨L, fl, efl, hsys⟩ := h.system
  exact cputsReadsChecked_iff_of_system hsys he (hsys.env_mem hl he)

end checked

theorem sysRun_cputsReadsChecked_smallMachine : ∃ s e, SysRun smallMachine (fun _ _ => 0) s ∧
    (CputsReadsChecked s e 0x1000 4 ↔
      (0x1000 : Word) = 0 ∨ ¬ LetThrough s s.cr3 0x1000 4 ∨ EndsWithin s 0x1000 4) := by
  obtain ⟨s, e, h⟩ := ownsBuffer_smallMachine
  exact ⟨s, e, h.run, sysRun_cputsReadsChecked_iff h.run h.live h.pgdir⟩

/-- With length 0, nothing has been checked when the first byte is read. -/
theorem not_cputsReadsChecked : ¬ ∀ (m : Machine) (mem : Nat → Nat → Word) (s : Kernel) (e : Nat)
    (va len : Word), SysRun m mem s → Live s e → (s.envs e).envPgdir = some s.cr3 →
    CputsReadsChecked s e va len := by
  intro hall
  obtain ⟨s, e, h⟩ := ownsBuffer_smallMachine
  obtain ⟨L, fl, efl, hsys⟩ := h.run.system
  have hreads := hall _ _ s e 0x1000 0 h.run h.live h.pgdir
  rcases (cputsReadsChecked_iff_of_system hsys h.pgdir (hsys.env_mem h.live h.pgdir)).mp hreads with
    hzero | hnot | ⟨text, htext⟩
  · exact absurd hzero (by decide)
  · refine hnot ⟨by decide, fun a h1 h2 => ?_⟩
    have hzero : (0x1000 + 0 : Word).toNat = (0x1000 : Word).toNat := rfl
    omega
  · have hat : (s.within 0x1000 0) 0x1000 = some (text.headD 0) := htext.head
    have hout : ¬ InRange (0x1000 : Word) 0 0x1000 := by decide
    rw [Kernel.within, if_neg hout] at hat
    cases hat

end Jos
