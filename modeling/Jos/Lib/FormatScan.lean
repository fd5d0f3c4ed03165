import Jos.Lib.StringField

/-! The scanner of vprintfmt on every format: it comes to the end, and it loses nothing. -/
namespace Jos

open Prog Numeral

/-- The conversions that the switch knows. -/
def convChars : List Byte :=
  [chr 'c', chr 'e', chr 's', chr 'd', chr 'u', chr 'o', chr 'p', chr 'x', chr '%']

/-- The argument words that the flags take. -/
def starCount (flags : List Byte) : Nat := flags.count (chr '*')

/-- Every argument of %s is a string somewhere. -/
def StringsEnd (m : Word → Option Byte) : Prop := ∀ a, ∃ s, (CharPtr.mem a).Holds m s

/-- The scanner on the format `fmt` at `p`, from any place of it on: it returns; it puts out ordinary
characters; it puts out a directive it does not know as it stands, and so what is left of a directive
at the end of the format. -/
structure ScansFormat (m : Word → Option Byte) (fmt : List Byte) (p : CharPtr) : Prop where
  returns : ∀ pre rest ap, fmt = pre ++ rest → ∃ out, Formats m (p.skip pre.length) ap out
  char : ∀ pre c rest ap out, fmt = pre ++ c :: rest → c ≠ chr '%' →
    Formats m (p.skip (pre ++ [c]).length) ap out →
      Formats m (p.skip pre.length) ap (c.setWidth 32 :: out)
  unknown : ∀ pre flags u rest ap out, fmt = pre ++ chr '%' :: (flags ++ u :: rest) →
    (∀ c ∈ flags, ¬ EndsFlags c) → EndsFlags u → u ∉ convChars →
    Formats m (p.skip (pre ++ chr '%' :: (flags ++ [u])).length) (ap.drop (starCount flags)) out →
      Formats m (p.skip pre.length) ap (chars (chr '%' :: (flags ++ [u])) ++ out)
  cut : ∀ pre flags ap, fmt = pre ++ chr '%' :: flags → (∀ c ∈ flags, ¬ EndsFlags c) →
    Formats m (p.skip pre.length) ap (chars (chr '%' :: flags))

section scanner

variable {m : Word → Option Byte} {p q : CharPtr} {ap ap' : VaList} {d d' : Directive} {c u : Byte}
  {s t fmt flags : List Byte} {out : List Word} {n : Nat}

theorem exists_digitByte (h : IsDigit c) : ∃ i, i < 10 ∧ c = digitByte i := by
  obtain ⟨hlo, hhi⟩ := h
  rw [BitVec.le_def] at hlo hhi
  change 48 ≤ c.toNat at hlo
  change c.toNat ≤ 57 at hhi
  refine ⟨c.toNat - 48, by omega, ?_⟩
  apply BitVec.eq_of_toNat_eq
  rw [toNat_digitByte (by omega)]
  omega

theorem exists_digits (h : ∀ c ∈ t, IsDigit c) :
    ∃ ds : List Nat, (∀ i ∈ ds, i < 10) ∧ t = ds.map digitByte := by
  induction t with
  | nil => exact ⟨[], by simp, rfl⟩
  | cons c t ih =>
    obtain ⟨ds, hds, rfl⟩ := ih fun c hc => h c (List.mem_cons_of_mem _ hc)
    obtain ⟨i, hi, rfl⟩ := exists_digitByte (h c (by simp))
    refine ⟨i :: ds, fun j hj => ?_, rfl⟩
    rcases List.mem_cons.mp hj with rfl | hj
    · exact hi
    · exact hds j hj

/-- Only a '*' takes an argument. -/
theorem flagStep_args (h : flagStep c ap d = some (ap', d')) : ap' = ap.drop (starCount [c]) := by
  unfold flagStep at h
  split at h
  · next hc =>
    cases h
    rw [hc]
    rfl
  split at h
  · next hc =>
    cases h
    rw [hc]
    rfl
  split at h
  · next hc =>
    cases h
    rw [hc]
    rfl
  split at h
  · next hc =>
    cases h
    rw [hc]
    rfl
  split at h
  · next hc =>
    cases h
    rw [hc]
    rfl
  split at h
  · next hc =>
    cases h
    rw [hc]
    rfl
  · cases h

theorem starCount_append : starCount (s ++ t) = starCount s + starCount t := List.count_append

theorem starCount_digits (h : ∀ c ∈ t, IsDigit c) : starCount t = 0 := by
  rw [starCount, List.count_eq_zero]
  intro hstar
  have hd := h _ hstar
  revert hd
  decide

/-- The scanner comes to the end of any flags, having taken an argument for each '*'. -/
theorem scans_flags (hflags : ∀ c ∈ flags, ¬ EndsFlags c) (hspan : p.Spans m flags)
    (hend : (p.skip flags.length).At m u) (hu : EndsFlags u) :
    ∃ d', Scans m p ap d (u, (p.skip flags.length).next, ap.drop (starCount flags), d') := by
  induction hn : flags.length using Nat.strong_induction_on generalizing flags p ap d with
  | _ n ih =>
    subst hn
    cases flags with
    | nil => exact ⟨d, scans_end hend hu⟩
    | cons c flags =>
      obtain ⟨hat, hne, hrest⟩ := hspan
      have htail : ∀ c ∈ flags, ¬ EndsFlags c := fun c hc => hflags c (List.mem_cons_of_mem _ hc)
      by_cases hflag : c ∈ flagChars
      · obtain ⟨ap', d', hstep⟩ := flagStep_isSome (d := d) hflag
        obtain rfl := flagStep_args hstep
        obtain ⟨e, hscan⟩ : ∃ e, Scans m p.next (ap.drop (starCount [c])) d' (u, _, _, e) :=
          ih flags.length (by simp) htail hrest hend rfl
        refine ⟨e, scans_flag hat hstep ?_⟩
        rw [VaList.drop_drop, ← starCount_append] at hscan
        exact hscan
      · have hdigit : IsDigit c := by
          by_contra hno
          exact hflags c (by simp) ⟨hflag, hno⟩
        obtain ⟨w, r, rfl, hw, hr⟩ := exists_run IsDigit flags
        have hrun : ∀ x ∈ c :: w, IsDigit x := by
          intro x hx
          rcases List.mem_cons.mp hx with rfl | hx
          · exact hdigit
          · exact hw x hx
        obtain ⟨hspanw, hspanr⟩ := CharPtr.spans_append.mp hrest
        have hlen : (c :: (w ++ r)).length = (c :: w).length + r.length := by
          simp only [List.length_cons, List.length_append]
          omega
        rw [hlen, CharPtr.skip_add] at hend ⊢
        have hnext : ∃ x, (p.skip (c :: w).length).At m x ∧ ¬ IsDigit x := by
          cases r with
          | nil => exact ⟨u, hend, hu.2⟩
          | cons x r => exact ⟨x, hspanr.1, hr x rfl⟩
        obtain ⟨x, hx, hnot⟩ := hnext
        obtain ⟨ds, hds, hdigits⟩ := exists_digits hrun
        cases ds with
        | nil => cases hdigits
        | cons j ds =>
          have hj : j ≠ 0 := by
            rintro rfl
            have hc : c = chr '0' := (List.cons.inj hdigits).1
            rw [hc] at hflag
            exact hflag (by decide)
          have hspand : p.Spans m ((j :: ds).map digitByte) := by
            rw [← hdigits]
            exact ⟨hat, hne, hspanw⟩
          have hlend : (c :: w).length = (j :: ds).length := by
            rw [hdigits, List.length_map]
          have htailr : ∀ y ∈ r, ¬ EndsFlags y := fun y hy => htail y (List.mem_append_right w hy)
          obtain ⟨e, hscan⟩ : ∃ e, Scans m (p.skip (c :: w).length) ap
              (d.processPrecision (BitVec.ofNat 32 (value 10 (j :: ds)))) (u, _, _, e) :=
            ih r.length (by rw [hlen]; simp) htailr hspanr hend rfl
          refine ⟨e, ?_⟩
          have hcount : starCount (c :: (w ++ r)) = starCount r := by
            rw [← List.cons_append, starCount_append, starCount_digits hrun, Nat.zero_add]
          rw [hcount]
          rw [hlend] at hscan hx ⊢
          exact scans_number hds hj hspand hx hnot hscan

/-- Backing up stops right behind the '%', wherever the directive has been left. -/
theorem emits_backUp (hat : p.At m (chr '%')) (hspan : p.next.Spans m flags)
    (hflags : ∀ c ∈ flags, c ≠ chr '%') {fuel : Nat} (hfuel : flags.length < fuel) :
    Emits ((screen m).backUp fuel (p.next.skip flags.length)) p.next [] := by
  induction flags using List.reverseRecOn generalizing fuel with
  | nil =>
    obtain ⟨k, rfl⟩ : ∃ k, fuel = k + 1 := ⟨fuel - 1, by omega⟩
    rw [List.length_nil, CharPtr.skip_zero, Printer.backUp, CharPtr.prev_next]
    refine (emits_read hat).step ?_
    rw [if_pos rfl]
    exact emits_pure _
  | append_singleton flags c ih =>
    obtain ⟨k, rfl⟩ : ∃ k, fuel = k + 1 := ⟨fuel - 1, by omega⟩
    obtain ⟨hspan, hatc, -⟩ := CharPtr.spans_append.mp hspan
    have hlast : p.next.skip (flags ++ [c]).length = (p.next.skip flags.length).next := by
      rw [List.length_append, CharPtr.skip_add]
      rfl
    rw [hlast, Printer.backUp, CharPtr.prev_next]
    refine (emits_read hatc).step ?_
    rw [if_neg (hflags c (by simp))]
    refine ih hspan (fun c hc => hflags c (by simp [hc])) ?_
    rw [List.length_append, List.length_singleton] at hfuel
    omega

theorem ne_percent (hflags : ∀ c ∈ flags, ¬ EndsFlags c) : ∀ c ∈ flags, c ≠ chr '%' := by
  rintro c hc rfl
  exact hflags _ hc (by decide)

/-- A conversion the switch does not know: a '%', and the scanner goes back behind the '%'. -/
theorem converts_unknown (hat : p.At m (chr '%')) (hspan : p.next.Spans m flags)
    (hflags : ∀ c ∈ flags, ¬ EndsFlags c) (hu : u ∉ convChars) :
    Converts m u (p.next.skip flags.length).next ap d p.next ap [(chr '%').setWidth 32] := by
  refine ⟨flags.length + 1, fun fuel hfuel => ?_⟩
  simp only [convChars, List.mem_cons, List.not_mem_nil, or_false, not_or] at hu
  obtain ⟨h1, h2, h3, h4, h5, h6, h7, h8, h9⟩ := hu
  rw [Printer.convert, if_neg h1, if_neg h2, if_neg h3, if_neg h4, if_neg h5, if_neg h6, if_neg h7,
    if_neg h8, if_neg h9, CharPtr.prev_next]
  have hback := emits_backUp hat hspan (ne_percent hflags) (Nat.lt_of_succ_le hfuel)
  exact (emits_putch _).finish (hback.step (emits_pure _))

/-- Ordinary characters. -/
theorem formats_text (hspan : p.Spans m t) (ht : ∀ c ∈ t, c ≠ chr '%')
    (hrest : Formats m (p.skip t.length) ap out) : Formats m p ap (chars t ++ out) := by
  induction t generalizing p with
  | nil => exact hrest
  | cons c t ih =>
    obtain ⟨hat, hne, hspan⟩ := hspan
    have htail := ih hspan (fun c hc => ht c (List.mem_cons_of_mem _ hc)) hrest
    exact formats_char hat hne (ht c (by simp)) htail

/-- A directive the scanner does not know, or that is cut off, is put out as a '%' and then as
ordinary text. -/
theorem formats_unknown (hat : p.At m (chr '%')) (hspan : p.next.Spans m flags)
    (hflags : ∀ c ∈ flags, ¬ EndsFlags c) (hend : (p.next.skip flags.length).At m u) (hu : EndsFlags u)
    (hconv : u ∉ convChars)
    (hrest : Formats m (p.next.skip flags.length) (ap.drop (starCount flags)) out) :
    Formats m p ap (chars (chr '%' :: flags) ++ out) := by
  obtain ⟨d', hscan⟩ := scans_flags (d := .start) hflags hspan hend hu
  have htext := formats_text hspan (ne_percent hflags) hrest
  have h := formats_escape hat hscan (converts_unknown hat hspan hflags hconv) htext
  exact h

/-- The format of the errors without a text. -/
theorem formats_errorFormat (hholds : p.Holds m errorFormat) : ∃ out, Formats m p ap out := by
  have hsplit : errorFormat = [chr 'e', chr 'r', chr 'r', chr 'o', chr 'r', chr ' '] ++
      fieldDirective NumConv.d.char false none ArgSize.int.count := rfl
  rw [hsplit, ← List.append_nil (fieldDirective _ _ _ _), CharPtr.holds_append] at hholds
  obtain ⟨hspan, hdirective⟩ := hholds
  have hfield := prints_codeField (m := m) (w := none) (fun k hk => by cases hk) .d .int false ap
  have hend : Formats m _ (ap.drop 1) [] :=
    formats_end (CharPtr.holds_nil.mp (CharPtr.holds_append.mp hdirective).2)
  exact ⟨_, formats_text hspan (by decide) (hfield [] _ [] hdirective hend)⟩

theorem errorString_ne_zero {err : Word} (h : errorString err = some s) : ∀ c ∈ s, c ≠ 0 := by
  unfold errorString at h
  split at h <;> cases h <;> decide

/-- An error is put out as its text or as its number. -/
theorem settles_putError (err : Word) : ∃ out, Settles fun fuel =>
    Emits ((screen m).putError fuel ((screen m).vprintfmt fuel) err) () out := by
  simp only [Printer.putError]
  generalize (if err.toInt < 0 then -err else err) = err
  cases htext : if maxError ≤ err.toInt then none else errorString err with
  | none => exact formats_errorFormat (CharPtr.holds_text (by decide))
  | some s =>
    have hs : errorString err = some s := by
      split at htext
      · cases htext
      · exact htext
    exact ⟨_, emits_putString (CharPtr.holds_text (errorString_ne_zero hs))⟩

/-- The conversions that the switch knows go on right behind themselves. -/
theorem converts_known (hm : StringsEnd m) (hu : u ∈ convChars) :
    ∃ out k, Converts m u q ap d q (ap.drop k) out := by
  have hint : ∃ k, (getint ap d.lflag).2 = ap.drop k := by
    unfold getint
    split
    · exact ⟨2, rfl⟩
    · exact ⟨1, rfl⟩
  have huint : ∃ k, (getuint ap d.lflag).2 = ap.drop k := by
    unfold getuint
    split
    · exact ⟨2, rfl⟩
    · exact ⟨1, rfl⟩
  have hten : 2 ≤ (10 : Word).toNat := by decide
  have height : 2 ≤ (8 : Word).toNat := by decide
  have hsixteen : 2 ≤ (16 : Word).toNat := by decide
  simp only [convChars, List.mem_cons, List.not_mem_nil, or_false] at hu
  rcases hu with rfl | rfl | rfl | rfl | rfl | rfl | rfl | rfl | rfl
  · -- a character
    exact ⟨_, 1, settles_of_forall fun fuel => by
      rw [Printer.convert, if_pos rfl]
      exact (emits_putch _).finish (emits_pure _)⟩
  · -- an error
    obtain ⟨out, herror⟩ := settles_putError (m := m) (ap 0)
    exact ⟨out, 1, herror.mono fun fuel hfuel => by
      rw [Printer.convert, if_neg (by decide), if_pos rfl]
      exact hfuel.finish (emits_pure _)⟩
  · -- a string
    obtain ⟨s, hs⟩ := hm (ap 0)
    have harg : ArgString m (ap 0) (if ap 0 = 0 then nullText else s) := by
      unfold ArgString
      split
      · rfl
      · exact hs
    have hput := emits_putString (d := d) (holds_argString harg)
    exact ⟨_, 1, hput.mono fun fuel hfuel => by
      rw [Printer.convert, if_neg (by decide), if_neg (by decide), if_pos rfl]
      exact hfuel.finish (emits_pure _)⟩
  · -- a signed number
    obtain ⟨k, hk⟩ := hint
    by_cases hneg : (getint ap d.lflag).1.toInt < 0
    · exact ⟨_, k, settles_of_forall fun fuel => by
        rw [Printer.convert, if_neg (by decide), if_neg (by decide), if_neg (by decide), if_pos rfl,
          if_pos hneg, ← hk]
        exact (emits_putch _).bind ((emits_number hten _ _ _).finish (emits_pure _))⟩
    · exact ⟨_, k, settles_of_forall fun fuel => by
        rw [Printer.convert, if_neg (by decide), if_neg (by decide), if_neg (by decide), if_pos rfl,
          if_neg hneg, ← hk]
        exact (emits_number hten _ _ _).finish (emits_pure _)⟩
  · -- unsigned numbers
    obtain ⟨k, hk⟩ := huint
    exact ⟨_, k, settles_of_forall fun fuel => by
      rw [Printer.convert, if_neg (by decide), if_neg (by decide), if_neg (by decide), if_neg (by decide),
        if_pos rfl, ← hk]
      exact (emits_number hten _ _ _).finish (emits_pure _)⟩
  · obtain ⟨k, hk⟩ := huint
    exact ⟨_, k, settles_of_forall fun fuel => by
      rw [Printer.convert, if_neg (by decide), if_neg (by decide), if_neg (by decide), if_neg (by decide),
        if_neg (by decide), if_pos rfl, ← hk]
      exact (emits_number height _ _ _).finish (emits_pure _)⟩
  · exact ⟨_, 1, converts_pointer⟩
  · obtain ⟨k, hk⟩ := huint
    exact ⟨_, k, settles_of_forall fun fuel => by
      rw [Printer.convert, if_neg (by decide), if_neg (by decide), if_neg (by decide), if_neg (by decide),
        if_neg (by decide), if_neg (by decide), if_neg (by decide), if_pos rfl, ← hk]
      exact (emits_number hsixteen _ _ _).finish (emits_pure _)⟩
  · exact ⟨_, 0, settles_of_forall fun fuel => by
      rw [Printer.convert, if_neg (by decide), if_neg (by decide), if_neg (by decide), if_neg (by decide),
        if_neg (by decide), if_neg (by decide), if_neg (by decide), if_neg (by decide), if_pos rfl]
      exact (emits_putch _).finish (emits_pure _)⟩

/-- What follows the flags of a directive: the next character, or the NUL. -/
theorem exists_flags (t : List Byte) : ∃ flags r, t = flags ++ r ∧ (∀ c ∈ flags, ¬ EndsFlags c) ∧
    EndsFlags (r.headD 0) := by
  obtain ⟨flags, r, rfl, hflags, hr⟩ := exists_run (¬ EndsFlags ·) t
  refine ⟨flags, r, rfl, hflags, ?_⟩
  cases r with
  | nil => exact show EndsFlags 0 by decide
  | cons c r => exact not_not.mp (hr c rfl)

/-- The scanner comes to the end of every format. -/
theorem formats_total (hm : StringsEnd m) (h : p.Holds m fmt) (ap : VaList) :
    ∃ out, Formats m p ap out := by
  induction hn : fmt.length using Nat.strong_induction_on generalizing fmt p ap with
  | _ n ih =>
    subst hn
    cases fmt with
    | nil => exact ⟨[], formats_end (CharPtr.holds_nil.mp h)⟩
    | cons c t =>
      obtain ⟨hat, hne, hrest⟩ := CharPtr.holds_cons.mp h
      by_cases hc : c = chr '%'
      · subst hc
        obtain ⟨flags, r, rfl, hflags, hend⟩ := exists_flags t
        obtain ⟨hspan, hr⟩ := CharPtr.holds_append.mp hrest
        by_cases hconv : r.headD 0 ∈ convChars
        · cases r with
          | nil => exact absurd hconv (by decide)
          | cons u r =>
            obtain ⟨d', hscan⟩ := scans_flags (d := .start) hflags hspan hr.head hend
            obtain ⟨out, k, hout⟩ := converts_known (d := d') hm hconv
            obtain ⟨out', hout'⟩ :=
              ih r.length (by simp; omega) (CharPtr.holds_cons.mp hr).2.2 (_ : VaList) rfl
            exact ⟨_, formats_escape hat hscan hout hout'⟩
        · obtain ⟨out, hout⟩ := ih r.length (by simp) hr (ap.drop (starCount flags)) rfl
          exact ⟨_, formats_unknown hat hspan hflags hr.head hend hconv hout⟩
      · obtain ⟨out, hout⟩ := ih t.length (by simp) hrest ap rfl
        exact ⟨_, formats_char hat hne hc hout⟩

/-- In a memory with a NUL, a string starts at every address. -/
theorem stringsEnd_of_nul {mem : Word → Byte} (hnul : ∃ a, mem a = 0) :
    StringsEnd fun a => some (mem a) := by
  intro a
  have hex : ∃ n, mem (a + BitVec.ofNat 32 n) = 0 := by
    obtain ⟨b, hb⟩ := hnul
    refine ⟨(b - a).toNat, ?_⟩
    rw [BitVec.ofNat_toNat, BitVec.setWidth_eq, BitVec.add_comm, BitVec.sub_add_cancel, hb]
  refine ⟨(List.range (Nat.find hex)).map fun j => mem (a + BitVec.ofNat 32 j),
    CharPtr.holds_mem_iff.mpr ⟨fun j hj => ?_, ?_⟩⟩
  · rw [List.length_map, List.length_range] at hj
    rw [List.getElem_map, List.getElem_range]
    exact ⟨rfl, Nat.find_min hex hj⟩
  · rw [List.length_map, List.length_range]
    exact congrArg some (Nat.find_spec hex)

theorem scansFormat_of_holds (hm : StringsEnd m) (h : p.Holds m fmt) : ScansFormat m fmt p where
  returns := by
    rintro pre rest ap rfl
    exact formats_total hm (CharPtr.holds_append.mp h).2 ap
  char := by
    rintro pre c rest ap out rfl hc hout
    obtain ⟨hat, hne, -⟩ := CharPtr.holds_cons.mp (CharPtr.holds_append.mp h).2
    rw [List.length_append, CharPtr.skip_add] at hout
    exact formats_char hat hne hc hout
  unknown := by
    rintro pre flags u rest ap out rfl hflags hu hconv hout
    obtain ⟨hat, -, hrest⟩ := CharPtr.holds_cons.mp (CharPtr.holds_append.mp h).2
    obtain ⟨hspan, hr⟩ := CharPtr.holds_append.mp hrest
    obtain ⟨hatu, hne, -⟩ := CharPtr.holds_cons.mp hr
    rw [List.length_append, List.length_cons, List.length_append, CharPtr.skip_add, CharPtr.skip_succ,
      CharPtr.skip_add] at hout
    have hpercent : u ≠ chr '%' := by
      rintro rfl
      exact hconv (by decide)
    have h := formats_unknown hat hspan hflags hatu hu hconv (formats_char hatu hne hpercent hout)
    rw [← List.cons_append, chars_append, List.append_assoc]
    exact h
  cut := by
    rintro pre flags ap rfl hflags
    obtain ⟨hat, -, hrest⟩ := CharPtr.holds_cons.mp (CharPtr.holds_append.mp h).2
    rw [← List.append_nil flags] at hrest
    obtain ⟨hspan, hend⟩ := CharPtr.holds_append.mp hrest
    have hz := CharPtr.holds_nil.mp hend
    have hcut : Formats m (p.skip pre.length) ap (chars (chr '%' :: flags) ++ []) :=
      formats_unknown hat hspan hflags hz (by decide) (by decide) (formats_end hz)
    rwa [List.append_nil] at hcut

end scanner

/-- Whatever the format, vprintfmt returns, having read nothing of it but its characters and its NUL
(a read outside a string constant does not return); and nothing of it is lost. The same holds for a
format in memory. A NUL somewhere in memory ends the strings that are arguments. -/
theorem vprintfmt_scansFormat (mem : Word → Byte) (hnul : ∃ a, mem a = 0) (fmt : List Byte)
    (hfmt : ∀ c ∈ fmt, c ≠ 0) :
    ScansFormat (fun a => some (mem a)) fmt (.text fmt 0) ∧
      ∀ a, (CharPtr.mem a).Holds (fun a => some (mem a)) fmt →
        ScansFormat (fun a => some (mem a)) fmt (.mem a) :=
  ⟨scansFormat_of_holds (stringsEnd_of_nul hnul) (CharPtr.holds_text hfmt),
    fun _ h => scansFormat_of_holds (stringsEnd_of_nul hnul) h⟩

/-- "%-5" ends inside a directive. -/
theorem vprintfmt_scansFormat_cut :
    ScansFormat (fun _ => some 0) [chr '%', chr '-', chr '5'] (.text [chr '%', chr '-', chr '5'] 0) ∧
      ∀ a, (CharPtr.mem a).Holds (fun _ => some 0) [chr '%', chr '-', chr '5'] →
        ScansFormat (fun _ => some 0) [chr '%', chr '-', chr '5'] (.mem a) :=
  vprintfmt_scansFormat (fun _ => 0) ⟨0, rfl⟩ [chr '%', chr '-', chr '5'] (by decide)

end Jos
