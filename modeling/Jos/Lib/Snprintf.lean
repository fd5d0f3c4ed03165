import Jos.Lib.PrinterSim
import Jos.Lib.FormatScan

/-! vsnprintf (lib/printfmt.c): formatting into a buffer of a given size. -/
namespace Jos

open Prog

def eInval : Int := 3

/-- struct sprintbuf, with the memory it points into. -/
structure Sprintbuf where
  buf : Word
  ebuf : Word
  cnt : Word
  mem : Word → Byte

namespace Sprintbuf

def sprintputch (ch : Word) : Prog Halt Sprintbuf Unit := do
  update fun b => { b with cnt := b.cnt + 1 }
  update fun b =>
    if b.buf < b.ebuf then
      { b with mem := Function.update b.mem b.buf (ch.setWidth 8), buf := b.buf + 1 }
    else
      b

def printer : Printer Halt Sprintbuf where
  load a := do
    let b ← Prog.read
    pure (b.mem a)
  putch := sprintputch
  spin := .spin
  stray := .stray

def vsnprintf (fuel : Nat) (buf n : Word) (fmt : CharPtr) (ap : VaList) : Prog Halt Sprintbuf Word := do
  update fun b => { b with buf := buf, ebuf := buf + n - 1, cnt := 0 }
  if buf = 0 ∨ n.toInt < 1 then
    pure (BitVec.ofInt 32 (-eInval))
  else do
    printer.vprintfmt fuel fmt ap
    update fun b => { b with mem := Function.update b.mem b.buf 0 }
    let b ← Prog.read
    pure b.cnt

end Sprintbuf

open Sprintbuf

/-- The memory around a buffer. -/
def outside (mem : Word → Byte) (buf n : Word) : Word → Option Byte := fun a =>
  if (a - buf).toNat < n.toNat then none else some (mem a)

/-- The text that fits a buffer of `n` bytes. -/
def fitting (n : Nat) (out : List Word) : List Byte := (out.take (n - 1)).map (·.setWidth 8)

/-- The bytes stand at `buf`, and everything else is as it was. -/
def TextAt (mem mem' : Word → Byte) (buf : Word) (t : List Byte) : Prop :=
  (∀ i (hi : i < t.length), mem' (buf + BitVec.ofNat 32 i) = t[i]) ∧
    ∀ a, t.length ≤ (a - buf).toNat → mem' a = mem a

/-- vsnprintf writes the text that fits and a NUL, and returns the length of the whole. -/
def Bounds (mem : Word → Byte) (buf n : Word) (fmt : CharPtr) (ap : VaList) (out : List Word) : Prop :=
  ∀ b : Sprintbuf, b.mem = mem → Settles fun fuel => ∃ b', vsnprintf fuel buf n fmt ap b =
    .ok (BitVec.ofNat 32 out.length) b' ∧ TextAt mem b'.mem buf (fitting n.toNat out ++ [0])

/-- A buffer of `n` bytes lies in memory. -/
def IsBuffer (buf n : Word) : Prop := buf ≠ 0 ∧ 1 ≤ n.toInt ∧ buf.toNat + n.toNat ≤ 2 ^ 32

/-- What vsnprintf promises for a buffer and for the same buffer taken shorter, when vprintfmt puts out
`out` over the memory `m`; without a buffer it changes nothing. -/
def BoundedFormat (mem : Word → Byte) (m : Word → Option Byte) (buf n : Word) (fmt : CharPtr)
    (ap : VaList) : Prop :=
  (buf = 0 ∨ n.toInt < 1 → ∀ fuel b, ∃ b', vsnprintf fuel buf n fmt ap b =
    .ok (BitVec.ofInt 32 (-eInval)) b' ∧ b'.mem = b.mem) ∧
  (IsBuffer buf n → ∀ out, Formats m fmt ap out → Bounds mem buf n fmt ap out ∧
    ∀ k : Word, 1 ≤ k.toInt → k.toNat ≤ n.toNat →
      Bounds mem buf k fmt ap out ∧ fitting k.toNat out <+: fitting n.toNat out)

section vsnprintf

variable {mem : Word → Byte} {m m' : Word → Option Byte} {buf n k : Word} {fmt : CharPtr} {ap : VaList}
  {out : List Word} {t : List Byte} {c : Byte} {i : Nat}

/-- The memory with a text at `buf`. -/
def overlay (mem : Word → Byte) (buf : Word) (t : List Byte) : Word → Byte := fun a =>
  t.getD (a - buf).toNat (mem a)

theorem overlay_append (ht : t.length < 2 ^ 32) :
    Function.update (overlay mem buf t) (buf + BitVec.ofNat 32 t.length) c = overlay mem buf (t ++ [c]) := by
  funext a
  by_cases ha : a = buf + BitVec.ofNat 32 t.length
  · subst ha
    have hoff : (buf + BitVec.ofNat 32 t.length - buf).toNat = t.length := by
      rw [BitVec.add_comm, BitVec.add_sub_cancel, BitVec.toNat_ofNat, Nat.mod_eq_of_lt ht]
    rw [Function.update_self, overlay, hoff]
    simp
  · have hne : (a - buf).toNat ≠ t.length := by
      intro he
      apply ha
      rw [← he, BitVec.ofNat_toNat, BitVec.setWidth_eq, BitVec.add_comm, BitVec.sub_add_cancel]
    rw [Function.update_of_ne ha, overlay, overlay]
    rcases Nat.lt_or_gt_of_ne hne with hlt | hgt
    · rw [List.getD_append _ _ _ _ hlt]
    · rw [List.getD_eq_default _ _ (Nat.le_of_lt hgt), List.getD_eq_default]
      rw [List.length_append, List.length_singleton]
      omega

theorem textAt_overlay (ht : t.length ≤ 2 ^ 32) : TextAt mem (overlay mem buf t) buf t := by
  constructor
  · intro i hi
    rw [overlay, BitVec.add_comm, BitVec.add_sub_cancel, BitVec.toNat_ofNat, Nat.mod_eq_of_lt (by omega),
      List.getD_eq_getElem _ _ hi]
  · intro a ha
    exact List.getD_eq_default _ _ ha

theorem length_fitting (n : Nat) (out : List Word) : (fitting n out).length = min (n - 1) out.length := by
  rw [fitting, List.length_map, List.length_take]

theorem fitting_append_lt {n : Nat} {l : List Word} {w : Word} (h : l.length < n - 1) :
    fitting n (l ++ [w]) = fitting n l ++ [w.setWidth 8] := by
  rw [fitting, fitting, List.take_of_length_le (by simp; omega), List.take_of_length_le (by omega),
    List.map_append]
  rfl

theorem fitting_append_ge {n : Nat} {l : List Word} {w : Word} (h : n - 1 ≤ l.length) :
    fitting n (l ++ [w]) = fitting n l := by
  rw [fitting, fitting, List.take_append_of_le_length h]

/-- The text for a smaller size is the start of the text for a larger one. -/
theorem fitting_prefix {i j : Nat} (h : i ≤ j) (out : List Word) : fitting i out <+: fitting j out :=
  (List.take_prefix_take_left (by omega)).map _

/-- What has become of the buffer when the characters `l` have been put out. -/
structure Put (mem : Word → Byte) (buf n : Word) (l : List Word) (b : Sprintbuf) : Prop where
  count : b.cnt = BitVec.ofNat 32 l.length
  limit : b.ebuf = buf + n - 1
  cursor : b.buf = buf + BitVec.ofNat 32 (fitting n.toNat l).length
  memory : b.mem = overlay mem buf (fitting n.toNat l)

theorem IsBuffer.pos (h : IsBuffer buf n) : 1 ≤ n.toNat ∧ n.toNat < 2 ^ 31 := by
  have hn := n.isLt
  have hint := h.2.1
  rw [BitVec.toInt_eq_toNat_cond] at hint
  split at hint <;> omega

/-- sprintputch keeps count of all characters and stores those that fit. -/
theorem Put.sprintputch {l : List Word} {b : Sprintbuf} {w : Word} (hbuf : IsBuffer buf n)
    (h : Put mem buf n l b) :
    ∃ b', Sprintbuf.sprintputch w b = .ok () b' ∧ Put mem buf n (l ++ [w]) b' := by
  obtain ⟨hpos, hlt⟩ := hbuf.pos
  have hsum := hbuf.2.2
  have hlen := length_fitting n.toNat l
  have hcnt : b.cnt + 1 = BitVec.ofNat 32 (l ++ [w]).length := by
    rw [h.count, List.length_append, List.length_singleton, BitVec.ofNat_add]
    rfl
  have hroom : b.buf < b.ebuf ↔ l.length < n.toNat - 1 := by
    have hnat : b.buf.toNat = buf.toNat + (fitting n.toNat l).length := by
      rw [h.cursor, BitVec.toNat_add, BitVec.toNat_ofNat]
      omega
    have henat : b.ebuf.toNat = buf.toNat + n.toNat - 1 := by
      rw [h.limit, BitVec.toNat_sub, BitVec.toNat_add, show (1 : Word).toNat = 1 from rfl]
      omega
    rw [BitVec.lt_def, hnat, henat]
    omega
  refine ⟨_, rfl, ?_⟩
  by_cases hfits : l.length < n.toNat - 1
  · have hstep := fitting_append_lt (w := w) hfits
    dsimp only
    rw [if_pos (hroom.mpr hfits)]
    refine ⟨hcnt, h.limit, ?_, ?_⟩
    · change b.buf + 1 = _
      rw [h.cursor, hstep, List.length_append, List.length_singleton, BitVec.ofNat_add, BitVec.add_assoc]
      rfl
    · change Function.update b.mem b.buf (w.setWidth 8) = _
      rw [h.memory, h.cursor, hstep, overlay_append (by rw [hlen]; omega)]
  · have hstep := fitting_append_ge (w := w) (Nat.not_lt.mp hfits)
    dsimp only
    rw [if_neg fun hb => hfits (hroom.mp hb)]
    exact ⟨hcnt, h.limit, hstep ▸ h.cursor, hstep ▸ h.memory⟩

/-- vprintfmt into the buffer follows vprintfmt over the memory around it. -/
theorem goes_sprintbuf (hbuf : IsBuffer buf n) :
    Printer.Goes (Sim.always (Put mem buf n)) (screen (outside mem buf n)) Sprintbuf.printer where
  load := by
    intro a l c l' hload
    refine ⟨trivial, fun _ b hb => ?_⟩
    obtain ⟨hpos, hlt⟩ := hbuf.pos
    unfold screen outside at hload
    dsimp only at hload
    by_cases hin : (a - buf).toNat < n.toNat
    · rw [if_pos hin] at hload
      exact absurd hload stop_ne_ok
    · rw [if_neg hin] at hload
      obtain ⟨rfl, rfl⟩ := pure_eq_ok.mp hload
      have hout : b.mem a = mem a := by
        rw [hb.memory, overlay, List.getD_eq_default]
        rw [length_fitting]
        omega
      exact ⟨b, by rw [← hout]; rfl, hb⟩
  putch := by
    intro w l v l' hput
    refine ⟨trivial, fun _ b hb => ?_⟩
    cases update_eq_ok.mp hput
    exact hb.sprintputch hbuf

theorem put_nil (b : Sprintbuf) (hmem : b.mem = mem) :
    Put mem buf n [] { b with buf := buf, ebuf := buf + n - 1, cnt := 0 } where
  count := rfl
  limit := rfl
  cursor := by
    rw [fitting, List.take_nil, List.map_nil, List.length_nil, BitVec.add_zero]
  memory := by
    rw [fitting, List.take_nil, List.map_nil]
    exact hmem

theorem bounds_of_formats (hbuf : IsBuffer buf n) (h : Formats (outside mem buf n) fmt ap out) :
    Bounds mem buf n fmt ap out := by
  obtain ⟨hpos, hlt⟩ := hbuf.pos
  have hvalid : ¬ (buf = 0 ∨ n.toInt < 1) := by
    rintro (hz | hn)
    · exact hbuf.1 hz
    · have := hbuf.2.1
      omega
  intro b hmem
  refine h.mono fun fuel hemits => ?_
  have hrun := (goes_sprintbuf hbuf).vprintfmt fuel fmt ap [] () out (hemits [])
  obtain ⟨b', hb', hput⟩ := hrun.2 trivial _ (put_nil b hmem)
  have hlen := length_fitting n.toNat out
  rw [vsnprintf, bind_ok (update_apply _ _), if_neg hvalid, bind_ok hb', bind_ok (update_apply _ _),
    bind_ok (read_apply _), pure_apply, hput.count]
  refine ⟨_, rfl, ?_⟩
  dsimp only
  rw [hput.memory, hput.cursor, overlay_append (by rw [hlen]; omega)]
  apply textAt_overlay
  rw [List.length_append, List.length_singleton]
  omega

/-- More memory to read does not change what is put out. -/
theorem formats_mono (hm : ∀ a c, m a = some c → m' a = some c) (h : Formats m fmt ap out) :
    Formats m' fmt ap out := by
  have hgoes : Printer.Goes (Sim.always Eq) (screen m) (screen m') := by
    constructor
    · intro a l c l' hload
      refine ⟨trivial, fun _ u hu => ?_⟩
      subst hu
      obtain ⟨ha, rfl⟩ := screen_load_eq_ok hload
      exact ⟨_, screen_load_ok (hm a c ha) _, rfl⟩
    · intro w l v l' hput
      refine ⟨trivial, fun _ u hu => ?_⟩
      subst hu
      exact ⟨l', hput, rfl⟩
  refine Settles.mono h fun fuel hemits l => ?_
  obtain ⟨-, hrun⟩ := hgoes.vprintfmt fuel fmt ap l () (l ++ out) (hemits l)
  obtain ⟨v, hv, rfl⟩ := hrun trivial l rfl
  exact hv

theorem outside_shorter (hk : k.toNat ≤ n.toNat) (a : Word) (c : Byte) (h : outside mem buf n a = some c) :
    outside mem buf k a = some c := by
  unfold outside at h ⊢
  split at h
  · cases h
  · rw [if_neg (by omega)]
    exact h

end vsnprintf

/-- vsnprintf does what it promises whatever the format and its arguments are, as long as they are
read outside the buffer. -/
theorem vsnprintf_bounded (mem : Word → Byte) (buf n : Word) (fmt : CharPtr) (ap : VaList) :
    BoundedFormat mem (outside mem buf n) buf n fmt ap := by
  constructor
  · intro hinvalid fuel b
    refine ⟨{ b with buf := buf, ebuf := buf + n - 1, cnt := 0 }, ?_, rfl⟩
    rw [vsnprintf, bind_ok (update_apply _ _), if_pos hinvalid]
    rfl
  · intro hbuf out hout
    refine ⟨bounds_of_formats hbuf hout, fun k hpos hk => ⟨?_, fitting_prefix hk out⟩⟩
    have hsum := hbuf.2.2
    exact bounds_of_formats ⟨hbuf.1, hpos, by omega⟩ (formats_mono (outside_shorter hk) hout)

/-- "x%s" of the buffer itself: the empty string there is not empty any more when it is read. -/
theorem not_vsnprintf_bounded : ¬ ∀ (mem : Word → Byte) (buf n : Word) (fmt : CharPtr) (ap : VaList),
    BoundedFormat mem (fun a => some (mem a)) buf n fmt ap := by
  intro hall
  have hformats : Formats (fun _ => some 0) (.text [chr 'x', chr '%', chr 's'] 0) (fun _ => 16)
      [(chr 'x').setWidth 32] := by
    refine ⟨8, fun fuel hfuel => ?_⟩
    obtain ⟨k, rfl⟩ : ∃ k, fuel = k + 8 := ⟨fuel - 8, by omega⟩
    exact fun l => rfl
  have hclaim := (hall (fun _ => 0) 16 3 (.text [chr 'x', chr '%', chr 's'] 0) (fun _ => 16)).2
    ⟨by decide, by decide, by decide⟩ _ hformats
  obtain ⟨bound, hbound⟩ := hclaim.1 ⟨0, 0, 0, fun _ => 0⟩ rfl
  obtain ⟨b', hrun, -⟩ := hbound (bound + 8) (by omega)
  have hcode : ∃ b', vsnprintf (bound + 8) 16 3 (.text [chr 'x', chr '%', chr 's'] 0) (fun _ => 16)
      ⟨0, 0, 0, fun _ => 0⟩ = .ok 3 b' := ⟨_, rfl⟩
  obtain ⟨b'', hcode⟩ := hcode
  rw [hcode] at hrun
  cases hrun

end Jos
