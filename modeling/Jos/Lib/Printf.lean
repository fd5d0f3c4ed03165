import Jos.Lib.Snprintf

/-! cprintf's front ends: the kernel's (kern/printf.c) and the user library's (lib/printf.c). -/
namespace Jos

open Prog

/-- What the kernel's printf works on: the console, and the int that vcprintf has for the count. -/
structure KernPrint where
  console : List Word
  cnt : Word

namespace KernPrint

/-- `*cnt++` moves the pointer on that putch has been given, and leaves the int alone. -/
def putch (ch : Word) : Prog Halt KernPrint Unit := update fun s => { s with console := s.console ++ [ch] }

def printer (mem : Word → Option Byte) : Printer Halt KernPrint where
  load a :=
    match mem a with
    | none => stop .stray
    | some b => pure b
  putch := putch
  spin := .spin
  stray := .stray

def vcprintf (fuel : Nat) (mem : Word → Option Byte) (fmt : CharPtr) (ap : VaList) :
    Prog Halt KernPrint Word := do
  update fun s => { s with cnt := 0 }
  (printer mem).vprintfmt fuel fmt ap
  let s ← Prog.read
  pure s.cnt

end KernPrint

/-- struct printbuf without its characters. -/
structure Printbuf where
  idx : Word
  cnt : Word

/-- What the user library's printf rests on: loads, stores to the characters of its printbuf, and the
system call. -/
structure UserLib (ε σ : Type) where
  load : Word → Prog ε σ Byte
  store : Word → Byte → Prog ε σ Unit
  sysCputs : Word → Prog ε σ Unit
  spin : ε
  stray : ε

namespace UserLib

variable {ε σ α : Type} (lib : UserLib ε σ)

/-- A program that leaves the printbuf alone. -/
def lift (x : Prog ε σ α) : Prog ε (Printbuf × σ) α :=
  ⟨fun s => match x s.2 with
    | .ok a t => .ok a (s.1, t)
    | .stop e t => .stop e (s.1, t)⟩

/-- `b->buf[b->idx++] = ch`, in bounds. -/
def append (ch : Word) : Prog ε (Printbuf × σ) Unit := do
  let s ← Prog.read
  check lib.stray (s.1.idx.toNat < 256)
  lift (lib.store s.1.idx (ch.setWidth 8))
  update fun s => ({ s.1 with idx := s.1.idx + 1 }, s.2)

/-- The system call once the buffer is full. -/
def flushFull : Prog ε (Printbuf × σ) Unit := do
  let s ← Prog.read
  if s.1.idx = 256 - 1 then do
    lift (lib.sysCputs s.1.idx)
    update fun s => ({ s.1 with idx := 0 }, s.2)
  else
    pure ()

def putch (ch : Word) : Prog ε (Printbuf × σ) Unit := do
  lib.append ch
  lib.flushFull
  update fun s => ({ s.1 with cnt := s.1.cnt + 1 }, s.2)

def printer : Printer ε (Printbuf × σ) where
  load a := lift (lib.load a)
  putch := lib.putch
  spin := lib.spin
  stray := lib.stray

/-- What vcprintf does around the call of vprintfmt. -/
def session (print : Prog ε (Printbuf × σ) Unit) : Prog ε (Printbuf × σ) Word := do
  update fun s => (⟨0, 0⟩, s.2)
  print
  let s ← Prog.read
  lift (lib.sysCputs s.1.idx)
  pure s.1.cnt

def vcprintf (fuel : Nat) (fmt : CharPtr) (ap : VaList) : Prog ε (Printbuf × σ) Word :=
  lib.session (lib.printer.vprintfmt fuel fmt ap)

/-- The callback, for one character after the other. -/
def putAll : List Word → Prog ε (Printbuf × σ) Unit
  | [] => pure ()
  | w :: ws => do
    lib.putch w
    putAll ws

end UserLib

/-- From the states `Ok`, the loads give `m`, and stores to the buffer and system calls for a part of it
return, to states like that. -/
structure UserLib.Quiet {ε σ : Type} (lib : UserLib ε σ) (m : Word → Option Byte) (Ok : σ → Prop) :
    Prop where
  load : ∀ a c s, Ok s → m a = some c → lib.load a s = .ok c s
  store : ∀ i c s, Ok s → i.toNat < 256 → ∃ t, lib.store i c s = .ok () t ∧ Ok t
  sysCputs : ∀ n s, Ok s → n.toNat < 256 → ∃ t, lib.sysCputs n s = .ok () t ∧ Ok t

/-- The three front ends return the length of the output. -/
def CountAlike {ε σ : Type} (lib : UserLib ε σ) (Ok : σ → Prop) (mem : Word → Byte) (fmt : CharPtr)
    (ap : VaList) (buf n : Word) (out : List Word) : Prop :=
  Settles fun fuel =>
    (∀ k, ∃ k', KernPrint.vcprintf fuel (fun a => some (mem a)) fmt ap k =
      .ok (BitVec.ofNat 32 out.length) k') ∧
    (∀ s, Ok s.2 → ∃ s', lib.vcprintf fuel fmt ap s = .ok (BitVec.ofNat 32 out.length) s') ∧
    ∀ b : Sprintbuf, b.mem = mem → ∃ b', Sprintbuf.vsnprintf fuel buf n fmt ap b =
      .ok (BitVec.ofNat 32 out.length) b'

section counts

variable {ε σ α : Type} {lib : UserLib ε σ} {Ok : σ → Prop} {m : Word → Option Byte} {mem : Word → Byte}
  {fmt : CharPtr} {ap : VaList} {buf n w : Word} {out l : List Word} {fuel : Nat} {s : Printbuf × σ}

theorem lift_ok {x : Prog ε σ α} {a : α} {t : σ} (h : x s.2 = .ok a t) :
    UserLib.lift x s = .ok a (s.1, t) := by
  change (match x s.2 with | .ok a t => Outcome.ok a (s.1, t) | .stop e t => .stop e (s.1, t)) = _
  rw [h]

/-- The kernel's front end prints all of the output and counts none of it. -/
theorem kernVcprintf_returns (hemits : Emits ((screen m).vprintfmt fuel fmt ap) () out) (k : KernPrint) :
    KernPrint.vcprintf fuel m fmt ap k = .ok 0 ⟨k.console ++ out, 0⟩ := by
  have hgoes : Printer.Goes (Sim.always fun l k' => k' = ⟨k.console ++ l, 0⟩) (screen m)
      (KernPrint.printer m) := by
    constructor
    · intro a l c l' hload
      refine ⟨trivial, ?_⟩
      rintro - u rfl
      obtain ⟨ha, rfl⟩ := screen_load_eq_ok hload
      unfold KernPrint.printer
      dsimp only
      rw [ha]
      exact ⟨_, rfl, rfl⟩
    · intro w l v l' hput
      refine ⟨trivial, ?_⟩
      rintro - u rfl
      cases update_eq_ok.mp hput
      refine ⟨_, rfl, ?_⟩
      change (⟨k.console ++ l ++ [w], 0⟩ : KernPrint) = ⟨k.console ++ (l ++ [w]), 0⟩
      rw [List.append_assoc]
  obtain ⟨-, hrun⟩ := hgoes.vprintfmt fuel fmt ap [] () out (hemits [])
  have hstart : (⟨k.console, 0⟩ : KernPrint) = ⟨k.console ++ [], 0⟩ := by rw [List.append_nil]
  obtain ⟨v, hv, rfl⟩ := hrun trivial ⟨k.console, 0⟩ hstart
  rw [KernPrint.vcprintf, bind_ok (update_apply _ _), bind_ok hv, bind_ok (read_apply _)]
  rfl

/-- The count and the index of the user's buffer, when `l` has been put into it. -/
structure UserLib.Counts (Ok : σ → Prop) (l : List Word) (s : Printbuf × σ) : Prop where
  ok : Ok s.2
  cnt : s.1.cnt = BitVec.ofNat 32 l.length
  idx : s.1.idx.toNat ≤ 254

theorem toNat_add_one (h : s.1.idx.toNat ≤ 254) : (s.1.idx + 1).toNat = s.1.idx.toNat + 1 := by
  rw [BitVec.toNat_add, show (1 : Word).toNat = 1 from rfl]
  omega

theorem append_ok {t : σ} (hidx : s.1.idx.toNat ≤ 254)
    (hstore : lib.store s.1.idx (w.setWidth 8) s.2 = .ok () t) :
    lib.append w s = .ok () ({ s.1 with idx := s.1.idx + 1 }, t) := by
  rw [UserLib.append, bind_ok (read_apply s), bind_ok (check_true (by omega) s), bind_ok (lift_ok hstore)]
  rfl

theorem flushFull_room (hne : s.1.idx ≠ 256 - 1) : lib.flushFull s = .ok () s := by
  rw [UserLib.flushFull, bind_ok (read_apply _), if_neg hne]
  rfl

theorem flushFull_full {t : σ} (hfull : s.1.idx = 256 - 1) (hcall : lib.sysCputs 255 s.2 = .ok () t) :
    lib.flushFull s = .ok () (⟨0, s.1.cnt⟩, t) := by
  rw [← show (256 - 1 : Word) = 255 by decide, ← hfull] at hcall
  rw [UserLib.flushFull, bind_ok (read_apply _), if_pos hfull, bind_ok (lift_ok hcall)]
  rfl

/-- putch, while there is room behind the character. -/
theorem putch_room {t : σ} (hidx : s.1.idx.toNat ≤ 253)
    (hstore : lib.store s.1.idx (w.setWidth 8) s.2 = .ok () t) :
    lib.putch w s = .ok () (⟨s.1.idx + 1, s.1.cnt + 1⟩, t) := by
  have hne : s.1.idx + 1 ≠ 256 - 1 := by
    intro he
    have hnat := congrArg BitVec.toNat he
    rw [toNat_add_one (by omega), show (256 - 1 : Word).toNat = 255 by decide] at hnat
    omega
  rw [UserLib.putch, bind_ok (append_ok (by omega) hstore), bind_ok (flushFull_room hne)]
  rfl

/-- putch, with the last character of a full buffer. -/
theorem putch_full {t u : σ} (hidx : s.1.idx.toNat = 254)
    (hstore : lib.store s.1.idx (w.setWidth 8) s.2 = .ok () t) (hcall : lib.sysCputs 255 t = .ok () u) :
    lib.putch w s = .ok () (⟨0, s.1.cnt + 1⟩, u) := by
  have hfull : s.1.idx + 1 = 256 - 1 := by
    apply BitVec.eq_of_toNat_eq
    rw [toNat_add_one (by omega), hidx]
    rfl
  rw [UserLib.putch, bind_ok (append_ok (by omega) hstore), bind_ok (flushFull_full hfull hcall)]
  rfl

/-- putch counts, and leaves room in the buffer. -/
theorem UserLib.Quiet.putch (h : lib.Quiet m Ok) (hs : UserLib.Counts Ok l s) (w : Word) :
    ∃ t, lib.putch w s = .ok () t ∧ UserLib.Counts Ok (l ++ [w]) t := by
  have hidx := hs.idx
  have hcnt : s.1.cnt + 1 = BitVec.ofNat 32 (l ++ [w]).length := by
    rw [hs.cnt, List.length_append, List.length_singleton, BitVec.ofNat_add]
    rfl
  obtain ⟨t, hstore, ht⟩ := h.store s.1.idx (w.setWidth 8) s.2 hs.ok (by omega)
  by_cases hfull : s.1.idx.toNat = 254
  · obtain ⟨u, hcall, hu⟩ := h.sysCputs 255 t ht (by decide)
    exact ⟨_, putch_full hfull hstore hcall, hu, hcnt, Nat.zero_le _⟩
  · refine ⟨_, putch_room (by omega) hstore, ht, hcnt, ?_⟩
    change (s.1.idx + 1).toNat ≤ 254
    rw [toNat_add_one hidx]
    omega

/-- The user's front end counts right, whatever becomes of its system calls. -/
theorem userVcprintf_returns (h : lib.Quiet m Ok) (hemits : Emits ((screen m).vprintfmt fuel fmt ap) () out)
    (hs : Ok s.2) : ∃ t, lib.vcprintf fuel fmt ap s = .ok (BitVec.ofNat 32 out.length) t ∧ Ok t.2 := by
  have hgoes : Printer.Goes (Sim.always (UserLib.Counts Ok)) (screen m) lib.printer := by
    constructor
    · intro a l c l' hload
      refine ⟨trivial, fun _ u hu => ?_⟩
      obtain ⟨ha, rfl⟩ := screen_load_eq_ok hload
      exact ⟨u, lift_ok (h.load a c u.2 hu.ok ha), hu⟩
    · intro w l v l' hput
      refine ⟨trivial, fun _ u hu => ?_⟩
      cases update_eq_ok.mp hput
      exact h.putch hu w
  obtain ⟨-, hrun⟩ := hgoes.vprintfmt fuel fmt ap [] () out (hemits [])
  obtain ⟨t, ht, hcounts⟩ := hrun trivial (⟨0, 0⟩, s.2) ⟨hs, rfl, Nat.zero_le _⟩
  have hidx := hcounts.idx
  obtain ⟨u, hcall, hu⟩ := h.sysCputs t.1.idx t.2 hcounts.ok (by omega)
  rw [UserLib.vcprintf, UserLib.session, bind_ok (update_apply _ _), bind_ok ht, bind_ok (read_apply _),
    bind_ok (lift_ok hcall), hcounts.cnt]
  exact ⟨_, rfl, hu⟩

/-- Without output, nothing is written before the NUL, so the buffer may lie anywhere. -/
theorem vsnprintf_empty (hemits : Emits ((screen fun a => some (mem a)).vprintfmt fuel fmt ap) () [])
    (hbuf : buf ≠ 0) (hn : 1 ≤ n.toInt) (b : Sprintbuf) (hmem : b.mem = mem) :
    ∃ b', Sprintbuf.vsnprintf fuel buf n fmt ap b = .ok 0 b' := by
  have hvalid : ¬ (buf = 0 ∨ n.toInt < 1) := by
    rintro (hz | hlt)
    · exact hbuf hz
    · omega
  let S : Sim (List Word) Sprintbuf :=
    { Rel := fun _ u => u = { b with buf := buf, ebuf := buf + n - 1, cnt := 0 }
      le := fun l l' => l <+: l'
      Live := fun l => l = []
      refl := fun l => List.prefix_rfl
      trans := fun _ _ _ h h' => h.trans h'
      live_of_le := fun l l' h hl => List.prefix_nil.mp (hl ▸ h) }
  have hgoes : Printer.Goes S (screen fun a => some (mem a)) Sprintbuf.printer := by
    constructor
    · intro a l c l' hload
      obtain ⟨rfl, rfl⟩ := pure_eq_ok.mp hload
      refine ⟨List.prefix_rfl, ?_⟩
      rintro - u rfl
      exact ⟨_, by rw [← hmem]; rfl, rfl⟩
    · intro w l v l' hput
      cases update_eq_ok.mp hput
      refine ⟨List.prefix_append l [w], fun hlive => ?_⟩
      exact absurd hlive (by simp [S])
  obtain ⟨-, hrun⟩ := hgoes.vprintfmt fuel fmt ap [] () [] (hemits [])
  obtain ⟨u, hu, rfl⟩ := hrun rfl _ rfl
  rw [Sprintbuf.vsnprintf, bind_ok (update_apply _ _), if_neg hvalid, bind_ok hu]
  exact ⟨_, rfl⟩

theorem countAlike_iff_empty (hlib : lib.Quiet (fun a => some (mem a)) Ok)
    (hbuf : buf ≠ 0) (hn : 1 ≤ n.toInt) (hout : Formats (fun a => some (mem a)) fmt ap out)
    (hlen : out.length < 2 ^ 31) : CountAlike lib Ok mem fmt ap buf n out ↔ out = [] := by
  constructor
  · intro h
    obtain ⟨fuel, ⟨hkern, -, -⟩, hemits⟩ := Settles.exists_both h hout
    obtain ⟨k', hk'⟩ := hkern ⟨[], 0⟩
    rw [kernVcprintf_returns hemits] at hk'
    have hzero : (0 : Word) = BitVec.ofNat 32 out.length := by
      injection hk'
    have hnat := congrArg BitVec.toNat hzero
    rw [BitVec.toNat_ofNat, Nat.mod_eq_of_lt (by omega)] at hnat
    exact List.length_eq_zero_iff.mp hnat.symm
  · rintro rfl
    refine Settles.mono hout fun fuel hemits => ⟨fun k => ⟨_, kernVcprintf_returns hemits k⟩, ?_, ?_⟩
    · intro s hs
      obtain ⟨t, ht, -⟩ := userVcprintf_returns hlib hemits hs
      exact ⟨t, ht⟩
    · exact vsnprintf_empty hemits hbuf hn

end counts

/-- The kernel's front end counts nothing, so the three agree on no output but the empty one. -/
theorem countAlike_iff {ε σ : Type} (lib : UserLib ε σ) (Ok : σ → Prop) (mem : Word → Byte)
    (hlib : lib.Quiet (fun a => some (mem a)) Ok) (fmt : CharPtr) (ap : VaList) (buf n : Word)
    (hbuf : buf ≠ 0) (hn : 1 ≤ n.toInt) (out : List Word)
    (hout : Formats (fun a => some (mem a)) fmt ap out) (hlen : out.length < 2 ^ 31) :
    CountAlike lib Ok mem fmt ap buf n out ↔ out = [] :=
  countAlike_iff_empty hlib hbuf hn hout hlen

/-- The characters of a printbuf, and the system calls made for it so far. -/
structure Recording where
  buf : Nat → Byte
  calls : List (List Byte)

/-- The user library over a fixed memory, with system calls that only take the characters. -/
def recorder (mem : Word → Byte) : UserLib Halt Recording where
  load a := pure (mem a)
  store i c := update fun s => { s with buf := Function.update s.buf i.toNat c }
  sysCputs n := update fun s => { s with calls := s.calls ++ [(List.range n.toNat).map s.buf] }
  spin := .spin
  stray := .stray

theorem quiet_recorder (mem : Word → Byte) :
    (recorder mem).Quiet (fun a => some (mem a)) fun _ => True where
  load a c s _ h := by
    cases h
    rfl
  store i c s _ _ := ⟨_, rfl, trivial⟩
  sysCputs n s _ _ := ⟨_, rfl, trivial⟩

theorem formats_x : Formats (fun _ => some 0) (.text [chr 'x'] 0) (fun _ => 0) [(chr 'x').setWidth 32] := by
  have h : (CharPtr.text [chr 'x'] 0).Holds (fun _ => some 0) [chr 'x'] := CharPtr.holds_text (by decide)
  obtain ⟨hat, hne, hrest⟩ := CharPtr.holds_cons.mp h
  exact formats_char hat hne (by decide) (formats_end (CharPtr.holds_nil.mp hrest))

theorem countAlike_iff_x : CountAlike (recorder fun _ => 0) (fun _ => True) (fun _ => 0)
    (.text [chr 'x'] 0) (fun _ => 0) 16 1 [(chr 'x').setWidth 32] ↔ [(chr 'x').setWidth 32] = ([] : List Word) :=
  countAlike_iff (recorder fun _ => 0) (fun _ => True) (fun _ => 0) (quiet_recorder _) (.text [chr 'x'] 0)
    (fun _ => 0) 16 1 (by decide) (by decide) _ formats_x (by decide)

/-- For "x", the kernel's front end returns 0. -/
theorem not_countAlike : ¬ ∀ (mem : Word → Byte) (fmt : CharPtr) (ap : VaList) (buf n : Word)
    (out : List Word), buf ≠ 0 → 1 ≤ n.toInt → Formats (fun a => some (mem a)) fmt ap out →
    out.length < 2 ^ 31 → CountAlike (recorder mem) (fun _ => True) mem fmt ap buf n out := by
  intro hall
  have h := hall (fun _ => 0) (.text [chr 'x'] 0) (fun _ => 0) 16 1 _ (by decide) (by decide) formats_x
    (by decide)
  rw [countAlike_iff_empty (quiet_recorder _) (by decide) (by decide) formats_x (by decide)] at h
  cases h

end Jos
